import LambdaLifting.Proofs.NewNames

namespace LambdaLifting

namespace Term

theorem mem_globals_substitute_of_mem {t : Term} {c : Name} (h : c ∈ t.globals) (s : Replacement) :
    c ∈ (t.substitute s).globals := by
  induction t generalizing s with
  | var y => simp [globals] at h
  | global d => exact h
  | lit l => exact h
  | app f x ihf ihx =>
    rcases List.mem_append.1 h with h | h
    · exact List.mem_append_left _ (ihf h s)
    · exact List.mem_append_right _ (ihx h s)
  | lam b body ih => exact ih h (s.hide b.id)
  | letIn b value body ihv ih =>
    rcases List.mem_append.1 h with h | h
    · exact List.mem_append_left _ (ihv h s)
    · exact List.mem_append_right _ (ih h (s.hide b.id))

end Term

/-- The later of two procedures in order does not occur in the earlier. -/
theorem Ordered.lt_of_mem_globals {ctx : LiftContext} {ds : List Definition} (h : Ordered ctx ds)
    {i j : Nat} {d e : Definition} (hd : ds[i]? = some d) (he : ds[j]? = some e)
    (hc : e.name ∈ d.body.globals) : j < i := by
  induction h with
  | nil => simp at hd
  | @concat ds c hds hname hbody ih =>
    have hlen {k : Nat} {x : Definition} (hx : (ds ++ [c])[k]? = some x) :
        ds[k]? = some x ∨ k = ds.length ∧ x = c := by
      rcases Nat.lt_or_ge k ds.length with hk | hk
      · exact .inl (List.getElem?_append_left hk ▸ hx)
      · rw [List.getElem?_append_right hk, List.getElem?_singleton] at hx
        split at hx
        · exact .inr ⟨by omega, (Option.some.inj hx).symm⟩
        · cases hx
    rcases hlen hd with hi | ⟨rfl, rfl⟩ <;> rcases hlen he with hj | ⟨rfl, rfl⟩
    · exact ih hi hj
    · have := hds.takenAt d (List.mem_of_getElem? hi) _ hc
      simp [hname] at this
    · exact (List.getElem?_eq_some_iff.1 hj).1
    · have := hbody _ hc
      simp [hname] at this

/-- Each procedure is mentioned in the body of a later one, or its name is in `P`. -/
def Used (P : Name → Prop) : List Definition → Prop
  | [] => True
  | d :: ds => (P d.name ∨ ∃ e ∈ ds, d.name ∈ e.body.globals) ∧ Used P ds

namespace Used

variable {P Q : Name → Prop} {ds es : List Definition}

theorem append (h : Used P ds) (h' : Used Q es)
    (hP : ∀ c, P c → Q c ∨ ∃ e ∈ es, c ∈ e.body.globals) : Used Q (ds ++ es) := by
  induction ds with
  | nil => exact h'
  | cons d ds ih =>
    refine ⟨?_, ih h.2⟩
    rcases h.1 with hd | ⟨e, he, hd⟩
    · refine (hP _ hd).imp_right ?_
      rintro ⟨e, he, hc⟩
      exact ⟨e, List.mem_append_right _ he, hc⟩
    · exact .inr ⟨e, List.mem_append_left _ he, hd⟩

theorem mono (h : Used P ds) (hP : ∀ c, P c → Q c) : Used Q ds := by
  have happend : Used Q (ds ++ []) := h.append trivial fun c hc => .inl (hP c hc)
  rwa [List.append_nil] at happend

theorem exists_later (h : Used P ds) {i : Nat} {d : Definition} (hd : ds[i]? = some d) :
    P d.name ∨ ∃ j e, i < j ∧ ds[j]? = some e ∧ d.name ∈ e.body.globals := by
  induction ds generalizing i with
  | nil => simp at hd
  | cons c ds ih =>
    cases i with
    | zero =>
      obtain rfl : c = d := by simpa using hd
      refine h.1.imp_right ?_
      rintro ⟨e, he, hc⟩
      obtain ⟨j, hj⟩ := List.getElem?_of_mem he
      exact ⟨j + 1, e, j.succ_pos, hj, hc⟩
    | succ i =>
      refine (ih h.2 hd).imp_right ?_
      rintro ⟨j, e, hij, hj, hc⟩
      exact ⟨j + 1, e, Nat.succ_lt_succ hij, hj, hc⟩

end Used

/-- Each global of a term is in `K` or names a procedure made so far. -/
def Cites (K : Name → Prop) (w : Stage) (t : Term) : Prop :=
  ∀ c ∈ t.globals, K c ∨ c ∈ w.lifted.map Definition.name

def Context.Cites (K : Name → Prop) (w : Stage) (Γ : Context) : Prop :=
  ∀ d ∈ Γ, ∀ v, d.value = some v → LambdaLifting.Cites K w v

/-- A later stage. The new procedures are used, by one another or through names in `P`, and refer to
what is in `K` or was made. -/
def Stage.Links (K P : Name → Prop) (w w' : Stage) : Prop :=
  ∃ ds, w'.lifted = w.lifted ++ ds ∧ Used P ds ∧ ∀ d ∈ ds, Cites K w' d.body

namespace Cites

variable {K P : Name → Prop} {w w' : Stage} {t : Term}

theorem mono (h : Cites K w t) (hw : w.Links K P w') : Cites K w' t := by
  obtain ⟨ds, hds, -⟩ := hw
  refine fun c hc => (h c hc).imp_right fun hc => ?_
  rw [hds, List.map_append]
  exact List.mem_append_left _ hc

theorem var (x : LocalId) : Cites K w (.var x) := by simp [Cites, Term.globals]

theorem apply {f : Term} {xs : List Term} (hf : Cites K w f) (hxs : ∀ x ∈ xs, Cites K w x) :
    Cites K w (f.apply xs) := by
  intro c hc
  rcases Term.mem_globals_apply.1 hc with hc | ⟨x, hx, hc⟩
  · exact hf c hc
  · exact hxs x hx c hc

theorem of_apply {f : Term} {xs : List Term} (h : Cites K w (f.apply xs)) :
    Cites K w f ∧ ∀ x ∈ xs, Cites K w x :=
  ⟨fun c hc => h c (Term.mem_globals_apply.2 (.inl hc)),
    fun x hx c hc => h c (Term.mem_globals_apply.2 (.inr ⟨x, hx, hc⟩))⟩

theorem stable (K : Name → Prop) (w : Stage) : Stable (Cites K w) := stable_globals _

theorem substitute {s : Replacement} (h : Cites K w t)
    (hs : ∀ x u, s x = some u → Cites K w u) : Cites K w (t.substitute s) := by
  intro c hc
  rcases Term.mem_globals_substitute hc with hc | ⟨y, u, hu, hcu⟩
  · exact h c hc
  · exact hs y u hu c hcu

theorem lambdas {bs : List Binder} (h : Cites K w t) : Cites K w (Term.lambdas bs t) := by
  intro c hc
  exact h c (Term.globals_lambdas bs t ▸ hc)

end Cites

namespace Context.Cites

variable {K P : Name → Prop} {w w' : Stage} {Γ : Context}

theorem mono (h : Γ.Cites K w) (hw : w.Links K P w') : Γ.Cites K w' :=
  fun d hd v hv => (h d hd v hv).mono hw

theorem enter (h : Γ.Cites K w) (bs : List Binder) : (Γ.enter bs).Cites K w := by
  induction bs generalizing Γ with
  | nil => exact h
  | cons b bs ih => exact ih (List.forall_mem_cons.2 ⟨by simp, h⟩)

end Context.Cites

namespace Stage.Links

variable {K P Q : Name → Prop} {w w' w'' : Stage}

theorem refl (w : Stage) : w.Links K P w := ⟨[], by simp, trivial, by simp⟩

theorem mint (w : Stage) (k : Nat) : w.Links K P (w.mint k) :=
  ⟨[], by simp [Stage.mint], trivial, by simp⟩

/-- What uses the first procedures is still there, or has become the body of a later one. -/
theorem trans_of_imp (h : w.Links K P w') (h' : w'.Links K Q w'')
    (hP : ∀ c, P c → Q c ∨ ∃ e ∈ w''.lifted.drop w'.lifted.length, c ∈ e.body.globals) :
    w.Links K Q w'' := by
  have hw' := h'
  obtain ⟨ds, hds, hused, hcites⟩ := h
  obtain ⟨es, hes, hused', hcites'⟩ := h'
  rw [hes, List.drop_left] at hP
  refine ⟨ds ++ es, by rw [hes, hds, List.append_assoc], hused.append hused' hP, ?_⟩
  exact List.forall_mem_append.2 ⟨fun d hd => (hcites d hd).mono hw', hcites'⟩

theorem trans (h : w.Links K P w') (h' : w'.Links K P w'') : w.Links K P w'' :=
  h.trans_of_imp h' fun _ => .inl

theorem mono (h : w.Links K P w') (hP : ∀ c, P c → Q c) : w.Links K Q w' :=
  h.trans_of_imp (refl w') fun c hc => .inl (hP c hc)

end Stage.Links

theorem Calls.links {ctx : LiftContext} {K P : Name → Prop} {v w w' : Stage} {t u : Term}
    (h : Calls ctx w t w' u) (hw : v.Links K P w) (hP : ∀ c, P c → c ∈ t.globals)
    (ht : Cites K w t) : v.Links K (· ∈ u.globals) w' ∧ Cites K w' u := by
  cases h with
  | reuse =>
    refine ⟨hw.mono fun c hc => t.globals_etaReduce ▸ hP c hc, fun c hc => ?_⟩
    exact ht c (t.globals_etaReduce ▸ hc)
  | @new _ name names _ _ =>
    have hnew : w.Links K (· ∈ (Term.global name).globals)
        ⟨w.nextLocal, names, w.lifted ++ [⟨name, t⟩]⟩ := by
      refine ⟨[⟨name, t⟩], rfl, ⟨.inl List.mem_cons_self, trivial⟩, ?_⟩
      refine List.forall_mem_singleton.2 fun c hc => (ht c hc).imp_right fun hc => ?_
      simp [hc]
    refine ⟨hw.trans_of_imp hnew fun c hc => .inr ⟨⟨name, t⟩, by simp, hP c hc⟩, fun c hc => ?_⟩
    rw [Term.globals, List.mem_singleton] at hc
    simp [hc]

/-- Lifting as far as it is given by `R` refers to what is known, and all that it makes is used. -/
def Judgment.Links (K : Name → Prop) (R : Judgment) : Prop :=
  ∀ ⦃Γ w t w' u⦄, Γ.Cites K w → Cites K w t → R Γ w t w' u →
    w.Links K (· ∈ u.globals) w' ∧ Cites K w' u

namespace Judgment.Links

variable {ctx : LiftContext} {K : Name → Prop} {R : Judgment} {Γ : Context} {w w' : Stage}

theorem each {α : Type} {term : α → Term} {P : Stage → α → Stage → Term → Prop}
    (hP : ∀ ⦃w x w' u⦄, Γ.Cites K w → Cites K w (term x) → P w x w' u →
      w.Links K (· ∈ u.globals) w' ∧ Cites K w' u) {xs : List α} {us : List Term}
    (hΓ : Γ.Cites K w) (hxs : ∀ x ∈ xs, Cites K w (term x)) (h : Each P w xs w' us) :
    w.Links K (fun c => ∃ u ∈ us, c ∈ u.globals) w' ∧ ∀ u ∈ us, Cites K w' u := by
  induction h with
  | nil w => exact ⟨.refl w, by simp⟩
  | cons hx _ ih =>
    obtain ⟨hx', hxs⟩ := List.forall_mem_cons.1 hxs
    obtain ⟨h₁, hu⟩ := hP hΓ hx' hx
    obtain ⟨h₂, hus⟩ := ih (hΓ.mono h₁) fun x hx => (hxs x hx).mono h₁
    refine ⟨.trans (h₁.mono fun c hc => ?_) (h₂.mono fun c hc => ?_),
      List.forall_mem_cons.2 ⟨hu.mono h₂, hus⟩⟩
    · exact ⟨_, List.mem_cons_self, hc⟩
    · obtain ⟨u, hu, hc⟩ := hc
      exact ⟨u, List.mem_cons_of_mem _ hu, hc⟩

theorem under (hR : R.Links K) (k : Nat) : (Under ctx R k).Links K := by
  rintro Γ w t w' - hΓ ht ⟨hp, hr⟩
  have hw := Stage.Links.mint (K := K) (P := fun _ => False) w k
  have hi := (Cites.stable K w).peels hp .empty ht
  obtain ⟨h, hu⟩ := hR ((hΓ.enter _).mono hw) (hi.mono hw) hr
  refine ⟨(hw.mono fun _ => False.elim).trans (h.mono fun c hc => ?_), hu.lambdas⟩
  rwa [Term.globals_lambdas]

theorem arm (hR : R.Links K) (params : Nat) ⦃w : Stage⦄ ⦃x : Name × Term⦄ ⦃w' : Stage⦄ ⦃u : Term⦄
    (hΓ : Γ.Cites K w) (hx : Cites K w x.2) (h : Arm ctx R params Γ w x w' u) :
    w.Links K (· ∈ u.globals) w' ∧ Cites K w' u := by
  obtain ⟨-, h⟩ := h
  exact hR.under _ hΓ hx h

theorem chain (hR : R.Links K) {s : Replacement} {t u : Term} {ds : List (Binder × Term)}
    (hs : s.Renames) (hΓ : Γ.Cites K w) (ht : Cites K w t) (h : Chain R Γ s w t w' ds u) :
    w.Links K (· ∈ (Term.lets ds u).globals) w' ∧ Cites K w' (Term.lets ds u) := by
  induction h with
  | done _ hr => exact hR hΓ ((Cites.stable K _).rename hs ht) hr
  | @letIn Γ s w b v body w' v' w'' ds u hr _ ih =>
    obtain ⟨hv, hb⟩ := (Cites.stable K w).letIn ht
    obtain ⟨h₁, hv'⟩ := hR hΓ ((Cites.stable K w).rename hs hv) hr
    have hΓ' : Context.Cites K w' (⟨⟨w'.nextLocal⟩, b.name, some v'⟩ :: Γ) := by
      refine List.forall_mem_cons.2 ⟨fun _ e => ?_, hΓ.mono h₁⟩
      exact Option.some.inj e ▸ hv'
    have hw (P : Name → Prop) : w'.Links K P (w'.mint 1) := .mint w' 1
    obtain ⟨h₂, hu⟩ := ih (hs.add _ _) (hΓ'.mono (hw fun _ => False))
      ((hb.mono h₁).mono (hw fun _ => False))
    have h₂ := (hw _).trans h₂
    refine ⟨.trans (h₁.mono fun c => List.mem_append_left _)
      (h₂.mono fun c => List.mem_append_right _), fun c hc => ?_⟩
    rcases List.mem_append.1 hc with hc | hc
    · exact hv'.mono h₂ c hc
    · exact hu c hc

theorem rule (hR : R.Links K) : (Rule ctx R).Links K := by
  intro Γ w t w' u hΓ ht h
  cases h with
  | var => exact ⟨.refl w, ht⟩
  | global c => exact ⟨.refl w, ht⟩
  | lit l => exact ⟨.refl w, ht⟩
  | @dispatch _ _ c type t scrut arms extra _ _ _ _ _ _ _ _ _ hs he ha =>
    obtain ⟨hc, hargs⟩ := ht.of_apply
    obtain ⟨hks, hargs⟩ := List.forall_mem_cons.1 hargs
    obtain ⟨hka, hke⟩ := List.forall_mem_append.1 hargs
    obtain ⟨h₁, hs⟩ := hR hΓ hks hs
    obtain ⟨h₂, he⟩ := each (@hR Γ) (hΓ.mono h₁) (fun x hx => (hke x hx).mono h₁) he
    have hkz : ∀ x ∈ t.constructors.zip arms, Cites K w x.2 :=
      fun x hx => hka x.2 (List.of_mem_zip hx).2
    obtain ⟨h₃, ha⟩ := each (hR.arm _) ((hΓ.mono h₁).mono h₂)
      (fun x hx => ((hkz x hx).mono h₁).mono h₂) ha
    refine ⟨.trans (h₁.mono fun c hc => ?_)
      (.trans (h₂.mono fun c hc => ?_) (h₃.mono fun c hc => ?_)), ?_⟩
    · exact Term.mem_globals_apply.2 (.inr ⟨_, List.mem_cons_self, hc⟩)
    · obtain ⟨u, hu, hc⟩ := hc
      exact Term.mem_globals_apply.2 (.inr ⟨u, by simp [hu], hc⟩)
    · obtain ⟨u, hu, hc⟩ := hc
      exact Term.mem_globals_apply.2 (.inr ⟨u, by simp [hu], hc⟩)
    · refine (((hc.mono h₁).mono h₂).mono h₃).apply (List.forall_mem_cons.2 ⟨?_, ?_⟩)
      · exact (hs.mono h₂).mono h₃
      · exact List.forall_mem_append.2 ⟨ha, fun x hx => (he x hx).mono h₃⟩
  | beta hstep _ hr => exact hR hΓ ((Cites.stable K w).transGen hstep ht) hr
  | call _ _ _ _ hf ha =>
    obtain ⟨hkf, hka⟩ := ht.of_apply
    obtain ⟨h₁, hf⟩ := hR hΓ hkf hf
    obtain ⟨h₂, ha⟩ := each (@hR Γ) (hΓ.mono h₁) (fun x hx => (hka x hx).mono h₁) ha
    refine ⟨.trans (h₁.mono fun c hc => ?_) (h₂.mono fun c hc => ?_), (hf.mono h₂).apply ha⟩
    · exact Term.mem_globals_apply.2 (.inl hc)
    · exact Term.mem_globals_apply.2 (.inr hc)
  | @lam _ _ _ _ w₁ _ _ k _ _ _ hu hc hcall =>
    obtain ⟨h₁, he⟩ := hR.under _ hΓ ht hu
    have h₁' := h₁.trans (.mint w₁ k)
    obtain ⟨bs, s, rfl, hs, -⟩ := hc.exists_substitute Cites.var (fun _ _ => Cites.substitute)
      (hΓ.mono h₁)
    -- What the abstraction uses becomes part of the body of the new procedure.
    obtain ⟨h₂, hcallee⟩ := hcall.links h₁'
      (fun c hc => by rw [Term.globals_lambdas]; exact Term.mem_globals_substitute_of_mem hc s)
      (he.substitute hs).lambdas
    refine ⟨h₂.mono fun c hc => Term.mem_globals_apply.2 (.inl hc), hcallee.apply fun x hx => ?_⟩
    obtain ⟨y, -, rfl⟩ := List.mem_map.1 hx
    exact Cites.var y
  | letIn hc => exact hR.chain .empty hΓ ht hc

end Judgment.Links

/-- Lifted terms refer to what is known and to all that was made for them. -/
theorem LiftsIn.links (ctx : LiftContext) (K : Name → Prop) (n : Nat) :
    (LiftsIn ctx n).Links K := by
  induction n with
  | zero => exact fun _ _ _ _ _ _ _ h => h.elim
  | succ n ih => exact ih.rule

def Procedure.Mentions (a : Arena) (q : Procedure) (c : Name) : Prop :=
  ∃ t, a.term? q.body = some t ∧ c ∈ t.globals

theorem Procedure.mentions_iff {a : Arena} {q : Procedure} {t : Term}
    (hq : a.term? q.body = some t) {c : Name} : q.Mentions a c ↔ c ∈ t.globals := by
  refine ⟨?_, fun hc => ⟨t, hq, hc⟩⟩
  rintro ⟨u, hu, hc⟩
  rwa [← Option.some.inj (hu.symm.trans hq)]

def Report.newProcedures (r : Report) (p : Program) : List Procedure :=
  r.program.procedures.drop p.procedures.length

structure Report.Linked (r : Report) (p : Program) : Prop where
  /-- New procedures refer to new ones before them only. -/
  earlier : ∀ (i j : Nat) (q o : Procedure), (r.newProcedures p)[i]? = some q →
    (r.newProcedures p)[j]? = some o → q.Mentions r.program.arena o.name → j < i
  /-- What is referred to is new, or was referred to before. -/
  origin : ∀ q ∈ r.program.procedures, ∀ c, q.Mentions r.program.arena c →
    (∃ o ∈ p.procedures, o.Mentions p.arena c) ∨ ∃ o ∈ r.newProcedures p, o.name = c
  /-- To each new procedure there is a reference, from a given one or from a later new one. -/
  used : ∀ (i : Nat) (q : Procedure), (r.newProcedures p)[i]? = some q →
    (∃ o ∈ r.program.procedures.take p.procedures.length, o.Mentions r.program.arena q.name) ∨
      ∃ (j : Nat) (o : Procedure), i < j ∧ (r.newProcedures p)[j]? = some o ∧
        o.Mentions r.program.arena q.name

namespace Derives

variable {fuel : Nat} {ctx : LiftContext} {a b : Arena} {ps given lifted : List Procedure}
  {v w : Stage} {ts us : List Term}

/-- The given procedures are lifted to terms that use all that is made. All terms refer to what was
referred to before, or was made. -/
theorem links (h : Derives fuel ctx a ps b given lifted v w ts us) {K : Name → Prop}
    (hts : ∀ t ∈ ts, ∀ c ∈ t.globals, K c) :
    Used (fun c => ∃ u ∈ us, c ∈ u.globals) w.lifted ∧ (∀ u ∈ us, Cites K w u) ∧
      ∀ d ∈ w.lifted, Cites K w d.body := by
  obtain ⟨⟨ds, hds, hused, hcites⟩, hus⟩ := Judgment.Links.each (Γ := []) (K := K)
    (fun _ t _ _ hΓ ht h => (LiftsIn.links ctx K fuel).under t.leading hΓ ht h)
    (by simp [Context.Cites]) (fun t ht c hc => .inl (hts t ht c hc)) h.each
  rw [h.lifted_eq_nil, List.nil_append] at hds
  exact ⟨hds ▸ hused, hus, hds ▸ hcites⟩

theorem lt_of_mentions (h : Derives fuel ctx a ps b given lifted v w ts us)
    (hordered : Ordered ctx w.lifted) {i j : Nat} {q o : Procedure} (hq : lifted[i]? = some q)
    (ho : lifted[j]? = some o) (hc : q.Mentions b o.name) : j < i := by
  obtain ⟨d, hd, -, hterm⟩ := getElem?_of_forall₂ h.shows hq
  obtain ⟨e, he, hname, -⟩ := getElem?_of_forall₂ h.shows ho
  exact hordered.lt_of_mem_globals hd he (hname ▸ (Procedure.mentions_iff hterm).1 hc)

theorem mem_names_of_cites {K : Name → Prop} (h : Derives fuel ctx a ps b given lifted v w ts us)
    (hus : ∀ u ∈ us, Cites K w u) (hlifted : ∀ d ∈ w.lifted, Cites K w d.body) {q : Procedure}
    (hq : q ∈ given ++ lifted) {c : Name} (hc : q.Mentions b c) :
    K c ∨ ∃ o ∈ lifted, o.name = c := by
  obtain ⟨t, ht, hcites⟩ := h.forall_output hus hlifted q hq
  refine (hcites c ((Procedure.mentions_iff ht).1 hc)).imp_right fun hm => ?_
  obtain ⟨d, hd, rfl⟩ := List.mem_map.1 hm
  obtain ⟨o, ho, hname, -⟩ := exists_of_mem_forall₂ h.shows.flip hd
  exact ⟨o, ho, hname⟩

theorem exists_mentions (h : Derives fuel ctx a ps b given lifted v w ts us)
    (hused : Used (fun c => ∃ u ∈ us, c ∈ u.globals) w.lifted) {i : Nat} {q : Procedure}
    (hq : lifted[i]? = some q) : (∃ o ∈ given, o.Mentions b q.name) ∨
      ∃ (j : Nat) (o : Procedure), i < j ∧ lifted[j]? = some o ∧ o.Mentions b q.name := by
  obtain ⟨d, hd, hname, -⟩ := getElem?_of_forall₂ h.shows hq
  rw [hname]
  rcases hused.exists_later hd with ⟨u, hu, hc⟩ | ⟨j, e, hij, he, hc⟩
  · obtain ⟨e, he, hterm⟩ := exists_of_mem_forall₂ h.output.flip hu
    obtain ⟨o, ho, rfl⟩ := List.mem_map.1 he
    exact .inl ⟨o, ho, u, hterm, hc⟩
  · obtain ⟨o, ho, -, hterm⟩ := getElem?_of_forall₂ h.shows.flip he
    exact .inr ⟨j, o, hij, ho, e.body, hterm, hc⟩

end Derives

namespace Program

variable {fuel : Nat} {env : Environment} {p : Program} {names names' : NameSource}
  {report : Report}

/-- In a lifted program, new procedures refer to earlier ones, references are new or were there
before, and each new procedure is referred to. -/
theorem linked_of_lift (hp : p.arena.WellFormed)
    (hbodies : ∀ q ∈ p.procedures, ∃ t, p.arena.term? q.body = some t ∧
      ∀ c ∈ t.globals, p.Knows env c)
    (hrun : p.lift fuel env names = .ok (report, names')) (herror : report.error? = none) :
    report.Linked p := by
  obtain ⟨ctx, given, lifted, v, w, ts, us, rfl, hctx, hprocs, h⟩ := derives_of_lift hp hrun herror
  have hinput := h.forall_input hbodies
  have hknown (t : Term) (ht : t ∈ ts) : Known ctx v t := by
    intro c hc
    rw [h.lifted_eq_nil, LiftContext.takenAt_nil_iff, hctx]
    exact (hinput t ht).1 c hc
  obtain ⟨hordered, -⟩ := LiftsBody.named h.each h.lifted_eq_nil hknown
  have hfrom (t : Term) (ht : t ∈ ts) (c : Name) (hc : c ∈ t.globals) :
      ∃ o ∈ p.procedures, o.Mentions p.arena c := by
    obtain ⟨-, q, hq, hterm⟩ := hinput t ht
    exact ⟨q, hq, t, hterm, hc⟩
  obtain ⟨hused, hus, hlifted⟩ := h.links hfrom
  have hnew : report.newProcedures p = lifted := by
    rw [Report.newProcedures, hprocs, ← h.length_given, List.drop_left]
  refine ⟨?_, ?_, ?_⟩
  · rw [hnew]
    exact fun i j q o hq ho hc => h.lt_of_mentions hordered hq ho hc
  · rw [hnew, hprocs]
    exact fun q hq c hc => h.mem_names_of_cites hus hlifted hq hc
  · rw [hnew, hprocs, ← h.length_given, List.take_left]
    exact fun i q hq => h.exists_mentions hused hq

/-- A procedure with an abstraction in another one: `main = λ a, g (λ x, h (λ k, f k x))`. -/
def nestedProgram : Program where
  arena := .ofNodes
    [.var ⟨1⟩, .var ⟨2⟩, .global ⟨1⟩, .app ⟨2⟩ [⟨1⟩, ⟨0⟩], .lam ⟨⟨2⟩, ⟨6⟩⟩ ⟨3⟩,
      .global ⟨3⟩, .app ⟨5⟩ [⟨4⟩], .lam ⟨⟨1⟩, ⟨7⟩⟩ ⟨6⟩, .global ⟨2⟩, .app ⟨8⟩ [⟨7⟩],
      .lam ⟨⟨0⟩, ⟨5⟩⟩ ⟨9⟩] 3
  procedures := [⟨⟨4⟩, ⟨10⟩⟩]
  config := { owner := ⟨4⟩ }

/-- The inner abstraction is lifted first, and the outer one refers to it. -/
theorem linked_nestedProgram :
    nestedProgram.arena.WellFormed ∧
      (∀ q ∈ nestedProgram.procedures, ∃ t, nestedProgram.arena.term? q.body = some t ∧
        ∀ c ∈ t.globals, nestedProgram.Knows captureEnvironment c) ∧
      ∃ report names', nestedProgram.lift 40 captureEnvironment captureNames =
        .ok (report, names') ∧ report.error? = none ∧ report.program.procedures.length = 3 ∧
        report.Linked nestedProgram := by
  have hp : nestedProgram.arena.WellFormed := by decide +kernel
  have hbodies : ∀ q ∈ nestedProgram.procedures, ∃ t, nestedProgram.arena.term? q.body = some t ∧
      ∀ c ∈ t.globals, nestedProgram.Knows captureEnvironment c := by
    intro q hq
    obtain rfl := List.mem_singleton.1 hq
    have hall : (nestedProgram.arena.term? ⟨10⟩).any
        (fun t => t.globals.all captureEnvironment.contains) = true := by decide +kernel
    obtain ⟨t, ht, hglobals⟩ := (Option.any_eq_true ..).1 hall
    exact ⟨t, ht, fun c hc => .inl (List.all_eq_true.1 hglobals c hc)⟩
  have hlifts : nestedProgram.liftsTo 40 captureEnvironment captureNames 3 = true := by
    decide +kernel
  obtain ⟨report, names', hrun, herror, hlength⟩ := exists_of_liftsTo hlifts
  exact ⟨hp, hbodies, report, names', hrun, herror, hlength, linked_of_lift hp hbodies hrun herror⟩

end Program

end LambdaLifting
