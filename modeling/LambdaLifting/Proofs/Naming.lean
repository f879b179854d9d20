import LambdaLifting.Proofs.Stable

namespace LambdaLifting

theorem NameSource.not_taken_of_fresh {base : String} {taken : Name → Bool} {fuel : Nat}
    {s s' : NameSource} {name : Name} (h : fresh base taken fuel s = .ok (name, s')) :
    taken name = false := by
  induction fuel generalizing s with
  | zero => simp [fresh] at h
  | succ fuel ih =>
    simp only [fresh] at h
    split at h
    · exact ih h
    · next hn =>
      cases h
      simpa using hn

theorem LiftContext.takenAt_append {ctx : LiftContext} {ds : List Definition} {c : Name}
    (es : List Definition) (h : ctx.takenAt ds c = true) : ctx.takenAt (ds ++ es) c = true := by
  simp only [takenAt, ownsAt, List.any_append, Bool.or_eq_true] at h ⊢
  tauto

theorem LiftContext.takenAt_concat (ctx : LiftContext) (ds : List Definition) (d : Definition) :
    ctx.takenAt (ds ++ [d]) d.name = true := by
  simp [takenAt, ownsAt]

theorem LiftContext.takenAt_eq_true_iff {ctx : LiftContext} {ds : List Definition} {c : Name} :
    ctx.takenAt ds c = true ↔ ctx.takenAt [] c = true ∨ ∃ d ∈ ds, d.name = c := by
  simp only [takenAt, ownsAt, Bool.or_eq_true, List.any_eq_true, decide_eq_true_eq, List.any_nil,
    Bool.false_eq_true, or_false]
  exact or_right_comm

theorem LiftContext.takenAt_nil_iff {ctx : LiftContext} {c : Name} :
    ctx.takenAt [] c = true ↔ ctx.env.contains c = true ∨ c ∈ ctx.declared := by
  simp [takenAt, ownsAt, or_comm]

/-- Each procedure has a name that was not known before, and its body mentions names that were. -/
inductive Ordered (ctx : LiftContext) : List Definition → Prop where
  | nil : Ordered ctx []
  | concat {ds d} : Ordered ctx ds → ctx.takenAt ds d.name = false →
      (∀ c ∈ d.body.globals, ctx.takenAt ds c = true) → Ordered ctx (ds ++ [d])

/-- The bodies of procedures in order mention known names. -/
theorem Ordered.takenAt {ctx : LiftContext} {ds : List Definition} (h : Ordered ctx ds) :
    ∀ d ∈ ds, ∀ c ∈ d.body.globals, ctx.takenAt ds c = true := by
  induction h with
  | nil => simp
  | @concat ds d _ _ hd ih =>
    refine List.forall_mem_append.2 ⟨fun e he c hc => ?_, fun e he c hc => ?_⟩
    · exact LiftContext.takenAt_append _ (ih e he c hc)
    · rw [List.mem_singleton] at he
      exact LiftContext.takenAt_append _ (hd c (he ▸ hc))

def Known (ctx : LiftContext) (w : Stage) (t : Term) : Prop :=
  ∀ c ∈ t.globals, ctx.takenAt w.lifted c = true

def Context.Known (ctx : LiftContext) (w : Stage) (Γ : Context) : Prop :=
  ∀ d ∈ Γ, ∀ v, d.value = some v → LambdaLifting.Known ctx w v

/-- A later stage, with new procedures in order. -/
structure Stage.Names (ctx : LiftContext) (w w' : Stage) : Prop where
  lifted_eq : ∃ ds, w'.lifted = w.lifted ++ ds
  ordered : Ordered ctx w.lifted → Ordered ctx w'.lifted

namespace Stage.Names

variable {ctx : LiftContext} {w w' w'' : Stage}

theorem refl (w : Stage) : w.Names ctx w := ⟨⟨[], by simp⟩, id⟩

theorem trans (h : w.Names ctx w') (h' : w'.Names ctx w'') : w.Names ctx w'' := by
  obtain ⟨ds, hds⟩ := h.lifted_eq
  obtain ⟨es, hes⟩ := h'.lifted_eq
  exact ⟨⟨ds ++ es, by simp [hes, hds]⟩, h'.ordered ∘ h.ordered⟩

theorem mint (ctx : LiftContext) (w : Stage) (k : Nat) : w.Names ctx (w.mint k) :=
  ⟨⟨[], by simp [Stage.mint]⟩, id⟩

end Stage.Names

namespace Known

variable {ctx : LiftContext} {w w' : Stage} {t : Term}

theorem mono (h : Known ctx w t) (hw : w.Names ctx w') : Known ctx w' t := by
  obtain ⟨ds, hds⟩ := hw.lifted_eq
  intro c hc
  rw [hds]
  exact LiftContext.takenAt_append ds (h c hc)

theorem var (x : LocalId) : Known ctx w (.var x) := by simp [Known, Term.globals]

theorem apply {f : Term} {xs : List Term} (hf : Known ctx w f) (hxs : ∀ x ∈ xs, Known ctx w x) :
    Known ctx w (f.apply xs) := by
  intro c hc
  rcases Term.mem_globals_apply.1 hc with hc | ⟨x, hx, hc⟩
  · exact hf c hc
  · exact hxs x hx c hc

theorem of_apply {f : Term} {xs : List Term} (h : Known ctx w (f.apply xs)) :
    Known ctx w f ∧ ∀ x ∈ xs, Known ctx w x :=
  ⟨fun c hc => h c (Term.mem_globals_apply.2 (.inl hc)),
    fun x hx c hc => h c (Term.mem_globals_apply.2 (.inr ⟨x, hx, hc⟩))⟩

theorem stable (ctx : LiftContext) (w : Stage) : Stable (Known ctx w) := stable_globals _

theorem substitute {s : Replacement} (h : Known ctx w t)
    (hs : ∀ x u, s x = some u → Known ctx w u) :
    Known ctx w (t.substitute s) := by
  intro c hc
  rcases Term.mem_globals_substitute hc with hc | ⟨y, u, hu, hcu⟩
  · exact h c hc
  · exact hs y u hu c hcu

theorem lambdas {bs : List Binder} (h : Known ctx w t) : Known ctx w (Term.lambdas bs t) := by
  intro c hc
  exact h c (Term.globals_lambdas bs t ▸ hc)

end Known

namespace Context.Known

variable {ctx : LiftContext} {w w' : Stage} {Γ : Context}

theorem mono (h : Γ.Known ctx w) (hw : w.Names ctx w') : Γ.Known ctx w' :=
  fun d hd v hv => (h d hd v hv).mono hw

theorem enter (h : Γ.Known ctx w) (bs : List Binder) : (Γ.enter bs).Known ctx w := by
  induction bs generalizing Γ with
  | nil => exact h
  | cons b bs ih => exact ih (List.forall_mem_cons.2 ⟨by simp, h⟩)

end Context.Known

theorem Calls.known {ctx : LiftContext} {w w' : Stage} {t u : Term} (h : Calls ctx w t w' u)
    (ht : Known ctx w t) : w.Names ctx w' ∧ Known ctx w' u := by
  cases h with
  | reuse => exact ⟨.refl w, fun c hc => ht c (t.globals_etaReduce ▸ hc)⟩
  | new _ hf =>
    have hn := NameSource.not_taken_of_fresh hf
    refine ⟨⟨⟨_, rfl⟩, fun ho => ho.concat hn ht⟩, fun c hc => ?_⟩
    rw [Term.globals, List.mem_singleton] at hc
    exact hc ▸ ctx.takenAt_concat w.lifted _

/-- Lifting as far as it is given by `R` mentions known names and makes new ones in order. -/
def Judgment.Names (ctx : LiftContext) (R : Judgment) : Prop :=
  ∀ ⦃Γ w t w' u⦄, Γ.Known ctx w → Known ctx w t → R Γ w t w' u → w.Names ctx w' ∧ Known ctx w' u

namespace Judgment.Names

variable {ctx : LiftContext} {R : Judgment} {Γ : Context} {w w' : Stage}

theorem each {α : Type} {term : α → Term} {P : Stage → α → Stage → Term → Prop}
    (hP : ∀ ⦃w x w' u⦄, Γ.Known ctx w → Known ctx w (term x) → P w x w' u →
      w.Names ctx w' ∧ Known ctx w' u) {xs : List α} {us : List Term} (hΓ : Γ.Known ctx w)
    (hxs : ∀ x ∈ xs, Known ctx w (term x)) (h : Each P w xs w' us) :
    w.Names ctx w' ∧ ∀ u ∈ us, Known ctx w' u := by
  induction h with
  | nil w => exact ⟨.refl w, by simp⟩
  | cons hx _ ih =>
    obtain ⟨hx', hxs⟩ := List.forall_mem_cons.1 hxs
    obtain ⟨h₁, hu⟩ := hP hΓ hx' hx
    obtain ⟨h₂, hus⟩ := ih (hΓ.mono h₁) fun x hx => (hxs x hx).mono h₁
    exact ⟨h₁.trans h₂, List.forall_mem_cons.2 ⟨hu.mono h₂, hus⟩⟩

theorem under (hR : R.Names ctx) (k : Nat) : (Under ctx R k).Names ctx := by
  rintro Γ w t w' - hΓ ht ⟨hp, hr⟩
  have hw := Stage.Names.mint ctx w k
  have hi := (Known.stable ctx w).peels hp .empty ht
  obtain ⟨h, hu⟩ := hR ((hΓ.enter _).mono hw) (hi.mono hw) hr
  exact ⟨hw.trans h, hu.lambdas⟩

theorem arm (hR : R.Names ctx) (params : Nat) ⦃w : Stage⦄ ⦃x : Name × Term⦄ ⦃w' : Stage⦄ ⦃u : Term⦄
    (hΓ : Γ.Known ctx w) (hx : Known ctx w x.2) (h : Arm ctx R params Γ w x w' u) :
    w.Names ctx w' ∧ Known ctx w' u := by
  obtain ⟨-, h⟩ := h
  exact hR.under _ hΓ hx h

theorem chain (hR : R.Names ctx) {s : Replacement} {t u : Term} {ds : List (Binder × Term)}
    (hs : s.Renames) (hΓ : Γ.Known ctx w) (ht : Known ctx w t) (h : Chain R Γ s w t w' ds u) :
    w.Names ctx w' ∧ Known ctx w' (Term.lets ds u) := by
  induction h with
  | done _ hr => exact hR hΓ ((Known.stable ctx _).rename hs ht) hr
  | @letIn Γ s w b v body w' v' w'' ds u hr _ ih =>
    obtain ⟨hv, hb⟩ := (Known.stable ctx w).letIn ht
    obtain ⟨h₁, hv'⟩ := hR hΓ ((Known.stable ctx w).rename hs hv) hr
    have hΓ' : Context.Known ctx w' (⟨⟨w'.nextLocal⟩, b.name, some v'⟩ :: Γ) := by
      refine List.forall_mem_cons.2 ⟨fun _ e => ?_, hΓ.mono h₁⟩
      exact Option.some.inj e ▸ hv'
    have hw := Stage.Names.mint ctx w' 1
    obtain ⟨h₂, hu⟩ := ih (hs.add _ _) (hΓ'.mono hw) (hb.mono (h₁.trans hw))
    have h₂ := hw.trans h₂
    refine ⟨h₁.trans h₂, fun c hc => ?_⟩
    rcases List.mem_append.1 hc with hc | hc
    · exact hv'.mono h₂ c hc
    · exact hu c hc

theorem rule (hR : R.Names ctx) : (Rule ctx R).Names ctx := by
  intro Γ w t w' u hΓ ht h
  cases h with
  | var => exact ⟨.refl w, ht⟩
  | global c => exact ⟨.refl w, ht⟩
  | lit l => exact ⟨.refl w, ht⟩
  | @dispatch _ _ c type t scrut arms extra _ _ _ _ _ _ _ _ _ hs he ha =>
    obtain ⟨hc, hargs⟩ := ht.of_apply
    obtain ⟨hks, hargs⟩ := List.forall_mem_cons.1 hargs
    obtain ⟨hka, hke⟩ := List.forall_mem_append.1 hargs
    obtain ⟨h₁, hs⟩ := hR hΓ hks hs
    obtain ⟨h₂, he⟩ := each (@hR Γ) (hΓ.mono h₁) (fun x hx => (hke x hx).mono h₁) he
    have h₁₂ := h₁.trans h₂
    have hkz : ∀ x ∈ t.constructors.zip arms, Known ctx w x.2 :=
      fun x hx => hka x.2 (List.of_mem_zip hx).2
    obtain ⟨h₃, ha⟩ := each (hR.arm _) (hΓ.mono h₁₂) (fun x hx => (hkz x hx).mono h₁₂) ha
    refine ⟨h₁₂.trans h₃, (hc.mono (h₁₂.trans h₃)).apply (List.forall_mem_cons.2 ⟨?_, ?_⟩)⟩
    · exact hs.mono (h₂.trans h₃)
    · exact List.forall_mem_append.2 ⟨ha, fun x hx => (he x hx).mono h₃⟩
  | beta hstep _ hr => exact hR hΓ ((Known.stable ctx w).transGen hstep ht) hr
  | call _ _ _ _ hf ha =>
    obtain ⟨hkf, hka⟩ := ht.of_apply
    obtain ⟨h₁, hf⟩ := hR hΓ hkf hf
    obtain ⟨h₂, ha⟩ := each (@hR Γ) (hΓ.mono h₁) (fun x hx => (hka x hx).mono h₁) ha
    exact ⟨h₁.trans h₂, (hf.mono h₂).apply ha⟩
  | @lam _ _ _ _ w₁ _ _ k _ _ _ hu hc hcall =>
    obtain ⟨h₁, he⟩ := hR.under _ hΓ ht hu
    have h₁' := Stage.Names.mint ctx w₁ k
    -- Values put in for variables were lifted in this scope, so their names are known as well.
    obtain ⟨bs, s, rfl, hs, -⟩ := hc.exists_substitute Known.var (fun _ _ => Known.substitute)
      (hΓ.mono h₁)
    obtain ⟨h₂, hcallee⟩ := hcall.known ((he.substitute hs).mono h₁').lambdas
    refine ⟨h₁.trans (h₁'.trans h₂), hcallee.apply fun x hx => ?_⟩
    obtain ⟨y, -, rfl⟩ := List.mem_map.1 hx
    exact Known.var y
  | letIn hc => exact hR.chain .empty hΓ ht hc

end Judgment.Names

/-- Lifted terms mention known names. -/
theorem LiftsIn.named (ctx : LiftContext) (n : Nat) : (LiftsIn ctx n).Names ctx := by
  induction n with
  | zero => exact fun _ _ _ _ _ _ _ h => h.elim
  | succ n ih => exact ih.rule

/-- The procedures made while bodies with known names are lifted stand in order. -/
theorem LiftsBody.named {ctx : LiftContext} {n : Nat} {v w : Stage} {ts us : List Term}
    (h : Each (LiftsBody ctx n) v ts w us) (hv : v.lifted = []) (hts : ∀ t ∈ ts, Known ctx v t) :
    Ordered ctx w.lifted ∧ ∀ u ∈ us, Known ctx w u := by
  obtain ⟨hnames, hus⟩ := Judgment.Names.each (Γ := [])
    (fun _ t _ _ hΓ ht h => (LiftsIn.named ctx n).under t.leading hΓ ht h)
    (by simp [Context.Known]) hts h
  exact ⟨hnames.ordered (hv ▸ .nil), hus⟩

end LambdaLifting
