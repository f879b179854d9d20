import LambdaLifting.Proofs.Safety
import LambdaLifting.Proofs.Settled

namespace LambdaLifting

namespace Term

def size : Term → Nat
  | var _ | global _ | lit _ => 1
  | app f x => f.size + x.size + 1
  | lam _ body => body.size + 1
  | letIn _ value body => value.size + body.size + 1

theorem size_pos (t : Term) : 0 < t.size := by
  cases t <;> simp [size]

theorem size_substitute {s : Replacement} (hs : s.Renames) (t : Term) :
    (t.substitute s).size = t.size := by
  induction t generalizing s with
  | var x =>
    cases hx : s x with
    | none => simp [substitute, hx]
    | some u =>
      obtain ⟨y, rfl⟩ := hs x u hx
      simp [substitute, hx, size]
  | global c => rfl
  | lit l => rfl
  | app f x ihf ihx => rw [substitute, size, size, ihf hs, ihx hs]
  | lam b body ih => rw [substitute_lam, size, size, ih (hs.hide b.id)]
  | letIn b value body ihv ih => rw [substitute_letIn, size, size, ihv hs, ih (hs.hide b.id)]

theorem size_add_length_le (f : Term) (xs : List Term) :
    f.size + xs.length ≤ (f.apply xs).size := by
  induction xs generalizing f with
  | nil => exact Nat.le_refl _
  | cons x xs ih =>
    have := ih (app f x)
    simp only [size, List.length_cons, apply_cons] at this ⊢
    omega

theorem size_lt_of_mem {f x : Term} {xs : List Term} (h : x ∈ xs) :
    x.size < (f.apply xs).size := by
  induction xs generalizing f with
  | nil => simp at h
  | cons y xs ih =>
    rcases List.mem_cons.1 h with rfl | h
    · have := size_add_length_le (app f x) xs
      rw [size] at this
      rw [apply_cons]
      omega
    · exact ih h

theorem leading_lt_size (t : Term) : t.leading < t.size := by
  induction t with
  | lam b body ih => simpa [leading, size] using ih
  | _ => simp [leading, size]

end Term

theorem Peels.size_le {anonymous : Name} {k n : Nat} {s : Replacement} {t inner : Term}
    {bs : List Binder} (h : Peels anonymous k s n t bs inner) (hs : s.Renames)
    (hk : k ≤ t.leading) : inner.size ≤ t.size := by
  induction h with
  | done s n t => exact Nat.le_of_eq (Term.size_substitute hs t)
  | lam _ ih => exact Nat.le_succ_of_le (ih (hs.add _ _) (Nat.le_of_succ_le_succ hk))
  | expand hlam _ _ =>
    rw [Term.leading_of_isLambda_eq_false hlam] at hk
    simp at hk

namespace LiftM

variable {α : Type} {ctx : LiftContext} {s s' : LiftState} {Γ : Context} {w : Stage} {m n : Nat}

abbrev Halts (x : LiftM α) (ctx : LiftContext) (s : LiftState) : Prop :=
  Ends (fun _ => False) x ctx s

theorem exists_runs_of_halts {x : LiftM α} (h : Halts x ctx s) : ∃ v s', x.Runs ctx s v s' := by
  rw [Halts, Ends] at h
  split at h
  · exact h.elim
  · exact h.elim
  · next v s' hrun => exact ⟨v, s', hrun⟩

theorem halts_fieldCount {params k : Nat} {c : Name}
    (h : Output.fieldCount? ctx.env params c = some k) : Halts (fieldCount params c) ctx s := by
  simp only [Output.fieldCount?, Bind.bind, Option.bind_eq_some_iff] at h
  obtain ⟨arity, harity, h⟩ := h
  refine Ends.read_bind ?_
  simp only [harity]
  split at h
  · cases h
  · next hle =>
    rw [if_neg hle]
    exact ends_pure _

/-- A flat term of known globals, with no more nodes than `n`. -/
structure Finished (ctx : LiftContext) (m : Nat) (Γ : Context) (w : Stage) (n : Nat) (p : Place)
    (t : Term) : Prop where
  unlifted : Unlifted m Γ t
  known : Known ctx w t
  whole : Flat.Whole ctx.env p t
  size_le : t.size ≤ n

/-- Lifting as far as it is given by `lift` ends on flat terms with up to `n` nodes. -/
def Completes (ctx : LiftContext) (m n : Nat) (lift : ExprId → LiftM ExprId) : Prop :=
  ∀ ⦃Γ s w e t⦄, s.Models Γ w → Γ.Apart m w.nextLocal → s.arena.term? e = some t →
    Finished ctx m Γ w n .plain t → Halts (lift e) ctx s

theorem Finished.of_mem_apply {f x : Term} {xs : List Term} {p : Place}
    (h : Finished ctx m Γ w (n + 1) .plain (f.apply xs)) (hx : x ∈ xs)
    (hflat : Flat.Whole ctx.env p x) : Finished ctx m Γ w n p x where
  unlifted := h.unlifted.of_apply.2 x hx
  known := h.known.of_apply.2 x hx
  whole := hflat
  size_le := Nat.le_of_lt_succ (Nat.lt_of_lt_of_le (Term.size_lt_of_mem hx) h.size_le)

/-- Nothing but variables is used up while flat terms are lifted. -/
theorem Finished.mint {t : Term} {p : Place} (h : Finished ctx m Γ w n p t) (k : Nat) :
    Finished ctx m Γ (w.mint k) n p t :=
  ⟨h.unlifted, h.known, h.whole, h.size_le⟩

namespace Completes

variable {lift : ExprId → LiftM ExprId} {R : Judgment} {e : ExprId} {t : Term}

/-- The arms that are pending bind the fields of their constructors. -/
theorem handles (hhalts : Completes ctx m n lift) (hlift : Simulates ctx lift R)
    (hR : R.Fixes ctx m) (Γ : Context) (params : Nat) :
    Handles (fun _ => False) ctx lift R Γ fun w ts ys =>
      (∀ t ∈ ts, Γ.Apart m w.nextLocal ∧ Finished ctx m Γ w n .plain t) ∧
        ∀ y ∈ ys, Γ.Apart m w.nextLocal ∧ ∃ k, Output.fieldCount? ctx.env params y.1 = some k ∧
          Finished ctx m Γ w n (.binding k) y.2 := by
  refine .of_forall hlift (fun s w e t h he ht => hhalts h ht.1 he ht.2) ?_ ?_
  · rintro w t w' u hu ⟨hΓ, ht⟩ z ⟨-, hz⟩
    obtain ⟨⟨j, rfl⟩, -⟩ := hR hΓ ht.unlifted ht.whole hu
    exact ⟨hΓ.mono (Nat.le_add_right _ j), hz.mint j⟩
  · rintro w t w' u hu ⟨hΓ, ht⟩ y ⟨-, k, hk, hfin⟩
    obtain ⟨⟨j, rfl⟩, -⟩ := hR hΓ ht.unlifted ht.whole hu
    exact ⟨hΓ.mono (Nat.le_add_right _ j), k, hk, hfin.mint j⟩

theorem under (hhalts : Completes ctx m n lift) (hlift : Simulates ctx lift R) {k : Nat}
    {bs : List Binder} {inner : ExprId} {v : Term}
    (hpeels : Peels ctx.anonymous k .empty w.nextLocal t bs v)
    (h : s.Models (Γ.enter bs) (w.mint k)) (hΓ : Γ.Apart m w.nextLocal)
    (ht : Finished ctx m Γ w n (.binding k) t) (hinner : s.arena.term? inner = some v) :
    Halts (do
      let body ← lift inner
      closeBinders bs
      liftM (ArenaM.mkLambdas bs body)) ctx s := by
  have hsize := hpeels.size_le .empty (Nat.le_of_eq ht.whole.leading_eq.symm)
  have hfin : Finished ctx m (Γ.enter bs) (w.mint k) n .plain v :=
    ⟨hpeels.unlifted hΓ (.start ht.unlifted), (Known.stable ctx w).peels hpeels .empty ht.known,
      ht.whole.peels hpeels .empty, Nat.le_trans hsize ht.size_le⟩
  exact Ends.under hlift h hinner (hhalts h (hΓ.enter hpeels) hinner hfin) bs

theorem underLambdas (hhalts : Completes ctx m n lift) (hlift : Simulates ctx lift R)
    (h : s.Models Γ w) (hΓ : Γ.Apart m w.nextLocal) (he : s.arena.term? e = some t)
    (ht : Finished ctx m Γ w n (.binding t.leading) t) {fuel : Nat} (hfuel : n < fuel) :
    Halts (liftUnderLambdas lift fuel e) ctx s := by
  have hleading := t.leading_lt_size
  have hsize := ht.size_le
  refine (ends_openLambdas h (Substitution.means_empty _) he (by omega)).bind fun r s₁ hopen => ?_
  obtain ⟨v, hpeels, hv, h₁⟩ := peels_of_openLambdas h (Substitution.means_empty _) he hopen
  exact hhalts.under hlift hpeels h₁.models hΓ ht hv

theorem arm (hhalts : Completes ctx m n lift) (hlift : Simulates ctx lift R) (h : s.Models Γ w)
    (hΓ : Γ.Apart m w.nextLocal) (he : s.arena.term? e = some t) {fields : Nat}
    (ht : Finished ctx m Γ w n (.binding fields) t) : Halts (liftArm lift fields e) ctx s := by
  refine (ends_openFields h (Substitution.means_empty _) he fields).bind fun r s₁ hopen => ?_
  obtain ⟨v, hpeels, hv, h₁⟩ := peels_of_openFields h (Substitution.means_empty _) he hopen
  refine (ends_update _).bind fun _ s₂ hemit => ?_
  rw [runs_update] at hemit
  subst hemit
  exact hhalts.under hlift hpeels (h₁.models.emit _) hΓ ht hv

theorem chain (hhalts : Completes ctx m n lift) (hlift : Simulates ctx lift R) (hS : R.Scopes)
    (hR : R.Fixes ctx m) {S : Substitution} {σ : Replacement} (h : s.Models Γ w)
    (hΓ : Γ.Apart m w.nextLocal) (hσ : S.Means s.arena σ) (he : s.arena.term? e = some t)
    (hopen : Opening m Γ σ t) (hrename : σ.Renames) (hknown : Known ctx w t)
    (hflat : Flat.Whole ctx.env .plain t) {fuel : Nat} (hfuel : t.size ≤ fuel)
    (hsize : t.size ≤ n + 1) (hdone : (∀ b v body, t ≠ .letIn b v body) → t.size ≤ n) :
    Halts (liftChain lift fuel S e) ctx s := by
  induction fuel generalizing s Γ w S σ e t with
  | zero =>
    have := t.size_pos
    omega
  | succ fuel ih =>
    obtain ⟨k, hk⟩ := Arena.node?_of_term? he
    have hne := h.wellFormed.ne_letIn he hk
    rw [liftChain]
    refine Ends.node_bind hk ?_
    cases h.wellFormed.shows_of_node? he hk with
    | @letIn b value body v u hv hu =>
      rw [Term.size] at hfuel hsize
      have hpos := v.size_pos
      have hpos' := u.size_pos
      obtain ⟨hfv, hfu⟩ := hflat.of_letIn
      obtain ⟨hkv, hku⟩ := (Known.stable ctx w).letIn hknown
      refine Ends.arena_bind (ArenaM.builds_substitute h.wellFormed hσ hv) fun e' a he' => ?_
      have h₀ := h.grow he'.1
      have hunlifted : Unlifted m Γ (v.substitute σ) := hopen.value.unlifted
      have hfin : Finished ctx m Γ w n .plain (v.substitute σ) :=
        ⟨hunlifted, (Known.stable ctx w).rename hrename hkv, hfv.rename hrename,
          by rw [Term.size_substitute hrename]; omega⟩
      refine (hhalts h₀ hΓ he'.2 hfin).bind fun value' s₁ hvalue => ?_
      obtain ⟨w₁, v', hv', hterm, h₁⟩ := hlift Γ h₀ he'.2 hvalue
      have htidy := (hS h.isScoped hv').2
      obtain ⟨⟨k, rfl⟩, -⟩ := hR hΓ hunlifted hfin.whole hv'
      refine (ends_openBinder h₁.models.wellFormed _ _).bind fun r s₂ hbinder => ?_
      obtain ⟨fresh, x⟩ := r
      obtain ⟨rfl, hx, h₂⟩ := reaches_openBinder h₁.models (.inr ⟨value', v', rfl, rfl, hterm⟩)
        (fun _ e => Option.some.inj e ▸ ⟨htidy.mem_ids, htidy.binder_lt⟩) hbinder
      have hext := he'.1.isExtension.trans (h₁.trans h₂).isExtension
      have hΓ' := (hΓ.mono (Nat.le_add_right _ k)).declare b.name (some v') fun _ e =>
        Option.some.inj e ▸ ⟨htidy.mem_ids, htidy.binder_lt⟩
      refine (ih h₂.models hΓ' ((hσ.mono hext).insert b.id hx) (hext.term?_eq_some hu)
        hopen.letBody (hrename.add _ _) hku hfu ?_ ?_ ?_).bind fun _ s₃ _ => ends_pure _
      all_goals omega
    | _ =>
      refine Ends.arena_bind (ArenaM.builds_substitute h.wellFormed hσ he) fun e' a he' => ?_
      refine (hhalts (h.grow he'.1) hΓ he'.2 ?_).bind fun _ s₂ _ => ends_pure _
      refine ⟨hopen.unlifted, (Known.stable ctx w).rename hrename hknown, hflat.rename hrename, ?_⟩
      rw [Term.size_substitute hrename]
      exact hdone (hne (by simp))

theorem lets (hhalts : Completes ctx m n lift) (hlift : Simulates ctx lift R) (hS : R.Scopes)
    (hR : R.Fixes ctx m) (h : s.Models Γ w) (hΓ : Γ.Apart m w.nextLocal) {b : Binder}
    {v body : Term} (he : s.arena.term? e = some (.letIn b v body))
    (ht : Finished ctx m Γ w (n + 1) .plain (.letIn b v body)) {fuel : Nat} (hfuel : n < fuel) :
    Halts (liftLets lift fuel e) ctx s := by
  refine (hhalts.chain hlift hS hR h hΓ (Substitution.means_empty _) he (.start ht.unlifted) .empty
    ht.known ht.whole (Nat.le_trans ht.size_le hfuel) ht.size_le
    fun hne => absurd rfl (hne b v body)).bind fun r s₁ hchain => ?_
  obtain ⟨ds, inner⟩ := r
  obtain ⟨w', us, u, Δ, -, hds, hinner, -, h₁⟩ :=
    hlift.chain hS h (Substitution.means_empty _) he hchain
  refine (ends_update _).bind fun _ s₂ hclose => ?_
  rw [runs_update] at hclose
  subst hclose
  exact ends_liftM (ArenaM.builds_mkLets h₁.models.wellFormed hinner hds)

theorem dispatch (hhalts : Completes ctx m n lift) (hlift : Simulates ctx lift R)
    (hR : R.Fixes ctx m) (h : s.Models Γ w) (hΓ : Γ.Apart m w.nextLocal) {c type : Name}
    (hc : ctx.env.kind? c = some (.dispatcher type)) {head : ExprId} {args : List ExprId}
    {xs : List Term} (hhead : s.arena.term? head = some (.global c))
    (hargs : s.arena.Denote args xs)
    (ht : Finished ctx m Γ w (n + 1) .plain (Term.apply (.global c) xs)) :
    Halts (liftDispatch lift c type head args) ctx s := by
  obtain ⟨t, htype, hlength⟩ := ht.whole.exists_type_of_dispatcher hc
  rw [← hargs.length_eq] at hlength
  refine (hhalts.handles hlift hR Γ t.params).dispatch htype ?_ ?_ h hhead hargs hlength ?_
  · rintro s w e y ys h he ⟨-, hys⟩
    obtain ⟨hΓ, k, hk, hfin⟩ := hys y List.mem_cons_self
    refine (halts_fieldCount hk).bind fun k' s₁ hcount => ?_
    obtain ⟨rfl, hk'⟩ := Simulates.runs_fieldCount hcount
    obtain rfl := Option.some.inj (hk.symm.trans hk')
    exact hhalts.arm hlift h hΓ he hfin
  · rintro w y w' u ys hu ⟨-, hys⟩
    obtain ⟨⟨hΓ, k, hk, hfin⟩, hys⟩ := List.forall_mem_cons.1 hys
    obtain ⟨⟨j, rfl⟩, -⟩ := hR.arm t.params hΓ hfin.unlifted ⟨k, hk, hfin.whole⟩ hu
    refine ⟨by simp, fun z hz => ?_⟩
    obtain ⟨-, l, hl, hfin'⟩ := hys z hz
    exact ⟨hΓ.mono (Nat.le_add_right _ j), l, hl, hfin'.mint j⟩
  · rintro x ys zs rfl hlength
    obtain ⟨hfx, hfarms, hfextra⟩ := Flat.whole_of_dispatcher hc htype hlength ht.whole
    refine ⟨List.forall_mem_cons.2 ⟨⟨hΓ, ht.of_mem_apply (by simp) hfx⟩,
      fun z hz => ⟨hΓ, ht.of_mem_apply (by simp [hz]) (hfextra z hz)⟩⟩, fun y hy => ?_⟩
    obtain ⟨k, hk, hflat⟩ := (List.forall₂_iff_zip.1 hfarms).2 hy
    have hmem : y.2 ∈ x :: (ys ++ zs) := by simp [(List.of_mem_zip hy).2]
    exact ⟨hΓ, k, hk, ht.of_mem_apply hmem hflat⟩

theorem call (hhalts : Completes ctx m n lift) (hlift : Simulates ctx lift R)
    (hR : R.Fixes ctx m) (h : s.Models Γ w) (hΓ : Γ.Apart m w.nextLocal) {head : ExprId}
    {args : List ExprId} {f : Term} {xs : List Term} (hn : s.arena.node? e = some (.app head args))
    (hf : s.arena.term? head = some f) (hargs : s.arena.Denote args xs)
    (ht : Finished ctx m Γ w (n + 1) .plain (f.apply xs))
    (hkind : ∀ c, f = .global c → ∀ type, ctx.env.kind? c ≠ some (.dispatcher type)) (fuel : Nat) :
    Halts (liftCall lift (fuel + 1) e head args) ctx s := by
  have he := h.wellFormed.term?_of_node? hn (.app hf hargs)
  obtain ⟨happ, hne⟩ := h.wellFormed.spine_of_node? hn hf hargs
  obtain ⟨hff, hfxs⟩ := Flat.whole_of_call happ hkind ht.whole
  have hreduce := ArenaM.headReduce_eq_self h.wellFormed he ht.whole.headNormal fuel
  refine Ends.arena_bind (Q := fun r a => r = e ∧ a = s.arena) ⟨e, _, hreduce, rfl, rfl⟩ ?_
  rintro _ _ ⟨rfl, rfl⟩
  rw [if_neg (fun hne => hne rfl)]
  have hhead : Finished ctx m Γ w n .plain f := by
    refine ⟨ht.unlifted.of_apply.1, ht.known.of_apply.1, hff, ?_⟩
    have := Term.size_add_length_le f xs
    have := List.length_pos_iff.2 hne
    have := ht.size_le
    omega
  refine (hhalts.handles hlift hR Γ 0).rebuild h hf hargs ⟨?_, by simp⟩ _
  exact List.forall_mem_cons.2
    ⟨⟨hΓ, hhead⟩, fun x hx => ⟨hΓ, ht.of_mem_apply hx (hfxs x hx)⟩⟩

theorem app (hhalts : Completes ctx m n lift) (hlift : Simulates ctx lift R)
    (hR : R.Fixes ctx m) (h : s.Models Γ w) (hΓ : Γ.Apart m w.nextLocal) {head : ExprId}
    {args : List ExprId} {f : Term} {xs : List Term} (hn : s.arena.node? e = some (.app head args))
    (hf : s.arena.term? head = some f) (hargs : s.arena.Denote args xs)
    (ht : Finished ctx m Γ w (n + 1) .plain (f.apply xs)) (fuel : Nat) :
    Halts (liftApp lift (fuel + 1) e head args) ctx s := by
  refine (ends_dispatcher? h hf ht.known.of_apply.1).bind fun d? s₁ hrun => ?_
  obtain ⟨rfl, hsome, hnone⟩ := Simulates.runs_dispatcher? h hf hrun
  cases d? with
  | some d =>
    obtain ⟨rfl, hc⟩ := hsome d.1 d.2 rfl
    exact hhalts.dispatch hlift hR h hΓ hc hf hargs ht
  | none =>
    refine hhalts.call hlift hR h hΓ hn hf hargs ht (fun c hc type => ?_) fuel
    obtain ⟨k, hk, hne⟩ := hnone rfl c hc
    exact LiftContext.ne_dispatcher_of_kindAt? hk hne type

end Completes

/-- Fuel for all nodes of a flat term is enough to lift it. -/
theorem completes_liftTerm (ctx : LiftContext) (m : Nat) {n fuel : Nat} (hfuel : n < fuel) :
    Completes ctx m n (liftTerm fuel) := by
  induction fuel generalizing n with
  | zero => omega
  | succ fuel ih =>
    intro Γ s w e t h hΓ he ht
    have hlift := simulates_liftTerm ctx fuel
    have hS := LiftsIn.scoped ctx fuel
    have hR := LiftsIn.fixes ctx m fuel
    obtain ⟨n, rfl⟩ : ∃ l, n = l + 1 :=
      Nat.exists_eq_succ_of_ne_zero (Nat.ne_of_gt (Nat.lt_of_lt_of_le t.size_pos ht.size_le))
    have hhalts := ih (Nat.lt_of_succ_lt_succ hfuel)
    obtain ⟨k, hk⟩ := Arena.node?_of_term? he
    rw [liftTerm]
    refine Ends.node_bind hk ?_
    cases h.wellFormed.shows_of_node? he hk with
    | var x =>
      refine Ends.state_bind ?_
      rw [if_pos (h.contains_of_mem_ids (ht.unlifted.mem_ids x (by simp [Term.occurrences])))]
      exact ends_pure _
    | global c => exact ends_pure _
    | lit l => exact ends_pure _
    | app hf hxs =>
      obtain ⟨fuel, rfl⟩ := Nat.exists_eq_succ_of_ne_zero (Nat.ne_of_gt (Nat.zero_lt_of_lt
        (Nat.lt_of_succ_lt_succ hfuel)))
      exact hhalts.app hlift hR h hΓ hk hf hxs ht fuel
    | lam => cases ht.whole.isLambda_eq_false
    | letIn => exact hhalts.lets hlift hS hR h hΓ he ht (Nat.lt_of_succ_lt_succ hfuel)

theorem halts_liftBody (h : s.Models [] w) (hm : m ≤ w.nextLocal) {e : ExprId} {t : Term}
    (he : s.arena.term? e = some t) (ht : Finished ctx m [] w n (.binding t.leading) t)
    {fuel : Nat} (hfuel : n < fuel) : Halts (liftBody fuel e) ctx s := by
  have hΓ : Context.Apart m [] w.nextLocal := ⟨.nil, by simp [Context.ids], hm⟩
  have hhalts := completes_liftTerm ctx m hfuel
  have hlift := simulates_liftTerm ctx fuel
  obtain ⟨k, hk⟩ := Arena.node?_of_term? he
  have hlam := h.wellFormed.isLambda_eq he hk
  rw [liftBody]
  refine Ends.node_bind hk ?_
  cases k with
  | lam b body => exact hhalts.underLambdas hlift h hΓ he ht hfuel
  | _ =>
    refine hhalts h hΓ he ⟨ht.unlifted, ht.known, ?_, ht.size_le⟩
    have hwhole := ht.whole
    rw [Term.leading_of_isLambda_eq_false hlam] at hwhole
    cases hwhole with
    | body hwhole => exact hwhole

theorem halts_mapM_liftProcedure (h : s.Models [] w) (hm : m ≤ w.nextLocal) {ps : List Procedure}
    (hps : ∀ p ∈ ps, ∃ t, s.arena.term? p.body = some t ∧
      Finished ctx m [] w n (.binding t.leading) t) {fuel : Nat} (hfuel : n < fuel) :
    Halts (ps.mapM (liftProcedure fuel)) ctx s := by
  refine ends_mapM_liftProcedure (N := fun w t => m ≤ w.nextLocal ∧
      Finished ctx m [] w n (.binding t.leading) t)
    (fun s w e t h he ht => halts_liftBody h ht.1 he ht.2 hfuel) ?_ h fun p hp => ?_
  · rintro w t w' u hu ⟨hm, ht⟩ z ⟨-, hz⟩
    have hΓ : Context.Apart m [] w.nextLocal := ⟨.nil, by simp [Context.ids], hm⟩
    obtain ⟨⟨k, rfl⟩, -⟩ := (LiftsIn.fixes ctx m fuel).under hΓ ht.unlifted ht.whole hu
    exact ⟨Nat.le_add_right_of_le hm, hz.mint k⟩
  · obtain ⟨t, he, ht⟩ := hps p hp
    exact ⟨t, he, hm, ht⟩

end LiftM

end LambdaLifting
