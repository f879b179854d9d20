import LambdaLifting.Proofs.Scoping

namespace LambdaLifting

/-- Only variables are put in. -/
def Replacement.Renames (s : Replacement) : Prop := ∀ x u, s x = some u → ∃ y, u = .var y

namespace Replacement.Renames

theorem empty : Replacement.empty.Renames := by simp [Renames, Replacement.empty]

theorem add {s : Replacement} (h : s.Renames) (x y : LocalId) : (s.add x (.var y)).Renames :=
  forall_add h ⟨y, rfl⟩

theorem hide {s : Replacement} (h : s.Renames) (x : LocalId) : (s.hide x).Renames :=
  forall_hide x h

end Replacement.Renames

/-- A property that is kept when binders are opened, variables renamed, terms applied to variables,
and heads reduced. -/
structure Stable (P : Term → Prop) : Prop where
  body : ∀ {b body}, P (.lam b body) → P body
  letIn : ∀ {b value body}, P (.letIn b value body) → P value ∧ P body
  expand : ∀ {t} (x), P t → P (.app t (.var x))
  rename : ∀ {t} {s : Replacement}, s.Renames → P t → P (t.substitute s)
  step : ∀ {t u}, HeadStep t u → P t → P u

namespace Stable

variable {P : Term → Prop}

theorem peels (hP : Stable P) {anonymous : Name} {k n : Nat} {s : Replacement} {t inner : Term}
    {bs : List Binder} (h : Peels anonymous k s n t bs inner) (hs : s.Renames) (ht : P t) :
    P inner := by
  induction h with
  | done => exact hP.rename hs ht
  | lam _ ih => exact ih (hs.add _ _) (hP.body ht)
  | expand _ _ ih => exact ih hs (hP.expand _ ht)

theorem transGen (hP : Stable P) {t u : Term} (h : Relation.TransGen HeadStep t u) (ht : P t) :
    P u := by
  induction h with
  | single h => exact hP.step h ht
  | tail _ h ih => exact hP.step h ih

end Stable

namespace Replacement

theorem eq_of_empty_add {x y : LocalId} {t u : Term} (h : empty.add x t y = some u) :
    y = x ∧ u = t :=
  forall_add (P := fun y u => y = x ∧ u = t) (by simp [empty]) ⟨rfl, rfl⟩ y u h

end Replacement

namespace HeadStep

theorem mem_occurrences {t u : Term} (h : HeadStep t u) {x : LocalId} (hx : x ∈ u.occurrences) :
    x ∈ t.occurrences := by
  induction h with
  | beta b body a =>
    simp only [Term.occurrences, List.mem_append, List.mem_filter, decide_eq_true_eq]
    rcases Term.mem_occurrences_substitute hx with ⟨hx, hs⟩ | ⟨y, -, v, hv, hxv⟩
    · refine .inl ⟨hx, fun e => ?_⟩
      rw [e, Replacement.add_self] at hs
      simp at hs
    · obtain ⟨-, rfl⟩ := Replacement.eq_of_empty_add hv
      exact .inr hxv
  | app y _ ih =>
    simp only [Term.occurrences, List.mem_append] at hx ⊢
    exact hx.imp_left ih

theorem mem_binders {t u : Term} (h : HeadStep t u) {x : LocalId} (hx : x ∈ u.binders) :
    x ∈ t.binders := by
  induction h with
  | beta b body a =>
    simp only [Term.binders, List.cons_append, List.mem_cons, List.mem_append]
    rcases Term.mem_binders_substitute hx with hx | ⟨y, v, hv, hxv⟩
    · exact .inr (.inl hx)
    · obtain ⟨-, rfl⟩ := Replacement.eq_of_empty_add hv
      exact .inr (.inr hxv)
  | app y _ ih =>
    simp only [Term.binders, List.mem_append] at hx ⊢
    exact hx.imp_left ih

theorem mem_globals {t u : Term} (h : HeadStep t u) {c : Name} (hc : c ∈ u.globals) :
    c ∈ t.globals := by
  induction h with
  | beta b body a =>
    simp only [Term.globals, List.mem_append]
    rcases Term.mem_globals_substitute hc with hc | ⟨y, v, hv, hcv⟩
    · exact .inl hc
    · obtain ⟨-, rfl⟩ := Replacement.eq_of_empty_add hv
      exact .inr hcv
  | app y _ ih =>
    simp only [Term.globals, List.mem_append] at hc ⊢
    exact hc.imp_left ih

end HeadStep

theorem stable_globals (K : Name → Prop) : Stable fun t => ∀ c ∈ t.globals, K c where
  body h := h
  letIn h := ⟨fun c hc => h c (by simp [Term.globals, hc]),
    fun c hc => h c (by simp [Term.globals, hc])⟩
  expand y h c hc := h c (by simpa [Term.globals] using hc)
  rename hs h c hc := by
    rcases Term.mem_globals_substitute hc with hc | ⟨y, u, hu, hcu⟩
    · exact h c hc
    · obtain ⟨z, rfl⟩ := hs y u hu
      simp [Term.globals] at hcu
  step hstep h c hc := h c (hstep.mem_globals hc)

namespace Term

/-- The globals that a term mentions without applying them. -/
def unapplied : Term → List Name
  | var _ | lit _ => []
  | global c => [c]
  | app (global _) x => x.unapplied
  | app f x => f.unapplied ++ x.unapplied
  | lam _ body => body.unapplied
  | letIn _ value body => value.unapplied ++ body.unapplied

theorem mem_unapplied_app {f x : Term} {c : Name} :
    c ∈ (app f x).unapplied ↔ (c ∈ f.unapplied ∧ f ≠ global c) ∨ c ∈ x.unapplied := by
  cases f with
  | global d =>
    simp only [unapplied, List.mem_singleton, ne_eq, global.injEq, iff_or_self, and_imp]
    exact fun h hn => absurd h.symm hn
  | _ => simp [unapplied, or_assoc]

theorem mem_unapplied_apply {f : Term} {xs : List Term} {c : Name}
    (h : (c ∈ f.unapplied ∧ f ≠ global c) ∨ ∃ x ∈ xs, c ∈ x.unapplied) :
    c ∈ (f.apply xs).unapplied := by
  induction xs generalizing f with
  | nil =>
    rcases h with h | ⟨x, hx, -⟩
    · exact h.1
    · simp at hx
  | cons x xs ih =>
    rw [apply_cons]
    refine ih ?_
    rcases h with h | ⟨y, hy, hc⟩
    · exact .inl ⟨mem_unapplied_app.2 (.inl h), by simp⟩
    · rcases List.mem_cons.1 hy with rfl | hy
      · exact .inl ⟨mem_unapplied_app.2 (.inr hc), by simp⟩
      · exact .inr ⟨y, hy, hc⟩

theorem mem_unapplied_substitute {t : Term} {s : Replacement} {c : Name}
    (h : c ∈ (t.substitute s).unapplied) :
    c ∈ t.unapplied ∨ ∃ y u, s y = some u ∧ c ∈ u.unapplied := by
  have hide {s : Replacement} {b : Binder}
      (h : ∃ y u, s.hide b.id y = some u ∧ c ∈ u.unapplied) :
      ∃ y u, s y = some u ∧ c ∈ u.unapplied := by
    obtain ⟨y, u, hu, hc⟩ := h
    exact ⟨y, u, (Replacement.hide_eq_some.1 hu).2, hc⟩
  induction t generalizing s with
  | var y =>
    cases hy : s y with
    | none => simp [substitute, hy, unapplied] at h
    | some u =>
      simp only [substitute, hy, Option.getD_some] at h
      exact .inr ⟨y, u, hy, h⟩
  | global d => exact .inl h
  | lit l => exact .inl h
  | app f x ihf ihx =>
    rw [substitute, mem_unapplied_app] at h
    rw [mem_unapplied_app]
    rcases h with ⟨h, hne⟩ | h
    · refine (ihf h).imp_left fun hc => .inl ⟨hc, ?_⟩
      rintro rfl
      exact hne rfl
    · exact (ihx h).imp_left .inr
  | lam b body ih => exact (ih h).imp_right hide
  | letIn b value body ihv ih =>
    simp only [substitute, unapplied, List.mem_append] at h ⊢
    rcases h with h | h
    · exact (ihv h).imp_left .inl
    · exact (ih h).imp .inr hide

end Term

theorem HeadStep.mem_unapplied {t u : Term} (h : HeadStep t u) {c : Name} (hc : c ∈ u.unapplied) :
    c ∈ t.unapplied := by
  induction h with
  | beta b body x =>
    refine Term.mem_unapplied_app.2 ?_
    rcases Term.mem_unapplied_substitute hc with hc | ⟨y, v, hv, hcv⟩
    · exact .inl ⟨hc, by simp⟩
    · obtain ⟨-, rfl⟩ := Replacement.eq_of_empty_add hv
      exact .inr hcv
  | app x hstep ih =>
    rw [Term.mem_unapplied_app] at hc ⊢
    refine hc.imp_left fun hg => ⟨ih hg.1, ?_⟩
    rintro rfl
    cases hstep

theorem stable_unapplied (K : Name → Prop) : Stable fun t => ∀ c ∈ t.unapplied, K c where
  body h := h
  letIn h := ⟨fun c hc => h c (by simp [Term.unapplied, hc]),
    fun c hc => h c (by simp [Term.unapplied, hc])⟩
  expand y h c hc := by
    rcases Term.mem_unapplied_app.1 hc with hc | hc
    · exact h c hc.1
    · simp [Term.unapplied] at hc
  rename hs h c hc := by
    rcases Term.mem_unapplied_substitute hc with hc | ⟨y, u, hu, hcu⟩
    · exact h c hc
    · obtain ⟨z, rfl⟩ := hs y u hu
      simp [Term.unapplied] at hcu
  step hstep h c hc := h c (hstep.mem_unapplied hc)

end LambdaLifting
