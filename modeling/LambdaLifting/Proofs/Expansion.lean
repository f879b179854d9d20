import LambdaLifting.Proofs.Meaning
import LambdaLifting.Proofs.Naming

namespace LambdaLifting

open Nameless (Conv)

namespace Term

/-- Every global that has a definition is replaced by its body, and so are the globals in there. -/
inductive Expands (defs : Name → Option Term) : Term → Term → Prop where
  | var (x) : Expands defs (.var x) (.var x)
  | keep {c} : defs c = none → Expands defs (.global c) (.global c)
  | define {c t u} : defs c = some t → Expands defs t u → Expands defs (.global c) u
  | lit (l) : Expands defs (.lit l) (.lit l)
  | app {f x g y} : Expands defs f g → Expands defs x y → Expands defs (.app f x) (.app g y)
  | lam {b t u} : Expands defs t u → Expands defs (.lam b t) (.lam b u)
  | letIn {b t u v w} : Expands defs t u → Expands defs v w →
      Expands defs (.letIn b t v) (.letIn b u w)

namespace Expands

variable {defs : Name → Option Term} {t u v : Term}

theorem unique (hu : t.Expands defs u) (hv : t.Expands defs v) : u = v := by
  induction hu generalizing v with
  | var x => cases hv; rfl
  | keep hc =>
    cases hv with
    | keep _ => rfl
    | define hd _ => simp [hc] at hd
  | define hd _ ih =>
    cases hv with
    | keep hc => simp [hd] at hc
    | define hd' h => exact ih (Option.some.inj (hd.symm.trans hd') ▸ h)
  | lit l => cases hv; rfl
  | app _ _ ihf ihx =>
    cases hv with
    | app hf hx => rw [ihf hf, ihx hx]
  | lam _ ih =>
    cases hv with
    | lam h => rw [ih h]
  | letIn _ _ iht ihv =>
    cases hv with
    | letIn ht hw => rw [iht ht, ihv hw]

/-- A term can be expanded as soon as the bodies of its globals can be. -/
theorem exists_of_globals (t : Term)
    (h : ∀ c ∈ t.globals, ∀ b, defs c = some b → ∃ u, b.Expands defs u) :
    ∃ u, t.Expands defs u := by
  induction t with
  | var x => exact ⟨_, .var x⟩
  | global c =>
    cases hc : defs c with
    | none => exact ⟨_, .keep hc⟩
    | some b =>
      obtain ⟨u, hu⟩ := h c (by simp [globals]) b hc
      exact ⟨u, .define hc hu⟩
  | lit l => exact ⟨_, .lit l⟩
  | app f x ihf ihx =>
    obtain ⟨g, hg⟩ := ihf fun c hc => h c (List.mem_append_left _ hc)
    obtain ⟨y, hy⟩ := ihx fun c hc => h c (List.mem_append_right _ hc)
    exact ⟨_, .app hg hy⟩
  | lam b body ih =>
    obtain ⟨u, hu⟩ := ih h
    exact ⟨_, .lam hu⟩
  | letIn b v body ihv ih =>
    obtain ⟨v', hv'⟩ := ihv fun c hc => h c (List.mem_append_left _ hc)
    obtain ⟨u, hu⟩ := ih fun c hc => h c (List.mem_append_right _ hc)
    exact ⟨_, .letIn hv' hu⟩

theorem mem_occurrences (hdefs : ∀ c b, defs c = some b → b.Closed) (h : t.Expands defs u)
    {x : LocalId} (hx : x ∈ u.occurrences) : x ∈ t.occurrences := by
  induction h with
  | var y => exact hx
  | keep _ => exact hx
  | define hd _ ih => exact absurd (ih hx) (closed_iff.1 (hdefs _ _ hd) x)
  | lit l => exact hx
  | app _ _ ihf ihx => exact List.mem_append.2 ((List.mem_append.1 hx).imp ihf ihx)
  | lam _ ih =>
    simp only [occurrences, List.mem_filter] at hx ⊢
    exact ⟨ih hx.1, hx.2⟩
  | letIn _ _ iht ihv =>
    simp only [occurrences, List.mem_append, List.mem_filter] at hx ⊢
    exact hx.imp iht fun h => ⟨ihv h.1, h.2⟩

end Expands

end Term

namespace Reading

/-- One reading gives globals what their expansions have in the other. -/
structure Unfolds (defs : Name → Option Term) (r q : Reading) : Prop where
  locals_eq : r.locals = q.locals
  globals_eq : ∀ c v, (Term.global c).Expands defs v → r.globals c = v.read q

theorem Unfolds.under {defs : Name → Option Term} {r q : Reading}
    (hdefs : ∀ c b, defs c = some b → b.Closed) (h : r.Unfolds defs q) (x : LocalId) :
    (r.under x).Unfolds defs (q.under x) where
  locals_eq := by
    funext y
    simp only [Reading.under, h.locals_eq]
  globals_eq c v hv := by
    have hx : x ∉ v.occurrences := fun hx => by
      simpa [Term.occurrences] using hv.mem_occurrences hdefs hx
    rw [← Term.shift_read q hx, ← h.globals_eq c v hv]
    rfl

/-- Expanding a term and then reading it is reading it at once. -/
theorem Unfolds.read_eq {defs : Name → Option Term} (hdefs : ∀ c b, defs c = some b → b.Closed)
    {t u : Term} (ht : t.Expands defs u) {r q : Reading} (h : r.Unfolds defs q) :
    t.read r = u.read q := by
  induction ht generalizing r q with
  | var x => simp only [Term.read, h.locals_eq]
  | keep hc => exact h.globals_eq _ _ (.keep hc)
  | define hd hu _ => exact h.globals_eq _ _ (.define hd hu)
  | lit l => rfl
  | app _ _ ihf ihx => simp only [Term.read, ihf h, ihx h]
  | lam _ ih => simp only [Term.read, ih (h.under hdefs _)]
  | letIn _ _ iht ihv => simp only [Term.read, iht h, ihv (h.under hdefs _)]

open Classical in
/-- The reading of terms through the definitions of their globals. -/
noncomputable def expanded (defs : Name → Option Term) : Reading where
  globals c := if h : ∃ v, (Term.global c).Expands defs v then (Classical.choose h).read .plain
    else .global c
  locals := .free

theorem unfolds_expanded (defs : Name → Option Term) : (expanded defs).Unfolds defs .plain where
  locals_eq := rfl
  globals_eq c v hv := by
    have h : ∃ v, (Term.global c).Expands defs v := ⟨v, hv⟩
    simp only [expanded, dif_pos h, (Classical.choose_spec h).unique hv]

end Reading

namespace Definition

def lookup (ds : List Definition) (c : Name) : Option Term :=
  (ds.find? (·.name = c)).map Definition.body

theorem exists_mem_of_lookup {ds : List Definition} {c : Name} {t : Term}
    (h : lookup ds c = some t) : ∃ d ∈ ds, d.name = c ∧ d.body = t := by
  obtain ⟨d, hd, ht⟩ := Option.map_eq_some_iff.1 h
  exact ⟨d, List.mem_of_find?_eq_some hd, by simpa using List.find?_some hd, ht⟩

end Definition

namespace Ordered

variable {ctx : LiftContext} {ds : List Definition}

theorem takenAt_nil_eq_false (h : Ordered ctx ds) {d : Definition} (hd : d ∈ ds) :
    ctx.takenAt [] d.name = false := by
  induction h with
  | nil => simp at hd
  | concat _ he _ ih =>
    rcases List.mem_append.1 hd with hd | hd
    · exact ih hd
    · obtain rfl := List.mem_singleton.1 hd
      rw [← Bool.not_eq_true, LiftContext.takenAt_eq_true_iff, not_or, Bool.not_eq_true] at he
      exact he.1

theorem lookup_eq_none (h : Ordered ctx ds) {c : Name} (hc : ctx.takenAt [] c = true) :
    Definition.lookup ds c = none := by
  rw [Option.eq_none_iff_forall_ne_some]
  intro t ht
  obtain ⟨d, hd, rfl, -⟩ := Definition.exists_mem_of_lookup ht
  simp [h.takenAt_nil_eq_false hd] at hc

theorem lookup_eq_some (h : Ordered ctx ds) {d : Definition} (hd : d ∈ ds) :
    Definition.lookup ds d.name = some d.body := by
  induction h with
  | nil => simp at hd
  | @concat ds e _ he _ ih =>
    rw [Definition.lookup, List.find?_append]
    rcases List.mem_append.1 hd with hd | hd
    · obtain ⟨c, hc, hbody⟩ := Option.map_eq_some_iff.1 (ih hd)
      rw [hc, Option.some_or, Option.map_some, hbody]
    · obtain rfl := List.mem_singleton.1 hd
      rw [← Bool.not_eq_true, LiftContext.takenAt_eq_true_iff, not_or] at he
      have hnone : ds.find? (·.name = d.name) = none := by
        rw [List.find?_eq_none]
        exact fun c hc hname => he.2 ⟨c, hc, by simpa using hname⟩
      simp [hnone]

/-- Bodies of procedures can be expanded one after the other: each mentions earlier ones only. -/
theorem exists_expands_body {defs : Name → Option Term} (h : Ordered ctx ds)
    (hnone : ∀ c, ctx.takenAt [] c = true → defs c = none)
    (hsome : ∀ d ∈ ds, defs d.name = some d.body) {d : Definition} (hd : d ∈ ds) :
    ∃ u, d.body.Expands defs u := by
  induction h generalizing d with
  | nil => simp at hd
  -- The last body mentions names that were taken before, in the input or by earlier procedures.
  | concat _ _ hglobals ih =>
    have ih := @ih fun c hc => hsome c (List.mem_append_left _ hc)
    rcases List.mem_append.1 hd with hd | hd
    · exact ih hd
    · obtain rfl := List.mem_singleton.1 hd
      refine Term.Expands.exists_of_globals _ fun c hc b hb => ?_
      rcases LiftContext.takenAt_eq_true_iff.1 (hglobals c hc) with ht | ⟨e, he, rfl⟩
      · simp [hnone c ht] at hb
      · rw [hsome e (List.mem_append_left _ he), Option.some.injEq] at hb
        exact hb ▸ ih he

theorem exists_expands (h : Ordered ctx ds) (t : Term) :
    ∃ u, t.Expands (Definition.lookup ds) u := by
  refine Term.Expands.exists_of_globals t fun c _ b hb => ?_
  obtain ⟨d, hd, -, rfl⟩ := Definition.exists_mem_of_lookup hb
  exact h.exists_expands_body (fun _ => h.lookup_eq_none) (fun _ => h.lookup_eq_some) hd

/-- Procedures read as their bodies, if they read as their expansions. -/
theorem solves_expanded (h : Ordered ctx ds) (hds : ∀ d ∈ ds, d.body.Closed) :
    (Reading.expanded (Definition.lookup ds)).Solves ds := by
  have hdefs : ∀ c b, Definition.lookup ds c = some b → b.Closed := fun c b hb => by
    obtain ⟨d, hd, -, rfl⟩ := Definition.exists_mem_of_lookup hb
    exact hds d hd
  intro d hd
  obtain ⟨u, hu⟩ := h.exists_expands d.body
  have hr := Reading.unfolds_expanded (Definition.lookup ds)
  refine ⟨hds d hd, ?_⟩
  rw [hr.globals_eq _ u (.define (h.lookup_eq_some hd) hu), hr.read_eq hdefs hu]

end Ordered

/-- Procedures that are lifted one after the other keep their meaning: with the procedures made on
the way put in, they are convertible to what they were. -/
theorem LiftsBody.convertible {ctx : LiftContext} {n : Nat} {v w : Stage} {ts us : List Term}
    (h : Each (LiftsBody ctx n) v ts w us) (hv : v.lifted = [])
    (hts : ∀ t ∈ ts, t.Closed ∧ (∀ x ∈ t.locals, x.index < v.nextLocal) ∧
      ∀ c ∈ t.globals, ctx.takenAt [] c = true) :
    List.Forall₂ (fun t u => (∃ e, u.Expands (Definition.lookup w.lifted) e) ∧
      ∀ e, u.Expands (Definition.lookup w.lifted) e → e.Convertible t) ts us := by
  have hscoped := LiftsIn.scoped ctx n
  have hmeans := LiftsIn.means ctx v.nextLocal n
  have hknown : ∀ t ∈ ts, Known ctx v t := fun t ht c hc => hv ▸ (hts t ht).2.2 c hc
  have hordered : Ordered ctx w.lifted := (LiftsBody.named h hv hknown).1
  obtain ⟨ds, hds, hclosed⟩ := (LiftsBody.closed h).1.lifted_eq
  rw [hv, List.nil_append] at hds
  have hdefs : ∀ c b, Definition.lookup w.lifted c = some b → b.Closed := fun c b hb => by
    obtain ⟨d, hd, -, rfl⟩ := Definition.exists_mem_of_lookup hb
    exact (hclosed d (hds ▸ hd)).1
  have hsolves := hordered.solves_expanded fun d hd => (hclosed d (hds ▸ hd)).1
  have hunlifted : ∀ t ∈ ts, Unlifted v.nextLocal [] t := fun t ht =>
    ⟨fun x hx => absurd hx (Term.closed_iff.1 (hts t ht).1 x),
      fun x hx => (hts t ht).2.1 x (Term.mem_locals_of_mem_binders hx)⟩
  -- Read through the final procedures, every lifted body is convertible to its source.
  have hconv := Judgment.Means.each (Γ := []) id
    (fun _ t _ _ hΓ h => hscoped.under t.leading hΓ h)
    (fun _ t _ _ hΓ ht h => hmeans.under t.leading hΓ ht h)
    ⟨.nil, by simp [Context.ids], Nat.le_refl _⟩ hunlifted h
    (by simp [Reading.Respects]) hsolves
  have hr := Reading.unfolds_expanded (Definition.lookup w.lifted)
  -- The globals of the input have no definition, so that reading it expanded changes nothing.
  have hread : ∀ t ∈ ts, t.read (Reading.expanded (Definition.lookup w.lifted)) = t.read .plain :=
    fun t ht => Term.read_congr (fun _ _ => rfl) fun c hc =>
      hr.globals_eq c _ (.keep (hordered.lookup_eq_none ((hts t ht).2.2 c hc)))
  rw [List.map_id, List.forall₂_map_left_iff, List.forall₂_map_right_iff] at hconv
  refine ((List.forall₂_and_left _ _).2 ⟨hread, hconv.flip⟩).imp ?_
  rintro t u ⟨ht, hconv⟩
  refine ⟨hordered.exists_expands u, fun e he => ?_⟩
  rw [hr.read_eq hdefs he, ht] at hconv
  rwa [Term.Convertible, Term.nameless_eq_read, Term.nameless_eq_read]

end LambdaLifting
