import LambdaLifting.Proofs.Rules

namespace LambdaLifting

open Relation (ReflTransGen)

/-- An eta step at one of the lambdas at the top of a term. -/
inductive EtaStep : Term → Term → Prop where
  | eta {b f} : b.id ∉ f.occurrences → EtaStep (.lam b (.app f (.var b.id))) f
  | lam (b) {t u} : EtaStep t u → EtaStep (.lam b t) (.lam b u)

namespace EtaStep

variable {t u : Term}

theorem mem_occurrences_iff (h : EtaStep t u) {x : LocalId} :
    x ∈ u.occurrences ↔ x ∈ t.occurrences := by
  induction h with
  | @eta b f hb =>
    simp only [Term.occurrences, List.mem_filter, List.mem_append, List.mem_singleton,
      decide_eq_true_eq]
    constructor
    · intro hx
      exact ⟨.inl hx, fun e => hb (e ▸ hx)⟩
    · rintro ⟨hx | hx, hne⟩
      · exact hx
      · exact absurd hx hne
  | lam b _ ih => simp only [Term.occurrences, List.mem_filter, ih]

theorem mem_binders (h : EtaStep t u) {x : LocalId} (hx : x ∈ u.binders) : x ∈ t.binders := by
  induction h with
  | eta hb => simp [Term.binders, hx]
  | lam b _ ih =>
    simp only [Term.binders, List.mem_cons] at hx ⊢
    exact hx.imp_right ih

theorem globals_eq (h : EtaStep t u) : u.globals = t.globals := by
  induction h with
  | eta hb => simp [Term.globals]
  | lam b _ ih => exact ih

end EtaStep

namespace Term

theorem eq_app_of_dropArg? {x : LocalId} {t f : Term} (h : t.dropArg? x = some f) :
    t = app f (var x) ∧ x ∉ f.occurrences := by
  cases t with
  | app g y =>
    cases y with
    | var z =>
      simp only [dropArg?, Option.ite_none_right_eq_some, Option.some.injEq] at h
      obtain ⟨⟨rfl, hx⟩, rfl⟩ := h
      exact ⟨rfl, hx⟩
    | _ => simp [dropArg?] at h
  | _ => simp [dropArg?] at h

/-- Either nothing was dropped under the binder, or the binder is gone. -/
theorem etaReduce_lam (b : Binder) (body : Term) :
    (lam b body).etaReduce = lam b body.etaReduce ∨
      (body.etaReduce = app (lam b body).etaReduce (var b.id) ∧
        b.id ∉ (lam b body).etaReduce.occurrences) := by
  rw [etaReduce]
  cases h : body.etaReduce.dropArg? b.id with
  | none => exact .inl rfl
  | some f => exact .inr (eq_app_of_dropArg? h)

theorem etaSteps_etaReduce (t : Term) : ReflTransGen EtaStep t t.etaReduce := by
  induction t with
  | lam b body ih =>
    have hbody : ReflTransGen EtaStep (lam b body) (lam b body.etaReduce) :=
      ih.lift (lam b) fun _ _ => .lam b
    rcases etaReduce_lam b body with e | ⟨e, hb⟩
    · rwa [e]
    · refine hbody.tail ?_
      rw [e]
      exact .eta hb
  | _ => exact .refl

theorem mem_occurrences_etaReduce {t : Term} {x : LocalId} :
    x ∈ t.etaReduce.occurrences ↔ x ∈ t.occurrences := by
  have hsteps := t.etaSteps_etaReduce
  generalize t.etaReduce = u at *
  induction hsteps with
  | refl => rfl
  | tail _ h ih => exact h.mem_occurrences_iff.trans ih

theorem mem_binders_of_etaReduce {t : Term} {x : LocalId} (h : x ∈ t.etaReduce.binders) :
    x ∈ t.binders := by
  have hsteps := t.etaSteps_etaReduce
  generalize t.etaReduce = u at *
  induction hsteps with
  | refl => exact h
  | tail _ hstep ih => exact ih (hstep.mem_binders h)

theorem globals_etaReduce (t : Term) : t.etaReduce.globals = t.globals := by
  have hsteps := t.etaSteps_etaReduce
  generalize t.etaReduce = u at *
  induction hsteps with
  | refl => rfl
  | tail _ h ih => rw [h.globals_eq, ih]

/-- The lambdas `cs` that go are the innermost ones, together with the arguments that they bind.
What is left under the others is no application to the variable of the last one. -/
theorem exists_etaReduce_eq (t : Term) : ∃ bs cs v,
    t = lambdas (bs ++ cs) (v.apply (cs.map fun c => var c.id)) ∧ t.etaReduce = lambdas bs v ∧
      (cs = [] → v.isLambda = false) ∧ ∀ c ∈ bs.getLast?, v.dropArg? c.id = none := by
  induction t with
  | lam b body ih =>
    obtain ⟨bs, cs, v, hbody, hv, hlam, hlast⟩ := ih
    rw [etaReduce, hv]
    cases bs with
    -- A lambda that stays keeps all lambdas around it.
    | cons c bs =>
      refine ⟨b :: c :: bs, cs, v, congrArg (lam b) hbody, rfl, hlam, fun d hd => hlast d ?_⟩
      rwa [List.getLast?_cons_cons] at hd
    | nil =>
      cases hdrop : v.dropArg? b.id with
      | none =>
        exact ⟨[b], cs, v, congrArg (lam b) hbody, congrArg (Option.getD · _) hdrop, hlam,
          by simp [hdrop]⟩
      | some w =>
        obtain ⟨rfl, -⟩ := eq_app_of_dropArg? hdrop
        exact ⟨[], b :: cs, w, congrArg (lam b) hbody, congrArg (Option.getD · _) hdrop, by simp,
          by simp⟩
  | _ => exact ⟨[], [], _, rfl, rfl, fun _ => rfl, by simp⟩

/-- The last lambda that stays is needed, if the term under all lambdas is no application of a
lambda: the last argument is another one, or its variable is free elsewhere. -/
theorem needed_of_etaReduce {t f : Term} {ds : List Binder} {xs : List Term}
    (ht : t = lambdas ds (f.apply xs)) (happ : f.isApp = false) (hlam : f.isLambda = false)
    {bs : List Binder} {c : Binder} {g y : Term} {ys : List Term}
    (hu : t.etaReduce = lambdas (bs ++ [c]) (g.apply (ys ++ [y]))) :
    y ≠ var c.id ∨ c.id ∈ g.occurrences ∨ ∃ z ∈ ys, c.id ∈ z.occurrences := by
  obtain ⟨kept, cs, v, htv, huv, hnil, hlast⟩ := t.exists_etaReduce_eq
  -- The head of what is left is the head from before.
  have hv : v.isLambda = false := by
    by_cases hcs : cs = []
    · exact hnil hcs
    · have hne : cs.map (fun c => var c.id) ≠ [] := by simpa using hcs
      obtain ⟨g', y', hbody⟩ := v.exists_apply_eq_app hne
      obtain ⟨-, hspine⟩ := lambdas_inj (isLambda_apply hlam xs) (by rw [hbody]; rfl)
        (ht.symm.trans htv)
      obtain ⟨h, zs, rfl, hh⟩ := v.exists_spine
      rw [← apply_append] at hspine
      obtain ⟨rfl, -⟩ := apply_inj happ hh hspine
      exact isLambda_apply hlam zs
  rw [apply_concat, huv] at hu
  obtain ⟨rfl, rfl⟩ := lambdas_inj hv rfl hu
  have hdrop := hlast c (by simp)
  by_contra hneeded
  simp only [not_or, ne_eq, not_not] at hneeded
  obtain ⟨rfl, hg, hys⟩ := hneeded
  have hfree : c.id ∉ (g.apply ys).occurrences := fun hc =>
    (mem_occurrences_apply.1 hc).elim hg hys
  simp [dropArg?, hfree] at hdrop

end Term

end LambdaLifting
