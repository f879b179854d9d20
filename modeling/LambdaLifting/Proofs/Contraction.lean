import LambdaLifting.Proofs.Alpha
import LambdaLifting.Proofs.Eta
import LambdaLifting.Proofs.Reduction

namespace LambdaLifting

open Relation (ReflTransGen TransGen)

namespace HeadStep

theorem unique {t u v : Term} (hu : HeadStep t u) (hv : HeadStep t v) : u = v := by
  induction hu generalizing v with
  | beta b body x =>
    cases hv with
    | beta => rfl
    | app _ h => cases h
  | app x h ih =>
    cases hv with
    | beta => cases h
    | app _ h' => rw [ih h']

/-- There is only one way to go, so that a term with a normal form has no endless reduction. -/
theorem acc_of_headNormal {t u : Term} (h : ReflTransGen HeadStep t u) (hu : HeadNormal u) :
    Acc (Function.swap HeadStep) t := by
  induction h using ReflTransGen.head_induction_on with
  | refl => exact ⟨u, fun v hv => absurd hv (hu v)⟩
  | head hstep _ ih => exact ⟨_, fun v hv => hstep.unique hv ▸ ih⟩

end HeadStep

/-- A beta step at the head of a term that catches no variable: the nameless form takes it too. -/
structure AvoidingStep (t u : Term) : Prop where
  isHeadStep : HeadStep t u
  nameless_eq : (t.nameless []).headStep? = some (u.nameless [])

namespace Term.Separated

variable {t u : Term}

theorem avoidingStep (ht : t.Separated) (h : HeadStep t u) : AvoidingStep t u :=
  ⟨h, h.nameless_eq ht []⟩

/-- Steps keep bound and free variables apart, as they bring in neither. -/
theorem avoidingSteps (ht : t.Separated) (h : ReflTransGen HeadStep t u) :
    ReflTransGen AvoidingStep t u ∧ (∀ x ∈ u.occurrences, x ∈ t.occurrences) ∧
      (∀ x ∈ u.binders, x ∈ t.binders) ∧ u.Separated := by
  induction h with
  | refl => exact ⟨.refl, fun _ hx => hx, fun _ hx => hx, ht⟩
  | tail _ hstep ih =>
    obtain ⟨hsteps, hfree, hbound, hu⟩ := ih
    exact ⟨hsteps.tail (hu.avoidingStep hstep), fun x hx => hfree x (hstep.mem_occurrences hx),
      fun x hx => hbound x (hstep.mem_binders hx), hu.step hstep⟩

end Term.Separated

namespace Arena

variable {a : Arena}

def isRedex (a : Arena) (e : ExprId) : Bool :=
  match a.node? e with
  | some (.app head _) => (a.node? head).any Node.isLambda
  | _ => false

theorem WellFormed.isRedex_eq_false_iff (ha : a.WellFormed) {e : ExprId} {t : Term}
    (he : a.term? e = some t) : a.isRedex e = false ↔ HeadNormal t := by
  obtain ⟨n, hn⟩ := node?_of_term? he
  have hne := ha.isApp_eq_false he hn
  simp only [isRedex, hn]
  cases ha.shows_of_node? he hn with
  | @app head args f xs hf hxs =>
    obtain ⟨m, hm⟩ := node?_of_term? hf
    obtain ⟨happ, hxs⟩ := ha.spine_of_node? hn hf hxs
    dsimp only
    rw [HeadNormal.apply_iff happ hxs, hm, Option.any_some, ha.isLambda_eq hf hm]
  | _ => exact iff_of_true rfl (.of_isApp_eq_false (hne (by simp)))

end Arena

namespace ArenaM

variable {a b : Arena} {e r : ExprId} {t : Term} {fuel : Nat}

/-- A reduction ends if the term has a head normal form. -/
theorem exists_headReduce (ha : a.WellFormed) (he : a.term? e = some t)
    (ht : Acc (Function.swap HeadStep) t) : ∃ fuel r b, headReduce fuel e a = .ok (r, b) := by
  -- One round can take many steps, so that the induction is on their closure.
  induction ht.transGen generalizing a e with
  | intro t hacc ih =>
    rcases headReduce_round ha he with ⟨-, hround⟩ | ⟨e', b, u, hab, he', hsteps, hround⟩
    · exact ⟨1, e, a, hround 0⟩
    · have hu := Relation.transGen_swap.2 hsteps
      obtain ⟨fuel, r, c, hrun⟩ := ih u hu hab.wellFormed he' (ht.inv_of_transGen hu)
      exact ⟨fuel + 1, r, c, (hround fuel).trans hrun⟩

/-- Reduction of a term in which no variable is both bound and free. It ends exactly if the term has
a head normal form; what it returns is reached by steps that catch no variable, has no redex at its
head, and is the term itself exactly if there was none. No variable becomes free or bound. -/
theorem headReduce_avoids (ha : a.WellFormed) (he : a.term? e = some t) (ht : t.Separated) :
    ((∃ fuel r b, headReduce fuel e a = .ok (r, b)) ↔
      ∃ u, ReflTransGen HeadStep t u ∧ HeadNormal u) ∧
    ∀ fuel r b, headReduce fuel e a = .ok (r, b) →
      a.Grows b ∧ b.isRedex r = false ∧ (r = e ↔ a.isRedex e = false) ∧
      ∃ u, b.term? r = some u ∧ ReflTransGen AvoidingStep t u ∧
        (∀ x ∈ u.occurrences, x ∈ t.occurrences) ∧ (∀ x ∈ u.binders, x ∈ t.binders) ∧
        u.Separated := by
  have hreaches {fuel : Nat} {r : ExprId} {b : Arena} (h : headReduce fuel e a = .ok (r, b)) :
      a.Grows b ∧ ∃ u, b.term? r = some u ∧ HeadNormal u ∧ ReflTransGen HeadStep t u := by
    obtain ⟨hab, u, hu, hnormal, hsteps⟩ := headReduce_eq_ok ha he h
    refine ⟨hab, u, hu, hnormal, ?_⟩
    rcases hsteps with rfl | hsteps
    · obtain rfl := Option.some.inj ((hab.isExtension.term?_eq_some he).symm.trans hu)
      exact .refl
    · exact hsteps.to_reflTransGen
  refine ⟨⟨?_, ?_⟩, ?_⟩
  · rintro ⟨fuel, r, b, h⟩
    obtain ⟨-, u, -, hnormal, hsteps⟩ := hreaches h
    exact ⟨u, hsteps, hnormal⟩
  · rintro ⟨u, hsteps, hnormal⟩
    exact exists_headReduce ha he (HeadStep.acc_of_headNormal hsteps hnormal)
  · intro fuel r b h
    obtain ⟨hab, u, hu, hnormal, hsteps⟩ := hreaches h
    refine ⟨hab, (hab.wellFormed.isRedex_eq_false_iff hu).2 hnormal, ?_, u, hu,
      ht.avoidingSteps hsteps⟩
    rw [headReduce_eq_iff ha he h, ha.isRedex_eq_false_iff he]

/-- The term `(λ x y, x y y) (λ z, z) w`, which takes three steps to `w w`. -/
def spreadingArena : Arena :=
  .ofNodes [.var ⟨0⟩, .var ⟨1⟩, .app ⟨0⟩ [⟨1⟩, ⟨1⟩], .lam ⟨⟨1⟩, ⟨2⟩⟩ ⟨2⟩, .lam ⟨⟨0⟩, ⟨1⟩⟩ ⟨3⟩,
    .var ⟨2⟩, .lam ⟨⟨2⟩, ⟨3⟩⟩ ⟨5⟩, .var ⟨3⟩, .app ⟨4⟩ [⟨6⟩, ⟨7⟩]] 4

def spreadingTerm : Term :=
  .app (.app (.lam ⟨⟨0⟩, ⟨1⟩⟩ (.lam ⟨⟨1⟩, ⟨2⟩⟩ (.app (.app (.var ⟨0⟩) (.var ⟨1⟩)) (.var ⟨1⟩))))
    (.lam ⟨⟨2⟩, ⟨3⟩⟩ (.var ⟨2⟩))) (.var ⟨3⟩)

/-- The lambda that is put in for `x` is applied in turn, and the reduction goes on. -/
theorem headReduce_avoids_spreadingArena :
    spreadingArena.WellFormed ∧ spreadingArena.term? ⟨8⟩ = some spreadingTerm ∧
      spreadingTerm.Separated ∧ ∃ r b, headReduce 3 ⟨8⟩ spreadingArena = .ok (r, b) ∧ r ≠ ⟨8⟩ ∧
        ReflTransGen AvoidingStep spreadingTerm (.app (.var ⟨3⟩) (.var ⟨3⟩)) := by
  have hwf : spreadingArena.WellFormed := by decide +kernel
  have hterm : spreadingArena.term? ⟨8⟩ = some spreadingTerm := by decide +kernel
  have hsep : spreadingTerm.Separated := by decide +kernel
  have hend : ((headReduce 3 ⟨8⟩ spreadingArena).toOption.bind fun p => p.2.term? p.1) =
      some (.app (.var ⟨3⟩) (.var ⟨3⟩)) := by decide +kernel
  cases hrun : headReduce 3 ⟨8⟩ spreadingArena with
  | error f =>
    rw [hrun] at hend
    cases hend
  | ok p =>
    obtain ⟨r, b⟩ := p
    obtain ⟨-, -, hself, u, hu, hsteps, -⟩ :=
      (headReduce_avoids hwf hterm hsep).2 3 r b hrun
    rw [hrun] at hend
    obtain rfl := Option.some.inj (hu.symm.trans hend)
    refine ⟨hwf, hterm, hsep, r, b, rfl, fun hr => ?_, hsteps⟩
    exact absurd (hself.1 hr) (by decide +kernel)

/-- Eta reduction of shared terms always ends, whatever the leading lambdas bind. It takes eta steps
at these lambdas only and keeps the free variables. If the term under all lambdas applies no
lambda, and an application is left under some of them, the last one of these is needed. -/
theorem etaReduce_exhausts (ha : a.WellFormed) (he : a.term? e = some t) :
    ∃ r b u, etaReduce e a = .ok (r, b) ∧ a.Grows b ∧ b.term? r = some u ∧
      ReflTransGen EtaStep t u ∧ (∀ x, x ∈ u.occurrences ↔ x ∈ t.occurrences) ∧
      ∀ (ds : List Binder) (f : Term) (xs : List Term), t = .lambdas ds (f.apply xs) →
        f.isApp = false → f.isLambda = false →
        ∀ (bs : List Binder) (c : Binder) (g : Term) (ys : List Term) (y : Term),
          u = .lambdas (bs ++ [c]) (g.apply (ys ++ [y])) →
            y ≠ .var c.id ∨ c.id ∈ g.occurrences ∨ ∃ z ∈ ys, c.id ∈ z.occurrences := by
  obtain ⟨r, b, hrun, hab, hr⟩ := builds_etaReduce ha he
  refine ⟨r, b, t.etaReduce, hrun, hab, hr, t.etaSteps_etaReduce,
    fun x => Term.mem_occurrences_etaReduce, ?_⟩
  intro ds f xs ht happ hlam bs c g ys y hu
  exact Term.needed_of_etaReduce ht happ hlam hu

/-- The term `λ z x y, g z z x y`. -/
def droppingArena : Arena :=
  .ofNodes [.global ⟨1⟩, .var ⟨0⟩, .var ⟨1⟩, .var ⟨2⟩, .app ⟨0⟩ [⟨1⟩, ⟨1⟩, ⟨2⟩, ⟨3⟩],
    .lam ⟨⟨2⟩, ⟨4⟩⟩ ⟨4⟩, .lam ⟨⟨1⟩, ⟨3⟩⟩ ⟨5⟩, .lam ⟨⟨0⟩, ⟨2⟩⟩ ⟨6⟩] 3

def droppingTerm : Term :=
  .lambdas [⟨⟨0⟩, ⟨2⟩⟩, ⟨⟨1⟩, ⟨3⟩⟩, ⟨⟨2⟩, ⟨4⟩⟩]
    ((Term.global ⟨1⟩).apply [.var ⟨0⟩, .var ⟨0⟩, .var ⟨1⟩, .var ⟨2⟩])

/-- Two lambdas go; the third stays, since its variable is the argument before the last too. -/
theorem etaReduce_exhausts_droppingArena :
    droppingArena.WellFormed ∧ droppingArena.term? ⟨7⟩ = some droppingTerm ∧
      ∃ r b, etaReduce ⟨7⟩ droppingArena = .ok (r, b) ∧
        b.term? r = some (.lam ⟨⟨0⟩, ⟨2⟩⟩ ((Term.global ⟨1⟩).apply [.var ⟨0⟩, .var ⟨0⟩])) ∧
        ReflTransGen EtaStep droppingTerm
          (.lam ⟨⟨0⟩, ⟨2⟩⟩ ((Term.global ⟨1⟩).apply [.var ⟨0⟩, .var ⟨0⟩])) ∧
        (Term.var ⟨0⟩ ≠ .var ⟨0⟩ ∨ ⟨0⟩ ∈ (Term.global ⟨1⟩).occurrences ∨
          ∃ z ∈ [Term.var ⟨0⟩], ⟨0⟩ ∈ z.occurrences) := by
  have hwf : droppingArena.WellFormed := by decide +kernel
  have hterm : droppingArena.term? ⟨7⟩ = some droppingTerm := by decide +kernel
  have hend : ((etaReduce ⟨7⟩ droppingArena).toOption.bind fun p => p.2.term? p.1) =
      some (.lam ⟨⟨0⟩, ⟨2⟩⟩ ((Term.global ⟨1⟩).apply [.var ⟨0⟩, .var ⟨0⟩])) := by decide +kernel
  obtain ⟨r, b, u, hrun, -, hu, hsteps, -, hneeded⟩ := etaReduce_exhausts hwf hterm
  rw [hrun] at hend
  obtain rfl := Option.some.inj (hu.symm.trans hend)
  exact ⟨hwf, hterm, r, b, hrun, hu, hsteps, hneeded _ _ _ rfl rfl rfl [] ⟨⟨0⟩, ⟨2⟩⟩ _ [_] _ rfl⟩

end ArenaM

end LambdaLifting
