import LambdaLifting.Arena.Reduction
import LambdaLifting.Proofs.FreeVariables
import LambdaLifting.Proofs.Scoping
import LambdaLifting.Proofs.Substitution
import Mathlib.Data.List.Induction

namespace LambdaLifting

theorem HeadStep.apply {f g : Term} (h : HeadStep f g) (xs : List Term) :
    HeadStep (f.apply xs) (g.apply xs) := by
  induction xs generalizing f g with
  | nil => exact h
  | cons x xs ih => exact ih (.app x h)

namespace HeadNormal

theorem of_isApp_eq_false {t : Term} (h : t.isApp = false) : HeadNormal t := by
  intro u hstep
  cases hstep <;> cases h

theorem apply {f : Term} (happ : f.isApp = false) (hlam : f.isLambda = false) (xs : List Term) :
    HeadNormal (f.apply xs) := by
  induction xs using List.reverseRecOn with
  | nil => exact of_isApp_eq_false happ
  | append_singleton xs x ih =>
    intro u hstep
    have hlam' := Term.isLambda_apply hlam xs
    rw [Term.apply_concat] at hstep
    generalize f.apply xs = g at ih hlam' hstep
    cases hstep with
    | beta => cases hlam'
    | app _ hstep => exact ih _ hstep

theorem isLambda_eq_false {f : Term} {xs : List Term} (h : HeadNormal (f.apply xs))
    (hxs : xs ≠ []) : f.isLambda = false := by
  cases f with
  | lam b body =>
    cases xs with
    | nil => exact absurd rfl hxs
    | cons x xs => exact absurd ((HeadStep.beta b body x).apply xs) (h _)
  | _ => rfl

theorem apply_iff {f : Term} {xs : List Term} (happ : f.isApp = false) (hxs : xs ≠ []) :
    HeadNormal (f.apply xs) ↔ f.isLambda = false :=
  ⟨fun h => h.isLambda_eq_false hxs, fun h => .apply happ h xs⟩

end HeadNormal

theorem Term.etaReduce_of_isLambda_eq_false {t : Term} (h : t.isLambda = false) :
    t.etaReduce = t := by
  cases t with
  | lam b body => simp [isLambda] at h
  | _ => rfl

namespace ArenaM

open Relation (ReflTransGen TransGen)

variable {a : Arena}

/-- Feeding arguments to a term takes head steps, and at least one if the term is a lambda. -/
theorem yields_feed (ha : a.WellFormed) {head : ExprId} {args : List ExprId} {f : Term}
    {xs : List Term} (hf : a.term? head = some f) (hxs : a.Denote args xs) :
    Yields (feed head args) a fun r b => a.Grows b ∧ ∃ g ys, b.term? r.1 = some g ∧
      b.Denote r.2 ys ∧ ReflTransGen HeadStep (f.apply xs) (g.apply ys) ∧
      (f.isLambda → args ≠ [] → TransGen HeadStep (f.apply xs) (g.apply ys)) := by
  induction args generalizing a head f xs with
  | nil => exact .pure ⟨.refl ha, f, xs, hf, hxs, .refl, fun _ h => absurd rfl h⟩
  | cons arg args ih =>
    obtain ⟨x, xs, hx, htail, rfl⟩ := List.forall₂_cons_left_iff.1 hxs
    obtain ⟨n, hn⟩ := Arena.node?_of_term? hf
    have hlam := ha.isLambda_eq hf hn
    refine yields_node_bind hn ?_
    cases ha.shows_of_node? hf hn with
    | @lam c body t ht =>
      refine Yields.bind (builds_instantiate ha ht c.id hx) fun head' b ⟨hab, hhead'⟩ => ?_
      refine (ih hab.wellFormed hhead' (hab.isExtension.denote htail)).imp ?_
      rintro r b' ⟨hbb', g, ys, hg, hys, hsteps, -⟩
      have hstep := (HeadStep.beta c t x).apply xs
      exact ⟨hab.trans hbb', g, ys, hg, hys, .head hstep hsteps, fun _ _ => .head' hstep hsteps⟩
    | _ => exact .pure ⟨.refl ha, _, _, hf, hxs, .refl, fun h => by simp [hlam, Node.isLambda] at h⟩

/-- One round of a reduction: a term in head normal form comes back as it was, and the reduction of
any other term goes on after some head steps. -/
theorem headReduce_round (ha : a.WellFormed) {e : ExprId} {t : Term} (he : a.term? e = some t) :
    (HeadNormal t ∧ ∀ fuel, headReduce (fuel + 1) e a = .ok (e, a)) ∨
      ∃ e' b u, a.Grows b ∧ b.term? e' = some u ∧ TransGen HeadStep t u ∧
        ∀ fuel, headReduce (fuel + 1) e a = headReduce fuel e' b := by
  obtain ⟨n, hn⟩ := Arena.node?_of_term? he
  simp only [headReduce, bind_of_eq_ok (node_eq_ok hn)]
  have hne := ha.isApp_eq_false he hn
  cases ha.shows_of_node? he hn with
  | @app head args f xs hf hxs =>
    obtain ⟨m, hm⟩ := Arena.node?_of_term? hf
    have happ := (ha.spine_of_node? hn hf hxs).1
    have hlam := ha.isLambda_eq hf hm
    simp only [bind_of_eq_ok (node_eq_ok hm)]
    cases ha.shows_of_node? hf hm with
    -- There are arguments, so that feeding them takes a step.
    | @lam c body u hu =>
      obtain ⟨⟨rest, left⟩, b₁, hfeed, hab₁, g, ys, hg, hys, -, hsteps⟩ := yields_feed ha hf hxs
      obtain ⟨e', b₂, happ, hb₁₂, he'⟩ := builds_mkApp hab₁.wellFormed hg hys
      simp only [bind_of_eq_ok hfeed, bind_of_eq_ok happ]
      exact .inr ⟨e', b₂, _, hab₁.trans hb₁₂, he', hsteps rfl (ha.args_ne_nil hn), fun _ => rfl⟩
    | _ => exact .inl ⟨.apply happ hlam xs, fun _ => rfl⟩
  | _ => exact .inl ⟨.of_isApp_eq_false (hne (by simp)), fun _ => rfl⟩

/-- A reduction that ends has taken at least one step, unless it returns the term as it was. -/
theorem headReduce_eq_ok {b : Arena} (ha : a.WellFormed) {fuel : Nat} {e r : ExprId} {t : Term}
    (he : a.term? e = some t) (h : headReduce fuel e a = .ok (r, b)) :
    a.Grows b ∧ ∃ u, b.term? r = some u ∧ HeadNormal u ∧ (r = e ∨ TransGen HeadStep t u) := by
  induction fuel generalizing a e t with
  | zero => cases h
  | succ fuel ih =>
    rcases headReduce_round ha he with ⟨hnormal, hround⟩ | ⟨e', c, u, hac, he', hsteps, hround⟩
    · rw [hround] at h
      cases h
      exact ⟨.refl ha, t, he, hnormal, .inl rfl⟩
    · rw [hround] at h
      obtain ⟨hcb, v, hv, hnormal, hrest⟩ := ih hac.wellFormed he' h
      refine ⟨hac.trans hcb, v, hv, hnormal, .inr ?_⟩
      rcases hrest with rfl | hrest
      · rw [hcb.isExtension.term?_eq_some he'] at hv
        exact Option.some.inj hv ▸ hsteps
      · exact hsteps.trans hrest

/-- A reduction returns the term as it was exactly if there is nothing to reduce. -/
theorem headReduce_eq_iff {b : Arena} (ha : a.WellFormed) {fuel : Nat} {e r : ExprId} {t : Term}
    (he : a.term? e = some t) (h : headReduce fuel e a = .ok (r, b)) : r = e ↔ HeadNormal t := by
  obtain ⟨hab, u, hu, hnormal, hsteps⟩ := headReduce_eq_ok ha he h
  constructor
  · rintro rfl
    obtain rfl := Option.some.inj ((hab.isExtension.term?_eq_some he).symm.trans hu)
    exact hnormal
  · intro ht
    refine hsteps.resolve_right fun hsteps => ?_
    obtain ⟨v, hstep, -⟩ := TransGen.head'_iff.1 hsteps
    exact ht v hstep

theorem headReduce_eq_self (ha : a.WellFormed) {e : ExprId} {t : Term} (he : a.term? e = some t)
    (ht : HeadNormal t) (fuel : Nat) : headReduce (fuel + 1) e a = .ok (e, a) := by
  rcases headReduce_round ha he with ⟨-, hround⟩ | ⟨_, _, _, -, -, hsteps, -⟩
  · exact hround fuel
  · obtain ⟨u, hstep, -⟩ := TransGen.head'_iff.1 hsteps
    exact absurd hstep (ht u)

theorem eq_outOfFuel_of_headReduce (ha : a.WellFormed) {fuel : Nat} {e : ExprId} {t : Term}
    (he : a.term? e = some t) {f : Fault} (h : headReduce fuel e a = .error f) :
    f = .outOfFuel := by
  induction fuel generalizing a e t with
  | zero =>
    cases h
    rfl
  | succ fuel ih =>
    rcases headReduce_round ha he with ⟨-, hround⟩ | ⟨e', b, u, hab, he', -, hround⟩
    · rw [hround] at h
      cases h
    · rw [hround] at h
      exact ih hab.wellFormed he' h

theorem yields_anyM_hasFree (ha : a.WellFormed) (x : LocalId) {es : List ExprId} {ts : List Term}
    (hes : a.Denote es ts) :
    Yields (es.anyM fun e => ask fun a => a.hasFree x e) a fun found b => a = b ∧
      (found ↔ ∃ t ∈ ts, x ∈ t.occurrences) := by
  induction hes with
  | nil => exact .pure ⟨rfl, by simp⟩
  | @cons e t es ts he _ ih =>
    refine Yields.bind (P := fun v b => decide (x ∈ t.occurrences) = v ∧ a = b)
      ⟨_, a, ask_eq_ok (Arena.hasFree_eq_ok ha x he), rfl, rfl⟩ ?_
    rintro _ _ ⟨rfl, rfl⟩
    by_cases hx : x ∈ t.occurrences
    · simp only [hx, decide_true]
      exact .pure ⟨rfl, by simp [hx]⟩
    · simp only [hx, decide_false]
      exact ih.imp fun found b ⟨hb, hfound⟩ => ⟨hb, by simp [hfound, hx]⟩

theorem yields_endsInVar (ha : a.WellFormed) (x : LocalId) {head last : ExprId}
    {init : List ExprId} {f y : Term} {ys : List Term} (hf : a.term? head = some f)
    (hinit : a.Denote init ys) (hlast : a.term? last = some y) :
    Yields (endsInVar x head init last) a fun found b => a = b ∧
      (found ↔ y = .var x ∧ x ∉ (f.apply ys).occurrences) := by
  obtain ⟨n, hn⟩ := Arena.node?_of_term? hlast
  refine yields_node_bind hn ?_
  cases ha.shows_of_node? hlast hn with
  | var z =>
    dsimp only
    split
    · next hz => exact .pure ⟨rfl, by simp [hz]⟩
    · next hz =>
      refine (yields_anyM_hasFree ha x (.cons hf hinit)).bind ?_
      rintro found _ ⟨rfl, hfound⟩
      refine .pure ⟨rfl, ?_⟩
      simp only [Bool.not_eq_true', ← Bool.not_eq_true, hfound, Term.mem_occurrences_apply]
      simp [not_not.1 hz]
  | @app inner args g zs hg hzs =>
    obtain ⟨h, z, heq⟩ := ha.exists_eq_app hlast hn
    exact .pure ⟨rfl, by simp [heq]⟩
  | _ => exact .pure ⟨rfl, by simp⟩

theorem yields_dropArg? (ha : a.WellFormed) (x : LocalId) {e : ExprId} {t : Term}
    (he : a.term? e = some t) :
    Yields (dropArg? x e) a fun r b => a.Grows b ∧
      ((r = none ∧ t.dropArg? x = none) ∨
        ∃ e' u, r = some e' ∧ t.dropArg? x = some u ∧ b.term? e' = some u) := by
  obtain ⟨n, hn⟩ := Arena.node?_of_term? he
  refine yields_node_bind hn ?_
  cases ha.shows_of_node? he hn with
  | @app head args f xs hf hxs =>
    obtain ⟨init, last, rfl⟩ := (List.eq_nil_or_concat args).resolve_left (ha.args_ne_nil hn)
    rw [List.concat_eq_append] at hxs ⊢
    obtain ⟨ys, y, rfl, hys, hy⟩ := hxs.exists_concat
    simp only [List.getLast?_concat, List.dropLast_concat, Term.apply_concat]
    refine (yields_endsInVar ha x hf hys hy).bind ?_
    rintro found _ ⟨rfl, hfound⟩
    cases found with
    | true =>
      obtain ⟨rfl, hx⟩ := hfound.1 rfl
      refine Yields.bind (builds_mkApp ha hf hys) fun e' b ⟨hab, he'⟩ => ?_
      exact .pure ⟨hab, .inr ⟨e', _, rfl, by simp [Term.dropArg?, hx], he'⟩⟩
    | false =>
      refine .pure ⟨.refl ha, .inl ⟨rfl, ?_⟩⟩
      rw [Option.eq_none_iff_forall_ne_some]
      intro u hu
      obtain ⟨h, hx⟩ := Term.eq_app_of_dropArg? hu
      injection h with hfun harg
      exact absurd (hfound.2 ⟨harg, hfun ▸ hx⟩) (by simp)
  | _ => exact .pure ⟨.refl ha, .inl ⟨rfl, rfl⟩⟩

theorem builds_etaReduceFrom (ha : a.WellFormed) {fuel : Nat} {e : ExprId} {t : Term}
    (he : a.term? e = some t) (hfuel : e.index < fuel) :
    Builds (etaReduceFrom fuel e) a t.etaReduce := by
  induction fuel generalizing e t with
  | zero => omega
  | succ fuel ih =>
    obtain ⟨n, hn⟩ := Arena.node?_of_term? he
    refine yields_node_bind hn ?_
    have hlam := ha.isLambda_eq he hn
    cases ha.shows_of_node? he hn with
    | @lam c body u hu =>
      have hbody := ha.child_lt hn body (by simp [Node.children])
      refine Yields.bind (ih hu (by omega)) ?_
      rintro body' b ⟨hab, hbody'⟩
      refine (yields_dropArg? hab.wellFormed c.id hbody').bind ?_
      rintro r b' ⟨hbb', hr⟩
      have hab' := hab.trans hbb'
      -- The body is reduced first; then its last argument may be the bound variable.
      rcases hr with ⟨rfl, hnone⟩ | ⟨e', v, rfl, hv, he'⟩
      · rw [Term.etaReduce, hnone]
        dsimp only [Option.getD_none]
        split
        · next heq =>
          subst heq
          rw [hab.isExtension.term?_eq_some hu] at hbody'
          rw [← Option.some.inj hbody']
          exact .pure ⟨hab', hab'.isExtension.term?_eq_some he⟩
        · have hbody' := hbb'.isExtension.term?_eq_some hbody'
          refine (builds_push hab'.wellFormed (.lam hbody') (by simp)).imp ?_
          rintro r d ⟨hd, h⟩
          exact ⟨hab'.trans hd, h⟩
      · rw [Term.etaReduce, hv]
        exact .pure ⟨hab', he'⟩
    | _ =>
      rw [Term.etaReduce_of_isLambda_eq_false hlam]
      exact .pure ⟨.refl ha, he⟩

theorem builds_etaReduce (ha : a.WellFormed) {e : ExprId} {t : Term} (he : a.term? e = some t) :
    Builds (etaReduce e) a t.etaReduce := by
  refine (Yields.get a).bind ?_
  rintro _ _ ⟨rfl, rfl⟩
  exact builds_etaReduceFrom ha he (Arena.index_lt_depthBound he)

end ArenaM

end LambdaLifting
