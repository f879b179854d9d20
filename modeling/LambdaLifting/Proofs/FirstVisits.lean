import LambdaLifting.Proofs.Traversal
import Mathlib.Data.List.Nodup
import Mathlib.Logic.Relation

namespace LambdaLifting

theorem nodup_eraseDups {α : Type} [BEq α] [LawfulBEq α] (xs : List α) : xs.eraseDups.Nodup := by
  induction xs using List.reverseRecOn with
  | nil => simp
  | append_singleton xs x ih =>
    rw [eraseDups_concat]
    split
    · exact ih
    · next hx =>
      rw [List.nodup_append]
      refine ⟨ih, List.nodup_singleton x, fun y hy z hz heq => hx ?_⟩
      rw [List.contains_iff_mem, ← List.mem_singleton.1 hz, ← heq]
      exact List.mem_eraseDups.1 hy

/-- A tree of nodes. A shared node stands at each of its places. -/
inductive NodeTree where
  | node (e : ExprId) (children : List NodeTree)

namespace NodeTree

mutual

/-- The nodes of a tree, parents before children and children from left to right. -/
def ids : NodeTree → List ExprId
  | node e children => e :: idsOf children

@[inherit_doc ids]
def idsOf : List NodeTree → List ExprId
  | [] => []
  | u :: us => u.ids ++ idsOf us

end

end NodeTree

namespace Arena

variable {a : Arena} {e : ExprId} {n : Node} {t : Term}

/-- The tree that a node unfolds to. -/
inductive Unfolds (a : Arena) : ExprId → NodeTree → Prop where
  | node {e n us} : a.node? e = some n → List.Forall₂ (Unfolds a) n.children us →
      Unfolds a e (.node e us)

theorem unfolds_iff (hn : a.node? e = some n) {v : NodeTree} :
    a.Unfolds e v ↔ ∃ us, v = .node e us ∧ List.Forall₂ a.Unfolds n.children us := by
  constructor
  · rintro ⟨hn', hus⟩
    cases hn.symm.trans hn'
    exact ⟨_, rfl, hus⟩
  · rintro ⟨us, rfl, hus⟩
    exact .node hn hus

theorem exists_forest {cs : List ExprId}
    (h : ∀ c ∈ cs, ∃ u, (∀ v, a.Unfolds c v ↔ v = u) ∧ u.ids = a.visits c) :
    ∃ us, (∀ vs, List.Forall₂ a.Unfolds cs vs ↔ vs = us) ∧
      NodeTree.idsOf us = cs.flatMap a.visits := by
  induction cs with
  | nil => exact ⟨[], by simp, rfl⟩
  | cons c cs ih =>
    obtain ⟨⟨u, hu, hids⟩, hcs⟩ := List.forall_mem_cons.1 h
    obtain ⟨us, hus, hidsOf⟩ := ih hcs
    refine ⟨u :: us, fun vs => ?_, by rw [NodeTree.idsOf, hids, hidsOf, List.flatMap_cons]⟩
    simp only [List.forall₂_cons_left_iff, hu, hus]
    constructor
    · rintro ⟨_, _, rfl, rfl, rfl⟩
      rfl
    · rintro rfl
      exact ⟨u, us, rfl, rfl, rfl⟩

/-- A term unfolds to one tree, and a walk over the whole tree visits its nodes. -/
theorem WellFormed.exists_unfolds (ha : a.WellFormed) (he : a.term? e = some t) :
    ∃ u, (∀ v, a.Unfolds e v ↔ v = u) ∧ u.ids = a.visits e := by
  refine ha.term_induction
    (P := fun e _ => ∃ u, (∀ v, a.Unfolds e v ↔ v = u) ∧ u.ids = a.visits e) ?_ he
  intro e n t hn hshows ih
  obtain ⟨us, hus, hids⟩ := exists_forest fun c hc => by
    obtain ⟨u, hu⟩ := hshows.exists_child ha hc
    exact ih c hc u hu
  refine ⟨.node e us, fun v => ?_, by rw [NodeTree.ids, hids, ha.visits_eq hn]⟩
  simp only [unfolds_iff hn, hus, exists_eq_right]

theorem WellFormed.mem_visits_iff_reachable (ha : a.WellFormed) (he : a.term? e = some t)
    {x : ExprId} : x ∈ a.visits e ↔ Relation.ReflTransGen a.HasChild e x := by
  refine ha.term_induction
    (P := fun e _ => x ∈ a.visits e ↔ Relation.ReflTransGen a.HasChild e x) ?_ he
  intro e n t hn hshows ih
  have hchild (c : ExprId) : a.HasChild e c ↔ c ∈ n.children := by simp [HasChild, hn]
  rw [ha.mem_visits_iff hn, Relation.ReflTransGen.cases_head_iff]
  refine or_congr eq_comm (exists_congr fun c => ?_)
  rw [hchild]
  refine and_congr_right fun hc => ?_
  obtain ⟨u, hu⟩ := hshows.exists_child ha hc
  exact ih c hc u hu

/-- A walk over a shared term lists the nodes of the whole tree, parents before children and
children from left to right, without those that were listed before. So it lists each node that can
be reached exactly once, as it is stored. -/
theorem preorder_eq_first_visits (ha : a.WellFormed) (he : e.index < a.size) :
    ∃ u nodes, (∀ v, a.Unfolds e v ↔ v = u) ∧ a.preorder e = .ok nodes ∧
      nodes.map Prod.fst = u.ids.eraseDups ∧ (nodes.map Prod.fst).Nodup ∧
      (∀ x, x ∈ nodes.map Prod.fst ↔ Relation.ReflTransGen a.HasChild e x) ∧
      ∀ m ∈ nodes, a.node? m.1 = some m.2 := by
  obtain ⟨t, ht⟩ := ha.exists_term he
  obtain ⟨u, hu, hids⟩ := ha.exists_unfolds ht
  obtain ⟨nodes, hrun, hnodes, hstored⟩ := preorder_eq_ok ha ht
  refine ⟨u, nodes, hu, hrun, hids ▸ hnodes, hnodes ▸ nodup_eraseDups _, fun x => ?_, hstored⟩
  rw [hnodes, List.mem_eraseDups, ha.mem_visits_iff_reachable ht]

/-- The term `let z := g x in g (λ x, g x) (g x) (λ x, g x)`, with one node for all `g x` and one
for both lambdas. -/
def interleavedArena : Arena :=
  .ofNodes [.var ⟨0⟩, .global ⟨1⟩, .app ⟨1⟩ [⟨0⟩], .lam ⟨⟨0⟩, ⟨2⟩⟩ ⟨2⟩, .app ⟨1⟩ [⟨3⟩, ⟨2⟩, ⟨3⟩],
    .letIn ⟨⟨1⟩, ⟨3⟩⟩ ⟨2⟩ ⟨4⟩] 2

/-- What is under the lambda is listed before it, since it comes first in the definition of `z`. -/
theorem preorder_eq_first_visits_interleavedArena :
    interleavedArena.WellFormed ∧ 5 < interleavedArena.size ∧
      ∃ u nodes, (∀ v, interleavedArena.Unfolds ⟨5⟩ v ↔ v = u) ∧
        interleavedArena.preorder ⟨5⟩ = .ok nodes ∧ nodes.map Prod.fst = u.ids.eraseDups ∧
        (nodes.map Prod.fst).Nodup ∧
        (∀ x, x ∈ nodes.map Prod.fst ↔ Relation.ReflTransGen interleavedArena.HasChild ⟨5⟩ x) ∧
        (∀ m ∈ nodes, interleavedArena.node? m.1 = some m.2) ∧
        nodes.map (·.1.index) = [5, 2, 1, 0, 4, 3] := by
  have hwf : interleavedArena.WellFormed := by decide +kernel
  have hsize : 5 < interleavedArena.size := by decide
  have hlist : (interleavedArena.preorder ⟨5⟩).toOption.map (List.map (·.1.index)) =
      some [5, 2, 1, 0, 4, 3] := by decide +kernel
  obtain ⟨u, nodes, hu, hrun, hids, hnodup, hreach, hstored⟩ :=
    preorder_eq_first_visits (e := ⟨5⟩) hwf hsize
  rw [hrun] at hlist
  exact ⟨hwf, hsize, u, nodes, hu, hrun, hids, hnodup, hreach, hstored, Option.some.inj hlist⟩

end Arena

end LambdaLifting
