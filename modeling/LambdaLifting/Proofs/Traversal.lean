import LambdaLifting.Arena.Preorder
import LambdaLifting.Proofs.Denotation

namespace LambdaLifting

namespace Term

/-- The terms that a term is made of, with itself. The head of an application together with its
first arguments is one of them. -/
def subterms : Term → List Term
  | var x => [var x]
  | global c => [global c]
  | lit l => [lit l]
  | app f x => app f x :: (f.subterms ++ x.subterms)
  | lam b body => lam b body :: body.subterms
  | letIn b value body => letIn b value body :: (value.subterms ++ body.subterms)

theorem mem_subterms_self (t : Term) : t ∈ t.subterms := by
  cases t <;> simp [subterms]

theorem mem_subterms_apply_left {s f : Term} (h : s ∈ f.subterms) (xs : List Term) :
    s ∈ (f.apply xs).subterms := by
  induction xs generalizing f with
  | nil => exact h
  | cons x xs ih => exact ih (by simp [subterms, h])

theorem mem_subterms_apply_right {s x : Term} {xs : List Term} (hx : x ∈ xs)
    (h : s ∈ x.subterms) (f : Term) : s ∈ (f.apply xs).subterms := by
  induction xs generalizing f with
  | nil => simp at hx
  | cons y xs ih =>
    rcases List.mem_cons.1 hx with rfl | hx
    · exact mem_subterms_apply_left (by simp [subterms, h]) xs
    · exact ih hx _

theorem of_mem_subterms_apply {s f : Term} {xs : List Term} (h : s ∈ (f.apply xs).subterms) :
    (∃ y ∈ f :: xs, s ∈ y.subterms) ∨ ∃ zs, s.apply zs = f.apply xs := by
  induction xs generalizing f with
  | nil => exact .inl ⟨f, List.mem_cons_self, h⟩
  | cons x xs ih =>
    rcases ih h with ⟨y, hy, hs⟩ | hs
    · rcases List.mem_cons.1 hy with rfl | hy
      · simp only [subterms, List.mem_cons, List.mem_append] at hs
        rcases hs with rfl | hs | hs
        · exact .inr ⟨xs, rfl⟩
        · exact .inl ⟨f, by simp, hs⟩
        · exact .inl ⟨x, by simp, hs⟩
      · exact .inl ⟨y, by simp [hy], hs⟩
    · exact .inr hs

end Term

namespace Arena

variable {a : Arena} {e : ExprId} {n : Node} {t : Term}

/-- Induction over the tree of a node, along the nodes. -/
theorem WellFormed.term_induction (ha : a.WellFormed) {P : ExprId → Term → Prop}
    (h : ∀ e n t, a.node? e = some n → a.Shows n t →
      (∀ c ∈ n.children, ∀ u, a.term? c = some u → P c u) → P e t)
    (he : a.term? e = some t) : P e t := by
  induction hk : e.index using Nat.strongRecOn generalizing e t with
  | ind k ih =>
    obtain ⟨n, hn⟩ := node?_of_term? he
    refine h e n t hn (ha.shows_of_node? he hn) fun c hc u hu => ?_
    exact ih c.index (hk ▸ ha.child_lt hn c hc) hu rfl

/-- The nodes of the tree under a node, parents before children and children from left to right. A
shared node is listed at each of its places in the tree. -/
def visitsFrom (a : Arena) : Nat → ExprId → List ExprId
  | 0, _ => []
  | fuel + 1, e => e :: ((a.node? e).elim [] Node.children).flatMap (a.visitsFrom fuel)

def visits (a : Arena) (e : ExprId) : List ExprId := a.visitsFrom (e.index + 1) e

theorem WellFormed.visitsFrom_eq (ha : a.WellFormed) {fuel : Nat} (h : e.index < fuel) :
    a.visitsFrom fuel e = a.visits e := by
  induction fuel using Nat.strongRecOn generalizing e with
  | ind fuel ih =>
    obtain ⟨k, rfl⟩ : ∃ k, fuel = k + 1 := ⟨fuel - 1, by omega⟩
    rw [visits, visitsFrom, visitsFrom]
    cases hn : a.node? e with
    | none => rfl
    | some n =>
      refine congrArg _ (List.flatMap_congr fun c hc => ?_)
      have hlt := ha.child_lt hn c hc
      rw [ih k (by omega) (by omega), ih e.index (by omega) hlt]

theorem WellFormed.visits_eq (ha : a.WellFormed) (hn : a.node? e = some n) :
    a.visits e = e :: n.children.flatMap a.visits := by
  rw [visits, visitsFrom, hn]
  exact congrArg _ (List.flatMap_congr fun c hc => ha.visitsFrom_eq (ha.child_lt hn c hc))

theorem WellFormed.mem_visits_iff (ha : a.WellFormed) (hn : a.node? e = some n) {x : ExprId} :
    x ∈ a.visits e ↔ x = e ∨ ∃ c ∈ n.children, x ∈ a.visits c := by
  rw [ha.visits_eq hn, List.mem_cons, List.mem_flatMap]

theorem Shows.exists_child (ha : a.WellFormed) (h : a.Shows n t) {c : ExprId}
    (hc : c ∈ n.children) : ∃ u, a.term? c = some u :=
  ha.exists_term (h.child_lt c hc)

theorem WellFormed.mem_visits_trans (ha : a.WellFormed) (he : a.term? e = some t) {x y : ExprId}
    (hx : x ∈ a.visits e) (hy : y ∈ a.visits x) : y ∈ a.visits e := by
  refine ha.term_induction (P := fun e _ => x ∈ a.visits e → y ∈ a.visits e) ?_ he hx
  intro e n t hn hshows ih hx
  rcases (ha.mem_visits_iff hn).1 hx with rfl | ⟨c, hc, hx⟩
  · exact hy
  · obtain ⟨u, hu⟩ := hshows.exists_child ha hc
    exact (ha.mem_visits_iff hn).2 (.inr ⟨c, hc, ih c hc u hu hx⟩)

/-- A property of trees passes from a node to its children. -/
def Inherits (a : Arena) (P : Term → Prop) : Prop :=
  ∀ ⦃e n t⦄, a.node? e = some n → a.Shows n t → P t →
    ∀ c ∈ n.children, ∃ u, a.term? c = some u ∧ P u

/-- A walk over a tree meets trees that inherit its properties. -/
theorem Inherits.of_mem_visits (ha : a.WellFormed) {P : Term → Prop} (hP : a.Inherits P)
    (he : a.term? e = some t) (ht : P t) {x : ExprId} (hx : x ∈ a.visits e) :
    ∃ u, a.term? x = some u ∧ P u := by
  refine ha.term_induction
    (P := fun e t => P t → x ∈ a.visits e → ∃ u, a.term? x = some u ∧ P u) ?_ he ht hx
  intro e n t hn hshows ih ht hx
  rcases (ha.mem_visits_iff hn).1 hx with rfl | ⟨c, hc, hx⟩
  · exact ⟨t, ha.term?_of_node? hn hshows, ht⟩
  · obtain ⟨u, hu, hPu⟩ := hP hn hshows ht c hc
    exact ih c hc u hu hPu hx

theorem inherits_subterms (a : Arena) (t : Term) :
    a.Inherits fun u => ∀ s ∈ u.subterms, s ∈ t.subterms := by
  intro e n u hn hshows hu c hc
  cases hshows with
  | var x => simp [Node.children] at hc
  | global d => simp [Node.children] at hc
  | lit l => simp [Node.children] at hc
  | @app head args f xs hf hxs =>
    have hall : a.Denote (head :: args) (f :: xs) := .cons hf hxs
    obtain ⟨y, hy, hterm⟩ := exists_of_mem_forall₂ hall hc
    refine ⟨y, hterm, fun s hs => hu s ?_⟩
    rcases List.mem_cons.1 hy with rfl | hy
    · exact Term.mem_subterms_apply_left hs xs
    · exact Term.mem_subterms_apply_right hy hs f
  | lam ht =>
    obtain rfl := List.mem_singleton.1 hc
    exact ⟨_, ht, fun s hs => hu s (by simp [Term.subterms, hs])⟩
  | letIn hv ht =>
    rcases List.mem_cons.1 hc with rfl | hc
    · exact ⟨_, hv, fun s hs => hu s (by simp [Term.subterms, hs])⟩
    · obtain rfl := List.mem_singleton.1 hc
      exact ⟨_, ht, fun s hs => hu s (by simp [Term.subterms, hs])⟩

theorem WellFormed.mem_subterms_of_mem_visits (ha : a.WellFormed) (he : a.term? e = some t)
    {x : ExprId} (hx : x ∈ a.visits e) : ∃ u ∈ t.subterms, a.term? x = some u := by
  obtain ⟨u, hu, hsub⟩ := (inherits_subterms a t).of_mem_visits ha he (fun _ hs => hs) hx
  exact ⟨u, hsub u u.mem_subterms_self, hu⟩

/-- A walk over a tree meets all its subterms, the heads of applications together with the
arguments that follow. -/
theorem WellFormed.exists_of_mem_subterms (ha : a.WellFormed) (he : a.term? e = some t) {s : Term}
    (hs : s ∈ t.subterms) : ∃ x ∈ a.visits e, ∃ zs, a.term? x = some (s.apply zs) := by
  refine ha.term_induction
    (P := fun e t => s ∈ t.subterms → ∃ x ∈ a.visits e, ∃ zs, a.term? x = some (s.apply zs))
    ?_ he hs
  intro e n t hn hshows ih hs
  have hself : s = t → ∃ x ∈ a.visits e, ∃ zs, a.term? x = some (s.apply zs) := fun h =>
    ⟨e, (ha.mem_visits_iff hn).2 (.inl rfl), [], h ▸ ha.term?_of_node? hn hshows⟩
  have hchild {c : ExprId} {u : Term} (hc : c ∈ n.children) (hu : a.term? c = some u)
      (hs : s ∈ u.subterms) : ∃ x ∈ a.visits e, ∃ zs, a.term? x = some (s.apply zs) := by
    obtain ⟨x, hx, htree⟩ := ih c hc u hu hs
    exact ⟨x, (ha.mem_visits_iff hn).2 (.inr ⟨c, hc, hx⟩), htree⟩
  cases hshows with
  | var x => exact hself (List.mem_singleton.1 hs)
  | global d => exact hself (List.mem_singleton.1 hs)
  | lit l => exact hself (List.mem_singleton.1 hs)
  | @app head args f xs hf hxs =>
    rcases Term.of_mem_subterms_apply hs with ⟨y, hy, hs⟩ | ⟨zs, hzs⟩
    · have hall : a.Denote (head :: args) (f :: xs) := .cons hf hxs
      obtain ⟨c, hc, hterm⟩ := exists_of_mem_forall₂ hall.flip hy
      exact hchild hc hterm hs
    · exact ⟨e, (ha.mem_visits_iff hn).2 (.inl rfl), zs, hzs ▸ ha.term?_of_node? hn (.app hf hxs)⟩
  | lam ht =>
    rcases List.mem_cons.1 hs with h | hs
    · exact hself h
    · exact hchild (by simp [Node.children]) ht hs
  | letIn hv ht =>
    rcases List.mem_cons.1 hs with h | hs
    · exact hself h
    · rcases List.mem_append.1 hs with hs | hs
      · exact hchild (by simp [Node.children]) hv hs
      · exact hchild (by simp [Node.children]) ht hs

/-- A walk has listed each id of a sequence where it comes first, with its node. -/
structure Walk.Lists (a : Arena) (w : Walk) (ids : List ExprId) : Prop where
  order_eq : w.order.toList.map Prod.fst = ids.eraseDups
  mem_seen_iff : ∀ e, e ∈ w.seen ↔ e ∈ ids
  node?_eq : ∀ m ∈ w.order.toList, a.node? m.1 = some m.2

/-- With a node below `k`, a sequence has the whole tree under it. -/
def ClosedBelow (a : Arena) (k : Nat) (ids : List ExprId) : Prop :=
  ∀ x ∈ ids, x.index < k → ∀ y ∈ a.visits x, y ∈ ids

namespace ClosedBelow

variable {k : Nat} {ids : List ExprId}

/-- A node that is being visited is above the ones that follow. -/
theorem enter (h : a.ClosedBelow k ids) (hk : e.index < k) :
    a.ClosedBelow e.index (ids ++ [e]) := by
  intro x hx hlt y hy
  rcases List.mem_append.1 hx with hx | hx
  · exact List.mem_append_left _ (h x hx (by omega) y hy)
  · obtain rfl := List.mem_singleton.1 hx
    omega

theorem append_visits (ha : a.WellFormed) (h : a.ClosedBelow k ids) (he : a.term? e = some t) :
    a.ClosedBelow k (ids ++ a.visits e) := by
  intro x hx hlt y hy
  rcases List.mem_append.1 hx with hx | hx
  · exact List.mem_append_left _ (h x hx hlt y hy)
  · exact List.mem_append_right _ (ha.mem_visits_trans he hx hy)

end ClosedBelow

namespace Walk.Lists

variable {w : Walk} {ids : List ExprId}

theorem visit (h : w.Lists a ids) (he : e ∉ ids) (hn : a.node? e = some n) :
    (w.visit e n).Lists a (ids ++ [e]) where
  order_eq := by
    rw [eraseDups_concat, if_neg (by simpa using he), ← h.order_eq]
    simp [Walk.visit]
  mem_seen_iff x := by
    rw [Walk.visit, Std.TreeSet.mem_insert, Std.LawfulEqOrd.compare_eq_iff_eq, h.mem_seen_iff,
      List.mem_append, List.mem_singleton, or_comm, @eq_comm _ e x]
  node?_eq m hm := by
    simp only [Walk.visit, Array.toList_push, List.mem_append, List.mem_singleton] at hm
    rcases hm with hm | rfl
    · exact h.node?_eq m hm
    · exact hn

theorem append (h : w.Lists a ids) {more : List ExprId} (hmore : ∀ x ∈ more, x ∈ ids) :
    w.Lists a (ids ++ more) where
  order_eq := by
    have hnone : more.removeAll ids = [] := by
      simpa [List.removeAll, List.filter_eq_nil_iff] using hmore
    rw [List.eraseDups_append, hnone, h.order_eq]
    simp
  mem_seen_iff x := by
    rw [h.mem_seen_iff, List.mem_append]
    exact ⟨.inl, fun hx => hx.elim id (hmore x)⟩
  node?_eq := h.node?_eq

end Walk.Lists

theorem lists_forM (ha : a.WellFormed) {k : Nat} {walk : ExprId → StateT Walk (Except Fault) Unit}
    {es : List ExprId} (hes : ∀ e ∈ es, ∃ t, a.term? e = some t)
    (hwalk : ∀ e ∈ es, ∀ w ids, w.Lists a ids → a.ClosedBelow k ids →
      Yields (walk e) w fun _ w' => w'.Lists a (ids ++ a.visits e))
    {w : Walk} {ids : List ExprId} (hw : w.Lists a ids) (hids : a.ClosedBelow k ids) :
    Yields (es.forM walk) w fun _ w' => w'.Lists a (ids ++ es.flatMap a.visits) := by
  induction es generalizing w ids with
  | nil => exact .pure (by simpa using hw)
  | cons e es ih =>
    obtain ⟨⟨t, he⟩, hes⟩ := List.forall_mem_cons.1 hes
    obtain ⟨hhead, htail⟩ := List.forall_mem_cons.1 hwalk
    refine (hhead w ids hw hids).bind fun _ w' hw' => ?_
    rw [List.flatMap_cons, ← List.append_assoc]
    exact ih hes htail hw' (hids.append_visits ha he)

theorem lists_preorderFrom (ha : a.WellFormed) {fuel k : Nat} {e : ExprId} {t : Term}
    (he : a.term? e = some t) (hfuel : e.index < fuel) (hk : e.index < k) {w : Walk}
    {ids : List ExprId} (hw : w.Lists a ids) (hids : a.ClosedBelow k ids) :
    Yields (a.preorderFrom fuel e) w fun _ w' => w'.Lists a (ids ++ a.visits e) := by
  induction fuel generalizing e t k w ids with
  | zero => omega
  | succ fuel ih =>
    rw [preorderFrom]
    refine (Yields.get w).bind ?_
    rintro _ _ ⟨rfl, rfl⟩
    split
    · next hseen =>
      have hmem := (hw.mem_seen_iff e).1 (Std.TreeSet.contains_iff_mem.1 hseen)
      exact .pure (hw.append (hids e hmem hk))
    · next hseen =>
      have hnew : e ∉ ids := fun hmem =>
        hseen (Std.TreeSet.contains_iff_mem.2 ((hw.mem_seen_iff e).2 hmem))
      obtain ⟨n, hn⟩ := node?_of_term? he
      have hshows := ha.shows_of_node? he hn
      refine (Yields.lift (node_of_node? hn) w).bind ?_
      rintro _ _ ⟨rfl, rfl⟩
      refine (Yields.modify _ w).bind ?_
      rintro _ _ rfl
      rw [ha.visits_eq hn, ← List.singleton_append, ← List.append_assoc]
      -- The node is listed before its children, which are all below it.
      refine lists_forM ha (fun c hc => hshows.exists_child ha hc)
        (fun c hc w' ids' hw' hids' => ?_) (hw.visit hnew hn) (hids.enter hk)
      obtain ⟨u, hu⟩ := hshows.exists_child ha hc
      have hlt := ha.child_lt hn c hc
      exact ih hu (by omega) hlt hw' hids'

/-- A walk that passes over the nodes it has met ends, and lists each node of the tree where a walk
over the whole tree meets it first. -/
theorem preorder_eq_ok (ha : a.WellFormed) (he : a.term? e = some t) :
    ∃ nodes, a.preorder e = .ok nodes ∧ nodes.map Prod.fst = (a.visits e).eraseDups ∧
      ∀ m ∈ nodes, a.node? m.1 = some m.2 := by
  have hempty : Walk.Lists a {} [] := ⟨rfl, by simp, by simp⟩
  have hclosed : a.ClosedBelow (e.index + 1) [] := by simp [ClosedBelow]
  obtain ⟨_, w, hrun, hw⟩ :=
    lists_preorderFrom ha he (index_lt_depthBound he) (Nat.lt_succ_self _) hempty hclosed
  refine ⟨w.order.toList, ?_, hw.order_eq, hw.node?_eq⟩
  simp only [preorder, StateT.run, hrun, Bind.bind, Except.bind]
  rfl

end Arena

end LambdaLifting
