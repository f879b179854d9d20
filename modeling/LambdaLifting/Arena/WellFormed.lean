import LambdaLifting.Arena.Basic
import LambdaLifting.Term

namespace LambdaLifting

namespace Arena

def argsAt (a : Arena) (r : ArgRange) : List ExprId := (a.args.toList.drop r.start).take r.length

theorem argList_eq_ok {a : Arena} {r : ArgRange} (h : r.stop ≤ a.args.size) :
    a.argList r = .ok (a.argsAt r) := by
  rw [argList]
  split
  · next hnil => simp [argsAt, hnil]
  · rw [Array.toList_extract, List.extract_eq_take_drop, ArgRange.stop,
      Nat.add_sub_cancel_left, argsAt]

theorem length_argsAt {a : Arena} {r : ArgRange} (h : r.stop ≤ a.args.size) :
    (a.argsAt r).length = r.length := by
  simp only [argsAt, List.length_take, List.length_drop, Array.length_toList]
  rw [ArgRange.stop] at h
  omega

theorem argsAt_rangeFor (a : Arena) (xs : List ExprId) :
    (a.storeArgs xs).argsAt (a.rangeFor xs) = xs := by
  by_cases h : xs = []
  · simp [argsAt, rangeFor, h, ArgRange.empty]
  · simp [argsAt, rangeFor, h, storeArgs]

theorem argsAt_storeArgs {a : Arena} {r : ArgRange} (h : r.stop ≤ a.args.size)
    (xs : List ExprId) : (a.storeArgs xs).argsAt r = a.argsAt r := by
  rw [ArgRange.stop] at h
  have hstart : r.start ≤ a.args.toList.length := by simp; omega
  have hlength : r.length ≤ (a.args.toList.drop r.start).length := by simp; omega
  simp only [argsAt, storeArgs, Array.toList_append]
  rw [List.drop_append_of_le_length hstart, List.take_append_of_le_length hlength]

/-- No node fails to find its arguments. -/
theorem node_eq_ok {a : Arena} {e : ExprId} {c : Cell} (h : a.cells[e.index]? = some c) :
    a.node e = .ok (c.node (a.argsAt c.range)) := by
  have hstop := a.stop_le c (Array.mem_of_getElem? h)
  simp only [node, h, argList_eq_ok hstop]
  rfl

theorem node?_eq_map (a : Arena) (e : ExprId) :
    a.node? e = a.cells[e.index]?.map fun c => c.node (a.argsAt c.range) := by
  cases h : a.cells[e.index]? with
  | none => simp only [node?, node, h]; rfl
  | some c => rw [node?, node_eq_ok h]; rfl

theorem node_eq (a : Arena) (e : ExprId) :
    a.node e = match a.node? e with
      | some n => .ok n
      | none => .error (.missingNode e) := by
  rw [node?_eq_map]
  cases h : a.cells[e.index]? with
  | none => simp only [node, h]; rfl
  | some c => exact node_eq_ok h

theorem exists_node {a : Arena} {e : ExprId} (he : e.index < a.size) : ∃ n, a.node? e = some n := by
  rw [node?_eq_map, Array.getElem?_eq_getElem he]
  exact ⟨_, rfl⟩

theorem index_lt_of_node? {a : Arena} {e : ExprId} {n : Node} (h : a.node? e = some n) :
    e.index < a.size := by
  rw [node?_eq_map] at h
  obtain ⟨c, hc, -⟩ := Option.map_eq_some_iff.1 h
  exact (Array.getElem?_eq_some_iff.1 hc).1

theorem mem_cells_of_node? {a : Arena} {e : ExprId} {c : Name}
    (h : a.node? e = some (.global c)) : Cell.global c ∈ a.cells := by
  rw [node?_eq_map] at h
  obtain ⟨d, hd, hc⟩ := Option.map_eq_some_iff.1 h
  cases d with
  | global d =>
    cases hc
    exact Array.mem_of_getElem? hd
  | _ => cases hc

theorem node?_eq_none {a : Arena} {e : ExprId} (he : a.size ≤ e.index) : a.node? e = none :=
  Option.eq_none_iff_forall_ne_some.2 fun _ hn => Nat.not_lt.2 he (index_lt_of_node? hn)

@[simp]
theorem size_push (a : Arena) (n : Node) : (a.push n).size = a.size + 1 := Array.size_push _

theorem args_push (a : Arena) (n : Node) : (a.push n).args = a.args ++ n.args.toArray := rfl

theorem cells_push (a : Arena) (n : Node) :
    (a.push n).cells = a.cells.push (n.cell (a.rangeFor n.args)) := rfl

theorem range_cell (a : Arena) (n : Node) :
    (n.cell (a.rangeFor n.args)).range = a.rangeFor n.args := by
  cases n <;> rfl

theorem node?_push (a : Arena) (n : Node) (e : ExprId) :
    (a.push n).node? e = if e.index = a.size then some n else a.node? e := by
  have hargs (r : ArgRange) : (a.push n).argsAt r = (a.storeArgs n.args).argsAt r := rfl
  rw [node?_eq_map, cells_push, Array.getElem?_push, size]
  by_cases he : e.index = a.cells.size
  · rw [if_pos he, if_pos he, Option.map_some, range_cell, hargs, argsAt_rangeFor, Node.node_cell]
  · rw [if_neg he, if_neg he, node?_eq_map]
    refine Option.map_congr fun c hc => ?_
    rw [hargs, argsAt_storeArgs (a.stop_le c (Array.mem_of_getElem? hc))]

/-- Children come before their parents, and applications are flat. -/
structure WellFormed (a : Arena) : Prop where
  child_lt : ∀ {e n}, a.node? e = some n → ∀ c ∈ n.children, c.index < e.index
  args_ne_nil : ∀ {e head args}, a.node? e = some (.app head args) → args ≠ []
  head_flat : ∀ {e head args}, a.node? e = some (.app head args) →
    ∀ inner init, a.node? head ≠ some (.app inner init)

/-- The condition on one node, given its position. -/
def NodeFits (a : Arena) (i : Nat) : Node → Prop
  | .app head args => head.index < i ∧ (∀ c ∈ args, c.index < i) ∧ args ≠ [] ∧
      ∀ inner init, a.node? head ≠ some (.app inner init)
  | n => ∀ c ∈ n.children, c.index < i

instance (a : Arena) (i : Nat) (n : Node) : Decidable (a.NodeFits i n) :=
  match n with
  | .app head args =>
    have : Decidable (∀ inner init, a.node? head ≠ some (.app inner init)) :=
      match a.node? head with
      | some (.app inner init) => isFalse fun h => h inner init rfl
      | some (.var _) | some (.global _) | some (.lit _) | some (.lam _ _) | some (.letIn _ _ _)
      | none => isTrue (by simp)
    inferInstanceAs (Decidable (_ ∧ _))
  | .var _ | .global _ | .lit _ | .lam _ _ | .letIn _ _ _ =>
    inferInstanceAs (Decidable (∀ c ∈ Node.children _, _))

theorem wellFormed_iff {a : Arena} :
    a.WellFormed ↔ ∀ i < a.size, ∀ n ∈ a.node? ⟨i⟩, a.NodeFits i n := by
  constructor
  · intro ha i _ n hn
    cases n with
    | app head args =>
      obtain ⟨hhead, hargs⟩ := List.forall_mem_cons.1 (ha.child_lt hn)
      exact ⟨hhead, hargs, ha.args_ne_nil hn, ha.head_flat hn⟩
    | _ => exact ha.child_lt hn
  · intro h
    have fits {e : ExprId} {n : Node} (hn : a.node? e = some n) : a.NodeFits e.index n :=
      h e.index (index_lt_of_node? hn) n hn
    constructor
    · intro e n hn
      cases n with
      | app head args => exact List.forall_mem_cons.2 ⟨(fits hn).1, (fits hn).2.1⟩
      | _ => exact fits hn
    · exact fun hn => (fits hn).2.2.1
    · exact fun hn => (fits hn).2.2.2

instance (a : Arena) : Decidable a.WellFormed := decidable_of_iff _ wellFormed_iff.symm

/-- `b` starts with all that `a` has stored, and more variables were handed out. -/
structure Extends (a b : Arena) : Prop where
  cells : a.cells.toList <+: b.cells.toList
  args : a.args.toList <+: b.args.toList
  nextLocal_le : a.nextLocal ≤ b.nextLocal

namespace Extends

theorem refl (a : Arena) : a.Extends a :=
  ⟨List.prefix_refl _, List.prefix_refl _, Nat.le_refl _⟩

theorem trans {a b c : Arena} (hab : a.Extends b) (hbc : b.Extends c) : a.Extends c :=
  ⟨hab.cells.trans hbc.cells, hab.args.trans hbc.args,
    Nat.le_trans hab.nextLocal_le hbc.nextLocal_le⟩

variable {a b : Arena}

theorem size_le (h : a.Extends b) : a.size ≤ b.size := by
  simpa [size] using h.cells.length_le

theorem argsAt_eq (h : a.Extends b) {r : ArgRange} (hr : r.stop ≤ a.args.size) :
    b.argsAt r = a.argsAt r := by
  obtain ⟨rest, hrest⟩ := h.args
  rw [← argsAt_storeArgs hr rest, argsAt, argsAt, ← hrest, storeArgs, Array.toList_append]

theorem node?_eq_some (h : a.Extends b) {e : ExprId} {n : Node} (hn : a.node? e = some n) :
    b.node? e = some n := by
  rw [node?_eq_map] at hn ⊢
  obtain ⟨c, hc, rfl⟩ := Option.map_eq_some_iff.1 hn
  rw [← Array.getElem?_toList] at hc ⊢
  obtain ⟨rest, hrest⟩ := h.cells
  have hlt := (List.getElem?_eq_some_iff.1 hc).1
  rw [← hrest, List.getElem?_append_left hlt, hc, Option.map_some,
    h.argsAt_eq (a.stop_le c (Array.mem_toList_iff.1 (List.mem_of_getElem? hc)))]

end Extends

theorem extends_push (a : Arena) (n : Node) : a.Extends (a.push n) where
  cells := by simp [cells_push]
  args := by simp [args_push]
  nextLocal_le := Nat.le_refl _

theorem extends_nextLocal {a : Arena} {k : Nat} (h : a.nextLocal ≤ k) :
    a.Extends { a with nextLocal := k } :=
  ⟨List.prefix_refl _, List.prefix_refl _, h⟩

structure Fits (a : Arena) (n : Node) : Prop where
  child_lt : ∀ c ∈ n.children, c.index < a.size
  args_ne_nil : ∀ head args, n = .app head args → args ≠ []
  head_flat : ∀ head args, n = .app head args → ∀ inner init, a.node? head ≠ some (.app inner init)

theorem WellFormed.push {a : Arena} (ha : a.WellFormed) {n : Node} (hn : a.Fits n) :
    (a.push n).WellFormed := by
  have old {e : ExprId} {m : Node} (h : a.node? e = some m) {c : ExprId} (hc : c ∈ m.children) :
      c.index ≠ a.size := by
    have h1 := ha.child_lt h c hc
    have h2 := index_lt_of_node? h
    omega
  constructor
  · intro e m h c hc
    rw [node?_push] at h
    split at h
    · next he => exact he ▸ hn.child_lt c (Option.some.inj h ▸ hc)
    · exact ha.child_lt h c hc
  · intro e head args h
    rw [node?_push] at h
    split at h
    · exact hn.args_ne_nil head args (Option.some.inj h)
    · exact ha.args_ne_nil h
  · intro e head args h inner init
    have hc : head ∈ (Node.app head args).children := by simp [Node.children]
    rw [node?_push] at h ⊢
    split at h
    · have hlt := hn.child_lt head (Option.some.inj h ▸ hc)
      rw [if_neg (Nat.ne_of_lt hlt)]
      exact hn.head_flat head args (Option.some.inj h) inner init
    · rw [if_neg (old h hc)]
      exact ha.head_flat h inner init

/-- The tree under a node, if it is no deeper than `fuel`. -/
def unfold (a : Arena) : Nat → ExprId → Option Term
  | 0, _ => none
  | fuel + 1, e => do
    match ← a.node? e with
    | .var x => return .var x
    | .global c => return .global c
    | .lit l => return .lit l
    | .app head args =>
      let f ← a.unfold fuel head
      let xs ← args.mapM (a.unfold fuel)
      return f.apply xs
    | .lam b body => return .lam b (← a.unfold fuel body)
    | .letIn b value body => return .letIn b (← a.unfold fuel value) (← a.unfold fuel body)

private theorem mapM_eq_some_of_imp {α β : Type} {f g : α → Option β} {xs : List α} {ys : List β}
    (h : xs.mapM f = some ys) (hfg : ∀ x ∈ xs, ∀ y, f x = some y → g x = some y) :
    xs.mapM g = some ys := by
  induction xs generalizing ys with
  | nil => simpa using h
  | cons x xs ih =>
    simp only [List.mapM_cons, Option.bind_eq_bind, Option.bind_eq_some_iff] at h ⊢
    obtain ⟨y, hy, zs, hzs, h⟩ := h
    refine ⟨y, hfg x (by simp) y hy, zs, ih hzs fun x' hx' => hfg x' (by simp [hx']), h⟩

private theorem isSome_mapM {α β : Type} (f : α → Option β) (xs : List α) :
    (xs.mapM f).isSome = xs.all fun x => (f x).isSome := by
  induction xs with
  | nil => rfl
  | cons x xs ih =>
    rw [List.mapM_cons, List.all_cons, ← ih]
    cases f x <;> cases xs.mapM f <;> rfl

/-- Neither more fuel nor more nodes change a tree. -/
theorem unfold_eq_some_of_extends {a b : Arena} (hab : a.Extends b) {n m : Nat} (hnm : n ≤ m)
    {e : ExprId} {t : Term} (h : a.unfold n e = some t) : b.unfold m e = some t := by
  induction n generalizing m e t with
  | zero => simp [unfold] at h
  | succ n ih =>
    obtain ⟨m, rfl⟩ := Nat.exists_eq_add_of_le' (Nat.le_trans (Nat.le_add_left 1 n) hnm)
    have hnm : n ≤ m := by omega
    have step {e : ExprId} {t : Term} : a.unfold n e = some t → b.unfold m e = some t := ih hnm
    cases hn : a.node? e with
    | none => simp [unfold, hn] at h
    | some k =>
      cases k with
      | var x => simpa [unfold, hn, hab.node?_eq_some hn] using h
      | global c => simpa [unfold, hn, hab.node?_eq_some hn] using h
      | lit l => simpa [unfold, hn, hab.node?_eq_some hn] using h
      | app head args =>
        simp only [unfold, hn, Option.bind_eq_bind, Option.bind_some, Option.bind_eq_some_iff] at h
        obtain ⟨f, hf, xs, hxs, h⟩ := h
        have hx := mapM_eq_some_of_imp hxs fun x _ y hy => step hy
        simpa [unfold, hab.node?_eq_some hn, step hf, hx] using h
      | lam c body =>
        simp only [unfold, hn, Option.bind_eq_bind, Option.bind_some, Option.bind_eq_some_iff] at h
        obtain ⟨u, hu, h⟩ := h
        simpa [unfold, hab.node?_eq_some hn, step hu] using h
      | letIn c value body =>
        simp only [unfold, hn, Option.bind_eq_bind, Option.bind_some, Option.bind_eq_some_iff] at h
        obtain ⟨v, hv, u, hu, h⟩ := h
        simpa [unfold, hab.node?_eq_some hn, step hv, step hu] using h

theorem WellFormed.exists_unfold {a : Arena} (ha : a.WellFormed) {n : Nat} {e : ExprId}
    (he : e.index < a.size) (hn : e.index < n) : ∃ t, a.unfold n e = some t := by
  induction n generalizing e with
  | zero => omega
  | succ n ih =>
    obtain ⟨k, hk⟩ := exists_node he
    have child (c : ExprId) (hc : c ∈ k.children) : ∃ t, a.unfold n c = some t := by
      have := ha.child_lt hk c hc
      exact ih (by omega) (by omega)
    cases k with
    | var x => exact ⟨_, by simp [unfold, hk]; rfl⟩
    | global c => exact ⟨_, by simp [unfold, hk]; rfl⟩
    | lit l => exact ⟨_, by simp [unfold, hk]; rfl⟩
    | app head args =>
      obtain ⟨f, hf⟩ := child head (by simp [Node.children])
      have hs : (args.mapM (a.unfold n)).isSome := by
        rw [isSome_mapM, List.all_eq_true]
        intro x hx
        exact Option.isSome_iff_exists.2 (child x (by simp [Node.children, hx]))
      obtain ⟨xs, hxs⟩ := Option.isSome_iff_exists.1 hs
      exact ⟨_, by simp [unfold, hk, hf, hxs]; rfl⟩
    | lam c body =>
      obtain ⟨u, hu⟩ := child body (by simp [Node.children])
      exact ⟨_, by simp [unfold, hk, hu]; rfl⟩
    | letIn c value body =>
      obtain ⟨v, hv⟩ := child value (by simp [Node.children])
      obtain ⟨u, hu⟩ := child body (by simp [Node.children])
      exact ⟨_, by simp [unfold, hk, hv, hu]; rfl⟩

def term? (a : Arena) (e : ExprId) : Option Term := a.unfold (e.index + 1) e

theorem WellFormed.exists_term {a : Arena} (ha : a.WellFormed) {e : ExprId}
    (he : e.index < a.size) : ∃ t, a.term? e = some t :=
  ha.exists_unfold he (by omega)

theorem Extends.term?_eq_some {a b : Arena} (hab : a.Extends b) {e : ExprId} {t : Term}
    (h : a.term? e = some t) : b.term? e = some t :=
  unfold_eq_some_of_extends hab (Nat.le_refl _) h

end Arena

end LambdaLifting
