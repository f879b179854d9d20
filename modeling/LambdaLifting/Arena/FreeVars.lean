import LambdaLifting.Arena.Basic
import Std.Data.TreeSet

namespace LambdaLifting

/-- Drop all but the first occurrence of each variable. -/
def firstOccurrences (xs : List LocalId) : List LocalId :=
  go xs ∅
where
  go : List LocalId → Std.TreeSet LocalId → List LocalId
    | [], _ => []
    | x :: xs, seen =>
      if seen.contains x then go xs seen else x :: go xs (seen.insert x)

theorem mem_firstOccurrences_go (xs : List LocalId) (seen : Std.TreeSet LocalId) (x : LocalId) :
    x ∈ firstOccurrences.go xs seen ↔ x ∈ xs ∧ x ∉ seen := by
  induction xs generalizing seen with
  | nil => simp [firstOccurrences.go]
  | cons y ys ih =>
    by_cases hy : y ∈ seen
    · simp only [firstOccurrences.go, Std.TreeSet.contains_iff_mem, hy, if_true, ih, List.mem_cons]
      refine ⟨fun h => ⟨.inr h.1, h.2⟩, fun h => ⟨h.1.resolve_left fun e => h.2 (e ▸ hy), h.2⟩⟩
    · simp only [firstOccurrences.go, Std.TreeSet.contains_iff_mem, hy, if_false, List.mem_cons, ih,
        Std.TreeSet.mem_insert, Std.LawfulEqOrd.compare_eq_iff_eq]
      by_cases e : x = y
      · simp [e, hy]
      · simp [e, Ne.symm e]

theorem mem_firstOccurrences {xs : List LocalId} {x : LocalId} :
    x ∈ firstOccurrences xs ↔ x ∈ xs := by
  simp [firstOccurrences, mem_firstOccurrences_go]

namespace Arena

/-- The free variables of the nodes already looked at. -/
abbrev FreeMemo := Std.TreeMap ExprId (List LocalId)

def freeVarsOfNode (walk : ExprId → StateT FreeMemo (Except Fault) (List LocalId)) :
    Node → StateT FreeMemo (Except Fault) (List LocalId)
  | .var x => return [x]
  | .global _ | .lit _ => return []
  | .app head args => do
    let parts ← (head :: args).mapM walk
    return firstOccurrences parts.flatten
  | .lam b body => do
    let inner ← walk body
    return inner.filter (· ≠ b.id)
  | .letIn b value body => do
    let outer ← walk value
    let inner ← walk body
    return firstOccurrences (outer ++ inner.filter (· ≠ b.id))

def freeVarsFrom (a : Arena) : Nat → ExprId → StateT FreeMemo (Except Fault) (List LocalId)
  | 0, _ => throw .outOfFuel
  | fuel + 1, e => do
    if let some xs := (← get)[e]? then return xs
    let free ← freeVarsOfNode (a.freeVarsFrom fuel) (← a.node e)
    modify (·.insert e free)
    return free

/-- The free variables of a term, each once, in the order in which they first occur. -/
def freeVars (a : Arena) (e : ExprId) : Except Fault (List LocalId) :=
  (a.freeVarsFrom a.depthBound e).run' ∅

def hasFreeInNode (x : LocalId) (walk : ExprId → StateT (Std.TreeSet ExprId) (Except Fault) Bool) :
    Node → StateT (Std.TreeSet ExprId) (Except Fault) Bool
  | .var y => return y == x
  | .global _ | .lit _ => return false
  | .app head args => (head :: args).anyM walk
  | .lam b body => if b.id = x then return false else walk body
  | .letIn b value body => do
    if ← walk value then return true
    if b.id = x then return false else walk body

/-- The state holds nodes in which `x` is known not to be free. -/
def hasFreeFrom (a : Arena) (x : LocalId) :
    Nat → ExprId → StateT (Std.TreeSet ExprId) (Except Fault) Bool
  | 0, _ => throw .outOfFuel
  | fuel + 1, e => do
    if (← get).contains e then return false
    let found ← hasFreeInNode x (a.hasFreeFrom x fuel) (← a.node e)
    unless found do modify (·.insert e)
    return found

/-- Whether `x` is free in a term. The search ends at the first occurrence. -/
def hasFree (a : Arena) (x : LocalId) (e : ExprId) : Except Fault Bool :=
  (a.hasFreeFrom x a.depthBound e).run' ∅

end Arena

end LambdaLifting
