import LambdaLifting.Node

namespace LambdaLifting

/-- A lambda-bound variable, or a local definition if it has a value. -/
structure Decl where
  id : LocalId
  name : Name
  value : Option ExprId
  position : Nat
deriving DecidableEq

structure Scope where
  decls : Std.TreeMap LocalId Decl := ∅
  next : Nat := 0

namespace Scope

def find? (s : Scope) (x : LocalId) : Option Decl := s.decls[x]?

def contains (s : Scope) (x : LocalId) : Bool := (s.find? x).isSome

def isEmpty (s : Scope) : Bool := s.decls.isEmpty

def size (s : Scope) : Nat := s.decls.size

/-- Declare a variable. An earlier declaration of the same variable is forgotten. -/
def declare (s : Scope) (b : Binder) (value : Option ExprId) : Decl × Scope :=
  let d : Decl := ⟨b.id, b.name, value, s.next⟩
  (d, ⟨s.decls.insert b.id d, s.next + 1⟩)

def remove (s : Scope) (xs : List LocalId) : Scope :=
  { s with decls := xs.foldl (fun ds x => ds.erase x) s.decls }

theorem find?_declare (s : Scope) (b : Binder) (value : Option ExprId) (x : LocalId) :
    (s.declare b value).2.find? x =
      if x = b.id then some ⟨b.id, b.name, value, s.next⟩ else s.find? x := by
  by_cases h : x = b.id
  · simp [declare, find?, h]
  · simp [declare, find?, Std.TreeMap.getElem?_insert, h, Ne.symm h]

theorem find?_remove (s : Scope) (xs : List LocalId) (x : LocalId) :
    (s.remove xs).find? x = if x ∈ xs then none else s.find? x := by
  obtain ⟨ds, n⟩ := s
  dsimp only [remove, find?]
  induction xs generalizing ds with
  | nil => simp
  | cons y ys ih =>
    rw [List.foldl_cons, ih]
    by_cases hx : x ∈ ys
    · simp [hx]
    · by_cases hy : y = x
      · simp [hx, hy]
      · simp [hx, hy, Ne.symm hy, Std.TreeMap.getElem?_erase]

end Scope

end LambdaLifting
