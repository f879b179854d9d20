import LambdaLifting.Name

namespace LambdaLifting

/-- A bound variable. Binders carry the same number as the variables they bind. -/
structure LocalId where
  index : Nat
deriving DecidableEq

namespace LocalId

instance : Ord LocalId := ⟨fun x y => compare x.index y.index⟩

instance : Std.TransOrd LocalId := inferInstanceAs (Std.TransCmp (compareOn LocalId.index))

instance : Std.LawfulEqOrd LocalId where
  eq_of_compare {x y} h := by
    have hi : x.index = y.index := Std.LawfulEqOrd.eq_of_compare h
    cases x; cases y; simp_all

def text (x : LocalId) : String := "#" ++ toString x.index

def label (x : LocalId) : String := "LocalId(" ++ toString x.index ++ ")"

end LocalId

structure ExprId where
  index : Nat
deriving DecidableEq

namespace ExprId

instance : Ord ExprId := ⟨fun d e => compare d.index e.index⟩

instance : Std.TransOrd ExprId := inferInstanceAs (Std.TransCmp (compareOn ExprId.index))

instance : Std.LawfulEqOrd ExprId where
  eq_of_compare {d e} h := by
    have hi : d.index = e.index := Std.LawfulEqOrd.eq_of_compare h
    cases d; cases e; simp_all

def label (e : ExprId) : String := "ExprId(" ++ toString e.index ++ ")"

end ExprId

structure Binder where
  id : LocalId
  name : Name
deriving DecidableEq

inductive Literal where
  | nat (value : Nat)
  | str (text : Name)
deriving DecidableEq

/-- One step of a term. The head of an application built by an arena is no application. -/
inductive Node where
  | var (x : LocalId)
  | global (c : Name)
  | lit (l : Literal)
  | app (head : ExprId) (args : List ExprId)
  | lam (b : Binder) (body : ExprId)
  | letIn (b : Binder) (value body : ExprId)
deriving DecidableEq

/-- A stretch of the list that an arena keeps all arguments in. -/
structure ArgRange where
  start : Nat
  length : Nat
deriving DecidableEq

namespace ArgRange

def empty : ArgRange := ⟨0, 0⟩

def stop (r : ArgRange) : Nat := r.start + r.length

end ArgRange

/-- A node as it is stored. The arguments of an application are kept apart, in a list that all
applications share. -/
inductive Cell where
  | var (x : LocalId)
  | global (c : Name)
  | lit (l : Literal)
  | app (head : ExprId) (args : ArgRange)
  | lam (b : Binder) (body : ExprId)
  | letIn (b : Binder) (value body : ExprId)
deriving DecidableEq

namespace Cell

def range : Cell → ArgRange
  | app _ args => args
  | _ => .empty

def node (args : List ExprId) : Cell → Node
  | var x => .var x
  | global c => .global c
  | lit l => .lit l
  | app head _ => .app head args
  | lam b body => .lam b body
  | letIn b value body => .letIn b value body

end Cell

namespace Node

def children : Node → List ExprId
  | var _ | global _ | lit _ => []
  | app head args => head :: args
  | lam _ body => [body]
  | letIn _ value body => [value, body]

def args : Node → List ExprId
  | app _ args => args
  | _ => []

def cell (r : ArgRange) : Node → Cell
  | var x => .var x
  | global c => .global c
  | lit l => .lit l
  | app head _ => .app head r
  | lam b body => .lam b body
  | letIn b value body => .letIn b value body

@[simp]
theorem node_cell (n : Node) (r : ArgRange) : (n.cell r).node n.args = n := by
  cases n <;> rfl

def isLambda : Node → Bool
  | lam _ _ => true
  | _ => false

end Node

structure Procedure where
  name : Name
  body : ExprId
deriving DecidableEq

end LambdaLifting
