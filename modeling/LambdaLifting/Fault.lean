import LambdaLifting.Output.Problem

namespace LambdaLifting

/-- The ways in which a computation ends without an answer. None arises on a well-formed arena with
enough fuel, apart from a rejected output. -/
inductive Fault where
  | missingNode (e : ExprId)
  | missingName (n : Name)
  | missingArgs (start length : Nat)
  | outOfFuel
  /-- A variable was still in scope at the end of a procedure. -/
  | openScope
  /-- The lifted procedures failed their own check. -/
  | rejected (problems : List Problem)
deriving DecidableEq

def NameTable.text (t : NameTable) (n : Name) : Except Fault String :=
  match t.text? n with
  | some s => .ok s
  | none => .error (.missingName n)

end LambdaLifting
