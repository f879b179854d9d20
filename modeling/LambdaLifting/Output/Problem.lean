import LambdaLifting.Node

namespace LambdaLifting

inductive Problem where
  /-- The procedure at this position does not carry the name it had before lifting. -/
  | renamed (position : Nat)
  | duplicate (name : Name)
  | notClosed (procedure : Name) (x : LocalId)
  /-- An arm of a dispatch does not start with one lambda per field of its constructor. -/
  | openArm (procedure dispatcher : Name) (arm : Nat)
deriving DecidableEq

namespace Problem

def text : Problem → String
  | renamed position => "procedure " ++ toString position ++ " does not match the input"
  | duplicate name => name.label ++ " is declared twice"
  | notClosed procedure x => procedure.label ++ " refers to free local " ++ x.text
  | openArm procedure dispatcher arm =>
    procedure.label ++ ": minor premise " ++ toString arm ++ " of " ++ dispatcher.label ++
      " does not bind its fields"

def summary (problems : List Problem) : String :=
  "lambda lifting broke its output invariants:\n" ++ "\n".intercalate (problems.map text)

end Problem

end LambdaLifting
