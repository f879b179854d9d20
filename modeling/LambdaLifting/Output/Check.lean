import LambdaLifting.Arena.FreeVars
import LambdaLifting.Arena.Preorder
import LambdaLifting.Environment

namespace LambdaLifting

namespace Output

def renamedProblems (input output : List Procedure) : List Problem :=
  input.zipIdx.filterMap fun (p, i) =>
    if output[i]?.map Procedure.name = some p.name then none else some (.renamed i)

/-- How many fields the arm of a constructor has to bind, if that is known. -/
def fieldCount? (env : Environment) (params : Nat) (c : Name) : Option Nat := do
  let arity ← env.arity? c
  if arity < params then none else some (arity - params)

/-- The arms of a dispatch that bind too few fields. Arms that are missing are not looked at. -/
def openArms (a : Arena) (env : Environment) (t : InductiveType) (args : List ExprId) :
    Except Fault (List Nat) := do
  let arms := (t.constructors.zip (args.drop 1)).zipIdx
  arms.filterMapM fun ((c, arm), i) => do
    let (bs, _) ← a.lambdaChain arm
    match fieldCount? env t.params c with
    | some fields => return if bs.length < fields then some i else none
    | none => return none

def dispatch? (a : Arena) (env : Environment) (head : ExprId) :
    Except Fault (Option (Name × InductiveType)) := do
  let .global c ← a.node head | return none
  let some (.dispatcher type) := env.kind? c | return none
  return (env.type? type).map (c, ·)

def nodeProblems (a : Arena) (env : Environment) (procedure : Name) :
    Node → Except Fault (List Problem)
  | .app head args => do
    let some (dispatcher, t) ← dispatch? a env head | return []
    return (← openArms a env t args).map (.openArm procedure dispatcher)
  | _ => return []

def bodyProblems (a : Arena) (env : Environment) (p : Procedure) : Except Fault (List Problem) := do
  let free ← a.freeVars p.body
  let nodes ← a.preorder p.body
  let dispatches ← nodes.mapM fun (_, n) => nodeProblems a env p.name n
  return (free.head?.map (.notClosed p.name)).toList ++ dispatches.flatten

/-- What is wrong with procedures, given the names that come before them. -/
def procedureProblems (a : Arena) (env : Environment) :
    List Name → List Procedure → Except Fault (List Problem)
  | _, [] => return []
  | seen, p :: ps => do
    let repeated := if seen.contains p.name then [.duplicate p.name] else []
    let body ← bodyProblems a env p
    let rest ← procedureProblems a env (p.name :: seen) ps
    return repeated ++ body ++ rest

def problems (a : Arena) (env : Environment) (input output : List Procedure) :
    Except Fault (List Problem) := do
  return renamedProblems input output ++ (← procedureProblems a env [] output)

def enforce (a : Arena) (env : Environment) (input output : List Procedure) :
    Except Fault Unit := do
  let ps ← problems a env input output
  unless ps.isEmpty do throw (.rejected ps)

end Output

end LambdaLifting
