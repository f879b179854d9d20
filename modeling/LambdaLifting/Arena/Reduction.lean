import LambdaLifting.Arena.FreeVars
import LambdaLifting.Arena.Substitution

namespace LambdaLifting

namespace ArenaM

/-- Feed arguments to the lambdas at the top of a term; return the arguments left over. -/
def feed (head : ExprId) : List ExprId → ArenaM (ExprId × List ExprId)
  | [] => return (head, [])
  | arg :: args => do
    match ← node head with
    | .lam b body => feed (← instantiate body b.id arg) args
    | _ => return (head, arg :: args)

/-- Reduce while the head of the term is an applied lambda. There need be no end to it. -/
def headReduce : Nat → ExprId → ArenaM ExprId
  | 0, _ => throw .outOfFuel
  | fuel + 1, e => do
    let .app head args ← node e | return e
    let .lam _ _ ← node head | return e
    let (rest, left) ← feed head args
    headReduce fuel (← mkApp rest left)

/-- Whether the last argument of an application is the variable `x`, not free elsewhere in it. -/
def endsInVar (x : LocalId) (head : ExprId) (init : List ExprId) (last : ExprId) : ArenaM Bool := do
  let .var y ← node last | return false
  if y ≠ x then return false
  let occurs ← (head :: init).anyM fun e => ask fun a => a.hasFree x e
  return !occurs

/-- Drop the last argument of a term under a binder of `x`, if the binder is there for it only. -/
def dropArg? (x : LocalId) (e : ExprId) : ArenaM (Option ExprId) := do
  let .app head args ← node e | return none
  let some last := args.getLast? | return none
  if ← endsInVar x head args.dropLast last then
    return some (← mkApp head args.dropLast)
  else return none

def etaReduceFrom : Nat → ExprId → ArenaM ExprId
  | 0, _ => throw .outOfFuel
  | fuel + 1, e => do
    let .lam b body ← node e | return e
    let body' ← etaReduceFrom fuel body
    match ← dropArg? b.id body' with
    | some reduced => return reduced
    | none => if body' = body then return e else push (.lam b body')

/-- Eta reduce under the leading lambdas of a term, innermost first. -/
def etaReduce (e : ExprId) : ArenaM ExprId := do
  let fuel := (← get).depthBound
  etaReduceFrom fuel e

end ArenaM

end LambdaLifting
