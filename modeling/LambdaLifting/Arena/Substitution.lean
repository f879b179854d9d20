import LambdaLifting.Arena.Basic

namespace LambdaLifting

abbrev Substitution := Std.TreeMap LocalId ExprId

namespace ArenaM

abbrev SubstMemo := Std.TreeMap ExprId ExprId

/-- Continue under a binder, which hides its variable from the substitution. A smaller substitution
shares no results with the larger one. -/
def substituteUnder (walk : Substitution → ExprId → StateT SubstMemo ArenaM ExprId)
    (s : Substitution) (b : Binder) (body : ExprId) : StateT SubstMemo ArenaM ExprId := do
  if s.contains b.id then
    let inner := s.erase b.id
    if inner.isEmpty then return body
    (walk inner body).run' ∅
  else walk s body

def substituteNode (walk : Substitution → ExprId → StateT SubstMemo ArenaM ExprId)
    (s : Substitution) (e : ExprId) : Node → StateT SubstMemo ArenaM ExprId
  | .var x => return s.getD x e
  | .global _ | .lit _ => return e
  | .app head args => do
    let head' ← walk s head
    let args' ← args.mapM (walk s)
    if head' = head ∧ args' = args then return e else mkApp head' args'
  | .lam b body => do
    let body' ← substituteUnder walk s b body
    if body' = body then return e else push (.lam b body')
  | .letIn b value body => do
    let value' ← walk s value
    let body' ← substituteUnder walk s b body
    if value' = value ∧ body' = body then return e else push (.letIn b value' body')

def substituteFrom : Nat → Substitution → ExprId → StateT SubstMemo ArenaM ExprId
  | 0, _, _ => throw .outOfFuel
  | fuel + 1, s, e => do
    if let some result := (← get)[e]? then return result
    let result ← substituteNode (substituteFrom fuel) s e (← node e)
    modify (·.insert e result)
    return result

/-- Replace free variables by terms, all at once. A node that does not change is kept, so that
sharing survives; nothing is renamed, so that the caller answers for capture. -/
def substitute (s : Substitution) (e : ExprId) : ArenaM ExprId := do
  if s.isEmpty then return e
  let fuel := (← get).depthBound
  (substituteFrom fuel s e).run' ∅

def instantiate (e : ExprId) (x : LocalId) (value : ExprId) : ArenaM ExprId :=
  substitute ((∅ : Substitution).insert x value) e

end ArenaM

end LambdaLifting
