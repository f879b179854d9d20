import LambdaLifting.Lift.Closure

namespace LambdaLifting

namespace LiftM

def openLambdas : Nat → Substitution → ExprId → LiftM (List Binder × ExprId)
  | 0, _, _ => stop .outOfFuel
  | fuel + 1, s, e => do
    match ← ArenaM.node e with
    | .lam b body =>
      let (fresh, x) ← openBinder b.name none
      let (bs, inner) ← openLambdas fuel (s.insert b.id x) body
      return (fresh :: bs, inner)
    | _ => return ([], ← ArenaM.substitute s e)

def liftUnderLambdas (lift : ExprId → LiftM ExprId) (fuel : Nat) (e : ExprId) : LiftM ExprId := do
  let (bs, body) ← openLambdas fuel ∅ e
  let body ← lift body
  closeBinders bs
  ArenaM.mkLambdas bs body

/-- Replace an abstraction by a call that passes the variables it captures. -/
def liftLambda (lift : ExprId → LiftM ExprId) (fuel : Nat) (e : ExprId) : LiftM ExprId := do
  let lifted ← liftUnderLambdas lift fuel e
  let (closed, captured) ← closeOver lifted
  let head ← callee fuel closed
  let args ← captured.reverse.mapM fun x => onArena (ArenaM.mkVar x)
  emit (.replaced captured.length)
  ArenaM.mkApp head args

def liftChain (lift : ExprId → LiftM ExprId) :
    Nat → Substitution → ExprId → LiftM (List (Binder × ExprId) × ExprId)
  | 0, _, _ => stop .outOfFuel
  | fuel + 1, s, e => do
    match ← ArenaM.node e with
    | .letIn b value body =>
      let value ← lift (← ArenaM.substitute s value)
      let (fresh, x) ← openBinder b.name (some value)
      let (ds, inner) ← liftChain lift fuel (s.insert b.id x) body
      return ((fresh, value) :: ds, inner)
    | _ => return ([], ← lift (← ArenaM.substitute s e))

def liftLets (lift : ExprId → LiftM ExprId) (fuel : Nat) (e : ExprId) : LiftM ExprId := do
  let (ds, body) ← liftChain lift fuel ∅ e
  closeBinders (ds.map (·.1))
  ArenaM.mkLets ds body

/-- Open the lambdas that bind the fields of an arm. An arm with fewer lambdas is applied to new
variables. -/
def openFields : Nat → Substitution → ExprId → LiftM (List Binder × ExprId)
  | 0, s, e => return ([], ← ArenaM.substitute s e)
  | fields + 1, s, e => do
    match ← ArenaM.node e with
    | .lam b body =>
      let (fresh, x) ← openBinder b.name none
      let (bs, inner) ← openFields fields (s.insert b.id x) body
      return (fresh :: bs, inner)
    | _ =>
      let (fresh, x) ← openBinder (← read).anonymous none
      let (bs, inner) ← openFields fields s (← ArenaM.mkApp e [x])
      return (fresh :: bs, inner)

def liftArm (lift : ExprId → LiftM ExprId) (fields : Nat) (e : ExprId) : LiftM ExprId := do
  let (bs, body) ← openFields fields ∅ e
  emit (.enteredArm fields)
  let body ← lift body
  closeBinders bs
  ArenaM.mkLambdas bs body

/-- The number of fields that the arm of a constructor binds. As in `kindOf`, no text is looked up
for an error. -/
def fieldCount (params : Nat) (c : Name) : LiftM Nat := do
  match (← read).env.arity? c with
  | none => throw (.unknownConstructor c)
  | some arity =>
    if arity < params then throw (.arityBelowParams c arity params)
    return arity - params

/-- Lift a dispatch: the scrutinee, then the arguments behind the arms, then the arms. As in
`kindOf`, no text is looked up for an error. -/
def liftDispatch (lift : ExprId → LiftM ExprId) (dispatcher type : Name) (head : ExprId)
    (args : List ExprId) : LiftM ExprId := do
  let some t := (← read).env.type? type | throw (.unknownType type)
  let least := 1 + t.arms
  if args.length < least then throw (.tooFewArguments dispatcher least args.length)
  let scrutinee ← (args.take 1).mapM lift
  let extra ← (args.drop least).mapM lift
  let arms ← (t.constructors.zip (args.drop 1)).mapM fun (c, arm) => do
    liftArm lift (← fieldCount t.params c) arm
  ArenaM.mkApp head (scrutinee ++ arms ++ extra)

/-- Lift an application that is no dispatch. It is reduced first, so that no lambda is lifted that
is applied on the spot. -/
def liftCall (lift : ExprId → LiftM ExprId) (fuel : Nat) (e head : ExprId) (args : List ExprId) :
    LiftM ExprId := do
  let reduced ← ArenaM.headReduce fuel e
  if reduced ≠ e then lift reduced
  else
    let head' ← lift head
    let args' ← args.mapM lift
    if head' = head ∧ args' = args then return e else ArenaM.mkApp head' args'

def dispatcher? (head : ExprId) : LiftM (Option (Name × Name)) := do
  let .global c ← ArenaM.node head | return none
  let .dispatcher type ← kindOf c | return none
  return some (c, type)

def liftApp (lift : ExprId → LiftM ExprId) (fuel : Nat) (e head : ExprId) (args : List ExprId) :
    LiftM ExprId := do
  match ← dispatcher? head with
  | some (c, type) => liftDispatch lift c type head args
  | none => liftCall lift fuel e head args

/-- Lift all lambdas of a term, its own included. Every binder on the way is opened with a new
variable. -/
def liftTerm : Nat → ExprId → LiftM ExprId
  | 0, _ => stop .outOfFuel
  | fuel + 1, e => do
    match ← ArenaM.node e with
    | .var x => if (← state).scope.contains x then return e else throw (.unboundVar x)
    | .global _ | .lit _ => return e
    | .app head args => liftApp (liftTerm fuel) fuel e head args
    | .lam _ _ => liftLambda (liftTerm fuel) fuel e
    | .letIn _ _ _ => liftLets (liftTerm fuel) fuel e

/-- Lift the body of a procedure, which keeps the lambdas at its top. -/
def liftBody (fuel : Nat) (e : ExprId) : LiftM ExprId := do
  match ← ArenaM.node e with
  | .lam _ _ => liftUnderLambdas (liftTerm fuel) fuel e
  | _ => liftTerm fuel e

def liftProcedure (fuel : Nat) (p : Procedure) : LiftM Procedure := do
  let body ← liftBody fuel p.body
  unless (← state).scope.isEmpty do stop .openScope
  return { p with body := body }

end LiftM

end LambdaLifting
