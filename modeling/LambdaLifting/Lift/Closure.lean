import LambdaLifting.Arena.Reduction
import LambdaLifting.Lift.Basic

namespace LambdaLifting

namespace LiftM

def insertDecl (d : Decl) : List Decl → List Decl
  | [] => [d]
  | c :: cs =>
    if c.position < d.position then d :: c :: cs
    else if c.position = d.position then d :: cs
    else c :: insertDecl d cs

def addFree (e : ExprId) (pending : List Decl) : LiftM (List Decl) := do
  let xs ← ArenaM.ask fun a => a.freeVars e
  xs.foldlM (fun ds x => do
    match (← state).scope.find? x with
    | some d => return insertDecl d ds
    | none => throw (.unboundVar x)) pending

/-- All declarations that the pending ones need, latest first. A local definition needs what its
value mentions, and that was declared before it. -/
def needed : Nat → List Decl → LiftM (List Decl)
  | _, [] => return []
  | 0, _ :: _ => stop .outOfFuel
  | fuel + 1, d :: pending => do
    let pending ← match d.value with
      | some value => addFree value pending
      | none => pure pending
    return d :: (← needed fuel pending)

/-- Make the declared variables parameters and write out the definitions, oldest first. -/
def parametrize : List Decl → Substitution → ArenaM (List Binder × Substitution)
  | [], s => return ([], s)
  | d :: ds, s => do
    match d.value with
    | some value => parametrize ds (s.insert d.id (← ArenaM.substitute s value))
    | none =>
      let b ← ArenaM.newBinder d.name
      let x ← ArenaM.mkVar b.id
      let (bs, s) ← parametrize ds (s.insert d.id x)
      return (b :: bs, s)

/-- Close a term over the variables in scope. Returns the closed term and the variables that its
parameters stand for, latest first. -/
def closeOver (e : ExprId) : LiftM (ExprId × List LocalId) := do
  let pending ← addFree e []
  let decls ← needed ((← state).scope.size + 1) pending
  let (params, s) ← parametrize decls.reverse ∅
  let body ← ArenaM.substitute s e
  let closed ← ArenaM.mkLambdas params body
  return (closed, (decls.filter (·.value.isNone)).map Decl.id)

/-- The global at the head of a term, if it is a function that may be called in its place. -/
def reusable? (e : ExprId) : LiftM (Option Name) := do
  match ← ArenaM.ask fun a => a.headGlobal? e with
  | none => return none
  | some head => return if (← kindOf head).isPlain then some head else none

def addProcedure (fuel : Nat) (closed : ExprId) : LiftM ExprId := do
  let ctx ← read
  let taken := ctx.taken (← state).lifted
  let name ← onNames (NameSource.fresh ctx.base taken fuel)
  update fun s => { s with lifted := s.lifted.push ⟨name, closed⟩ }
  emit (.lifted name)
  ArenaM.push (.global name)

/-- A term to call in place of a closed abstraction: one that is eta equal to it and headed by a
known function, or else a new procedure. -/
def callee (fuel : Nat) (closed : ExprId) : LiftM ExprId := do
  let reduced ← ArenaM.etaReduce closed
  match ← reusable? reduced with
  | some head =>
    emit (.reused head)
    return reduced
  | none => addProcedure fuel closed

end LiftM

end LambdaLifting
