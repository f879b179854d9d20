import LambdaLifting.Arena.Substitution
import LambdaLifting.Environment
import LambdaLifting.NameSource
import LambdaLifting.Scope

namespace LambdaLifting

/-- How a program can break the rules that lifting relies on. An error holds names and no texts:
these are looked up by `message`, outside of the run, which would otherwise stop at a name without
one. -/
inductive LiftError where
  | tooFewArguments (dispatcher : Name) (expected found : Nat)
  | unboundVar (x : LocalId)
  | unknownGlobal (c : Name)
  | unknownType (type : Name)
  | unknownConstructor (c : Name)
  | arityBelowParams (c : Name) (arity params : Nat)
deriving DecidableEq

namespace LiftError

def message (names : NameTable) : LiftError → Except Fault String
  | tooFewArguments dispatcher expected found => do
    return "`" ++ (← names.text dispatcher) ++ "` applied to " ++ toString found ++
      " arguments, expected at least " ++ toString expected
  | unboundVar x => return "local " ++ x.text ++ " is not bound by any enclosing binder"
  | unknownGlobal c => return "unknown global `" ++ (← names.text c) ++ "`"
  | unknownType type => return "unknown inductive type `" ++ (← names.text type) ++ "`"
  | unknownConstructor c => return "unknown constructor `" ++ (← names.text c) ++ "`"
  | arityBelowParams c arity params => do
    return "constructor `" ++ (← names.text c) ++ "` has arity " ++ toString arity ++
      " but its type has " ++ toString params ++ " parameters"

end LiftError

inductive Event where
  | started (owner : Name) (procedures : Nat)
  /-- An abstraction is eta equal to a call of this function. -/
  | reused (head : Name)
  | lifted (name : Name)
  | replaced (captures : Nat)
  | enteredArm (fields : Nat)
  | finished (lifted nodes : Nat)
deriving DecidableEq

structure LiftContext where
  env : Environment
  /-- The start of the names of new procedures. -/
  base : String
  /-- The name of parameters that no binder names. -/
  anonymous : Name
  /-- The names of the procedures to be lifted. -/
  declared : List Name

namespace LiftContext

/-- Whether a name belongs to the program, as a procedure given or lifted. -/
def owns (ctx : LiftContext) (lifted : Array Procedure) (n : Name) : Bool :=
  ctx.declared.contains n || lifted.any (·.name = n)

def taken (ctx : LiftContext) (lifted : Array Procedure) (n : Name) : Bool :=
  ctx.owns lifted n || ctx.env.contains n

end LiftContext

structure LiftState where
  arena : Arena
  names : NameSource
  scope : Scope := {}
  lifted : Array Procedure := #[]
  events : Array Event := #[]

/-- A run of lambda lifting. One that fails keeps the state it has reached. -/
abbrev LiftM := ReaderT LiftContext (ExceptT LiftError (StateT LiftState (Except Fault)))

namespace LiftM

/-- End the run without an answer. -/
def stop {α : Type} (f : Fault) : LiftM α := fun _ _ => .error f

def state : LiftM LiftState := fun _ s => .ok (.ok s, s)

def update (f : LiftState → LiftState) : LiftM Unit := fun _ s => .ok (.ok (), f s)

def onArena {α : Type} (x : ArenaM α) : LiftM α := fun _ s =>
  match s with
  | ⟨arena, names, scope, lifted, events⟩ =>
    match x arena with
    | .ok (v, arena) => .ok (.ok v, ⟨arena, names, scope, lifted, events⟩)
    | .error f => .error f

def onNames {α : Type} (x : NameSource → Except Fault (α × NameSource)) : LiftM α := fun _ s =>
  match s with
  | ⟨arena, names, scope, lifted, events⟩ =>
    match x names with
    | .ok (v, names) => .ok (.ok v, ⟨arena, names, scope, lifted, events⟩)
    | .error f => .error f

instance : MonadLift ArenaM LiftM := ⟨onArena⟩

def emit (e : Event) : LiftM Unit := update fun s => { s with events := s.events.push e }

/-- The kind of a global. Procedures of the program are functions, unless the environment says
otherwise. The text of one that is unknown is looked up in `LiftError.message`, not here. -/
def kindOf (c : Name) : LiftM GlobalKind := do
  match (← read).env.kind? c with
  | some k => return k
  | none => if (← read).owns (← state).lifted c then return .function else throw (.unknownGlobal c)

def openBinder (name : Name) (value : Option ExprId) : LiftM (Binder × ExprId) := do
  let b ← ArenaM.newBinder name
  let x ← ArenaM.mkVar b.id
  update fun s => { s with scope := (s.scope.declare b value).2 }
  return (b, x)

def closeBinders (bs : List Binder) : LiftM Unit :=
  update fun s => { s with scope := s.scope.remove (bs.map Binder.id) }

end LiftM

end LambdaLifting
