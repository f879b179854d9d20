import LambdaLifting.Node

namespace LambdaLifting

inductive GlobalKind where
  | constructor
  /-- Case analysis on a value of the inductive type. -/
  | dispatcher (type : Name)
  | projection
  | builtin
  | function
deriving DecidableEq

namespace GlobalKind

/-- Whether a global may stand for an abstraction that it is eta equal to. -/
def isPlain : GlobalKind → Bool
  | builtin | function => true
  | _ => false

end GlobalKind

structure InductiveType where
  params : Nat
  constructors : List Name
deriving DecidableEq

namespace InductiveType

def arms (t : InductiveType) : Nat := t.constructors.length

end InductiveType

structure Environment where
  kind? : Name → Option GlobalKind
  type? : Name → Option InductiveType
  /-- The number of arguments of a constructor, parameters of its type included. -/
  arity? : Name → Option Nat

namespace Environment

def contains (env : Environment) (n : Name) : Bool := (env.kind? n).isSome

def Dispatcher (env : Environment) (c : Name) (T : InductiveType) : Prop :=
  ∃ type, env.kind? c = some (.dispatcher type) ∧ env.type? type = some T

end Environment

/-- An environment that is built step by step. A later declaration of a name replaces an earlier
one. -/
structure Declarations where
  kinds : Std.TreeMap Name GlobalKind := ∅
  types : Std.TreeMap Name InductiveType := ∅
  arities : Std.TreeMap Name Nat := ∅

namespace Declarations

def environment (d : Declarations) : Environment where
  kind? n := d.kinds[n]?
  type? n := d.types[n]?
  arity? n := d.arities[n]?

def addGlobal (d : Declarations) (n : Name) (k : GlobalKind) : Declarations :=
  { d with kinds := d.kinds.insert n k }

def addConstructor (d : Declarations) (n : Name) (arity : Nat) : Declarations :=
  { d.addGlobal n .constructor with arities := d.arities.insert n arity }

theorem kind?_addGlobal (d : Declarations) (m n : Name) (k : GlobalKind) :
    (d.addGlobal m k).environment.kind? n = if m = n then some k else d.environment.kind? n := by
  simp [addGlobal, environment, Std.TreeMap.getElem?_insert]

def addInductive (d : Declarations) (n : Name) (params : Nat) (dispatcher : Name)
    (constructors : List (Name × Nat)) : Declarations :=
  let d := constructors.foldl (fun d c => d.addConstructor c.1 c.2) d
  let d := d.addGlobal dispatcher (.dispatcher n)
  { d with types := d.types.insert n ⟨params, constructors.map (·.1)⟩ }

end Declarations

end LambdaLifting
