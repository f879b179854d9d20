import LambdaLifting.Arena.Basic
import LambdaLifting.Text.Quoted

namespace LambdaLifting

inductive Position where
  | top
  | head
  | arg
deriving DecidableEq

def parenthesizeIf (p : Bool) (s : String) : String := if p then "(" ++ s ++ ")" else s

namespace Arena

def binderText (names : NameTable) (b : Binder) : Except Fault String := do
  let s ← names.text b.name
  return s ++ "_" ++ toString b.id.index

/-- The names of the variables whose binders are around a subterm. Such a variable is printed as its
name and its number, so that two binders of one name stay apart. -/
abbrev Around := Std.TreeMap LocalId Name

def varText (names : NameTable) (around : Around) (x : LocalId) : Except Fault String :=
  match around[x]? with
  | some name => binderText names ⟨x, name⟩
  | none => return "_" ++ x.text

def literalText (names : NameTable) : Literal → Except Fault String
  | .nat n => return toString n
  | .str s => return Text.quote (← names.text s)

def printFrom (a : Arena) (names : NameTable) :
    Nat → Position → Around → ExprId → Except Fault String
  | 0, _, _, _ => throw .outOfFuel
  | fuel + 1, p, around, e => do
    match ← a.node e with
    | .var x => varText names around x
    | .global c => names.text c
    | .lit l => literalText names l
    | .app head args =>
      let f ← a.printFrom names fuel .head around head
      let xs ← args.mapM (a.printFrom names fuel .arg around)
      return parenthesizeIf (p = .arg) (" ".intercalate (f :: xs))
    | .lam b body =>
      let x ← binderText names b
      let t ← a.printFrom names fuel .top (around.insert b.id b.name) body
      return parenthesizeIf (p ≠ .top) ("fun " ++ x ++ " => " ++ t)
    | .letIn b value body =>
      let x ← binderText names b
      let v ← a.printFrom names fuel .top around value
      let t ← a.printFrom names fuel .top (around.insert b.id b.name) body
      return parenthesizeIf (p ≠ .top) ("let " ++ x ++ " := " ++ v ++ "; " ++ t)

def print (a : Arena) (names : NameTable) (e : ExprId) : Except Fault String :=
  a.printFrom names a.depthBound .top ∅ e

def printProcedure (a : Arena) (names : NameTable) (p : Procedure) : Except Fault String := do
  let name ← names.text p.name
  let body ← a.print names p.body
  return "def " ++ name ++ " := " ++ body

end Arena

end LambdaLifting
