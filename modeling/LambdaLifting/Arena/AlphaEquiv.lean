import LambdaLifting.Arena.Basic

namespace LambdaLifting

abbrev Renaming := Std.TreeMap LocalId LocalId

namespace Renaming

/-- Pair two binders. An earlier partner of the left one is forgotten. -/
def bind (r : Renaming) (x y : LocalId) : Renaming := r.insert x y

/-- Whether two variables correspond: they are partners, or both are free and equal. -/
def relates (r : Renaming) (x y : LocalId) : Bool :=
  match r[x]? with
  | some z => z == y
  | none => x == y && r.toList.all (·.2 ≠ y)

end Renaming

namespace Arena

def alphaEquivFrom (a : Arena) : Nat → Renaming → ExprId → ExprId → Except Fault Bool
  | 0, _, _, _ => throw .outOfFuel
  | fuel + 1, r, d, e => do
    if d = e ∧ r.isEmpty then return true
    match ← a.node d, ← a.node e with
    | .var x, .var y => return Renaming.relates r x y
    | .global c, .global c' => return c == c'
    | .lit l, .lit l' => return l == l'
    | .app head args, .app head' args' =>
      if args.length ≠ args'.length then return false
      ((head, head') :: args.zip args').allM fun (d, e) => a.alphaEquivFrom fuel r d e
    | .lam b body, .lam b' body' => a.alphaEquivFrom fuel (Renaming.bind r b.id b'.id) body body'
    | .letIn b value body, .letIn b' value' body' =>
      if ← a.alphaEquivFrom fuel r value value' then
        a.alphaEquivFrom fuel (Renaming.bind r b.id b'.id) body body'
      else return false
    | _, _ => return false

def alphaEquiv (a : Arena) (d e : ExprId) : Except Fault Bool :=
  a.alphaEquivFrom a.depthBound ∅ d e

end Arena

end LambdaLifting
