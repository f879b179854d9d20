import LambdaLifting.Arena.Basic
import Std.Data.TreeSet

namespace LambdaLifting

namespace Arena

structure Walk where
  seen : Std.TreeSet ExprId := ∅
  order : Array (ExprId × Node) := #[]

def Walk.visit (w : Walk) (e : ExprId) (n : Node) : Walk :=
  ⟨w.seen.insert e, w.order.push (e, n)⟩

def preorderFrom (a : Arena) : Nat → ExprId → StateT Walk (Except Fault) Unit
  | 0, _ => throw .outOfFuel
  | fuel + 1, e => do
    if (← get).seen.contains e then return
    let n ← a.node e
    modify (·.visit e n)
    n.children.forM (a.preorderFrom fuel)

def preorder (a : Arena) (e : ExprId) : Except Fault (List (ExprId × Node)) := do
  let (_, w) ← (a.preorderFrom a.depthBound e).run {}
  return w.order.toList

end Arena

end LambdaLifting
