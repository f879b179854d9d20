import LambdaLifting.Fault

namespace LambdaLifting

/-- An append-only store of nodes, with a counter for new variables. Positions, variables and
stretches of the argument list may be of any size here; where they are words of 32 bits, an arena
that would outgrow them stops instead. -/
@[ext]
structure Arena where
  cells : Array Cell := #[]
  /-- The arguments of all applications. -/
  args : Array ExprId := #[]
  nextLocal : Nat := 0
  stop_le : ∀ c ∈ cells, c.range.stop ≤ args.size := by simp
deriving DecidableEq

namespace Arena

def empty : Arena := {}

def size (a : Arena) : Nat := a.cells.size

/-- Read a stretch of the argument list. The empty stretch exists at every position. -/
def argList (a : Arena) (r : ArgRange) : Except Fault (List ExprId) :=
  if r.length = 0 then .ok []
  else if r.stop ≤ a.args.size then .ok (a.args.extract r.start r.stop).toList
  else .error (.missingArgs r.start r.length)

def node (a : Arena) (e : ExprId) : Except Fault Node := do
  match a.cells[e.index]? with
  | some c => return c.node (← a.argList c.range)
  | none => throw (.missingNode e)

def node? (a : Arena) (e : ExprId) : Option Node := (a.node e).toOption

/-- Where a list of arguments is stored next. An empty one takes no room. -/
def rangeFor (a : Arena) (args : List ExprId) : ArgRange :=
  if args = [] then .empty else ⟨a.args.size, args.length⟩

def storeArgs (a : Arena) (args : List ExprId) : Arena where
  cells := a.cells
  args := a.args ++ args.toArray
  nextLocal := a.nextLocal
  stop_le c hc := by
    have := a.stop_le c hc
    simp only [Array.size_append]
    omega

def storeCell (a : Arena) (c : Cell) (hc : c.range.stop ≤ a.args.size) : Arena where
  cells := a.cells.push c
  args := a.args
  nextLocal := a.nextLocal
  stop_le d hd := by
    rcases Array.mem_push.1 hd with hd | rfl
    · exact a.stop_le d hd
    · exact hc

theorem stop_rangeFor_le (a : Arena) (args : List ExprId) :
    (a.rangeFor args).stop ≤ (a.storeArgs args).args.size := by
  by_cases h : args = []
  · simp [rangeFor, h, ArgRange.stop, ArgRange.empty]
  · simp [rangeFor, h, ArgRange.stop, storeArgs]

theorem stop_cell_le (a : Arena) (n : Node) :
    (n.cell (a.rangeFor n.args)).range.stop ≤ (a.storeArgs n.args).args.size := by
  cases n with
  | app head args => exact a.stop_rangeFor_le args
  | _ => exact Nat.zero_le _

/-- Store a node behind all others, after its arguments. -/
def push (a : Arena) (n : Node) : Arena :=
  let r := a.rangeFor n.args
  (a.storeArgs n.args).storeCell (n.cell r) (a.stop_cell_le n)

def ofNodes (nodes : List Node) (nextLocal : Nat) : Arena :=
  nodes.foldl push { nextLocal := nextLocal }

/-- Bounds how deeply a walk over terms nests: on its way down it meets no node twice, and if it
compares two terms it meets no pair of nodes twice. -/
def depthBound (a : Arena) : Nat := (a.size + 1) * (a.size + 1)

/-- The head and the arguments of a term; a term that is no application is its own head. -/
def spine (a : Arena) (e : ExprId) : Except Fault (ExprId × List ExprId) := do
  match ← a.node e with
  | .app head args => return (head, args)
  | _ => return (e, [])

def headGlobal? (a : Arena) (e : ExprId) : Except Fault (Option Name) := do
  let (head, _) ← a.spine e
  match ← a.node head with
  | .global c => return some c
  | _ => return none

/-- The lambdas at the top of a term, outermost first, and what is under them. -/
def lambdaChainFrom (a : Arena) : Nat → ExprId → Except Fault (List Binder × ExprId)
  | 0, _ => throw .outOfFuel
  | fuel + 1, e => do
    match ← a.node e with
    | .lam b body =>
      let (bs, inner) ← a.lambdaChainFrom fuel body
      return (b :: bs, inner)
    | _ => return ([], e)

@[inherit_doc lambdaChainFrom]
def lambdaChain (a : Arena) (e : ExprId) : Except Fault (List Binder × ExprId) :=
  a.lambdaChainFrom a.depthBound e

end Arena

abbrev ArenaM := StateT Arena (Except Fault)

namespace ArenaM

def ask {α : Type} (f : Arena → Except Fault α) : ArenaM α := fun a => do
  let v ← f a
  return (v, a)

def node (e : ExprId) : ArenaM Node := ask fun a => a.node e

def push (n : Node) : ArenaM ExprId := fun a => .ok (⟨a.size⟩, a.push n)

def newLocal : ArenaM LocalId := fun a =>
  .ok (⟨a.nextLocal⟩, { a with nextLocal := a.nextLocal + 1 })

def newBinder (name : Name) : ArenaM Binder := do
  let id ← newLocal
  return ⟨id, name⟩

def mkVar (x : LocalId) : ArenaM ExprId := push (.var x)

/-- Apply a term. An application takes further arguments itself; no arguments leave the term. -/
def mkApp (head : ExprId) : List ExprId → ArenaM ExprId
  | [] => return head
  | arg :: args => do
    match ← node head with
    | .app inner init => push (.app inner (init ++ arg :: args))
    | _ => push (.app head (arg :: args))

/-- Put lambdas around a term; the first binder becomes the outermost. -/
def mkLambdas (bs : List Binder) (body : ExprId) : ArenaM ExprId :=
  bs.foldrM (fun b e => push (.lam b e)) body

def mkLets (ds : List (Binder × ExprId)) (body : ExprId) : ArenaM ExprId :=
  ds.foldrM (fun d e => push (.letIn d.1 d.2 e)) body

end ArenaM

end LambdaLifting
