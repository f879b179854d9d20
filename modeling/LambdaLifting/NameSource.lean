import LambdaLifting.Fault

namespace LambdaLifting

/-- A name table with a counter for new names. The table takes any number of names here; one whose
names are words of 32 bits stops when these are used up. -/
structure NameSource where
  table : NameTable
  /-- What the counter would show if it had no limit. -/
  count : Nat

namespace NameSource

/-- The counter has 32 bits. -/
def limit : Nat := 4294967296

def initial : NameSource := ⟨.initial, 1⟩

/-- The number that the counter shows. After the largest one it starts again at zero. -/
def next (s : NameSource) : Nat := s.count % limit

def draw (s : NameSource) : Nat × NameSource := (s.next, { s with count := s.count + 1 })

def intern (s : NameSource) (text : String) : Name × NameSource :=
  let (n, table) := s.table.intern text
  (n, { s with table := table })

/-- The text that all names for one owner start with. The empty owner adds nothing. -/
def base (s : NameSource) (owner : Name) (suffix : String) : Except Fault String := do
  let text ← s.table.text owner
  return if text.isEmpty then suffix else text ++ "." ++ suffix

def candidate (base : String) (n : Nat) : String := base ++ "_" ++ toString n

/-- The first candidate that is not taken. Candidates that are taken keep their number. -/
def fresh (base : String) (taken : Name → Bool) :
    Nat → NameSource → Except Fault (Name × NameSource)
  | 0, _ => .error .outOfFuel
  | fuel + 1, s =>
    let (n, s) := s.draw
    let (name, s) := s.intern (candidate base n)
    if taken name then fresh base taken fuel s else .ok (name, s)

end NameSource

end LambdaLifting
