import Std.Data.TreeMap

namespace LambdaLifting

structure Name where
  index : Nat
deriving DecidableEq

namespace Name

instance : Ord Name := ⟨fun m n => compare m.index n.index⟩

instance : Std.TransOrd Name := inferInstanceAs (Std.TransCmp (compareOn Name.index))

instance : Std.LawfulEqOrd Name where
  eq_of_compare {m n} h := by
    have hi : m.index = n.index := Std.LawfulEqOrd.eq_of_compare h
    cases m; cases n; simp_all

def label (n : Name) : String := "Name(" ++ toString n.index ++ ")"

end Name

/-- The texts of all names so far. `index` finds the position of a text. -/
structure NameTable where
  texts : Array String
  index : Std.TreeMap String Nat
  index_eq_some_iff : ∀ (s : String) (i : Nat), index[s]? = some i ↔ texts[i]? = some s

namespace NameTable

def initial : NameTable where
  texts := #[""]
  index := ({} : Std.TreeMap String Nat).insert "" 0
  index_eq_some_iff s i := by
    rw [Std.TreeMap.getElem?_insert]
    cases i <;> by_cases h : "" = s <;> simp [h]

def size (t : NameTable) : Nat := t.texts.size

def text? (t : NameTable) (n : Name) : Option String := t.texts[n.index]?

def find? (t : NameTable) (s : String) : Option Name := t.index[s]?.map Name.mk

theorem find?_eq_some_iff (t : NameTable) (s : String) (n : Name) :
    t.find? s = some n ↔ t.text? n = some s := by
  cases n
  simp [find?, text?, t.index_eq_some_iff]

/-- Two names never share a text. -/
theorem text?_inj (t : NameTable) {m n : Name} {s : String} (hm : t.text? m = some s)
    (hn : t.text? n = some s) : m = n := by
  have h := (t.find?_eq_some_iff s m).2 hm
  rw [(t.find?_eq_some_iff s n).2 hn] at h
  exact (Option.some.inj h).symm

def append (t : NameTable) (s : String) (h : t.index[s]? = none) : NameTable where
  texts := t.texts.push s
  index := t.index.insert s t.texts.size
  index_eq_some_iff r i := by
    have hr := t.index_eq_some_iff r i
    have hs := t.index_eq_some_iff s i
    rw [Std.TreeMap.getElem?_insert, Array.getElem?_push]
    by_cases hi : i = t.texts.size <;> by_cases e : s = r <;> grind

def intern (t : NameTable) (s : String) : Name × NameTable :=
  match h : t.index[s]? with
  | some i => (⟨i⟩, t)
  | none => (⟨t.texts.size⟩, t.append s h)

theorem text?_intern (t : NameTable) (s : String) :
    (t.intern s).2.text? (t.intern s).1 = some s := by
  unfold intern
  split
  · next i h => exact (t.index_eq_some_iff s i).1 h
  · simp [text?, append]

theorem text?_intern_of_text? (t : NameTable) (s : String) {n : Name} {r : String}
    (h : t.text? n = some r) : (t.intern s).2.text? n = some r := by
  unfold intern
  split
  · exact h
  · have hn : n.index < t.texts.size := (Array.getElem?_eq_some_iff.1 h).1
    simpa [text?, append, Array.getElem?_push, Nat.ne_of_lt hn] using h

end NameTable

end LambdaLifting
