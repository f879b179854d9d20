import LambdaLifting.Arena.Printer
import LambdaLifting.Proofs.Quotation
import LambdaLifting.Proofs.Terms

namespace LambdaLifting

namespace NameTable

variable {names : NameTable} {c d : Name} {s : String}

/-- The text of a name, as characters; a name without a text has none. -/
def spelling (names : NameTable) (c : Name) : List Char := ((names.text? c).getD "").toList

def Plain (names : NameTable) (c : Name) : Prop :=
  ∃ s, names.text? c = some s ∧ s ≠ "" ∧ ∀ x ∈ s.toList, x.isAlpha ∨ x = '.'

instance : Decidable (names.Plain c) :=
  decidable_of_iff (∃ s ∈ names.text? c, s ≠ "" ∧ s.toList.all fun x => x.isAlpha || x = '.')
    (by simp [Plain])

theorem spelling_of_text? (h : names.text? c = some s) : names.spelling c = s.toList := by
  rw [spelling, h, Option.getD_some]

theorem text_of_text? (h : names.text? c = some s) : names.text c = .ok s := by
  rw [text, h]

theorem Plain.ne_nil (h : names.Plain c) : names.spelling c ≠ [] := by
  obtain ⟨s, hs, hne, -⟩ := h
  rw [spelling_of_text? hs]
  exact fun hnil => hne (String.toList_eq_nil_iff.1 hnil)

theorem Plain.isAlpha_or (h : names.Plain c) : ∀ x ∈ names.spelling c, x.isAlpha ∨ x = '.' := by
  obtain ⟨s, hs, -, hchars⟩ := h
  rwa [spelling_of_text? hs]

theorem Plain.ne_mark (h : names.Plain c) : ∀ x ∈ names.spelling c, x ≠ '_' := by
  rintro _ hx rfl
  rcases h.isAlpha_or _ hx with h | h <;> cases h

theorem Plain.find? (h : names.Plain c) :
    names.find? (String.ofList (names.spelling c)) = some c := by
  obtain ⟨s, hs, -, -⟩ := h
  rw [spelling_of_text? hs, String.ofList_toList]
  exact (names.find?_eq_some_iff s c).2 hs

theorem Plain.eq_of_spelling (hc : names.Plain c) (hd : names.Plain d)
    (h : names.spelling c = names.spelling d) : c = d := by
  have hfind := hc.find?
  rw [h, hd.find?] at hfind
  exact (Option.some.inj hfind).symm

end NameTable

/-- The characters of words: of names, of numbers and of variables. -/
def isWordChar (c : Char) : Bool := c.isAlphanum || c = '.' || c = '_' || c = '#'

theorem isDigit_eq_false_of_isAlpha {c : Char} (h : c.isAlpha) : c.isDigit = false := by
  rw [← Bool.not_eq_true]
  intro hdigit
  have hle : c.val ≤ '9'.val := of_decide_eq_true (Bool.and_eq_true_iff.1 hdigit).2
  have hletter : c.isUpper = true ∨ c.isLower = true := Bool.or_eq_true_iff.1 h
  rcases hletter with hupper | hlower
  · have hge : 'A'.val ≤ c.val := (of_decide_eq_true hupper).1
    exact absurd (UInt32.le_trans hge hle) (by decide)
  · have hge : 'a'.val ≤ c.val := of_decide_eq_true (Bool.and_eq_true_iff.1 hlower).1
    exact absurd (UInt32.le_trans hge hle) (by decide)

theorem isWordChar_of_mem_toDigits {n : Nat} {c : Char} (h : c ∈ Nat.toDigits 10 n) :
    isWordChar c := by
  have := Nat.isDigit_of_mem_toDigits (by omega) (Nat.le_refl 10) h
  simp [isWordChar, Char.isAlphanum, this]

theorem NameTable.Plain.isWordChar {names : NameTable} {c : Name} (h : names.Plain c) :
    ∀ x ∈ names.spelling c, LambdaLifting.isWordChar x := by
  intro x hx
  rcases h.isAlpha_or x hx with hx | hx <;> simp [LambdaLifting.isWordChar, Char.isAlphanum, hx]

/-- The text goes on after an argument: with another, or behind the term that it belongs to. -/
def Breaks (r : List Char) : Prop := ∀ c ∈ r.head?, c = ' ' ∨ c = ')' ∨ c = ';'

/-- The text goes on after a whole term. -/
def Concludes (r : List Char) : Prop := ∀ c ∈ r.head?, c = ')' ∨ c = ';'

theorem Concludes.breaks {r : List Char} (h : Concludes r) : Breaks r := fun c hc => .inr (h c hc)

theorem breaks_space (r : List Char) : Breaks (' ' :: r) := by
  simp [Breaks]

theorem Breaks.not_isWordChar {r : List Char} (h : Breaks r) : ∀ c ∈ r.head?, ¬ isWordChar c := by
  intro c hc
  rcases h c hc with rfl | rfl | rfl <;> decide

def Arena.Around.Plain (around : Arena.Around) (names : NameTable) : Prop :=
  ∀ (x : LocalId) (name : Name), around[x]? = some name → names.Plain name

theorem Arena.Around.Plain.insert {around : Arena.Around} {names : NameTable} {b : Binder}
    (h : around.Plain names) (hb : names.Plain b.name) :
    Arena.Around.Plain (around.insert b.id b.name) names := by
  intro x name hx
  rw [Std.TreeMap.getElem?_insert] at hx
  split at hx
  · exact Option.some.inj hx ▸ hb
  · exact h x name hx

namespace Term

def isAtom : Term → Bool
  | var _ | global _ | lit _ => true
  | _ => false

def isWord : Term → Bool
  | var _ | global _ | lit (.nat _) => true
  | _ => false

/-- Names can be told from keywords, numbers and variables, and every literal has a text. -/
def Legible (names : NameTable) : Term → Prop
  | var _ | lit (.nat _) => True
  | global c => names.Plain c ∧ names.text? c ≠ some "fun" ∧ names.text? c ≠ some "let"
  | lit (.str s) => ∃ text, names.text? s = some text
  | app f x => f.Legible names ∧ x.Legible names
  | lam b body => names.Plain b.name ∧ body.Legible names
  | letIn b value body => names.Plain b.name ∧ value.Legible names ∧ body.Legible names

end Term

def Position.encloses (p : Position) (t : Term) : Bool :=
  match p with
  | .top => false
  | .head => !t.isAtom && !t.isApp
  | .arg => !t.isAtom

def Position.enclose (p : Position) (t : Term) (cs : List Char) : List Char :=
  if p.encloses t then '(' :: (cs ++ [')']) else cs

namespace Term

def spellBinder (names : NameTable) (b : Binder) : List Char :=
  names.spelling b.name ++ '_' :: Nat.toDigits 10 b.id.index

def spellLiteral (names : NameTable) : Literal → List Char
  | .nat n => Nat.toDigits 10 n
  | .str s => (Text.quote ((names.text? s).getD "")).toList

/-- The text of a term where no parentheses are needed around it. -/
def spell (names : NameTable) : Arena.Around → Term → List Char
  | around, var x =>
    match around[x]? with
    | some name => spellBinder names ⟨x, name⟩
    | none => '_' :: '#' :: Nat.toDigits 10 x.index
  | _, global c => names.spelling c
  | _, lit l => spellLiteral names l
  | around, app f x =>
    Position.head.enclose f (f.spell names around) ++
      ' ' :: Position.arg.enclose x (x.spell names around)
  | around, lam b body =>
    'f' :: 'u' :: 'n' :: ' ' :: (spellBinder names b ++
      ' ' :: '=' :: '>' :: ' ' :: body.spell names (around.insert b.id b.name))
  | around, letIn b value body =>
    'l' :: 'e' :: 't' :: ' ' :: (spellBinder names b ++
      ' ' :: ':' :: '=' :: ' ' :: (value.spell names around ++
        ';' :: ' ' :: body.spell names (around.insert b.id b.name)))

def spellArg (names : NameTable) (around : Arena.Around) (t : Term) : List Char :=
  Position.arg.enclose t (t.spell names around)

def spellArgs (names : NameTable) (around : Arena.Around) (xs : List Term) : List Char :=
  xs.flatMap fun x => ' ' :: x.spellArg names around

variable {names : NameTable} {around : Arena.Around} {t u f g : Term} {xs ys : List Term}
  {r s : List Char}

theorem legible_apply :
    (f.apply xs).Legible names ↔ f.Legible names ∧ ∀ x ∈ xs, x.Legible names := by
  induction xs generalizing f with
  | nil => simp
  | cons x xs ih => rw [apply_cons, ih]; simp [Legible, and_assoc]

theorem isAtom_apply (f : Term) (h : xs ≠ []) : (f.apply xs).isAtom = false := by
  obtain ⟨g, x, heq⟩ := f.exists_apply_eq_app h
  rw [heq]
  rfl

theorem isApp_eq_false_of_isAtom (h : t.isAtom = true) : t.isApp = false := by
  cases t with
  | app f x => cases h
  | _ => rfl

theorem spellArg_of_isAtom (h : t.isAtom = true) :
    t.spellArg names around = t.spell names around := by
  simp [spellArg, Position.enclose, Position.encloses, h]

theorem spellArg_of_not_isAtom (h : t.isAtom = false) :
    t.spellArg names around = '(' :: (t.spell names around ++ [')']) := by
  simp [spellArg, Position.enclose, Position.encloses, h]

theorem enclose_head (h : t.isApp = false) :
    Position.head.enclose t (t.spell names around) = t.spellArg names around := by
  simp [spellArg, Position.enclose, Position.encloses, h]

theorem enclose_head_apply (hf : f.isApp = false) (xs : List Term) :
    Position.head.enclose (f.apply xs) ((f.apply xs).spell names around) =
      f.spellArg names around ++ spellArgs names around xs := by
  induction xs using List.reverseRecOn with
  | nil => rw [apply_nil, enclose_head hf, spellArgs, List.flatMap_nil, List.append_nil]
  | append_singleton xs x ih =>
    rw [apply_concat, spell, ih]
    simp [Position.enclose, Position.encloses, isApp, spellArgs, spellArg]

/-- An application is shown as its head, in parentheses of its own if it needs them, and its
arguments. -/
theorem spell_apply (hf : f.isApp = false) (hxs : xs = [] → f.isAtom = true) :
    (f.apply xs).spell names around = f.spellArg names around ++ spellArgs names around xs := by
  by_cases hne : xs = []
  · rw [hne, apply_nil, spellArg_of_isAtom (hxs hne), spellArgs, List.flatMap_nil, List.append_nil]
  · rw [← enclose_head_apply hf, Position.enclose, Position.encloses, isApp_apply f hne]
    simp

theorem spine_cases (t : Term) :
    (∃ b body, t = lam b body) ∨ (∃ b value body, t = letIn b value body) ∨
      ∃ (f : Term) (xs : List Term),
        t = f.apply xs ∧ f.isApp = false ∧ (xs = [] → f.isAtom = true) := by
  cases t with
  | lam b body => exact .inl ⟨b, body, rfl⟩
  | letIn b value body => exact .inr (.inl ⟨b, value, body, rfl⟩)
  | app f x =>
    obtain ⟨g, xs, h, hg⟩ := (app f x).exists_spine
    refine .inr (.inr ⟨g, xs, h, hg, ?_⟩)
    rintro rfl
    rw [apply_nil] at h
    cases h ▸ hg
  | _ => exact .inr (.inr ⟨_, [], rfl, rfl, fun _ => rfl⟩)

/-- Induction over terms with all arguments of an application at once. -/
theorem spine_induction {P : Term → Prop} (hatom : ∀ t : Term, t.isAtom = true → P t)
    (happly : ∀ (f : Term) (xs : List Term), f.isApp = false → xs ≠ [] → P f →
      (∀ x ∈ xs, P x) → P (f.apply xs))
    (hlam : ∀ b body, P body → P (lam b body))
    (hlet : ∀ b value body, P value → P body → P (letIn b value body)) (t : Term) : P t := by
  have join (t : Term) (h : ∃ (f : Term) (xs : List Term), t = f.apply xs ∧ f.isApp = false ∧ P f ∧
      ∀ x ∈ xs, P x) : P t := by
    obtain ⟨f, xs, rfl, hf, hPf, hPxs⟩ := h
    by_cases hne : xs = []
    · rwa [hne, apply_nil]
    · exact happly f xs hf hne hPf hPxs
  refine join t ?_
  induction t with
  | app f x ihf ihx =>
    obtain ⟨g, ys, rfl, hg, hPg, hPys⟩ := ihf
    refine ⟨g, ys ++ [x], (apply_concat g ys x).symm, hg, hPg, fun y hy => ?_⟩
    rcases List.mem_append.1 hy with hy | hy
    · exact hPys y hy
    · exact List.mem_singleton.1 hy ▸ join x ihx
  | lam b body ih => exact ⟨_, [], rfl, rfl, hlam b body (join body ih), by simp⟩
  | letIn b value body ihv ih =>
    exact ⟨_, [], rfl, rfl, hlet b value body (join value ihv) (join body ih), by simp⟩
  | _ => exact ⟨_, [], rfl, rfl, hatom _ rfl, by simp⟩

/-- Read a word: a variable has a mark in it, a number has digits only. -/
def ofWord? (names : NameTable) (w : List Char) : Option Term :=
  if '_' ∈ w then some (var ⟨Text.trailingNumber w⟩)
  else if w.all Char.isDigit then some (lit (.nat (Nat.ofDigitChars 10 w 0)))
  else (names.find? (String.ofList w)).map global

theorem spell_var (names : NameTable) (around : Arena.Around) (x : LocalId) :
    ∃ w c, (var x).spell names around = w ++ c :: Nat.toDigits 10 x.index ∧
      '_' ∈ (var x).spell names around ∧ c.isDigit = false := by
  rw [spell]
  split
  · exact ⟨_, '_', rfl, by simp [spellBinder], rfl⟩
  · exact ⟨['_'], '#', rfl, by simp, rfl⟩

theorem isWordChar_spellBinder {b : Binder} (hb : names.Plain b.name) :
    ∀ c ∈ spellBinder names b, isWordChar c := by
  intro c hc
  rcases List.mem_append.1 hc with hc | hc
  · exact hb.isWordChar c hc
  · rcases List.mem_cons.1 hc with rfl | hc
    · rfl
    · exact isWordChar_of_mem_toDigits hc

theorem isWordChar_spell (ha : around.Plain names) (ht : t.isWord = true) (hl : t.Legible names) :
    ∀ c ∈ t.spell names around, isWordChar c := by
  cases t with
  | var x =>
    rw [spell]
    split
    · next name hx => exact isWordChar_spellBinder (b := ⟨x, name⟩) (ha x name hx)
    · intro c hc
      rcases List.mem_cons.1 hc with rfl | hc
      · rfl
      · rcases List.mem_cons.1 hc with rfl | hc
        · rfl
        · exact isWordChar_of_mem_toDigits hc
  | global c => exact hl.1.isWordChar
  | lit l =>
    cases l with
    | nat n => exact fun c hc => isWordChar_of_mem_toDigits hc
    | str s => cases ht
  | _ => cases ht

theorem ofWord?_spell (around : Arena.Around) (ht : t.isWord = true) (hl : t.Legible names) :
    ofWord? names (t.spell names around) = some t := by
  cases t with
  | var x =>
    obtain ⟨w, c, heq, hmark, hc⟩ := spell_var names around x
    rw [ofWord?, if_pos hmark, heq, Text.trailingNumber_append hc]
  | global c =>
    have hmark : '_' ∉ names.spelling c := fun h => hl.1.ne_mark _ h rfl
    have hdigits : ¬ (names.spelling c).all Char.isDigit = true := by
      obtain ⟨x, w, hx⟩ := List.exists_cons_of_ne_nil hl.1.ne_nil
      have hfirst : x.isDigit = false := by
        rcases hl.1.isAlpha_or x (by simp [hx]) with h | rfl
        · exact isDigit_eq_false_of_isAlpha h
        · rfl
      simp [hx, hfirst]
    rw [spell, ofWord?, if_neg hmark, if_neg hdigits, hl.1.find?]
    rfl
  | lit l =>
    cases l with
    | nat n =>
      have hdigits : (Nat.toDigits 10 n).all Char.isDigit = true :=
        List.all_eq_true.2 fun c hc => Nat.isDigit_of_mem_toDigits (by omega) (Nat.le_refl 10) hc
      rw [spell, spellLiteral, ofWord?, if_neg Nat.underscore_not_in_toDigits, if_pos hdigits,
        Nat.ofDigitChars_ten_toDigits]
    | str s => cases ht
  | _ => cases ht

/-- What a text begins with whose first part is a word. -/
theorem head_of_word {w : List Char} (hw : ∀ c ∈ w, isWordChar c) (hr : Breaks r) {c : Char}
    (h : w ++ r = c :: s) : isWordChar c ∨ c = ' ' ∨ c = ')' ∨ c = ';' := by
  cases w with
  | nil => exact .inr (hr c (by simp [show r = c :: s from h]))
  | cons d w => exact .inl ((List.cons.inj h).1 ▸ hw d List.mem_cons_self)

theorem isWord_or_of_isAtom (h : t.isAtom = true) : t.isWord = true ∨ ∃ x, t = lit (.str x) := by
  cases t with
  | lit l =>
    cases l with
    | nat n => exact .inl rfl
    | str x => exact .inr ⟨x, rfl⟩
  | var x => exact .inl rfl
  | global c => exact .inl rfl
  | _ => cases h

theorem spell_str (names : NameTable) (around : Arena.Around) (x : Name) :
    ∃ cs, (lit (.str x)).spell names around = '"' :: cs :=
  ⟨_, by rw [spell, spellLiteral, Text.toList_quote]⟩

theorem word_ne_quote (ha : around.Plain names) (ht : t.isWord = true) (hl : t.Legible names)
    (hr : Breaks r) : t.spell names around ++ r ≠ '"' :: s := by
  intro h
  rcases head_of_word (isWordChar_spell ha ht hl) hr h with h | h | h | h <;> cases h

/-- Only terms in parentheses begin with a parenthesis. -/
theorem atom_ne_paren (ha : around.Plain names) (ht : t.isAtom = true) (hl : t.Legible names)
    (hr : Breaks r) : t.spell names around ++ r ≠ '(' :: s := by
  intro h
  rcases isWord_or_of_isAtom ht with hw | ⟨x, rfl⟩
  · rcases head_of_word (isWordChar_spell ha hw hl) hr h with h | h | h | h <;> cases h
  · obtain ⟨cs, hcs⟩ := spell_str names around x
    rw [hcs] at h
    cases h

theorem eq_of_words (ha : around.Plain names) (ht : t.isWord = true) (hu : u.isWord = true)
    (hlt : t.Legible names) (hlu : u.Legible names) (hr : Breaks r) (hs : Breaks s)
    (h : t.spell names around ++ r = u.spell names around ++ s) : t = u ∧ r = s := by
  obtain ⟨hwords, hrest⟩ := append_inj_of_stop (isWordChar_spell ha ht hlt)
    (isWordChar_spell ha hu hlu) hr.not_isWordChar hs.not_isWordChar h
  have hread := ofWord?_spell around ht hlt
  rw [hwords, ofWord?_spell around hu hlu] at hread
  exact ⟨(Option.some.inj hread).symm, hrest⟩

theorem eq_of_strings {x y : Name} (hx : (lit (.str x)).Legible names)
    (hy : (lit (.str y)).Legible names)
    (h : (lit (.str x)).spell names around ++ r = (lit (.str y)).spell names around ++ s) :
    x = y ∧ r = s := by
  obtain ⟨p, hp⟩ := hx
  obtain ⟨q, hq⟩ := hy
  simp only [spell, spellLiteral, hp, hq, Option.getD_some] at h
  obtain ⟨rfl, hrest⟩ := Text.quote_append_inj h
  exact ⟨names.text?_inj hp hq, hrest⟩

theorem eq_of_atoms (ha : around.Plain names) (ht : t.isAtom = true) (hu : u.isAtom = true)
    (hlt : t.Legible names) (hlu : u.Legible names) (hr : Breaks r) (hs : Breaks s)
    (h : t.spell names around ++ r = u.spell names around ++ s) : t = u ∧ r = s := by
  rcases isWord_or_of_isAtom ht with ht | ⟨x, rfl⟩ <;>
    rcases isWord_or_of_isAtom hu with hu | ⟨y, rfl⟩
  · exact eq_of_words ha ht hu hlt hlu hr hs h
  · obtain ⟨cs, hcs⟩ := spell_str names around y
    rw [hcs] at h
    exact absurd h (word_ne_quote ha ht hlt hr)
  · obtain ⟨cs, hcs⟩ := spell_str names around x
    rw [hcs] at h
    exact absurd h.symm (word_ne_quote ha hu hlu hs)
  · obtain ⟨rfl, hrest⟩ := eq_of_strings hlt hlu h
    exact ⟨rfl, hrest⟩

/-- A whole term is told from what follows it, and known by its text. -/
def Readable (names : NameTable) (t : Term) : Prop :=
  ∀ ⦃around : Arena.Around⦄ ⦃u : Term⦄ ⦃r s : List Char⦄, around.Plain names → u.Legible names →
    Concludes r → Concludes s → t.spell names around ++ r = u.spell names around ++ s →
    t = u ∧ r = s

/-- The same of a term as an argument, where further arguments may follow. -/
def Separable (names : NameTable) (t : Term) : Prop :=
  ∀ ⦃around : Arena.Around⦄ ⦃u : Term⦄ ⦃r s : List Char⦄, around.Plain names → u.Legible names →
    Breaks r → Breaks s → t.spellArg names around ++ r = u.spellArg names around ++ s →
    t = u ∧ r = s

theorem separable_of_isAtom (ht : t.isAtom = true) (hl : t.Legible names) :
    t.Separable names := by
  intro around u r s ha hlu hr hs h
  rw [spellArg_of_isAtom ht] at h
  cases hu : u.isAtom with
  | true =>
    rw [spellArg_of_isAtom hu] at h
    exact eq_of_atoms ha ht hu hl hlu hr hs h
  | false =>
    rw [spellArg_of_not_isAtom hu] at h
    exact absurd h (atom_ne_paren ha ht hl hr)

/-- In parentheses a term ends where the closing one is. -/
theorem Readable.separable (h : t.Readable names) (hl : t.Legible names) : t.Separable names := by
  cases ht : t.isAtom with
  | true => exact separable_of_isAtom ht hl
  | false =>
    intro around u r s ha hlu hr hs heq
    rw [spellArg_of_not_isAtom ht] at heq
    cases hu : u.isAtom with
    | true =>
      rw [spellArg_of_isAtom hu] at heq
      exact absurd heq.symm (atom_ne_paren ha hu hlu hs)
    | false =>
      simp only [spellArg_of_not_isAtom hu, List.cons_append, List.append_assoc, List.nil_append,
        List.cons.injEq, true_and] at heq
      obtain ⟨rfl, hrest⟩ := h ha hlu (by simp [Concludes]) (by simp [Concludes]) heq
      exact ⟨rfl, (List.cons.inj hrest).2⟩

theorem breaks_spellArgs (hr : Concludes r) (xs : List Term) :
    Breaks (spellArgs names around xs ++ r) := by
  cases xs with
  | nil => exact hr.breaks
  | cons x xs => simp [Breaks, spellArgs]

theorem spellArgs_append_inj (ha : around.Plain names) (hxs : ∀ x ∈ xs, x.Separable names)
    (hys : ∀ y ∈ ys, y.Legible names) (hr : Concludes r) (hs : Concludes s)
    (h : spellArgs names around xs ++ r = spellArgs names around ys ++ s) : xs = ys ∧ r = s := by
  induction xs generalizing ys with
  | nil =>
    cases ys with
    | nil => exact ⟨rfl, h⟩
    | cons y ys =>
      have hspace := hr ' ' (by simp [show r = _ from h, spellArgs])
      rcases hspace with hspace | hspace <;> cases hspace
  | cons x xs ih =>
    cases ys with
    | nil =>
      have hspace := hs ' ' (by simp [← show _ = s from h, spellArgs])
      rcases hspace with hspace | hspace <;> cases hspace
    | cons y ys =>
      simp only [spellArgs, List.flatMap_cons, List.cons_append, List.append_assoc, List.cons.injEq,
        true_and] at h
      obtain ⟨rfl, htail⟩ := hxs x List.mem_cons_self ha (hys y List.mem_cons_self)
        (breaks_spellArgs hr xs) (breaks_spellArgs hs ys) h
      obtain ⟨rfl, hrest⟩ := ih (fun z hz => hxs z (List.mem_cons_of_mem _ hz))
        (fun z hz => hys z (List.mem_cons_of_mem _ hz)) htail
      exact ⟨rfl, hrest⟩

def keywords : List (List Char) := [['f', 'u', 'n'], ['l', 'e', 't']]

theorem ofWord?_keyword {k : List Char} (hk : k ∈ keywords) (hl : t.Legible names) :
    ofWord? names k ≠ some t := by
  intro h
  have hmarks : ∀ k ∈ keywords, '_' ∉ k := by decide
  have hdigits : ∀ k ∈ keywords, ¬ k.all Char.isDigit = true := by decide
  rw [ofWord?, if_neg (hmarks k hk), if_neg (hdigits k hk)] at h
  obtain ⟨c, hc, rfl⟩ := Option.map_eq_some_iff.1 h
  rw [NameTable.find?_eq_some_iff] at hc
  simp only [keywords, List.mem_cons, List.not_mem_nil, or_false] at hk
  rcases hk with rfl | rfl
  · exact hl.2.1 hc
  · exact hl.2.2 hc

/-- No name is a keyword, so an application cannot be taken for a lambda or a definition. -/
theorem spellArg_ne_keyword (ha : around.Plain names) (hl : t.Legible names) (hr : Breaks r)
    {k : List Char} (hk : k ∈ keywords) : t.spellArg names around ++ r ≠ k ++ ' ' :: s := by
  intro h
  have hchars : ∀ k ∈ keywords, k.all isWordChar = true := by decide
  have hfirst : ∃ c w, k = c :: w ∧ c ≠ '(' ∧ c ≠ '"' := by
    simp only [keywords, List.mem_cons, List.not_mem_nil, or_false] at hk
    rcases hk with rfl | rfl <;> exact ⟨_, _, rfl, by decide, by decide⟩
  obtain ⟨c, w, hcw, hparen, hquote⟩ := hfirst
  cases ht : t.isAtom with
  | false =>
    rw [spellArg_of_not_isAtom ht, hcw] at h
    exact hparen (List.cons.inj h).1.symm
  | true =>
    rw [spellArg_of_isAtom ht] at h
    rcases isWord_or_of_isAtom ht with hword | ⟨x, rfl⟩
    · obtain ⟨hspell, -⟩ := append_inj_of_stop (isWordChar_spell ha hword hl)
        (List.all_eq_true.1 (hchars k hk)) hr.not_isWordChar (breaks_space s).not_isWordChar h
      exact ofWord?_keyword hk hl (hspell ▸ ofWord?_spell around hword hl)
    · obtain ⟨cs, hcs⟩ := spell_str names around x
      rw [hcs, hcw] at h
      exact hquote (List.cons.inj h).1.symm

theorem readable_apply (hf : f.isApp = false) (hatom : xs = [] → f.isAtom = true)
    (hfs : f.Separable names) (hxs : ∀ x ∈ xs, x.Separable names)
    (hl : (f.apply xs).Legible names) : (f.apply xs).Readable names := by
  intro around u r s ha hlu hr hs h
  rw [spell_apply hf hatom, List.append_assoc] at h
  rcases u.spine_cases with ⟨b, body, rfl⟩ | ⟨b, value, body, rfl⟩ | ⟨g, ys, rfl, hg, hatom'⟩
  · exact absurd h (spellArg_ne_keyword ha (legible_apply.1 hl).1 (breaks_spellArgs hr xs)
      (k := ['f', 'u', 'n']) (by simp [keywords]))
  · exact absurd h (spellArg_ne_keyword ha (legible_apply.1 hl).1 (breaks_spellArgs hr xs)
      (k := ['l', 'e', 't']) (by simp [keywords]))
  · rw [spell_apply hg hatom', List.append_assoc] at h
    obtain ⟨hlg, hlys⟩ := legible_apply.1 hlu
    obtain ⟨rfl, hargs⟩ := hfs ha hlg (breaks_spellArgs hr xs) (breaks_spellArgs hs ys) h
    obtain ⟨rfl, hrest⟩ := spellArgs_append_inj ha hxs hlys hr hs hargs
    exact ⟨rfl, hrest⟩

theorem spellBinder_append_inj {b c : Binder} (hb : names.Plain b.name) (hc : names.Plain c.name)
    (h : spellBinder names b ++ ' ' :: r = spellBinder names c ++ ' ' :: s) : b = c ∧ r = s := by
  obtain ⟨hbinder, hrest⟩ := append_inj_of_stop (isWordChar_spellBinder hb)
    (isWordChar_spellBinder hc) (breaks_space r).not_isWordChar (breaks_space s).not_isWordChar h
  obtain ⟨hname, hid⟩ := append_inj_of_stop hb.ne_mark hc.ne_mark (by simp) (by simp) hbinder
  have hindex := toDigits_inj (by omega) (by omega) (List.cons.inj hid).2
  obtain ⟨⟨i⟩, name⟩ := b
  obtain ⟨⟨j⟩, name'⟩ := c
  obtain rfl : name = name' := hb.eq_of_spelling hc hname
  obtain rfl : i = j := hindex
  exact ⟨rfl, (List.cons.inj hrest).2⟩

/-- The text of a term is told from what follows it and determines the term. -/
theorem readable (t : Term) (hl : t.Legible names) : t.Readable names := by
  induction t using spine_induction with
  | hatom t ht =>
    rw [← apply_nil t] at hl ⊢
    exact readable_apply (isApp_eq_false_of_isAtom ht) (fun _ => ht) (separable_of_isAtom ht hl)
      (by simp) hl
  | happly f xs hf hne ihf ihxs =>
    obtain ⟨hlf, hlxs⟩ := legible_apply.1 hl
    exact readable_apply hf (fun hnil => absurd hnil hne) ((ihf hlf).separable hlf)
      (fun x hx => (ihxs x hx (hlxs x hx)).separable (hlxs x hx)) hl
  | hlam b body ih =>
    intro around u r s ha hlu hr hs h
    rcases u.spine_cases with ⟨c, other, rfl⟩ | ⟨c, value, other, rfl⟩ | ⟨g, ys, rfl, hg, hatom⟩
    · simp only [spell, List.cons_append, List.append_assoc, List.cons.injEq, true_and] at h
      obtain ⟨rfl, hbody⟩ := spellBinder_append_inj hl.1 hlu.1 h
      simp only [List.cons.injEq, true_and] at hbody
      obtain ⟨rfl, hrest⟩ := ih hl.2 (ha.insert hl.1) hlu.2 hr hs hbody
      exact ⟨rfl, hrest⟩
    · simp [spell] at h
    · rw [spell_apply hg hatom, List.append_assoc] at h
      exact absurd h.symm (spellArg_ne_keyword ha (legible_apply.1 hlu).1 (breaks_spellArgs hs ys)
        (k := ['f', 'u', 'n']) (by simp [keywords]))
  | hlet b value body ihv ih =>
    intro around u r s ha hlu hr hs h
    rcases u.spine_cases with ⟨c, other, rfl⟩ | ⟨c, value', other, rfl⟩ | ⟨g, ys, rfl, hg, hatom⟩
    · simp [spell] at h
    · simp only [spell, List.cons_append, List.append_assoc, List.cons.injEq, true_and] at h
      obtain ⟨rfl, hvalue⟩ := spellBinder_append_inj hl.1 hlu.1 h
      simp only [List.cons.injEq, true_and] at hvalue
      -- The semicolon after a value belongs to the definition around it.
      obtain ⟨rfl, hbody⟩ := ihv hl.2.1 ha hlu.2.1 (by simp [Concludes]) (by simp [Concludes])
        hvalue
      simp only [List.cons.injEq, true_and] at hbody
      obtain ⟨rfl, hrest⟩ := ih hl.2.2 (ha.insert hl.1) hlu.2.2 hr hs hbody
      exact ⟨rfl, hrest⟩
    · rw [spell_apply hg hatom, List.append_assoc] at h
      exact absurd h.symm (spellArg_ne_keyword ha (legible_apply.1 hlu).1 (breaks_spellArgs hs ys)
        (k := ['l', 'e', 't']) (by simp [keywords]))

theorem spell_inj (ht : t.Legible names) (hu : u.Legible names)
    (h : t.spell names ∅ = u.spell names ∅) : t = u := by
  have hopen : Concludes [] := by simp [Concludes]
  have hempty : Arena.Around.Plain ∅ names := by simp [Arena.Around.Plain]
  exact (t.readable ht hempty hu hopen hopen (by rw [h])).1

end Term

end LambdaLifting
