import LambdaLifting.Text.Quoted
import Mathlib.Data.List.Basic

namespace LambdaLifting

/-- Two texts of one kind of characters are the same if something else follows both. -/
theorem append_inj_of_stop {α : Type} {P : α → Prop} {v w r s : List α} (hv : ∀ c ∈ v, P c)
    (hw : ∀ c ∈ w, P c) (hr : ∀ c ∈ r.head?, ¬ P c) (hs : ∀ c ∈ s.head?, ¬ P c)
    (h : v ++ r = w ++ s) : v = w ∧ r = s := by
  induction v generalizing w with
  | nil =>
    cases w with
    | nil => exact ⟨rfl, h⟩
    | cons d w =>
      rw [List.nil_append, List.cons_append] at h
      exact absurd (hw d List.mem_cons_self) (hr d (by simp [h]))
  | cons c v ih =>
    cases w with
    | nil =>
      rw [List.nil_append, List.cons_append] at h
      exact absurd (hv c List.mem_cons_self) (hs c (by simp [← h]))
    | cons d w =>
      obtain ⟨rfl, htail⟩ := List.cons.inj h
      obtain ⟨rfl, hrest⟩ := ih (fun c hc => hv c (List.mem_cons_of_mem _ hc))
        (fun c hc => hw c (List.mem_cons_of_mem _ hc)) htail
      exact ⟨rfl, hrest⟩

def Text.trailingNumber (w : List Char) : Nat :=
  Nat.ofDigitChars 10 (w.reverse.takeWhile Char.isDigit).reverse 0

theorem Text.trailingNumber_append {c : Char} (hc : c.isDigit = false) (w : List Char) (n : Nat) :
    trailingNumber (w ++ c :: Nat.toDigits 10 n) = n := by
  have hdigits : ∀ x ∈ (Nat.toDigits 10 n).reverse, x.isDigit = true := fun x hx =>
    Nat.isDigit_of_mem_toDigits (by omega) (Nat.le_refl 10) (List.mem_reverse.1 hx)
  have hlist : (w ++ c :: Nat.toDigits 10 n).reverse =
      (Nat.toDigits 10 n).reverse ++ c :: w.reverse := by
    simp
  rw [trailingNumber, hlist, List.takeWhile_append_of_pos hdigits,
    List.takeWhile_cons_of_neg (by simp [hc]), List.append_nil, List.reverse_reverse,
    Nat.ofDigitChars_ten_toDigits]

theorem digitChar_inj {m n : Nat} (hm : m < 16) (hn : n < 16) (h : m.digitChar = n.digitChar) :
    m = n := by
  have hall : ∀ m < 16, ∀ n < 16, Nat.digitChar m = Nat.digitChar n → m = n := by decide
  exact hall m hm n hn h

theorem exists_digitChar_of_mem_toDigits {b : Nat} (hb : 1 < b) {n : Nat} {c : Char}
    (hc : c ∈ Nat.toDigits b n) : ∃ k, c = Nat.digitChar k := by
  induction n using Nat.strongRecOn with
  | ind n ih =>
    rw [Nat.toDigits_eq_if hb] at hc
    split at hc
    · exact ⟨n, List.mem_singleton.1 hc⟩
    · rcases List.mem_append.1 hc with hc | hc
      · exact ih (n / b) (Nat.div_lt_self (by omega) hb) hc
      · exact ⟨n % b, List.mem_singleton.1 hc⟩

theorem toDigits_inj {b : Nat} (hb : 1 < b) (hb' : b ≤ 16) {m n : Nat}
    (h : Nat.toDigits b m = Nat.toDigits b n) : m = n := by
  induction m using Nat.strongRecOn generalizing n with
  | ind m ih =>
    have hmod : ∀ k, k % b < 16 := fun k => Nat.lt_of_lt_of_le (Nat.mod_lt k (by omega)) hb'
    rw [Nat.toDigits_eq_if hb, Nat.toDigits_eq_if (n := n) hb] at h
    split at h <;> split at h
    · exact digitChar_inj (by omega) (by omega) (List.cons.inj h).1
    · exact absurd (congrArg List.length h) (by simp)
    · exact absurd (congrArg List.length h) (by simp)
    · obtain ⟨hinit, hlast⟩ := List.append_inj' h rfl
      have hdiv := ih (m / b) (Nat.div_lt_self (by omega) hb) hinit
      have hrest := digitChar_inj (hmod m) (hmod n) (List.cons.inj hlast).1
      rw [← Nat.div_add_mod m b, hdiv, hrest, Nat.div_add_mod]

namespace Text

theorem shortEscape?_inj {c d l : Char} (hc : shortEscape? c = some l)
    (hd : shortEscape? d = some l) : c = d := by
  unfold shortEscape? at hc hd
  split at hc <;> cases hc <;> split at hd <;> simp_all

theorem shortEscape?_ne_u (c : Char) : shortEscape? c ≠ some 'u' := by
  unfold shortEscape?
  split <;> simp

/-- Characters that stand for themselves are no backslash, so that an escape shows as one. -/
theorem escape_cases (c : Char) :
    (∃ l, shortEscape? c = some l ∧ escape c = ['\\', l]) ∨
    (c ≠ '\\' ∧ c ≠ '"' ∧ escape c = [c]) ∨
    escape c = '\\' :: 'u' :: '\x7b' :: (Nat.toDigits 16 c.toNat ++ ['\x7d']) := by
  unfold escape
  split
  · next l hl => exact .inl ⟨l, hl, rfl⟩
  · next hnone =>
    split
    · refine .inr (.inl ⟨?_, ?_, rfl⟩)
      · rintro rfl
        cases hnone
      · rintro rfl
        cases hnone
    · exact .inr (.inr rfl)

theorem escape_append_inj {c d : Char} {r s : List Char} (h : escape c ++ r = escape d ++ s) :
    c = d ∧ r = s := by
  have hnumber : ∀ (k : Char), ∀ x ∈ Nat.toDigits 16 k.toNat, x ≠ '\x7d' := by
    intro k x hx
    obtain ⟨j, rfl⟩ := exists_digitChar_of_mem_toDigits (by omega) hx
    exact Nat.digitChar_ne _ (by decide)
  rcases escape_cases c with ⟨l, hl, hc⟩ | ⟨hc₀, -, hc⟩ | hc <;>
    rcases escape_cases d with ⟨m, hm, hd⟩ | ⟨hd₀, -, hd⟩ | hd <;>
    simp only [hc, hd, List.cons_append, List.nil_append, List.cons.injEq, List.append_assoc] at h
  · exact ⟨shortEscape?_inj (h.2.1 ▸ hl) hm, h.2.2⟩
  · exact absurd h.1.symm hd₀
  · exact absurd (h.2.1 ▸ hl) (shortEscape?_ne_u c)
  · exact absurd h.1 hc₀
  · exact h
  · exact absurd h.1 hc₀
  · exact absurd (h.2.1 ▸ hm) (shortEscape?_ne_u d)
  · exact absurd h.1.symm hd₀
  · obtain ⟨hdigits, hrest⟩ := append_inj_of_stop (hnumber c) (hnumber d) (by simp) (by simp)
      h.2.2.2
    exact ⟨Char.toNat_inj.1 (toDigits_inj (by omega) (by omega) hdigits),
      (List.cons.inj hrest).2⟩

theorem escape_ne_quote (c : Char) (r s : List Char) : escape c ++ r ≠ '"' :: s := by
  intro h
  rcases escape_cases c with ⟨l, -, hc⟩ | ⟨-, hc₀, hc⟩ | hc <;>
    simp only [hc, List.cons_append, List.nil_append, List.cons.injEq] at h
  · exact absurd h.1 (by decide)
  · exact hc₀ h.1
  · exact absurd h.1 (by decide)

theorem flatMap_escape_append_inj {cs ds r s : List Char}
    (h : cs.flatMap escape ++ '"' :: r = ds.flatMap escape ++ '"' :: s) : cs = ds ∧ r = s := by
  induction cs generalizing ds with
  | nil =>
    cases ds with
    | nil => exact ⟨rfl, (List.cons.inj h).2⟩
    | cons d ds =>
      rw [List.flatMap_cons, List.append_assoc] at h
      exact absurd h.symm (escape_ne_quote d _ _)
  | cons c cs ih =>
    cases ds with
    | nil =>
      rw [List.flatMap_cons, List.append_assoc] at h
      exact absurd h (escape_ne_quote c _ _)
    | cons d ds =>
      rw [List.flatMap_cons, List.flatMap_cons, List.append_assoc, List.append_assoc] at h
      obtain ⟨rfl, htail⟩ := escape_append_inj h
      obtain ⟨rfl, hrest⟩ := ih htail
      exact ⟨rfl, hrest⟩

theorem toList_quote (x : String) :
    (quote x).toList = '"' :: (x.toList.flatMap escape ++ ['"']) := by
  rw [quote, String.toList_ofList, List.cons_append]

theorem quote_append_inj {x y : String} {r s : List Char}
    (h : (quote x).toList ++ r = (quote y).toList ++ s) : x = y ∧ r = s := by
  simp only [toList_quote, List.cons_append, List.append_assoc, List.nil_append, List.cons.injEq,
    true_and] at h
  obtain ⟨hchars, hrest⟩ := flatMap_escape_append_inj h
  exact ⟨String.toList_inj.1 hchars, hrest⟩

end Text

end LambdaLifting
