import LambdaLifting.Proofs.Naming
import LambdaLifting.Proofs.Quotation
import Mathlib.Data.List.Nodup
import Mathlib.Data.List.Perm.Subperm

namespace LambdaLifting

/-- No name changes its text. -/
def NameTable.Extends (t t' : NameTable) : Prop :=
  ∀ ⦃n r⦄, t.text? n = some r → t'.text? n = some r

namespace NameSource

theorem limit_pos : 0 < limit := Nat.succ_pos _

theorem next_lt_limit (s : NameSource) : s.next < limit := Nat.mod_lt _ limit_pos

/-- The counter shows no number twice before it has shown them all. -/
theorem eq_of_mod_limit_eq {i j lo : Nat} (hi : lo ≤ i) (hi' : i < lo + limit) (hj : lo ≤ j)
    (hj' : j < lo + limit) (h : i % limit = j % limit) : i = j := by
  rw [limit] at *
  omega

/-- As long as it does not start again, the counter goes up by one with each number. -/
theorem mod_limit_eq {s : NameSource} {k : Nat} (hle : s.count ≤ k)
    (hlt : s.next + (k - s.count) < limit) : k % limit = s.next + (k - s.count) := by
  rw [next, limit] at *
  omega

theorem trailingNumber_candidate (base : String) (n : Nat) :
    Text.trailingNumber (candidate base n).toList = n := by
  have hlist : (candidate base n).toList = base.toList ++ '_' :: Nat.toDigits 10 n := by
    simp [candidate, Nat.toString_eq_repr, Nat.toList_repr]
  rw [hlist, Text.trailingNumber_append rfl]

/-- A name ends in its number, whatever it starts with. -/
theorem eq_of_candidate_eq {base base' : String} {m n : Nat}
    (h : candidate base m = candidate base' n) : m = n := by
  rw [← trailingNumber_candidate base m, h, trailingNumber_candidate]

variable {base : String} {taken : Name → Bool} {fuel : Nat} {s s' : NameSource} {name : Name}

/-- A name was made from a number that the counter can show. -/
def Drawn (s : NameSource) (base : String) (name : Name) : Prop :=
  ∃ n < limit, s.table.text? name = some (candidate base n)

/-- Numbers are drawn in order, and names that were there keep their texts. -/
structure Advances (s s' : NameSource) : Prop where
  table : s.table.Extends s'.table
  count : s.count ≤ s'.count

theorem Advances.refl (s : NameSource) : s.Advances s := ⟨fun _ _ h => h, Nat.le_refl _⟩

theorem Advances.trans {s'' : NameSource} (h : s.Advances s') (h' : s'.Advances s'') :
    s.Advances s'' :=
  ⟨fun _ _ hn => h'.table (h.table hn), Nat.le_trans h.count h'.count⟩

theorem Drawn.mono (h : s.Drawn base name) (hs : s.Advances s') : s'.Drawn base name := by
  obtain ⟨n, hn, htext⟩ := h
  exact ⟨n, hn, hs.table htext⟩

def numberOf (s : NameSource) (name : Name) : Nat :=
  Text.trailingNumber ((s.table.text? name).getD "").toList

theorem numberOf_eq {n : Nat} (h : s.table.text? name = some (candidate base n)) :
    s.numberOf name = n := by
  rw [numberOf, h, Option.getD_some, trailingNumber_candidate]

/-- When more names were made in one place than in another, one of them has a number that was not
used in the other. -/
theorem exists_number_of_length_lt {cs : List Name} (hnodup : cs.Nodup)
    (hcs : ∀ c ∈ cs, s.Drawn base c) (s' : NameSource) {ds : List Name}
    (hlength : ds.length < cs.length) :
    ∃ c ∈ cs, ∃ n < limit, s.table.text? c = some (candidate base n) ∧
      ∀ d ∈ ds, s'.table.text? d ≠ some (candidate base n) := by
  have hnumbers : (cs.map s.numberOf).Nodup := by
    refine List.Nodup.map_on (fun c hc d hd heq => ?_) hnodup
    obtain ⟨m, -, hm⟩ := hcs c hc
    obtain ⟨n, -, hn⟩ := hcs d hd
    rw [numberOf_eq hm, numberOf_eq hn] at heq
    exact s.table.text?_inj hm (heq ▸ hn)
  have hmore : ¬ cs.map s.numberOf ⊆ ds.map s'.numberOf := by
    intro hsub
    have hle := (List.subperm_of_subset hnumbers hsub).length_le
    rw [List.length_map, List.length_map] at hle
    omega
  obtain ⟨c, hc, hout⟩ : ∃ c ∈ cs, s.numberOf c ∉ ds.map s'.numberOf := by
    simpa only [List.subset_def, List.forall_mem_map, not_forall, exists_prop] using hmore
  obtain ⟨n, hn, htext⟩ := hcs c hc
  refine ⟨c, hc, n, hn, htext, fun d hd hdtext => hout ?_⟩
  rw [numberOf_eq htext, ← numberOf_eq hdtext]
  exact List.mem_map_of_mem hd

theorem advances_intern (s : NameSource) (text : String) : s.Advances (s.intern text).2 :=
  ⟨fun _ _ => s.table.text?_intern_of_text? text, Nat.le_refl _⟩

theorem advances_draw (s : NameSource) : s.Advances s.draw.2 :=
  ⟨fun _ _ h => h, Nat.le_succ _⟩

def attempt (s : NameSource) (base : String) : Name × NameSource :=
  s.draw.2.intern (candidate base s.draw.1)

theorem fresh_succ : fresh base taken (fuel + 1) s =
    if taken (s.attempt base).1 then fresh base taken fuel (s.attempt base).2
    else .ok (s.attempt base) := rfl

@[simp]
theorem count_attempt (s : NameSource) (base : String) :
    (s.attempt base).2.count = s.count + 1 := rfl

/-- A search goes on after a name that is taken and ends with one that is free. -/
theorem fresh_cases (h : fresh base taken (fuel + 1) s = .ok (name, s')) :
    (taken (s.attempt base).1 = true ∧ fresh base taken fuel (s.attempt base).2 = .ok (name, s')) ∨
      (taken (s.attempt base).1 = false ∧ name = (s.attempt base).1 ∧ s' = (s.attempt base).2) := by
  rw [fresh_succ] at h
  split at h
  · next htaken => exact .inl ⟨htaken, h⟩
  · next htaken =>
    have heq : s.attempt base = (name, s') := Except.ok.inj h
    exact .inr ⟨by simpa using htaken, by rw [heq], by rw [heq]⟩

theorem text?_attempt (s : NameSource) (base : String) :
    (s.attempt base).2.table.text? (s.attempt base).1 = some (candidate base s.next) :=
  s.table.text?_intern _

theorem advances_attempt (s : NameSource) (base : String) : s.Advances (s.attempt base).2 :=
  ⟨fun _ _ => s.table.text?_intern_of_text? _, Nat.le_succ _⟩

/-- A search sees the number that the counter shows and nothing else of the count. -/
theorem fresh_congr {t : NameSource} (htable : s.table = t.table) (hnext : s.next = t.next) :
    (fresh base taken fuel s).map (fun r => (r.1, r.2.table, r.2.next)) =
      (fresh base taken fuel t).map fun r => (r.1, r.2.table, r.2.next) := by
  induction fuel generalizing s t with
  | zero => rfl
  | succ fuel ih =>
    have hname : (s.attempt base).1 = (t.attempt base).1 := by
      show (s.table.intern (candidate base s.next)).1 = (t.table.intern (candidate base t.next)).1
      rw [htable, hnext]
    have htable' : (s.attempt base).2.table = (t.attempt base).2.table := by
      show (s.table.intern (candidate base s.next)).2 = (t.table.intern (candidate base t.next)).2
      rw [htable, hnext]
    have hnext' : (s.attempt base).2.next = (t.attempt base).2.next := by
      simp only [next, count_attempt] at hnext ⊢
      rw [Nat.add_mod, hnext, ← Nat.add_mod]
    rw [fresh_succ, fresh_succ, hname]
    split
    · exact ih htable' hnext'
    · simp only [Except.map, hname, htable', hnext']

/-- From `s` to `s'`, the name `c` was made when the count was `k`. The counts from `s.count` to `k`
gave names that are taken. -/
structure Makes (base : String) (taken : Name → Bool) (s : NameSource) (c : Name) (k : Nat)
    (s' : NameSource) : Prop where
  advances : s.Advances s'
  count_le : s.count ≤ k
  count_eq : s'.count = k + 1
  text : s'.table.text? c = some (candidate base (k % limit))
  free : taken c = false
  skipped : ∀ j, s.count ≤ j → j < k →
    ∃ d, s'.table.text? d = some (candidate base (j % limit)) ∧ taken d = true

theorem makes_of_fresh (h : fresh base taken fuel s = .ok (name, s')) :
    ∃ k, Makes base taken s name k s' := by
  induction fuel generalizing s with
  | zero => cases h
  | succ fuel ih =>
    have htry := s.advances_attempt base
    rcases fresh_cases h with ⟨htaken, h⟩ | ⟨hfree, rfl, rfl⟩
    · obtain ⟨k, hk⟩ := ih h
      have hle : s.count + 1 ≤ k := hk.count_le
      refine ⟨k, htry.trans hk.advances, by omega, hk.count_eq, hk.text, hk.free, ?_⟩
      intro j hj hjk
      by_cases heq : j = s.count
      · exact ⟨_, hk.advances.table (heq ▸ s.text?_attempt base), htaken⟩
      · exact hk.skipped j (show s.count + 1 ≤ j by omega) hjk
    · refine ⟨s.count, htry, Nat.le_refl _, rfl, s.text?_attempt base, hfree, ?_⟩
      intro j hj hjk
      omega

theorem advances_of_fresh (h : fresh base taken fuel s = .ok (name, s')) :
    s.Advances s' ∧ s'.Drawn base name := by
  obtain ⟨k, hk⟩ := makes_of_fresh h
  exact ⟨hk.advances, _, Nat.mod_lt k limit_pos, hk.text⟩

theorem eq_outOfFuel_of_fresh {f : Fault} (h : fresh base taken fuel s = .error f) :
    f = .outOfFuel := by
  induction fuel generalizing s with
  | zero =>
    cases h
    rfl
  | succ fuel ih =>
    rw [fresh_succ] at h
    split at h
    · exact ih h
    · cases h

/-- If all names that are taken have texts, and no text is that of the number `n`, then the search
ends when the counter shows `n`, or before. -/
theorem exists_fresh {n : Nat} (hn : n < limit)
    (htaken : ∀ c, taken c = true → ∃ r, s.table.text? c = some r ∧ r ≠ candidate base n)
    (hfuel : (n + limit - s.next) % limit < fuel) : ∃ r, fresh base taken fuel s = .ok r := by
  induction fuel generalizing s with
  | zero => omega
  | succ fuel ih =>
    have htable := (s.advances_attempt base).table
    rw [fresh_succ]
    split
    · next htry =>
      obtain ⟨r, hr, hne⟩ := htaken _ htry
      have hnext : s.next ≠ n := by
        rintro rfl
        exact hne (Option.some.inj ((htable hr).symm.trans (s.text?_attempt base)))
      have hlt := s.next_lt_limit
      refine ih (fun c hc => ?_) ?_
      · obtain ⟨r, hr, hne⟩ := htaken c hc
        exact ⟨r, htable hr, hne⟩
      · -- One number less is to be drawn before `n`.
        have hstep : (s.attempt base).2.next = (s.next + 1) % limit := by
          rw [next, next, count_attempt, Nat.mod_add_mod]
        rw [hstep]
        rw [limit] at *
        omega
    · exact ⟨_, rfl⟩

/-- Names that are taken are in a list, or were tried at a count from `lo` on. Each round takes a
name from the list, until the counter starts again. -/
theorem exists_fresh_of_tried {lo : Nat} {names : List Name} (hlo : lo ≤ s.count)
    (hroom : s.count + names.length < lo + limit) (hfuel : names.length < fuel)
    (htaken : ∀ c, taken c = true → c ∈ names ∨
      ∃ k, lo ≤ k ∧ k < s.count ∧ s.table.text? c = some (candidate base (k % limit))) :
    ∃ r, fresh base taken fuel s = .ok r := by
  induction fuel generalizing names s with
  | zero => omega
  | succ fuel ih =>
    have htable := (s.advances_attempt base).table
    rw [fresh_succ]
    split
    · next htry =>
      -- The number of this name has not been shown since `lo`.
      have hmem : (s.attempt base).1 ∈ names := by
        refine (htaken _ htry).resolve_right ?_
        rintro ⟨k, hk, hlt, htext⟩
        have heq := (htable htext).symm.trans (s.text?_attempt base)
        have hmod := eq_of_candidate_eq (Option.some.inj heq)
        have := eq_of_mod_limit_eq hk (by omega) hlo (by omega) hmod
        omega
      have hpos := List.length_pos_of_mem hmem
      have hlength := List.length_erase_of_mem hmem
      refine ih (Nat.le_succ_of_le hlo) (by rw [count_attempt, hlength]; omega) (by omega) ?_
      intro c hc
      by_cases heq : c = (s.attempt base).1
      · exact .inr ⟨s.count, hlo, Nat.lt_succ_self _, heq ▸ s.text?_attempt base⟩
      · refine (htaken c hc).imp (List.mem_erase_of_ne heq).2 ?_
        rintro ⟨k, hk, hlt, htext⟩
        exact ⟨k, hk, Nat.lt_succ_of_lt hlt, htable htext⟩
    · exact ⟨_, rfl⟩

/-- If fewer names are taken than there are numbers, the search ends after one more round than names
are taken. -/
theorem exists_fresh_of_length_lt {names : List Name} (htaken : ∀ c, taken c = true → c ∈ names)
    (hlimit : names.length < limit) (hfuel : names.length < fuel) :
    ∃ r, fresh base taken fuel s = .ok r :=
  exists_fresh_of_tried (Nat.le_refl s.count) (Nat.add_lt_add_left hlimit _) hfuel
    fun c hc => .inl (htaken c hc)

/-- The names `cs` were made for one base at the counts `ks`, which grow from `lo` on and stay below
`hi`. -/
structure Numbers (t : NameTable) (base : String) (lo hi : Nat) (cs : List Name) (ks : List Nat) :
    Prop where
  shows : List.Forall₂ (fun c k => t.text? c = some (candidate base (k % limit))) cs ks
  ordered : ks.Pairwise (· < ·)
  bounds : ∀ k ∈ ks, lo ≤ k ∧ k < hi

theorem numbers_nil (t : NameTable) (base : String) (lo hi : Nat) : Numbers t base lo hi [] [] :=
  ⟨.nil, .nil, by simp⟩

/-- The next name was made at a larger count than all others. -/
theorem Numbers.concat {lo k : Nat} {cs : List Name} {ks : List Nat}
    (h : Numbers s.table base lo s.count cs ks) (hmakes : Makes base taken s name k s')
    (hlo : lo ≤ s.count) : Numbers s'.table base lo s'.count (cs ++ [name]) (ks ++ [k]) where
  shows := List.rel_append (h.shows.imp fun _ _ hc => hmakes.advances.table hc)
    (.cons hmakes.text .nil)
  ordered := by
    rw [List.pairwise_append]
    refine ⟨h.ordered, List.pairwise_singleton _ _, fun j hj m hm => ?_⟩
    rw [List.mem_singleton.1 hm]
    exact Nat.lt_of_lt_of_le (h.bounds j hj).2 hmakes.count_le
  bounds j hj := by
    have hle := hmakes.count_le
    rw [hmakes.count_eq]
    rcases List.mem_append.1 hj with hj | hj
    · obtain ⟨hlo, hhi⟩ := h.bounds j hj
      omega
    · rw [List.mem_singleton.1 hj]
      omega

/-- If the counter does not start again, the numbers of the names grow as well, from what the
counter shows first to what it shows last. -/
theorem Numbers.mod_limit {t : NameTable} {cs : List Name} {ks : List Nat}
    (h : Numbers t base s.count s'.count cs ks)
    (hlimit : s.next + (s'.count - s.count) < limit) :
    (ks.map (· % limit)).Pairwise (· < ·) ∧
      ∀ n ∈ ks.map (· % limit), s.next ≤ n ∧ n < s'.next := by
  have hmod {k : Nat} (hk : k ∈ ks) : k % limit = s.next + (k - s.count) := by
    obtain ⟨hle, hlt⟩ := h.bounds k hk
    exact mod_limit_eq hle (by omega)
  constructor
  · rw [List.pairwise_map]
    refine h.ordered.imp_of_mem fun {i j} hi hj hij => ?_
    rw [hmod hi, hmod hj]
    have := (h.bounds i hi).1
    omega
  · intro n hn
    obtain ⟨k, hk, rfl⟩ := List.mem_map.1 hn
    obtain ⟨hle, hlt⟩ := h.bounds k hk
    have hlast : s'.next = s.next + (s'.count - s.count) := mod_limit_eq (by omega) hlimit
    rw [hmod hk, hlast]
    omega

end NameSource

end LambdaLifting
