import LambdaLifting.Proofs.Interning
import Mathlib.Data.Set.Card

namespace LambdaLifting

namespace NameSource

variable {base : String} {taken : Name → Bool} {fuel : Nat} {s s' : NameSource} {name : Name}

theorem base_of_text? {owner : Name} {text : String} (h : s.table.text? owner = some text)
    (suffix : String) :
    s.base owner suffix = .ok (if text = "" then suffix else text ++ "." ++ suffix) := by
  simp only [NameSource.base, NameTable.text, h, String.isEmpty_iff]
  rfl

def candidates (base : String) (lo hi : Nat) : List String :=
  (List.range' lo (hi - lo)).map fun k => candidate base (k % limit)

theorem candidates_self (base : String) (k : Nat) : candidates base k k = [] := by
  simp [candidates]

theorem candidates_cons {lo hi : Nat} (h : lo < hi) :
    candidates base lo hi = candidate base (lo % limit) :: candidates base (lo + 1) hi := by
  obtain ⟨k, rfl⟩ := Nat.exists_eq_add_of_lt h
  rw [candidates, candidates, show lo + k + 1 - lo = k + 1 by omega,
    show lo + k + 1 - (lo + 1) = k by omega, List.range'_succ, List.map_cons]

theorem count_lt_of_fresh (h : fresh base taken fuel s = .ok (name, s')) : s.count < s'.count := by
  obtain ⟨k, hk⟩ := makes_of_fresh h
  rw [hk.count_eq]
  exact Nat.lt_succ_of_le hk.count_le

/-- The table has the names that were tried, and no others. -/
theorem table_eq_of_fresh (h : fresh base taken fuel s = .ok (name, s')) :
    s'.table = (s.table.internAll (candidates base s.count s'.count)).2 := by
  induction fuel generalizing s with
  | zero => cases h
  | succ fuel ih =>
    rw [candidates_cons (count_lt_of_fresh h)]
    rcases fresh_cases h with ⟨-, h⟩ | ⟨-, -, rfl⟩
    · exact ih h
    · rw [count_attempt, candidates_self]
      rfl

/-- Each round of the search draws one number. -/
theorem fresh_eq_ite (h : fresh base taken fuel s = .ok (name, s')) (fuel' : Nat) :
    fresh base taken fuel' s =
      if s'.count ≤ s.count + fuel' then .ok (name, s') else .error .outOfFuel := by
  induction fuel generalizing s fuel' with
  | zero => cases h
  | succ fuel ih =>
    have hlt := count_lt_of_fresh h
    cases fuel' with
    | zero => exact (if_neg (by omega)).symm
    | succ fuel' =>
      rw [fresh_succ]
      rcases fresh_cases h with ⟨htaken, h⟩ | ⟨hfree, rfl, rfl⟩
      · rw [if_pos htaken, ih h fuel', count_attempt, Nat.add_right_comm, Nat.add_assoc]
      · rw [if_neg (by simp [hfree]), count_attempt, if_pos (by omega)]

/-- Each round but the last meets another name that is taken. -/
theorem exists_fresh_of_ncard_lt (base : String) (s : NameSource)
    (hfinite : {c | taken c = true}.Finite) (hlimit : {c | taken c = true}.ncard < limit) :
    ∃ name s', fresh base taken ({c | taken c = true}.ncard + 1) s = .ok (name, s') := by
  have hmem (c : Name) (hc : taken c = true) : c ∈ hfinite.toFinset.toList := by simpa using hc
  have hlength : hfinite.toFinset.toList.length = {c | taken c = true}.ncard := by
    rw [Finset.length_toList, ← Set.ncard_eq_toFinset_card _ hfinite]
  obtain ⟨⟨name, s'⟩, hrun⟩ :
      ∃ r, fresh base taken ({c | taken c = true}.ncard + 1) s = .ok r :=
    exists_fresh_of_length_lt hmem (hlength ▸ hlimit) (Nat.lt_succ_of_le (Nat.le_of_eq hlength))
  exact ⟨name, s', hrun⟩

/-- From `s` to `s'`, the name `c` was made from the least number from the counter on whose name is
free, and the counter did not start again. -/
structure Finds (base : String) (taken : Name → Bool) (s : NameSource) (c : Name) (n : Nat)
    (s' : NameSource) : Prop where
  next_le : s.next ≤ n
  next_eq : s'.next = n + 1
  text : s'.table.text? c = some (candidate base n)
  free : taken c = false
  skipped : ∀ m, s.next ≤ m → m < n →
    ∃ d, s'.table.text? d = some (candidate base m) ∧ taken d = true
  table_eq : s'.table =
    (s.table.internAll ((List.range' s.next (n + 1 - s.next)).map (candidate base))).2

theorem Makes.finds {k : Nat} (h : Makes base taken s name k s')
    (htable : s'.table = (s.table.internAll (candidates base s.count s'.count)).2)
    (hlimit : s.next + (s'.count - s.count) < limit) :
    Finds base taken s name (k % limit) s' := by
  have hle := h.count_le
  have hcount := h.count_eq
  have hk : k % limit = s.next + (k - s.count) := mod_limit_eq hle (by omega)
  have hlast : s'.next = s.next + (s'.count - s.count) := mod_limit_eq (by omega) hlimit
  refine ⟨by omega, by omega, h.text, h.free, fun m hm hmk => ?_, ?_⟩
  · -- The number `m` was shown at this count.
    have hmod : (s.count + (m - s.next)) % limit = m := by
      rw [mod_limit_eq (s := s) (by omega) (by omega)]
      omega
    obtain ⟨d, hd, htaken⟩ := h.skipped (s.count + (m - s.next)) (by omega) (by omega)
    exact ⟨d, hmod ▸ hd, htaken⟩
  · have hlength : s.next + (k - s.count) + 1 - s.next = s'.count - s.count := by omega
    rw [htable, candidates, hk, hlength, List.range'_eq_map_range, List.range'_eq_map_range,
      List.map_map, List.map_map]
    congr 2
    refine List.map_congr_left fun i hi => ?_
    have hi := List.mem_range.1 hi
    simp only [Function.comp_apply]
    rw [mod_limit_eq (s := s) (Nat.le_add_right _ _) (by omega), Nat.add_sub_cancel_left]

/-- If fewer names are taken than there are numbers, the search for a new name ends, after one more
round at most than names are taken. It draws the numbers that the counter shows, up to the first
whose name is free. If the counter does not start again on the way, this is the least such number.
-/
theorem exists_fresh_eq {owner : Name} {text : String} (howner : s.table.text? owner = some text)
    (suffix : String) (hfinite : {c | taken c = true}.Finite)
    (hlimit : {c | taken c = true}.ncard < limit) :
    ∃ base k name s', s.base owner suffix = .ok base ∧
      base = (if text = "" then suffix else text ++ "." ++ suffix) ∧
      (∀ fuel, fresh base taken fuel s =
        if k < s.count + fuel then .ok (name, s') else .error .outOfFuel) ∧
      k ≤ s.count + {c | taken c = true}.ncard ∧ Makes base taken s name k s' ∧
      s'.table = (s.table.internAll (candidates base s.count (k + 1))).2 ∧
      (s.next + (s'.count - s.count) < limit → Finds base taken s name (k % limit) s') := by
  obtain ⟨base, hbase⟩ : ∃ base, base = if text = "" then suffix else text ++ "." ++ suffix :=
    ⟨_, rfl⟩
  obtain ⟨name, s', hrun⟩ := exists_fresh_of_ncard_lt base s hfinite hlimit
  obtain ⟨k, hk⟩ := makes_of_fresh hrun
  have hends := fresh_eq_ite hrun
  have htable := table_eq_of_fresh hrun
  simp only [hk.count_eq, Nat.succ_le_iff] at hends
  refine ⟨base, k, name, s', hbase ▸ base_of_text? howner suffix, hbase, hends, ?_, hk,
    hk.count_eq ▸ htable, hk.finds htable⟩
  by_contra hmany
  rw [hends, if_neg (by omega)] at hrun
  cases hrun

/-- Names of an owner `p` that have the numbers 1 and 3. -/
def gappedNames : NameSource :=
  ⟨(NameTable.initial.internAll ["p", "p._lambda_1", "p._lambda_3"]).2, 1⟩

/-- Of `gappedNames`, the one with the number 1 is taken, and so is the next name that they get. -/
def gapTaken (c : Name) : Bool := c.index == 2 || c.index == 4

/-- The numbers 1 and 2 are passed over. -/
theorem exists_fresh_eq_gappedNames :
    gappedNames.table.text? ⟨1⟩ = some "p" ∧ {c | gapTaken c = true}.Finite ∧
      {c | gapTaken c = true}.ncard < limit ∧
      ∃ base k name s', gappedNames.base ⟨1⟩ "_lambda" = .ok base ∧ base = "p._lambda" ∧
        (∀ fuel, fresh base gapTaken fuel gappedNames =
          if k < 1 + fuel then .ok (name, s') else .error .outOfFuel) ∧
        k ≤ 1 + {c | gapTaken c = true}.ncard ∧ Makes base gapTaken gappedNames name k s' ∧
        s'.table = (gappedNames.table.internAll (candidates base 1 (k + 1))).2 ∧
        Finds base gapTaken gappedNames name (k % limit) s' ∧ k = 3 ∧ name = ⟨3⟩ := by
  have howner : gappedNames.table.text? ⟨1⟩ = some "p" := by decide +kernel
  have hsubset : {c | gapTaken c = true} ⊆ {⟨2⟩, ⟨4⟩} := by
    intro c hc
    cases c
    simpa [gapTaken] using hc
  have hfinite : {c | gapTaken c = true}.Finite := Set.Finite.subset (Set.toFinite _) hsubset
  have hlimit : {c | gapTaken c = true}.ncard < limit := by
    refine Nat.lt_of_le_of_lt (Set.ncard_le_ncard hsubset (Set.toFinite _)) ?_
    exact Nat.lt_of_le_of_lt (Set.ncard_insert_le _ _) (by rw [Set.ncard_singleton]; decide)
  have hrun : (fresh "p._lambda" gapTaken 3 gappedNames).toOption.map
      (fun r => (r.1, r.2.count)) = some (⟨3⟩, 4) := by decide +kernel
  obtain ⟨base, k, name, s', hbase, htext, hends, hk, hmakes, htable, hfinds⟩ :=
    exists_fresh_eq howner "_lambda" hfinite hlimit
  obtain rfl : base = "p._lambda" := htext.trans (by decide)
  rw [hends] at hrun
  split at hrun
  · obtain ⟨hname, hcount⟩ := Prod.mk.inj (Option.some.inj hrun)
    have hthree : k = 3 := Nat.succ.inj (hmakes.count_eq.symm.trans hcount)
    refine ⟨howner, hfinite, hlimit, _, k, name, s', hbase, rfl, hends, hk, hmakes, htable,
      hfinds ?_, hthree, hname⟩
    rw [hcount]
    decide
  · cases hrun

end NameSource

end LambdaLifting
