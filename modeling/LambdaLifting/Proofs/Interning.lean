import LambdaLifting.Proofs.Numbering

namespace LambdaLifting

namespace NameTable

variable {t : NameTable} {s : String} {n : Name}

theorem text?_isSome_iff (t : NameTable) (n : Name) : (t.text? n).isSome ↔ n.index < t.size := by
  simp [text?, size]

theorem mem_texts_iff (t : NameTable) (s : String) :
    s ∈ t.texts.toList ↔ ∃ n, t.text? n = some s := by
  rw [List.mem_iff_getElem?]
  constructor
  · rintro ⟨i, hi⟩
    exact ⟨⟨i⟩, by rwa [text?, ← Array.getElem?_toList]⟩
  · rintro ⟨n, hn⟩
    exact ⟨n.index, by rwa [Array.getElem?_toList]⟩

theorem intern_of_text? (h : t.text? n = some s) : t.intern s = (n, t) := by
  have hindex := (t.index_eq_some_iff s n.index).2 h
  unfold intern
  split
  · next i hi =>
    rw [hindex] at hi
    cases hi
    rfl
  · next hnone => simp [hindex] at hnone

theorem intern_of_notMem (h : s ∉ t.texts.toList) :
    (t.intern s).1 = ⟨t.size⟩ ∧ (t.intern s).2.texts = t.texts.push s := by
  unfold intern
  split
  · next i hi => exact absurd ((t.mem_texts_iff s).2 ⟨⟨i⟩, (t.index_eq_some_iff s i).1 hi⟩) h
  · exact ⟨rfl, rfl⟩

theorem extends_intern (t : NameTable) (s : String) : t.Extends (t.intern s).2 :=
  fun _ _ => t.text?_intern_of_text? s

def internAll (t : NameTable) : List String → List Name × NameTable
  | [] => ([], t)
  | s :: ss =>
    let (n, t) := t.intern s
    let (ns, t) := t.internAll ss
    (n :: ns, t)

theorem extends_internAll (t : NameTable) (ss : List String) : t.Extends (t.internAll ss).2 := by
  induction ss generalizing t with
  | nil => exact fun _ _ h => h
  | cons s ss ih => exact fun _ _ h => ih _ (t.extends_intern s h)

/-- The texts `ss` were interned in this order, and `ns` are their names. Positions were given out
one after the other, each to the first text that had none. -/
structure Records (t : NameTable) (ss : List String) (ns : List Name) : Prop where
  texts_eq : t.texts.toList = ss.eraseDups
  names_eq : ns.eraseDups = (List.range t.size).map Name.mk
  text?_eq : ns.map t.text? = ss.map some

namespace Records

variable {ss : List String} {ns : List Name}

theorem initial : initial.Records [""] [⟨0⟩] := ⟨rfl, rfl, rfl⟩

theorem mem_texts_iff (h : t.Records ss ns) (s : String) : s ∈ t.texts.toList ↔ s ∈ ss := by
  rw [h.texts_eq, List.mem_eraseDups]

theorem mem_iff (h : t.Records ss ns) (n : Name) : n ∈ ns ↔ n.index < t.size := by
  rw [← List.mem_eraseDups, h.names_eq]
  cases n
  simp

theorem exists_text (h : t.Records ss ns) (hn : n ∈ ns) : ∃ s, t.text? n = some s := by
  rw [← Option.isSome_iff_exists, text?_isSome_iff]
  exact (h.mem_iff n).1 hn

theorem text?_intern_eq (h : t.Records ss ns) (s : String) :
    ns.map (t.intern s).2.text? = ss.map some := by
  rw [← h.text?_eq]
  refine List.map_congr_left fun n hn => ?_
  obtain ⟨r, hr⟩ := h.exists_text hn
  rw [hr, t.text?_intern_of_text? s hr]

theorem intern (h : t.Records ss ns) (s : String) :
    (t.intern s).2.Records (ss ++ [s]) (ns ++ [(t.intern s).1]) := by
  have htext := t.text?_intern s
  have hold := h.text?_intern_eq s
  by_cases hmem : s ∈ t.texts.toList
  · obtain ⟨n, hn⟩ := (t.mem_texts_iff s).1 hmem
    have hs : s ∈ ss := (h.mem_texts_iff s).1 hmem
    have hns : n ∈ ns := (h.mem_iff n).2 ((t.text?_isSome_iff n).1 (by simp [hn]))
    rw [intern_of_text? hn]
    exact ⟨by simp [eraseDups_concat, hs, h.texts_eq], by simp [eraseDups_concat, hns, h.names_eq],
      by simp [h.text?_eq, hn]⟩
  · obtain ⟨hname, htexts⟩ := intern_of_notMem hmem
    have hs : s ∉ ss := fun hs => hmem ((h.mem_texts_iff s).2 hs)
    have hns : (⟨t.size⟩ : Name) ∉ ns := by simp [h.mem_iff]
    have hsize : (t.intern s).2.size = t.size + 1 := by simp [size, htexts]
    rw [hname] at htext ⊢
    exact ⟨by simp [htexts, eraseDups_concat, hs, h.texts_eq],
      by simp [eraseDups_concat, hns, h.names_eq, hsize, List.range_succ], by simp [hold, htext]⟩

theorem internAll (h : t.Records ss ns) (rs : List String) :
    (t.internAll rs).2.Records (ss ++ rs) (ns ++ (t.internAll rs).1) := by
  induction rs generalizing t ss ns with
  | nil => simpa [NameTable.internAll] using h
  | cons r rs ih => simpa [NameTable.internAll] using ih (h.intern r)

/-- Two texts have the same name exactly if they are equal. -/
theorem getElem?_eq_iff (h : t.Records ss ns) {i j : Nat} (hi : i < ss.length)
    (hj : j < ss.length) : ns[i]? = ns[j]? ↔ ss[i]? = ss[j]? := by
  have hlength : ns.length = ss.length := by simpa using congrArg List.length h.text?_eq
  have hname {k : Nat} (hk : k < ss.length) :
      ∃ n, ns[k]? = some n ∧ t.text? n = ss[k]? := by
    have hat := congrArg (·[k]?) h.text?_eq
    refine ⟨ns[k], List.getElem?_eq_getElem (hlength ▸ hk), ?_⟩
    simpa [hk, hlength] using hat
  obtain ⟨m, hm, hmtext⟩ := hname hi
  obtain ⟨n, hn, hntext⟩ := hname hj
  rw [hm, hn, ← hmtext, ← hntext, Option.some.injEq]
  refine ⟨fun heq => heq ▸ rfl, fun heq => ?_⟩
  rw [List.getElem?_eq_getElem hi] at hmtext
  exact t.text?_inj hmtext (heq ▸ hmtext)

end Records

/-- However texts are interned, the table and its index are inverse to each other. A text and its
name lead to each other, two calls give the same name exactly for the same text, and each name that
was given out still has its text. The names are numbered without gaps, in the order in which their
texts come first, from the empty text on. -/
theorem bijective_internAll (calls : List String) :
    ∃ names t, initial.internAll calls = (names, t) ∧
      (∀ (s : String) (i : Nat), t.index[s]? = some i ↔ t.texts[i]? = some s) ∧
      (∀ s, (t.intern s).2.text? (t.intern s).1 = some s) ∧
      (∀ n ∈ ⟨0⟩ :: names, ∃ s, t.text? n = some s ∧ t.intern s = (n, t)) ∧
      (∀ i j, i ≤ calls.length → j ≤ calls.length →
        ((⟨0⟩ :: names)[i]? = (⟨0⟩ :: names)[j]? ↔ ("" :: calls)[i]? = ("" :: calls)[j]?)) ∧
      (⟨0⟩ :: names).map t.text? = ("" :: calls).map some ∧
      (⟨0⟩ :: names).eraseDups = (List.range t.size).map Name.mk ∧
      t.texts.toList = ("" :: calls).eraseDups ∧
      ∀ more, t.Extends (t.internAll more).2 := by
  have h := Records.initial.internAll calls
  rcases hrun : initial.internAll calls with ⟨names, t⟩
  rw [hrun] at h
  refine ⟨names, t, rfl, t.index_eq_some_iff, t.text?_intern, fun n hn => ?_,
    fun i j hi hj => ?_, h.text?_eq, h.names_eq, h.texts_eq, t.extends_internAll⟩
  · obtain ⟨s, hs⟩ := h.exists_text hn
    exact ⟨s, hs, intern_of_text? hs⟩
  · exact h.getElem?_eq_iff (Nat.lt_succ_of_le hi) (Nat.lt_succ_of_le hj)

end NameTable

end LambdaLifting
