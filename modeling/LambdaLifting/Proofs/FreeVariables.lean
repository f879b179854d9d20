import LambdaLifting.Arena.FreeVars
import LambdaLifting.Proofs.Denotation

namespace LambdaLifting

theorem firstOccurrences_nil : firstOccurrences [] = [] := rfl

theorem firstOccurrences_go_eq (xs : List LocalId) (seen : Std.TreeSet LocalId) :
    firstOccurrences.go xs seen =
      (xs.foldr (fun x ys => x :: ys.filter (· ≠ x)) []).filter fun x => !seen.contains x := by
  induction xs generalizing seen with
  | nil => rfl
  | cons x xs ih =>
    rw [firstOccurrences.go, List.foldr_cons, List.filter_cons, List.filter_filter]
    by_cases hx : seen.contains x
    · simp only [hx, if_true, ih, Bool.not_true, Bool.false_eq_true, if_false]
      refine List.filter_congr fun y _ => ?_
      by_cases hy : y = x
      · simp [hy, hx]
      · simp [hy]
    · simp only [hx, ih, Bool.false_eq_true, if_false, Bool.not_false, if_true]
      refine congrArg _ (List.filter_congr fun y _ => ?_)
      by_cases hy : y = x
      · simp [hy, Std.TreeSet.contains_insert]
      · simp [hy, Ne.symm hy, Std.TreeSet.contains_insert]

theorem firstOccurrences_cons (x : LocalId) (xs : List LocalId) :
    firstOccurrences (x :: xs) = x :: (firstOccurrences xs).filter (· ≠ x) := by
  have h (ys : List LocalId) : firstOccurrences ys =
      ys.foldr (fun x ys => x :: ys.filter (· ≠ x)) [] := by
    rw [firstOccurrences, firstOccurrences_go_eq]
    simp
  rw [h, h, List.foldr_cons]

theorem firstOccurrences_filter (p : LocalId → Bool) (xs : List LocalId) :
    firstOccurrences (xs.filter p) = (firstOccurrences xs).filter p := by
  induction xs with
  | nil => rfl
  | cons x xs ih =>
    rw [firstOccurrences_cons, List.filter_cons, List.filter_cons]
    split
    · rw [firstOccurrences_cons, ih, List.filter_filter, List.filter_filter]
      exact congrArg _ (List.filter_congr fun y _ => Bool.and_comm ..)
    · next hx =>
      rw [ih, List.filter_filter]
      refine List.filter_congr fun y _ => ?_
      by_cases hy : y = x
      · simp [hy, hx]
      · simp [hy]

theorem firstOccurrences_append (xs ys : List LocalId) :
    firstOccurrences (xs ++ ys) =
      firstOccurrences xs ++ (firstOccurrences ys).filter (· ∉ xs) := by
  induction xs with
  | nil => simp [firstOccurrences_nil]
  | cons x xs ih =>
    rw [List.cons_append, firstOccurrences_cons, firstOccurrences_cons, ih, List.filter_append,
      List.filter_filter, List.cons_append]
    simp [not_or]

theorem firstOccurrences_firstOccurrences (xs : List LocalId) :
    firstOccurrences (firstOccurrences xs) = firstOccurrences xs := by
  induction xs with
  | nil => rfl
  | cons x xs ih =>
    rw [firstOccurrences_cons, firstOccurrences_cons, firstOccurrences_filter, ih,
      List.filter_filter]
    simp

/-- Repetitions may be dropped on both sides first. -/
theorem firstOccurrences_append_firstOccurrences (xs ys : List LocalId) :
    firstOccurrences (firstOccurrences xs ++ firstOccurrences ys) =
      firstOccurrences (xs ++ ys) := by
  rw [firstOccurrences_append, firstOccurrences_append, firstOccurrences_firstOccurrences,
    firstOccurrences_firstOccurrences]
  simp only [mem_firstOccurrences]

theorem firstOccurrences_flatten (xss : List (List LocalId)) :
    firstOccurrences (xss.map firstOccurrences).flatten = firstOccurrences xss.flatten := by
  induction xss with
  | nil => rfl
  | cons xs xss ih =>
    rw [List.map_cons, List.flatten_cons, List.flatten_cons,
      ← firstOccurrences_append_firstOccurrences, firstOccurrences_firstOccurrences, ih,
      firstOccurrences_append_firstOccurrences]

theorem firstOccurrences_eq_eraseDups (xs : List LocalId) : firstOccurrences xs = xs.eraseDups := by
  induction hn : xs.length using Nat.strongRecOn generalizing xs with
  | ind n ih =>
    cases xs with
    | nil => rfl
    | cons x xs =>
      have hlt : (xs.filter fun y => !y == x).length < n :=
        hn ▸ Nat.lt_succ_of_le (List.length_filter_le _ xs)
      rw [firstOccurrences_cons, ← firstOccurrences_filter, List.eraseDups_cons, ← ih _ hlt _ rfl]
      simp only [beq_eq_decide, ne_eq, decide_not]

namespace Arena

variable {a : Arena}

def FreeMemo.Sound (m : FreeMemo) (a : Arena) : Prop :=
  ∀ e xs, m[e]? = some xs → ∃ t, a.term? e = some t ∧ xs = firstOccurrences t.occurrences

theorem FreeMemo.Sound.insert {m : FreeMemo} (h : m.Sound a) {e : ExprId} {t : Term}
    (ht : a.term? e = some t) : Sound (m.insert e (firstOccurrences t.occurrences)) a := by
  intro e' xs h'
  rw [Std.TreeMap.getElem?_insert] at h'
  by_cases he : e = e'
  · subst he
    simp only [Std.compare_self, if_true, Option.some.injEq] at h'
    exact ⟨t, ht, h'.symm⟩
  · simp only [Std.LawfulEqOrd.compare_eq_iff_eq, he, if_false] at h'
    exact h e' xs h'

/-- A walk lists the free variables of a node, and remembers right results. -/
def Lists (a : Arena) (x : StateT FreeMemo (Except Fault) (List LocalId)) (t : Term) : Prop :=
  ∀ m : FreeMemo, m.Sound a →
    Yields x m fun xs m' => xs = firstOccurrences t.occurrences ∧ m'.Sound a

theorem lists_mapM {walk : ExprId → StateT FreeMemo (Except Fault) (List LocalId)}
    {es : List ExprId} {ts : List Term} (hes : a.Denote es ts)
    (hwalk : ∀ e ∈ es, ∀ t, a.term? e = some t → a.Lists (walk e) t) {m : FreeMemo}
    (hm : m.Sound a) :
    Yields (es.mapM walk) m fun xss m' =>
      xss = (ts.map Term.occurrences).map firstOccurrences ∧ m'.Sound a := by
  induction hes generalizing m with
  | nil => exact .pure ⟨rfl, hm⟩
  | cons he _ ih =>
    obtain ⟨hhead, htail⟩ := List.forall_mem_cons.1 hwalk
    rw [List.mapM_cons]
    refine (hhead _ he m hm).bind ?_
    rintro _ m₁ ⟨rfl, hm₁⟩
    refine (ih htail hm₁).bind ?_
    rintro _ m₂ ⟨rfl, hm₂⟩
    exact .pure ⟨rfl, hm₂⟩

theorem lists_freeVarsOfNode {walk : ExprId → StateT FreeMemo (Except Fault) (List LocalId)}
    {n : Node} {t : Term} (h : a.Shows n t)
    (hwalk : ∀ e ∈ n.children, ∀ t, a.term? e = some t → a.Lists (walk e) t) :
    a.Lists (freeVarsOfNode walk n) t := by
  intro m hm
  cases h with
  | var x => exact .pure ⟨rfl, hm⟩
  | global c => exact .pure ⟨rfl, hm⟩
  | lit l => exact .pure ⟨rfl, hm⟩
  | @app head args f xs hf hxs =>
    refine (lists_mapM (.cons hf hxs) hwalk hm).bind ?_
    rintro _ m' ⟨rfl, hm'⟩
    refine .pure ⟨?_, hm'⟩
    rw [firstOccurrences_flatten, Term.occurrences_apply, ← List.flatMap_def, List.flatMap_cons]
  | @lam b body u hu =>
    refine (hwalk body (by simp [Node.children]) u hu m hm).bind ?_
    rintro _ m' ⟨rfl, hm'⟩
    exact .pure ⟨(firstOccurrences_filter _ _).symm, hm'⟩
  | @letIn b value body v u hv hu =>
    refine (hwalk value (by simp [Node.children]) v hv m hm).bind ?_
    rintro _ m₁ ⟨rfl, hm₁⟩
    refine (hwalk body (by simp [Node.children]) u hu m₁ hm₁).bind ?_
    rintro _ m₂ ⟨rfl, hm₂⟩
    refine .pure ⟨?_, hm₂⟩
    rw [← firstOccurrences_filter, firstOccurrences_append_firstOccurrences]
    rfl

theorem lists_freeVarsFrom (ha : a.WellFormed) {fuel : Nat} {e : ExprId} {t : Term}
    (he : a.term? e = some t) (hfuel : e.index < fuel) : a.Lists (a.freeVarsFrom fuel e) t := by
  induction fuel generalizing e t with
  | zero => omega
  | succ fuel ih =>
    intro m hm
    rw [freeVarsFrom]
    refine (Yields.get m).bind ?_
    rintro _ _ ⟨rfl, rfl⟩
    split
    · next xs hxs =>
      obtain ⟨u, hu, rfl⟩ := hm e xs hxs
      cases he.symm.trans hu
      exact .pure ⟨rfl, hm⟩
    · obtain ⟨n, hn⟩ := node?_of_term? he
      refine (Yields.lift (node_of_node? hn) m).bind ?_
      rintro _ _ ⟨rfl, rfl⟩
      have hnode := lists_freeVarsOfNode (ha.shows_of_node? he hn) fun c hc u hu =>
        ih hu (by have := ha.child_lt hn c hc; omega)
      refine (hnode m hm).bind ?_
      rintro _ m' ⟨rfl, hm'⟩
      refine (Yields.modify _ m').bind ?_
      rintro _ _ rfl
      exact .pure ⟨rfl, hm'.insert he⟩

theorem freeVars_eq_ok (ha : a.WellFormed) {e : ExprId} {t : Term} (he : a.term? e = some t) :
    a.freeVars e = .ok (firstOccurrences t.occurrences) := by
  have hempty : FreeMemo.Sound ∅ a := fun e xs h => by simp at h
  obtain ⟨_, _, h, rfl, -⟩ :=
    (lists_freeVarsFrom ha he (index_lt_depthBound he) ∅ hempty).run'_eq_ok
  exact h

def Excluded (a : Arena) (x : LocalId) (seen : Std.TreeSet ExprId) : Prop :=
  ∀ e ∈ seen, ∃ t, a.term? e = some t ∧ x ∉ t.occurrences

/-- A walk decides whether `x` is free, and remembers nodes in which it is not. -/
def Decides (a : Arena) (x : LocalId) (w : StateT (Std.TreeSet ExprId) (Except Fault) Bool)
    (p : Prop) : Prop :=
  ∀ seen, a.Excluded x seen → Yields w seen fun found seen' => (found ↔ p) ∧ a.Excluded x seen'

variable {x : LocalId} {walk : ExprId → StateT (Std.TreeSet ExprId) (Except Fault) Bool}

theorem decides_anyM {es : List ExprId} {ts : List Term} (hes : a.Denote es ts)
    (hwalk : ∀ e ∈ es, ∀ t, a.term? e = some t → a.Decides x (walk e) (x ∈ t.occurrences)) :
    a.Decides x (es.anyM walk) (∃ t ∈ ts, x ∈ t.occurrences) := by
  induction hes with
  | nil => exact fun seen h => .pure ⟨by simp, h⟩
  | cons he _ ih =>
    intro seen hseen
    obtain ⟨hhead, htail⟩ := List.forall_mem_cons.1 hwalk
    refine (hhead _ he seen hseen).bind ?_
    rintro found seen' ⟨hfound, hseen'⟩
    cases found with
    | true => exact .pure ⟨by simp [← hfound], hseen'⟩
    | false =>
      refine (ih htail seen' hseen').imp fun found' seen'' ⟨hfound', h⟩ => ⟨?_, h⟩
      simpa [← hfound] using hfound'

theorem decides_hasFreeInNode {n : Node} {t : Term} (h : a.Shows n t)
    (hwalk : ∀ e ∈ n.children, ∀ t, a.term? e = some t →
      a.Decides x (walk e) (x ∈ t.occurrences)) :
    a.Decides x (hasFreeInNode x walk n) (x ∈ t.occurrences) := by
  intro seen hseen
  cases h with
  | var y => exact .pure ⟨by simp [Term.occurrences, @eq_comm _ y x], hseen⟩
  | global c => exact .pure ⟨by simp [Term.occurrences], hseen⟩
  | lit l => exact .pure ⟨by simp [Term.occurrences], hseen⟩
  | @app head args f xs hf hxs =>
    refine (decides_anyM (.cons hf hxs) hwalk seen hseen).imp ?_
    rintro found seen' ⟨hfound, h⟩
    exact ⟨by rw [hfound, Term.mem_occurrences_apply]; simp, h⟩
  | @lam b body u hu =>
    rw [hasFreeInNode]
    split
    · next hb => exact .pure ⟨by simp [Term.occurrences, hb], hseen⟩
    · next hb =>
      refine (hwalk body (by simp [Node.children]) u hu seen hseen).imp ?_
      rintro found seen' ⟨hfound, h⟩
      exact ⟨by simp [hfound, Term.occurrences, Ne.symm hb], h⟩
  | @letIn b value body v u hv hu =>
    refine (hwalk value (by simp [Node.children]) v hv seen hseen).bind ?_
    rintro found seen' ⟨hfound, hseen'⟩
    cases found with
    | true => exact .pure ⟨by simp [Term.occurrences, ← hfound], hseen'⟩
    | false =>
      simp only [Bool.false_eq_true, if_false]
      split
      · next hb => exact .pure ⟨by simp [Term.occurrences, ← hfound, hb], hseen'⟩
      · next hb =>
        refine (hwalk body (by simp [Node.children]) u hu seen' hseen').imp ?_
        rintro found seen'' ⟨hfound', h⟩
        exact ⟨by simp [hfound', Term.occurrences, ← hfound, Ne.symm hb], h⟩

theorem decides_hasFreeFrom (ha : a.WellFormed) {fuel : Nat} {e : ExprId} {t : Term}
    (he : a.term? e = some t) (hfuel : e.index < fuel) :
    a.Decides x (a.hasFreeFrom x fuel e) (x ∈ t.occurrences) := by
  induction fuel generalizing e t with
  | zero => omega
  | succ fuel ih =>
    intro seen hseen
    rw [hasFreeFrom]
    refine (Yields.get seen).bind ?_
    rintro _ _ ⟨rfl, rfl⟩
    split
    · next h =>
      obtain ⟨u, hu, hx⟩ := hseen e (Std.TreeSet.contains_iff_mem.1 h)
      cases he.symm.trans hu
      exact .pure ⟨by simp [hx], hseen⟩
    · obtain ⟨n, hn⟩ := node?_of_term? he
      refine (Yields.lift (node_of_node? hn) seen).bind ?_
      rintro _ _ ⟨rfl, rfl⟩
      have hnode := decides_hasFreeInNode (ha.shows_of_node? he hn) fun c hc u hu =>
        ih hu (by have := ha.child_lt hn c hc; omega)
      refine (hnode seen hseen).bind ?_
      rintro found seen' ⟨hfound, hseen'⟩
      -- A node is marked after its subterms, and only if the answer is negative.
      cases found with
      | true => exact .pure ⟨hfound, hseen'⟩
      | false =>
        refine (Yields.modify _ seen').bind ?_
        rintro _ _ rfl
        refine .pure ⟨hfound, fun c hc => ?_⟩
        rcases Std.TreeSet.mem_insert.1 hc with hc | hc
        · exact Std.LawfulEqOrd.eq_of_compare hc ▸ ⟨t, he, by simp [← hfound]⟩
        · exact hseen' c hc

theorem hasFree_eq_ok (ha : a.WellFormed) (x : LocalId) {e : ExprId} {t : Term}
    (he : a.term? e = some t) : a.hasFree x e = .ok (decide (x ∈ t.occurrences)) := by
  have hempty : a.Excluded x ∅ := fun e h => by simp at h
  obtain ⟨found, _, h, hfound, -⟩ :=
    (decides_hasFreeFrom ha he (index_lt_depthBound he) ∅ hempty).run'_eq_ok
  rw [hasFree, h, Bool.eq_iff_iff.2 (hfound.trans decide_eq_true_iff.symm)]

/-- However nodes are shared and binders hide one another, the variables found are the free
occurrences of the tree without later repetitions, and a variable is found free if it is listed. -/
theorem freeVars_eq_eraseDups (ha : a.WellFormed) {e : ExprId} (he : e.index < a.size) :
    ∃ t xs, a.term? e = some t ∧ xs = t.occurrences.eraseDups ∧ a.freeVars e = .ok xs ∧
      ∀ x, a.hasFree x e = .ok (decide (x ∈ xs)) := by
  obtain ⟨t, ht⟩ := ha.exists_term he
  refine ⟨t, _, ht, firstOccurrences_eq_eraseDups t.occurrences, freeVars_eq_ok ha ht, fun x => ?_⟩
  simp only [hasFree_eq_ok ha x ht, mem_firstOccurrences]

/-- The term `(λ x, x y) (let y := λ x, x y in x y) (x y)`, with one node for all three `x y` and
one for both lambdas. -/
def hidingArena : Arena :=
  .ofNodes [.var ⟨0⟩, .var ⟨1⟩, .app ⟨0⟩ [⟨1⟩], .lam ⟨⟨0⟩, ⟨0⟩⟩ ⟨2⟩, .letIn ⟨⟨1⟩, ⟨1⟩⟩ ⟨3⟩ ⟨2⟩,
    .app ⟨3⟩ [⟨4⟩, ⟨2⟩]] 2

/-- The first `x` is hidden and the first `y` is not, so `y` is listed first. -/
theorem freeVars_hidingArena : hidingArena.WellFormed ∧ 5 < hidingArena.size ∧
    hidingArena.freeVars ⟨5⟩ = .ok [⟨1⟩, ⟨0⟩] ∧
    ∀ x, hidingArena.hasFree x ⟨5⟩ = .ok (decide (x ∈ [⟨1⟩, ⟨0⟩])) := by
  have hwf : hidingArena.WellFormed := by decide +kernel
  have hsize : 5 < hidingArena.size := by decide
  obtain ⟨t, _, ht, rfl, hfree, hhas⟩ := freeVars_eq_eraseDups (e := ⟨5⟩) hwf hsize
  have hlist : (hidingArena.term? ⟨5⟩).map (·.occurrences.eraseDups) = some [⟨1⟩, ⟨0⟩] := by
    decide +kernel
  rw [ht] at hlist
  obtain hlist : t.occurrences.eraseDups = [⟨1⟩, ⟨0⟩] := Option.some.inj hlist
  rw [hlist] at hfree
  exact ⟨hwf, hsize, hfree, by simpa only [hlist] using hhas⟩

end Arena

end LambdaLifting
