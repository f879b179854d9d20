import LambdaLifting.Arena.Substitution
import LambdaLifting.Proofs.Denotation

namespace LambdaLifting

namespace Substitution

/-- The terms of a substitution stand for the trees of a replacement. -/
def Means (S : Substitution) (a : Arena) (s : Replacement) : Prop :=
  ∀ x, (S[x]? = none ∧ s x = none) ∨ ∃ e t, S[x]? = some e ∧ s x = some t ∧ a.term? e = some t

variable {S : Substitution} {a b : Arena} {s : Replacement}

theorem means_empty (a : Arena) : Means ∅ a Replacement.empty :=
  fun _ => .inl ⟨by simp, rfl⟩

theorem Means.mono (h : S.Means a s) (hab : a.Extends b) : S.Means b s := by
  intro x
  obtain h | ⟨e, t, he, ht, h⟩ := h x
  · exact .inl h
  · exact .inr ⟨e, t, he, ht, hab.term?_eq_some h⟩

theorem Means.insert (h : S.Means a s) (x : LocalId) {e : ExprId} {t : Term}
    (he : a.term? e = some t) : Means (S.insert x e) a (s.add x t) := by
  intro y
  rw [Std.TreeMap.getElem?_insert]
  by_cases hy : x = y
  · subst hy
    exact .inr ⟨e, t, by simp, by simp, he⟩
  · simpa [hy, Replacement.add_of_ne s t (Ne.symm hy)] using h y

theorem Means.erase (h : S.Means a s) (x : LocalId) : Means (S.erase x) a (s.hide x) := by
  intro y
  rw [Std.TreeMap.getElem?_erase]
  by_cases hy : x = y
  · exact .inl ⟨by simp [hy], by simp [hy, Replacement.hide]⟩
  · simpa [hy, Replacement.hide, Ne.symm hy] using h y

theorem Means.eq_none (h : S.Means a s) {x : LocalId} (hx : S[x]? = none) : s x = none := by
  obtain h | ⟨e, t, he, -, -⟩ := h x
  · exact h.2
  · simp [hx] at he

theorem Means.eq_empty (h : S.Means a s) (hS : S.isEmpty) : s = Replacement.empty := by
  funext x
  have hx := Std.TreeMap.isEmpty_iff_forall_not_mem.1 hS x
  exact h.eq_none (Std.TreeMap.getElem?_eq_none hx)

theorem Means.hide_eq (h : S.Means a s) {x : LocalId} (hx : ¬ S.contains x) : s.hide x = s := by
  funext y
  by_cases hy : y = x
  · subst hy
    rw [h.eq_none (Std.TreeMap.getElem?_eq_none (by simpa using hx))]
    simp [Replacement.hide]
  · simp [Replacement.hide, hy]

def replacement (S : Substitution) (a : Arena) : Replacement := fun x => S[x]?.bind a.term?

theorem means_replacement
    (hS : ∀ (x : LocalId) (e : ExprId), S[x]? = some e → ∃ t, a.term? e = some t) :
    S.Means a (S.replacement a) := by
  intro x
  cases hx : S[x]? with
  | none => exact .inl ⟨rfl, by simp [replacement, hx]⟩
  | some e =>
    obtain ⟨t, ht⟩ := hS x e hx
    exact .inr ⟨e, t, rfl, by simp [replacement, hx, ht], ht⟩

end Substitution

namespace ArenaM

namespace SubstMemo

def Sound (m : SubstMemo) (a : Arena) (s : Replacement) : Prop :=
  ∀ e r, m[e]? = some r → ∃ t, a.term? e = some t ∧ a.term? r = some (t.substitute s)

variable {m : SubstMemo} {a b : Arena} {s : Replacement}

theorem sound_empty (a : Arena) (s : Replacement) : Sound ∅ a s := by
  intro e r h
  simp at h

theorem Sound.mono (h : m.Sound a s) (hab : a.Extends b) : m.Sound b s := by
  intro e r hr
  obtain ⟨t, ht, hu⟩ := h e r hr
  exact ⟨t, hab.term?_eq_some ht, hab.term?_eq_some hu⟩

theorem Sound.insert (h : m.Sound a s) {e r : ExprId} {t : Term} (ht : a.term? e = some t)
    (hr : a.term? r = some (t.substitute s)) : Sound (m.insert e r) a s := by
  intro e' r' h'
  rw [Std.TreeMap.getElem?_insert] at h'
  by_cases he : e = e'
  · subst he
    simp only [Std.compare_self, if_true, Option.some.injEq] at h'
    exact ⟨t, ht, h' ▸ hr⟩
  · simp only [Std.LawfulEqOrd.compare_eq_iff_eq, he, if_false] at h'
    exact h e' r' h'

end SubstMemo

/-- A computation stores nodes, remembers right results and returns an answer in `Q`. -/
def Memoizes {α : Type} (x : StateT SubstMemo ArenaM α) (a : Arena) (s : Replacement)
    (Q : α → Arena → Prop) : Prop :=
  ∀ m : SubstMemo, m.Sound a s →
    YieldsWith x m a fun v m' b => a.Grows b ∧ m'.Sound b s ∧ Q v b

variable {a : Arena} {s : Replacement}

namespace Memoizes

variable {α β : Type} {P : α → Arena → Prop} {Q : β → Arena → Prop}

theorem pure (ha : a.WellFormed) {v : α} (h : P v a) : Memoizes (Pure.pure v) a s P :=
  fun _ hm => .pure ⟨.refl ha, hm, h⟩

theorem lift {x : ArenaM α} (hx : Yields x a fun v b => a.Grows b ∧ P v b) :
    Memoizes (liftM x) a s P := by
  intro m hm
  refine (YieldsWith.lift hx).imp ?_
  rintro v _ b ⟨rfl, hab, hv⟩
  exact ⟨hab, hm.mono hab.isExtension, hv⟩

theorem bind {x : StateT SubstMemo ArenaM α} {f : α → StateT SubstMemo ArenaM β}
    (hx : Memoizes x a s P) (hf : ∀ v b, a.Grows b → P v b → Memoizes (f v) b s Q) :
    Memoizes (x >>= f) a s Q := by
  intro m hm
  refine (hx m hm).bind fun v m₁ b ⟨hab, hm₁, hv⟩ => ?_
  refine (hf v b hab hv m₁ hm₁).imp fun u m₂ c ⟨hbc, hm₂, hu⟩ => ?_
  exact ⟨hab.trans hbc, hm₂, hu⟩

end Memoizes

/-- A walk substitutes at nodes below `n`. -/
def Walks (walk : Substitution → ExprId → StateT SubstMemo ArenaM ExprId) (n : Nat) : Prop :=
  ∀ ⦃a : Arena⦄ ⦃s : Replacement⦄ ⦃S : Substitution⦄ ⦃e : ExprId⦄ ⦃t : Term⦄, a.WellFormed →
    S.Means a s → a.term? e = some t → e.index < n →
    Memoizes (walk S e) a s fun r b => b.term? r = some (t.substitute s)

namespace Walks

variable {walk : Substitution → ExprId → StateT SubstMemo ArenaM ExprId} {n : Nat}
  {S : Substitution}

theorem under (hwalk : Walks walk n) (ha : a.WellFormed) (hS : S.Means a s) (b : Binder)
    {body : ExprId} {t : Term} (ht : a.term? body = some t) (hn : body.index < n) :
    Memoizes (substituteUnder walk S b body) a s
      fun r b' => b'.term? r = some (t.substitute (s.hide b.id)) := by
  rw [substituteUnder]
  split
  · have hS' := hS.erase b.id
    dsimp only
    split
    · next hempty =>
      rw [hS'.eq_empty hempty, Term.substitute_empty]
      exact .pure ha ht
    -- Fewer variables are replaced here, so results from outside do not hold; a new memo is used.
    · have h := (hwalk ha hS' ht hn ∅ (SubstMemo.sound_empty a _)).run'
      exact .lift (h.imp fun r b' ⟨_, hab, _, hr⟩ => ⟨hab, hr⟩)
  · next hb =>
    rw [hS.hide_eq hb]
    exact hwalk ha hS ht hn

theorem mapM (hwalk : Walks walk n) (ha : a.WellFormed) (hS : S.Means a s)
    {es : List ExprId} {ts : List Term} (hes : a.Denote es ts) (hn : ∀ e ∈ es, e.index < n) :
    Memoizes (es.mapM (walk S)) a s fun rs b => b.Denote rs (ts.map (Term.substitute s)) := by
  induction es generalizing a ts with
  | nil =>
    cases hes
    exact .pure ha .nil
  | cons e es ih =>
    obtain ⟨t, ts, he, htail, rfl⟩ := List.forall₂_cons_left_iff.1 hes
    obtain ⟨hn, hns⟩ := List.forall_mem_cons.1 hn
    rw [List.mapM_cons]
    refine (hwalk ha hS he hn).bind fun r b hab hr => ?_
    have hext := hab.isExtension
    refine (ih hab.wellFormed (hS.mono hext) (hext.denote htail) hns).bind fun rs c hbc hrs => ?_
    exact .pure hbc.wellFormed (.cons (hbc.isExtension.term?_eq_some hr) hrs)

theorem node (hwalk : Walks walk n) (ha : a.WellFormed) (hS : S.Means a s) {e : ExprId}
    {t : Term} {k : Node} (hk : a.node? e = some k) (ht : a.term? e = some t) (hn : e.index ≤ n) :
    Memoizes (substituteNode walk S e k) a s fun r b => b.term? r = some (t.substitute s) := by
  have child (c : ExprId) (hc : c ∈ k.children) : c.index < n :=
    Nat.lt_of_lt_of_le (ha.child_lt hk c hc) hn
  -- A node whose children stay as they are is its own result.
  have keep {b : Arena} (hab : a.Grows b) (h : t.substitute s = t) :
      Memoizes (Pure.pure e) b s fun r b => b.term? r = some (t.substitute s) :=
    .pure hab.wellFormed (by rw [h]; exact hab.isExtension.term?_eq_some ht)
  cases ha.shows_of_node? ht hk with
  | var x =>
    rw [substituteNode, Std.TreeMap.getD_eq_getD_getElem?, Term.substitute]
    obtain ⟨hx, hs⟩ | ⟨r, u, hx, hs, hu⟩ := hS x
    · rw [hx, hs]
      exact .pure ha ht
    · rw [hx, hs]
      exact .pure ha hu
  | global c => exact .pure ha ht
  | lit l => exact .pure ha ht
  | @app head args f xs hf hxs =>
    obtain ⟨hhead, hargs⟩ := List.forall_mem_cons.1 child
    refine (hwalk ha hS hf hhead).bind fun head' b hab hf' => ?_
    have hext := hab.isExtension
    refine (hwalk.mapM hab.wellFormed (hS.mono hext) (hext.denote hxs) hargs).bind
      fun args' c hbc hxs' => ?_
    have hf' := hbc.isExtension.term?_eq_some hf'
    have hac := hab.trans hbc
    split
    · next heq =>
      obtain ⟨rfl, rfl⟩ := heq
      rw [hac.isExtension.term?_eq_some hf] at hf'
      have hxs' := (hac.isExtension.denote hxs).unique hxs'
      exact keep hac (by rw [Term.substitute_apply, ← Option.some.inj hf', ← hxs'])
    · rw [Term.substitute_apply]
      exact .lift (builds_mkApp hbc.wellFormed hf' hxs')
  | @lam c body u hu =>
    refine (hwalk.under ha hS c hu (child body (by simp [Node.children]))).bind
      fun body' b hab hu' => ?_
    split
    · next heq =>
      subst heq
      rw [hab.isExtension.term?_eq_some hu] at hu'
      exact keep hab (by rw [Term.substitute_lam, ← Option.some.inj hu'])
    · exact .lift (builds_push hab.wellFormed (.lam hu') (by simp))
  | @letIn c value body v u hv hu =>
    refine (hwalk ha hS hv (child value (by simp [Node.children]))).bind
      fun value' b hab hv' => ?_
    have hext := hab.isExtension
    refine (hwalk.under hab.wellFormed (hS.mono hext) c (hext.term?_eq_some hu)
      (child body (by simp [Node.children]))).bind fun body' d hbd hu' => ?_
    have hv' := hbd.isExtension.term?_eq_some hv'
    have had := hab.trans hbd
    split
    · next heq =>
      obtain ⟨rfl, rfl⟩ := heq
      rw [had.isExtension.term?_eq_some hv] at hv'
      rw [had.isExtension.term?_eq_some hu] at hu'
      exact keep had (by rw [Term.substitute_letIn, ← Option.some.inj hv', ← Option.some.inj hu'])
    · exact .lift (builds_push hbd.wellFormed (.letIn hv' hu') (by simp))

end Walks

theorem walks_substituteFrom (fuel : Nat) : Walks (substituteFrom fuel) fuel := by
  induction fuel with
  | zero => intro a s S e t ha hS he hfuel; omega
  | succ fuel ih =>
    intro a s S e t ha hS he hfuel m hm
    rw [substituteFrom]
    refine YieldsWith.bind .get ?_
    rintro _ _ _ ⟨rfl, rfl, rfl⟩
    split
    · next r hr =>
      obtain ⟨u, hu, hr⟩ := hm e r hr
      cases he.symm.trans hu
      exact .pure ⟨.refl ha, hm, hr⟩
    · obtain ⟨k, hk⟩ := Arena.node?_of_term? he
      refine YieldsWith.bind (.lift (yields_node hk)) ?_
      rintro _ _ _ ⟨rfl, rfl, rfl⟩
      refine (ih.node ha hS hk he (by omega) _ hm).bind fun r m' b ⟨hab, hm', hr⟩ => ?_
      refine YieldsWith.modify.bind ?_
      rintro _ _ _ ⟨rfl, rfl⟩
      exact .pure ⟨hab, hm'.insert (hab.isExtension.term?_eq_some he) hr, hr⟩

theorem builds_substitute {S : Substitution} {e : ExprId} {t : Term} (ha : a.WellFormed)
    (hS : S.Means a s) (he : a.term? e = some t) : Builds (substitute S e) a (t.substitute s) := by
  rw [substitute]
  split
  · next hempty =>
    rw [hS.eq_empty hempty, Term.substitute_empty]
    exact builds_pure ha he
  · refine (Yields.get a).bind ?_
    rintro _ _ ⟨rfl, rfl⟩
    have hfuel := Arena.index_lt_depthBound he
    refine (walks_substituteFrom _ ha hS he hfuel ∅ (SubstMemo.sound_empty a s)).run'.imp ?_
    rintro r b ⟨_, hab, -, hr⟩
    exact ⟨hab, hr⟩

theorem builds_instantiate {e value : ExprId} {t v : Term} (ha : a.WellFormed)
    (he : a.term? e = some t) (x : LocalId) (hv : a.term? value = some v) :
    Builds (instantiate e x value) a (t.substitute (Replacement.empty.add x v)) :=
  builds_substitute ha ((Substitution.means_empty a).insert x hv) he

end ArenaM

end LambdaLifting
