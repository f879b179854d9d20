import LambdaLifting.Proofs.Substitution
import LambdaLifting.Proofs.Traversal

namespace LambdaLifting

/-- One application, lambda or local definition was made from another. -/
inductive Node.Copies : Node → Node → Prop where
  | app (head args head' args') : Copies (.app head args) (.app head' args')
  | lam (b body body') : Copies (.lam b body) (.lam b body')
  | letIn (b value body value' body') : Copies (.letIn b value body) (.letIn b value' body')

namespace Substitution

/-- No variable that is replaced is free in the tree. -/
def Misses (S : Substitution) (t : Term) : Prop := ∀ x ∈ t.occurrences, x ∉ S

/-- One variable is replaced, or none that is bound in the tree. -/
def Spares (S : Substitution) (t : Term) : Prop := S.size = 1 ∨ ∀ x ∈ t.binders, x ∉ S

variable {S : Substitution} {t : Term}

theorem Spares.of_binders (h : S.Spares t) {u : Term} (hu : ∀ x ∈ u.binders, x ∈ t.binders) :
    S.Spares u :=
  h.imp id fun h x hx => h x (hu x hx)

/-- Below a binder of a replaced variable, nothing is left to replace. -/
theorem Spares.isEmpty_erase (h : S.Spares t) {x : LocalId} (hx : x ∈ t.binders)
    (hS : S.contains x) : (S.erase x).isEmpty := by
  have hmem : x ∈ S := Std.TreeMap.contains_iff_mem.1 hS
  rcases h with h | h
  · rw [Std.TreeMap.isEmpty_eq_size_eq_zero, Std.TreeMap.size_erase]
    simp [hmem, h]
  · exact absurd hmem (h x hx)

theorem misses_erase {x : LocalId} (h : ∀ y ∈ t.occurrences.filter (· ≠ x), y ∉ S) :
    Misses (S.erase x) t := by
  intro y hy hmem
  rw [Std.TreeMap.mem_erase] at hmem
  have hne : y ≠ x := fun heq => hmem.1 (by simp [heq])
  exact h y (List.mem_filter.2 ⟨hy, by simpa using hne⟩) hmem.2

theorem misses_of_not_contains {x : LocalId} (hx : ¬ S.contains x)
    (h : ∀ y ∈ t.occurrences.filter (· ≠ x), y ∉ S) : S.Misses t := by
  intro y hy hmem
  have hne : y ≠ x := fun heq => hx (Std.TreeMap.contains_iff_mem.2 (heq ▸ hmem))
  exact h y (List.mem_filter.2 ⟨hy, by simpa using hne⟩) hmem

end Substitution

namespace Arena

variable {a : Arena} {S : Substitution} {e : ExprId} {t : Term}

def store (a : Arena) (new : List Node) : Arena := new.foldl push a

theorem store_nil (a : Arena) : a.store [] = a := rfl

theorem store_append (a : Arena) (new more : List Node) :
    a.store (new ++ more) = (a.store new).store more :=
  List.foldl_append

theorem extends_store (a : Arena) (new : List Node) : a.Extends (a.store new) := by
  induction new generalizing a with
  | nil => exact .refl a
  | cons n new ih => exact (a.extends_push n).trans (ih (a.push n))

def Copied (a : Arena) (d : ExprId) (new : Node) : Prop := ∃ n, a.node? d = some n ∧ n.Copies new

/-- A variable that is replaced is free under the node. -/
def Affected (a : Arena) (S : Substitution) (e : ExprId) : Prop :=
  ∃ t, a.term? e = some t ∧ ∃ x ∈ t.occurrences, x ∈ S

/-- A node that a substitution in `e` may have to copy. -/
def Touches (a : Arena) (S : Substitution) (e d : ExprId) : Prop := d ∈ a.visits e ∧ a.Affected S d

def TouchesBelow (a : Arena) (S : Substitution) (n : Node) (d : ExprId) : Prop :=
  ∃ c ∈ n.children, a.Touches S c d

theorem WellFormed.index_le_of_mem_visits (ha : a.WellFormed) (he : a.term? e = some t)
    {d : ExprId} (hd : d ∈ a.visits e) : d.index ≤ e.index := by
  refine ha.term_induction (P := fun e _ => d ∈ a.visits e → d.index ≤ e.index) ?_ he hd
  intro e n t hn hshows ih hd
  rcases (ha.mem_visits_iff hn).1 hd with rfl | ⟨c, hc, hd⟩
  · exact Nat.le_refl _
  · obtain ⟨u, hu⟩ := hshows.exists_child ha hc
    exact Nat.le_of_lt (Nat.lt_of_le_of_lt (ih c hc u hu hd) (ha.child_lt hn c hc))

end Arena

namespace ArenaM

namespace SubstMemo

/-- A remembered result is the node itself, unless a replaced variable is free under it. -/
def Tight (m : SubstMemo) (o : Arena) (S : Substitution) : Prop :=
  ∀ d r t, m[d]? = some r → o.term? d = some t → S.Misses t → r = d

variable {m m' m'' : SubstMemo} {o : Arena} {S : Substitution}

theorem tight_empty (o : Arena) (S : Substitution) : Tight ∅ o S := by
  intro d r t h
  simp at h

theorem Tight.insert (h : m.Tight o S) {e r : ExprId} {t : Term} (he : o.term? e = some t)
    (hr : S.Misses t → r = e) : Tight (m.insert e r) o S := by
  intro d r' u hd hu hS
  rw [Std.TreeMap.getElem?_insert] at hd
  split at hd
  · next heq =>
    obtain rfl := Std.LawfulEqOrd.eq_of_compare heq
    cases he.symm.trans hu
    exact (Option.some.inj hd).symm.trans (hr hS)
  · exact h d r' u hd hu hS

structure Continues (m : SubstMemo) (o : Arena) (S : Substitution) (m' : SubstMemo) : Prop where
  tight : m'.Tight o S
  mem : ∀ d, d ∈ m → d ∈ m'

theorem Continues.refl (h : m.Tight o S) : m.Continues o S m := ⟨h, fun _ hd => hd⟩

theorem Continues.trans (h : m.Continues o S m') (h' : m'.Continues o S m'') :
    m.Continues o S m'' :=
  ⟨h'.tight, fun d hd => h'.mem d (h.mem d hd)⟩

theorem Continues.insert (h : m.Continues o S m') {e r : ExprId} {t : Term}
    (he : o.term? e = some t) (hr : S.Misses t → r = e) : m.Continues o S (m'.insert e r) :=
  ⟨h.tight.insert he hr, fun d hd => Std.TreeMap.mem_insert.2 (.inr (h.mem d hd))⟩

end SubstMemo

section Unaffected

variable {α β : Type} {o a : Arena} {S : Substitution}

/-- A walk over nodes of `o` returns `v` and stores nothing. -/
def Returns (x : StateT SubstMemo ArenaM α) (o a : Arena) (S : Substitution) (v : α) : Prop :=
  ∀ m : SubstMemo, m.Tight o S → YieldsWith x m a fun r m' b => r = v ∧ m.Continues o S m' ∧ b = a

theorem Returns.pure (v : α) : Returns (Pure.pure v) o a S v :=
  fun _ hm => .pure ⟨rfl, .refl hm, rfl⟩

theorem Returns.bind {x : StateT SubstMemo ArenaM α} {f : α → StateT SubstMemo ArenaM β} {u : α}
    {v : β} (hx : Returns x o a S u) (hf : Returns (f u) o a S v) : Returns (x >>= f) o a S v := by
  intro m hm
  refine (hx m hm).bind ?_
  rintro _ m₁ _ ⟨rfl, hm₁, rfl⟩
  refine (hf m₁ hm₁.tight).imp ?_
  rintro r m₂ b ⟨hr, hm₂, hb⟩
  exact ⟨hr, hm₁.trans hm₂, hb⟩

/-- A walk passes over nodes below `n` in which nothing is to be replaced. -/
def Skips (walk : Substitution → ExprId → StateT SubstMemo ArenaM ExprId) (o a : Arena) (n : Nat) :
    Prop :=
  ∀ ⦃S : Substitution⦄ ⦃e : ExprId⦄ ⦃t : Term⦄, o.term? e = some t → e.index < n → S.Misses t →
    Returns (walk S e) o a S e

namespace Skips

variable {walk : Substitution → ExprId → StateT SubstMemo ArenaM ExprId} {n : Nat}

theorem under (hwalk : Skips walk o a n) (c : Binder) {body : ExprId} {u : Term}
    (hu : o.term? body = some u) (hn : body.index < n)
    (h : ∀ x ∈ u.occurrences.filter (· ≠ c.id), x ∉ S) :
    Returns (substituteUnder walk S c body) o a S body := by
  rw [substituteUnder]
  split
  · dsimp only
    split
    · exact .pure body
    · have hrun := (hwalk hu hn (Substitution.misses_erase h) ∅ (SubstMemo.tight_empty o _)).run'
      intro m hm
      refine (YieldsWith.lift hrun).imp ?_
      rintro r _ b ⟨rfl, _, hr, -, hb⟩
      exact ⟨hr, .refl hm, hb⟩
  · next hc => exact hwalk hu hn (Substitution.misses_of_not_contains hc h)

theorem mapM (hwalk : Skips walk o a n) {es : List ExprId} {ts : List Term}
    (hes : o.Denote es ts) (hn : ∀ e ∈ es, e.index < n) (h : ∀ t ∈ ts, S.Misses t) :
    Returns (es.mapM (walk S)) o a S es := by
  induction hes with
  | nil => exact .pure []
  | @cons e t es ts he _ ih =>
    obtain ⟨hn, hns⟩ := List.forall_mem_cons.1 hn
    obtain ⟨h, hs⟩ := List.forall_mem_cons.1 h
    rw [List.mapM_cons]
    exact (hwalk he hn h).bind ((ih hns hs).bind (.pure _))

theorem node (hwalk : Skips walk o a n) (ho : o.WellFormed) {e : ExprId} {t : Term} {k : Node}
    (hk : o.node? e = some k) (ht : o.term? e = some t) (hn : e.index ≤ n) (h : S.Misses t) :
    Returns (substituteNode walk S e k) o a S e := by
  have child (c : ExprId) (hc : c ∈ k.children) : c.index < n :=
    Nat.lt_of_lt_of_le (ho.child_lt hk c hc) hn
  cases ho.shows_of_node? ht hk with
  | var x =>
    have hx : x ∉ S := h x (by simp [Term.occurrences])
    rw [substituteNode, Std.TreeMap.getD_eq_fallback hx]
    exact .pure e
  | global c => exact .pure e
  | lit l => exact .pure e
  | @app head args f xs hf hxs =>
    obtain ⟨hhead, hargs⟩ := List.forall_mem_cons.1 child
    have hf' : S.Misses f := fun x hx => h x (Term.mem_occurrences_apply.2 (.inl hx))
    have hxs' (u : Term) (hu : u ∈ xs) : S.Misses u := fun x hx =>
      h x (Term.mem_occurrences_apply.2 (.inr ⟨u, hu, hx⟩))
    refine (hwalk hf hhead hf').bind ((hwalk.mapM hxs hargs hxs').bind ?_)
    rw [if_pos ⟨rfl, rfl⟩]
    exact .pure e
  | @lam c body u hu =>
    refine (hwalk.under c hu (child body (by simp [Node.children])) h).bind ?_
    rw [if_pos rfl]
    exact .pure e
  | @letIn c value body v u hv hu =>
    refine (hwalk hv (child value (by simp [Node.children])) fun x hx =>
      h x (List.mem_append_left _ hx)).bind ?_
    refine (hwalk.under c hu (child body (by simp [Node.children])) fun x hx =>
      h x (List.mem_append_right _ hx)).bind ?_
    rw [if_pos ⟨rfl, rfl⟩]
    exact .pure e

end Skips

theorem skips_substituteFrom (ho : o.WellFormed) (hoa : o.Extends a) (fuel : Nat) :
    Skips (substituteFrom fuel) o a fuel := by
  induction fuel with
  | zero => intro S e t he hfuel; omega
  | succ fuel ih =>
    intro S e t he hfuel hS m hm
    rw [substituteFrom]
    refine YieldsWith.bind .get ?_
    rintro _ _ _ ⟨rfl, rfl, rfl⟩
    split
    · next r hr => exact .pure ⟨hm e r t hr he hS, .refl hm, rfl⟩
    · obtain ⟨k, hk⟩ := Arena.node?_of_term? he
      refine YieldsWith.bind (.lift (yields_node (hoa.node?_eq_some hk))) ?_
      rintro _ _ _ ⟨rfl, rfl, rfl⟩
      refine (ih.node ho hk he (by omega) hS _ hm).bind ?_
      rintro r m' b ⟨rfl, hm', rfl⟩
      refine YieldsWith.modify.bind ?_
      rintro _ _ _ ⟨rfl, rfl⟩
      exact .pure ⟨rfl, hm'.insert he fun _ => rfl, rfl⟩

end Unaffected

/-- If a walk ends, its answer, its memory and the arena are in `Q`. -/
def Ensures {α : Type} (x : StateT SubstMemo ArenaM α) (m : SubstMemo) (a : Arena)
    (Q : α → SubstMemo → Arena → Prop) : Prop :=
  ∀ v m' b, x m a = .ok ((v, m'), b) → Q v m' b

namespace Ensures

variable {α β : Type} {m : SubstMemo} {a : Arena} {P : α → SubstMemo → Arena → Prop}
  {Q : β → SubstMemo → Arena → Prop}

theorem pure {v : α} (h : P v m a) : Ensures (Pure.pure v) m a P := by
  intro _ _ _ hrun
  cases hrun
  exact h

theorem bind {x : StateT SubstMemo ArenaM α} {f : α → StateT SubstMemo ArenaM β}
    (hx : Ensures x m a P) (hf : ∀ v m' b, P v m' b → Ensures (f v) m' b Q) :
    Ensures (x >>= f) m a Q := by
  intro v m₂ c hrun
  simp only [Bind.bind, StateT.bind, Except.bind] at hrun
  split at hrun
  · cases hrun
  · next hu => exact hf _ _ _ (hx _ _ _ hu) v m₂ c hrun

theorem imp {x : StateT SubstMemo ArenaM α} {P' : α → SubstMemo → Arena → Prop}
    (hx : Ensures x m a P) (h : ∀ v m' b, P v m' b → P' v m' b) : Ensures x m a P' :=
  fun v m' b hrun => h v m' b (hx v m' b hrun)

theorem of_yields {x : StateT SubstMemo ArenaM α} (hx : YieldsWith x m a P) : Ensures x m a P := by
  intro v m' b hrun
  obtain ⟨_, _, h, hP⟩ := hx
  cases h.symm.trans hrun
  exact hP

theorem lift {x : ArenaM α} {R : α → Arena → Prop} (hx : ∀ v b, x a = .ok (v, b) → R v b) :
    Ensures (liftM x) m a fun v m' b => m' = m ∧ R v b := by
  intro v m' b hrun
  simp only [liftM, monadLift, MonadLift.monadLift, StateT.lift, Bind.bind, StateT.bind,
    Except.bind] at hrun
  split at hrun
  · cases hrun
  · next h =>
    cases hrun
    exact ⟨rfl, hx _ _ h⟩

end Ensures

theorem push_eq_store (n : Node) (a : Arena) : push n a = .ok (⟨a.size⟩, a.store [n]) := rfl

theorem yields_push (n : Node) (a : Arena) : Yields (push n) a fun _ b => b = a.store [n] :=
  ⟨_, _, push_eq_store n a, rfl⟩

theorem eq_store_of_mkApp {head r : ExprId} {args : List ExprId} {a b : Arena}
    (h : mkApp head args a = .ok (r, b)) : b = a ∨ ∃ f xs, b = a.store [.app f xs] := by
  cases args with
  | nil => cases h; exact .inl rfl
  | cons arg args =>
    rcases hn : a.node? head with _ | n
    · have hnode : node head a = .error (.missingNode head) := by
        simp only [node, ask, Arena.node_eq, hn]
        rfl
      simp only [mkApp, Bind.bind, StateT.bind, Except.bind, hnode] at h
      cases h
    · simp only [mkApp, Bind.bind, StateT.bind, Except.bind, node_eq_ok hn] at h
      cases n <;> simp only [push_eq_store] at h <;> cases h <;> exact .inr ⟨_, _, rfl⟩

/-- What a walk over nodes of `o` has stored: one copy each of some nodes in `P`, which it has met
for the first time. -/
structure Accounts (o : Arena) (S : Substitution) (P : ExprId → Prop) (m : SubstMemo) (a : Arena)
    (m' : SubstMemo) (b : Arena) : Prop where
  continues : m.Continues o S m'
  copies : ∃ sources new, sources.Nodup ∧ (∀ d ∈ sources, P d ∧ d ∉ m ∧ d ∈ m') ∧
    List.Forall₂ o.Copied sources new ∧ b = a.store new

namespace Accounts

variable {o a b c : Arena} {S : Substitution} {P : ExprId → Prop} {m m' m'' : SubstMemo}

theorem refl (h : m.Continues o S m') : Accounts o S P m a m' a :=
  ⟨h, [], [], .nil, by simp, .nil, a.store_nil.symm⟩

theorem trans (h : Accounts o S P m a m' b) (h' : Accounts o S P m' b m'' c) :
    Accounts o S P m a m'' c := by
  obtain ⟨hm, ds, ns, hnodup, hds, hcopied, rfl⟩ := h
  obtain ⟨hm', ds', ns', hnodup', hds', hcopied', rfl⟩ := h'
  refine ⟨hm.trans hm', ds ++ ds', ns ++ ns', ?_, ?_, ?_, (a.store_append ns ns').symm⟩
  -- What the first walk copied, it remembers, and the second walk does not copy.
  · exact List.nodup_append.2 ⟨hnodup, hnodup', fun d hd d' hd' heq =>
      (hds' d' hd').2.1 (heq ▸ (hds d hd).2.2)⟩
  · intro d hd
    rcases List.mem_append.1 hd with hd | hd
    · exact ⟨(hds d hd).1, (hds d hd).2.1, hm'.mem d (hds d hd).2.2⟩
    · exact ⟨(hds' d hd).1, fun hmem => (hds' d hd).2.1 (hm.mem d hmem), (hds' d hd).2.2⟩
  · exact List.rel_append hcopied hcopied'

theorem mono (h : Accounts o S P m a m' b) {P' : ExprId → Prop} (hP : ∀ d, P d → P' d) :
    Accounts o S P' m a m' b := by
  obtain ⟨hm, ds, ns, hnodup, hds, hrest⟩ := h
  exact ⟨hm, ds, ns, hnodup, fun d hd => ⟨hP d (hds d hd).1, (hds d hd).2⟩, hrest⟩

theorem isExtension (h : Accounts o S P m a m' b) : a.Extends b := by
  obtain ⟨-, -, ns, -, -, -, rfl⟩ := h
  exact a.extends_store ns

/-- After its children were walked over, a node is copied at most once, and remembered. -/
theorem insert (h : Accounts o S P m a m' b) {P' : ExprId → Prop} (hP : ∀ d, P d → P' d)
    {e r : ExprId} {t : Term} (he : o.term? e = some t) (hS : ¬ S.Misses t) (hPe : P' e)
    (hfresh : e ∉ m) (hnot : ¬ P e) (hc : c = b ∨ ∃ k, o.Copied e k ∧ c = b.store [k]) :
    Accounts o S P' m a (m'.insert e r) c := by
  obtain ⟨hm, ds, ns, hnodup, hds, hcopied, rfl⟩ := h
  have hin (d : ExprId) (hd : d ∈ ds) : P' d ∧ d ∉ m ∧ d ∈ m'.insert e r :=
    ⟨hP d (hds d hd).1, (hds d hd).2.1, Std.TreeMap.mem_insert.2 (.inr (hds d hd).2.2)⟩
  refine ⟨hm.insert he fun h => absurd h hS, ?_⟩
  rcases hc with rfl | ⟨k, hk, rfl⟩
  · exact ⟨ds, ns, hnodup, hin, hcopied, rfl⟩
  · refine ⟨ds ++ [e], ns ++ [k], ?_, ?_, List.rel_append hcopied (.cons hk .nil),
      (a.store_append ns [k]).symm⟩
    · exact List.nodup_append.2 ⟨hnodup, by simp, fun d hd d' hd' heq =>
        hnot (List.mem_singleton.1 hd' ▸ heq ▸ (hds d hd).1)⟩
    · intro d hd
      rcases List.mem_append.1 hd with hd | hd
      · exact hin d hd
      · obtain rfl := List.mem_singleton.1 hd
        exact ⟨hPe, hfresh, Std.TreeMap.mem_insert_self⟩

end Accounts

/-- If a walk over a node of `o` below `n` ends, it has copied nodes under it only, each once. -/
def Shares (walk : Substitution → ExprId → StateT SubstMemo ArenaM ExprId) (o : Arena) (n : Nat) :
    Prop :=
  ∀ ⦃S : Substitution⦄ ⦃e : ExprId⦄ ⦃t : Term⦄ ⦃m : SubstMemo⦄ ⦃a : Arena⦄, o.term? e = some t →
    e.index < n → S.Spares t → o.Extends a → m.Tight o S →
    Ensures (walk S e) m a fun _ m' b => Accounts o S (o.Touches S e) m a m' b

namespace Shares

variable {walk : Substitution → ExprId → StateT SubstMemo ArenaM ExprId} {o a : Arena} {n : Nat}
  {S : Substitution} {m : SubstMemo}

theorem under (hwalk : Shares walk o n) {c : Binder} {body : ExprId} {t u : Term}
    (hu : o.term? body = some u) (hn : body.index < n) (hS : S.Spares t) (hc : c.id ∈ t.binders)
    (hsub : ∀ x ∈ u.binders, x ∈ t.binders) (hoa : o.Extends a) (hm : m.Tight o S) :
    Ensures (substituteUnder walk S c body) m a
      fun _ m' b => Accounts o S (o.Touches S body) m a m' b := by
  rw [substituteUnder]
  split
  · next hcontains =>
    dsimp only
    rw [if_pos (hS.isEmpty_erase hc hcontains)]
    exact .pure (.refl (.refl hm))
  · exact hwalk hu hn (hS.of_binders hsub) hoa hm

theorem mapM (hwalk : Shares walk o n) {es : List ExprId} {ts : List Term} (hes : o.Denote es ts)
    (hn : ∀ e ∈ es, e.index < n) (hS : ∀ t ∈ ts, S.Spares t) (hoa : o.Extends a)
    (hm : m.Tight o S) :
    Ensures (es.mapM (walk S)) m a
      fun _ m' b => Accounts o S (fun d => ∃ e ∈ es, o.Touches S e d) m a m' b := by
  induction hes generalizing m a with
  | nil => exact .pure (.refl (.refl hm))
  | @cons e t es ts he _ ih =>
    obtain ⟨hn, hns⟩ := List.forall_mem_cons.1 hn
    obtain ⟨hS, hSs⟩ := List.forall_mem_cons.1 hS
    rw [List.mapM_cons]
    refine (hwalk he hn hS hoa hm).bind fun r m₁ b h => ?_
    refine (ih hns hSs (hoa.trans h.isExtension) h.continues.tight).bind fun rs m₂ c h' => ?_
    refine .pure (.trans (h.mono fun d hd => ⟨e, by simp, hd⟩) (h'.mono ?_))
    rintro d ⟨c, hc, hd⟩
    exact ⟨c, by simp [hc], hd⟩

/-- The children are walked over first; then at most one node is stored. -/
theorem node (hwalk : Shares walk o n) (ho : o.WellFormed) {e : ExprId} {t : Term} {k : Node}
    (hk : o.node? e = some k) (ht : o.term? e = some t) (hn : e.index ≤ n) (hS : S.Spares t)
    (hoa : o.Extends a) (hm : m.Tight o S) :
    Ensures (substituteNode walk S e k) m a fun _ m' c =>
      ∃ b, Accounts o S (o.TouchesBelow S k) m a m' b ∧
        (c = b ∨ ∃ new, o.Copied e new ∧ c = b.store [new]) := by
  have child (c : ExprId) (hc : c ∈ k.children) : c.index < n :=
    Nat.lt_of_lt_of_le (ho.child_lt hk c hc) hn
  have below {c : ExprId} {m m' : SubstMemo} {a b : Arena}
      (h : Accounts o S (o.Touches S c) m a m' b) (hc : c ∈ k.children) :
      Accounts o S (o.TouchesBelow S k) m a m' b :=
    h.mono fun d hd => ⟨c, hc, hd⟩
  have skip : Accounts o S (o.TouchesBelow S k) m a m a := .refl (.refl hm)
  cases ho.shows_of_node? ht hk with
  | var x => exact .pure ⟨a, skip, .inl rfl⟩
  | global c => exact .pure ⟨a, skip, .inl rfl⟩
  | lit l => exact .pure ⟨a, skip, .inl rfl⟩
  | @app head args f xs hf hxs =>
    obtain ⟨hhead, hargs⟩ := List.forall_mem_cons.1 child
    have hSf : S.Spares f := hS.of_binders fun x hx => Term.mem_binders_apply.2 (.inl hx)
    have hSxs (u : Term) (hu : u ∈ xs) : S.Spares u :=
      hS.of_binders fun x hx => Term.mem_binders_apply.2 (.inr ⟨u, hu, hx⟩)
    refine (hwalk hf hhead hSf hoa hm).bind fun head' m₁ a₁ h₁ => ?_
    refine (hwalk.mapM hxs hargs hSxs (hoa.trans h₁.isExtension) h₁.continues.tight).bind
      fun args' m₂ b h₂ => ?_
    have hargs : Accounts o S (o.TouchesBelow S (.app head args)) m₁ a₁ m₂ b := by
      refine h₂.mono ?_
      rintro d ⟨c, hc, hd⟩
      exact ⟨c, List.mem_cons_of_mem head hc, hd⟩
    have h := (below h₁ (by simp [Node.children])).trans hargs
    split
    · exact .pure ⟨b, h, .inl rfl⟩
    · refine (Ensures.lift fun r c => eq_store_of_mkApp).imp ?_
      rintro r _ c ⟨rfl, rfl | ⟨f', xs', rfl⟩⟩
      · exact ⟨c, h, .inl rfl⟩
      · exact ⟨b, h, .inr ⟨_, ⟨_, hk, .app ..⟩, rfl⟩⟩
  | @lam c body u hu =>
    refine (hwalk.under hu (child body (by simp [Node.children])) hS List.mem_cons_self
      (fun x => List.mem_cons_of_mem _) hoa hm).bind fun body' m₁ b h => ?_
    have h := below h (by simp [Node.children])
    split
    · exact .pure ⟨b, h, .inl rfl⟩
    · refine (Ensures.of_yields (.lift (yields_push _ b))).imp ?_
      rintro r _ c ⟨rfl, rfl⟩
      exact ⟨b, h, .inr ⟨_, ⟨_, hk, .lam ..⟩, rfl⟩⟩
  | @letIn c value body v u hv hu =>
    have hSv : S.Spares v := hS.of_binders fun x hx => by simp [Term.binders, hx]
    refine (hwalk hv (child value (by simp [Node.children])) hSv hoa hm).bind
      fun value' m₁ a₁ h₁ => ?_
    refine (hwalk.under hu (child body (by simp [Node.children])) hS List.mem_cons_self
      (fun x hx => by simp [Term.binders, hx]) (hoa.trans h₁.isExtension) h₁.continues.tight).bind
      fun body' m₂ b h₂ => ?_
    have h := (below h₁ (by simp [Node.children])).trans (below h₂ (by simp [Node.children]))
    split
    · exact .pure ⟨b, h, .inl rfl⟩
    · refine (Ensures.of_yields (.lift (yields_push _ b))).imp ?_
      rintro r _ c ⟨rfl, rfl⟩
      exact ⟨b, h, .inr ⟨_, ⟨_, hk, .letIn ..⟩, rfl⟩⟩

end Shares

theorem shares_substituteFrom {o : Arena} (ho : o.WellFormed) (fuel : Nat) :
    Shares (substituteFrom fuel) o fuel := by
  induction fuel with
  | zero => intro S e t m a he hfuel; omega
  | succ fuel ih =>
    intro S e t m a he hfuel hS hoa hm
    by_cases hmiss : S.Misses t
    · refine .of_yields ((skips_substituteFrom ho hoa (fuel + 1) he hfuel hmiss m hm).imp ?_)
      rintro r m' b ⟨-, hm', rfl⟩
      exact .refl hm'
    · obtain ⟨k, hk⟩ := Arena.node?_of_term? he
      rw [substituteFrom]
      refine (Ensures.of_yields .get).bind ?_
      rintro _ _ _ ⟨rfl, rfl, rfl⟩
      split
      · exact .pure (.refl (.refl hm))
      · next hnew =>
        refine (Ensures.of_yields (.lift (yields_node (hoa.node?_eq_some hk)))).bind ?_
        rintro _ _ _ ⟨rfl, rfl, rfl⟩
        refine (ih.node ho hk he (by omega) hS hoa hm).bind ?_
        rintro r m' c ⟨b, h, hc⟩
        refine (Ensures.of_yields .modify).bind ?_
        rintro _ _ _ ⟨rfl, rfl⟩
        have hself : o.Touches S e e :=
          ⟨(ho.mem_visits_iff hk).2 (.inl rfl), t, he, by simpa [Substitution.Misses] using hmiss⟩
        refine .pure (h.insert ?_ he hmiss hself ?_ ?_ hc)
        · rintro d ⟨c, hc, hd⟩
          exact ⟨(ho.mem_visits_iff hk).2 (.inr ⟨c, hc, hd.1⟩), hd.2⟩
        · exact fun hmem => hnew _ (Std.TreeMap.getElem?_eq_some_getElem hmem)
        -- Nodes under the children come before `e`.
        · rintro ⟨c, hc, hd⟩
          obtain ⟨u, hu⟩ := (ho.shows_of_node? he hk).exists_child ho hc
          have hle := ho.index_le_of_mem_visits hu hd.1
          have hlt := ho.child_lt hk c hc
          omega

theorem exists_of_run' {x : StateT SubstMemo ArenaM ExprId} {m : SubstMemo} {a b : Arena}
    {r : ExprId} (h : x.run' m a = .ok (r, b)) : ∃ m', x m a = .ok ((r, m'), b) := by
  simp only [StateT.run', Functor.map, StateT.map, Bind.bind, Except.bind] at h
  split at h
  · cases h
  · next p hp =>
    cases h
    exact ⟨_, hp⟩

variable {a : Arena} {S : Substitution} {e : ExprId} {t : Term}

theorem substitute_of_not_isEmpty (hS : ¬ S.isEmpty) :
    substitute S e a = (substituteFrom a.depthBound S e).run' ∅ a := by
  rw [substitute, if_neg hS]
  rfl

theorem accounts_of_substitute (ha : a.WellFormed) (he : a.term? e = some t) (hS : S.Spares t)
    {r : ExprId} {b : Arena} (h : substitute S e a = .ok (r, b)) :
    ∃ m', Accounts a S (a.Touches S e) ∅ a m' b := by
  by_cases hempty : S.isEmpty
  · rw [substitute, if_pos hempty] at h
    cases h
    exact ⟨∅, .refl (.refl (SubstMemo.tight_empty a S))⟩
  · rw [substitute_of_not_isEmpty hempty] at h
    obtain ⟨m', h⟩ := exists_of_run' h
    exact ⟨m', shares_substituteFrom ha _ he (Arena.index_lt_depthBound he) hS (.refl a)
      (SubstMemo.tight_empty a S) r m' b h⟩

theorem substitute_of_misses (ha : a.WellFormed) (he : a.term? e = some t) (hS : S.Misses t) :
    substitute S e a = .ok (e, a) := by
  by_cases hempty : S.isEmpty
  · rw [substitute, if_pos hempty]
    rfl
  · obtain ⟨_, _, h, m', rfl, -, rfl⟩ := (skips_substituteFrom ha (.refl a) _ he
      (Arena.index_lt_depthBound he) hS ∅ (SubstMemo.tight_empty a S)).run'
    exact (substitute_of_not_isEmpty hempty).trans h

/-- Let one variable be replaced, or none that is bound in the term. Then every new node is the copy
of a node under the term in which a replaced variable is free, and no two are copies of the same.
If a replaced variable is free nowhere, the term itself is returned and nothing is stored. -/
theorem substitute_sharing (ha : a.WellFormed) (he : a.term? e = some t)
    (hS : S.size = 1 ∨ ∀ x ∈ t.binders, x ∉ S) :
    (∀ r b, substitute S e a = .ok (r, b) → ∃ sources new, sources.Nodup ∧
      (∀ d ∈ sources, d ∈ a.visits e ∧ a.Affected S d) ∧
      List.Forall₂ a.Copied sources new ∧ b = a.store new) ∧
    ((∀ x ∈ t.occurrences, x ∉ S) → substitute S e a = .ok (e, a)) ∧
    ((∀ (x : LocalId) (d : ExprId), S[x]? = some d → d.index < a.size) →
      ∃ r b, substitute S e a = .ok (r, b)) := by
  refine ⟨fun r b h => ?_, substitute_of_misses ha he, fun hvalues => ?_⟩
  · obtain ⟨m', -, sources, new, hnodup, hsources, hnew⟩ := accounts_of_substitute ha he hS h
    exact ⟨sources, new, hnodup, fun d hd => (hsources d hd).1, hnew⟩
  · have hmeans := Substitution.means_replacement fun x d hd => ha.exists_term (hvalues x d hd)
    obtain ⟨r, b, h, -⟩ := builds_substitute ha hmeans he
    exact ⟨r, b, h⟩

/-- The term `let z := g (g x) (g x) (λ x, g x) in g (g x) (g x) (λ x, g x)`, with one node for all
`g x` and one for both applications to three arguments. -/
def diamondArena : Arena :=
  .ofNodes [.var ⟨0⟩, .global ⟨1⟩, .app ⟨1⟩ [⟨0⟩], .lam ⟨⟨0⟩, ⟨2⟩⟩ ⟨2⟩, .app ⟨1⟩ [⟨2⟩, ⟨2⟩, ⟨3⟩],
    .letIn ⟨⟨1⟩, ⟨3⟩⟩ ⟨4⟩ ⟨4⟩] 2

/-- With `g` put in for `x`, three nodes are copied, and the lambda that binds `x` is none of
them. -/
theorem substitute_diamondArena : diamondArena.WellFormed ∧
    ((∅ : Substitution).insert ⟨0⟩ ⟨1⟩).size = 1 ∧
    ∃ r b, substitute ((∅ : Substitution).insert ⟨0⟩ ⟨1⟩) ⟨5⟩ diamondArena = .ok (r, b) ∧
      b.size = diamondArena.size + 3 ∧
      ∃ sources new, sources.Nodup ∧ (∀ d ∈ sources, d ∈ diamondArena.visits ⟨5⟩) ∧
        List.Forall₂ diamondArena.Copied sources new ∧ b = diamondArena.store new := by
  have hwf : diamondArena.WellFormed := by decide +kernel
  have hsize : ((∅ : Substitution).insert ⟨0⟩ ⟨1⟩).size = 1 := by decide +kernel
  obtain ⟨t, ht⟩ := hwf.exists_term (e := ⟨5⟩) (by decide)
  obtain ⟨hcopies, -, hends⟩ := substitute_sharing hwf ht (.inl hsize)
  obtain ⟨r, b, hrun⟩ := hends fun x d hd => by
    rw [Std.TreeMap.getElem?_insert] at hd
    split at hd
    · exact Option.some.inj hd ▸ by decide
    · simp at hd
  have hstored : (substitute ((∅ : Substitution).insert ⟨0⟩ ⟨1⟩) ⟨5⟩ diamondArena).toOption.map
      (·.2.size) = some (diamondArena.size + 3) := by decide +kernel
  rw [hrun] at hstored
  obtain ⟨sources, new, hnodup, hsources, hnew⟩ := hcopies r b hrun
  exact ⟨hwf, hsize, r, b, hrun, Option.some.inj hstored, sources, new, hnodup,
    fun d hd => (hsources d hd).1, hnew⟩

end ArenaM

end LambdaLifting
