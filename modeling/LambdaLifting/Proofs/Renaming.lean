import LambdaLifting.Arena.Reduction
import LambdaLifting.Proofs.Denotation

namespace LambdaLifting

namespace Node

def renameGlobal (ρ : Name → Name) : Node → Node
  | global c => global (ρ c)
  | n => n

theorem renameGlobal_eq_self {ρ : Name → Name} {n : Node} (h : ∀ c, n = global c → ρ c = c) :
    n.renameGlobal ρ = n := by
  cases n with
  | global c => rw [renameGlobal, h c rfl]
  | _ => rfl

theorem args_renameGlobal (ρ : Name → Name) (n : Node) : (n.renameGlobal ρ).args = n.args := by
  cases n <;> rfl

end Node

namespace Cell

def renameGlobal (ρ : Name → Name) : Cell → Cell
  | global c => global (ρ c)
  | c => c

theorem range_renameGlobal (ρ : Name → Name) (c : Cell) : (c.renameGlobal ρ).range = c.range := by
  cases c <;> rfl

theorem node_renameGlobal (ρ : Name → Name) (c : Cell) (args : List ExprId) :
    (c.renameGlobal ρ).node args = (c.node args).renameGlobal ρ := by
  cases c <;> rfl

theorem cell_renameGlobal (ρ : Name → Name) (n : Node) (r : ArgRange) :
    (n.renameGlobal ρ).cell r = (n.cell r).renameGlobal ρ := by
  cases n <;> rfl

end Cell

namespace Arena

/-- Rename the globals among the nodes from position `k` on. -/
def renameFrom (k : Nat) (ρ : Name → Name) (a : Arena) : Arena where
  cells := a.cells.mapIdx fun i c => if i < k then c else c.renameGlobal ρ
  args := a.args
  nextLocal := a.nextLocal
  stop_le c hc := by
    obtain ⟨i, hi, rfl⟩ := Array.mem_mapIdx.1 hc
    have hstop := a.stop_le _ (Array.getElem_mem hi)
    split
    · exact hstop
    · rwa [Cell.range_renameGlobal]

variable {k : Nat} {ρ : Name → Name} {a : Arena}

@[simp]
theorem size_renameFrom : (a.renameFrom k ρ).size = a.size := by
  simp [renameFrom, size]

@[simp]
theorem depthBound_renameFrom : (a.renameFrom k ρ).depthBound = a.depthBound := by
  simp [depthBound]

theorem node?_renameFrom (e : ExprId) : (a.renameFrom k ρ).node? e =
    (a.node? e).map fun n => if e.index < k then n else n.renameGlobal ρ := by
  have hcells : (a.renameFrom k ρ).cells[e.index]? =
      a.cells[e.index]?.map fun c => if e.index < k then c else c.renameGlobal ρ := by
    simp [renameFrom]
  rw [node?_eq_map, node?_eq_map, hcells, Option.map_map, Option.map_map]
  refine Option.map_congr fun c _ => ?_
  by_cases he : e.index < k
  · simp only [Function.comp_apply, if_pos he]
    rfl
  · simp only [Function.comp_apply, if_neg he, Cell.range_renameGlobal, Cell.node_renameGlobal]
    rfl

theorem renameFrom_push (hk : k ≤ a.size) (n : Node) :
    (a.push n).renameFrom k ρ = (a.renameFrom k ρ).push (n.renameGlobal ρ) := by
  have hsize : ¬ a.cells.size < k := Nat.not_lt.2 hk
  refine Arena.ext ?_ ?_ rfl
  · simp [renameFrom, cells_push, Array.mapIdx_push, hsize, Cell.cell_renameGlobal,
      Node.args_renameGlobal, rangeFor]
  · simp [renameFrom, args_push, Node.args_renameGlobal]

/-- Only the names of globals in new nodes matter. -/
theorem renameFrom_congr {ρ' : Name → Name}
    (h : ∀ e c, k ≤ e.index → a.node? e = some (.global c) → ρ c = ρ' c) :
    a.renameFrom k ρ = a.renameFrom k ρ' := by
  refine Arena.ext (Array.ext_getElem? fun i => ?_) rfl rfl
  simp only [renameFrom, Array.getElem?_mapIdx]
  refine Option.map_congr fun cell hcell => ?_
  by_cases hi : i < k
  · rw [if_pos hi, if_pos hi]
  · rw [if_neg hi, if_neg hi]
    cases cell with
    | global c =>
      have hnode : a.node? ⟨i⟩ = some (.global c) := by rw [node?_eq_map, hcell]; rfl
      rw [Cell.renameGlobal, Cell.renameGlobal, h ⟨i⟩ c (Nat.not_lt.1 hi) hnode]
    | _ => rfl

theorem renameFrom_id : a.renameFrom k id = a := by
  have hself (i : Nat) (c : Cell) : (if i < k then c else c.renameGlobal id) = c := by
    have hc : c.renameGlobal id = c := by cases c <;> rfl
    rw [hc, ite_self]
  refine Arena.ext (Array.ext_getElem? fun i => ?_) rfl rfl
  simp [renameFrom, hself]

/-- A question that looks at a node and not at the name of a global has the same answer. -/
theorem node_bind_renameFrom {σ α : Type} (e : ExprId) {f : Node → StateT σ (Except Fault) α}
    (hf : ∀ c c', f (.global c) = f (.global c')) :
    ((liftM ((a.renameFrom k ρ).node e) : StateT σ (Except Fault) Node) >>= f) =
      (liftM (a.node e) : StateT σ (Except Fault) Node) >>= f := by
  simp only [node_eq, node?_renameFrom]
  cases a.node? e with
  | none => rfl
  | some n =>
    have hn : f (if e.index < k then n else n.renameGlobal ρ) = f n := by
      split
      · rfl
      · cases n with
        | global c => exact hf _ _
        | _ => rfl
    exact hn

theorem spine_renameFrom (e : ExprId) : (a.renameFrom k ρ).spine e = a.spine e := by
  rw [spine, spine, node_eq, node_eq, node?_renameFrom]
  cases a.node? e with
  | none => rfl
  | some n =>
    rw [Option.map_some]
    by_cases he : e.index < k
    · rw [if_pos he]
    · rw [if_neg he]
      cases n <;> rfl

@[simp]
theorem freeVars_renameFrom (e : ExprId) : (a.renameFrom k ρ).freeVars e = a.freeVars e := by
  have hfrom (fuel : Nat) : (a.renameFrom k ρ).freeVarsFrom fuel = a.freeVarsFrom fuel := by
    induction fuel with
    | zero => rfl
    | succ fuel ih =>
      funext e
      simp only [freeVarsFrom, ih]
      congr 1
      funext memo
      split
      · rfl
      · exact node_bind_renameFrom e fun _ _ => rfl
  rw [freeVars, freeVars, depthBound_renameFrom, hfrom]

@[simp]
theorem hasFree_renameFrom (x : LocalId) (e : ExprId) :
    (a.renameFrom k ρ).hasFree x e = a.hasFree x e := by
  have hfrom (fuel : Nat) : (a.renameFrom k ρ).hasFreeFrom x fuel = a.hasFreeFrom x fuel := by
    induction fuel with
    | zero => rfl
    | succ fuel ih =>
      funext e
      simp only [hasFreeFrom, ih]
      congr 1
      funext memo
      split
      · rfl
      · exact node_bind_renameFrom e fun _ _ => rfl
  rw [hasFree, hasFree, depthBound_renameFrom, hfrom]

theorem Extends.node?_eq {a b : Arena} (hab : a.Extends b) {e : ExprId} (he : e.index < a.size) :
    b.node? e = a.node? e := by
  obtain ⟨n, hn⟩ := exists_node he
  rw [hn, hab.node?_eq_some hn]

end Arena

/-- What two runs start from: an arena, of which they see the `live` nodes, and names that both
keep. -/
structure Ground where
  arena : Arena
  live : ExprId → Prop
  kept : Name → Prop
  live_child : ∀ {e n}, live e → arena.node? e = some n → ∀ c ∈ n.children, live c
  kept_global : ∀ {e c}, live e → arena.node? e = some (.global c) → kept c

/-- A computation ends with an answer in `Q`, or runs out of fuel that was not `ample`. -/
def Answers {α : Type} (ample : Prop) (r : Except Fault α) (Q : α → Prop) : Prop :=
  (∃ v, r = .ok v ∧ Q v) ∨ r = .error .outOfFuel ∧ ¬ ample

namespace Ground

variable {g : Ground} {ample : Prop} {known : Name → Prop} {ρ : Name → Name} {a : Arena}
  {e : ExprId} {n : Node}

/-- A run sees the live nodes, and all that it stores itself. -/
def Sees (g : Ground) (e : ExprId) : Prop := g.arena.size ≤ e.index ∨ g.live e

/-- An arena that a run has come to, with `known` names in the nodes that were stored. -/
structure Carries (g : Ground) (known : Name → Prop) (a : Arena) : Prop where
  isExtension : g.arena.Extends a
  sees_of_new : ∀ {e n}, g.arena.size ≤ e.index → a.node? e = some n → ∀ c ∈ n.children, g.Sees c
  known_of_new : ∀ {e c}, g.arena.size ≤ e.index → a.node? e = some (.global c) → known c

namespace Carries

theorem mono (h : g.Carries known a) {known' : Name → Prop} (hk : ∀ c, known c → known' c) :
    g.Carries known' a :=
  ⟨h.isExtension, h.sees_of_new, fun he hn => hk _ (h.known_of_new he hn)⟩

theorem sees_child (h : g.Carries known a) (he : g.Sees e) (hn : a.node? e = some n) :
    ∀ c ∈ n.children, g.Sees c := by
  rcases Nat.lt_or_ge e.index g.arena.size with hlt | hle
  · have hlive := he.resolve_left (Nat.not_le.2 hlt)
    rw [h.isExtension.node?_eq hlt] at hn
    exact fun c hc => .inr (g.live_child hlive hn c hc)
  · exact h.sees_of_new hle hn

/-- The global of a node that is seen is known; if it was there before, its name is kept. -/
theorem global_of_sees (h : g.Carries known a) {c : Name} (he : g.Sees e)
    (hn : a.node? e = some (.global c)) : known c ∨ g.kept c := by
  rcases Nat.lt_or_ge e.index g.arena.size with hlt | hle
  · rw [h.isExtension.node?_eq hlt] at hn
    exact .inr (g.kept_global (he.resolve_left (Nat.not_le.2 hlt)) hn)
  · exact .inl (h.known_of_new hle hn)

theorem node?_renameFrom (h : g.Carries known a) (hρ : ∀ c, g.kept c → ρ c = c) (he : g.Sees e)
    (hn : a.node? e = some n) :
    (a.renameFrom g.arena.size ρ).node? e = some (n.renameGlobal ρ) := by
  rw [Arena.node?_renameFrom, hn, Option.map_some]
  split
  · next hlt =>
    have hlive := he.resolve_left (Nat.not_le.2 hlt)
    rw [h.isExtension.node?_eq hlt] at hn
    rw [Node.renameGlobal_eq_self fun c hc => hρ c (g.kept_global hlive (hc ▸ hn))]
  · rfl

theorem sees_spine (h : g.Carries known a) (he : g.Sees e) {head : ExprId} {args : List ExprId}
    (hspine : a.spine e = .ok (head, args)) : g.Sees head := by
  cases hn : a.node? e with
  | none =>
    rw [Arena.spine, Arena.node_eq, hn] at hspine
    cases hspine
  | some n =>
    rw [Arena.spine, Arena.node_of_node? hn] at hspine
    have hchild := h.sees_child he hn
    cases n with
    | app inner init =>
      cases hspine
      exact hchild head List.mem_cons_self
    | _ =>
      cases hspine
      exact he

/-- The global at the head of a term is renamed, and nothing else. -/
theorem headGlobal?_renameFrom (h : g.Carries known a) (hρ : ∀ c, g.kept c → ρ c = c)
    (he : g.Sees e) {o : Option Name} (ho : a.headGlobal? e = .ok o) :
    (a.renameFrom g.arena.size ρ).headGlobal? e = .ok (o.map ρ) ∧ ∀ c ∈ o, known c ∨ g.kept c := by
  rw [Arena.headGlobal?] at ho ⊢
  rw [Arena.spine_renameFrom]
  cases hspine : a.spine e with
  | error fault =>
    rw [hspine] at ho
    cases ho
  | ok p =>
    obtain ⟨head, args⟩ := p
    have hhead := h.sees_spine he hspine
    cases hm : a.node? head with
    | none =>
      simp only [hspine, Bind.bind, Except.bind, Arena.node_eq, hm] at ho
      cases ho
    | some m =>
      have hm' := Arena.node_of_node? (h.node?_renameFrom hρ hhead hm)
      simp only [hspine, Bind.bind, Except.bind, Arena.node_of_node? hm] at ho
      simp only [Bind.bind, Except.bind, hm']
      cases m with
      | global c =>
        cases ho
        refine ⟨rfl, ?_⟩
        rintro _ ⟨⟩
        exact h.global_of_sees hhead hm
      | _ =>
        cases ho
        exact ⟨rfl, by simp⟩

theorem push (h : g.Carries known a) (hn : ∀ c ∈ n.children, g.Sees c)
    (hglobal : ∀ c, n = .global c → known c) :
    g.Carries known (a.push n) where
  isExtension := h.isExtension.trans (a.extends_push n)
  sees_of_new he hm := by
    rw [Arena.node?_push] at hm
    split at hm
    · exact Option.some.inj hm ▸ hn
    · exact h.sees_of_new he hm
  known_of_new he hm := by
    rw [Arena.node?_push] at hm
    split at hm
    · exact hglobal _ (Option.some.inj hm)
    · exact h.known_of_new he hm

theorem sees_size (h : g.Carries known a) : g.Sees ⟨a.size⟩ := .inl h.isExtension.size_le

end Carries

/-- Whenever `x` ends with an answer, it is in `V`, and `y` has the same answer under other names
and stores the same nodes. -/
def Copies {α : Type} (g : Ground) (ample : Prop) (x y : ArenaM α) (V : α → Prop) : Prop :=
  ∀ ⦃ρ⦄, (∀ c, g.kept c → ρ c = c) → ∀ ⦃known a v b⦄, g.Carries known a → x a = .ok (v, b) →
    Answers ample (y (a.renameFrom g.arena.size ρ))
      fun r => r = (v, b.renameFrom g.arena.size ρ) ∧ V v ∧ g.Carries known b

section Copies

variable {α β : Type} {x y : ArenaM α} {V : α → Prop} {W : β → Prop}

theorem copies_pure {v : α} (hv : V v) : g.Copies ample (Pure.pure v) (Pure.pure v) V := by
  intro ρ hρ known a u b ha hrun
  cases hrun
  exact .inl ⟨_, rfl, rfl, hv, ha⟩

theorem Copies.bind (hx : g.Copies ample x y V) {f f' : α → ArenaM β}
    (hf : ∀ v, V v → g.Copies ample (f v) (f' v) W) :
    g.Copies ample (x >>= f) (y >>= f') W := by
  intro ρ hρ known a u c ha hrun
  cases hv : x a with
  | error fault =>
    simp only [Bind.bind, StateT.bind, Except.bind, hv] at hrun
    cases hrun
  | ok r =>
    obtain ⟨v, b⟩ := r
    rw [ArenaM.bind_of_eq_ok hv] at hrun
    rcases hx hρ ha hv with ⟨_, hy, rfl, hV, hb⟩ | ⟨hy, hdry⟩
    · rw [ArenaM.bind_of_eq_ok hy]
      exact hf v hV hρ hb hrun
    · exact .inr ⟨by simp only [Bind.bind, StateT.bind, Except.bind, hy], hdry⟩

theorem Copies.node_bind {f f' : Node → ArenaM β} (he : g.Sees e)
    (hglobal : ∀ c c', f' (.global c) = f' (.global c'))
    (hf : ∀ n, (∀ c ∈ n.children, g.Sees c) → g.Copies ample (f n) (f' n) W) :
    g.Copies ample (ArenaM.node e >>= f) (ArenaM.node e >>= f') W := by
  intro ρ hρ known a u b ha hrun
  cases hn : a.node? e with
  | none =>
    simp only [Bind.bind, StateT.bind, Except.bind, ArenaM.node, ArenaM.ask, Arena.node_eq,
      hn] at hrun
    cases hrun
  | some n =>
    rw [ArenaM.bind_of_eq_ok (ArenaM.node_eq_ok hn)] at hrun
    have hsame : f' (n.renameGlobal ρ) = f' n := by
      cases n with
      | global c => exact hglobal _ _
      | _ => rfl
    rw [ArenaM.bind_of_eq_ok (ArenaM.node_eq_ok (ha.node?_renameFrom hρ he hn)), hsame]
    exact hf n (ha.sees_child he hn) hρ ha hrun

theorem copies_ask {f : Arena → Except Fault α} (hf : ∀ k ρ a, f (Arena.renameFrom k ρ a) = f a) :
    g.Copies ample (ArenaM.ask f) (ArenaM.ask f) fun _ => True := by
  intro ρ hρ known a v b ha hrun
  cases hv : f a with
  | error fault =>
    simp only [ArenaM.ask, Bind.bind, Except.bind, hv] at hrun
    cases hrun
  | ok u =>
    cases (ArenaM.ask_eq_ok hv).symm.trans hrun
    exact .inl ⟨_, ArenaM.ask_eq_ok ((hf _ _ _).trans hv), rfl, trivial, ha⟩

theorem copies_push (hn : ∀ c ∈ n.children, g.Sees c) (hglobal : ∀ c, n ≠ .global c) :
    g.Copies ample (ArenaM.push n) (ArenaM.push n) g.Sees := by
  intro ρ hρ known a v b ha hrun
  cases hrun
  have hsame : n.renameGlobal ρ = n := Node.renameGlobal_eq_self fun c hc => absurd hc (hglobal c)
  refine .inl ⟨_, rfl, ?_, ha.sees_size, ha.push hn fun c hc => absurd hc (hglobal c)⟩
  rw [Arena.renameFrom_push ha.isExtension.size_le, hsame]
  exact congrArg (fun k => ((⟨k⟩ : ExprId), _)) Arena.size_renameFrom

theorem copies_newBinder (name : Name) :
    g.Copies ample (ArenaM.newBinder name) (ArenaM.newBinder name) fun _ => True := by
  intro ρ hρ known a v b ha hrun
  cases hrun
  have hext : a.Extends { a with nextLocal := a.nextLocal + 1 } :=
    Arena.extends_nextLocal (Nat.le_succ _)
  exact .inl ⟨_, rfl, rfl, trivial, ha.isExtension.trans hext, ha.sees_of_new, ha.known_of_new⟩

theorem copies_mkVar (x : LocalId) :
    g.Copies ample (ArenaM.mkVar x) (ArenaM.mkVar x) g.Sees :=
  copies_push (by simp [Node.children]) (by simp)

theorem copies_mkApp {head : ExprId} {args : List ExprId} (hhead : g.Sees head)
    (hargs : ∀ e ∈ args, g.Sees e) :
    g.Copies ample (ArenaM.mkApp head args) (ArenaM.mkApp head args) g.Sees := by
  cases args with
  | nil => exact copies_pure hhead
  | cons arg args =>
    refine Copies.node_bind hhead (fun _ _ => rfl) fun n hn => ?_
    cases n with
    | app inner init =>
      refine copies_push (fun c hc => ?_) (by simp)
      rw [Node.children, ← List.cons_append, List.mem_append] at hc
      exact hc.elim (hn c) (hargs c)
    | _ => exact copies_push (List.forall_mem_cons.2 ⟨hhead, hargs⟩) (by simp)

theorem copies_mkLambdas (bs : List Binder) {body : ExprId} (hbody : g.Sees body) :
    g.Copies ample (ArenaM.mkLambdas bs body) (ArenaM.mkLambdas bs body) g.Sees := by
  induction bs with
  | nil => exact copies_pure hbody
  | cons b bs ih =>
    rw [ArenaM.mkLambdas, List.foldrM_cons]
    exact ih.bind fun e he => copies_push (by simpa [Node.children] using he) (by simp)

theorem copies_mkLets {ds : List (Binder × ExprId)} (hds : ∀ d ∈ ds, g.Sees d.2) {body : ExprId}
    (hbody : g.Sees body) :
    g.Copies ample (ArenaM.mkLets ds body) (ArenaM.mkLets ds body) g.Sees := by
  induction ds with
  | nil => exact copies_pure hbody
  | cons d ds ih =>
    obtain ⟨hd, hds⟩ := List.forall_mem_cons.1 hds
    rw [ArenaM.mkLets, List.foldrM_cons]
    exact (ih hds).bind fun e he => copies_push (by simp [Node.children, hd, he]) (by simp)

end Copies

section Table

variable {κ : Type} [Ord κ] [Std.TransOrd κ] {m : Std.TreeMap κ ExprId}

def SeesAll (g : Ground) (m : Std.TreeMap κ ExprId) : Prop :=
  ∀ (k : κ) e, m[k]? = some e → g.Sees e

theorem seesAll_empty : g.SeesAll (∅ : Std.TreeMap κ ExprId) := by
  intro k e h
  simp at h

theorem SeesAll.insert (h : g.SeesAll m) (he : g.Sees e) (k : κ) : g.SeesAll (m.insert k e) := by
  intro k' e' h'
  rw [Std.TreeMap.getElem?_insert] at h'
  split at h'
  · exact Option.some.inj h' ▸ he
  · exact h k' e' h'

theorem SeesAll.erase (h : g.SeesAll m) (k : κ) : g.SeesAll (m.erase k) := by
  intro k' e' h'
  rw [Std.TreeMap.getElem?_erase] at h'
  split at h'
  · cases h'
  · exact h k' e' h'

end Table

/-- `Copies` for a computation that remembers results. -/
def CopiesMemo {α : Type} (g : Ground) (ample : Prop) (x : StateT ArenaM.SubstMemo ArenaM α)
    (V : α → Prop) : Prop :=
  ∀ m : ArenaM.SubstMemo, g.SeesAll m →
    g.Copies ample (x m) (x m) fun p => V p.1 ∧ g.SeesAll p.2

namespace CopiesMemo

variable {α β : Type} {V : α → Prop} {W : β → Prop}

theorem pure {v : α} (hv : V v) : g.CopiesMemo ample (Pure.pure v) V :=
  fun _ hm => copies_pure ⟨hv, hm⟩

theorem lift {x : ArenaM α} (hx : g.Copies ample x x V) : g.CopiesMemo ample (liftM x) V := by
  intro m hm
  show g.Copies ample (x >>= fun v => Pure.pure (v, m)) (x >>= fun v => Pure.pure (v, m)) _
  exact hx.bind fun _ hv => copies_pure ⟨hv, hm⟩

theorem get : g.CopiesMemo ample MonadState.get g.SeesAll := fun _ hm => copies_pure ⟨hm, hm⟩

theorem modify {f : ArenaM.SubstMemo → ArenaM.SubstMemo} (hf : ∀ m, g.SeesAll m → g.SeesAll (f m)) :
    g.CopiesMemo ample (modify f) fun _ => True :=
  fun m hm => copies_pure ⟨trivial, hf m hm⟩

theorem bind {x : StateT ArenaM.SubstMemo ArenaM α} {f : α → StateT ArenaM.SubstMemo ArenaM β}
    (hx : g.CopiesMemo ample x V) (hf : ∀ v, V v → g.CopiesMemo ample (f v) W) :
    g.CopiesMemo ample (x >>= f) W :=
  fun m hm => (hx m hm).bind fun p hp => hf p.1 hp.1 p.2 hp.2

theorem node_bind {f : Node → StateT ArenaM.SubstMemo ArenaM β} (he : g.Sees e)
    (hglobal : ∀ c c', f (.global c) = f (.global c'))
    (hf : ∀ n, (∀ c ∈ n.children, g.Sees c) → g.CopiesMemo ample (f n) W) :
    g.CopiesMemo ample (liftM (ArenaM.node e) >>= f) W := by
  intro m hm
  have hbind : (liftM (ArenaM.node e) >>= f) m = ArenaM.node e >>= fun n => f n m := by
    funext a
    simp only [liftM, monadLift, MonadLift.monadLift, StateT.lift, Bind.bind, StateT.bind,
      Except.bind]
    cases ArenaM.node e a <;> rfl
  rw [hbind]
  exact Copies.node_bind he (fun c c' => by rw [hglobal c c']) fun n hn => hf n hn m hm

theorem mapM {γ : Type} {f : γ → StateT ArenaM.SubstMemo ArenaM α} {zs : List γ}
    (hf : ∀ z ∈ zs, g.CopiesMemo ample (f z) V) :
    g.CopiesMemo ample (zs.mapM f) fun vs => ∀ v ∈ vs, V v := by
  induction zs with
  | nil => exact .pure (by simp)
  | cons z zs ih =>
    obtain ⟨hz, hzs⟩ := List.forall_mem_cons.1 hf
    rw [List.mapM_cons]
    refine hz.bind fun v hv => (ih hzs).bind fun vs hvs => ?_
    exact .pure (List.forall_mem_cons.2 ⟨hv, hvs⟩)

theorem run' {x : StateT ArenaM.SubstMemo ArenaM α} (hx : g.CopiesMemo ample x V) :
    g.Copies ample (x.run' ∅) (x.run' ∅) V :=
  (hx ∅ seesAll_empty).bind fun _ hp => copies_pure hp.1

end CopiesMemo

section Substitution

variable {s : Substitution}
  {walk : Substitution → ExprId → StateT ArenaM.SubstMemo ArenaM ExprId}

theorem copies_substituteUnder
    (hwalk : ∀ s e, g.SeesAll s → g.Sees e → g.CopiesMemo ample (walk s e) g.Sees)
    (hs : g.SeesAll s) (b : Binder) {body : ExprId} (hbody : g.Sees body) :
    g.CopiesMemo ample (ArenaM.substituteUnder walk s b body) g.Sees := by
  rw [ArenaM.substituteUnder]
  split
  · dsimp only
    split
    · exact .pure hbody
    · exact .lift (hwalk _ _ (hs.erase b.id) hbody).run'
  · exact hwalk s body hs hbody

theorem copies_substituteNode
    (hwalk : ∀ s e, g.SeesAll s → g.Sees e → g.CopiesMemo ample (walk s e) g.Sees)
    (hs : g.SeesAll s) (he : g.Sees e) (hn : ∀ c ∈ n.children, g.Sees c) :
    g.CopiesMemo ample (ArenaM.substituteNode walk s e n) g.Sees := by
  cases n with
  | var x =>
    refine .pure ?_
    rw [Std.TreeMap.getD_eq_getD_getElem?]
    cases hx : s[x]? with
    | none => exact he
    | some r => exact hs x r hx
  | global c => exact .pure he
  | lit l => exact .pure he
  | app head args =>
    obtain ⟨hhead, hargs⟩ := List.forall_mem_cons.1 hn
    refine (hwalk s head hs hhead).bind fun head' hhead' => ?_
    refine (CopiesMemo.mapM fun arg harg => hwalk s arg hs (hargs arg harg)).bind
      fun args' hargs' => ?_
    split
    · exact .pure he
    · exact .lift (copies_mkApp hhead' hargs')
  | lam b body =>
    refine (copies_substituteUnder hwalk hs b (hn body (by simp [Node.children]))).bind
      fun body' hbody' => ?_
    split
    · exact .pure he
    · exact .lift (copies_push (by simpa [Node.children] using hbody') (by simp))
  | letIn b value body =>
    refine (hwalk s value hs (hn value (by simp [Node.children]))).bind fun value' hvalue' => ?_
    refine (copies_substituteUnder hwalk hs b (hn body (by simp [Node.children]))).bind
      fun body' hbody' => ?_
    split
    · exact .pure he
    · exact .lift (copies_push (by simp [Node.children, hvalue', hbody']) (by simp))

theorem copies_substituteFrom (fuel : Nat) (hs : g.SeesAll s) (he : g.Sees e) :
    g.CopiesMemo ample (ArenaM.substituteFrom fuel s e) g.Sees := by
  induction fuel generalizing s e with
  | zero =>
    intro m hm ρ hρ known a v b ha hrun
    cases hrun
  | succ fuel ih =>
    rw [ArenaM.substituteFrom]
    refine CopiesMemo.get.bind fun m hm => ?_
    split
    · next r hr => exact .pure (hm e r hr)
    · refine .node_bind he (fun _ _ => rfl) fun n hn => ?_
      refine (copies_substituteNode (fun _ _ => ih) hs he hn).bind fun r hr => ?_
      exact (CopiesMemo.modify fun m hm => hm.insert hr e).bind fun _ _ => .pure hr

/-- A bound on the depth of terms is the same under other names. -/
theorem Copies.depthBound_bind {α : Type} {V : α → Prop} {f f' : Nat → ArenaM α}
    (hf : ∀ n, g.Copies ample (f n) (f' n) V) :
    g.Copies ample (get >>= fun a => f a.depthBound) (get >>= fun a => f' a.depthBound) V := by
  intro ρ hρ known a v b ha hrun
  have h := hf a.depthBound hρ ha hrun
  rw [← Arena.depthBound_renameFrom] at h
  exact h

theorem copies_substitute (hs : g.SeesAll s) (he : g.Sees e) :
    g.Copies ample (ArenaM.substitute s e) (ArenaM.substitute s e) g.Sees := by
  rw [ArenaM.substitute]
  split
  · exact copies_pure he
  · exact Copies.depthBound_bind fun n => (copies_substituteFrom n hs he).run'

theorem copies_instantiate (he : g.Sees e) (x : LocalId) {value : ExprId} (hvalue : g.Sees value) :
    g.Copies ample (ArenaM.instantiate e x value) (ArenaM.instantiate e x value) g.Sees :=
  copies_substitute (seesAll_empty.insert hvalue x) he

end Substitution

theorem copies_feed {head : ExprId} {args : List ExprId} (hhead : g.Sees head)
    (hargs : ∀ e ∈ args, g.Sees e) :
    g.Copies ample (ArenaM.feed head args) (ArenaM.feed head args)
      fun p => g.Sees p.1 ∧ ∀ e ∈ p.2, g.Sees e := by
  induction args generalizing head with
  | nil => exact copies_pure ⟨hhead, hargs⟩
  | cons arg args ih =>
    obtain ⟨harg, htail⟩ := List.forall_mem_cons.1 hargs
    refine Copies.node_bind hhead (fun _ _ => rfl) fun n hn => ?_
    cases n with
    | lam b body =>
      exact (copies_instantiate (hn body (by simp [Node.children])) b.id harg).bind
        fun e he => ih he htail
    | _ => exact copies_pure ⟨hhead, hargs⟩

/-- The fuel of the two sides may differ. -/
theorem copies_headReduce {fuel fuel' : Nat} (hfuel : ample → fuel ≤ fuel') (he : g.Sees e) :
    g.Copies ample (ArenaM.headReduce fuel e) (ArenaM.headReduce fuel' e) g.Sees := by
  induction fuel generalizing fuel' e with
  | zero =>
    intro ρ hρ known a v b ha hrun
    cases hrun
  | succ fuel ih =>
    cases fuel' with
    | zero =>
      intro ρ hρ known a v b ha hrun
      exact .inr ⟨rfl, fun hample => absurd (hfuel hample) (Nat.not_succ_le_zero _)⟩
    | succ fuel' =>
      refine Copies.node_bind he (fun _ _ => rfl) fun n hn => ?_
      cases n with
      | app head args =>
        obtain ⟨hhead, hargs⟩ := List.forall_mem_cons.1 hn
        refine Copies.node_bind hhead (fun _ _ => rfl) fun n _ => ?_
        cases n with
        | lam b body =>
          refine (copies_feed hhead hargs).bind fun p hp => ?_
          refine (copies_mkApp hp.1 hp.2).bind fun r hr => ?_
          exact ih (fun hample => Nat.le_of_succ_le_succ (hfuel hample)) hr
        | _ => exact copies_pure he
      | _ => exact copies_pure he

theorem copies_endsInVar (x : LocalId) (head : ExprId) (init : List ExprId) {last : ExprId}
    (hlast : g.Sees last) :
    g.Copies ample (ArenaM.endsInVar x head init last) (ArenaM.endsInVar x head init last)
      fun _ => True := by
  have hany (es : List ExprId) :
      g.Copies ample (es.anyM fun e => ArenaM.ask fun a => a.hasFree x e)
        (es.anyM fun e => ArenaM.ask fun a => a.hasFree x e) fun _ => True := by
    induction es with
    | nil => exact copies_pure trivial
    | cons e es ih =>
      refine (copies_ask fun k ρ a => Arena.hasFree_renameFrom x e).bind fun occurs _ => ?_
      cases occurs with
      | true => exact copies_pure trivial
      | false => exact ih
  refine Copies.node_bind hlast (fun _ _ => rfl) fun n _ => ?_
  cases n with
  | var y =>
    dsimp only
    split
    · exact copies_pure trivial
    · exact (hany _).bind fun _ _ => copies_pure trivial
  | _ => exact copies_pure trivial

theorem copies_dropArg? (x : LocalId) (he : g.Sees e) :
    g.Copies ample (ArenaM.dropArg? x e) (ArenaM.dropArg? x e) fun r => ∀ e' ∈ r, g.Sees e' := by
  refine Copies.node_bind he (fun _ _ => rfl) fun n hn => ?_
  cases n with
  | app head args =>
    obtain ⟨hhead, hargs⟩ := List.forall_mem_cons.1 hn
    dsimp only
    split
    · next last hlast =>
      refine (copies_endsInVar x head _ (hargs last (List.mem_of_getLast? hlast))).bind
        fun ends _ => ?_
      cases ends with
      | true =>
        refine (copies_mkApp hhead fun c hc => hargs c (args.dropLast_subset hc)).bind
          fun r hr => copies_pure ?_
        rintro _ ⟨⟩
        exact hr
      | false => exact copies_pure (by simp)
    · exact copies_pure (by simp)
  | _ => exact copies_pure (by simp)

theorem copies_etaReduceFrom (fuel : Nat) (he : g.Sees e) :
    g.Copies ample (ArenaM.etaReduceFrom fuel e) (ArenaM.etaReduceFrom fuel e) g.Sees := by
  induction fuel generalizing e with
  | zero =>
    intro ρ hρ known a v b ha hrun
    cases hrun
  | succ fuel ih =>
    refine Copies.node_bind he (fun _ _ => rfl) fun n hn => ?_
    cases n with
    | lam b body =>
      refine (ih (hn body (by simp [Node.children]))).bind fun body' hbody' => ?_
      refine (copies_dropArg? b.id hbody').bind fun r hr => ?_
      cases r with
      | some reduced => exact copies_pure (hr reduced rfl)
      | none =>
        dsimp only
        split
        · exact copies_pure he
        · exact copies_push (by simpa [Node.children] using hbody') (by simp)
    | _ => exact copies_pure he

theorem copies_etaReduce (he : g.Sees e) :
    g.Copies ample (ArenaM.etaReduce e) (ArenaM.etaReduce e) g.Sees :=
  Copies.depthBound_bind fun n => copies_etaReduceFrom n he

end Ground

end LambdaLifting
