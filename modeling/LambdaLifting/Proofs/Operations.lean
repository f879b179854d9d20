import LambdaLifting.Proofs.Reduction
import LambdaLifting.Proofs.Stable

namespace LambdaLifting

namespace Arena

/-- A stored term with globals in `K` only. -/
def Holds (a : Arena) (K : Name → Prop) (e : ExprId) : Prop :=
  ∃ t, a.term? e = some t ∧ ∀ c ∈ t.globals, K c

variable {a b : Arena} {K L : Name → Prop} {e : ExprId}

theorem Holds.mono (h : a.Holds K e) (hab : a.Extends b) (hK : ∀ c, K c → L c) : b.Holds L e := by
  obtain ⟨t, ht, hglobals⟩ := h
  exact ⟨t, hab.term?_eq_some ht, fun c hc => hK c (hglobals c hc)⟩

theorem Holds.extend (h : a.Holds K e) (hab : a.Extends b) : b.Holds K e :=
  h.mono hab fun _ hc => hc

theorem Holds.index_lt (h : a.Holds K e) : e.index < a.size := by
  obtain ⟨t, ht, -⟩ := h
  exact index_lt_of_term? ht

theorem WellFormed.holds_true (ha : a.WellFormed) (he : e.index < a.size) :
    a.Holds (fun _ => True) e := by
  obtain ⟨t, ht⟩ := ha.exists_term he
  exact ⟨t, ht, fun _ _ => trivial⟩

theorem Holds.exists_node (h : a.Holds K e) : ∃ n, a.node? e = some n := by
  obtain ⟨t, ht, -⟩ := h
  exact node?_of_term? ht

theorem Denote.holds {es : List ExprId} {ts : List Term} (h : a.Denote es ts)
    (hts : ∀ t ∈ ts, ∀ c ∈ t.globals, K c) : ∀ e ∈ es, a.Holds K e := by
  induction h with
  | nil => simp
  | cons ht _ ih =>
    obtain ⟨hglobals, hts⟩ := List.forall_mem_cons.1 hts
    exact List.forall_mem_cons.2 ⟨⟨_, ht, hglobals⟩, ih hts⟩

theorem Holds.child (ha : a.WellFormed) (h : a.Holds K e) {n : Node} (hn : a.node? e = some n) :
    ∀ c ∈ n.children, a.Holds K c := by
  obtain ⟨t, ht, hglobals⟩ := h
  cases ha.shows_of_node? ht hn with
  | var | global | lit => simp [Node.children]
  | @app head args f xs hf hxs =>
    refine List.forall_mem_cons.2 ⟨⟨f, hf, fun c hc => ?_⟩, hxs.holds fun x hx c hc => ?_⟩
    · exact hglobals c (Term.mem_globals_apply.2 (.inl hc))
    · exact hglobals c (Term.mem_globals_apply.2 (.inr ⟨x, hx, hc⟩))
  | lam hbody => exact List.forall_mem_singleton.2 ⟨_, hbody, hglobals⟩
  | letIn hv hbody =>
    obtain ⟨hgv, hgb⟩ := (stable_globals K).letIn hglobals
    exact List.forall_mem_cons.2 ⟨⟨_, hv, hgv⟩, List.forall_mem_singleton.2 ⟨_, hbody, hgb⟩⟩

theorem Holds.global (ha : a.WellFormed) (h : a.Holds K e) {c : Name}
    (hn : a.node? e = some (.global c)) : K c := by
  obtain ⟨t, ht, hglobals⟩ := h
  cases ha.shows_of_node? ht hn with
  | global => exact hglobals c (List.mem_singleton.2 rfl)

end Arena

def Substitution.HeldIn (S : Substitution) (a : Arena) (K : Name → Prop) : Prop :=
  ∀ (x : LocalId) (e : ExprId), S[x]? = some e → a.Holds K e

namespace Substitution.HeldIn

variable {S : Substitution} {a b : Arena} {K L : Name → Prop}

theorem empty (a : Arena) (K : Name → Prop) : HeldIn ∅ a K := by
  intro x e h
  simp at h

theorem insert (hS : S.HeldIn a K) (x : LocalId) {e : ExprId} (he : a.Holds K e) :
    HeldIn (S.insert x e) a K := by
  intro y d hd
  rw [Std.TreeMap.getElem?_insert] at hd
  split at hd
  · exact Option.some.inj hd ▸ he
  · exact hS y d hd

theorem mono (hS : S.HeldIn a K) (hab : a.Extends b) (hK : ∀ c, K c → L c) : S.HeldIn b L :=
  fun x e he => (hS x e he).mono hab hK

theorem exists_means (hS : S.HeldIn a K) :
    ∃ s, S.Means a s ∧ ∀ x u, s x = some u → ∀ c ∈ u.globals, K c := by
  refine ⟨S.replacement a, means_replacement fun x e hx => ?_, fun x u hu => ?_⟩
  · obtain ⟨t, ht, -⟩ := hS x e hx
    exact ⟨t, ht⟩
  · obtain ⟨e, he, hterm⟩ := Option.bind_eq_some_iff.1 hu
    obtain ⟨t, ht, hglobals⟩ := hS x e he
    exact Option.some.inj (ht.symm.trans hterm) ▸ hglobals

end Substitution.HeldIn

namespace ArenaM

/-- A computation adds nodes and returns a stored term with globals in `K` only. -/
def Stores (x : ArenaM ExprId) (a : Arena) (K : Name → Prop) : Prop :=
  Yields x a fun e b => a.Grows b ∧ b.Holds K e

variable {a : Arena} {K : Name → Prop} {e : ExprId}

theorem Builds.stores {x : ArenaM ExprId} {t : Term} (h : Builds x a t)
    (ht : ∀ c ∈ t.globals, K c) : Stores x a K :=
  Yields.imp h fun _ _ hb => ⟨hb.1, t, hb.2, ht⟩

theorem stores_mkVar (ha : a.WellFormed) (x : LocalId) : Stores (mkVar x) a K :=
  (builds_mkVar ha x).stores (by simp [Term.globals])

theorem stores_mkApp (ha : a.WellFormed) {args : List ExprId} (he : a.Holds K e)
    (hargs : ∀ x ∈ args, a.Holds K x) : Stores (mkApp e args) a K := by
  obtain ⟨f, hf, hglobals⟩ := he
  obtain ⟨ts, hts, hall⟩ := Arena.exists_denote hargs
  refine (builds_mkApp ha hf hts).stores fun c hc => ?_
  rcases Term.mem_globals_apply.1 hc with hc | ⟨t, ht, hc⟩
  · exact hglobals c hc
  · exact hall t ht c hc

theorem stores_mkLambdas (ha : a.WellFormed) (he : a.Holds K e) (bs : List Binder) :
    Stores (mkLambdas bs e) a K := by
  obtain ⟨t, ht, hglobals⟩ := he
  refine (builds_mkLambdas ha ht bs).stores ?_
  rwa [Term.globals_lambdas]

theorem stores_letIn (ha : a.WellFormed) (b : Binder) {value : ExprId} (hv : a.Holds K value)
    (he : a.Holds K e) : Stores (push (.letIn b value e)) a K := by
  obtain ⟨v, hv, hgv⟩ := hv
  obtain ⟨t, ht, hgt⟩ := he
  refine (builds_push ha (.letIn hv ht) (by simp)).stores fun c hc => ?_
  rcases List.mem_append.1 hc with hc | hc
  · exact hgv c hc
  · exact hgt c hc

theorem stores_mkLets (ha : a.WellFormed) (he : a.Holds K e) {ds : List (Binder × ExprId)}
    (hds : ∀ d ∈ ds, a.Holds K d.2) : Stores (mkLets ds e) a K := by
  induction ds with
  | nil => exact .pure ⟨.refl ha, he⟩
  | cons d ds ih =>
    obtain ⟨hd, hds⟩ := List.forall_mem_cons.1 hds
    rw [mkLets, List.foldrM_cons]
    refine Yields.bind (ih hds) fun body b hbody => ?_
    obtain ⟨hab, hbody⟩ := hbody
    exact Yields.imp (stores_letIn hab.wellFormed d.1 (hd.extend hab.isExtension) hbody)
      fun _ _ h => ⟨hab.trans h.1, h.2⟩

theorem stores_substitute (ha : a.WellFormed) {S : Substitution} (hS : S.HeldIn a K)
    (he : a.Holds K e) : Stores (substitute S e) a K := by
  obtain ⟨t, ht, hglobals⟩ := he
  obtain ⟨s, hmeans, hvalues⟩ := hS.exists_means
  refine (builds_substitute ha hmeans ht).stores fun c hc => ?_
  rcases Term.mem_globals_substitute hc with hc | ⟨y, u, hu, hc⟩
  · exact hglobals c hc
  · exact hvalues y u hu c hc

theorem stores_instantiate (ha : a.WellFormed) (he : a.Holds K e) (x : LocalId) {value : ExprId}
    (hv : a.Holds K value) : Stores (instantiate e x value) a K :=
  stores_substitute ha ((Substitution.HeldIn.empty a K).insert x hv) he

theorem stores_etaReduce (ha : a.WellFormed) (he : a.Holds K e) : Stores (etaReduce e) a K := by
  obtain ⟨t, ht, hglobals⟩ := he
  exact (builds_etaReduce ha ht).stores fun c hc => hglobals c (t.globals_etaReduce ▸ hc)

/-- Reduction of a stored term can fail to end, and in no other way. -/
theorem stores_headReduce (ha : a.WellFormed) (he : a.Holds K e) (fuel : Nat) :
    headReduce fuel e a = .error .outOfFuel ∨ Stores (headReduce fuel e) a K := by
  obtain ⟨t, ht, hglobals⟩ := he
  cases hrun : headReduce fuel e a with
  | error f => exact .inl (by rw [eq_outOfFuel_of_headReduce ha ht hrun])
  | ok r =>
    obtain ⟨hab, u, hu, -, hsteps⟩ := headReduce_eq_ok ha ht hrun
    refine .inr ⟨r.1, r.2, hrun, hab, u, hu, ?_⟩
    rcases hsteps with heq | hsteps
    · rw [heq, hab.isExtension.term?_eq_some ht] at hu
      exact Option.some.inj hu ▸ hglobals
    · exact (stable_globals K).transGen hsteps hglobals

end ArenaM

namespace Arena

theorem node?_of_app {a : Arena} {e head : ExprId} {r : ArgRange}
    (h : a.cells[e.index]? = some (.app head r)) :
    a.node? e = some (.app head (a.argsAt r)) := by
  rw [node?_eq_map, h]
  rfl

theorem WellFormed.range_ne_empty {a : Arena} (ha : a.WellFormed) {e head : ExprId} {r : ArgRange}
    (h : a.cells[e.index]? = some (.app head r)) : 0 < r.length := by
  have hstop : r.stop ≤ a.args.size := a.stop_le _ (Array.mem_of_getElem? h)
  rw [← length_argsAt hstop, List.length_pos_iff]
  exact ha.args_ne_nil (node?_of_app h)

theorem Extends.argList_eq_ok {a b : Arena} (hab : a.Extends b) {r : ArgRange} {xs : List ExprId}
    (h : a.argList r = .ok xs) : b.argList r = .ok xs := by
  by_cases hnil : r.length = 0
  · rwa [argList, if_pos hnil] at h ⊢
  · by_cases hstop : r.stop ≤ a.args.size
    · have hle : a.args.size ≤ b.args.size := by simpa using hab.args.length_le
      rw [Arena.argList_eq_ok hstop, ← hab.argsAt_eq hstop] at h
      rw [Arena.argList_eq_ok (Nat.le_trans hstop hle), h]
    · rw [argList, if_neg hnil, if_neg hstop] at h
      cases h

/-- What stays when an arena grows: nodes and the list of arguments start as they were, each stretch
of the list reads the same, and variables that were handed out are not handed out again. The arena
is well-formed, and each application has a stretch of the list that is not empty and holds its
arguments. -/
structure Appends (a b : Arena) : Prop where
  wellFormed : b.WellFormed
  cells : a.cells.toList <+: b.cells.toList
  args : a.args.toList <+: b.args.toList
  argList : ∀ r xs, a.argList r = .ok xs → b.argList r = .ok xs
  range : ∀ e head r, b.cells[e.index]? = some (.app head r) →
    0 < r.length ∧ r.stop ≤ b.args.size ∧ ∃ args, b.argList r = .ok args ∧
      b.node? e = some (.app head args)
  nextLocal_le : a.nextLocal ≤ b.nextLocal

theorem Extends.appends {a b : Arena} (hab : a.Extends b) (hb : b.WellFormed) : a.Appends b where
  wellFormed := hb
  cells := hab.cells
  args := hab.args
  argList _ _ := hab.argList_eq_ok
  range e head r h := by
    have hstop : r.stop ≤ b.args.size := b.stop_le _ (Array.mem_of_getElem? h)
    exact ⟨hb.range_ne_empty h, hstop, b.argsAt r, Arena.argList_eq_ok hstop, node?_of_app h⟩
  nextLocal_le := hab.nextLocal_le

end Arena

inductive Operation where
  | app (head : ExprId) (args : List ExprId)
  | lam (b : Binder) (body : ExprId)
  | letIn (b : Binder) (value body : ExprId)
  | lambdas (bs : List Binder) (body : ExprId)
  | lets (ds : List (Binder × ExprId)) (body : ExprId)
  | substitute (S : Substitution) (e : ExprId)
  | instantiate (e : ExprId) (x : LocalId) (value : ExprId)
  | headReduce (fuel : Nat) (e : ExprId)
  | etaReduce (e : ExprId)

namespace Operation

def run : Operation → ArenaM ExprId
  | app head args => ArenaM.mkApp head args
  | lam b body => ArenaM.push (.lam b body)
  | letIn b value body => ArenaM.push (.letIn b value body)
  | lambdas bs body => ArenaM.mkLambdas bs body
  | lets ds body => ArenaM.mkLets ds body
  | substitute S e => ArenaM.substitute S e
  | instantiate e x value => ArenaM.instantiate e x value
  | headReduce fuel e => ArenaM.headReduce fuel e
  | etaReduce e => ArenaM.etaReduce e

def operands : Operation → List ExprId
  | app head args => head :: args
  | lam _ body => [body]
  | letIn _ value body => [value, body]
  | lambdas _ body => [body]
  | lets ds body => body :: ds.map Prod.snd
  | substitute S e => e :: S.toList.map Prod.snd
  | instantiate e _ value => [e, value]
  | headReduce _ e => [e]
  | etaReduce e => [e]

theorem stores_run (op : Operation) {a : Arena} (ha : a.WellFormed) {K : Name → Prop}
    (h : ∀ e ∈ op.operands, a.Holds K e) :
    (∃ fuel e, op = headReduce fuel e ∧ op.run a = .error .outOfFuel) ∨
      ArenaM.Stores op.run a K := by
  cases op with
  | app head args =>
    obtain ⟨hhead, hargs⟩ := List.forall_mem_cons.1 h
    exact .inr (ArenaM.stores_mkApp ha hhead hargs)
  | lam b body =>
    obtain ⟨t, ht, hglobals⟩ := h body (by simp [operands])
    exact .inr ((ArenaM.builds_push ha (.lam ht) (by simp)).stores hglobals)
  | letIn b value body =>
    exact .inr (ArenaM.stores_letIn ha b (h value (by simp [operands]))
      (h body (by simp [operands])))
  | lambdas bs body => exact .inr (ArenaM.stores_mkLambdas ha (h body (by simp [operands])) bs)
  | lets ds body =>
    obtain ⟨hbody, hds⟩ := List.forall_mem_cons.1 h
    exact .inr (ArenaM.stores_mkLets ha hbody fun d hd => hds d.2 (List.mem_map_of_mem hd))
  | substitute S e =>
    obtain ⟨he, hS⟩ := List.forall_mem_cons.1 h
    refine .inr (ArenaM.stores_substitute ha (fun x d hd => hS d ?_) he)
    exact List.mem_map.2 ⟨(x, d), Std.TreeMap.mem_toList_iff_getElem?_eq_some.2 hd, rfl⟩
  | instantiate e x value =>
    exact .inr (ArenaM.stores_instantiate ha (h e (by simp [operands])) x
      (h value (by simp [operands])))
  | headReduce fuel e =>
    rcases ArenaM.stores_headReduce ha (h e (by simp [operands])) fuel with hdry | hstores
    · exact .inl ⟨fuel, e, rfl, hdry⟩
    · exact .inr hstores
  | etaReduce e => exact .inr (ArenaM.stores_etaReduce ha (h e (by simp [operands])))

theorem appends_of_run (op : Operation) {a : Arena} (ha : a.WellFormed)
    (h : ∀ e ∈ op.operands, e.index < a.size) :
    (∃ fuel e, op = headReduce fuel e ∧ op.run a = .error .outOfFuel) ∨
      ∃ e b, op.run a = .ok (e, b) ∧ a.Appends b ∧ e.index < b.size := by
  refine (op.stores_run ha fun e he => ha.holds_true (h e he)).imp_right ?_
  rintro ⟨e, b, hrun, hab, he⟩
  exact ⟨e, b, hrun, hab.isExtension.appends hab.wellFormed, he.index_lt⟩

end Operation

end LambdaLifting
