import LambdaLifting.Proofs.Reduction

namespace LambdaLifting

structure Decl.Shows (a : Arena) (d : Decl) (x : Entry) : Prop where
  id_eq : d.id = x.id
  name_eq : d.name = x.name
  value : (d.value = none ∧ x.value = none) ∨
    ∃ e t, d.value = some e ∧ x.value = some t ∧ a.term? e = some t

theorem Decl.Shows.mono {a b : Arena} {d : Decl} {x : Entry} (h : d.Shows a x)
    (hab : a.Extends b) : d.Shows b x := by
  refine ⟨h.id_eq, h.name_eq, h.value.imp_right ?_⟩
  rintro ⟨e, t, he, ht, h⟩
  exact ⟨e, t, he, ht, hab.term?_eq_some h⟩

theorem Decl.map_id_eq_ids {a : Arena} {ds : List Decl} {Γ : Context}
    (h : List.Forall₂ (Decl.Shows a) ds Γ) : ds.map Decl.id = Γ.ids := by
  induction h with
  | nil => rfl
  | cons h _ ih => rw [List.map_cons, Context.ids_cons, h.id_eq, ih]

/-- The declarations of a scope, latest first. -/
structure Scope.Lists (s : Scope) (ds : List Decl) : Prop where
  ordered : ds.Pairwise fun d d' => d'.position < d.position
  position_lt : ∀ d ∈ ds, d.position < s.next
  find?_eq : ∀ x, s.find? x = ds.find? (·.id = x)

namespace Scope

theorem lists_empty : Lists {} [] :=
  ⟨.nil, by simp, fun x => by simp [find?]⟩

theorem Lists.declare {s : Scope} {ds : List Decl} (h : s.Lists ds) (b : Binder)
    (value : Option ExprId) :
    (s.declare b value).2.Lists (⟨b.id, b.name, value, s.next⟩ :: ds) where
  ordered := List.pairwise_cons.2 ⟨h.position_lt, h.ordered⟩
  position_lt := List.forall_mem_cons.2
    ⟨Nat.lt_succ_self _, fun d hd => Nat.lt_succ_of_lt (h.position_lt d hd)⟩
  find?_eq x := by
    rw [find?_declare, h.find?_eq, List.find?_cons]
    by_cases hx : x = b.id
    · simp [hx]
    · simp [hx, Ne.symm hx]

theorem find?_eq_none_of_not_mem {ds : List Decl} {x : LocalId} (h : x ∉ ds.map Decl.id) :
    ds.find? (·.id = x) = none := by
  rw [List.find?_eq_none]
  intro d hd hx
  exact h (List.mem_map.2 ⟨d, hd, by simpa using hx⟩)

/-- Removing the latest declarations leaves the others, if they do not declare a variable again. -/
theorem Lists.remove {s : Scope} {cs ds : List Decl} (h : s.Lists (cs ++ ds)) {xs : List LocalId}
    (hxs : ∀ x, x ∈ xs ↔ x ∈ cs.map Decl.id) (hds : ∀ x ∈ xs, x ∉ ds.map Decl.id) :
    (s.remove xs).Lists ds where
  ordered := (List.pairwise_append.1 h.ordered).2.1
  position_lt d hd := h.position_lt d (List.mem_append_right _ hd)
  find?_eq x := by
    rw [find?_remove, h.find?_eq, List.find?_append]
    split
    · next hx => exact (find?_eq_none_of_not_mem (hds x hx)).symm
    · next hx =>
      rw [find?_eq_none_of_not_mem (mt (hxs x).2 hx)]
      rfl

end Scope

def Procedure.Shows (a : Arena) (p : Procedure) (d : Definition) : Prop :=
  p.name = d.name ∧ a.term? p.body = some d.body

/-- A state holds the scope of a context and has got to a stage. -/
structure LiftState.Models (s : LiftState) (Γ : Context) (w : Stage) : Prop where
  wellFormed : s.arena.WellFormed
  nextLocal_eq : s.arena.nextLocal = w.nextLocal
  names_eq : s.names = w.names
  lifted : List.Forall₂ (Procedure.Shows s.arena) s.lifted.toList w.lifted
  inScope : ∃ ds, s.scope.Lists ds ∧ List.Forall₂ (Decl.Shows s.arena) ds Γ
  isScoped : Γ.Scoped w.nextLocal

namespace LiftState.Models

variable {s : LiftState} {Γ : Context} {w : Stage}

theorem mem_ids_of_contains (h : s.Models Γ w) {x : LocalId} (hx : s.scope.contains x) :
    x ∈ Γ.ids := by
  obtain ⟨ds, hds, hshow⟩ := h.inScope
  rw [Scope.contains, hds.find?_eq, List.find?_isSome] at hx
  obtain ⟨d, hd, hid⟩ := hx
  rw [← Decl.map_id_eq_ids hshow]
  exact List.mem_map.2 ⟨d, hd, by simpa using hid⟩

theorem extend (h : s.Models Γ w) {b : Arena} (hab : s.arena.Extends b) (hb : b.WellFormed)
    {k : Nat} (hk : b.nextLocal = s.arena.nextLocal + k) :
    { s with arena := b }.Models Γ (w.mint k) where
  wellFormed := hb
  nextLocal_eq := by rw [hk, h.nextLocal_eq]; rfl
  names_eq := h.names_eq
  lifted := h.lifted.imp fun _ _ => And.imp_right hab.term?_eq_some
  inScope := by
    obtain ⟨ds, hds, hΓ⟩ := h.inScope
    exact ⟨ds, hds, hΓ.imp fun _ _ => (Decl.Shows.mono · hab)⟩
  isScoped := h.isScoped.mono (Nat.le_add_right ..)

theorem grow (h : s.Models Γ w) {b : Arena} (hab : s.arena.Grows b) :
    { s with arena := b }.Models Γ w :=
  h.extend hab.isExtension hab.wellFormed (k := 0) hab.nextLocal_eq

theorem declare (h : s.Models Γ w) (name : Name) {value : Option ExprId} {v : Option Term}
    {next : Nat} (hnext : w.nextLocal = next + 1) (hΓ : Γ.Scoped next)
    (hvalue : (value = none ∧ v = none) ∨
      ∃ e t, value = some e ∧ v = some t ∧ s.arena.term? e = some t)
    (hv : ∀ t, v = some t → (∀ x ∈ t.occurrences, x ∈ Γ.ids) ∧ ∀ x ∈ t.binders, x.index < next) :
    { s with scope := (s.scope.declare ⟨⟨next⟩, name⟩ value).2 }.Models
      (⟨⟨next⟩, name, v⟩ :: Γ) w where
  wellFormed := h.wellFormed
  nextLocal_eq := h.nextLocal_eq
  names_eq := h.names_eq
  lifted := h.lifted
  inScope := by
    obtain ⟨ds, hds, hshow⟩ := h.inScope
    exact ⟨_, hds.declare ⟨⟨next⟩, name⟩ value, .cons ⟨rfl, rfl, hvalue⟩ hshow⟩
  isScoped := hnext ▸ hΓ.declare name v hv

theorem leave {Δ : Context} (h : s.Models (Δ ++ Γ) w) {xs : List LocalId}
    (hxs : ∀ x, x ∈ xs ↔ x ∈ Δ.ids) : { s with scope := s.scope.remove xs }.Models Γ w where
  wellFormed := h.wellFormed
  nextLocal_eq := h.nextLocal_eq
  names_eq := h.names_eq
  lifted := h.lifted
  inScope := by
    obtain ⟨ds, hds, hshow⟩ := h.inScope
    have hΔ := List.forall₂_take_append ds Δ Γ hshow
    have hΓ := List.forall₂_drop_append ds Δ Γ hshow
    rw [← List.take_append_drop Δ.length ds] at hds
    refine ⟨_, hds.remove (fun x => ?_) (fun x hx => ?_), hΓ⟩
    · rw [hxs, Decl.map_id_eq_ids hΔ]
    · rw [Decl.map_id_eq_ids hΓ]
      exact h.isScoped.not_mem_of_append ((hxs x).1 hx)
  isScoped := h.isScoped.of_append

theorem addProcedure (h : s.Models Γ w) (name : Name) (names : NameSource) {body : ExprId}
    {t : Term} (ht : s.arena.term? body = some t) :
    { s with names := names, lifted := s.lifted.push ⟨name, body⟩ }.Models Γ
      ⟨w.nextLocal, names, w.lifted ++ [Definition.mk name t]⟩ where
  wellFormed := h.wellFormed
  nextLocal_eq := h.nextLocal_eq
  names_eq := rfl
  lifted := by
    rw [Array.toList_push]
    exact List.rel_append h.lifted (List.Forall₂.cons (And.intro rfl ht) .nil)
  inScope := h.inScope
  isScoped := h.isScoped

theorem emit (h : s.Models Γ w) (events : Array Event) : { s with events := events }.Models Γ w :=
  ⟨h.wellFormed, h.nextLocal_eq, h.names_eq, h.lifted, h.inScope, h.isScoped⟩

end LiftState.Models

/-- `s'` is a state after `s`, in the scope of `Γ` and at the stage `w`. -/
structure LiftState.Reaches (s s' : LiftState) (Γ : Context) (w : Stage) : Prop where
  models : s'.Models Γ w
  isExtension : s.arena.Extends s'.arena

namespace LiftM

variable {ctx : LiftContext} {s s' : LiftState} {Γ : Context} {w : Stage}

theorem node_bind_eq {α : Type} {e : ExprId} {n : Node} (hn : s.arena.node? e = some n)
    (f : Node → LiftM α) : ((liftM (ArenaM.node e) : LiftM Node) >>= f) ctx s = f n ctx s :=
  bind_of_runs (runs_liftM.2 ⟨s.arena, ArenaM.node_eq_ok hn, rfl⟩)

theorem runs_node_bind {α : Type} {e : ExprId} {n : Node} (hn : s.arena.node? e = some n)
    {f : Node → LiftM α} {v : α} :
    ((liftM (ArenaM.node e) : LiftM Node) >>= f).Runs ctx s v s' ↔ (f n).Runs ctx s v s' := by
  rw [Runs, Runs, node_bind_eq hn]

theorem exists_term_of_runs_node {α : Type} (hs : s.arena.WellFormed) {e : ExprId}
    {f : Node → LiftM α} {v : α}
    (hrun : ((liftM (ArenaM.node e) : LiftM Node) >>= f).Runs ctx s v s') :
    ∃ t, s.arena.term? e = some t := by
  simp only [runs_bind, runs_liftM] at hrun
  obtain ⟨n, _, ⟨a, hn, -⟩, -⟩ := hrun
  cases hnode : s.arena.node? e with
  | none => simp [ArenaM.node, ArenaM.ask, Arena.node_eq, hnode, Bind.bind, Except.bind] at hn
  | some m => exact hs.exists_term (Arena.index_lt_of_node? hnode)

theorem reaches_openBinder (h : s.Models Γ w) {name : Name} {value : Option ExprId}
    {v : Option Term} {b : Binder} {x : ExprId}
    (hvalue : (value = none ∧ v = none) ∨
      ∃ e t, value = some e ∧ v = some t ∧ s.arena.term? e = some t)
    (hv : ∀ t, v = some t → (∀ x ∈ t.occurrences, x ∈ Γ.ids) ∧
      ∀ x ∈ t.binders, x.index < w.nextLocal)
    (hrun : (openBinder name value).Runs ctx s (b, x) s') :
    b = ⟨⟨w.nextLocal⟩, name⟩ ∧ s'.arena.term? x = some (.var b.id) ∧
      s.Reaches s' (⟨b.id, b.name, v⟩ :: Γ) (w.mint 1) := by
  simp only [openBinder, runs_bind, runs_liftM, runs_update, runs_pure, Prod.mk.injEq] at hrun
  obtain ⟨b', s₁, ⟨a₁, ha₁, rfl⟩, x', s₂, ⟨a₂, ha₂, rfl⟩, -, s₃, rfl, ⟨rfl, rfl⟩, rfl⟩ := hrun
  obtain ⟨rfl, hext, hwf, hnext⟩ := (ArenaM.yields_newBinder h.wellFormed name).of_eq_ok ha₁
  obtain ⟨hgrow, hx⟩ := (ArenaM.builds_mkVar hwf ⟨s.arena.nextLocal⟩).of_eq_ok ha₂
  have hext' := hext.trans hgrow.isExtension
  have h' := h.extend hext' hgrow.wellFormed (hgrow.nextLocal_eq.trans hnext)
  rw [h.nextLocal_eq] at hx ⊢
  refine ⟨rfl, hx, h'.declare name rfl h.isScoped (hvalue.imp_right ?_) hv, hext'⟩
  rintro ⟨e, t, he, ht, hterm⟩
  exact ⟨e, t, he, ht, hext'.term?_eq_some hterm⟩

theorem reaches_closeBinders {Δ : Context} (h : s.Models (Δ ++ Γ) w) {bs : List Binder}
    (hbs : ∀ x, x ∈ bs.map Binder.id ↔ x ∈ Δ.ids) {u : Unit}
    (hrun : (closeBinders bs).Runs ctx s u s') : s.Reaches s' Γ w := by
  rw [closeBinders, runs_update] at hrun
  subst hrun
  exact ⟨h.leave hbs, .refl _⟩

end LiftM

end LambdaLifting
