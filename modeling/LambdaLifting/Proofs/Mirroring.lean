import LambdaLifting.Lift.Term
import LambdaLifting.Proofs.Numbering
import LambdaLifting.Proofs.Renaming
import LambdaLifting.Proofs.States

namespace LambdaLifting

def Procedure.rename (ρ : Name → Name) (p : Procedure) : Procedure := { p with name := ρ p.name }

namespace LiftContext

variable {ctx : LiftContext} {lifted : Array Procedure} {c : Name}

theorem taken_iff : ctx.taken lifted c = true ↔
    ctx.taken #[] c = true ∨ ∃ p ∈ lifted, p.name = c := by
  simp only [taken, owns, Bool.or_eq_true, Array.any_eq_true', decide_eq_true_eq, Array.any_empty,
    Bool.false_eq_true, or_false]
  exact or_right_comm

theorem taken_push (h : ctx.taken lifted c = true) (p : Procedure) :
    ctx.taken (lifted.push p) c = true := by
  refine taken_iff.2 ((taken_iff.1 h).imp_right ?_)
  rintro ⟨q, hq, rfl⟩
  exact ⟨q, Array.mem_push_of_mem _ hq, rfl⟩

theorem taken_empty_of_not_taken (h : ctx.taken lifted c = false) : ctx.taken #[] c = false := by
  rw [Bool.eq_false_iff] at h ⊢
  exact fun hkept => h (taken_iff.2 (.inl hkept))

theorem nodup_concat (hnodup : (lifted.toList.map Procedure.name).Nodup)
    (h : ctx.taken lifted c = false) : (lifted.toList.map Procedure.name ++ [c]).Nodup := by
  rw [← List.concat_eq_append]
  refine List.Nodup.concat (fun hc => ?_) hnodup
  obtain ⟨p, hp, rfl⟩ := List.mem_map.1 hc
  rw [taken_iff.2 (.inr ⟨p, Array.mem_toList_iff.1 hp, rfl⟩)] at h
  cases h

end LiftContext

theorem NameSource.drawn_push {base : String} {taken : Name → Bool} {fuel : Nat}
    {s s' : NameSource} {c : Name} (hfresh : fresh base taken fuel s = .ok (c, s'))
    {lifted : Array Procedure} (h : ∀ p ∈ lifted, s.Drawn base p.name) (closed : ExprId) :
    ∀ p ∈ lifted.push ⟨c, closed⟩, s'.Drawn base p.name := by
  obtain ⟨hadvance, hdrawn⟩ := advances_of_fresh hfresh
  intro p hp
  rcases Array.mem_push.1 hp with hp | rfl
  · exact (h p hp).mono hadvance
  · exact hdrawn

def Ground.SeesScope (g : Ground) (scope : Scope) : Prop :=
  ∀ ⦃x d⦄, scope.find? x = some d → ∀ e ∈ d.value, g.Sees e

/-- The state `t` of a run is that of another run under the names `ρ`. Names that are known from the
start stay; `τ` holds the texts that are known from the start. -/
structure LiftState.Mirrors (g : Ground) (ctx : LiftContext) (τ : NameTable) (ρ : Name → Name)
    (s t : LiftState) : Prop where
  kept_iff : ∀ c, g.kept c ↔ ctx.taken #[] c = true
  arena_eq : t.arena = s.arena.renameFrom g.arena.size ρ
  carries : g.Carries (ctx.taken s.lifted · = true) s.arena
  scope_eq : t.scope = s.scope
  seesScope : g.SeesScope s.scope
  lifted_eq : t.lifted = s.lifted.map (Procedure.rename ρ)
  keeps : ∀ c, g.kept c → ρ c = c
  free : ∀ p ∈ s.lifted, ctx.taken #[] p.name = false ∧ ctx.taken #[] (ρ p.name) = false
  injective : ∀ p ∈ s.lifted, ∀ q ∈ s.lifted, ρ p.name = ρ q.name → p.name = q.name
  nodup : (s.lifted.toList.map Procedure.name).Nodup
  drawn : ∀ p ∈ s.lifted, s.names.Drawn ctx.base p.name
  drawn' : ∀ p ∈ t.lifted, t.names.Drawn ctx.base p.name
  left : τ.Extends s.names.table
  right : τ.Extends t.names.table

/-- The name that both sides give to the next procedure is added to the renaming. -/
theorem LiftState.Mirrors.mint {g : Ground} {ctx : LiftContext} {τ : NameTable} {ρ : Name → Name}
    {s t : LiftState} (h : s.Mirrors g ctx τ ρ t) {c c' : Name} {fuel fuel' : Nat}
    {names names' : NameSource}
    (hfresh : NameSource.fresh ctx.base (ctx.taken s.lifted) fuel s.names = .ok (c, names))
    (hfresh' : NameSource.fresh ctx.base (ctx.taken t.lifted) fuel' t.names = .ok (c', names'))
    (closed : ExprId) (events events' : Array Event) :
    LiftState.Mirrors g ctx τ (Function.update ρ c c')
      { arena := s.arena.push (.global c)
        names := names, scope := s.scope, lifted := s.lifted.push ⟨c, closed⟩, events := events }
      { arena := t.arena.push (.global c')
        names := names', scope := t.scope, lifted := t.lifted.push ⟨c', closed⟩
        events := events' } := by
  obtain ⟨hadvance, -⟩ := NameSource.advances_of_fresh hfresh
  obtain ⟨hadvance', -⟩ := NameSource.advances_of_fresh hfresh'
  have hnew := NameSource.not_taken_of_fresh hfresh
  have hnew' := NameSource.not_taken_of_fresh hfresh'
  -- The renaming is as before on all names that are taken.
  have hsame (d : Name) (hd : ctx.taken s.lifted d = true) : Function.update ρ c c' d = ρ d :=
    Function.update_of_ne (fun heq => by simp [heq, hnew] at hd) _ _
  have hlifted (p : Procedure) (hp : p ∈ s.lifted) : ctx.taken s.lifted p.name = true :=
    LiftContext.taken_iff.2 (.inr ⟨p, hp, rfl⟩)
  have hne (p : Procedure) (hp : p ∈ s.lifted) : ρ p.name ≠ c' := by
    intro heq
    have hq : p.rename ρ ∈ t.lifted := h.lifted_eq ▸ Array.mem_map_of_mem hp
    rw [LiftContext.taken_iff.2 (.inr ⟨_, hq, heq⟩)] at hnew'
    cases hnew'
  constructor
  case kept_iff => exact h.kept_iff
  case arena_eq =>
    rw [Arena.renameFrom_push h.carries.isExtension.size_le, Node.renameGlobal,
      Function.update_self, h.arena_eq,
      Arena.renameFrom_congr fun e d he hd => (hsame d (h.carries.known_of_new he hd)).symm]
  case carries =>
    have hmono := h.carries.mono fun d hd => LiftContext.taken_push hd ⟨c, closed⟩
    refine hmono.push (by simp [Node.children]) ?_
    rintro _ ⟨⟩
    exact LiftContext.taken_iff.2 (.inr ⟨⟨c, closed⟩, Array.mem_push_self, rfl⟩)
  case scope_eq => exact h.scope_eq
  case seesScope => exact h.seesScope
  case lifted_eq =>
    have hmap : s.lifted.map (Procedure.rename (Function.update ρ c c')) =
        s.lifted.map (Procedure.rename ρ) := by
      refine Array.map_congr_left fun p hp => ?_
      rw [Procedure.rename, Procedure.rename, hsame _ (hlifted p hp)]
    rw [Array.map_push, hmap, ← h.lifted_eq, Procedure.rename, Function.update_self]
  case keeps =>
    intro d hd
    rw [hsame d (LiftContext.taken_iff.2 (.inl ((h.kept_iff d).1 hd))), h.keeps d hd]
  case free =>
    intro p hp
    rcases Array.mem_push.1 hp with hp | rfl
    · rw [hsame _ (hlifted p hp)]
      exact h.free p hp
    · rw [Function.update_self]
      exact ⟨LiftContext.taken_empty_of_not_taken hnew,
        LiftContext.taken_empty_of_not_taken hnew'⟩
  case injective =>
    intro p hp q hq heq
    rcases Array.mem_push.1 hp with hp | rfl <;> rcases Array.mem_push.1 hq with hq | rfl
    · rw [hsame _ (hlifted p hp), hsame _ (hlifted q hq)] at heq
      exact h.injective p hp q hq heq
    · rw [hsame _ (hlifted p hp), Function.update_self] at heq
      exact absurd heq (hne p hp)
    · rw [hsame _ (hlifted q hq), Function.update_self] at heq
      exact absurd heq.symm (hne q hq)
    · rfl
  case nodup =>
    rw [Array.toList_push, List.map_append]
    exact LiftContext.nodup_concat h.nodup hnew
  case drawn => exact NameSource.drawn_push hfresh h.drawn closed
  case drawn' => exact NameSource.drawn_push hfresh' h.drawn' closed
  case left => exact fun _ _ hn => hadvance.table (h.left hn)
  case right => exact fun _ _ hn => hadvance'.table (h.right hn)

/-- When one side has found a name, the other side finds one too. There are more numbers that gave
names to the one than names of the other. -/
theorem LiftState.Mirrors.exists_number {g : Ground} {ctx : LiftContext} {τ : NameTable}
    {ρ : Name → Name} {s t : LiftState} (h : s.Mirrors g ctx τ ρ t)
    (hnamed : ∀ c, ctx.taken #[] c = true → ∃ r, τ.text? c = some r) {c : Name} {fuel : Nat}
    {names : NameSource}
    (hfresh : NameSource.fresh ctx.base (ctx.taken s.lifted) fuel s.names = .ok (c, names)) :
    ∃ n < NameSource.limit, ∀ d, ctx.taken t.lifted d = true →
      ∃ r, t.names.table.text? d = some r ∧ r ≠ NameSource.candidate ctx.base n := by
  obtain ⟨hadvance, hdrawn⟩ := NameSource.advances_of_fresh hfresh
  have hnew := NameSource.not_taken_of_fresh hfresh
  have hmem {p : Procedure} (hp : p ∈ s.lifted.toList) : p ∈ s.lifted := Array.mem_toList_iff.1 hp
  have hmade : ∀ d ∈ s.lifted.toList.map Procedure.name ++ [c], names.Drawn ctx.base d := by
    rw [List.forall_mem_append, List.forall_mem_map, List.forall_mem_singleton]
    exact ⟨fun p hp => (h.drawn p (hmem hp)).mono hadvance, hdrawn⟩
  have hlength : (t.lifted.toList.map Procedure.name).length <
      (s.lifted.toList.map Procedure.name ++ [c]).length := by simp [h.lifted_eq]
  obtain ⟨d, hd, n, hn, htext, hunused⟩ :=
    NameSource.exists_number_of_length_lt (LiftContext.nodup_concat h.nodup hnew) hmade t.names
      hlength
  have hunknown : ctx.taken #[] d = false := by
    rcases List.mem_append.1 hd with hd | hd
    · obtain ⟨p, hp, rfl⟩ := List.mem_map.1 hd
      exact (h.free p (hmem hp)).1
    · rw [List.mem_singleton.1 hd]
      exact LiftContext.taken_empty_of_not_taken hnew
  refine ⟨n, hn, fun e he => ?_⟩
  rcases LiftContext.taken_iff.1 he with hkept | ⟨p, hp, rfl⟩
  · obtain ⟨r, hr⟩ := hnamed e hkept
    refine ⟨r, h.right hr, ?_⟩
    rintro rfl
    obtain rfl : e = d := names.table.text?_inj (hadvance.table (h.left hr)) htext
    rw [hunknown] at hkept
    cases hkept
  · obtain ⟨m, -, hm⟩ := h.drawn' p hp
    refine ⟨_, hm, fun heq => hunused p.name ?_ (heq ▸ hm)⟩
    exact List.mem_map_of_mem (Array.mem_toList_iff.2 hp)

namespace LiftM

variable {α β γ : Type} {g : Ground} {ctx : LiftContext} {τ : NameTable} {ample : Prop}
  {ρ : Name → Name} {s t : LiftState}

/-- Whenever `x` ends, `y` ends in the same way in a state that mirrors that of `x`. -/
def Tracks (g : Ground) (ctx : LiftContext) (τ : NameTable) (ample : Prop) (x y : LiftM α)
    (V : α → Prop) : Prop :=
  ∀ ⦃ρ s t⦄, s.Mirrors g ctx τ ρ t → ∀ ⦃r s'⦄, x ctx s = .ok (r, s') →
    Answers ample (y ctx t)
      fun q => q.1 = r ∧ (∃ ρ', s'.Mirrors g ctx τ ρ' q.2) ∧ ∀ v, r = .ok v → V v

theorem ask_of_fault {q : Arena → Except Fault α} {fault : Fault} (h : q s.arena = .error fault) :
    (liftM (ArenaM.ask q) : LiftM α) ctx s = .error fault := by
  show onArena (ArenaM.ask q) ctx s = _
  simp only [onArena, ArenaM.ask, Bind.bind, Except.bind, h]

section Tracks

variable {x y : LiftM α} {V : α → Prop} {W : β → Prop}

theorem tracks_pure {v : α} (hv : V v) :
    Tracks g ctx τ ample (Pure.pure v) (Pure.pure v) V := by
  intro ρ s t h r s' hrun
  cases hrun
  refine .inl ⟨_, rfl, rfl, ⟨ρ, h⟩, ?_⟩
  rintro _ ⟨⟩
  exact hv

theorem tracks_throw (err : LiftError) :
    Tracks g ctx τ ample (throw err : LiftM α) (throw err) V := by
  intro ρ s t h r s' hrun
  cases hrun
  refine .inl ⟨_, rfl, rfl, ⟨ρ, h⟩, ?_⟩
  rintro _ ⟨⟩

theorem tracks_stop {f : Fault} : Tracks g ctx τ ample (stop f) y V := by
  intro ρ s t h r s' hrun
  cases hrun

theorem tracks_outOfFuel (h : ¬ ample) : Tracks g ctx τ ample x (stop .outOfFuel) V :=
  fun _ _ _ _ _ _ _ => .inr ⟨rfl, h⟩

theorem Tracks.bind (hx : Tracks g ctx τ ample x y V) {f f' : α → LiftM β}
    (hf : ∀ v, V v → Tracks g ctx τ ample (f v) (f' v) W) :
    Tracks g ctx τ ample (x >>= f) (y >>= f') W := by
  intro ρ s t h r s' hrun
  rcases hx' : x ctx s with fault | ⟨err | v, s₁⟩
  · cases (bind_of_fault hx').symm.trans hrun
  · cases (bind_of_error hx').symm.trans hrun
    rcases hx h hx' with ⟨⟨_, t₁⟩, hy, rfl, hmirror, -⟩ | ⟨hy, hdry⟩
    · refine .inl ⟨_, bind_of_error hy, rfl, hmirror, ?_⟩
      rintro _ ⟨⟩
    · exact .inr ⟨bind_of_fault hy, hdry⟩
  · rw [bind_of_runs hx'] at hrun
    rcases hx h hx' with ⟨⟨_, t₁⟩, hy, rfl, ⟨ρ', hmirror⟩, hV⟩ | ⟨hy, hdry⟩
    · rw [bind_of_runs hy]
      exact hf v (hV v rfl) hmirror hrun
    · exact .inr ⟨bind_of_fault hy, hdry⟩

theorem Tracks.read_bind {f f' : LiftContext → LiftM α}
    (h : Tracks g ctx τ ample (f ctx) (f' ctx) V) :
    Tracks g ctx τ ample (read >>= f) (read >>= f') V := h

/-- Continue with the scope, which is the same for both. -/
theorem Tracks.state_bind {f f' : LiftState → LiftM α}
    (hf : ∀ s t : LiftState, t.scope = s.scope → g.SeesScope s.scope →
      Tracks g ctx τ ample (f s) (f' t) V) :
    Tracks g ctx τ ample (state >>= f) (state >>= f') V :=
  fun _ s t h => hf s t h.scope_eq h.seesScope h

theorem tracks_onArena {x y : ArenaM α} (hx : g.Copies ample x y V) :
    Tracks g ctx τ ample (onArena x) (onArena y) V := by
  intro ρ s t h r s' hrun
  simp only [onArena] at hrun ⊢
  cases hv : x s.arena with
  | error fault =>
    rw [hv] at hrun
    cases hrun
  | ok p =>
    obtain ⟨v, b⟩ := p
    rw [hv] at hrun
    cases hrun
    rcases hx h.keeps h.carries hv with ⟨_, hy, rfl, hV, hb⟩ | ⟨hy, hdry⟩
    · rw [h.arena_eq, hy]
      refine .inl ⟨_, rfl, rfl, ⟨ρ, { h with arena_eq := rfl, carries := hb }⟩, ?_⟩
      rintro _ ⟨⟩
      exact hV
    · rw [h.arena_eq, hy]
      exact .inr ⟨rfl, hdry⟩

theorem tracks_liftM {x y : ArenaM α} (hx : g.Copies ample x y V) :
    Tracks g ctx τ ample (liftM x : LiftM α) (liftM y) V :=
  tracks_onArena hx

theorem Tracks.mapM {f f' : γ → LiftM α} {zs : List γ}
    (hf : ∀ z ∈ zs, Tracks g ctx τ ample (f z) (f' z) V) :
    Tracks g ctx τ ample (zs.mapM f) (zs.mapM f') fun vs => ∀ v ∈ vs, V v := by
  induction zs with
  | nil => exact tracks_pure (by simp)
  | cons z zs ih =>
    obtain ⟨hz, hzs⟩ := List.forall_mem_cons.1 hf
    rw [List.mapM_cons, List.mapM_cons]
    refine hz.bind fun v hv => (ih hzs).bind fun vs hvs => ?_
    exact tracks_pure (List.forall_mem_cons.2 ⟨hv, hvs⟩)

theorem tracks_emit (e e' : Event) : Tracks g ctx τ ample (emit e) (emit e') fun _ => True := by
  intro ρ s t h r s' hrun
  cases hrun
  exact .inl ⟨_, rfl, rfl, ⟨ρ, { h with }⟩, fun _ _ => trivial⟩

/-- Continue with a node. What is done with a global must not depend on its name. -/
theorem Tracks.node_bind {e : ExprId} {f f' : Node → LiftM α} (he : g.Sees e)
    (hglobal : ∀ c c', f' (.global c) = f' (.global c'))
    (hf : ∀ n, (∀ c ∈ n.children, g.Sees c) → Tracks g ctx τ ample (f n) (f' n) V) :
    Tracks g ctx τ ample ((liftM (ArenaM.node e) : LiftM Node) >>= f)
      ((liftM (ArenaM.node e) : LiftM Node) >>= f') V := by
  intro ρ s t h r s' hrun
  cases hn : s.arena.node? e with
  | none =>
    have hmissing : s.arena.node e = .error (.missingNode e) := by rw [Arena.node_eq, hn]
    cases (bind_of_fault (ask_of_fault hmissing)).symm.trans hrun
  | some n =>
    have hn' := h.carries.node?_renameFrom h.keeps he hn
    rw [← h.arena_eq] at hn'
    have hsame : f' (n.renameGlobal ρ) = f' n := by
      cases n with
      | global c => exact hglobal _ _
      | _ => rfl
    rw [node_bind_eq hn] at hrun
    rw [node_bind_eq hn', hsame]
    exact hf n (h.carries.sees_child he hn) h hrun

theorem tracks_scope {f : Scope → Scope} (hf : ∀ scope, g.SeesScope scope → g.SeesScope (f scope)) :
    Tracks g ctx τ ample (update fun s => { s with scope := f s.scope })
      (update fun s => { s with scope := f s.scope }) fun _ => True := by
  intro ρ s t h r s' hrun
  cases hrun
  exact .inl ⟨_, rfl, rfl, ⟨ρ, { h with
    scope_eq := congrArg f h.scope_eq, seesScope := hf _ h.seesScope }⟩, fun _ _ => trivial⟩

end Tracks

theorem tracks_openBinder (name : Name) {value : Option ExprId} (hvalue : ∀ e ∈ value, g.Sees e) :
    Tracks g ctx τ ample (openBinder name value) (openBinder name value) fun p => g.Sees p.2 := by
  refine (tracks_liftM (Ground.copies_newBinder name)).bind fun b _ => ?_
  refine (tracks_liftM (Ground.copies_mkVar b.id)).bind fun x hx => ?_
  refine (tracks_scope (f := fun scope => (scope.declare b value).2) fun scope hs y d hd => ?_).bind
    fun _ _ => tracks_pure hx
  rw [Scope.find?_declare] at hd
  split at hd
  · cases hd
    exact hvalue
  · exact hs hd

theorem tracks_closeBinders (bs : List Binder) :
    Tracks g ctx τ ample (closeBinders bs) (closeBinders bs) fun _ => True := by
  refine tracks_scope (f := fun scope => scope.remove (bs.map Binder.id)) fun scope hs y d hd => ?_
  rw [Scope.find?_remove] at hd
  split at hd
  · cases hd
  · exact hs hd

theorem mem_insertDecl {c d : Decl} {ds : List Decl} (h : c ∈ insertDecl d ds) :
    c = d ∨ c ∈ ds := by
  induction ds with
  | nil => simpa [insertDecl] using h
  | cons b ds ih =>
    rw [insertDecl] at h
    split at h
    · simpa using h
    · split at h
      · rcases List.mem_cons.1 h with rfl | h
        · exact .inl rfl
        · exact .inr (List.mem_cons_of_mem _ h)
      · rcases List.mem_cons.1 h with rfl | h
        · exact .inr List.mem_cons_self
        · exact (ih h).imp_right (List.mem_cons_of_mem _)

def SeesDecls (g : Ground) (ds : List Decl) : Prop := ∀ d ∈ ds, ∀ e ∈ d.value, g.Sees e

theorem tracks_addFree (e : ExprId) {pending : List Decl} (hpending : SeesDecls g pending) :
    Tracks g ctx τ ample (addFree e pending) (addFree e pending) (SeesDecls g) := by
  refine (tracks_liftM (Ground.copies_ask fun k ρ a => Arena.freeVars_renameFrom e)).bind
    fun xs _ => ?_
  induction xs generalizing pending with
  | nil => exact tracks_pure hpending
  | cons x xs ih =>
    rw [List.foldlM_cons]
    refine Tracks.bind (V := SeesDecls g) (.state_bind fun s t heq hscope => ?_) fun _ hds => ih hds
    rw [heq]
    split
    · next d hd =>
      refine tracks_pure fun c hc => ?_
      rcases mem_insertDecl hc with rfl | hc
      · exact hscope hd
      · exact hpending c hc
    · exact tracks_throw _

theorem tracks_needed (fuel : Nat) {pending : List Decl} (hpending : SeesDecls g pending) :
    Tracks g ctx τ ample (needed fuel pending) (needed fuel pending) (SeesDecls g) := by
  induction fuel generalizing pending with
  | zero =>
    cases pending with
    | nil => exact tracks_pure hpending
    | cons => exact tracks_stop
  | succ fuel ih =>
    cases pending with
    | nil => exact tracks_pure hpending
    | cons d pending =>
      obtain ⟨hd, htail⟩ := List.forall_mem_cons.1 hpending
      have hrest (ds : List Decl) (hds : SeesDecls g ds) :
          Tracks g ctx τ ample (needed fuel ds >>= fun ds => pure (d :: ds))
            (needed fuel ds >>= fun ds => pure (d :: ds)) (SeesDecls g) :=
        (ih hds).bind fun ds hds => tracks_pure (List.forall_mem_cons.2 ⟨hd, hds⟩)
      rw [needed]
      split
      · exact (tracks_addFree _ htail).bind hrest
      · exact (tracks_pure htail).bind hrest

theorem copies_parametrize {ds : List Decl} (hds : SeesDecls g ds) {S : Substitution}
    (hS : g.SeesAll S) :
    g.Copies ample (parametrize ds S) (parametrize ds S) fun p => g.SeesAll p.2 := by
  induction ds generalizing S with
  | nil => exact Ground.copies_pure hS
  | cons d ds ih =>
    obtain ⟨hd, hds⟩ := List.forall_mem_cons.1 hds
    rw [parametrize]
    cases hvalue : d.value with
    | some value =>
      exact (Ground.copies_substitute hS (hd value hvalue)).bind
        fun e he => ih hds (hS.insert he d.id)
    | none =>
      refine (Ground.copies_newBinder d.name).bind fun b _ => ?_
      refine (Ground.copies_mkVar b.id).bind fun x hx => ?_
      exact (ih hds (hS.insert hx d.id)).bind fun p hp => Ground.copies_pure hp

theorem tracks_closeOver {e : ExprId} (he : g.Sees e) :
    Tracks g ctx τ ample (closeOver e) (closeOver e) fun p => g.Sees p.1 := by
  refine (tracks_addFree e fun d hd => by cases hd).bind fun pending hpending => ?_
  refine Tracks.state_bind fun s t heq _ => ?_
  rw [heq]
  refine (tracks_needed _ hpending).bind fun ds hds => ?_
  have hreverse : SeesDecls g ds.reverse := fun d hd => hds d (List.mem_reverse.1 hd)
  refine (tracks_liftM (copies_parametrize hreverse Ground.seesAll_empty)).bind fun p hp => ?_
  refine (tracks_liftM (Ground.copies_substitute hp he)).bind fun body hbody => ?_
  exact (tracks_liftM (Ground.copies_mkLambdas p.1 hbody)).bind fun closed hclosed =>
    tracks_pure hclosed

theorem runs_kindOf_of_kind? {c : Name} {k : GlobalKind} (hc : ctx.env.kind? c = some k) :
    (kindOf c).Runs ctx s k s := by
  simp [kindOf, hc]

theorem runs_kindOf_of_owns {c : Name} (hc : ctx.env.kind? c = none)
    (howns : ctx.owns s.lifted c = true) : (kindOf c).Runs ctx s .function s := by
  simp [kindOf, hc, howns]

/-- A global that one side knows is known on the other, as the same kind of thing. All but functions
are in the environment, so that their names are kept. -/
theorem kindOf_of_mirrors (h : s.Mirrors g ctx τ ρ t) {c : Name}
    (hc : ctx.taken s.lifted c = true) :
    ∃ k, (kindOf c).Runs ctx s k s ∧ (kindOf (ρ c)).Runs ctx t k t ∧ (k ≠ .function → ρ c = c) := by
  rcases LiftContext.taken_iff.1 hc with hkept | ⟨p, hp, rfl⟩
  · have heq : ρ c = c := h.keeps c ((h.kept_iff c).2 hkept)
    rw [heq]
    cases hk : ctx.env.kind? c with
    | some k => exact ⟨k, runs_kindOf_of_kind? hk, runs_kindOf_of_kind? hk, fun _ => rfl⟩
    | none =>
      have hdeclared : ctx.declared.contains c = true := by
        simpa [LiftContext.taken, LiftContext.owns, Environment.contains, hk] using hkept
      have howns (lifted : Array Procedure) : ctx.owns lifted c = true := by
        rw [LiftContext.owns, hdeclared, Bool.true_or]
      exact ⟨.function, runs_kindOf_of_owns hk (howns _), runs_kindOf_of_owns hk (howns _),
        fun _ => rfl⟩
  · obtain ⟨hfree, hfree'⟩ := h.free p hp
    have unknown {c : Name} (hc : ctx.taken #[] c = false) : ctx.env.kind? c = none := by
      rw [LiftContext.taken, Bool.or_eq_false_iff, Environment.contains] at hc
      simpa using hc.2
    have owned {lifted : Array Procedure} {q : Procedure} (hq : q ∈ lifted) :
        ctx.owns lifted q.name = true := by
      rw [LiftContext.owns, Bool.or_eq_true, Array.any_eq_true']
      exact .inr ⟨q, hq, by simp⟩
    have hq : p.rename ρ ∈ t.lifted := h.lifted_eq ▸ Array.mem_map_of_mem hp
    exact ⟨.function, runs_kindOf_of_owns (unknown hfree) (owned hp),
      runs_kindOf_of_owns (unknown hfree') (owned hq), fun hne => absurd rfl hne⟩

/-- All names that are known from the start have texts, and there is fuel to try every number, and
for the run besides. -/
structure Spare (ctx : LiftContext) (τ : NameTable) (fuel fuel' : Nat) : Prop where
  named : ∀ c, ctx.taken #[] c = true → ∃ r, τ.text? c = some r
  lt : fuel + NameSource.limit < fuel'

theorem Spare.le {fuel fuel' : Nat} (h : Spare ctx τ fuel fuel') : fuel ≤ fuel' :=
  Nat.le_of_lt (Nat.lt_of_le_of_lt (Nat.le_add_right _ _) h.lt)

theorem Spare.pred {fuel fuel' : Nat} (h : Spare ctx τ (fuel + 1) (fuel' + 1)) :
    Spare ctx τ fuel fuel' :=
  ⟨h.named, by have := h.lt; omega⟩

theorem addProcedure_eq (fuel : Nat) (closed : ExprId) : addProcedure fuel closed ctx s =
    match NameSource.fresh ctx.base (ctx.taken s.lifted) fuel s.names with
    | .ok (name, names) => .ok (.ok ⟨s.arena.size⟩, {
        arena := s.arena.push (.global name)
        names := names
        scope := s.scope
        lifted := s.lifted.push ⟨name, closed⟩
        events := s.events.push (.lifted name) })
    | .error fault => .error fault := by
  cases hfresh : NameSource.fresh ctx.base (ctx.taken s.lifted) fuel s.names with
  | error fault =>
    have hnames : onNames (NameSource.fresh ctx.base (ctx.taken s.lifted) fuel) ctx s =
        .error fault := by simp only [onNames, hfresh]
    show (onNames _ >>= _ : LiftM ExprId) ctx s = _
    exact bind_of_fault hnames
  | ok r =>
    have hnames : (onNames (NameSource.fresh ctx.base (ctx.taken s.lifted) fuel)).Runs ctx s r.1
        { s with names := r.2 } := runs_onNames.2 ⟨r.2, hfresh, rfl⟩
    exact bind_of_runs hnames

/-- Both sides make a procedure of the same term. Each takes a name that is new to it, and the
renaming is extended by this pair. -/
theorem tracks_addProcedure {fuel fuel' : Nat} (hfuel : ample → Spare ctx τ fuel fuel')
    (closed : ExprId) :
    Tracks g ctx τ ample (addProcedure fuel closed) (addProcedure fuel' closed) g.Sees := by
  intro ρ s t h r s' hrun
  rw [addProcedure_eq] at hrun ⊢
  split at hrun
  · next c names hfresh =>
    cases hrun
    split
    · next c' names' hfresh' =>
      have hid : t.arena.size = s.arena.size := by rw [h.arena_eq, Arena.size_renameFrom]
      refine .inl ⟨_, rfl, by rw [hid], ⟨_, h.mint hfresh hfresh' closed _ _⟩, ?_⟩
      rintro _ ⟨⟩
      exact h.carries.sees_size
    · next fault hfresh' =>
      obtain rfl := NameSource.eq_outOfFuel_of_fresh hfresh'
      refine .inr ⟨rfl, fun hample => ?_⟩
      obtain ⟨n, hn, hfree⟩ := h.exists_number (hfuel hample).named hfresh
      have hlt : (n + NameSource.limit - t.names.next) % NameSource.limit < fuel' :=
        Nat.lt_trans (Nat.mod_lt _ NameSource.limit_pos)
          (Nat.lt_of_le_of_lt (Nat.le_add_left _ _) (hfuel hample).lt)
      obtain ⟨r, hr⟩ := NameSource.exists_fresh hn hfree hlt
      cases hr.symm.trans hfresh'
  · cases hrun

theorem reusable?_of_mirrors (h : s.Mirrors g ctx τ ρ t) {e : ExprId} (he : g.Sees e)
    {o : Option Name} (ho : s.arena.headGlobal? e = .ok o) :
    ∃ o', (reusable? e).Runs ctx s o' s ∧ (reusable? e).Runs ctx t (o'.map ρ) t := by
  obtain ⟨ho', hknown⟩ := h.carries.headGlobal?_renameFrom h.keeps he ho
  rw [← h.arena_eq] at ho'
  have hask : (liftM (ArenaM.ask fun a => a.headGlobal? e) : LiftM (Option Name)).Runs ctx s o s :=
    runs_liftM.2 ⟨s.arena, ArenaM.ask_eq_ok ho, rfl⟩
  have hask' : (liftM (ArenaM.ask fun a => a.headGlobal? e) : LiftM (Option Name)).Runs ctx t
      (o.map ρ) t := runs_liftM.2 ⟨t.arena, ArenaM.ask_eq_ok ho', rfl⟩
  cases o with
  | none => exact ⟨none, runs_bind.2 ⟨_, _, hask, rfl⟩, runs_bind.2 ⟨_, _, hask', rfl⟩⟩
  | some c =>
    have hc : ctx.taken s.lifted c = true := (hknown c rfl).elim id fun hkept =>
      LiftContext.taken_iff.2 (.inl ((h.kept_iff c).1 hkept))
    obtain ⟨k, hk, hk', -⟩ := kindOf_of_mirrors h hc
    refine ⟨if k.isPlain then some c else none,
      runs_bind.2 ⟨_, _, hask, runs_bind.2 ⟨_, _, hk, rfl⟩⟩,
      runs_bind.2 ⟨_, _, hask', runs_bind.2 ⟨_, _, hk', ?_⟩⟩⟩
    split <;> rfl

/-- Both sides call the same term, a new procedure or one that was there. -/
theorem tracks_callee {fuel fuel' : Nat} (hfuel : ample → Spare ctx τ fuel fuel') {closed : ExprId}
    (hclosed : g.Sees closed) :
    Tracks g ctx τ ample (callee fuel closed) (callee fuel' closed) g.Sees := by
  refine (tracks_liftM (Ground.copies_etaReduce hclosed)).bind fun reduced hreduced => ?_
  intro ρ s t h r s' hrun
  cases ho : s.arena.headGlobal? reduced with
  | error fault =>
    have hstop : reusable? reduced ctx s = .error fault := bind_of_fault (ask_of_fault ho)
    cases (bind_of_fault hstop).symm.trans hrun
  | ok o =>
    obtain ⟨o', hreuse, hreuse'⟩ := reusable?_of_mirrors h hreduced ho
    rw [bind_of_runs hreuse] at hrun
    rw [bind_of_runs hreuse']
    cases o' with
    | none => exact tracks_addProcedure hfuel closed h hrun
    | some c => exact (tracks_emit _ _).bind (fun _ _ => tracks_pure hreduced) h hrun

theorem tracks_dispatcher? {head : ExprId} (hhead : g.Sees head) :
    Tracks g ctx τ ample (dispatcher? head) (dispatcher? head) fun _ => True := by
  intro ρ s t h r s' hrun
  cases hn : s.arena.node? head with
  | none =>
    have hmissing : s.arena.node head = .error (.missingNode head) := by rw [Arena.node_eq, hn]
    cases (bind_of_fault (ask_of_fault hmissing)).symm.trans hrun
  | some n =>
    have hn' := h.carries.node?_renameFrom h.keeps hhead hn
    rw [← h.arena_eq] at hn'
    rw [dispatcher?, node_bind_eq hn] at hrun
    rw [dispatcher?, node_bind_eq hn']
    cases n with
    | global c =>
      have hc : ctx.taken s.lifted c = true := (h.carries.global_of_sees hhead hn).elim id
        fun hkept => LiftContext.taken_iff.2 (.inl ((h.kept_iff c).1 hkept))
      obtain ⟨k, hk, hk', heq⟩ := kindOf_of_mirrors h hc
      dsimp only [Node.renameGlobal] at hrun ⊢
      rw [bind_of_runs hk] at hrun
      rw [bind_of_runs hk']
      cases k with
      | dispatcher type =>
        rw [heq (by simp)]
        exact tracks_pure trivial h hrun
      | _ => exact tracks_pure trivial h hrun
    | _ => exact tracks_pure trivial h hrun

theorem tracks_openLambdas {fuel fuel' : Nat} (hfuel : ample → fuel ≤ fuel') {S : Substitution}
    (hS : g.SeesAll S) {e : ExprId} (he : g.Sees e) :
    Tracks g ctx τ ample (openLambdas fuel S e) (openLambdas fuel' S e) fun p => g.Sees p.2 := by
  induction fuel generalizing fuel' S e with
  | zero => exact tracks_stop
  | succ fuel ih =>
    cases fuel' with
    | zero => exact tracks_outOfFuel fun hample => absurd (hfuel hample) (Nat.not_succ_le_zero _)
    | succ fuel' =>
      refine Tracks.node_bind he (fun _ _ => rfl) fun n hn => ?_
      cases n with
      | lam b body =>
        refine (tracks_openBinder b.name (by simp)).bind fun p hp => ?_
        refine (ih (fun hample => Nat.le_of_succ_le_succ (hfuel hample)) (hS.insert hp b.id)
          (hn body (by simp [Node.children]))).bind fun q hq => tracks_pure hq
      | _ => exact (tracks_liftM (Ground.copies_substitute hS he)).bind fun r hr => tracks_pure hr

theorem tracks_openFields (fields : Nat) {S : Substitution} (hS : g.SeesAll S) {e : ExprId}
    (he : g.Sees e) :
    Tracks g ctx τ ample (openFields fields S e) (openFields fields S e) fun p => g.Sees p.2 := by
  induction fields generalizing S e with
  | zero => exact (tracks_liftM (Ground.copies_substitute hS he)).bind fun r hr => tracks_pure hr
  | succ fields ih =>
    refine Tracks.node_bind he (fun _ _ => rfl) fun n hn => ?_
    cases n with
    | lam b body =>
      refine (tracks_openBinder b.name (by simp)).bind fun p hp => ?_
      exact (ih (hS.insert hp b.id) (hn body (by simp [Node.children]))).bind
        fun q hq => tracks_pure hq
    | _ =>
      refine Tracks.read_bind ((tracks_openBinder _ (by simp)).bind fun p hp => ?_)
      refine (tracks_liftM (Ground.copies_mkApp he (by simpa using hp))).bind fun r hr => ?_
      exact (ih hS hr).bind fun q hq => tracks_pure hq

theorem tracks_fieldCount (params : Nat) (c : Name) :
    Tracks g ctx τ ample (fieldCount params c) (fieldCount params c) fun _ => True := by
  refine Tracks.read_bind ?_
  split
  · exact tracks_throw _
  · split
    · exact (tracks_throw _ (V := fun _ => False)).bind fun _ hno => hno.elim
    · exact tracks_pure trivial

/-- Lifting as far as it is given by two functions goes alike. -/
def Parallels (g : Ground) (ctx : LiftContext) (τ : NameTable) (ample : Prop)
    (lift lift' : ExprId → LiftM ExprId) : Prop :=
  ∀ e, g.Sees e → Tracks g ctx τ ample (lift e) (lift' e) g.Sees

namespace Parallels

variable {lift lift' : ExprId → LiftM ExprId} {fuel fuel' : Nat} {e : ExprId}

theorem underLambdas (hlift : Parallels g ctx τ ample lift lift')
    (hfuel : ample → fuel ≤ fuel') (he : g.Sees e) :
    Tracks g ctx τ ample (liftUnderLambdas lift fuel e) (liftUnderLambdas lift' fuel' e)
      g.Sees := by
  refine (tracks_openLambdas hfuel Ground.seesAll_empty he).bind fun p hp => ?_
  refine (hlift p.2 hp).bind fun body hbody => ?_
  exact (tracks_closeBinders p.1).bind fun _ _ =>
    tracks_liftM (Ground.copies_mkLambdas p.1 hbody)

theorem lambda (hlift : Parallels g ctx τ ample lift lift')
    (hfuel : ample → Spare ctx τ fuel fuel') (he : g.Sees e) :
    Tracks g ctx τ ample (liftLambda lift fuel e) (liftLambda lift' fuel' e) g.Sees := by
  refine (hlift.underLambdas (fun hample => (hfuel hample).le) he).bind fun lifted hlifted => ?_
  refine (tracks_closeOver hlifted).bind fun p hp => ?_
  refine (tracks_callee hfuel hp).bind fun head hhead => ?_
  refine (Tracks.mapM fun x _ => tracks_onArena (Ground.copies_mkVar x)).bind fun args hargs => ?_
  exact (tracks_emit _ _).bind fun _ _ => tracks_liftM (Ground.copies_mkApp hhead hargs)

theorem chain (hlift : Parallels g ctx τ ample lift lift') (hfuel : ample → fuel ≤ fuel')
    {S : Substitution} (hS : g.SeesAll S) (he : g.Sees e) :
    Tracks g ctx τ ample (liftChain lift fuel S e) (liftChain lift' fuel' S e)
      fun p => (∀ d ∈ p.1, g.Sees d.2) ∧ g.Sees p.2 := by
  induction fuel generalizing fuel' S e with
  | zero => exact tracks_stop
  | succ fuel ih =>
    cases fuel' with
    | zero => exact tracks_outOfFuel fun hample => absurd (hfuel hample) (Nat.not_succ_le_zero _)
    | succ fuel' =>
      refine Tracks.node_bind he (fun _ _ => rfl) fun n hn => ?_
      cases n with
      | letIn b value body =>
        refine (tracks_liftM (Ground.copies_substitute hS
          (hn value (by simp [Node.children])))).bind fun v hv => ?_
        refine (hlift v hv).bind fun v' hv' => ?_
        refine (tracks_openBinder b.name (by simpa using hv')).bind fun p hp => ?_
        refine (ih (fun hample => Nat.le_of_succ_le_succ (hfuel hample)) (hS.insert hp b.id)
          (hn body (by simp [Node.children]))).bind fun q hq => ?_
        exact tracks_pure ⟨List.forall_mem_cons.2 ⟨hv', hq.1⟩, hq.2⟩
      | _ =>
        refine (tracks_liftM (Ground.copies_substitute hS he)).bind fun v hv => ?_
        exact (hlift v hv).bind fun v' hv' => tracks_pure ⟨by simp, hv'⟩

theorem lets (hlift : Parallels g ctx τ ample lift lift') (hfuel : ample → fuel ≤ fuel')
    (he : g.Sees e) :
    Tracks g ctx τ ample (liftLets lift fuel e) (liftLets lift' fuel' e) g.Sees := by
  refine (hlift.chain hfuel Ground.seesAll_empty he).bind fun p hp => ?_
  exact (tracks_closeBinders _).bind fun _ _ => tracks_liftM (Ground.copies_mkLets hp.1 hp.2)

theorem arm (hlift : Parallels g ctx τ ample lift lift') (fields : Nat) (he : g.Sees e) :
    Tracks g ctx τ ample (liftArm lift fields e) (liftArm lift' fields e) g.Sees := by
  refine (tracks_openFields fields Ground.seesAll_empty he).bind fun p hp => ?_
  refine (tracks_emit _ _).bind fun _ _ => (hlift p.2 hp).bind fun body hbody => ?_
  exact (tracks_closeBinders p.1).bind fun _ _ =>
    tracks_liftM (Ground.copies_mkLambdas p.1 hbody)

theorem dispatch (hlift : Parallels g ctx τ ample lift lift') (dispatcher type : Name)
    {head : ExprId} {args : List ExprId} (hhead : g.Sees head) (hargs : ∀ c ∈ args, g.Sees c) :
    Tracks g ctx τ ample (liftDispatch lift dispatcher type head args)
      (liftDispatch lift' dispatcher type head args) g.Sees := by
  refine Tracks.read_bind ?_
  split
  · next t _ =>
    have hlifts (es : List ExprId) (hes : es ⊆ args) :
        Tracks g ctx τ ample (es.mapM lift) (es.mapM lift') fun vs => ∀ v ∈ vs, g.Sees v :=
      Tracks.mapM fun c hc => hlift c (hargs c (hes hc))
    dsimp only
    split
    · exact (tracks_throw _ (V := fun _ => False)).bind fun _ hno => hno.elim
    · refine (hlifts _ (List.take_subset _ _)).bind fun scrutinee hscrutinee => ?_
      refine (hlifts _ (List.drop_subset _ _)).bind fun extra hextra => ?_
      refine (Tracks.mapM (V := g.Sees) fun z hz => ?_).bind fun arms harms => ?_
      · have hz' := hargs z.2 (List.drop_subset _ _ (List.of_mem_zip hz).2)
        exact (tracks_fieldCount t.params z.1).bind fun fields _ => hlift.arm fields hz'
      · refine tracks_liftM (Ground.copies_mkApp hhead fun c hc => ?_)
        rcases List.mem_append.1 hc with hc | hc
        · exact (List.mem_append.1 hc).elim (hscrutinee c) (harms c)
        · exact hextra c hc
  · exact tracks_throw _

theorem call (hlift : Parallels g ctx τ ample lift lift') (hfuel : ample → fuel ≤ fuel')
    {head : ExprId} {args : List ExprId} (he : g.Sees e) (hhead : g.Sees head)
    (hargs : ∀ c ∈ args, g.Sees c) :
    Tracks g ctx τ ample (liftCall lift fuel e head args) (liftCall lift' fuel' e head args)
      g.Sees := by
  refine (tracks_liftM (Ground.copies_headReduce hfuel he)).bind fun reduced hreduced => ?_
  split
  · exact hlift reduced hreduced
  · refine (hlift head hhead).bind fun head' hhead' => ?_
    refine (Tracks.mapM fun c hc => hlift c (hargs c hc)).bind fun args' hargs' => ?_
    split
    · exact tracks_pure he
    · exact tracks_liftM (Ground.copies_mkApp hhead' hargs')

theorem app (hlift : Parallels g ctx τ ample lift lift') (hfuel : ample → fuel ≤ fuel')
    {head : ExprId} {args : List ExprId} (he : g.Sees e) (hhead : g.Sees head)
    (hargs : ∀ c ∈ args, g.Sees c) :
    Tracks g ctx τ ample (liftApp lift fuel e head args) (liftApp lift' fuel' e head args)
      g.Sees := by
  refine (tracks_dispatcher? hhead).bind fun o _ => ?_
  cases o with
  | some p => exact hlift.dispatch p.1 p.2 hhead hargs
  | none => exact hlift.call hfuel he hhead hargs

end Parallels

theorem tracks_liftTerm {fuel fuel' : Nat} (hfuel : ample → Spare ctx τ fuel fuel') :
    Parallels g ctx τ ample (liftTerm fuel) (liftTerm fuel') := by
  induction fuel generalizing fuel' with
  | zero => exact fun _ _ => tracks_stop
  | succ fuel ih =>
    intro e he
    cases fuel' with
    | zero => exact tracks_outOfFuel fun hample => absurd (hfuel hample).le (Nat.not_succ_le_zero _)
    | succ fuel' =>
      have hspare (hample : ample) : Spare ctx τ fuel fuel' := (hfuel hample).pred
      have hle (hample : ample) : fuel ≤ fuel' := (hspare hample).le
      have hlift := ih hspare
      refine Tracks.node_bind he (fun _ _ => rfl) fun n hn => ?_
      cases n with
      | var x =>
        refine Tracks.state_bind fun s t heq _ => ?_
        rw [heq]
        split
        · exact tracks_pure he
        · exact tracks_throw _
      | global c => exact tracks_pure he
      | lit l => exact tracks_pure he
      | app head args =>
        obtain ⟨hhead, hargs⟩ := List.forall_mem_cons.1 hn
        exact hlift.app hle he hhead hargs
      | lam b body => exact hlift.lambda hspare he
      | letIn b value body => exact hlift.lets hle he

theorem tracks_liftBody {fuel fuel' : Nat} (hfuel : ample → Spare ctx τ fuel fuel') {e : ExprId}
    (he : g.Sees e) :
    Tracks g ctx τ ample (liftBody fuel e) (liftBody fuel' e) g.Sees := by
  have hlift : Parallels g ctx τ ample (liftTerm fuel) (liftTerm fuel') := tracks_liftTerm hfuel
  refine Tracks.node_bind he (fun _ _ => rfl) fun n hn => ?_
  cases n with
  | lam b body => exact hlift.underLambdas (fun hample => (hfuel hample).le) he
  | _ => exact hlift e he

theorem tracks_liftProcedure {fuel fuel' : Nat} (hfuel : ample → Spare ctx τ fuel fuel')
    {p : Procedure} (hp : g.Sees p.body) (hname : g.kept p.name) :
    Tracks g ctx τ ample (liftProcedure fuel p) (liftProcedure fuel' p) fun q => g.kept q.name := by
  refine (tracks_liftBody hfuel hp).bind fun body _ => ?_
  refine Tracks.state_bind fun s t heq _ => ?_
  rw [heq]
  split
  · exact tracks_pure hname
  · exact Tracks.bind (V := fun _ => True) tracks_stop fun _ _ => tracks_pure hname

end LiftM

end LambdaLifting
