import LambdaLifting.Proofs.Completion
import LambdaLifting.Proofs.Mirroring
import LambdaLifting.Proofs.Operations

namespace LambdaLifting

def NameTable.Has (t : NameTable) (c : Name) : Prop := ∃ text, t.text? c = some text

/-- The names that the message of an error shows. -/
def LiftError.names : LiftError → List Name
  | tooFewArguments dispatcher _ _ => [dispatcher]
  | unboundVar _ => []
  | unknownGlobal c => [c]
  | unknownType type => [type]
  | unknownConstructor c => [c]
  | arityBelowParams c _ _ => [c]

theorem LiftError.exists_message {err : LiftError} {t : NameTable}
    (h : ∀ c ∈ err.names, t.Has c) : ∃ text, err.message t = .ok text := by
  have htext (c : Name) (hc : c ∈ err.names) : ∃ r, t.text c = .ok r := by
    obtain ⟨r, hr⟩ := h c hc
    exact ⟨r, by rw [NameTable.text, hr]⟩
  cases err with
  | unboundVar x => exact ⟨_, rfl⟩
  | _ =>
    obtain ⟨r, hr⟩ := htext _ (List.mem_singleton.2 rfl)
    simp only [message, hr, Bind.bind, Except.bind]
    exact ⟨_, rfl⟩

def Event.names : Event → List Name
  | started owner _ => [owner]
  | reused head => [head]
  | lifted name => [name]
  | replaced _ | enteredArm _ | finished _ _ => []

/-- All names that the environment answers with have texts. -/
structure Environment.Named (env : Environment) (t : NameTable) : Prop where
  dispatched : ∀ c type, env.kind? c = some (.dispatcher type) → t.Has type
  constructors : ∀ type ty, env.type? type = some ty → ∀ c ∈ ty.constructors, t.Has c

theorem Environment.Named.mono {env : Environment} {t t' : NameTable} (h : env.Named t)
    (ht : ∀ c, t.Has c → t'.Has c) : env.Named t' where
  dispatched c type hc := ht type (h.dispatched c type hc)
  constructors type ty hty c hc := ht c (h.constructors type ty hty c hc)

theorem NameTable.Extends.has {t t' : NameTable} (h : t.Extends t') {c : Name} (hc : t.Has c) :
    t'.Has c := by
  obtain ⟨text, htext⟩ := hc
  exact ⟨text, h htext⟩

namespace LiftState

def Holds (s : LiftState) (e : ExprId) : Prop := s.arena.Holds s.names.table.Has e

/-- All that a run has stored, declared, made and reported is in order. -/
structure Sound (env : Environment) (s : LiftState) : Prop where
  wellFormed : s.arena.WellFormed
  named : env.Named s.names.table
  scope : ∀ x d, s.scope.find? x = some d → ∀ e ∈ d.value, s.Holds e
  lifted : ∀ p ∈ s.lifted, s.names.table.Has p.name ∧ s.Holds p.body
  events : ∀ ev ∈ s.events, ∀ c ∈ ev.names, s.names.table.Has c

/-- A state in order that continues `s`. -/
structure Precedes (env : Environment) (s s' : LiftState) : Prop where
  sound : s'.Sound env
  isExtension : s.arena.Extends s'.arena
  table : s.names.table.Extends s'.names.table

variable {env : Environment} {s s' s'' : LiftState}

namespace Precedes

theorem refl (h : s.Sound env) : s.Precedes env s := ⟨h, .refl _, fun _ _ hc => hc⟩

theorem trans (h : s.Precedes env s') (h' : s'.Precedes env s'') : s.Precedes env s'' :=
  ⟨h'.sound, h.isExtension.trans h'.isExtension, fun _ _ hc => h'.table (h.table hc)⟩

theorem has (h : s.Precedes env s') (c : Name) (hc : s.names.table.Has c) :
    s'.names.table.Has c := h.table.has hc

theorem holds (h : s.Precedes env s') {e : ExprId} (he : s.Holds e) : s'.Holds e :=
  he.mono h.isExtension h.has

theorem heldIn (h : s.Precedes env s') {S : Substitution}
    (hS : S.HeldIn s.arena s.names.table.Has) : S.HeldIn s'.arena s'.names.table.Has :=
  hS.mono h.isExtension h.has

end Precedes

theorem Sound.grow (h : s.Sound env) {b : Arena} (hab : s.arena.Extends b) (hb : b.WellFormed) :
    s.Precedes env { s with arena := b } where
  sound := {
    wellFormed := hb
    named := h.named
    scope x d hd e he := (h.scope x d hd e he).extend hab
    lifted p hp := ⟨(h.lifted p hp).1, (h.lifted p hp).2.extend hab⟩
    events := h.events }
  isExtension := hab
  table _ _ hc := hc

theorem Sound.restate (h : s.Sound env) {scope : Scope} {events : Array Event}
    (hscope : ∀ x d, scope.find? x = some d → ∀ e ∈ d.value, s.Holds e)
    (hevents : ∀ ev ∈ events, ∀ c ∈ ev.names, s.names.table.Has c) :
    s.Precedes env { s with scope := scope, events := events } where
  sound := ⟨h.wellFormed, h.named, hscope, h.lifted, hevents⟩
  isExtension := .refl _
  table _ _ hc := hc

theorem Sound.emit (h : s.Sound env) {ev : Event} (hev : ∀ c ∈ ev.names, s.names.table.Has c) :
    s.Precedes env { s with events := s.events.push ev } := by
  refine h.restate h.scope fun ev' hev' => ?_
  rcases Array.mem_push.1 hev' with hold | rfl
  · exact h.events ev' hold
  · exact hev

theorem Sound.declare (h : s.Sound env) (b : Binder) {value : Option ExprId}
    (hvalue : ∀ e ∈ value, s.Holds e) :
    s.Precedes env { s with scope := (s.scope.declare b value).2 } := by
  refine h.restate (fun x d hd => ?_) h.events
  rw [Scope.find?_declare] at hd
  split at hd
  · exact Option.some.inj hd ▸ hvalue
  · exact h.scope x d hd

theorem Sound.remove (h : s.Sound env) (xs : List LocalId) :
    s.Precedes env { s with scope := s.scope.remove xs } := by
  refine h.restate (fun x d hd => ?_) h.events
  rw [Scope.find?_remove] at hd
  split at hd
  · cases hd
  · exact h.scope x d hd

end LiftState

namespace LiftM

variable {α β : Type} {ctx : LiftContext} {s : LiftState}

/-- However a computation ends, the state is in order. If it ends with an answer, this is in `V`; if
it ends with an error, the message can be shown; if it ends with neither, it has not ended. -/
def Keeps (x : LiftM α) (ctx : LiftContext) (s : LiftState) (V : α → LiftState → Prop) : Prop :=
  match x ctx s with
  | .error f => f = .outOfFuel
  | .ok (.error err, s') => s.Precedes ctx.env s' ∧ ∀ c ∈ err.names, s'.names.table.Has c
  | .ok (.ok v, s') => s.Precedes ctx.env s' ∧ V v s'

section Keeps

variable {V : α → LiftState → Prop} {W : β → LiftState → Prop}

theorem Keeps.of_runs {x : LiftM α} {v : α} {s' : LiftState} (hrun : x.Runs ctx s v s')
    (hs : s.Precedes ctx.env s') (hv : V v s') : x.Keeps ctx s V := by
  rw [Runs] at hrun
  rw [Keeps, hrun]
  exact ⟨hs, hv⟩

theorem keeps_pure (hs : s.Sound ctx.env) {v : α} (hv : V v s) :
    (Pure.pure v : LiftM α).Keeps ctx s V :=
  .of_runs (runs_pure.2 ⟨rfl, rfl⟩) (.refl hs) hv

theorem keeps_throw (hs : s.Sound ctx.env) {err : LiftError}
    (herr : ∀ c ∈ err.names, s.names.table.Has c) : (throw err : LiftM α).Keeps ctx s V :=
  ⟨.refl hs, herr⟩

theorem Keeps.throw_bind (hs : s.Sound ctx.env) {err : LiftError}
    (herr : ∀ c ∈ err.names, s.names.table.Has c) {f : α → LiftM β} :
    ((throw err : LiftM α) >>= f).Keeps ctx s W := by
  have hrun : (throw err : LiftM α) ctx s = .ok (.error err, s) := rfl
  rw [Keeps, bind_of_error hrun]
  exact ⟨.refl hs, herr⟩

theorem keeps_stop : (stop .outOfFuel : LiftM α).Keeps ctx s V := rfl

theorem Keeps.bind {x : LiftM α} {f : α → LiftM β} (hx : x.Keeps ctx s V)
    (hf : ∀ v s', s.Precedes ctx.env s' → V v s' → (f v).Keeps ctx s' W) :
    (x >>= f).Keeps ctx s W := by
  rcases hrun : x ctx s with fault | ⟨err | v, s₁⟩
  · rw [Keeps, hrun] at hx
    rwa [Keeps, bind_of_fault hrun]
  · rw [Keeps, hrun] at hx
    rwa [Keeps, bind_of_error hrun]
  · rw [Keeps, hrun] at hx
    have hrest := hf v s₁ hx.1 hx.2
    rw [Keeps, bind_of_runs hrun]
    rw [Keeps] at hrest
    rcases hlast : f v ctx s₁ with fault | ⟨err | u, s₂⟩
    · rwa [hlast] at hrest
    · rw [hlast] at hrest
      exact ⟨hx.1.trans hrest.1, hrest.2⟩
    · rw [hlast] at hrest
      exact ⟨hx.1.trans hrest.1, hrest.2⟩

/-- Run what does not change the state, and whose answer is known. -/
theorem Keeps.bind_of_runs {x : LiftM α} {f : α → LiftM β} {v : α} (hrun : x.Runs ctx s v s)
    (hf : (f v).Keeps ctx s W) : (x >>= f).Keeps ctx s W := by
  rw [Keeps, LiftM.bind_of_runs hrun]
  exact hf

theorem Keeps.read_bind {f : LiftContext → LiftM β} (hf : (f ctx).Keeps ctx s W) :
    (read >>= f).Keeps ctx s W :=
  .bind_of_runs (runs_read.2 ⟨rfl, rfl⟩) hf

theorem Keeps.state_bind {f : LiftState → LiftM β} (hf : (f s).Keeps ctx s W) :
    (state >>= f).Keeps ctx s W :=
  .bind_of_runs (runs_state.2 ⟨rfl, rfl⟩) hf

theorem Keeps.node_bind {e : ExprId} {n : Node} (hn : s.arena.node? e = some n)
    {f : Node → LiftM β} (hf : (f n).Keeps ctx s W) :
    ((liftM (ArenaM.node e) : LiftM Node) >>= f).Keeps ctx s W :=
  .bind_of_runs (runs_liftM.2 ⟨s.arena, ArenaM.node_eq_ok hn, rfl⟩) hf

theorem Keeps.ask_bind {q : Arena → Except Fault α} {v : α} (hq : q s.arena = .ok v)
    {f : α → LiftM β} (hf : (f v).Keeps ctx s W) :
    ((liftM (ArenaM.ask q) : LiftM α) >>= f).Keeps ctx s W :=
  .bind_of_runs (runs_liftM.2 ⟨s.arena, ArenaM.ask_eq_ok hq, rfl⟩) hf

theorem Keeps.update_bind {g : LiftState → LiftState} (hg : s.Precedes ctx.env (g s))
    {f : Unit → LiftM β} (hf : (f ()).Keeps ctx (g s) W) : (update g >>= f).Keeps ctx s W := by
  have hupdate : (update g).Keeps ctx s fun _ s' => s' = g s :=
    .of_runs (v := ()) (runs_update.2 rfl) hg rfl
  refine hupdate.bind fun _ s' _ heq => ?_
  rw [heq]
  exact hf

theorem keeps_liftM (hs : s.Sound ctx.env) {x : ArenaM α}
    (hx : Yields x s.arena fun v b => s.arena.Extends b ∧ b.WellFormed ∧
      V v { s with arena := b }) : (liftM x : LiftM α).Keeps ctx s V := by
  obtain ⟨v, b, hrun, hab, hb, hv⟩ := hx
  exact .of_runs (runs_liftM.2 ⟨b, hrun, rfl⟩) (hs.grow hab hb) hv

theorem keeps_of_stores (hs : s.Sound ctx.env) {x : ArenaM ExprId}
    (hx : ArenaM.Stores x s.arena s.names.table.Has) :
    (liftM x : LiftM ExprId).Keeps ctx s fun e s' => s'.Holds e :=
  keeps_liftM hs (Yields.imp hx fun _ _ h => ⟨h.1.isExtension, h.1.wellFormed, h.2⟩)

theorem keeps_headReduce (hs : s.Sound ctx.env) (fuel : Nat) {e : ExprId} (he : s.Holds e) :
    (liftM (ArenaM.headReduce fuel e) : LiftM ExprId).Keeps ctx s fun r s' => s'.Holds r := by
  rcases ArenaM.stores_headReduce hs.wellFormed he fuel with hdry | hstores
  · have hrun : (liftM (ArenaM.headReduce fuel e) : LiftM ExprId) ctx s = .error .outOfFuel := by
      show onArena (ArenaM.headReduce fuel e) ctx s = _
      simp only [onArena, hdry]
    rw [Keeps, hrun]
  · exact keeps_of_stores hs hstores

/-- A list is treated in order. What its members need, `P`, and what is known of the answers has to
survive the treatment of those behind. -/
theorem Keeps.mapM {P : α → LiftState → Prop} {f : α → LiftM β}
    (hP : ∀ ⦃x s s'⦄, s.Precedes ctx.env s' → P x s → P x s')
    (hW : ∀ ⦃y s s'⦄, s.Precedes ctx.env s' → W y s → W y s')
    (hf : ∀ ⦃x s⦄, s.Sound ctx.env → P x s → (f x).Keeps ctx s W) (hs : s.Sound ctx.env)
    {xs : List α} (hxs : ∀ x ∈ xs, P x s) :
    (xs.mapM f).Keeps ctx s fun ys s' => ∀ y ∈ ys, W y s' := by
  induction xs generalizing s with
  | nil => exact keeps_pure hs (by simp)
  | cons x xs ih =>
    obtain ⟨hx, hxs⟩ := List.forall_mem_cons.1 hxs
    rw [List.mapM_cons]
    refine (hf hs hx).bind fun y s₁ h₁ hy => ?_
    refine (ih h₁.sound fun z hz => hP h₁ (hxs z hz)).bind fun ys s₂ h₂ hys => ?_
    exact keeps_pure h₂.sound (List.forall_mem_cons.2 ⟨hW h₂ hy, hys⟩)

end Keeps

theorem keeps_openBinder (hs : s.Sound ctx.env) (name : Name) {value : Option ExprId}
    (hvalue : ∀ e ∈ value, s.Holds e) :
    (openBinder name value).Keeps ctx s fun r s' => s'.Holds r.2 := by
  have hbinder : (liftM (ArenaM.newBinder name) : LiftM Binder).Keeps ctx s fun _ _ => True := by
    refine keeps_liftM hs ((ArenaM.yields_newBinder hs.wellFormed name).imp fun b c h => ?_)
    exact ⟨h.2.1, h.2.2.1, trivial⟩
  refine hbinder.bind fun b s₁ h₁ _ => ?_
  refine (keeps_of_stores h₁.sound (ArenaM.stores_mkVar h₁.sound.wellFormed b.id)).bind
    fun x s₂ h₂ hx => ?_
  have hdeclare := h₂.sound.declare b fun e he => (h₁.trans h₂).holds (hvalue e he)
  exact .update_bind hdeclare (keeps_pure hdeclare.sound hx)

theorem Keeps.closeBinders_bind (hs : s.Sound ctx.env) (bs : List Binder) {f : Unit → LiftM β}
    {W : β → LiftState → Prop}
    (hf : ∀ s', s.Precedes ctx.env s' → (f ()).Keeps ctx s' W) :
    (closeBinders bs >>= f).Keeps ctx s W :=
  .update_bind (hs.remove _) (hf _ (hs.remove _))

theorem Keeps.emit_bind (hs : s.Sound ctx.env) {ev : Event}
    (hev : ∀ c ∈ ev.names, s.names.table.Has c) {f : Unit → LiftM β} {W : β → LiftState → Prop}
    (hf : ∀ s', s.Precedes ctx.env s' → (f ()).Keeps ctx s' W) :
    (emit ev >>= f).Keeps ctx s W :=
  .update_bind (hs.emit hev) (hf _ (hs.emit hev))

def HoldsValues (s : LiftState) (ds : List Decl) : Prop := ∀ d ∈ ds, ∀ e ∈ d.value, s.Holds e

theorem HoldsValues.mono {s' : LiftState} {ds : List Decl} (h : HoldsValues s ds)
    (hs : s.Precedes ctx.env s') : HoldsValues s' ds :=
  fun d hd e he => hs.holds (h d hd e he)

theorem keeps_addFree (hs : s.Sound ctx.env) {e : ExprId} (he : s.Holds e) {pending : List Decl}
    (hpending : HoldsValues s pending) :
    (addFree e pending).Keeps ctx s fun ds s' => HoldsValues s' ds := by
  obtain ⟨t, ht, -⟩ := he
  refine .ask_bind (Arena.freeVars_eq_ok hs.wellFormed ht) ?_
  generalize firstOccurrences t.occurrences = xs
  induction xs generalizing pending with
  | nil => exact keeps_pure hs hpending
  | cons x xs ih =>
    rw [List.foldlM_cons, bind_assoc]
    refine .state_bind ?_
    cases hx : s.scope.find? x with
    | none =>
      refine .throw_bind hs ?_
      simp [LiftError.names]
    | some d =>
      rw [pure_bind]
      refine ih fun c hc => ?_
      rcases mem_insertDecl hc with rfl | hc
      · exact hs.scope x c hx
      · exact hpending c hc

theorem keeps_needed (hs : s.Sound ctx.env) (fuel : Nat) {pending : List Decl}
    (hpending : HoldsValues s pending) :
    (needed fuel pending).Keeps ctx s fun ds s' => HoldsValues s' ds := by
  induction fuel generalizing s pending with
  | zero =>
    cases pending with
    | nil => exact keeps_pure hs hpending
    | cons d pending => exact keeps_stop
  | succ fuel ih =>
    cases pending with
    | nil => exact keeps_pure hs hpending
    | cons d pending =>
      obtain ⟨hd, htail⟩ := List.forall_mem_cons.1 hpending
      have hrest (ds : List Decl) (s₁ : LiftState) (h₁ : s.Precedes ctx.env s₁)
          (hds : HoldsValues s₁ ds) :
          (needed fuel ds >>= fun ds => pure (d :: ds)).Keeps ctx s₁
            fun ds s' => HoldsValues s' ds := by
        refine (ih h₁.sound hds).bind fun ds s₂ h₂ hds => ?_
        refine keeps_pure h₂.sound (List.forall_mem_cons.2 ⟨fun e he => ?_, hds⟩)
        exact (h₁.trans h₂).holds (hd e he)
      rw [needed]
      split
      · next value hvalue => exact (keeps_addFree hs (hd value hvalue) htail).bind hrest
      · exact (keeps_pure hs htail).bind hrest

theorem yields_parametrize_heldIn {a : Arena} (ha : a.WellFormed) {K : Name → Prop}
    {ds : List Decl} {S : Substitution} (hS : S.HeldIn a K)
    (hds : ∀ d ∈ ds, ∀ e ∈ d.value, a.Holds K e) :
    Yields (parametrize ds S) a fun r b => a.Extends b ∧ b.WellFormed ∧ r.2.HeldIn b K := by
  have hsame (c : Name) (hc : K c) : K c := hc
  induction ds generalizing a S with
  | nil => exact .pure ⟨.refl a, ha, hS⟩
  | cons d ds ih =>
    obtain ⟨hd, hds⟩ := List.forall_mem_cons.1 hds
    rw [parametrize]
    split
    · next value hvalue =>
      refine Yields.bind (ArenaM.stores_substitute ha hS (hd value hvalue)) fun v b hv => ?_
      obtain ⟨hab, hv⟩ := hv
      have hext := hab.isExtension
      refine (ih hab.wellFormed ((hS.mono hext hsame).insert d.id hv)
        fun c hc e he => (hds c hc e he).extend hext).imp fun r b' hr => ?_
      exact ⟨hext.trans hr.1, hr.2⟩
    · refine (ArenaM.yields_newBinder ha d.name).bind fun c b hb => ?_
      obtain ⟨-, hab, hb, -⟩ := hb
      refine Yields.bind (ArenaM.stores_mkVar (K := K) hb c.id) fun x b' hx => ?_
      obtain ⟨hbb', hx⟩ := hx
      have hext := hab.trans hbb'.isExtension
      refine (ih hbb'.wellFormed ((hS.mono hext hsame).insert d.id hx)
        fun c hc e he => (hds c hc e he).extend hext).bind fun r b'' hr => ?_
      exact .pure ⟨hext.trans hr.1, hr.2⟩

theorem keeps_closeOver (hs : s.Sound ctx.env) {e : ExprId} (he : s.Holds e) :
    (closeOver e).Keeps ctx s fun r s' => s'.Holds r.1 := by
  refine (keeps_addFree hs he (by simp [HoldsValues])).bind fun pending s₁ h₁ hpending => ?_
  refine .state_bind ((keeps_needed h₁.sound _ hpending).bind fun decls s₂ h₂ hdecls => ?_)
  have hreverse : HoldsValues s₂ decls.reverse := fun d hd => hdecls d (List.mem_reverse.1 hd)
  have hparams := yields_parametrize_heldIn h₂.sound.wellFormed (.empty _ _) hreverse
  refine (keeps_liftM (V := fun r s' => r.2.HeldIn s'.arena s'.names.table.Has) h₂.sound
    hparams).bind fun r s₃ h₃ hS => ?_
  have hbody := ((h₁.trans h₂).trans h₃).holds he
  refine (keeps_of_stores h₃.sound (ArenaM.stores_substitute h₃.sound.wellFormed hS hbody)).bind
    fun body s₄ h₄ hbody => ?_
  refine (keeps_of_stores h₄.sound (ArenaM.stores_mkLambdas h₄.sound.wellFormed hbody r.1)).bind
    fun closed s₅ h₅ hclosed => ?_
  exact keeps_pure h₅.sound hclosed

theorem keeps_kindOf (hs : s.Sound ctx.env) {c : Name} (hc : s.names.table.Has c) :
    (kindOf c).Keeps ctx s fun k s' => ∀ type, k = .dispatcher type → s'.names.table.Has type := by
  refine .read_bind ?_
  cases hk : ctx.env.kind? c with
  | some k =>
    refine keeps_pure hs fun type htype => hs.named.dispatched c type ?_
    rw [hk, htype]
  | none =>
    refine .read_bind (.state_bind ?_)
    split
    · exact keeps_pure hs (by simp)
    · exact keeps_throw hs (List.forall_mem_singleton.2 hc)

theorem keeps_reusable? (hs : s.Sound ctx.env) {e : ExprId} (he : s.Holds e) :
    (reusable? e).Keeps ctx s fun r s' => ∀ c ∈ r, s'.names.table.Has c := by
  obtain ⟨t, ht, hglobals⟩ := he
  refine .ask_bind (hs.wellFormed.headGlobal?_eq_ok ht) ?_
  cases hhead : t.headGlobal? with
  | none => exact keeps_pure hs (by simp)
  | some c =>
    have hc := hglobals c (Term.mem_globals_of_headGlobal? hhead)
    refine (keeps_kindOf hs hc).bind fun k s₁ h₁ _ => keeps_pure h₁.sound fun d hd => ?_
    split at hd
    · exact Option.some.inj hd ▸ h₁.has c hc
    · cases hd

theorem keeps_addProcedure (hs : s.Sound ctx.env) (fuel : Nat) {closed : ExprId}
    (he : s.Holds closed) : (addProcedure fuel closed).Keeps ctx s fun e s' => s'.Holds e := by
  rw [Keeps, addProcedure_eq]
  cases hfresh : NameSource.fresh ctx.base (ctx.taken s.lifted) fuel s.names with
  | error fault => exact NameSource.eq_outOfFuel_of_fresh hfresh
  | ok r =>
    -- The texts of names from before stay, so that all that had a text still has one.
    obtain ⟨hadvance, n, -, htext⟩ := NameSource.advances_of_fresh hfresh
    have hhas (c : Name) (hc : s.names.table.Has c) : r.2.table.Has c := hadvance.table.has hc
    have hname : r.2.table.Has r.1 := ⟨_, htext⟩
    obtain ⟨e, b, hpush, hab, hterm⟩ :=
      ArenaM.builds_push hs.wellFormed (.global r.1) (by simp)
    cases hpush
    have hext := hab.isExtension
    refine ⟨⟨⟨hab.wellFormed, hs.named.mono hhas, ?_, ?_, ?_⟩, hext, hadvance.table⟩, _, hterm, ?_⟩
    · exact fun x d hd e he => (hs.scope x d hd e he).mono hext hhas
    · intro p hp
      rcases Array.mem_push.1 hp with hp | rfl
      · exact ⟨hhas _ (hs.lifted p hp).1, (hs.lifted p hp).2.mono hext hhas⟩
      · exact ⟨hname, he.mono hext hhas⟩
    · intro ev hev c hc
      rcases Array.mem_push.1 hev with hev | rfl
      · exact hhas c (hs.events ev hev c hc)
      · exact List.mem_singleton.1 hc ▸ hname
    · exact List.forall_mem_singleton.2 hname

theorem keeps_callee (hs : s.Sound ctx.env) (fuel : Nat) {closed : ExprId} (he : s.Holds closed) :
    (callee fuel closed).Keeps ctx s fun e s' => s'.Holds e := by
  refine (keeps_of_stores hs (ArenaM.stores_etaReduce hs.wellFormed he)).bind
    fun reduced s₁ h₁ hreduced => ?_
  refine (keeps_reusable? h₁.sound hreduced).bind fun r s₂ h₂ hr => ?_
  cases r with
  | none => exact keeps_addProcedure h₂.sound fuel ((h₁.trans h₂).holds he)
  | some c =>
    refine .emit_bind h₂.sound ?_ fun s₃ h₃ => ?_
    · exact List.forall_mem_singleton.2 (hr c rfl)
    · exact keeps_pure h₃.sound (h₃.holds (h₂.holds hreduced))

theorem keeps_dispatcher? (hs : s.Sound ctx.env) {head : ExprId} (hhead : s.Holds head) :
    (dispatcher? head).Keeps ctx s fun r s' =>
      ∀ p ∈ r, s'.names.table.Has p.1 ∧ s'.names.table.Has p.2 := by
  obtain ⟨n, hn⟩ := hhead.exists_node
  refine .node_bind hn ?_
  cases n with
  | global c =>
    have hc := hhead.global hs.wellFormed hn
    refine (keeps_kindOf hs hc).bind fun k s₁ h₁ hk => ?_
    cases k with
    | dispatcher type =>
      refine keeps_pure h₁.sound fun p hp => ?_
      obtain rfl := Option.some.inj hp
      exact ⟨h₁.has c hc, hk type rfl⟩
    | _ => exact keeps_pure h₁.sound (by simp)
  | _ => exact keeps_pure hs (by simp)

theorem keeps_openLambdas (hs : s.Sound ctx.env) (fuel : Nat) {S : Substitution} {e : ExprId}
    (hS : S.HeldIn s.arena s.names.table.Has) (he : s.Holds e) :
    (openLambdas fuel S e).Keeps ctx s fun r s' => s'.Holds r.2 := by
  induction fuel generalizing s S e with
  | zero => exact keeps_stop
  | succ fuel ih =>
    obtain ⟨n, hn⟩ := he.exists_node
    refine .node_bind hn ?_
    split
    · next b body =>
      have hbody := he.child hs.wellFormed hn body (by simp [Node.children])
      refine (keeps_openBinder hs b.name (by simp)).bind fun r s₁ h₁ hr => ?_
      refine (ih h₁.sound ((h₁.heldIn hS).insert b.id hr) (h₁.holds hbody)).bind
        fun q s₂ h₂ hq => ?_
      exact keeps_pure h₂.sound hq
    · refine (keeps_of_stores hs (ArenaM.stores_substitute hs.wellFormed hS he)).bind
        fun r s₁ h₁ hr => ?_
      exact keeps_pure h₁.sound hr

theorem keeps_openFields (hs : s.Sound ctx.env) (fields : Nat) {S : Substitution} {e : ExprId}
    (hS : S.HeldIn s.arena s.names.table.Has) (he : s.Holds e) :
    (openFields fields S e).Keeps ctx s fun r s' => s'.Holds r.2 := by
  induction fields generalizing s S e with
  | zero =>
    refine (keeps_of_stores hs (ArenaM.stores_substitute hs.wellFormed hS he)).bind
      fun r s₁ h₁ hr => ?_
    exact keeps_pure h₁.sound hr
  | succ fields ih =>
    obtain ⟨n, hn⟩ := he.exists_node
    refine .node_bind hn ?_
    split
    · next b body =>
      have hbody := he.child hs.wellFormed hn body (by simp [Node.children])
      refine (keeps_openBinder hs b.name (by simp)).bind fun r s₁ h₁ hr => ?_
      refine (ih h₁.sound ((h₁.heldIn hS).insert b.id hr) (h₁.holds hbody)).bind
        fun q s₂ h₂ hq => ?_
      exact keeps_pure h₂.sound hq
    · refine .read_bind ?_
      refine (keeps_openBinder hs _ (by simp)).bind fun r s₁ h₁ hr => ?_
      have happ := ArenaM.stores_mkApp h₁.sound.wellFormed (h₁.holds he)
        (List.forall_mem_singleton.2 hr)
      refine (keeps_of_stores h₁.sound happ).bind fun e' s₂ h₂ he' => ?_
      refine (ih h₂.sound ((h₁.trans h₂).heldIn hS) he').bind fun q s₃ h₃ hq => ?_
      exact keeps_pure h₃.sound hq

theorem keeps_fieldCount (hs : s.Sound ctx.env) (params : Nat) {c : Name}
    (hc : s.names.table.Has c) : (fieldCount params c).Keeps ctx s fun _ _ => True := by
  refine .read_bind ?_
  cases ctx.env.arity? c with
  | none => exact keeps_throw hs (List.forall_mem_singleton.2 hc)
  | some arity =>
    dsimp only
    split
    · refine .throw_bind hs ?_
      exact List.forall_mem_singleton.2 hc
    · exact keeps_pure hs trivial

/-- Lifting as far as it is given by `lift` keeps the state in order. -/
def Maintains (ctx : LiftContext) (lift : ExprId → LiftM ExprId) : Prop :=
  ∀ ⦃s e⦄, s.Sound ctx.env → s.Holds e → (lift e).Keeps ctx s fun r s' => s'.Holds r

namespace Maintains

variable {lift : ExprId → LiftM ExprId} {e : ExprId}

theorem mapM (hlift : Maintains ctx lift) (hs : s.Sound ctx.env) {es : List ExprId}
    (hes : ∀ e ∈ es, s.Holds e) :
    (es.mapM lift).Keeps ctx s fun rs s' => ∀ r ∈ rs, s'.Holds r :=
  .mapM (P := fun e s => s.Holds e) (W := fun r s => s.Holds r) (fun _ _ _ h => h.holds)
    (fun _ _ _ h => h.holds) (fun _ _ hs he => hlift hs he) hs hes

theorem underLambdas (hlift : Maintains ctx lift) (hs : s.Sound ctx.env) (fuel : Nat)
    (he : s.Holds e) : (liftUnderLambdas lift fuel e).Keeps ctx s fun r s' => s'.Holds r := by
  refine (keeps_openLambdas hs fuel (.empty _ _) he).bind fun r s₁ h₁ hr => ?_
  refine (hlift h₁.sound hr).bind fun body s₂ h₂ hbody => ?_
  refine .closeBinders_bind h₂.sound r.1 fun s₃ h₃ => ?_
  exact keeps_of_stores h₃.sound
    (ArenaM.stores_mkLambdas h₃.sound.wellFormed (h₃.holds hbody) r.1)

theorem arm (hlift : Maintains ctx lift) (hs : s.Sound ctx.env) (fields : Nat)
    (he : s.Holds e) : (liftArm lift fields e).Keeps ctx s fun r s' => s'.Holds r := by
  refine (keeps_openFields hs fields (.empty _ _) he).bind fun r s₁ h₁ hr => ?_
  refine .emit_bind h₁.sound (by simp [Event.names]) fun s₂ h₂ => ?_
  refine (hlift h₂.sound (h₂.holds hr)).bind fun body s₃ h₃ hbody => ?_
  refine .closeBinders_bind h₃.sound r.1 fun s₄ h₄ => ?_
  exact keeps_of_stores h₄.sound
    (ArenaM.stores_mkLambdas h₄.sound.wellFormed (h₄.holds hbody) r.1)

theorem lambda (hlift : Maintains ctx lift) (hs : s.Sound ctx.env) (fuel : Nat)
    (he : s.Holds e) : (liftLambda lift fuel e).Keeps ctx s fun r s' => s'.Holds r := by
  refine (hlift.underLambdas hs fuel he).bind fun lifted s₁ h₁ hlifted => ?_
  refine (keeps_closeOver h₁.sound hlifted).bind fun r s₂ h₂ hr => ?_
  refine (keeps_callee h₂.sound fuel hr).bind fun head s₃ h₃ hhead => ?_
  have hvars : (r.2.reverse.mapM fun x => onArena (ArenaM.mkVar x)).Keeps ctx s₃
      fun rs s' => ∀ r ∈ rs, s'.Holds r :=
    .mapM (P := fun _ _ => True) (W := fun r s => s.Holds r) (fun _ _ _ _ => id)
      (fun _ _ _ h => h.holds)
      (fun x _ hs _ => keeps_of_stores hs (ArenaM.stores_mkVar hs.wellFormed x)) h₃.sound (by simp)
  refine hvars.bind fun args s₄ h₄ hargs => ?_
  refine .emit_bind h₄.sound (by simp [Event.names]) fun s₅ h₅ => ?_
  exact keeps_of_stores h₅.sound (ArenaM.stores_mkApp h₅.sound.wellFormed
    (h₅.holds (h₄.holds hhead)) fun x hx => h₅.holds (hargs x hx))

theorem chain (hlift : Maintains ctx lift) (hs : s.Sound ctx.env) (fuel : Nat) {S : Substitution}
    (hS : S.HeldIn s.arena s.names.table.Has) (he : s.Holds e) :
    (liftChain lift fuel S e).Keeps ctx s
      fun r s' => (∀ d ∈ r.1, s'.Holds d.2) ∧ s'.Holds r.2 := by
  induction fuel generalizing s S e with
  | zero => exact keeps_stop
  | succ fuel ih =>
    obtain ⟨n, hn⟩ := he.exists_node
    refine .node_bind hn ?_
    split
    · next b value body =>
      have hvalue := he.child hs.wellFormed hn value (by simp [Node.children])
      have hbody := he.child hs.wellFormed hn body (by simp [Node.children])
      refine (keeps_of_stores hs (ArenaM.stores_substitute hs.wellFormed hS hvalue)).bind
        fun v s₁ h₁ hv => ?_
      refine (hlift h₁.sound hv).bind fun v' s₂ h₂ hv' => ?_
      refine (keeps_openBinder h₂.sound b.name fun d hd => Option.some.inj hd ▸ hv').bind
        fun r s₃ h₃ hr => ?_
      have h := (h₁.trans h₂).trans h₃
      refine (ih h₃.sound ((h.heldIn hS).insert b.id hr) (h.holds hbody)).bind
        fun q s₄ h₄ hq => ?_
      refine keeps_pure h₄.sound ⟨List.forall_mem_cons.2 ⟨?_, hq.1⟩, hq.2⟩
      exact (h₃.trans h₄).holds hv'
    · refine (keeps_of_stores hs (ArenaM.stores_substitute hs.wellFormed hS he)).bind
        fun v s₁ h₁ hv => ?_
      refine (hlift h₁.sound hv).bind fun v' s₂ h₂ hv' => ?_
      exact keeps_pure h₂.sound ⟨by simp, hv'⟩

theorem lets (hlift : Maintains ctx lift) (hs : s.Sound ctx.env) (fuel : Nat) (he : s.Holds e) :
    (liftLets lift fuel e).Keeps ctx s fun r s' => s'.Holds r := by
  refine (hlift.chain hs fuel (.empty _ _) he).bind fun r s₁ h₁ hr => ?_
  refine .closeBinders_bind h₁.sound _ fun s₂ h₂ => ?_
  exact keeps_of_stores h₂.sound (ArenaM.stores_mkLets h₂.sound.wellFormed (h₂.holds hr.2)
    fun d hd => h₂.holds (hr.1 d hd))

theorem dispatch (hlift : Maintains ctx lift) (hs : s.Sound ctx.env) {c type : Name}
    (hc : s.names.table.Has c) (htype : s.names.table.Has type) {head : ExprId}
    {args : List ExprId} (hhead : s.Holds head) (hargs : ∀ x ∈ args, s.Holds x) :
    (liftDispatch lift c type head args).Keeps ctx s fun r s' => s'.Holds r := by
  refine .read_bind ?_
  cases ht : ctx.env.type? type with
  | none => exact keeps_throw hs (List.forall_mem_singleton.2 htype)
  | some t =>
    dsimp only
    split
    · refine .throw_bind hs ?_
      exact List.forall_mem_singleton.2 hc
    · refine (hlift.mapM hs fun x hx => hargs x (List.mem_of_mem_take hx)).bind
        fun scrutinee s₁ h₁ hscrutinee => ?_
      refine (hlift.mapM h₁.sound fun x hx => h₁.holds (hargs x (List.mem_of_mem_drop hx))).bind
        fun extra s₂ h₂ hextra => ?_
      have h := h₁.trans h₂
      have harms : ∀ p ∈ t.constructors.zip (args.drop 1),
          s₂.names.table.Has p.1 ∧ s₂.Holds p.2 := by
        intro p hp
        obtain ⟨hp₁, hp₂⟩ := List.of_mem_zip hp
        exact ⟨h.has _ (hs.named.constructors type t ht p.1 hp₁),
          h.holds (hargs p.2 (List.mem_of_mem_drop hp₂))⟩
      refine Keeps.bind (.mapM
        (P := fun (p : Name × ExprId) s => s.names.table.Has p.1 ∧ s.Holds p.2)
        (W := fun r s => s.Holds r) (fun _ _ _ h hp => ⟨h.has _ hp.1, h.holds hp.2⟩)
        (fun _ _ _ h => h.holds) ?_ h₂.sound harms) fun arms s₃ h₃ harms => ?_
      · intro p s hs hp
        refine (keeps_fieldCount hs t.params hp.1).bind fun k s₁ h₁ _ => ?_
        exact hlift.arm h₁.sound k (h₁.holds hp.2)
      · refine keeps_of_stores h₃.sound (ArenaM.stores_mkApp h₃.sound.wellFormed
          ((h.trans h₃).holds hhead) fun x hx => ?_)
        rcases List.mem_append.1 hx with hx | hx
        · rcases List.mem_append.1 hx with hx | hx
          · exact (h₂.trans h₃).holds (hscrutinee x hx)
          · exact harms x hx
        · exact h₃.holds (hextra x hx)

theorem call (hlift : Maintains ctx lift) (hs : s.Sound ctx.env) (fuel : Nat) {head : ExprId}
    {args : List ExprId} (he : s.Holds e) (hhead : s.Holds head) (hargs : ∀ x ∈ args, s.Holds x) :
    (liftCall lift fuel e head args).Keeps ctx s fun r s' => s'.Holds r := by
  refine (keeps_headReduce hs fuel he).bind fun reduced s₁ h₁ hreduced => ?_
  split
  · exact hlift h₁.sound hreduced
  · refine (hlift h₁.sound (h₁.holds hhead)).bind fun head' s₂ h₂ hhead' => ?_
    have h := h₁.trans h₂
    refine (hlift.mapM h₂.sound fun x hx => h.holds (hargs x hx)).bind fun args' s₃ h₃ hargs' => ?_
    split
    · exact keeps_pure h₃.sound ((h.trans h₃).holds he)
    · exact keeps_of_stores h₃.sound
        (ArenaM.stores_mkApp h₃.sound.wellFormed (h₃.holds hhead') hargs')

theorem app (hlift : Maintains ctx lift) (hs : s.Sound ctx.env) (fuel : Nat) {head : ExprId}
    {args : List ExprId} (hn : s.arena.node? e = some (.app head args)) (he : s.Holds e) :
    (liftApp lift fuel e head args).Keeps ctx s fun r s' => s'.Holds r := by
  obtain ⟨hhead, hargs⟩ := List.forall_mem_cons.1 (he.child hs.wellFormed hn)
  refine (keeps_dispatcher? hs hhead).bind fun r s₁ h₁ hr => ?_
  have hargs' (x : ExprId) (hx : x ∈ args) : s₁.Holds x := h₁.holds (hargs x hx)
  cases r with
  | none => exact hlift.call h₁.sound fuel (h₁.holds he) (h₁.holds hhead) hargs'
  | some p =>
    obtain ⟨hc, htype⟩ := hr p rfl
    exact hlift.dispatch h₁.sound hc htype (h₁.holds hhead) hargs'

end Maintains

theorem maintains_liftTerm (ctx : LiftContext) (fuel : Nat) : Maintains ctx (liftTerm fuel) := by
  induction fuel with
  | zero => exact fun _ _ _ _ => keeps_stop
  | succ fuel ih =>
    intro s e hs he
    obtain ⟨n, hn⟩ := he.exists_node
    refine .node_bind hn ?_
    cases n with
    | var x =>
      refine .state_bind ?_
      split
      · exact keeps_pure hs he
      · exact keeps_throw hs (by simp [LiftError.names])
    | global c => exact keeps_pure hs he
    | lit l => exact keeps_pure hs he
    | app head args => exact ih.app hs fuel hn he
    | lam b body => exact ih.lambda hs fuel he
    | letIn b value body => exact ih.lets hs fuel he

theorem keeps_liftBody (hs : s.Sound ctx.env) (fuel : Nat) {e : ExprId} (he : s.Holds e) :
    (liftBody fuel e).Keeps ctx s fun r s' => s'.Holds r := by
  have hlift := maintains_liftTerm ctx fuel
  obtain ⟨n, hn⟩ := he.exists_node
  refine .node_bind hn ?_
  split
  · exact hlift.underLambdas hs fuel he
  · exact hlift hs he

/-- The scope is empty again behind a procedure, so that the run goes on. -/
theorem keeps_liftProcedure (hs : s.Sound ctx.env) {w : Stage} (h : s.Models [] w) (fuel : Nat)
    {p : Procedure} (hp : s.names.table.Has p.name ∧ s.Holds p.body) :
    (liftProcedure fuel p).Keeps ctx s fun q s' =>
      (s'.names.table.Has q.name ∧ s'.Holds q.body) ∧ ∃ w', s'.Models [] w' := by
  -- Only a run with an answer is known to close what it opened; one with an error stops here.
  have hbody : (liftBody fuel p.body).Keeps ctx s fun r s' =>
      s'.Holds r ∧ ∃ w', s'.Models [] w' := by
    have hkeeps := keeps_liftBody hs fuel hp.2
    rw [Keeps] at hkeeps ⊢
    rcases hrun : liftBody fuel p.body ctx s with fault | ⟨err | r, s₁⟩
    · rwa [hrun] at hkeeps
    · rwa [hrun] at hkeeps
    · rw [hrun] at hkeeps
      obtain ⟨t, ht, -⟩ := hp.2
      obtain ⟨w', -, -, -, hreaches⟩ := liftsBody_of_liftBody h ht hrun
      exact ⟨hkeeps.1, hkeeps.2, w', hreaches.models⟩
  refine hbody.bind fun r s₁ h₁ hr => .state_bind ?_
  obtain ⟨hr, w', hw'⟩ := hr
  simp only [hw'.isEmpty_scope, if_true]
  exact keeps_pure h₁.sound ⟨⟨h₁.has _ hp.1, hr⟩, w', hw'⟩

theorem keeps_mapM_liftProcedure (hs : s.Sound ctx.env) {w : Stage} (h : s.Models [] w)
    (fuel : Nat) {ps : List Procedure}
    (hps : ∀ p ∈ ps, s.names.table.Has p.name ∧ s.Holds p.body) :
    (ps.mapM (liftProcedure fuel)).Keeps ctx s fun qs s' =>
      ∀ q ∈ qs, s'.names.table.Has q.name ∧ s'.Holds q.body := by
  induction ps generalizing s w with
  | nil => exact keeps_pure hs (by simp)
  | cons p ps ih =>
    obtain ⟨hp, hps⟩ := List.forall_mem_cons.1 hps
    rw [List.mapM_cons]
    refine (keeps_liftProcedure hs h fuel hp).bind fun q s₁ h₁ hq => ?_
    obtain ⟨hq, w₁, hw₁⟩ := hq
    have hps' (p : Procedure) (hp : p ∈ ps) : s₁.names.table.Has p.name ∧ s₁.Holds p.body :=
      ⟨h₁.has _ (hps p hp).1, h₁.holds (hps p hp).2⟩
    refine (ih h₁.sound hw₁ hps').bind fun qs s₂ h₂ hqs => ?_
    refine keeps_pure h₂.sound (List.forall_mem_cons.2 ⟨?_, hqs⟩)
    exact ⟨h₂.has _ hq.1, h₂.holds hq.2⟩

end LiftM

end LambdaLifting
