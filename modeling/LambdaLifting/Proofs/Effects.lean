import LambdaLifting.Proofs.Mirroring
import LambdaLifting.Proofs.Programs

namespace LambdaLifting

namespace LiftState

/-- What a computation can do to the source of names and to the procedures lifted. -/
inductive Step (ctx : LiftContext) : LiftState → LiftState → Prop where
  | idle {s s'} : s'.names = s.names → s'.lifted = s.lifted → Step ctx s s'
  | add {s s' p fuel} :
      NameSource.fresh ctx.base (ctx.taken s.lifted) fuel s.names = .ok (p.name, s'.names) →
      s'.lifted = s.lifted.push p → Step ctx s s'

def Evolves (ctx : LiftContext) : LiftState → LiftState → Prop := Relation.ReflTransGen (Step ctx)

end LiftState

/-- The reasons for errors, as far as the environment and the given procedures decide them. -/
inductive LiftError.Arises (ctx : LiftContext) : LiftError → Prop where
  | tooFewArguments {c T found} : ctx.env.Dispatcher c T → found < 1 + T.arms →
      Arises ctx (.tooFewArguments c (1 + T.arms) found)
  | unboundVar (x) : Arises ctx (.unboundVar x)
  | unknownGlobal {c} : ctx.env.kind? c = none → c ∉ ctx.declared → Arises ctx (.unknownGlobal c)
  | unknownType {c type} : ctx.env.kind? c = some (.dispatcher type) →
      ctx.env.type? type = none → Arises ctx (.unknownType type)
  | unknownConstructor {c T d} : ctx.env.Dispatcher c T → d ∈ T.constructors →
      ctx.env.arity? d = none → Arises ctx (.unknownConstructor d)
  | arityBelowParams {c T d arity} : ctx.env.Dispatcher c T → d ∈ T.constructors →
      ctx.env.arity? d = some arity → arity < T.params →
      Arises ctx (.arityBelowParams d arity T.params)

namespace LiftM

variable {α β : Type} {ctx : LiftContext}

/-- A computation evolves the state, and if it ends with an error, there is a reason. -/
def Steps (ctx : LiftContext) (x : LiftM α) : Prop :=
  ∀ ⦃s r s'⦄, x ctx s = .ok (r, s') → s.Evolves ctx s' ∧ ∀ err, r = .error err → err.Arises ctx

theorem steps_pure (v : α) : Steps ctx (pure v : LiftM α) := by
  intro s r s' h
  cases h
  exact ⟨.refl, by simp⟩

theorem steps_throw {err : LiftError} (herr : err.Arises ctx) :
    Steps ctx (throw err : LiftM α) := by
  intro s r s' h
  cases h
  refine ⟨.refl, ?_⟩
  rintro _ ⟨⟩
  exact herr

theorem steps_stop (f : Fault) : Steps ctx (stop f : LiftM α) := by
  intro s r s' h
  cases h

theorem Steps.bind_of_runs {x : LiftM α} {f : α → LiftM β} (hx : Steps ctx x)
    (hf : ∀ s v s', x.Runs ctx s v s' → Steps ctx (f v)) : Steps ctx (x >>= f) := by
  intro s r s' h
  rcases hrun : x ctx s with fault | ⟨err | v, s₁⟩
  · cases (bind_of_fault hrun).symm.trans h
  · cases (bind_of_error hrun).symm.trans h
    obtain ⟨hs, herr⟩ := hx hrun
    refine ⟨hs, ?_⟩
    rintro _ ⟨⟩
    exact herr err rfl
  · obtain ⟨hs₁, -⟩ := hx hrun
    obtain ⟨hs', herr⟩ := hf s v s₁ hrun ((LiftM.bind_of_runs hrun).symm.trans h)
    exact ⟨hs₁.trans hs', herr⟩

theorem Steps.bind {x : LiftM α} {f : α → LiftM β} (hx : Steps ctx x)
    (hf : ∀ v, Steps ctx (f v)) : Steps ctx (x >>= f) :=
  hx.bind_of_runs fun _ v _ _ => hf v

theorem Steps.read_bind {f : LiftContext → LiftM β} (hf : Steps ctx (f ctx)) :
    Steps ctx (read >>= f) := by
  intro s r s' h
  rw [LiftM.bind_of_runs (runs_read.2 ⟨rfl, rfl⟩)] at h
  exact hf h

theorem Steps.state_bind {f : LiftState → LiftM β} (hf : ∀ s, Steps ctx (f s)) :
    Steps ctx (state >>= f) := by
  intro s r s' h
  rw [LiftM.bind_of_runs (runs_state.2 ⟨rfl, rfl⟩)] at h
  exact hf s h

theorem steps_update {f : LiftState → LiftState}
    (hf : ∀ s, (f s).names = s.names ∧ (f s).lifted = s.lifted) : Steps ctx (update f) := by
  intro s r s' h
  cases h
  exact ⟨.single (.idle (hf s).1 (hf s).2), by simp⟩

theorem steps_emit (e : Event) : Steps ctx (emit e) := steps_update fun _ => ⟨rfl, rfl⟩

theorem steps_closeBinders (bs : List Binder) : Steps ctx (closeBinders bs) :=
  steps_update fun _ => ⟨rfl, rfl⟩

theorem steps_liftM (x : ArenaM α) : Steps ctx (liftM x : LiftM α) := by
  intro s r s' h
  change onArena x ctx s = .ok (r, s') at h
  rw [onArena] at h
  split at h
  · cases h
    exact ⟨.single (.idle rfl rfl), by simp⟩
  · cases h

theorem Steps.mapM {f : α → LiftM β} {xs : List α} (hf : ∀ x ∈ xs, Steps ctx (f x)) :
    Steps ctx (xs.mapM f) := by
  induction xs with
  | nil => exact steps_pure []
  | cons x xs ih =>
    obtain ⟨hx, hxs⟩ := List.forall_mem_cons.1 hf
    rw [List.mapM_cons]
    exact hx.bind fun y => (ih hxs).bind fun ys => steps_pure (y :: ys)

theorem Steps.foldlM {f : β → α → LiftM β} (hf : ∀ y x, Steps ctx (f y x)) (xs : List α) (y : β) :
    Steps ctx (xs.foldlM f y) := by
  induction xs generalizing y with
  | nil => exact steps_pure y
  | cons x xs ih =>
    rw [List.foldlM_cons]
    exact (hf y x).bind ih

theorem steps_openBinder (name : Name) (value : Option ExprId) :
    Steps ctx (openBinder name value) :=
  (steps_liftM _).bind fun _ => (steps_liftM _).bind fun _ =>
    Steps.bind (steps_update fun _ => ⟨rfl, rfl⟩) fun _ => steps_pure _

theorem steps_kindOf (c : Name) : Steps ctx (kindOf c) := by
  refine .read_bind ?_
  split
  · exact steps_pure _
  · next hc =>
    refine .read_bind (.state_bind fun s => ?_)
    split
    · exact steps_pure _
    · next howns =>
      simp only [LiftContext.owns, Bool.or_eq_true, not_or, List.contains_iff_mem] at howns
      exact steps_throw (.unknownGlobal hc howns.1)

theorem kind?_of_runs_kindOf {s s' : LiftState} {c type : Name}
    (h : (kindOf c).Runs ctx s (.dispatcher type) s') :
    ctx.env.kind? c = some (.dispatcher type) := by
  simp only [kindOf, runs_bind, runs_read] at h
  obtain ⟨_, _, ⟨rfl, rfl⟩, h⟩ := h
  split at h
  · next k hk => rw [hk, (runs_pure.1 h).1]
  · simp only [runs_bind, runs_read, runs_state] at h
    obtain ⟨_, _, ⟨rfl, rfl⟩, _, _, ⟨rfl, rfl⟩, h⟩ := h
    split at h
    · cases (runs_pure.1 h).1
    · exact absurd h runs_throw

theorem steps_addFree (e : ExprId) (pending : List Decl) : Steps ctx (addFree e pending) := by
  refine (steps_liftM _).bind fun xs => Steps.foldlM (fun ds x => .state_bind fun s => ?_) xs _
  split
  · exact steps_pure _
  · exact steps_throw (.unboundVar x)

theorem steps_needed (fuel : Nat) (pending : List Decl) : Steps ctx (needed fuel pending) := by
  induction fuel generalizing pending with
  | zero =>
    cases pending with
    | nil => exact steps_pure []
    | cons d pending => exact steps_stop _
  | succ fuel ih =>
    cases pending with
    | nil => exact steps_pure []
    | cons d pending =>
      have hrest (ds : List Decl) : Steps ctx (needed fuel ds >>= fun ds => pure (d :: ds)) :=
        (ih ds).bind fun _ => steps_pure _
      rw [needed]
      split
      · exact (steps_addFree _ _).bind hrest
      · exact (steps_pure _).bind hrest

theorem steps_closeOver (e : ExprId) : Steps ctx (closeOver e) :=
  (steps_addFree e []).bind fun _ => Steps.state_bind fun _ => (steps_needed _ _).bind fun _ =>
    (steps_liftM _).bind fun _ => (steps_liftM _).bind fun _ => (steps_liftM _).bind fun _ =>
      steps_pure _

/-- The only use of the source of names. -/
theorem steps_addProcedure (fuel : Nat) (closed : ExprId) :
    Steps ctx (addProcedure fuel closed) := by
  intro s r s' h
  rw [addProcedure_eq] at h
  split at h
  · next hfresh =>
    cases h
    exact ⟨.single (.add hfresh rfl), by simp⟩
  · cases h

theorem steps_reusable? (e : ExprId) : Steps ctx (reusable? e) := by
  refine (steps_liftM _).bind fun head? => ?_
  split
  · exact steps_pure _
  · exact (steps_kindOf _).bind fun _ => steps_pure _

theorem steps_callee (fuel : Nat) (closed : ExprId) : Steps ctx (callee fuel closed) := by
  refine (steps_liftM _).bind fun _ => (steps_reusable? _).bind fun head? => ?_
  split
  · exact (steps_emit _).bind fun _ => steps_pure _
  · exact steps_addProcedure fuel closed

theorem steps_openLambdas (fuel : Nat) (S : Substitution) (e : ExprId) :
    Steps ctx (openLambdas fuel S e) := by
  induction fuel generalizing S e with
  | zero => exact steps_stop _
  | succ fuel ih =>
    refine (steps_liftM _).bind fun n => ?_
    split
    · exact (steps_openBinder _ _).bind fun _ => (ih _ _).bind fun _ => steps_pure _
    · exact (steps_liftM _).bind fun _ => steps_pure _

theorem steps_openFields (fields : Nat) (S : Substitution) (e : ExprId) :
    Steps ctx (openFields fields S e) := by
  induction fields generalizing S e with
  | zero => exact (steps_liftM _).bind fun _ => steps_pure _
  | succ fields ih =>
    refine (steps_liftM _).bind fun n => ?_
    split
    · exact (steps_openBinder _ _).bind fun _ => (ih _ _).bind fun _ => steps_pure _
    · exact .read_bind ((steps_openBinder _ _).bind fun _ => (steps_liftM _).bind fun _ =>
        (ih _ _).bind fun _ => steps_pure _)

theorem steps_fieldCount {c d : Name} {T : InductiveType} (hT : ctx.env.Dispatcher c T)
    (hd : d ∈ T.constructors) : Steps ctx (fieldCount T.params d) := by
  refine .read_bind ?_
  split
  · next hnone => exact steps_throw (.unknownConstructor hT hd hnone)
  · next arity harity =>
    split
    · next hlt =>
      exact (steps_throw (.arityBelowParams hT hd harity hlt)).bind fun _ => steps_pure _
    · exact (steps_pure _).bind fun _ => steps_pure _

theorem steps_dispatcher? (head : ExprId) : Steps ctx (dispatcher? head) := by
  refine (steps_liftM _).bind fun n => ?_
  split
  · refine (steps_kindOf _).bind fun k => ?_
    split
    · exact steps_pure _
    · exact steps_pure _
  · exact steps_pure _

theorem kind?_of_runs_dispatcher? {s s' : LiftState} {head : ExprId} {c type : Name}
    (h : (dispatcher? head).Runs ctx s (some (c, type)) s') :
    ctx.env.kind? c = some (.dispatcher type) := by
  simp only [dispatcher?, runs_bind] at h
  obtain ⟨n, s₁, -, h⟩ := h
  split at h
  · simp only [runs_bind] at h
    obtain ⟨k, s₂, hk, h⟩ := h
    split at h
    · cases (runs_pure.1 h).1
      exact kind?_of_runs_kindOf hk
    · cases (runs_pure.1 h).1
  · cases (runs_pure.1 h).1

section Lift

variable {lift : ExprId → LiftM ExprId} (hlift : ∀ e, Steps ctx (lift e))
include hlift

theorem Steps.liftUnderLambdas (fuel : Nat) (e : ExprId) :
    Steps ctx (liftUnderLambdas lift fuel e) :=
  (steps_openLambdas _ _ _).bind fun _ => (hlift _).bind fun _ => (steps_closeBinders _).bind
    fun _ => steps_liftM _

theorem Steps.liftLambda (fuel : Nat) (e : ExprId) : Steps ctx (liftLambda lift fuel e) :=
  (Steps.liftUnderLambdas hlift _ _).bind fun _ => (steps_closeOver _).bind fun _ =>
    (steps_callee _ _).bind fun _ => (Steps.mapM fun _ _ => steps_liftM _).bind fun _ =>
      (steps_emit _).bind fun _ => steps_liftM _

theorem Steps.liftChain (fuel : Nat) (S : Substitution) (e : ExprId) :
    Steps ctx (liftChain lift fuel S e) := by
  induction fuel generalizing S e with
  | zero => exact steps_stop _
  | succ fuel ih =>
    refine (steps_liftM _).bind fun n => ?_
    split
    · exact (steps_liftM _).bind fun _ => (hlift _).bind fun _ => (steps_openBinder _ _).bind
        fun _ => (ih _ _).bind fun _ => steps_pure _
    · exact (steps_liftM _).bind fun _ => (hlift _).bind fun _ => steps_pure _

theorem Steps.liftLets (fuel : Nat) (e : ExprId) : Steps ctx (liftLets lift fuel e) :=
  (Steps.liftChain hlift _ _ _).bind fun _ => (steps_closeBinders _).bind fun _ => steps_liftM _

theorem Steps.liftArm (fields : Nat) (e : ExprId) : Steps ctx (liftArm lift fields e) :=
  (steps_openFields _ _ _).bind fun _ => (steps_emit _).bind fun _ => (hlift _).bind fun _ =>
    (steps_closeBinders _).bind fun _ => steps_liftM _

theorem Steps.liftDispatch {c type : Name} (hc : ctx.env.kind? c = some (.dispatcher type))
    (head : ExprId) (args : List ExprId) :
    Steps ctx (liftDispatch lift c type head args) := by
  refine .read_bind ?_
  split
  · next T hT =>
    have hdispatcher : ctx.env.Dispatcher c T := ⟨type, hc, hT⟩
    have harm (m : Name × ExprId) (hm : m ∈ T.constructors.zip (args.drop 1)) :
        Steps ctx (fieldCount T.params m.1 >>= fun k => LiftM.liftArm lift k m.2) :=
      (steps_fieldCount hdispatcher (List.of_mem_zip hm).1).bind fun _ => Steps.liftArm hlift _ _
    have hrest : Steps ctx _ := (Steps.mapM fun e (_ : e ∈ args.take 1) => hlift e).bind
      fun scrutinee => (Steps.mapM fun e (_ : e ∈ args.drop (1 + T.arms)) => hlift e).bind
        fun extra => (Steps.mapM harm).bind fun arms =>
          steps_liftM (ArenaM.mkApp head (scrutinee ++ arms ++ extra))
    dsimp only
    split
    · next hlt => exact (steps_throw (.tooFewArguments hdispatcher hlt)).bind fun _ => hrest
    · exact hrest
  · next hnone =>
    exact steps_throw (.unknownType hc (Option.eq_none_iff_forall_ne_some.2 hnone))

theorem Steps.liftCall (fuel : Nat) (e head : ExprId) (args : List ExprId) :
    Steps ctx (liftCall lift fuel e head args) := by
  refine (steps_liftM _).bind fun reduced => ?_
  split
  · exact hlift _
  · refine (hlift _).bind fun _ => (Steps.mapM fun e _ => hlift e).bind fun _ => ?_
    split
    · exact steps_pure _
    · exact steps_liftM _

theorem Steps.liftApp (fuel : Nat) (e head : ExprId) (args : List ExprId) :
    Steps ctx (liftApp lift fuel e head args) := by
  refine (steps_dispatcher? _).bind_of_runs fun s dispatcher s' hrun => ?_
  split
  · exact Steps.liftDispatch hlift (kind?_of_runs_dispatcher? hrun) _ _
  · exact Steps.liftCall hlift _ _ _ _

end Lift

theorem steps_liftTerm (fuel : Nat) (e : ExprId) : Steps ctx (liftTerm fuel e) := by
  induction fuel generalizing e with
  | zero => exact steps_stop _
  | succ fuel ih =>
    refine (steps_liftM _).bind fun n => ?_
    cases n with
    | var x =>
      refine .state_bind fun _ => ?_
      split
      · exact steps_pure _
      · exact steps_throw (.unboundVar x)
    | global c => exact steps_pure _
    | lit l => exact steps_pure _
    | app head args => exact Steps.liftApp ih _ _ _ _
    | lam b body => exact Steps.liftLambda ih _ _
    | letIn b value body => exact Steps.liftLets ih _ _

theorem steps_liftProcedure (fuel : Nat) (p : Procedure) : Steps ctx (liftProcedure fuel p) := by
  refine Steps.bind ?_ fun body => Steps.state_bind fun s => ?_
  · refine (steps_liftM _).bind fun n => ?_
    split
    · exact Steps.liftUnderLambdas (steps_liftTerm fuel) _ _
    · exact steps_liftTerm _ _
  · dsimp only
    split
    · exact steps_pure _
    · exact (steps_stop _).bind fun _ => steps_pure _

end LiftM

namespace Program

variable {fuel : Nat} {ctx : LiftContext} {s s' : LiftState} {ps : List Procedure}
  {r : Except LiftError (List Procedure)}

theorem steps_liftProcedures (ctx : LiftContext) (fuel : Nat) (ps : List Procedure) :
    LiftM.Steps ctx (liftProcedures fuel ps) :=
  (LiftM.Steps.mapM fun p _ => LiftM.steps_liftProcedure fuel p).bind fun _ =>
    LiftM.Steps.state_bind fun _ => LiftM.steps_pure _

theorem evolves_of_liftProcedures (hrun : liftProcedures fuel ps ctx s = .ok (r, s')) :
    s.Evolves ctx s' :=
  (steps_liftProcedures ctx fuel ps hrun).1

theorem arises_of_liftProcedures {err : LiftError}
    (hrun : liftProcedures fuel ps ctx s = .ok (.error err, s')) : err.Arises ctx :=
  (steps_liftProcedures ctx fuel ps hrun).2 err rfl

end Program

end LambdaLifting
