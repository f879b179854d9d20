import LambdaLifting.Proofs.Endings
import LambdaLifting.Proofs.Saturation
import LambdaLifting.Proofs.Shape

namespace LambdaLifting

/-- The types of all dispatchers are known, and their constructors take at least the parameters of
their type. -/
def Environment.Complete (env : Environment) : Prop :=
  ∀ c type, env.kind? c = some (.dispatcher type) → ∃ t, env.type? type = some t ∧
    ∀ k ∈ t.constructors, ∃ arity, env.arity? k = some arity ∧ t.params ≤ arity

theorem LiftState.Models.contains_of_mem_ids {s : LiftState} {Γ : Context} {w : Stage}
    (h : s.Models Γ w) {x : LocalId} (hx : x ∈ Γ.ids) : s.scope.contains x := by
  obtain ⟨ds, hds, hshow⟩ := h.inScope
  rw [← Decl.map_id_eq_ids hshow] at hx
  obtain ⟨d, hd, rfl⟩ := List.mem_map.1 hx
  rw [Scope.contains, hds.find?_eq, List.find?_isSome]
  exact ⟨d, hd, by simp⟩

theorem Term.mem_globals_of_headGlobal? {t : Term} {c : Name} (h : t.headGlobal? = some c) :
    c ∈ t.globals := by
  induction t with
  | global d => simpa [Term.globals] using (Option.some.inj h).symm
  | app f x ihf _ => exact List.mem_append_left _ (ihf h)
  | _ => cases h

/-- A term whose lifting meets no error: its variables are in scope, its globals are known, and its
dispatchers have their arguments. -/
structure Ready (ctx : LiftContext) (Γ : Context) (w : Stage) (t : Term) : Prop where
  mem_ids : ∀ x ∈ t.occurrences, x ∈ Γ.ids
  known : Known ctx w t
  saturated : t.Saturated ctx.env 0

/-- A term that is ready once binders have been opened. Nothing is said about their variables. -/
structure Readying (ctx : LiftContext) (Γ : Context) (w : Stage) (s : Replacement) (t : Term) :
    Prop where
  target : ∀ x u, s x = some u → ∃ y ∈ Γ.ids, u = .var y
  mem_ids : ∀ x ∈ t.occurrences, s x = none → x ∈ Γ.ids
  known : Known ctx w t
  saturated : t.Saturated ctx.env 0

namespace Ready

variable {ctx : LiftContext} {Γ : Context} {w w' : Stage} {t : Term}

theorem mono (h : Ready ctx Γ w t) (hw : w.Names ctx w') : Ready ctx Γ w' t :=
  ⟨h.mem_ids, h.known.mono hw, h.saturated⟩

theorem readying (h : Ready ctx Γ w t) : Readying ctx Γ w .empty t :=
  ⟨by simp [Replacement.empty], fun x hx _ => h.mem_ids x hx, h.known, h.saturated⟩

theorem of_apply {f : Term} {xs : List Term} (h : Ready ctx Γ w (f.apply xs)) :
    ∀ x ∈ xs, Ready ctx Γ w x := fun x hx =>
  ⟨fun y hy => h.mem_ids y (Term.mem_occurrences_apply.2 (.inr ⟨x, hx, hy⟩)),
    h.known.of_apply.2 x hx, (Term.Saturated.apply_iff.1 h.saturated).2 x hx⟩

theorem head {f : Term} {xs : List Term} (h : Ready ctx Γ w (f.apply xs)) (hf : f.isApp = false)
    (hkind : ∀ c, f = .global c → ∀ type, ctx.env.kind? c ≠ some (.dispatcher type)) :
    Ready ctx Γ w f := by
  refine ⟨fun y hy => h.mem_ids y (Term.mem_occurrences_apply.2 (.inl hy)), h.known.of_apply.1, ?_⟩
  have hsat := (Term.Saturated.apply_iff.1 h.saturated).1
  cases f with
  | app => simp [Term.isApp] at hf
  | global c =>
    show ctx.env.leastArgs c ≤ 0
    rw [Environment.leastArgs]
    split
    · next type hk => exact absurd hk (hkind c rfl type)
    · exact Nat.le_refl 0
  | _ => exact hsat

theorem step {u : Term} (h : Ready ctx Γ w t) (hstep : HeadStep t u) : Ready ctx Γ w u :=
  ⟨fun x hx => h.mem_ids x (hstep.mem_occurrences hx), (Known.stable ctx w).step hstep h.known,
    h.saturated.step hstep⟩

theorem transGen {u : Term} (h : Ready ctx Γ w t) (hsteps : Relation.TransGen HeadStep t u) :
    Ready ctx Γ w u := by
  induction hsteps with
  | single hstep => exact h.step hstep
  | tail _ hstep ih => exact ih.step hstep

end Ready

namespace Readying

variable {ctx : LiftContext} {Γ : Context} {w w' : Stage} {s : Replacement} {t : Term}

theorem renames (h : Readying ctx Γ w s t) : s.Renames := fun x u hu => by
  obtain ⟨y, -, hy⟩ := h.target x u hu
  exact ⟨y, hy⟩

theorem mono (h : Readying ctx Γ w s t) (hw : w.Names ctx w') : Readying ctx Γ w' s t :=
  ⟨h.target, h.mem_ids, h.known.mono hw, h.saturated⟩

theorem ready (h : Readying ctx Γ w s t) : Ready ctx Γ w (t.substitute s) where
  mem_ids x hx := by
    rcases Term.mem_occurrences_substitute hx with ⟨hx, hn⟩ | ⟨y, -, u, hu, hxu⟩
    · exact h.mem_ids x hx hn
    · obtain ⟨z, hz, rfl⟩ := h.target y u hu
      rw [Term.occurrences, List.mem_singleton] at hxu
      exact hxu ▸ hz
  known := (Known.stable ctx w).rename h.renames h.known
  saturated := (Term.Saturated.stable ctx.env).rename h.renames h.saturated

/-- Continue under a binder. If the variable is bound again further in, that binder counts. -/
theorem add {b : Binder} {body : Term} {d : Entry} (h : Readying ctx Γ w s t)
    (hbody : ∀ x ∈ body.occurrences, x ≠ b.id → x ∈ t.occurrences) (hk : Known ctx w body)
    (hsat : body.Saturated ctx.env 0) :
    Readying ctx (d :: Γ) w (s.add b.id (.var d.id)) body where
  target := Replacement.forall_add
    (fun x u hu => (h.target x u hu).imp fun y hy => ⟨List.mem_cons_of_mem _ hy.1, hy.2⟩)
    ⟨d.id, by simp, rfl⟩
  mem_ids x hx hn := by
    have hne : x ≠ b.id := fun e => by simp [e] at hn
    rw [s.add_of_ne _ hne] at hn
    exact List.mem_cons_of_mem _ (h.mem_ids x (hbody x hx hne) hn)
  known := hk
  saturated := hsat

theorem expand (h : Readying ctx Γ w s t) (d : Entry) :
    Readying ctx (d :: Γ) w s (.app t (.var d.id)) where
  target x u hu := (h.target x u hu).imp fun y hy => ⟨List.mem_cons_of_mem _ hy.1, hy.2⟩
  mem_ids x hx hn := by
    rcases List.mem_append.1 hx with hx | hx
    · exact List.mem_cons_of_mem _ (h.mem_ids x hx hn)
    · rw [Term.occurrences, List.mem_singleton] at hx
      simp [hx]
  known := (Known.stable ctx w).expand _ h.known
  saturated := (Term.Saturated.stable ctx.env).expand _ h.saturated

theorem peels {anonymous : Name} {k n : Nat} {inner : Term} {bs : List Binder}
    (h : Readying ctx Γ w s t) (hp : Peels anonymous k s n t bs inner) :
    Ready ctx (Γ.enter bs) w inner := by
  induction hp generalizing Γ with
  | done => exact h.ready
  | lam _ ih =>
    refine ih (h.add (fun x hx hne => ?_) h.known h.saturated)
    simp [Term.occurrences, hx, hne]
  | expand _ _ ih => exact ih (h.expand _)

end Readying

namespace LiftM

variable {α : Type} {ctx : LiftContext} {s s' : LiftState} {Γ : Context} {w : Stage}

abbrev Safe (x : LiftM α) (ctx : LiftContext) (s : LiftState) : Prop :=
  Ends (fun p => p.isLeft = true) x ctx s

theorem safe_stop (f : Fault) : Safe (stop f : LiftM α) ctx s := rfl

theorem safe_onArena (x : ArenaM α) : Safe (onArena x) ctx s := by
  simp only [Ends, onArena]
  rcases x s.arena with f | ⟨v, a⟩
  · rfl
  · trivial

theorem safe_liftM (x : ArenaM α) : Safe (liftM x : LiftM α) ctx s := safe_onArena x

theorem safe_onNames (x : NameSource → Except Fault (α × NameSource)) :
    Safe (onNames x) ctx s := by
  simp only [Ends, onNames]
  rcases x s.names with f | ⟨v, names⟩
  · rfl
  · trivial

theorem safe_openBinder (name : Name) (value : Option ExprId) :
    Safe (openBinder name value) ctx s := by
  refine (safe_liftM _).bind fun b s₁ _ => (safe_liftM _).bind fun x s₂ _ => ?_
  exact (ends_update _).bind fun _ s₃ _ => ends_pure _

theorem safe_openLambdas (fuel : Nat) (S : Substitution) (e : ExprId) :
    Safe (openLambdas fuel S e) ctx s := by
  induction fuel generalizing S e s with
  | zero => exact safe_stop _
  | succ fuel ih =>
    refine (safe_liftM _).bind fun n s₁ _ => ?_
    cases n with
    | lam b body =>
      exact (safe_openBinder _ _).bind fun _ s₂ _ => (ih _ _).bind fun _ s₃ _ => ends_pure _
    | _ => exact (safe_liftM _).bind fun _ s₂ _ => ends_pure _

theorem safe_addProcedure (fuel : Nat) (closed : ExprId) :
    Safe (addProcedure fuel closed) ctx s := by
  refine Ends.read_bind (Ends.state_bind ((safe_onNames _).bind fun _ s₁ _ => ?_))
  exact (ends_update _).bind fun _ s₂ _ => (ends_update _).bind fun _ s₃ _ => safe_liftM _

theorem safe_mapM_mkVar (xs : List LocalId) :
    Safe (xs.mapM fun x => onArena (ArenaM.mkVar x)) ctx s := by
  induction xs generalizing s with
  | nil => exact ends_pure _
  | cons x xs ih =>
    rw [List.mapM_cons]
    exact (safe_onArena _).bind fun _ s₁ _ => ih.bind fun _ s₂ _ => ends_pure _

theorem ends_kindOf {P : Fault ⊕ LiftError → Prop} (h : s.Models Γ w) {c : Name}
    (hc : ctx.takenAt w.lifted c = true) : Ends P (kindOf c) ctx s := by
  refine Ends.read_bind ?_
  cases hk : ctx.env.kind? c with
  | some k => exact ends_pure _
  | none =>
    refine Ends.read_bind (Ends.state_bind ?_)
    have howns : ctx.owns s.lifted c = true := by
      rw [ownsAt_eq h ctx c]
      simpa [LiftContext.takenAt, Environment.contains, hk] using hc
    rw [if_pos howns]
    exact ends_pure _

theorem safe_callee (h : s.Models Γ w) {fuel : Nat} {e : ExprId} {t : Term}
    (he : s.arena.term? e = some t) (ht : Known ctx w t) : Safe (callee fuel e) ctx s := by
  refine Ends.arena_bind (ArenaM.builds_etaReduce h.wellFormed he) fun reduced a ⟨hgrow, hred⟩ => ?_
  have h₁ := h.grow hgrow
  have hreuse : Safe (reusable? reduced) ctx { s with arena := a } := by
    refine Ends.ask_bind (h₁.wellFormed.headGlobal?_eq_ok hred) ?_
    cases hhead : t.etaReduce.headGlobal? with
    | none => exact ends_pure _
    | some c =>
      have hc := ht c (t.globals_etaReduce ▸ Term.mem_globals_of_headGlobal? hhead)
      exact (ends_kindOf h₁ hc).bind fun _ s₃ _ => ends_pure _
  refine hreuse.bind fun r s₂ _ => ?_
  cases r with
  | none => exact safe_addProcedure _ _
  | some c => exact (ends_update _).bind fun _ s₃ _ => ends_pure _

theorem ends_dispatcher? {P : Fault ⊕ LiftError → Prop} (h : s.Models Γ w) {head : ExprId}
    {f : Term} (hf : s.arena.term? head = some f) (hk : Known ctx w f) :
    Ends P (dispatcher? head) ctx s := by
  obtain ⟨m, hm⟩ := Arena.node?_of_term? hf
  refine Ends.node_bind hm ?_
  cases h.wellFormed.shows_of_node? hf hm with
  | global c =>
    refine (ends_kindOf h (hk c (by simp [Term.globals]))).bind fun k s₂ _ => ?_
    cases k <;> exact ends_pure _
  | _ => exact ends_pure _

/-- Lifting as far as it is given by `lift` ends without an error on terms that are ready. -/
def Spares (ctx : LiftContext) (lift : ExprId → LiftM ExprId) : Prop :=
  ∀ ⦃Γ s w e t⦄, s.Models Γ w → Γ.Known ctx w → s.arena.term? e = some t → Ready ctx Γ w t →
    Safe (lift e) ctx s

namespace Spares

variable {lift : ExprId → LiftM ExprId} {R : Judgment} {e : ExprId} {t : Term}

/-- The arms that are pending are those of constructors in `ds`. -/
theorem handles (hsafe : Spares ctx lift) (hlift : Simulates ctx lift R) (hR : R.Names ctx)
    (Γ : Context) (ds : List Name) : Handles (fun p => p.isLeft = true) ctx lift R Γ fun w ts ys =>
      (∀ t ∈ ts, Γ.Known ctx w ∧ Ready ctx Γ w t) ∧
        ∀ y ∈ ys, (y.1 ∈ ds ∧ Γ.Known ctx w) ∧ Ready ctx Γ w y.2 := by
  refine .of_forall hlift (fun s w e t h he ht => hsafe h ht.1 he ht.2) ?_ ?_
  · rintro w t w' u hu ⟨hΓ, ht⟩ z ⟨-, hz⟩
    have hw := (hR hΓ ht.known hu).1
    exact ⟨hΓ.mono hw, hz.mono hw⟩
  · rintro w t w' u hu ⟨hΓ, ht⟩ y ⟨⟨hmem, -⟩, hy⟩
    have hw := (hR hΓ ht.known hu).1
    exact ⟨⟨hmem, hΓ.mono hw⟩, hy.mono hw⟩

theorem under (hsafe : Spares ctx lift) {k : Nat} {bs : List Binder} {inner : ExprId} {v : Term}
    (hpeels : Peels ctx.anonymous k .empty w.nextLocal t bs v)
    (h : s.Models (Γ.enter bs) (w.mint k)) (hΓ : Γ.Known ctx w) (ht : Ready ctx Γ w t)
    (hinner : s.arena.term? inner = some v) :
    Safe (do
      let body ← lift inner
      closeBinders bs
      liftM (ArenaM.mkLambdas bs body)) ctx s := by
  have hw := Stage.Names.mint ctx w k
  refine (hsafe h ((hΓ.enter bs).mono hw) hinner ((ht.readying.peels hpeels).mono hw)).bind ?_
  exact fun body s₁ _ => (ends_update _).bind fun _ s₂ _ => safe_liftM _

theorem underLambdas (hsafe : Spares ctx lift) (h : s.Models Γ w) (hΓ : Γ.Known ctx w)
    (he : s.arena.term? e = some t) (ht : Ready ctx Γ w t) (fuel : Nat) :
    Safe (liftUnderLambdas lift fuel e) ctx s := by
  refine (safe_openLambdas _ _ _).bind fun r s₁ hopen => ?_
  obtain ⟨v, hpeels, hv, h₁⟩ := peels_of_openLambdas h (Substitution.means_empty _) he hopen
  exact hsafe.under hpeels h₁.models hΓ ht hv

theorem arm (hsafe : Spares ctx lift) (h : s.Models Γ w) (hΓ : Γ.Known ctx w)
    (he : s.arena.term? e = some t) (ht : Ready ctx Γ w t) (fields : Nat) :
    Safe (liftArm lift fields e) ctx s := by
  refine (ends_openFields h (Substitution.means_empty _) he fields).bind fun r s₁ hopen => ?_
  obtain ⟨v, hpeels, hv, h₁⟩ := peels_of_openFields h (Substitution.means_empty _) he hopen
  refine (ends_update _).bind fun _ s₂ hemit => ?_
  rw [runs_update] at hemit
  subst hemit
  exact hsafe.under hpeels (h₁.models.emit _) hΓ ht hv

theorem lambda (hsafe : Spares ctx lift) (hlift : Simulates ctx lift R) (hS : R.Scopes)
    (hR : R.Names ctx) (h : s.Models Γ w) (hΓ : Γ.Known ctx w) (he : s.arena.term? e = some t)
    (ht : Ready ctx Γ w t) (fuel : Nat) : Safe (liftLambda lift fuel e) ctx s := by
  refine (hsafe.underLambdas h hΓ he ht fuel).bind fun lifted s₁ hunder => ?_
  obtain ⟨w₁, v, hv, hlifted, h₁⟩ := hlift.underLambdas h he hunder
  obtain ⟨-, htidy⟩ := hS.under _ h.isScoped hv
  obtain ⟨hw₁, hknown⟩ := hR.under _ hΓ ht.known hv
  refine (ends_closeOver h₁.models hlifted htidy.mem_ids).bind fun r s₂ hclose => ?_
  obtain ⟨c, k, hc, hclosed, h₂⟩ := closes_of_closeOver h₁.models hlifted htidy.mem_ids hclose
  obtain ⟨bs, σ, rfl, hσ, -⟩ := hc.exists_substitute Known.var (fun _ _ => Known.substitute)
    (hΓ.mono hw₁)
  have hcknown : Known ctx (w₁.mint k) (Term.lambdas bs (v.substitute σ)) :=
    ((hknown.substitute hσ).mono (Stage.Names.mint ctx w₁ k)).lambdas
  refine (safe_callee h₂.models hclosed hcknown).bind fun head s₃ _ => ?_
  refine (safe_mapM_mkVar _).bind fun args s₄ _ => ?_
  exact (ends_update _).bind fun _ s₅ _ => safe_liftM _

theorem chain (hsafe : Spares ctx lift) (hlift : Simulates ctx lift R) (hS : R.Scopes)
    (hR : R.Names ctx) {S : Substitution} {σ : Replacement} (h : s.Models Γ w) (hΓ : Γ.Known ctx w)
    (hσ : S.Means s.arena σ) (he : s.arena.term? e = some t) (ht : Readying ctx Γ w σ t)
    (fuel : Nat) : Safe (liftChain lift fuel S e) ctx s := by
  induction fuel generalizing s Γ w S σ e t with
  | zero => exact safe_stop _
  | succ fuel ih =>
    obtain ⟨n, hn⟩ := Arena.node?_of_term? he
    rw [liftChain]
    refine Ends.node_bind hn ?_
    cases h.wellFormed.shows_of_node? he hn with
    | @letIn b value body v u hv hu =>
      refine Ends.arena_bind (ArenaM.builds_substitute h.wellFormed hσ hv) fun e' a hbuilt => ?_
      obtain ⟨hgrow, he'⟩ := hbuilt
      obtain ⟨hkv, hku⟩ := (Known.stable ctx w).letIn ht.known
      have hrv : Ready ctx Γ w (v.substitute σ) := Readying.ready
        ⟨ht.target, fun x hx => ht.mem_ids x (by simp [Term.occurrences, hx]), hkv, ht.saturated.1⟩
      refine (hsafe (h.grow hgrow) hΓ he' hrv).bind fun value' s₁ hvalue => ?_
      obtain ⟨w₁, v', hv', hterm, h₁⟩ := hlift Γ (h.grow hgrow) he' hvalue
      obtain ⟨-, htidy⟩ := hS h.isScoped hv'
      obtain ⟨hw₁, hknown'⟩ := hR hΓ hrv.known hv'
      refine (safe_openBinder _ _).bind fun r s₂ hopen => ?_
      obtain ⟨fresh, x⟩ := r
      obtain ⟨rfl, hx, h₂⟩ := reaches_openBinder h₁.models (.inr ⟨value', v', rfl, rfl, hterm⟩)
        (fun _ h => Option.some.inj h ▸ ⟨htidy.mem_ids, htidy.binder_lt⟩) hopen
      have hext := hgrow.isExtension.trans (h₁.trans h₂).isExtension
      have hw₂ := Stage.Names.mint ctx w₁ 1
      have hΓ' : Context.Known ctx w₁ (⟨⟨w₁.nextLocal⟩, b.name, some v'⟩ :: Γ) :=
        List.forall_mem_cons.2 ⟨fun _ e => Option.some.inj e ▸ hknown', hΓ.mono hw₁⟩
      have hbody : Readying ctx (⟨⟨w₁.nextLocal⟩, b.name, some v'⟩ :: Γ) w
          (σ.add b.id (.var ⟨w₁.nextLocal⟩)) u :=
        ht.add (fun x hx hne => by simp [Term.occurrences, hx, hne]) hku ht.saturated.2
      refine (ih h₂.models (hΓ'.mono hw₂) ((hσ.mono hext).insert b.id hx) (hext.term?_eq_some hu)
        (hbody.mono (hw₁.trans hw₂))).bind fun _ s₃ _ => ends_pure _
    | _ =>
      refine Ends.arena_bind (ArenaM.builds_substitute h.wellFormed hσ he) fun e' a hbuilt => ?_
      obtain ⟨hgrow, he'⟩ := hbuilt
      exact (hsafe (h.grow hgrow) hΓ he' ht.ready).bind fun _ s₂ _ => ends_pure _

theorem lets (hsafe : Spares ctx lift) (hlift : Simulates ctx lift R) (hS : R.Scopes)
    (hR : R.Names ctx) (h : s.Models Γ w) (hΓ : Γ.Known ctx w) (he : s.arena.term? e = some t)
    (ht : Ready ctx Γ w t) (fuel : Nat) : Safe (liftLets lift fuel e) ctx s := by
  refine (hsafe.chain hlift hS hR h hΓ (Substitution.means_empty _) he ht.readying fuel).bind ?_
  exact fun _ s₁ _ => (ends_update _).bind fun _ s₂ _ => safe_liftM _

theorem safe_fieldCount {params arity : Nat} {c : Name} (hc : ctx.env.arity? c = some arity)
    (hle : params ≤ arity) : Safe (fieldCount params c) ctx s := by
  refine Ends.read_bind ?_
  simp only [hc, if_neg (Nat.not_lt.2 hle)]
  exact ends_pure _

theorem dispatch (hsafe : Spares ctx lift) (hlift : Simulates ctx lift R) (hR : R.Names ctx)
    (henv : ctx.env.Complete) (h : s.Models Γ w) (hΓ : Γ.Known ctx w) {c type : Name}
    (hc : ctx.env.kind? c = some (.dispatcher type)) {head : ExprId} {args : List ExprId}
    {xs : List Term} (hhead : s.arena.term? head = some (.global c))
    (hargs : s.arena.Denote args xs) (ht : Ready ctx Γ w (Term.apply (.global c) xs)) :
    Safe (liftDispatch lift c type head args) ctx s := by
  obtain ⟨t, htype, harity⟩ := henv c type hc
  have hlength : 1 + t.arms ≤ args.length := by
    have hsat : ctx.env.leastArgs c ≤ 0 + xs.length :=
      (Term.Saturated.apply_iff.1 ht.saturated).1
    rw [Environment.leastArgs_of_dispatcher hc, htype] at hsat
    simpa [hargs.length_eq] using hsat
  refine (hsafe.handles hlift hR Γ t.constructors).dispatch htype ?_ ?_ h hhead hargs hlength ?_
  · rintro s w e y ys h he ⟨-, hys⟩
    obtain ⟨⟨hmem, hΓ⟩, hy⟩ := hys y List.mem_cons_self
    obtain ⟨arity, hk, hle⟩ := harity y.1 hmem
    refine (safe_fieldCount hk hle).bind fun k s₁ hcount => ?_
    obtain ⟨rfl, -⟩ := Simulates.runs_fieldCount hcount
    exact hsafe.arm h hΓ he hy k
  · rintro w y w' u ys hu ⟨-, hys⟩
    obtain ⟨⟨⟨-, hΓ⟩, hy⟩, hys⟩ := List.forall_mem_cons.1 hys
    have hw := (hR.arm t.params hΓ hy.known hu).1
    refine ⟨by simp, fun z hz => ?_⟩
    obtain ⟨⟨hmem, -⟩, hz⟩ := hys z hz
    exact ⟨⟨hmem, hΓ.mono hw⟩, hz.mono hw⟩
  · rintro x ys zs rfl -
    have hready := ht.of_apply
    refine ⟨fun z hz => ⟨hΓ, hready z ?_⟩, fun y hy => ?_⟩
    · exact List.cons_subset_cons x (List.subset_append_right ys zs) hz
    · obtain ⟨hy₁, hy₂⟩ := List.of_mem_zip hy
      exact ⟨⟨hy₁, hΓ⟩, hready y.2 (by simp [hy₂])⟩

theorem call (hsafe : Spares ctx lift) (hlift : Simulates ctx lift R) (hR : R.Names ctx)
    (h : s.Models Γ w) (hΓ : Γ.Known ctx w) {head : ExprId} {args : List ExprId} {f : Term}
    {xs : List Term} (hn : s.arena.node? e = some (.app head args))
    (hf : s.arena.term? head = some f) (hargs : s.arena.Denote args xs)
    (ht : Ready ctx Γ w (f.apply xs))
    (hkind : ∀ c, f = .global c → ∀ type, ctx.env.kind? c ≠ some (.dispatcher type)) (fuel : Nat) :
    Safe (liftCall lift fuel e head args) ctx s := by
  have he := h.wellFormed.term?_of_node? hn (.app hf hargs)
  refine (safe_liftM _).bind fun reduced s₁ hrun => ?_
  obtain ⟨a, hreduce, rfl⟩ := runs_liftM.1 hrun
  obtain ⟨hgrow, v, hv, -, hsteps⟩ := ArenaM.headReduce_eq_ok h.wellFormed he hreduce
  have h₁ := h.grow hgrow
  split
  · next hne => exact hsafe h₁ hΓ hv (ht.transGen (hsteps.resolve_left hne))
  · have hhead := ht.head (h.wellFormed.spine_of_node? hn hf hargs).1 hkind
    refine (hsafe.handles hlift hR Γ []).rebuild h₁
      (hgrow.isExtension.term?_eq_some hf) (hgrow.isExtension.denote hargs) ⟨?_, by simp⟩ e
    exact List.forall_mem_cons.2 ⟨⟨hΓ, hhead⟩, fun x hx => ⟨hΓ, ht.of_apply x hx⟩⟩

theorem app (hsafe : Spares ctx lift) (hlift : Simulates ctx lift R) (hR : R.Names ctx)
    (henv : ctx.env.Complete) (h : s.Models Γ w) (hΓ : Γ.Known ctx w) {head : ExprId}
    {args : List ExprId} {f : Term} {xs : List Term} (hn : s.arena.node? e = some (.app head args))
    (hf : s.arena.term? head = some f) (hargs : s.arena.Denote args xs)
    (ht : Ready ctx Γ w (f.apply xs)) (fuel : Nat) :
    Safe (liftApp lift fuel e head args) ctx s := by
  refine (ends_dispatcher? h hf ht.known.of_apply.1).bind fun d? s₁ hrun => ?_
  obtain ⟨rfl, hsome, hnone⟩ := Simulates.runs_dispatcher? h hf hrun
  cases d? with
  | some d =>
    obtain ⟨rfl, hc⟩ := hsome d.1 d.2 rfl
    exact hsafe.dispatch hlift hR henv h hΓ hc hf hargs ht
  | none =>
    refine hsafe.call hlift hR h hΓ hn hf hargs ht (fun c hc type => ?_) fuel
    obtain ⟨k, hk, hne⟩ := hnone rfl c hc
    exact LiftContext.ne_dispatcher_of_kindAt? hk hne type

end Spares

theorem spares_liftTerm (henv : ctx.env.Complete) (fuel : Nat) : Spares ctx (liftTerm fuel) := by
  induction fuel with
  | zero => exact fun Γ s w e t _ _ _ _ => safe_stop _
  | succ fuel ih =>
    intro Γ s w e t h hΓ he ht
    have hlift := simulates_liftTerm ctx fuel
    have hS := LiftsIn.scoped ctx fuel
    have hR := LiftsIn.named ctx fuel
    obtain ⟨n, hn⟩ := Arena.node?_of_term? he
    rw [liftTerm]
    refine Ends.node_bind hn ?_
    cases h.wellFormed.shows_of_node? he hn with
    | var x =>
      refine Ends.state_bind ?_
      rw [if_pos (h.contains_of_mem_ids (ht.mem_ids x (by simp [Term.occurrences])))]
      exact ends_pure _
    | global c => exact ends_pure _
    | lit l => exact ends_pure _
    | app hf hxs => exact ih.app hlift hR henv h hΓ hn hf hxs ht fuel
    | lam => exact ih.lambda hlift hS hR h hΓ he ht fuel
    | letIn => exact ih.lets hlift hS hR h hΓ he ht fuel

theorem safe_liftBody (henv : ctx.env.Complete) (h : s.Models [] w) {e : ExprId} {t : Term}
    (he : s.arena.term? e = some t) (ht : Ready ctx [] w t) (fuel : Nat) :
    Safe (liftBody fuel e) ctx s := by
  have hsafe := spares_liftTerm henv fuel
  have hΓ : Context.Known ctx w [] := by simp [Context.Known]
  obtain ⟨n, hn⟩ := Arena.node?_of_term? he
  rw [liftBody]
  refine Ends.node_bind hn ?_
  cases n with
  | lam b body => exact hsafe.underLambdas h hΓ he ht fuel
  | _ => exact hsafe h hΓ he ht

theorem safe_mapM_liftProcedure (henv : ctx.env.Complete) (h : s.Models [] w) {ps : List Procedure}
    (hps : ∀ p ∈ ps, ∃ t, s.arena.term? p.body = some t ∧ Ready ctx [] w t) (fuel : Nat) :
    Safe (ps.mapM (liftProcedure fuel)) ctx s := by
  refine ends_mapM_liftProcedure (fun s w e t h he ht => safe_liftBody henv h he ht fuel) ?_ h hps
  intro w t w' u hu ht z hz
  exact hz.mono ((LiftsIn.named ctx fuel).under _ (by simp [Context.Known]) ht.known hu).1

end LiftM

namespace Program

/-- Procedures are closed, and mention known globals, with the arguments these need. -/
structure Liftable (env : Environment) (p : Program) : Prop where
  wellFormed : p.arena.WellFormed
  body : ∀ q ∈ p.procedures, ∃ t, p.arena.term? q.body = some t ∧ t.Closed ∧
    (∀ c ∈ t.globals, env.contains c ∨ c ∈ p.procedures.map Procedure.name) ∧ t.Saturated env 0

variable {fuel : Nat} {env : Environment} {p : Program} {names names' : NameSource}
  {report : Report}

theorem start_models (hp : p.arena.WellFormed) (names : NameSource) :
    (p.start names).Models [] ⟨p.arena.nextLocal, (names.intern "a").2, []⟩ :=
  ⟨hp, rfl, rfl, .nil, ⟨[], Scope.lists_empty, .nil⟩, .nil⟩

theorem takenAt_context {base : String} {c : Name}
    (hc : env.contains c ∨ c ∈ p.procedures.map Procedure.name) :
    (p.context env names base).takenAt [] c = true :=
  LiftContext.takenAt_nil_iff.2 hc

/-- Closed procedures that mention known globals, and dispatchers with all their arms, are lifted
without an error, whatever variables they bind. -/
theorem error?_eq_none_of_lift (henv : env.Complete) (hp : p.Liftable env)
    (hrun : p.lift fuel env names = .ok (report, names')) : report.error? = none := by
  obtain ⟨base, outcome, s, -, hlift, hreport, -⟩ := exists_of_lift hrun
  cases hreport with
  | ok output => rfl
  | error err =>
    have hsafe : LiftM.Safe (liftProcedures fuel p.procedures) (p.context env names base)
        (p.start names) := by
      refine LiftM.Ends.bind (LiftM.safe_mapM_liftProcedure henv
        (start_models hp.wellFormed names) (fun q hq => ?_) fuel)
        fun given s₁ _ => LiftM.Ends.state_bind (LiftM.ends_pure _)
      obtain ⟨t, ht, hclosed, hglobals, hsat⟩ := hp.body q hq
      refine ⟨t, ht, fun x hx => absurd hx (Term.closed_iff.1 hclosed x), fun c hc => ?_, hsat⟩
      exact takenAt_context (hglobals c hc)
    rw [LiftM.Safe, LiftM.Ends, hlift] at hsafe
    cases hsafe

theorem complete_dispatchEnvironment : dispatchEnvironment.Complete := by
  intro c type hc
  have htype : type = ⟨5⟩ := by
    simp only [dispatchEnvironment] at hc
    split at hc
    · exact GlobalKind.dispatcher.inj (Option.some.inj hc).symm
    · split at hc
      · cases hc
      · split at hc <;> cases hc
  subst htype
  exact ⟨⟨1, [⟨3⟩, ⟨4⟩]⟩, rfl, by decide⟩

/-- `dispatchProgram` in an arena that hands out variables which are bound already. -/
def clashingDispatch : Program :=
  { dispatchProgram with arena := { dispatchProgram.arena with nextLocal := 1 } }

def dispatchTerm : Term :=
  .lam ⟨⟨0⟩, ⟨7⟩⟩ (.apply (.global ⟨1⟩) [.var ⟨0⟩, .lit (.nat 0),
    .lam ⟨⟨1⟩, ⟨8⟩⟩ (.lam ⟨⟨2⟩, ⟨9⟩⟩ (.app (.global ⟨2⟩) (.lam ⟨⟨3⟩, ⟨10⟩⟩ (.var ⟨1⟩))))])

theorem error?_eq_none_clashingDispatch :
    dispatchEnvironment.Complete ∧ clashingDispatch.Liftable dispatchEnvironment ∧
      ∃ report names', clashingDispatch.lift 40 dispatchEnvironment dispatchNames =
        .ok (report, names') ∧ report.error? = none := by
  have hp : clashingDispatch.Liftable dispatchEnvironment := by
    refine ⟨by decide +kernel, fun q hq => ?_⟩
    obtain rfl := List.mem_singleton.1 hq
    exact ⟨dispatchTerm, by decide +kernel, rfl, by decide, by decide⟩
  have hlifts : clashingDispatch.liftsTo 40 dispatchEnvironment dispatchNames 2 = true := by
    decide +kernel
  obtain ⟨report, names', hrun, -, -⟩ := exists_of_liftsTo hlifts
  exact ⟨complete_dispatchEnvironment, hp, report, names', hrun,
    error?_eq_none_of_lift complete_dispatchEnvironment hp hrun⟩

end Program

end LambdaLifting
