import LambdaLifting.Proofs.Coherence
import LambdaLifting.Proofs.Preservation
import LambdaLifting.Proofs.Safety

namespace LambdaLifting

namespace LiftM

variable {α β γ δ : Type} {ctx : LiftContext} {s t s' t' : LiftState}

def failure? : Except LiftError α → Option LiftError
  | .ok _ => none
  | .error err => some err

/-- Two computations that return end with the same error, or both without one. -/
def Agree (ctx : LiftContext) (x : LiftM α) (s : LiftState) (y : LiftM β) (t : LiftState) : Prop :=
  ∀ ⦃r s' r' t'⦄, x ctx s = .ok (r, s') → y ctx t = .ok (r', t') → failure? r = failure? r'

section Agree

theorem agree_of_safe {x : LiftM α} {y : LiftM β} (hx : Safe x ctx s) (hy : Safe y ctx t) :
    Agree ctx x s y t := by
  intro r s' r' t' hr hr'
  rw [Safe, Ends, hr] at hx
  rw [Safe, Ends, hr'] at hy
  cases r with
  | error => cases hx
  | ok =>
    cases r' with
    | error => cases hy
    | ok => rfl

theorem agree_throw (err : LiftError) :
    Agree ctx (throw err : LiftM α) s (throw err : LiftM β) t := by
  intro r s' r' t' hr hr'
  cases hr
  cases hr'
  rfl

theorem Agree.bind {x : LiftM α} {y : LiftM β} {f : α → LiftM γ} {g : β → LiftM δ}
    (hxy : Agree ctx x s y t)
    (hfg : ∀ u s₁ v t₁, x.Runs ctx s u s₁ → y.Runs ctx t v t₁ → Agree ctx (f u) s₁ (g v) t₁) :
    Agree ctx (x >>= f) s (y >>= g) t := by
  intro r s' r' t' hr hr'
  rcases hx : x ctx s with fault | ⟨err | u, s₁⟩
  · cases (bind_of_fault hx).symm.trans hr
  all_goals rcases hy : y ctx t with fault' | ⟨err' | v, t₁⟩
  · cases (bind_of_fault hy).symm.trans hr'
  · cases (bind_of_error hx).symm.trans hr
    cases (bind_of_error hy).symm.trans hr'
    exact hxy hx hy
  · cases hxy hx hy
  · cases (bind_of_fault hy).symm.trans hr'
  · cases hxy hx hy
  · rw [bind_of_runs hx] at hr
    rw [bind_of_runs hy] at hr'
    exact hfg u s₁ v t₁ hx hy hr hr'

theorem Agree.read_bind {f : LiftContext → LiftM γ} {g : LiftContext → LiftM δ}
    (h : Agree ctx (f ctx) s (g ctx) t) : Agree ctx (read >>= f) s (read >>= g) t := h

theorem Agree.state_bind {f : LiftState → LiftM γ} {g : LiftState → LiftM δ}
    (h : Agree ctx (f s) s (g t) t) : Agree ctx (state >>= f) s (state >>= g) t := h

theorem Agree.arena_bind {x : ArenaM α} {y : ArenaM β} {f : α → LiftM γ} {g : β → LiftM δ}
    (hfg : ∀ u a v b, x s.arena = .ok (u, a) → y t.arena = .ok (v, b) →
      Agree ctx (f u) { s with arena := a } (g v) { t with arena := b }) :
    Agree ctx ((liftM x : LiftM α) >>= f) s ((liftM y : LiftM β) >>= g) t := by
  refine Agree.bind (agree_of_safe (safe_liftM x) (safe_liftM y)) fun u s₁ v t₁ hu hv => ?_
  obtain ⟨a, ha, rfl⟩ := runs_liftM.1 hu
  obtain ⟨b, hb, rfl⟩ := runs_liftM.1 hv
  exact hfg u a v b ha hb

theorem Agree.congr {x x' : LiftM α} {y y' : LiftM β} (hx : x ctx s = x' ctx s)
    (hy : y ctx t = y' ctx t) (h : Agree ctx x' s y' t) : Agree ctx x s y t := by
  rw [Agree, hx, hy]
  exact h

theorem agree_stop_left {f : Fault} {y : LiftM β} : Agree ctx (stop f : LiftM α) s y t := by
  intro r s' r' t' hr
  cases hr

theorem agree_stop_right {f : Fault} {x : LiftM α} : Agree ctx x s (stop f : LiftM β) t := by
  intro r s' r' t' _ hr'
  cases hr'

theorem Agree.node_bind {e e' : ExprId} {n n' : Node} (hn : s.arena.node? e = some n)
    (hn' : t.arena.node? e' = some n') {f : Node → LiftM γ} {g : Node → LiftM δ}
    (h : Agree ctx (f n) s (g n') t) :
    Agree ctx ((liftM (ArenaM.node e) : LiftM Node) >>= f) s
      ((liftM (ArenaM.node e') : LiftM Node) >>= g) t := by
  rw [Agree, node_bind_eq hn, node_bind_eq hn']
  exact h

end Agree

structure Twins (m m' : Nat) (Γ Δ : Context) (s t : LiftState) (v w : Stage) : Prop where
  left : s.Models Γ v
  right : t.Models Δ w
  parallel : Parallel m m' Γ Δ v w

variable {m m' : Nat} {Γ Δ : Context} {v w : Stage}

theorem Twins.grow (h : Twins m m' Γ Δ s t v w) {a b : Arena} (ha : s.arena.Grows a)
    (hb : t.arena.Grows b) : Twins m m' Γ Δ { s with arena := a } { t with arena := b } v w :=
  ⟨h.left.grow ha, h.right.grow hb, h.parallel⟩

/-- Two computations follow rules that cohere, and agree on errors. `V` relates inputs in an arena
to trees, and `E` the trees of the two sides. -/
structure InStep (ctx : LiftContext) (m m' : Nat) (Γ Δ : Context) (V : Arena → α → β → Prop)
    (E : β → β → Prop) (f g : α → LiftM ExprId) (J K : Stage → β → Stage → Term → Prop) : Prop where
  left : Follows ctx V f Γ J
  right : Follows ctx V g Δ K
  leftScopes : ∀ ⦃v y v' p⦄, Γ.Scoped v.nextLocal → J v y v' p → v.Advances v' ∧ Tidy Γ v' p
  rightScopes : ∀ ⦃w y w' q⦄, Δ.Scoped w.nextLocal → K w y w' q → w.Advances w' ∧ Tidy Δ w' q
  coheres : ∀ ⦃v w y z v' w' p q⦄, Parallel m m' Γ Δ v w → E y z → J v y v' p → K w z w' q →
    v'.Matches w' ∧ p.nameless Γ.ids = q.nameless Δ.ids
  agree : ∀ ⦃s t v w a b y z⦄, Twins m m' Γ Δ s t v w → V s.arena a y → V t.arena b z → E y z →
    Agree ctx (f a) s (g b) t
  extend : ∀ ⦃a b x y⦄, a.Extends b → V a x y → V b x y

namespace InStep

variable {V : Arena → α → β → Prop} {E : β → β → Prop} {f g : α → LiftM ExprId}
  {J K : Stage → β → Stage → Term → Prop}

/-- The states after both runs match, if these end without an error. -/
theorem twins_of_runs (hfg : InStep ctx m m' Γ Δ V E f g J K) (h : Twins m m' Γ Δ s t v w)
    {a b : α} {y z : β} {r r' : ExprId} (ha : V s.arena a y) (hb : V t.arena b z) (hyz : E y z)
    (hrun : (f a).Runs ctx s r s') (hrun' : (g b).Runs ctx t r' t') :
    ∃ v' w', Twins m m' Γ Δ s' t' v' w' ∧ s.arena.Extends s'.arena ∧ t.arena.Extends t'.arena := by
  obtain ⟨v', p, hp, -, h₁⟩ := hfg.left h.left ha hrun
  obtain ⟨w', q, hq, -, h₁'⟩ := hfg.right h.right hb hrun'
  have hpar := h.parallel.advance (hfg.leftScopes h.left.isScoped hp).1
    (hfg.rightScopes h.right.isScoped hq).1 (hfg.coheres h.parallel hyz hp hq).1
  exact ⟨v', w', ⟨h₁.models, h₁'.models, hpar⟩, h₁.isExtension, h₁'.isExtension⟩

/-- Lists are treated in step if their members are. -/
theorem agree_mapM (hfg : InStep ctx m m' Γ Δ V E f g J K) (h : Twins m m' Γ Δ s t v w)
    {as bs : List α} {ys zs : List β} (has : List.Forall₂ (V s.arena) as ys)
    (hbs : List.Forall₂ (V t.arena) bs zs) (hyz : List.Forall₂ E ys zs) :
    Agree ctx (as.mapM f) s (bs.mapM g) t := by
  induction hyz generalizing s t v w as bs with
  | nil =>
    cases has
    cases hbs
    exact agree_of_safe (ends_pure _) (ends_pure _)
  | cons hyz _ ih =>
    obtain ⟨a, as, ha, has', rfl⟩ := List.forall₂_cons_right_iff.1 has
    obtain ⟨b, bs, hb, hbs', rfl⟩ := List.forall₂_cons_right_iff.1 hbs
    rw [List.mapM_cons, List.mapM_cons]
    refine (hfg.agree h ha hb hyz).bind fun r s₁ r' t₁ hr hr' => ?_
    obtain ⟨v₁, w₁, h₁, hext, hext'⟩ := hfg.twins_of_runs h ha hb hyz hr hr'
    refine (ih h₁ (has'.imp fun _ _ => hfg.extend hext)
      (hbs'.imp fun _ _ => hfg.extend hext')).bind fun _ _ _ _ _ _ => ?_
    exact agree_of_safe (ends_pure _) (ends_pure _)

theorem twins_of_mapM (hfg : InStep ctx m m' Γ Δ V E f g J K) (h : Twins m m' Γ Δ s t v w)
    {as bs : List α} {ys zs : List β} {rs rs' : List ExprId}
    (has : List.Forall₂ (V s.arena) as ys) (hbs : List.Forall₂ (V t.arena) bs zs)
    (hyz : List.Forall₂ E ys zs) (hrun : (as.mapM f).Runs ctx s rs s')
    (hrun' : (bs.mapM g).Runs ctx t rs' t') :
    ∃ v' w', Twins m m' Γ Δ s' t' v' w' ∧ s.arena.Extends s'.arena ∧ t.arena.Extends t'.arena := by
  obtain ⟨v', ps, hps, -, h₁⟩ := hfg.left.mapM hfg.extend h.left has hrun
  obtain ⟨w', qs, hqs, -, h₁'⟩ := hfg.right.mapM hfg.extend h.right hbs hrun'
  have hpar := h.parallel.advance (Judgment.Scopes.each hfg.leftScopes h.left.isScoped hps).1
    (Judgment.Scopes.each hfg.rightScopes h.right.isScoped hqs).1
    (Judgment.Coheres.each hfg.leftScopes hfg.rightScopes hfg.coheres h.parallel hyz hps hqs).1
  exact ⟨v', w', ⟨h₁.models, h₁'.models, hpar⟩, h₁.isExtension, h₁'.isExtension⟩

end InStep

theorem agree_kindOf (h : Twins m m' Γ Δ s t v w) (c : Name) :
    Agree ctx (kindOf c) s (kindOf c) t := by
  refine Agree.read_bind ?_
  cases ctx.env.kind? c with
  | some k => exact agree_of_safe (ends_pure _) (ends_pure _)
  | none =>
    refine Agree.read_bind (Agree.state_bind ?_)
    have howns : ctx.owns s.lifted c = ctx.owns t.lifted c := by
      rw [ownsAt_eq h.left, ownsAt_eq h.right, h.parallel.stages.ownsAt_eq]
    rw [howns]
    split
    · exact agree_of_safe (ends_pure _) (ends_pure _)
    · exact agree_throw _

theorem agree_callee (h : Twins m m' Γ Δ s t v w) {e e' : ExprId} {p q : Term}
    (he : s.arena.term? e = some p) (he' : t.arena.term? e' = some q) (hpq : p.AlphaEq q)
    (fuel fuel' : Nat) : Agree ctx (callee fuel e) s (callee fuel' e') t := by
  have hhead : p.etaReduce.headGlobal? = q.etaReduce.headGlobal? := by
    rw [← Term.headGlobal?_nameless _ [], Term.nameless_etaReduce, hpq,
      ← Term.nameless_etaReduce, Term.headGlobal?_nameless]
  refine Agree.arena_bind fun reduced a reduced' b hred hred' => ?_
  obtain ⟨hgrow, hr⟩ := (ArenaM.builds_etaReduce h.left.wellFormed he).of_eq_ok hred
  obtain ⟨hgrow', hr'⟩ := (ArenaM.builds_etaReduce h.right.wellFormed he').of_eq_ok hred'
  refine Agree.bind (Agree.arena_bind fun c a' c' b' hc hc' => ?_) fun r s₁ r' t₁ _ _ =>
    agree_of_safe ?_ ?_
  · cases (ArenaM.ask_eq_ok (hgrow.wellFormed.headGlobal?_eq_ok hr)).symm.trans hc
    cases (ArenaM.ask_eq_ok (hgrow'.wellFormed.headGlobal?_eq_ok hr')).symm.trans hc'
    rw [hhead]
    cases q.etaReduce.headGlobal? with
    | none => exact agree_of_safe (ends_pure _) (ends_pure _)
    | some c =>
      refine (agree_kindOf (h.grow hgrow hgrow') c).bind fun _ _ _ _ _ _ => ?_
      exact agree_of_safe (ends_pure _) (ends_pure _)
  -- Neither reuse nor a new procedure ends in an error.
  · cases r with
    | none => exact safe_addProcedure _ _
    | some c => exact (ends_update _).bind fun _ _ _ => ends_pure _
  · cases r' with
    | none => exact safe_addProcedure _ _
    | some c => exact (ends_update _).bind fun _ _ _ => ends_pure _

theorem agree_dispatcher? (h : Twins m m' Γ Δ s t v w) {e e' : ExprId} {f g : Term}
    (he : s.arena.term? e = some f) (he' : t.arena.term? e' = some g)
    (hfg : Alike m m' Γ Δ f g) : Agree ctx (dispatcher? e) s (dispatcher? e') t := by
  obtain ⟨n, hn⟩ := Arena.node?_of_term? he
  obtain ⟨n', hn'⟩ := Arena.node?_of_term? he'
  refine Agree.node_bind hn hn' ?_
  by_cases hc : ∃ c, f = .global c
  · obtain ⟨c, rfl⟩ := hc
    obtain rfl := Term.exists_global_of_nameless hfg.nameless_eq.symm
    obtain rfl := Option.some.inj (hn.symm.trans (h.left.wellFormed.stores he))
    obtain rfl := Option.some.inj (hn'.symm.trans (h.right.wellFormed.stores he'))
    refine (agree_kindOf h c).bind fun k s₁ k' t₁ _ _ => agree_of_safe ?_ ?_
    · cases k <;> exact ends_pure _
    · cases k' <;> exact ends_pure _
  · refine agree_of_safe ?_ ?_
    · cases h.left.wellFormed.shows_of_node? he hn with
      | global c => exact absurd ⟨c, rfl⟩ hc
      | _ => exact ends_pure _
    · cases h.right.wellFormed.shows_of_node? he' hn' with
      | global c => exact absurd ⟨c, Term.exists_global_of_nameless hfg.nameless_eq⟩ hc
      | _ => exact ends_pure _

/-- Lifting as far as it is given by `lift` and `lift'` goes in step. -/
structure Lockstep (ctx : LiftContext) (m m' : Nat) (lift lift' : ExprId → LiftM ExprId)
    (R R' : Judgment) : Prop where
  left : Simulates ctx lift R
  right : Simulates ctx lift' R'
  leftScopes : R.Scopes
  rightScopes : R'.Scopes
  coheres : R.Coheres m m' R'
  agree : ∀ ⦃Γ Δ s t v w e e' p q⦄, Twins m m' Γ Δ s t v w → s.arena.term? e = some p →
    t.arena.term? e' = some q → Alike m m' Γ Δ p q → Agree ctx (lift e) s (lift' e') t

namespace Lockstep

variable {lift lift' : ExprId → LiftM ExprId} {R R' : Judgment} {e e' : ExprId} {p q : Term}

theorem inStep (hl : Lockstep ctx m m' lift lift' R R') (Γ Δ : Context) :
    InStep ctx m m' Γ Δ (fun a e t => a.term? e = some t) (Alike m m' Γ Δ) lift lift' (R Γ)
      (R' Δ) where
  left := hl.left Γ
  right := hl.right Δ
  leftScopes := @hl.leftScopes Γ
  rightScopes := @hl.rightScopes Δ
  coheres _ _ _ _ _ _ _ _ hpar hpq hp hq := hl.coheres hpar hpq hp hq
  agree _ _ _ _ _ _ _ _ h he he' hpq := hl.agree h he he' hpq
  extend _ _ _ _ hab := hab.term?_eq_some

theorem under (hl : Lockstep ctx m m' lift lift' R R') {k : Nat} {bs cs : List Binder}
    {inner inner' : ExprId} {p' q' : Term}
    (hp : Peels ctx.anonymous k .empty v.nextLocal p bs p')
    (hq : Peels ctx.anonymous k .empty w.nextLocal q cs q') (hpar : Parallel m m' Γ Δ v w)
    (hpq : Alike m m' Γ Δ p q) (h : s.Models (Γ.enter bs) (v.mint k))
    (h' : t.Models (Δ.enter cs) (w.mint k)) (hinner : s.arena.term? inner = some p')
    (hinner' : t.arena.term? inner' = some q') :
    Agree ctx (do
      let body ← lift inner
      closeBinders bs
      liftM (ArenaM.mkLambdas bs body)) s (do
      let body ← lift' inner'
      closeBinders cs
      liftM (ArenaM.mkLambdas cs body)) t := by
  refine (hl.agree ⟨h, h', hpar.enter hp hq⟩ hinner hinner' (hpq.peels hpar hp hq)).bind
    fun _ _ _ _ _ _ => ?_
  exact agree_of_safe ((ends_update _).bind fun _ _ _ => safe_liftM _)
    ((ends_update _).bind fun _ _ _ => safe_liftM _)

theorem underLambdas (hl : Lockstep ctx m m' lift lift' R R') (h : Twins m m' Γ Δ s t v w)
    (he : s.arena.term? e = some p) (he' : t.arena.term? e' = some q)
    (hpq : Alike m m' Γ Δ p q) (fuel fuel' : Nat) :
    Agree ctx (liftUnderLambdas lift fuel e) s (liftUnderLambdas lift' fuel' e') t := by
  refine Agree.bind (agree_of_safe (safe_openLambdas _ _ _) (safe_openLambdas _ _ _)) ?_
  intro r s₁ r' t₁ hopen hopen'
  obtain ⟨p', hp, hp', h₁⟩ := peels_of_openLambdas h.left (Substitution.means_empty _) he hopen
  obtain ⟨q', hq, hq', h₁'⟩ := peels_of_openLambdas h.right (Substitution.means_empty _) he' hopen'
  rw [hpq.leading_eq] at hp h₁
  exact hl.under hp hq h.parallel hpq h₁.models h₁'.models hp' hq'

theorem arm (hl : Lockstep ctx m m' lift lift' R R') (h : Twins m m' Γ Δ s t v w)
    (he : s.arena.term? e = some p) (he' : t.arena.term? e' = some q)
    (hpq : Alike m m' Γ Δ p q) (fields : Nat) :
    Agree ctx (liftArm lift fields e) s (liftArm lift' fields e') t := by
  refine Agree.bind (agree_of_safe (ends_openFields h.left (Substitution.means_empty _) he fields)
    (ends_openFields h.right (Substitution.means_empty _) he' fields)) ?_
  intro r s₁ r' t₁ hopen hopen'
  obtain ⟨p', hp, hp', h₁⟩ := peels_of_openFields h.left (Substitution.means_empty _) he hopen
  obtain ⟨q', hq, hq', h₁'⟩ := peels_of_openFields h.right (Substitution.means_empty _) he' hopen'
  refine Agree.bind (agree_of_safe (ends_update _) (ends_update _)) fun _ s₂ _ t₂ hemit hemit' => ?_
  rw [emit, runs_update] at hemit hemit'
  subst hemit hemit'
  exact hl.under hp hq h.parallel hpq (h₁.models.emit _) (h₁'.models.emit _) hp' hq'

theorem lambda (hl : Lockstep ctx m m' lift lift' R R') (h : Twins m m' Γ Δ s t v w)
    (he : s.arena.term? e = some p) (he' : t.arena.term? e' = some q)
    (hpq : Alike m m' Γ Δ p q) (fuel fuel' : Nat) :
    Agree ctx (liftLambda lift fuel e) s (liftLambda lift' fuel' e') t := by
  refine (hl.underLambdas h he he' hpq fuel fuel').bind
    fun lifted s₁ lifted' t₁ hunder hunder' => ?_
  obtain ⟨v₁, p', hp, hlifted, h₁⟩ := hl.left.underLambdas h.left he hunder
  obtain ⟨w₁, q', hq, hlifted', h₁'⟩ := hl.right.underLambdas h.right he' hunder'
  rw [hpq.leading_eq] at hp
  obtain ⟨hadv, htidy⟩ := hl.leftScopes.under _ h.left.isScoped hp
  obtain ⟨hadv', htidy'⟩ := hl.rightScopes.under _ h.right.isScoped hq
  obtain ⟨hm, hpq'⟩ := hl.coheres.under _ h.parallel hpq hp hq
  have hpar := h.parallel.advance hadv hadv' hm
  refine Agree.bind (agree_of_safe (ends_closeOver h₁.models hlifted htidy.mem_ids)
    (ends_closeOver h₁'.models hlifted' htidy'.mem_ids)) fun r s₂ r' t₂ hclose hclose' => ?_
  obtain ⟨c, k, hc, hclosed, h₂⟩ := closes_of_closeOver h₁.models hlifted htidy.mem_ids hclose
  obtain ⟨c', k', hc', hclosed', h₂'⟩ :=
    closes_of_closeOver h₁'.models hlifted' htidy'.mem_ids hclose'
  have halpha := (hc.alphaEq_and_pairs hc' hpar.left.isScoped hpar.right.isScoped hpar.contexts hpq'
    htidy.mem_ids htidy'.mem_ids htidy.binder_lt htidy'.binder_lt).1
  have hpar₂ := hpar.advance (Stage.Advances.mint v₁ k) (Stage.Advances.mint w₁ k') (hm.mint k k')
  refine (agree_callee ⟨h₂.models, h₂'.models, hpar₂⟩ hclosed hclosed' halpha fuel fuel').bind
    fun _ _ _ _ _ _ => ?_
  have rest {s : LiftState} {head : ExprId} {xs : List LocalId} : Safe (do
      let args ← xs.reverse.mapM fun x => onArena (ArenaM.mkVar x)
      emit (.replaced xs.length)
      liftM (ArenaM.mkApp head args)) ctx s :=
    (safe_mapM_mkVar _).bind fun _ _ _ => (ends_update _).bind fun _ _ _ => safe_liftM _
  exact agree_of_safe rest rest

/-- Only local definitions continue a chain. -/
theorem liftChain_eq (hs : s.arena.WellFormed) (he : s.arena.term? e = some p)
    (hp : ∀ b v u, p ≠ .letIn b v u) (S : Substitution) (fuel : Nat) :
    liftChain lift (fuel + 1) S e ctx s =
      (do return ([], ← lift (← ArenaM.substitute S e)) :
        LiftM (List (Binder × ExprId) × ExprId)) ctx s := by
  obtain ⟨n, hn⟩ := Arena.node?_of_term? he
  rw [liftChain, node_bind_eq hn]
  cases hs.shows_of_node? he hn with
  | letIn => exact absurd rfl (hp _ _ _)
  | _ => rfl

theorem chain (hl : Lockstep ctx m m' lift lift' R R') {S S' : Substitution} {σ σ' : Replacement}
    (h : Twins m m' Γ Δ s t v w) (hS : S.Means s.arena σ) (hS' : S'.Means t.arena σ')
    (he : s.arena.term? e = some p) (he' : t.arena.term? e' = some q) (hσ : Opening m Γ σ p)
    (hσ' : Opening m' Δ σ' q)
    (hpq : (p.substitute σ).nameless Γ.ids = (q.substitute σ').nameless Δ.ids)
    (fuel fuel' : Nat) : Agree ctx (liftChain lift fuel S e) s (liftChain lift' fuel' S' e') t := by
  induction fuel generalizing Γ Δ s t v w S S' σ σ' e e' p q fuel' with
  | zero => exact agree_stop_left
  | succ fuel ih =>
    cases fuel' with
    | zero => exact agree_stop_right
    | succ fuel' =>
      by_cases hlet : ∃ b value body, p = .letIn b value body
      · obtain ⟨b, pv, pu, rfl⟩ := hlet
        rw [Term.substitute_letIn, Term.nameless] at hpq
        obtain ⟨c, qv, qu, rfl⟩ := Judgment.Coheres.exists_letIn hσ' hpq.symm
        rw [Term.substitute_letIn, Term.nameless] at hpq
        injection hpq with hvalue hbody
        obtain ⟨value, body, hn, hv, hu⟩ := h.left.wellFormed.stores he
        obtain ⟨value', body', hn', hv', hu'⟩ := h.right.wellFormed.stores he'
        rw [liftChain, liftChain]
        refine Agree.node_bind hn hn' (Agree.arena_bind fun e₁ a e₁' a' hsubst hsubst' => ?_)
        obtain ⟨hgrow, he₁⟩ :=
          (ArenaM.builds_substitute h.left.wellFormed hS hv).of_eq_ok hsubst
        obtain ⟨hgrow', he₁'⟩ :=
          (ArenaM.builds_substitute h.right.wellFormed hS' hv').of_eq_ok hsubst'
        have h₁ := h.grow hgrow hgrow'
        have hvpq : Alike m m' Γ Δ (pv.substitute σ) (qv.substitute σ') :=
          ⟨hσ.value.unlifted, hσ'.value.unlifted, hvalue⟩
        refine (hl.agree h₁ he₁ he₁' hvpq).bind fun r s₂ r' t₂ hr hr' => ?_
        obtain ⟨v₂, pv', hp, hterm, h₂⟩ := hl.left Γ h₁.left he₁ hr
        obtain ⟨w₂, qv', hq, hterm', h₂'⟩ := hl.right Δ h₁.right he₁' hr'
        obtain ⟨hadv, htidy⟩ := hl.leftScopes h.left.isScoped hp
        obtain ⟨hadv', htidy'⟩ := hl.rightScopes h.right.isScoped hq
        obtain ⟨hm, hvalue'⟩ := hl.coheres h.parallel hvpq hp hq
        refine Agree.bind (agree_of_safe (safe_openBinder _ _) (safe_openBinder _ _)) ?_
        rintro ⟨fresh, x⟩ s₃ ⟨fresh', x'⟩ t₃ hopen hopen'
        obtain ⟨rfl, hx, h₃⟩ := reaches_openBinder h₂.models (.inr ⟨r, pv', rfl, rfl, hterm⟩)
          (fun _ h => Option.some.inj h ▸ ⟨htidy.mem_ids, htidy.binder_lt⟩) hopen
        obtain ⟨rfl, hx', h₃'⟩ := reaches_openBinder h₂'.models (.inr ⟨r', qv', rfl, rfl, hterm'⟩)
          (fun _ h => Option.some.inj h ▸ ⟨htidy'.mem_ids, htidy'.binder_lt⟩) hopen'
        have hpar := (h.parallel.advance hadv hadv' hm).declare b c htidy htidy' hvalue'
        have hext := hgrow.isExtension.trans (h₂.trans h₃).isExtension
        have hext' := hgrow'.isExtension.trans (h₂'.trans h₃').isExtension
        have hbody' := (hσ.nameless_letBody h.parallel.left hadv.nextLocal_le).trans
          (hbody.trans (hσ'.nameless_letBody h.parallel.right hadv'.nextLocal_le).symm)
        refine (ih ⟨h₃.models, h₃'.models, hpar⟩ ((hS.mono hext).insert b.id hx)
          ((hS'.mono hext').insert c.id hx') (hext.term?_eq_some hu) (hext'.term?_eq_some hu')
          hσ.letBody hσ'.letBody hbody' fuel').bind fun _ _ _ _ _ _ => ?_
        exact agree_of_safe (ends_pure _) (ends_pure _)
      · have hp : ∀ b v u, p ≠ .letIn b v u := fun b v u hp => hlet ⟨b, v, u, hp⟩
        have hq : ∀ b v u, q ≠ .letIn b v u := by
          rintro b v u rfl
          rw [Term.substitute_letIn, Term.nameless] at hpq
          exact hlet (Judgment.Coheres.exists_letIn hσ hpq)
        refine Agree.congr (liftChain_eq h.left.wellFormed he hp S fuel)
          (liftChain_eq h.right.wellFormed he' hq S' fuel') ?_
        refine Agree.arena_bind fun e₁ a e₁' a' hsubst hsubst' => ?_
        obtain ⟨hgrow, he₁⟩ :=
          (ArenaM.builds_substitute h.left.wellFormed hS he).of_eq_ok hsubst
        obtain ⟨hgrow', he₁'⟩ :=
          (ArenaM.builds_substitute h.right.wellFormed hS' he').of_eq_ok hsubst'
        refine (hl.agree (h.grow hgrow hgrow') he₁ he₁' ⟨hσ.unlifted, hσ'.unlifted, hpq⟩).bind
          fun _ _ _ _ _ _ => ?_
        exact agree_of_safe (ends_pure _) (ends_pure _)

theorem lets (hl : Lockstep ctx m m' lift lift' R R') (h : Twins m m' Γ Δ s t v w)
    (he : s.arena.term? e = some p) (he' : t.arena.term? e' = some q)
    (hpq : Alike m m' Γ Δ p q) (fuel fuel' : Nat) :
    Agree ctx (liftLets lift fuel e) s (liftLets lift' fuel' e') t := by
  refine (hl.chain h (Substitution.means_empty _) (Substitution.means_empty _) he he'
    (.start hpq.left) (.start hpq.right) ?_ fuel fuel').bind fun _ _ _ _ _ _ => ?_
  · rw [Term.substitute_empty, Term.substitute_empty, hpq.nameless_eq]
  · exact agree_of_safe ((ends_update _).bind fun _ _ _ => safe_liftM _)
      ((ends_update _).bind fun _ _ _ => safe_liftM _)

theorem agree_fieldCount (params : Nat) (c : Name) :
    Agree ctx (fieldCount params c) s (fieldCount params c) t := by
  refine Agree.read_bind ?_
  cases ctx.env.arity? c with
  | none => exact agree_throw _
  | some arity =>
    dsimp only
    split
    · exact Agree.bind (agree_throw _) fun _ _ _ _ hrun => absurd hrun runs_throw
    · exact agree_of_safe (ends_pure _) (ends_pure _)

theorem inStep_arm (hl : Lockstep ctx m m' lift lift' R R') (Γ Δ : Context) (params : Nat) :
    InStep ctx m m' Γ Δ (fun a x y => x.1 = y.1 ∧ a.term? x.2 = some y.2)
      (fun x y => x.1 = y.1 ∧ Alike m m' Γ Δ x.2 y.2)
      (fun x : Name × ExprId => do liftArm lift (← fieldCount params x.1) x.2)
      (fun x : Name × ExprId => do liftArm lift' (← fieldCount params x.1) x.2)
      (Arm ctx R params Γ) (Arm ctx R' params Δ) where
  left := hl.left.follows_arm params Γ
  right := hl.right.follows_arm params Δ
  leftScopes := hl.leftScopes.arm params
  rightScopes := hl.rightScopes.arm params
  coheres := hl.coheres.arm params
  agree := by
    rintro s t v w ⟨c, e⟩ ⟨c', e'⟩ ⟨_, p⟩ ⟨_, q⟩ h ⟨rfl, he⟩ ⟨rfl, he'⟩ ⟨rfl, hpq⟩
    refine (agree_fieldCount params c).bind fun k s₁ k' t₁ hrun hrun' => ?_
    obtain ⟨rfl, hk⟩ := Simulates.runs_fieldCount hrun
    obtain ⟨rfl, hk'⟩ := Simulates.runs_fieldCount hrun'
    obtain rfl := Option.some.inj (hk.symm.trans hk')
    exact hl.arm h he he' hpq k
  extend _ _ _ _ hab := And.imp_right hab.term?_eq_some

theorem dispatch (hl : Lockstep ctx m m' lift lift' R R') (h : Twins m m' Γ Δ s t v w)
    {c type : Name} {head head' : ExprId} {args args' : List ExprId} {xs ys : List Term}
    (hargs : s.arena.Denote args xs) (hargs' : t.arena.Denote args' ys)
    (hxys : List.Forall₂ (Alike m m' Γ Δ) xs ys) :
    Agree ctx (liftDispatch lift c type head args) s (liftDispatch lift' c type head' args') t := by
  refine Agree.read_bind ?_
  cases ctx.env.type? type with
  | none => exact agree_throw _
  | some T =>
    dsimp only
    have hlength : args'.length = args.length := by
      rw [hargs.length_eq, hargs'.length_eq, hxys.length_eq]
    rw [hlength]
    split
    · exact Agree.bind (agree_throw _) fun _ _ _ _ hrun => absurd hrun runs_throw
    · next hle =>
      obtain ⟨scrut, arms, extra, rfl, harms, hdrop, hzip⟩ :=
        Simulates.exists_split_args (Nat.not_lt.1 hle)
      obtain ⟨scrut', arms', extra', rfl, harms', hdrop', hzip'⟩ :=
        Simulates.exists_split_args (hlength ▸ Nat.not_lt.1 hle)
      obtain ⟨x, _, hx, htail, rfl⟩ := List.forall₂_cons_left_iff.1 hargs
      obtain ⟨xarms, xextra, rfl, hxarms, hxextra⟩ := Arena.Denote.exists_append htail
      obtain ⟨y, _, hy, htail', rfl⟩ := List.forall₂_cons_left_iff.1 hargs'
      obtain ⟨yarms, yextra, rfl, hyarms, hyextra⟩ := Arena.Denote.exists_append htail'
      obtain ⟨hxy, hrest⟩ := List.forall₂_cons.1 hxys
      have hlen : xarms.length = yarms.length := by
        rw [← hxarms.length_eq, ← hyarms.length_eq, harms, harms']
      obtain ⟨hxyarms, hxyextra⟩ := Arena.forall₂_of_append hlen hrest
      rw [hdrop, hdrop', hzip, hzip']
      have hstep := hl.inStep Γ Δ
      have hscrut : s.arena.Denote [scrut] [x] := .cons hx .nil
      have hscrut' : t.arena.Denote [scrut'] [y] := .cons hy .nil
      have hxy' : List.Forall₂ (Alike m m' Γ Δ) [x] [y] := .cons hxy .nil
      refine (hstep.agree_mapM h hscrut hscrut' hxy').bind fun _ s₁ _ t₁ hr hr' => ?_
      obtain ⟨v₁, w₁, h₁, hext₁, hext₁'⟩ := hstep.twins_of_mapM h hscrut hscrut' hxy' hr hr'
      have hextra := hext₁.denote hxextra
      have hextra' := hext₁'.denote hyextra
      refine (hstep.agree_mapM h₁ hextra hextra' hxyextra).bind fun _ s₂ _ t₂ hr hr' => ?_
      obtain ⟨v₂, w₂, h₂, hext₂, hext₂'⟩ := hstep.twins_of_mapM h₁ hextra hextra' hxyextra hr hr'
      refine ((hl.inStep_arm Γ Δ T.params).agree_mapM h₂
        (Arena.forall₂_zip ((hext₁.trans hext₂).denote hxarms) _)
        (Arena.forall₂_zip ((hext₁'.trans hext₂').denote hyarms) _)
        (Arena.forall₂_zip hxyarms _)).bind fun _ _ _ _ _ _ => ?_
      exact agree_of_safe (safe_liftM _) (safe_liftM _)

/-- A term is reduced exactly if its head is a lambda. -/
theorem headReduce_ne_iff {a b : Arena} (ha : a.WellFormed) {head r : ExprId} {args : List ExprId}
    {f : Term} {xs : List Term} (hn : a.node? e = some (.app head args))
    (hf : a.term? head = some f) (hargs : a.Denote args xs) {fuel : Nat}
    (hrun : ArenaM.headReduce fuel e a = .ok (r, b)) : r ≠ e ↔ f.isLambda = true := by
  have he := ha.term?_of_node? hn (.app hf hargs)
  obtain ⟨happ, hne⟩ := ha.spine_of_node? hn hf hargs
  rw [ne_eq, ArenaM.headReduce_eq_iff ha he hrun, HeadNormal.apply_iff happ hne, Bool.not_eq_false]

theorem call (hl : Lockstep ctx m m' lift lift' R R') (h : Twins m m' Γ Δ s t v w)
    {head head' : ExprId} {args args' : List ExprId} {f g : Term} {xs ys : List Term}
    (hn : s.arena.node? e = some (.app head args))
    (hn' : t.arena.node? e' = some (.app head' args')) (hf : s.arena.term? head = some f)
    (hg : t.arena.term? head' = some g) (hargs : s.arena.Denote args xs)
    (hargs' : t.arena.Denote args' ys) (hpq : Alike m m' Γ Δ (f.apply xs) (g.apply ys))
    (hfg : Alike m m' Γ Δ f g) (hxys : List.Forall₂ (Alike m m' Γ Δ) xs ys) (fuel fuel' : Nat) :
    Agree ctx (liftCall lift fuel e head args) s (liftCall lift' fuel' e' head' args') t := by
  have he := h.left.wellFormed.term?_of_node? hn (.app hf hargs)
  have he' := h.right.wellFormed.term?_of_node? hn' (.app hg hargs')
  refine Agree.arena_bind fun reduced a reduced' b hred hred' => ?_
  obtain ⟨hgrow, p', hp', hnormal, hsteps⟩ := ArenaM.headReduce_eq_ok h.left.wellFormed he hred
  obtain ⟨hgrow', q', hq', hnormal', hsteps'⟩ :=
    ArenaM.headReduce_eq_ok h.right.wellFormed he' hred'
  have hne := headReduce_ne_iff h.left.wellFormed hn hf hargs hred
  have hne' := headReduce_ne_iff h.right.wellFormed hn' hg hargs' hred'
  rw [← hfg.isLambda_eq] at hne'
  have h₁ := h.grow hgrow hgrow'
  by_cases hlam : f.isLambda = true
  · rw [if_pos (hne.2 hlam), if_pos (hne'.2 hlam)]
    exact hl.agree h₁ hp' hq' (hpq.reduce h.parallel (hsteps.resolve_left (hne.2 hlam)) hnormal
      (hsteps'.resolve_left (hne'.2 hlam)) hnormal')
  · rw [if_neg (mt hne.1 hlam), if_neg (mt hne'.1 hlam)]
    have hf₁ := hgrow.isExtension.term?_eq_some hf
    have hg₁ := hgrow'.isExtension.term?_eq_some hg
    have hstep := hl.inStep Γ Δ
    refine (hl.agree h₁ hf₁ hg₁ hfg).bind fun _ s₂ _ t₂ hr hr' => ?_
    obtain ⟨v₂, w₂, h₂, hext, hext'⟩ := hstep.twins_of_runs h₁ hf₁ hg₁ hfg hr hr'
    refine (hstep.agree_mapM h₂ (hext.denote (hgrow.isExtension.denote hargs))
      (hext'.denote (hgrow'.isExtension.denote hargs')) hxys).bind fun _ _ _ _ _ _ => ?_
    have rest {s : LiftState} {e head : ExprId} {args : List ExprId} {P : Prop} [Decidable P] :
        Safe (if P then return e else liftM (ArenaM.mkApp head args)) ctx s := by
      split
      · exact ends_pure _
      · exact safe_liftM _
    exact agree_of_safe rest rest

theorem app (hl : Lockstep ctx m m' lift lift' R R') (h : Twins m m' Γ Δ s t v w)
    {head head' : ExprId} {args args' : List ExprId} {f g : Term} {xs ys : List Term}
    (hn : s.arena.node? e = some (.app head args))
    (hn' : t.arena.node? e' = some (.app head' args')) (hf : s.arena.term? head = some f)
    (hg : t.arena.term? head' = some g) (hargs : s.arena.Denote args xs)
    (hargs' : t.arena.Denote args' ys) (hpq : Alike m m' Γ Δ (f.apply xs) (g.apply ys))
    (fuel fuel' : Nat) :
    Agree ctx (liftApp lift fuel e head args) s (liftApp lift' fuel' e' head' args') t := by
  obtain ⟨hfg, hxys⟩ := hpq.of_apply (h.left.wellFormed.spine_of_node? hn hf hargs).1
    (h.right.wellFormed.spine_of_node? hn' hg hargs').1
  refine (agree_dispatcher? h hf hg hfg).bind fun d s₁ d' t₁ hd hd' => ?_
  obtain ⟨rfl, hsome, hnone⟩ := Simulates.runs_dispatcher? h.left hf hd
  obtain ⟨rfl, hsome', hnone'⟩ := Simulates.runs_dispatcher? h.right hg hd'
  cases d with
  | some d =>
    obtain ⟨c, type⟩ := d
    obtain ⟨rfl, hc⟩ := hsome c type rfl
    obtain rfl := Term.exists_global_of_nameless hfg.nameless_eq.symm
    cases d' with
    | some d' =>
      obtain ⟨c', type'⟩ := d'
      obtain ⟨hcc, hc'⟩ := hsome' c' type' rfl
      obtain rfl := Term.global.inj hcc
      obtain rfl := GlobalKind.dispatcher.inj (Option.some.inj (hc.symm.trans hc'))
      exact hl.dispatch h hargs hargs' hxys
    | none =>
      obtain ⟨k, hk, hne⟩ := hnone' rfl c rfl
      exact absurd hc (LiftContext.ne_dispatcher_of_kindAt? hk hne type)
  | none =>
    cases d' with
    | some d' =>
      obtain ⟨c, type⟩ := d'
      obtain ⟨rfl, hc⟩ := hsome' c type rfl
      obtain rfl := Term.exists_global_of_nameless hfg.nameless_eq
      obtain ⟨k, hk, hne⟩ := hnone rfl c rfl
      exact absurd hc (LiftContext.ne_dispatcher_of_kindAt? hk hne type)
    | none => exact hl.call h hn hn' hf hg hargs hargs' hpq hfg hxys fuel fuel'

end Lockstep

/-- Lifting goes in step on matching terms, whatever the fuel. -/
theorem lockstep_liftTerm (ctx : LiftContext) (m m' fuel fuel' : Nat) :
    Lockstep ctx m m' (liftTerm fuel) (liftTerm fuel') (LiftsIn ctx fuel) (LiftsIn ctx fuel') := by
  refine ⟨simulates_liftTerm ctx fuel, simulates_liftTerm ctx fuel', LiftsIn.scoped ctx fuel,
    LiftsIn.scoped ctx fuel', LiftsIn.coheres ctx m m' fuel fuel', ?_⟩
  induction fuel generalizing fuel' with
  | zero => exact fun _ _ _ _ _ _ _ _ _ _ _ _ _ _ => agree_stop_left
  | succ fuel ih =>
    cases fuel' with
    | zero => exact fun _ _ _ _ _ _ _ _ _ _ _ _ _ _ => agree_stop_right
    | succ fuel' =>
      have hl : Lockstep ctx m m' (liftTerm fuel) (liftTerm fuel') (LiftsIn ctx fuel)
          (LiftsIn ctx fuel') :=
        ⟨simulates_liftTerm ctx fuel, simulates_liftTerm ctx fuel', LiftsIn.scoped ctx fuel,
          LiftsIn.scoped ctx fuel', LiftsIn.coheres ctx m m' fuel fuel', ih fuel'⟩
      intro Γ Δ s t v w e e' p q h he he' hpq
      have heq := hpq.nameless_eq
      have hs := h.left.wellFormed.stores he
      rw [liftTerm, liftTerm]
      cases p with
      | var x =>
        have hx := hpq.left.mem_ids x (by simp [Term.occurrences])
        obtain ⟨i, hi⟩ := Term.exists_idxOf? hx
        rw [Term.nameless_var hi] at heq
        obtain ⟨y, rfl, -⟩ := Term.exists_var_of_nameless heq.symm
        have hy := hpq.right.mem_ids y (by simp [Term.occurrences])
        refine Agree.node_bind hs (h.right.wellFormed.stores he') (Agree.state_bind ?_)
        rw [if_pos (h.left.contains_of_mem_ids hx), if_pos (h.right.contains_of_mem_ids hy)]
        exact agree_of_safe (ends_pure _) (ends_pure _)
      | global c =>
        obtain rfl := Term.exists_global_of_nameless heq.symm
        refine Agree.node_bind hs (h.right.wellFormed.stores he') ?_
        exact agree_of_safe (ends_pure _) (ends_pure _)
      | lit l =>
        obtain rfl := Term.exists_lit_of_nameless heq.symm
        refine Agree.node_bind hs (h.right.wellFormed.stores he') ?_
        exact agree_of_safe (ends_pure _) (ends_pure _)
      | app pf px =>
        obtain ⟨qf, qx, rfl, -⟩ := Term.exists_app_of_nameless heq.symm
        obtain ⟨head, args, f, xs, hn, hf, hargs, happ⟩ := hs
        obtain ⟨head', args', g, ys, hn', hg, hargs', happ'⟩ := h.right.wellFormed.stores he'
        rw [happ, happ'] at hpq
        exact Agree.node_bind hn hn' (hl.app h hn hn' hf hg hargs hargs' hpq fuel fuel')
      | lam b body =>
        obtain ⟨c, body', rfl, -⟩ := Term.exists_lam_of_nameless heq.symm
        obtain ⟨_, hn, -⟩ := hs
        obtain ⟨_, hn', -⟩ := h.right.wellFormed.stores he'
        exact Agree.node_bind hn hn' (hl.lambda h he he' hpq fuel fuel')
      | letIn b value body =>
        obtain ⟨c, value', body', rfl, -⟩ := Term.exists_letIn_of_nameless heq.symm
        obtain ⟨_, _, hn, -⟩ := hs
        obtain ⟨_, _, hn', -⟩ := h.right.wellFormed.stores he'
        exact Agree.node_bind hn hn' (hl.lets h he he' hpq fuel fuel')

theorem liftBody_eq (hs : s.arena.WellFormed) {e : ExprId} {p : Term}
    (he : s.arena.term? e = some p) (fuel : Nat) :
    liftBody fuel e ctx s =
      (if p.isLambda then liftUnderLambdas (liftTerm fuel) fuel e else liftTerm fuel e) ctx s := by
  obtain ⟨n, hn⟩ := Arena.node?_of_term? he
  rw [liftBody, node_bind_eq hn, hs.isLambda_eq he hn]
  cases n <;> rfl

theorem agree_liftBody (h : Twins m m' [] [] s t v w) {e e' : ExprId} {p q : Term}
    (he : s.arena.term? e = some p) (he' : t.arena.term? e' = some q)
    (hpq : Alike m m' [] [] p q) (fuel fuel' : Nat) :
    Agree ctx (liftBody fuel e) s (liftBody fuel' e') t := by
  have hl := lockstep_liftTerm ctx m m' fuel fuel'
  refine Agree.congr (liftBody_eq h.left.wellFormed he fuel)
    (liftBody_eq h.right.wellFormed he' fuel') ?_
  rw [hpq.isLambda_eq]
  split
  · exact hl.underLambdas h he he' hpq fuel fuel'
  · exact hl.agree h he he' hpq

theorem inStep_liftBody (ctx : LiftContext) (m m' fuel fuel' : Nat) :
    InStep ctx m m' [] [] (fun a e t => a.term? e = some t) (Alike m m' [] []) (liftBody fuel)
      (liftBody fuel') (LiftsBody ctx fuel) (LiftsBody ctx fuel') where
  left _ _ _ _ _ _ h he hrun := liftsBody_of_liftBody h he hrun
  right _ _ _ _ _ _ h he hrun := liftsBody_of_liftBody h he hrun
  leftScopes _ _ _ _ hΓ h := (LiftsIn.scoped ctx fuel).under _ hΓ h
  rightScopes _ _ _ _ hΓ h := (LiftsIn.scoped ctx fuel').under _ hΓ h
  coheres v w p q v' w' p' q' hpar hpq h h' := by
    rw [LiftsBody, hpq.leading_eq] at h
    exact (LiftsIn.coheres ctx m m' fuel fuel').under _ hpar hpq h h'
  agree _ _ _ _ _ _ _ _ h he he' hpq := agree_liftBody h he he' hpq fuel fuel'
  extend _ _ _ _ hab := hab.term?_eq_some

theorem agree_mapM_liftProcedure (h : Twins m m' [] [] s t v w) {ps qs : List Procedure}
    {xs ys : List Term} (hps : s.arena.Denote (ps.map Procedure.body) xs)
    (hqs : t.arena.Denote (qs.map Procedure.body) ys)
    (hxys : List.Forall₂ (Alike m m' [] []) xs ys) (fuel fuel' : Nat) :
    Agree ctx (ps.mapM (liftProcedure fuel)) s (qs.mapM (liftProcedure fuel')) t := by
  have hstep := inStep_liftBody ctx m m' fuel fuel'
  induction hxys generalizing s t v w ps qs with
  | nil =>
    obtain rfl := List.map_eq_nil_iff.1 (List.forall₂_nil_right_iff.1 hps)
    obtain rfl := List.map_eq_nil_iff.1 (List.forall₂_nil_right_iff.1 hqs)
    exact agree_of_safe (ends_pure _) (ends_pure _)
  | cons hxy _ ih =>
    obtain ⟨e, es, he, hes, hmap⟩ := List.forall₂_cons_right_iff.1 hps
    obtain ⟨p, ps, rfl, rfl, rfl⟩ := List.map_eq_cons_iff.1 hmap
    obtain ⟨e', es', he', hes', hmap'⟩ := List.forall₂_cons_right_iff.1 hqs
    obtain ⟨q, qs, rfl, rfl, rfl⟩ := List.map_eq_cons_iff.1 hmap'
    have rest {s : LiftState} {p : Procedure} {body : ExprId} : Safe (do
        unless (← state).scope.isEmpty do stop .openScope
        return { p with body := body } : LiftM Procedure) ctx s := by
      refine Ends.state_bind ?_
      cases s.scope.isEmpty with
      | true => exact ends_pure _
      | false => exact (safe_stop _).bind fun _ _ _ => ends_pure _
    rw [List.mapM_cons, List.mapM_cons]
    refine Agree.bind ((hstep.agree h he he' hxy).bind fun _ _ _ _ _ _ => agree_of_safe rest rest)
      fun r s₁ r' t₁ hr hr' => ?_
    obtain ⟨v₁, w₁, h₁, hext, hext'⟩ := hstep.twins_of_runs h he he' hxy (runs_liftProcedure hr).2
      (runs_liftProcedure hr').2
    refine (ih h₁ (hext.denote hes) (hext'.denote hes')).bind fun _ _ _ _ _ _ => ?_
    exact agree_of_safe (ends_pure _) (ends_pure _)

end LiftM

namespace Procedure

theorem exists_alike {a b : Arena} {m m' : Nat} {ps qs : List Procedure}
    (h : List.Forall₂ (Procedure.AlphaEq a b) ps qs)
    (hps : ∀ p ∈ ps, ∃ t, a.term? p.body = some t ∧ Unlifted m [] t)
    (hqs : ∀ q ∈ qs, ∃ u, b.term? q.body = some u ∧ Unlifted m' [] u) :
    ps.map Procedure.name = qs.map Procedure.name ∧
      ∃ xs ys, a.Denote (ps.map Procedure.body) xs ∧ b.Denote (qs.map Procedure.body) ys ∧
        List.Forall₂ (Alike m m' [] []) xs ys := by
  induction h with
  | nil => exact ⟨rfl, [], [], .nil, .nil, .nil⟩
  | cons hpq _ ih =>
    obtain ⟨hname, t, u, ht, hu, htu⟩ := hpq
    obtain ⟨⟨t', ht', hunl⟩, hps⟩ := List.forall_mem_cons.1 hps
    obtain ⟨⟨u', hu', hunl'⟩, hqs⟩ := List.forall_mem_cons.1 hqs
    obtain rfl := Option.some.inj (ht.symm.trans ht')
    obtain rfl := Option.some.inj (hu.symm.trans hu')
    obtain ⟨hnames, xs, ys, hxs, hys, hxys⟩ := ih hps hqs
    exact ⟨by rw [List.map_cons, List.map_cons, hname, hnames], t :: xs, u :: ys, .cons ht hxs,
      .cons hu hys, .cons ⟨hunl, hunl', htu⟩ hxys⟩

theorem alphaEq_of_shows {a b : Arena} {ps qs : List Procedure} {ds es : List Definition}
    (hps : List.Forall₂ (Procedure.Shows a) ps ds) (hqs : List.Forall₂ (Procedure.Shows b) qs es)
    (h : List.Forall₂ (fun d e => d.name = e.name ∧ d.body.AlphaEq e.body) ds es) :
    List.Forall₂ (Procedure.AlphaEq a b) ps qs := by
  induction h generalizing ps qs with
  | nil =>
    cases hps
    cases hqs
    exact .nil
  | cons hde _ ih =>
    obtain ⟨p, ps, ⟨hname, hbody⟩, hps', rfl⟩ := List.forall₂_cons_right_iff.1 hps
    obtain ⟨q, qs, ⟨hname', hbody'⟩, hqs', rfl⟩ := List.forall₂_cons_right_iff.1 hqs
    exact .cons ⟨(hname.trans hde.1).trans hname'.symm, _, _, hbody, hbody', hde.2⟩ (ih hps' hqs')

end Procedure

namespace Program

/-- Procedures are closed and use variables that were handed out. -/
structure Enclosed (p : Program) : Prop where
  wellFormed : p.arena.WellFormed
  body : ∀ q ∈ p.procedures, ∃ t, p.arena.term? q.body = some t ∧ t.Closed ∧
    ∀ x ∈ t.locals, x.index < p.arena.nextLocal

variable {fuel fuel' : Nat} {env : Environment} {p q : Program} {names names' names'' : NameSource}
  {report report' : Report}

theorem Enclosed.unlifted (hp : p.Enclosed) :
    ∀ r ∈ p.procedures, ∃ t, p.arena.term? r.body = some t ∧ Unlifted p.arena.nextLocal [] t := by
  intro r hr
  obtain ⟨t, ht, hclosed, hlocals⟩ := hp.body r hr
  exact ⟨t, ht, fun x hx => absurd hx (Term.closed_iff.1 hclosed x),
    fun x hx => hlocals x (Term.mem_locals_of_mem_binders hx)⟩

theorem twins_start (hp : p.arena.WellFormed) (hq : q.arena.WellFormed) (names : NameSource) :
    LiftM.Twins p.arena.nextLocal q.arena.nextLocal [] [] (p.start names) (q.start names)
      ⟨p.arena.nextLocal, (names.intern "a").2, []⟩ ⟨q.arena.nextLocal, (names.intern "a").2, []⟩ :=
  ⟨start_models hp names, start_models hq names,
    ⟨.nil, by simp [Context.ids], Nat.le_refl _⟩,
    ⟨.nil, by simp [Context.ids], Nat.le_refl _⟩, .nil,
    rfl, .nil⟩

theorem alphaEq_of_liftProcedures {ctx : LiftContext} {s t : LiftState}
    {output output' : List Procedure} {xs ys : List Term} (hp : p.arena.WellFormed)
    (hq : q.arena.WellFormed)
    (hnames : p.procedures.map Procedure.name = q.procedures.map Procedure.name)
    (hxs : p.arena.Denote (p.procedures.map Procedure.body) xs)
    (hys : q.arena.Denote (q.procedures.map Procedure.body) ys)
    (hxys : List.Forall₂ (Alike p.arena.nextLocal q.arena.nextLocal [] []) xs ys)
    (hrun : (liftProcedures fuel p.procedures).Runs ctx (p.start names) output s)
    (hrun' : (liftProcedures fuel' q.procedures).Runs ctx (q.start names) output' t) :
    List.Forall₂ (Procedure.AlphaEq s.arena t.arena) output output' := by
  simp only [liftProcedures, LiftM.runs_bind, LiftM.runs_state, LiftM.runs_pure] at hrun hrun'
  obtain ⟨given, s₁, hgiven, _, _, ⟨rfl, rfl⟩, rfl, rfl⟩ := hrun
  obtain ⟨given', t₁, hgiven', _, _, ⟨rfl, rfl⟩, rfl, rfl⟩ := hrun'
  have h := twins_start hp hq names
  obtain ⟨v, xs', us, heach, hxs', hus, hgnames, h₁⟩ :=
    LiftM.each_of_mapM_liftProcedure h.left hgiven
  obtain ⟨w, ys', us', heach', hys', hus', hgnames', h₁'⟩ :=
    LiftM.each_of_mapM_liftProcedure h.right hgiven'
  obtain rfl := hxs'.unique (h₁.isExtension.denote hxs)
  obtain rfl := hys'.unique (h₁'.isExtension.denote hys)
  have hstep := LiftM.inStep_liftBody ctx p.arena.nextLocal q.arena.nextLocal fuel fuel'
  obtain ⟨hm, hmap⟩ := Judgment.Coheres.each hstep.leftScopes hstep.rightScopes hstep.coheres
    h.parallel hxys heach heach'
  rw [← List.forall₂_eq_eq_eq, List.forall₂_map_left_iff, List.forall₂_map_right_iff] at hmap
  exact List.rel_append
    (Procedure.alphaEq_of_denote (hgnames.trans (hnames.trans hgnames'.symm)) hus hus' hmap)
    (Procedure.alphaEq_of_shows h₁.models.lifted h₁'.models.lifted hm.lifted)

/-- Programs that are equal up to the names of bound variables, whatever nodes their terms share,
are lifted to programs that are so again, with the same names; or else both fail, with the same
error. -/
theorem lift_alphaEq (hp : p.Enclosed) (hq : q.Enclosed) (hpq : p.AlphaEq q)
    (hconfig : p.config = q.config) (hrun : p.lift fuel env names = .ok (report, names'))
    (hrun' : q.lift fuel' env names = .ok (report', names'')) :
    report.error? = report'.error? ∧
      (report.error? = none → report.program.AlphaEq report'.program) := by
  obtain ⟨base, outcome, s, hbase, hlift, hreport, -⟩ := exists_of_lift hrun
  obtain ⟨base', outcome', t, hbase', hlift', hreport', -⟩ := exists_of_lift hrun'
  obtain ⟨hnames, xs, ys, hxs, hys, hxys⟩ := Procedure.exists_alike hpq hp.unlifted hq.unlifted
  rw [← hconfig, hbase, Except.ok.injEq] at hbase'
  subst hbase'
  have hctx : q.context env names base = p.context env names base := by
    rw [context, context, hnames]
  rw [hctx] at hlift'
  have h := twins_start hp.wellFormed hq.wellFormed names
  have hagree : LiftM.Agree (p.context env names base) (liftProcedures fuel p.procedures)
      (p.start names) (liftProcedures fuel' q.procedures) (q.start names) := by
    refine (LiftM.agree_mapM_liftProcedure h hxs hys hxys fuel fuel').bind fun _ _ _ _ _ _ => ?_
    exact LiftM.agree_of_safe (LiftM.Ends.state_bind (LiftM.ends_pure _))
      (LiftM.Ends.state_bind (LiftM.ends_pure _))
  have hfailure := hagree hlift hlift'
  cases hreport with
  | error err =>
    cases hreport' with
    | error err' => exact ⟨hfailure, by simp⟩
    | ok => cases hfailure
  | ok output =>
    cases hreport' with
    | error => cases hfailure
    | ok output' =>
      refine ⟨rfl, fun _ => ?_⟩
      exact alphaEq_of_liftProcedures hp.wellFormed hq.wellFormed hnames hxs hys hxys hlift hlift'

/-- `captureProgram` with other variables and names, stored in another order: two variables have the
same number and share a node. -/
def renamedCapture : Program where
  arena := .ofNodes
    [.global ⟨3⟩, .var ⟨4⟩, .var ⟨3⟩, .app ⟨0⟩ [⟨1⟩, ⟨2⟩], .lam ⟨⟨4⟩, ⟨5⟩⟩ ⟨3⟩,
      .global ⟨2⟩, .app ⟨5⟩ [⟨4⟩], .global ⟨1⟩, .app ⟨7⟩ [⟨2⟩], .letIn ⟨⟨3⟩, ⟨7⟩⟩ ⟨8⟩ ⟨6⟩,
      .lam ⟨⟨3⟩, ⟨6⟩⟩ ⟨9⟩] 9
  procedures := [⟨⟨4⟩, ⟨10⟩⟩]
  config := { owner := ⟨4⟩ }

def renamedTerm : Term :=
  .lam ⟨⟨3⟩, ⟨6⟩⟩ (.letIn ⟨⟨3⟩, ⟨7⟩⟩ (.app (.global ⟨1⟩) (.var ⟨3⟩))
    (.app (.global ⟨2⟩) (.lam ⟨⟨4⟩, ⟨5⟩⟩ (.app (.app (.global ⟨3⟩) (.var ⟨4⟩)) (.var ⟨3⟩)))))

theorem lift_alphaEq_renamedCapture :
    captureProgram.AlphaEq renamedCapture ∧
      ∃ report names' report' names'',
        captureProgram.lift 40 captureEnvironment captureNames = .ok (report, names') ∧
        renamedCapture.lift 50 captureEnvironment captureNames = .ok (report', names'') ∧
        report.program.procedures.length = 2 ∧ report.error? = report'.error? ∧
        (report.error? = none → report.program.AlphaEq report'.program) := by
  have hp : captureProgram.Enclosed := by
    refine ⟨by decide +kernel, fun q hq => ?_⟩
    obtain rfl := List.mem_singleton.1 hq
    exact ⟨captureTerm, by decide +kernel, rfl, by decide⟩
  have hq : renamedCapture.Enclosed := by
    refine ⟨by decide +kernel, fun q hq => ?_⟩
    obtain rfl := List.mem_singleton.1 hq
    exact ⟨renamedTerm, by decide +kernel, rfl, by decide⟩
  have hpq : captureProgram.AlphaEq renamedCapture :=
    .cons ⟨rfl, captureTerm, renamedTerm, by decide +kernel, by decide +kernel, by decide⟩ .nil
  have hlifts : renamedCapture.liftsTo 50 captureEnvironment captureNames 2 = true := by
    decide +kernel
  obtain ⟨report, names', hrun, -, hlength⟩ := exists_of_liftsTo liftsTo_captureProgram
  obtain ⟨report', names'', hrun', -, -⟩ := exists_of_liftsTo hlifts
  exact ⟨hpq, report, names', report', names'', hrun, hrun', hlength,
    lift_alphaEq hp hq hpq rfl hrun hrun'⟩

end Program

end LambdaLifting
