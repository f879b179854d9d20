import LambdaLifting.Proofs.Closure

namespace LambdaLifting

theorem Stage.mint_add (w : Stage) (k l : Nat) : w.mint (k + l) = (w.mint k).mint l := by
  simp only [mint, Nat.add_assoc]

theorem Context.enter_eq_append (Γ : Context) (bs : List Binder) :
    Γ.enter bs = (bs.map fun b => Entry.mk b.id b.name none).reverse ++ Γ := by
  induction bs generalizing Γ with
  | nil => rfl
  | cons b bs ih => simp [ih]

namespace LiftState.Reaches

theorem refl {s : LiftState} {Γ : Context} {w : Stage} (h : s.Models Γ w) : s.Reaches s Γ w :=
  ⟨h, .refl _⟩

theorem trans {s₁ s₂ s₃ : LiftState} {Γ Δ : Context} {v w : Stage} (h : s₁.Reaches s₂ Γ v)
    (h' : s₂.Reaches s₃ Δ w) : s₁.Reaches s₃ Δ w :=
  ⟨h'.models, h.isExtension.trans h'.isExtension⟩

end LiftState.Reaches

namespace LiftM

variable {ctx : LiftContext}

/-- Runs of `f` give derivations of `J`, in a fixed scope. `V` relates inputs in an arena to
trees. -/
def Follows (ctx : LiftContext) {α β : Type} (V : Arena → α → β → Prop) (f : α → LiftM ExprId)
    (Γ : Context) (J : Stage → β → Stage → Term → Prop) : Prop :=
  ∀ ⦃s s' : LiftState⦄ ⦃w : Stage⦄ ⦃x : α⦄ ⦃y : β⦄ ⦃r : ExprId⦄, s.Models Γ w → V s.arena x y →
    (f x).Runs ctx s r s' → ∃ w' u, J w y w' u ∧ s'.arena.term? r = some u ∧ s.Reaches s' Γ w'

/-- Lifting as far as it is given by `lift` follows `R`. -/
def Simulates (ctx : LiftContext) (lift : ExprId → LiftM ExprId) (R : Judgment) : Prop :=
  ∀ Γ, Follows ctx (fun a e t => a.term? e = some t) lift Γ (R Γ)

variable {s s' : LiftState} {Γ : Context} {w : Stage}

theorem Follows.mapM {α β : Type} {V : Arena → α → β → Prop} {f : α → LiftM ExprId}
    {J : Stage → β → Stage → Term → Prop} (hf : Follows ctx V f Γ J)
    (hV : ∀ ⦃a b x y⦄, a.Extends b → V a x y → V b x y) (h : s.Models Γ w) {xs : List α}
    {ys : List β} (hxs : List.Forall₂ (V s.arena) xs ys) {rs : List ExprId}
    (hrun : (xs.mapM f).Runs ctx s rs s') :
    ∃ w' us, Each J w ys w' us ∧ s'.arena.Denote rs us ∧ s.Reaches s' Γ w' := by
  induction xs generalizing s w ys rs with
  | nil =>
    cases hxs
    obtain ⟨rfl, rfl⟩ := runs_pure.1 hrun
    exact ⟨w, [], .nil w, .nil, .refl h⟩
  | cons x xs ih =>
    obtain ⟨y, ys, hx, htail, rfl⟩ := List.forall₂_cons_left_iff.1 hxs
    simp only [List.mapM_cons, runs_bind, runs_pure] at hrun
    obtain ⟨r, s₁, hr, rs, _, hrs, rfl, rfl⟩ := hrun
    obtain ⟨w₁, u, hu, hterm, h₁⟩ := hf h hx hr
    have htail' := htail.imp fun _ _ => hV h₁.isExtension
    obtain ⟨w₂, us, hus, hterms, h₂⟩ := ih h₁.models htail' hrs
    have hterm := h₂.isExtension.term?_eq_some hterm
    exact ⟨w₂, u :: us, .cons hu hus, .cons hterm hterms, h₁.trans h₂⟩

theorem Simulates.mapM {lift : ExprId → LiftM ExprId} {R : Judgment} (hlift : Simulates ctx lift R)
    (h : s.Models Γ w) {es : List ExprId} {ts : List Term} (hes : s.arena.Denote es ts)
    {rs : List ExprId} (hrun : (es.mapM lift).Runs ctx s rs s') :
    ∃ w' us, Each (R Γ) w ts w' us ∧ s'.arena.Denote rs us ∧ s.Reaches s' Γ w' :=
  (hlift Γ).mapM (fun _ _ _ _ hab => hab.term?_eq_some) h hes hrun

section Opening

variable {S : Substitution} {σ : Replacement} {e inner : ExprId} {t : Term} {bs : List Binder}

theorem peels_of_openLambdas (h : s.Models Γ w) (hS : S.Means s.arena σ)
    (he : s.arena.term? e = some t) {fuel : Nat}
    (hrun : (openLambdas fuel S e).Runs ctx s (bs, inner) s') :
    ∃ u, Peels ctx.anonymous t.leading σ w.nextLocal t bs u ∧ s'.arena.term? inner = some u ∧
      s.Reaches s' (Γ.enter bs) (w.mint t.leading) := by
  induction fuel generalizing s Γ w S σ e t bs with
  | zero => exact absurd hrun runs_stop
  | succ fuel ih =>
    obtain ⟨n, hn⟩ := Arena.node?_of_term? he
    have hlam := h.wellFormed.isLambda_eq he hn
    rw [openLambdas, runs_node_bind hn] at hrun
    cases h.wellFormed.shows_of_node? he hn with
    | @lam b body v hv =>
      simp only [runs_bind, runs_pure, Prod.exists, Prod.mk.injEq] at hrun
      obtain ⟨fresh, x, s₁, hopen, bs, inner, _, hrest, ⟨rfl, rfl⟩, rfl⟩ := hrun
      obtain ⟨rfl, hx, h₁⟩ := reaches_openBinder h (.inl ⟨rfl, rfl⟩) (by simp) hopen
      have hS₁ := (hS.mono h₁.isExtension).insert b.id hx
      obtain ⟨u, hpeels, hu, h₂⟩ := ih h₁.models hS₁ (h₁.isExtension.term?_eq_some hv) hrest
      refine ⟨u, .lam hpeels, hu, ?_⟩
      rw [Term.leading, Nat.add_comm, Stage.mint_add]
      exact h₁.trans h₂
    | _ =>
      rw [Term.leading_of_isLambda_eq_false hlam]
      simp only [runs_bind, runs_liftM, runs_pure, Prod.mk.injEq] at hrun
      obtain ⟨_, _, ⟨a, hsubst, rfl⟩, ⟨rfl, rfl⟩, rfl⟩ := hrun
      obtain ⟨hgrow, hu⟩ := (ArenaM.builds_substitute h.wellFormed hS he).of_eq_ok hsubst
      exact ⟨_, .done σ _ _, hu, h.grow hgrow, hgrow.isExtension⟩

theorem peels_of_openFields (h : s.Models Γ w) (hS : S.Means s.arena σ)
    (he : s.arena.term? e = some t) {fields : Nat}
    (hrun : (openFields fields S e).Runs ctx s (bs, inner) s') :
    ∃ u, Peels ctx.anonymous fields σ w.nextLocal t bs u ∧ s'.arena.term? inner = some u ∧
      s.Reaches s' (Γ.enter bs) (w.mint fields) := by
  induction fields generalizing s Γ w S σ e t bs with
  | zero =>
    simp only [openFields, runs_bind, runs_liftM, runs_pure, Prod.mk.injEq] at hrun
    obtain ⟨_, _, ⟨a, hsubst, rfl⟩, ⟨rfl, rfl⟩, rfl⟩ := hrun
    obtain ⟨hgrow, hu⟩ := (ArenaM.builds_substitute h.wellFormed hS he).of_eq_ok hsubst
    exact ⟨_, .done σ _ _, hu, h.grow hgrow, hgrow.isExtension⟩
  | succ fields ih =>
    obtain ⟨n, hn⟩ := Arena.node?_of_term? he
    have hlam := h.wellFormed.isLambda_eq he hn
    rw [openFields, runs_node_bind hn] at hrun
    rw [Nat.add_comm, Stage.mint_add, Nat.add_comm]
    cases h.wellFormed.shows_of_node? he hn with
    | @lam b body v hv =>
      simp only [runs_bind, runs_pure, Prod.exists, Prod.mk.injEq] at hrun
      obtain ⟨fresh, x, s₁, hopen, bs, inner, _, hrest, ⟨rfl, rfl⟩, rfl⟩ := hrun
      obtain ⟨rfl, hx, h₁⟩ := reaches_openBinder h (.inl ⟨rfl, rfl⟩) (by simp) hopen
      have hS₁ := (hS.mono h₁.isExtension).insert b.id hx
      obtain ⟨u, hpeels, hu, h₂⟩ := ih h₁.models hS₁ (h₁.isExtension.term?_eq_some hv) hrest
      exact ⟨u, .lam hpeels, hu, h₁.trans h₂⟩
    | _ =>
      simp only [runs_bind, runs_read, runs_liftM, runs_pure, Prod.exists, Prod.mk.injEq] at hrun
      obtain ⟨_, _, ⟨rfl, rfl⟩, fresh, x, s₁, hopen, e', _, ⟨a, happ, rfl⟩, bs, inner, _, hrest,
        ⟨rfl, rfl⟩, rfl⟩ := hrun
      obtain ⟨rfl, hx, h₁⟩ := reaches_openBinder h (.inl ⟨rfl, rfl⟩) (by simp) hopen
      obtain ⟨hgrow, he'⟩ := (ArenaM.builds_mkApp h₁.models.wellFormed
        (h₁.isExtension.term?_eq_some he) (.cons hx .nil)).of_eq_ok happ
      have hext := h₁.isExtension.trans hgrow.isExtension
      obtain ⟨u, hpeels, hu, h₂⟩ := ih (h₁.models.grow hgrow) (hS.mono hext) he' hrest
      exact ⟨u, .expand hlam hpeels, hu, h₂.models, hext.trans h₂.isExtension⟩

end Opening

namespace Simulates

variable {lift : ExprId → LiftM ExprId} {R : Judgment} {e r : ExprId} {t : Term}

theorem under (hlift : Simulates ctx lift R) {s₀ : LiftState} {k : Nat} {bs : List Binder}
    {inner : ExprId} {v : Term} (hpeels : Peels ctx.anonymous k .empty w.nextLocal t bs v)
    (h : s₀.Reaches s (Γ.enter bs) (w.mint k)) (hinner : s.arena.term? inner = some v)
    (hrun : Runs (do
      let body ← lift inner
      closeBinders bs
      liftM (ArenaM.mkLambdas bs body)) ctx s r s') :
    ∃ w' u, Under ctx R k Γ w t w' u ∧ s'.arena.term? r = some u ∧ s₀.Reaches s' Γ w' := by
  simp only [runs_bind, runs_liftM] at hrun
  obtain ⟨body, s₁, hbody, ⟨⟩, s₂, hclose, a, hlambdas, rfl⟩ := hrun
  obtain ⟨w', u, hu, hterm, h₁⟩ := hlift _ h.models hinner hbody
  have hmodels := h₁.models
  rw [Context.enter_eq_append] at hmodels
  have h₂ := reaches_closeBinders hmodels (by simp [Context.ids]) hclose
  obtain ⟨hgrow, hr⟩ := (ArenaM.builds_mkLambdas h₂.models.wellFormed
    (h₂.isExtension.term?_eq_some hterm) bs).of_eq_ok hlambdas
  exact ⟨w', _, .intro hpeels hu, hr, h₂.models.grow hgrow,
    ((h.trans h₁).trans h₂).isExtension.trans hgrow.isExtension⟩

theorem underLambdas (hlift : Simulates ctx lift R) (h : s.Models Γ w)
    (he : s.arena.term? e = some t) {fuel : Nat}
    (hrun : (liftUnderLambdas lift fuel e).Runs ctx s r s') :
    ∃ w' u, Under ctx R t.leading Γ w t w' u ∧ s'.arena.term? r = some u ∧ s.Reaches s' Γ w' := by
  rw [liftUnderLambdas, runs_bind] at hrun
  obtain ⟨⟨bs, inner⟩, s₁, hopen, hrun⟩ := hrun
  obtain ⟨v, hpeels, hv, h₁⟩ := peels_of_openLambdas h (Substitution.means_empty _) he hopen
  exact hlift.under hpeels h₁ hv hrun

theorem arm (hlift : Simulates ctx lift R) (h : s.Models Γ w) (he : s.arena.term? e = some t)
    {fields : Nat} (hrun : (liftArm lift fields e).Runs ctx s r s') :
    ∃ w' u, Under ctx R fields Γ w t w' u ∧ s'.arena.term? r = some u ∧ s.Reaches s' Γ w' := by
  simp only [liftArm, emit] at hrun
  rw [runs_bind] at hrun
  obtain ⟨⟨bs, inner⟩, s₁, hopen, hrun⟩ := hrun
  obtain ⟨v, hpeels, hv, h₁⟩ := peels_of_openFields h (Substitution.means_empty _) he hopen
  rw [runs_bind] at hrun
  obtain ⟨⟨⟩, s₂, hemit, hrun⟩ := hrun
  rw [runs_update] at hemit
  subst hemit
  exact hlift.under hpeels ⟨h₁.models.emit (s₁.events.push _), h₁.isExtension⟩ hv hrun

theorem denote_of_mapM_mkVar (h : s.Models Γ w) {xs : List LocalId} {rs : List ExprId}
    (hrun : (xs.mapM fun x => onArena (ArenaM.mkVar x)).Runs ctx s rs s') :
    s'.arena.Denote rs (xs.map Term.var) ∧ s.Reaches s' Γ w := by
  induction xs generalizing s rs with
  | nil =>
    obtain ⟨rfl, rfl⟩ := runs_pure.1 hrun
    exact ⟨.nil, .refl h⟩
  | cons x xs ih =>
    simp only [List.mapM_cons, runs_bind, runs_onArena, runs_pure] at hrun
    obtain ⟨r, _, ⟨a, hvar, rfl⟩, rs, _, hrs, rfl, rfl⟩ := hrun
    obtain ⟨hgrow, hr⟩ := (ArenaM.builds_mkVar h.wellFormed x).of_eq_ok hvar
    obtain ⟨hterms, h₂⟩ := ih (h.grow hgrow) hrs
    exact ⟨.cons (h₂.isExtension.term?_eq_some hr) hterms, h₂.models,
      hgrow.isExtension.trans h₂.isExtension⟩

theorem lambda (hlift : Simulates ctx lift R) (hR : R.Scopes) (h : s.Models Γ w) {b : Binder}
    {body : Term} (he : s.arena.term? e = some (.lam b body)) {fuel : Nat}
    (hrun : (liftLambda lift fuel e).Runs ctx s r s') :
    ∃ w' u, Rule ctx R Γ w (.lam b body) w' u ∧ s'.arena.term? r = some u ∧
      s.Reaches s' Γ w' := by
  simp only [liftLambda, emit, runs_bind, runs_update, runs_liftM, Prod.exists] at hrun
  obtain ⟨lifted, s₁, hunder, closed, captured, s₂, hclose, head, s₃, hcallee, args, s₄, hargs, -,
    s₅, rfl, a, happ, rfl⟩ := hrun
  obtain ⟨w₁, v, hv, hlifted, h₁⟩ := hlift.underLambdas h he hunder
  have htidy := (hR.under _ h.isScoped hv).2
  obtain ⟨c, k, hc, hclosed, h₂⟩ := closes_of_closeOver h₁.models hlifted htidy.mem_ids hclose
  obtain ⟨w₃, f, hf, hhead, h₃⟩ := calls_of_callee h₂.models hclosed hcallee
  obtain ⟨hdenote, h₄⟩ := denote_of_mapM_mkVar h₃.models hargs
  obtain ⟨hgrow, hr⟩ := (ArenaM.builds_mkApp h₄.models.wellFormed
    (h₄.isExtension.term?_eq_some hhead) hdenote).of_eq_ok happ
  have hreach := ((h₁.trans h₂).trans h₃).trans h₄
  exact ⟨w₃, _, .lam hv hc hf, hr, (h₄.models.grow hgrow).emit _,
    hreach.isExtension.trans hgrow.isExtension⟩

theorem chain (hlift : Simulates ctx lift R) (hR : R.Scopes) {S : Substitution} {σ : Replacement}
    {fuel : Nat} {ds : List (Binder × ExprId)} {inner : ExprId} (h : s.Models Γ w)
    (hS : S.Means s.arena σ) (he : s.arena.term? e = some t)
    (hrun : (liftChain lift fuel S e).Runs ctx s (ds, inner) s') :
    ∃ w' us u Δ, Chain R Γ σ w t w' us u ∧
      List.Forall₂ (fun d u => d.1 = u.1 ∧ s'.arena.term? d.2 = some u.2) ds us ∧
      s'.arena.term? inner = some u ∧ (∀ x, x ∈ (ds.map (·.1)).map Binder.id ↔ x ∈ Δ.ids) ∧
      s.Reaches s' (Δ ++ Γ) w' := by
  induction fuel generalizing s Γ w S σ e t ds with
  | zero => exact absurd hrun runs_stop
  | succ fuel ih =>
    obtain ⟨n, hn⟩ := Arena.node?_of_term? he
    rw [liftChain, runs_node_bind hn] at hrun
    have hne := h.wellFormed.ne_letIn he hn
    cases h.wellFormed.shows_of_node? he hn with
    | @letIn b value body v u hv hu =>
      simp only [runs_bind, runs_liftM, runs_pure, Prod.exists, Prod.mk.injEq] at hrun
      obtain ⟨e', _, ⟨a, hsubst, rfl⟩, value', s₁, hvalue, fresh, x, s₂, hopen, ds, inner, _, hrest,
        ⟨rfl, rfl⟩, rfl⟩ := hrun
      obtain ⟨hgrow, he'⟩ := (ArenaM.builds_substitute h.wellFormed hS hv).of_eq_ok hsubst
      obtain ⟨w₁, v', hv', hterm, h₁⟩ := hlift Γ (h.grow hgrow) he' hvalue
      have htidy := (hR h.isScoped hv').2
      obtain ⟨rfl, hx, h₂⟩ := reaches_openBinder h₁.models (.inr ⟨value', v', rfl, rfl, hterm⟩)
        (fun _ h => Option.some.inj h ▸ ⟨htidy.mem_ids, htidy.binder_lt⟩) hopen
      have hext := hgrow.isExtension.trans (h₁.trans h₂).isExtension
      -- `Δ` lists the definitions that the rest opens; this one is below them in the scope.
      obtain ⟨w₃, us, u', Δ, hchain, hds, hinner, hΔ, h₃⟩ := ih h₂.models
        ((hS.mono hext).insert b.id hx) (hext.term?_eq_some hu) hrest
      have hterm := (h₂.trans h₃).isExtension.term?_eq_some hterm
      refine ⟨w₃, _, u', Δ ++ [⟨⟨w₁.nextLocal⟩, b.name, some v'⟩], .letIn hv' hchain,
        .cons ⟨rfl, hterm⟩ hds, hinner, fun y => ?_, ?_, hext.trans h₃.isExtension⟩
      · rw [List.map_cons, List.map_cons, List.mem_cons, hΔ]
        simp [Context.ids, or_comm]
      · simpa using h₃.models
    | _ =>
      simp only [runs_bind, runs_liftM, runs_pure, Prod.mk.injEq] at hrun
      obtain ⟨e', _, ⟨a, hsubst, rfl⟩, inner, _, hinner, ⟨rfl, rfl⟩, rfl⟩ := hrun
      obtain ⟨hgrow, he'⟩ := (ArenaM.builds_substitute h.wellFormed hS he).of_eq_ok hsubst
      obtain ⟨w', u, hu, hterm, h₁⟩ := hlift Γ (h.grow hgrow) he' hinner
      exact ⟨w', [], u, [], .done (hne (by simp)) hu, .nil, hterm, by simp [Context.ids],
        h₁.models, hgrow.isExtension.trans h₁.isExtension⟩

theorem lets (hlift : Simulates ctx lift R) (hR : R.Scopes) (h : s.Models Γ w) {b : Binder}
    {v body : Term} (he : s.arena.term? e = some (.letIn b v body)) {fuel : Nat}
    (hrun : (liftLets lift fuel e).Runs ctx s r s') :
    ∃ w' u, Rule ctx R Γ w (.letIn b v body) w' u ∧ s'.arena.term? r = some u ∧
      s.Reaches s' Γ w' := by
  simp only [liftLets, runs_bind, runs_liftM, Prod.exists] at hrun
  obtain ⟨ds, inner, s₁, hchain, ⟨⟩, s₂, hclose, a, hlets, rfl⟩ := hrun
  obtain ⟨w', us, u, Δ, hc, hds, hinner, hΔ, h₁⟩ :=
    hlift.chain hR h (Substitution.means_empty _) he hchain
  have h₂ := reaches_closeBinders h₁.models hΔ hclose
  have hds' := hds.imp fun _ _ => And.imp_right h₂.isExtension.term?_eq_some
  obtain ⟨hgrow, hr⟩ := (ArenaM.builds_mkLets h₂.models.wellFormed
    (h₂.isExtension.term?_eq_some hinner) hds').of_eq_ok hlets
  exact ⟨w', _, .letIn hc, hr, h₂.models.grow hgrow,
    (h₁.trans h₂).isExtension.trans hgrow.isExtension⟩

theorem runs_fieldCount {params k : Nat} {c : Name}
    (hrun : (fieldCount params c).Runs ctx s k s') :
    s = s' ∧ Output.fieldCount? ctx.env params c = some k := by
  simp only [fieldCount, runs_bind, runs_read] at hrun
  obtain ⟨_, _, ⟨rfl, rfl⟩, hrun⟩ := hrun
  cases harity : ctx.env.arity? c with
  | none => simp [harity] at hrun
  | some arity =>
    simp only [harity] at hrun
    split at hrun
    · simp only [runs_bind, runs_throw, false_and, exists_false] at hrun
    · next hle =>
      obtain ⟨rfl, rfl⟩ := runs_pure.1 hrun
      exact ⟨rfl, by simp [Output.fieldCount?, harity, hle]⟩

theorem follows_arm (hlift : Simulates ctx lift R) (params : Nat) (Γ : Context) :
    Follows ctx (fun a x y => x.1 = y.1 ∧ a.term? x.2 = some y.2)
      (fun x : Name × ExprId => do liftArm lift (← fieldCount params x.1) x.2) Γ
      (Arm ctx R params Γ) := by
  rintro s s' w ⟨c, e⟩ ⟨_, t⟩ r h ⟨rfl, he⟩ hrun
  rw [runs_bind] at hrun
  obtain ⟨k, s₁, hcount, hrun⟩ := hrun
  obtain ⟨rfl, hk⟩ := runs_fieldCount hcount
  obtain ⟨w', u, hu, hr, h₁⟩ := hlift.arm h he hrun
  exact ⟨w', u, .intro hk hu, hr, h₁⟩

/-- The scrutinee, the arms and the extra arguments of a dispatch. -/
theorem exists_split_args {t : InductiveType} {args : List ExprId}
    (h : 1 + t.arms ≤ args.length) :
    ∃ scrut arms extra, args = scrut :: (arms ++ extra) ∧ arms.length = t.arms ∧
      args.drop (1 + t.arms) = extra ∧
      t.constructors.zip (args.drop 1) = t.constructors.zip arms := by
  obtain ⟨scrut, rest, rfl⟩ : ∃ e es, args = e :: es :=
    List.exists_cons_of_length_pos (by omega)
  have hlength : (rest.take t.arms).length = t.arms := by
    rw [List.length_cons] at h
    rw [List.length_take]
    omega
  refine ⟨scrut, rest.take t.arms, rest.drop t.arms, ?_, hlength, ?_, ?_⟩
  · rw [List.take_append_drop]
  · rw [Nat.add_comm, List.drop_succ_cons]
  · conv_lhs => rw [List.drop_one, List.tail_cons, ← List.take_append_drop t.arms rest]
    exact Arena.zip_append_of_length_eq hlength.symm _

theorem dispatch (hlift : Simulates ctx lift R) (h : s.Models Γ w) {c type : Name}
    (hc : ctx.env.kind? c = some (.dispatcher type)) {head : ExprId} {args : List ExprId}
    {xs : List Term} (hhead : s.arena.term? head = some (.global c))
    (hargs : s.arena.Denote args xs) (hrun : (liftDispatch lift c type head args).Runs ctx s r s') :
    ∃ w' u, Rule ctx R Γ w (Term.apply (.global c) xs) w' u ∧ s'.arena.term? r = some u ∧
      s.Reaches s' Γ w' := by
  simp only [liftDispatch, runs_bind, runs_read] at hrun
  obtain ⟨_, _, ⟨rfl, rfl⟩, hrun⟩ := hrun
  cases htype : ctx.env.type? type with
  | none => simp [htype] at hrun
  | some t =>
    simp only [htype] at hrun
    split at hrun
    · simp at hrun
    · next hlength =>
      simp only [runs_bind, runs_liftM] at hrun
      obtain ⟨scrut', s₁, hscrut', extra', s₂, hextra', arms', s₃, harms', a, hmk, rfl⟩ := hrun
      obtain ⟨scrut, arms, extra, rfl, harms, hdrop, hzip⟩ :=
        exists_split_args (Nat.not_lt.1 hlength)
      obtain ⟨x, _, hx, htail, rfl⟩ := List.forall₂_cons_left_iff.1 hargs
      obtain ⟨ys, zs, rfl, hys, hzs⟩ := Arena.Denote.exists_append htail
      -- The extra arguments are lifted before the arms.
      rw [hdrop] at hextra'
      rw [hzip] at harms'
      obtain ⟨w₁, us, hu, hscrut', h₁⟩ := hlift.mapM h (.cons hx .nil) hscrut'
      obtain ⟨w₂, zs', hzs', hextra', h₂⟩ :=
        hlift.mapM h₁.models (h₁.isExtension.denote hzs) hextra'
      have hzipped := Arena.forall₂_zip ((h₁.trans h₂).isExtension.denote hys) t.constructors
      obtain ⟨w₃, ys', hys', harms', h₃⟩ := (hlift.follows_arm t.params Γ).mapM
        (fun _ _ _ _ hab => And.imp_right hab.term?_eq_some) h₂.models hzipped harms'
      have hreach := (h₁.trans h₂).trans h₃
      obtain ⟨hgrow, hr⟩ := (ArenaM.builds_mkApp h₃.models.wellFormed
        (hreach.isExtension.term?_eq_some hhead)
        ((((h₂.trans h₃).isExtension.denote hscrut').append harms').append
          (h₃.isExtension.denote hextra'))).of_eq_ok hmk
      have hlength : ys.length = t.arms := hys.length_eq ▸ harms
      cases hu with
      | cons hu hnil =>
        cases hnil
        rw [List.append_assoc] at hr
        exact ⟨w₃, _, .dispatch hc htype hlength hu hzs' hys', hr, h₃.models.grow hgrow,
          hreach.isExtension.trans hgrow.isExtension⟩

/-- An application is kept if head and arguments have stayed the same, and built anew otherwise. -/
theorem reaches_rebuild (h : s.Models Γ w) {head head' : ExprId} {args args' : List ExprId}
    {f f' : Term} {xs xs' : List Term} (he : s.arena.term? e = some (f.apply xs))
    (hf : s.arena.term? head = some f) (hargs : s.arena.Denote args xs)
    (hf' : s.arena.term? head' = some f') (hargs' : s.arena.Denote args' xs')
    (hrun : Runs (if head' = head ∧ args' = args then return e
      else liftM (ArenaM.mkApp head' args')) ctx s r s') :
    s'.arena.term? r = some (f'.apply xs') ∧ s.Reaches s' Γ w := by
  split at hrun
  · next heq =>
    obtain ⟨rfl, rfl⟩ := heq
    obtain ⟨rfl, rfl⟩ := runs_pure.1 hrun
    rw [Option.some.inj (hf'.symm.trans hf), hargs'.unique hargs]
    exact ⟨he, .refl h⟩
  · rw [runs_liftM] at hrun
    obtain ⟨a, hmk, rfl⟩ := hrun
    obtain ⟨hgrow, hr⟩ := (ArenaM.builds_mkApp h.wellFormed hf' hargs').of_eq_ok hmk
    exact ⟨hr, h.grow hgrow, hgrow.isExtension⟩

theorem call (hlift : Simulates ctx lift R) (h : s.Models Γ w) {fuel : Nat} {head : ExprId}
    {args : List ExprId} {f : Term} {xs : List Term} (hn : s.arena.node? e = some (.app head args))
    (hf : s.arena.term? head = some f) (hargs : s.arena.Denote args xs)
    (hkind : ∀ c, f = .global c →
      ∃ k, ctx.kindAt? w.lifted c = some k ∧ ∀ type, k ≠ .dispatcher type)
    (hrun : (liftCall lift fuel e head args).Runs ctx s r s') :
    ∃ w' u, Rule ctx R Γ w (f.apply xs) w' u ∧ s'.arena.term? r = some u ∧
      s.Reaches s' Γ w' := by
  have he := h.wellFormed.term?_of_node? hn (.app hf hargs)
  simp only [liftCall, runs_bind, runs_liftM] at hrun
  obtain ⟨reduced, _, ⟨a, hreduce, rfl⟩, hrun⟩ := hrun
  obtain ⟨hgrow, v, hv, hnormal, hsteps⟩ := ArenaM.headReduce_eq_ok h.wellFormed he hreduce
  have h₁ := h.grow hgrow
  split at hrun
  · next hne =>
    obtain ⟨w', u, hu, hr, h₂⟩ := hlift Γ h₁ hv hrun
    exact ⟨w', u, .beta (hsteps.resolve_left hne) hnormal hu, hr, h₂.models,
      hgrow.isExtension.trans h₂.isExtension⟩
  · next heq =>
    obtain rfl := not_not.1 heq
    simp only [runs_bind] at hrun
    obtain ⟨head', s₂, hhead', args', s₃, hargs', hrun⟩ := hrun
    have hf₁ := hgrow.isExtension.term?_eq_some hf
    obtain ⟨w₂, f', hf', hterm, h₂⟩ := hlift Γ h₁ hf₁ hhead'
    obtain ⟨w₃, xs', hxs', hterms, h₃⟩ := hlift.mapM h₂.models
      (h₂.isExtension.denote (hgrow.isExtension.denote hargs)) hargs'
    have hreach : s.Reaches s₃ Γ w₃ :=
      ⟨h₃.models, hgrow.isExtension.trans (h₂.trans h₃).isExtension⟩
    obtain ⟨happ, hne⟩ := h.wellFormed.spine_of_node? hn hf hargs
    -- The term came back unreduced, so its head is no lambda.
    obtain rfl := Option.some.inj ((hgrow.isExtension.term?_eq_some he).symm.trans hv)
    have hlam := hnormal.isLambda_eq_false hne
    obtain ⟨hr, h₄⟩ := reaches_rebuild h₃.models (hreach.isExtension.term?_eq_some he)
      (hreach.isExtension.term?_eq_some hf) (hreach.isExtension.denote hargs)
      (h₃.isExtension.term?_eq_some hterm) hterms hrun
    exact ⟨w₃, _, .call happ hlam hne hkind hf' hxs', hr, hreach.trans h₄⟩

theorem runs_dispatcher? (h : s.Models Γ w) {head : ExprId} {f : Term} {r : Option (Name × Name)}
    (hf : s.arena.term? head = some f) (hrun : (dispatcher? head).Runs ctx s r s') :
    s = s' ∧ (∀ c type, r = some (c, type) →
        f = .global c ∧ ctx.env.kind? c = some (.dispatcher type)) ∧
      (r = none → ∀ c, f = .global c →
        ∃ k, ctx.kindAt? w.lifted c = some k ∧ ∀ type, k ≠ .dispatcher type) := by
  obtain ⟨n, hn⟩ := Arena.node?_of_term? hf
  rw [dispatcher?, runs_node_bind hn] at hrun
  cases h.wellFormed.shows_of_node? hf hn with
  | global c =>
    simp only [runs_bind] at hrun
    obtain ⟨k, s₁, hkind, hrun⟩ := hrun
    obtain ⟨rfl, hk⟩ := runs_kindOf h hkind
    cases k with
    | dispatcher type =>
      obtain ⟨rfl, rfl⟩ := runs_pure.1 hrun
      refine ⟨rfl, ?_, by simp⟩
      rintro _ _ ⟨⟩
      refine ⟨rfl, ?_⟩
      rw [LiftContext.kindAt?] at hk
      split at hk
      · next h => rw [h, hk]
      · split at hk <;> simp at hk
    | _ =>
      obtain ⟨rfl, rfl⟩ := runs_pure.1 hrun
      refine ⟨rfl, by simp, fun _ _ heq => ?_⟩
      cases heq
      exact ⟨_, hk, by simp⟩
  | app =>
    obtain ⟨g, x, heq⟩ := h.wellFormed.exists_eq_app hf hn
    obtain ⟨rfl, rfl⟩ := runs_pure.1 hrun
    exact ⟨rfl, by simp, by simp [heq]⟩
  | _ =>
    obtain ⟨rfl, rfl⟩ := runs_pure.1 hrun
    exact ⟨rfl, by simp, by simp⟩

theorem app (hlift : Simulates ctx lift R) (h : s.Models Γ w) {fuel : Nat} {head : ExprId}
    {args : List ExprId} {f : Term} {xs : List Term} (hn : s.arena.node? e = some (.app head args))
    (hf : s.arena.term? head = some f) (hargs : s.arena.Denote args xs)
    (hrun : (liftApp lift fuel e head args).Runs ctx s r s') :
    ∃ w' u, Rule ctx R Γ w (f.apply xs) w' u ∧ s'.arena.term? r = some u ∧
      s.Reaches s' Γ w' := by
  simp only [liftApp, runs_bind] at hrun
  obtain ⟨d?, s₁, hd, hrun⟩ := hrun
  obtain ⟨rfl, hsome, hnone⟩ := runs_dispatcher? h hf hd
  cases d? with
  | some d =>
    obtain ⟨c, type⟩ := d
    obtain ⟨rfl, hc⟩ := hsome c type rfl
    exact hlift.dispatch h hc hf hargs hrun
  | none => exact hlift.call h hn hf hargs (hnone rfl) hrun

end Simulates

theorem simulates_liftTerm (ctx : LiftContext) (fuel : Nat) :
    Simulates ctx (liftTerm fuel) (LiftsIn ctx fuel) := by
  induction fuel with
  | zero => exact fun Γ s s' w e t r _ _ hrun => absurd hrun runs_stop
  | succ fuel ih =>
    intro Γ s s' w e t r h he hrun
    have hR := LiftsIn.scoped ctx fuel
    obtain ⟨n, hn⟩ := Arena.node?_of_term? he
    rw [liftTerm, runs_node_bind hn] at hrun
    cases h.wellFormed.shows_of_node? he hn with
    | var x =>
      simp only [runs_bind, runs_state] at hrun
      obtain ⟨_, _, ⟨rfl, rfl⟩, hrun⟩ := hrun
      split at hrun
      · next hx =>
        obtain ⟨rfl, rfl⟩ := runs_pure.1 hrun
        exact ⟨w, _, .var (h.mem_ids_of_contains hx), he, .refl h⟩
      · exact absurd hrun runs_throw
    | global c =>
      obtain ⟨rfl, rfl⟩ := runs_pure.1 hrun
      exact ⟨w, _, .global c, he, .refl h⟩
    | lit l =>
      obtain ⟨rfl, rfl⟩ := runs_pure.1 hrun
      exact ⟨w, _, .lit l, he, .refl h⟩
    | app hf hxs => exact ih.app h hn hf hxs hrun
    | lam => exact ih.lambda hR h he hrun
    | letIn => exact ih.lets hR h he hrun

theorem liftsBody_of_liftBody {fuel : Nat} {e r : ExprId} {t : Term} (h : s.Models [] w)
    (he : s.arena.term? e = some t) (hrun : (liftBody fuel e).Runs ctx s r s') :
    ∃ w' u, LiftsBody ctx fuel w t w' u ∧ s'.arena.term? r = some u ∧ s.Reaches s' [] w' := by
  have hlift := simulates_liftTerm ctx fuel
  obtain ⟨n, hn⟩ := Arena.node?_of_term? he
  have hlam := h.wellFormed.isLambda_eq he hn
  rw [liftBody, runs_node_bind hn] at hrun
  cases n with
  | lam b body => exact hlift.underLambdas h he hrun
  | _ =>
    obtain ⟨w', u, hu, hr, h₁⟩ := hlift [] h he hrun
    have hpeels : Peels ctx.anonymous 0 .empty w.nextLocal t [] t := by
      simpa using Peels.done .empty w.nextLocal t
    refine ⟨w', u, ?_, hr, h₁⟩
    rw [LiftsBody, Term.leading_of_isLambda_eq_false hlam]
    exact .intro hpeels hu

end LiftM

end LambdaLifting
