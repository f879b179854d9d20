import LambdaLifting.Proofs.Orderly
import LambdaLifting.Proofs.Validation

namespace LambdaLifting

namespace LiftM

variable {α β : Type} {ctx : LiftContext} {s₀ s s' : LiftState} {Γ : Context} {w : Stage}

/-- Lifting as far as it is given by `lift` is orderly. -/
def Tends (ctx : LiftContext) (lift : ExprId → LiftM ExprId) : Prop :=
  ∀ ⦃Γ s₀ s w e t⦄, s.Models Γ w → s₀.Retains s → s.arena.term? e = some t →
    Orderly (lift e) ctx s₀ s

theorem Orderly.mapM {V : Arena → α → β → Prop} {f : α → LiftM ExprId}
    {J : Stage → β → Stage → Term → Prop} (hf : Follows ctx V f Γ J)
    (hV : ∀ ⦃a b x y⦄, a.Extends b → V a x y → V b x y)
    (horderly : ∀ ⦃s w x y⦄, s.Models Γ w → s₀.Retains s → V s.arena x y → Orderly (f x) ctx s₀ s)
    (h : s.Models Γ w) (hk : s₀.Retains s) {xs : List α} {ys : List β}
    (hxs : List.Forall₂ (V s.arena) xs ys) : Orderly (xs.mapM f) ctx s₀ s := by
  induction xs generalizing s w ys with
  | nil => exact orderly_pure ⟨h.disciplined, hk⟩ _
  | cons x xs ih =>
    obtain ⟨y, ys, hx, htail, rfl⟩ := List.forall₂_cons_left_iff.1 hxs
    rw [List.mapM_cons]
    refine (horderly h hk hx).bind fun r s₁ hrun hc => ?_
    obtain ⟨w₁, u, -, -, h₁⟩ := hf h hx hrun
    refine (ih h₁.models hc.retains (htail.imp fun _ _ => hV h₁.isExtension)).bind ?_
    exact fun rs s₂ _ hc => orderly_pure hc _

namespace Tends

variable {lift : ExprId → LiftM ExprId} {R : Judgment} {e : ExprId} {t : Term}

theorem mapM (horderly : Tends ctx lift) (hlift : Simulates ctx lift R) (h : s.Models Γ w)
    (hk : s₀.Retains s) {es : List ExprId} {ts : List Term} (hes : s.arena.Denote es ts) :
    Orderly (es.mapM lift) ctx s₀ s :=
  Orderly.mapM (hlift Γ) (fun _ _ _ _ hab => hab.term?_eq_some)
    (fun _ _ _ _ h hk he => horderly h hk he) h hk hes

theorem under (horderly : Tends ctx lift) (hlift : Simulates ctx lift R)
    (hout : ∀ x d, s₀.scope.find? x = some d → x ∈ Γ.ids) {bs : List Binder} {inner : ExprId}
    {v : Term} (h : s.Models (Γ.enter bs) w) (hk : s₀.Retains s)
    (hinner : s.arena.term? inner = some v) :
    Orderly (do
      let body ← lift inner
      closeBinders bs
      liftM (ArenaM.mkLambdas bs body)) ctx s₀ s := by
  refine (horderly h hk hinner).bind fun body s₁ hrun hc => ?_
  obtain ⟨w₁, u, -, hu, h₁⟩ := hlift _ h hinner hrun
  have hmodels := h₁.models
  rw [Context.enter_eq_append] at hmodels
  have hids : ∀ x, x ∈ bs.map Binder.id ↔
      x ∈ Context.ids (bs.map fun b => Entry.mk b.id b.name none).reverse := by
    simp [Context.ids]
  have h₂ := hmodels.leave hids
  have hc₂ := hmodels.continues_leave hc.retains hout hids
  refine Orderly.update_bind (.remove _) hc (orderly_liftM hc₂
    (ArenaM.builds_mkLambdas h₂.wellFormed hu bs) fun r a hr => ?_)
  exact ⟨(h₂.grow hr.1).disciplined, hc₂.retains⟩

theorem underLambdas (horderly : Tends ctx lift) (hlift : Simulates ctx lift R) (h : s.Models Γ w)
    (hk : s₀.Retains s) (he : s.arena.term? e = some t) (fuel : Nat) :
    Orderly (liftUnderLambdas lift fuel e) ctx s₀ s := by
  refine (orderly_openLambdas h hk (Substitution.means_empty _) he fuel).bind
    fun r s₁ hopen hc => ?_
  obtain ⟨v, -, hv, h₁⟩ := peels_of_openLambdas h (Substitution.means_empty _) he hopen
  exact horderly.under hlift (h.mem_ids_of_retains hk) h₁.models hc.retains hv

theorem arm (horderly : Tends ctx lift) (hlift : Simulates ctx lift R) (h : s.Models Γ w)
    (hk : s₀.Retains s) (he : s.arena.term? e = some t) (fields : Nat) :
    Orderly (liftArm lift fields e) ctx s₀ s := by
  refine (orderly_openFields h hk (Substitution.means_empty _) he fields).bind
    fun r s₁ hopen hc => ?_
  obtain ⟨v, -, hv, h₁⟩ := peels_of_openFields h (Substitution.means_empty _) he hopen
  have h₂ := h₁.models.emit (s₁.events.push (.enteredArm fields))
  exact Orderly.update_bind (.event _) hc
    (horderly.under hlift (h.mem_ids_of_retains hk) h₂ hc.retains hv)

theorem lambda (horderly : Tends ctx lift) (hlift : Simulates ctx lift R) (hR : R.Scopes)
    (h : s.Models Γ w) (hk : s₀.Retains s) (he : s.arena.term? e = some t) (fuel : Nat) :
    Orderly (liftLambda lift fuel e) ctx s₀ s := by
  refine (horderly.underLambdas hlift h hk he fuel).bind fun lifted s₁ hunder hc₁ => ?_
  obtain ⟨w₁, v, hv, hlifted, h₁⟩ := hlift.underLambdas h he hunder
  have htidy := (hR.under _ h.isScoped hv).2
  refine (orderly_closeOver h₁.models hc₁.retains hlifted htidy.mem_ids).bind
    fun r s₂ hclose hc₂ => ?_
  obtain ⟨c, k, -, hclosed, h₂⟩ := closes_of_closeOver h₁.models hlifted htidy.mem_ids hclose
  refine (orderly_callee h₂.models hc₂.retains hclosed fuel).bind fun head s₃ hcallee hc₃ => ?_
  obtain ⟨w₃, f, -, hhead, h₃⟩ := calls_of_callee h₂.models hclosed hcallee
  refine (orderly_mapM_mkVar h₃.models hc₃.retains _).bind fun args s₄ hargs hc₄ => ?_
  obtain ⟨hdenote, h₄⟩ := Simulates.denote_of_mapM_mkVar h₃.models hargs
  have h₅ := h₄.models.emit (s₄.events.push (.replaced r.2.length))
  refine Orderly.update_bind (.event _) hc₄ (orderly_liftM ⟨h₅.disciplined, hc₄.retains⟩
    (ArenaM.builds_mkApp h₅.wellFormed (h₄.isExtension.term?_eq_some hhead) hdenote)
    fun e a he => ⟨(h₅.grow he.1).disciplined, hc₄.retains⟩)

theorem chain (horderly : Tends ctx lift) (hlift : Simulates ctx lift R) (hR : R.Scopes)
    {S : Substitution} {σ : Replacement} (h : s.Models Γ w) (hk : s₀.Retains s)
    (hS : S.Means s.arena σ) (he : s.arena.term? e = some t) (fuel : Nat) :
    Orderly (liftChain lift fuel S e) ctx s₀ s := by
  induction fuel generalizing s Γ w S σ e t with
  | zero => exact orderly_stop ⟨h.disciplined, hk⟩
  | succ fuel ih =>
    obtain ⟨n, hn⟩ := Arena.node?_of_term? he
    rw [liftChain]
    refine Orderly.node_bind ⟨h.disciplined, hk⟩ hn ?_
    cases h.wellFormed.shows_of_node? he hn with
    | @letIn b value body v u hv hu =>
      refine Orderly.arena_bind ⟨h.disciplined, hk⟩ (ArenaM.builds_substitute h.wellFormed hS hv)
        fun e' a hbuilt => ?_
      obtain ⟨hgrow, he'⟩ := hbuilt
      refine (horderly (h.grow hgrow) hk he').bind fun value' s₁ hvalue hc₁ => ?_
      obtain ⟨w₁, v', hv', hterm, h₁⟩ := hlift Γ (h.grow hgrow) he' hvalue
      have htidy := (hR h.isScoped hv').2
      have hdecl : ∀ t, some v' = some t → (∀ x ∈ t.occurrences, x ∈ Γ.ids) ∧
          ∀ x ∈ t.binders, x.index < w₁.nextLocal :=
        fun _ h => Option.some.inj h ▸ ⟨htidy.mem_ids, htidy.binder_lt⟩
      have hshow : (some value' = none ∧ some v' = none) ∨ ∃ e t, some value' = some e ∧
          some v' = some t ∧ s₁.arena.term? e = some t := .inr ⟨value', v', rfl, rfl, hterm⟩
      refine (orderly_openBinder h₁.models hc₁.retains _ hshow hdecl).bind
        fun r s₂ hopen hc₂ => ?_
      obtain ⟨fresh, x⟩ := r
      obtain ⟨rfl, hx, h₂⟩ := reaches_openBinder h₁.models hshow hdecl hopen
      have hext := hgrow.isExtension.trans (h₁.trans h₂).isExtension
      refine (ih h₂.models hc₂.retains ((hS.mono hext).insert b.id hx)
        (hext.term?_eq_some hu)).bind fun _ s₃ _ hc => orderly_pure hc _
    | _ =>
      refine Orderly.arena_bind ⟨h.disciplined, hk⟩ (ArenaM.builds_substitute h.wellFormed hS he)
        fun e' a hbuilt => ?_
      exact (horderly (h.grow hbuilt.1) hk hbuilt.2).bind fun _ s₂ _ hc => orderly_pure hc _

theorem lets (horderly : Tends ctx lift) (hlift : Simulates ctx lift R) (hR : R.Scopes)
    (h : s.Models Γ w) (hk : s₀.Retains s) (he : s.arena.term? e = some t) (fuel : Nat) :
    Orderly (liftLets lift fuel e) ctx s₀ s := by
  have hempty := Substitution.means_empty s.arena
  refine (horderly.chain hlift hR h hk hempty he fuel).bind fun r s₁ hchain hc => ?_
  obtain ⟨ds, inner⟩ := r
  obtain ⟨w', us, u, Δ, -, hds, hinner, hΔ, h₁⟩ := hlift.chain hR h hempty he hchain
  have h₂ := h₁.models.leave hΔ
  have hc₂ := h₁.models.continues_leave hc.retains (h.mem_ids_of_retains hk) hΔ
  refine Orderly.update_bind (.remove _) hc (orderly_liftM hc₂
    (ArenaM.builds_mkLets h₂.wellFormed hinner hds) fun r a hr => ?_)
  exact ⟨(h₂.grow hr.1).disciplined, hc₂.retains⟩

theorem orderly_fieldCount (hc : s₀.Continues s) (params : Nat) (c : Name) :
    Orderly (fieldCount params c) ctx s₀ s := by
  refine Orderly.read_bind hc ?_
  split
  · exact orderly_throw hc _
  · split
    · exact (orderly_throw hc _).bind fun _ s₁ _ hc => orderly_pure hc _
    · exact orderly_pure hc _

theorem dispatch (horderly : Tends ctx lift) (hlift : Simulates ctx lift R) (h : s.Models Γ w)
    (hk : s₀.Retains s) {c type : Name} {head : ExprId} {args : List ExprId} {f : Term}
    {xs : List Term} (hhead : s.arena.term? head = some f) (hargs : s.arena.Denote args xs) :
    Orderly (liftDispatch lift c type head args) ctx s₀ s := by
  have hc : s₀.Continues s := ⟨h.disciplined, hk⟩
  refine Orderly.read_bind hc ?_
  cases htype : ctx.env.type? type with
  | none => exact orderly_throw hc _
  | some ty =>
    dsimp only
    split
    · exact (orderly_throw hc _).bind fun _ s₁ hrun _ => absurd hrun runs_throw
    · next hlength =>
      obtain ⟨scrut, arms, extra, rfl, -, hdrop, hzip⟩ :=
        Simulates.exists_split_args (Nat.not_lt.1 hlength)
      obtain ⟨x, _, hx, htail, rfl⟩ := List.forall₂_cons_left_iff.1 hargs
      obtain ⟨ys, zs, rfl, hys, hzs⟩ := Arena.Denote.exists_append htail
      rw [hdrop, hzip]
      refine (horderly.mapM hlift h hk (.cons hx .nil)).bind fun scrut' s₁ hrun hc₁ => ?_
      obtain ⟨w₁, us, -, hscrut', h₁⟩ := hlift.mapM h (.cons hx .nil) hrun
      have hzs₁ := h₁.isExtension.denote hzs
      refine (horderly.mapM hlift h₁.models hc₁.retains hzs₁).bind fun extra' s₂ hrun hc₂ => ?_
      obtain ⟨w₂, vs, -, hextra', h₂⟩ := hlift.mapM h₁.models hzs₁ hrun
      have hV : ∀ ⦃a b : Arena⦄ ⦃p : Name × ExprId⦄ ⦃y : Name × Term⦄, a.Extends b →
          p.1 = y.1 ∧ a.term? p.2 = some y.2 → p.1 = y.1 ∧ b.term? p.2 = some y.2 :=
        fun _ _ _ _ hab => And.imp_right hab.term?_eq_some
      have hfollows := hlift.follows_arm ty.params Γ
      have hzipped := Arena.forall₂_zip ((h₁.trans h₂).isExtension.denote hys) ty.constructors
      refine Orderly.bind (Orderly.mapM hfollows hV ?_ h₂.models hc₂.retains hzipped)
        fun arms' s₃ hrun hc₃ => ?_
      · rintro s w ⟨d, e⟩ ⟨_, t⟩ h hk ⟨rfl, he⟩
        refine (orderly_fieldCount ⟨h.disciplined, hk⟩ ty.params d).bind fun k s₁ hcount hc => ?_
        obtain ⟨rfl, -⟩ := Simulates.runs_fieldCount hcount
        exact horderly.arm hlift h hk he k
      · obtain ⟨w₃, us', -, harms', h₃⟩ := hfollows.mapM hV h₂.models hzipped hrun
        have hhead₃ := ((h₁.trans h₂).trans h₃).isExtension.term?_eq_some hhead
        refine orderly_liftM hc₃ (ArenaM.builds_mkApp h₃.models.wellFormed hhead₃
          ((((h₂.trans h₃).isExtension.denote hscrut').append harms').append
            (h₃.isExtension.denote hextra'))) fun r a hr => ?_
        exact ⟨(h₃.models.grow hr.1).disciplined, hc₃.retains⟩

theorem call (horderly : Tends ctx lift) (hlift : Simulates ctx lift R) (h : s.Models Γ w)
    (hk : s₀.Retains s) {head : ExprId} {args : List ExprId} {f : Term} {xs : List Term}
    (hn : s.arena.node? e = some (.app head args)) (hf : s.arena.term? head = some f)
    (hargs : s.arena.Denote args xs) (fuel : Nat) :
    Orderly (liftCall lift fuel e head args) ctx s₀ s := by
  have he := h.wellFormed.term?_of_node? hn (.app hf hargs)
  have hreduce : Orderly (onArena (ArenaM.headReduce fuel e)) ctx s₀ s := by
    refine orderly_onArena ⟨h.disciplined, hk⟩ (fun r a hrun => ?_) fun f hrun => ?_
    · obtain ⟨hgrow, -⟩ := ArenaM.headReduce_eq_ok h.wellFormed he hrun
      exact ⟨(h.grow hgrow).disciplined, hk⟩
    · simp [ArenaM.eq_outOfFuel_of_headReduce h.wellFormed he hrun]
  refine hreduce.bind fun reduced s₁ hrun hc₁ => ?_
  obtain ⟨a, hred, rfl⟩ := runs_liftM.1 hrun
  obtain ⟨hgrow, v, hv, -, -⟩ := ArenaM.headReduce_eq_ok h.wellFormed he hred
  have h₁ := h.grow hgrow
  split
  · exact horderly h₁ hk hv
  · refine (horderly h₁ hk (hgrow.isExtension.term?_eq_some hf)).bind fun head' s₂ hrun hc₂ => ?_
    obtain ⟨w₂, f', -, hf', h₂⟩ := hlift Γ h₁ (hgrow.isExtension.term?_eq_some hf) hrun
    have hargs₂ := h₂.isExtension.denote (hgrow.isExtension.denote hargs)
    refine (horderly.mapM hlift h₂.models hc₂.retains hargs₂).bind fun args' s₃ hrun hc₃ => ?_
    obtain ⟨w₃, xs', -, hargs', h₃⟩ := hlift.mapM h₂.models hargs₂ hrun
    split
    · exact orderly_pure hc₃ _
    · refine orderly_liftM hc₃ (ArenaM.builds_mkApp h₃.models.wellFormed
        (h₃.isExtension.term?_eq_some hf') hargs') fun r a hr => ?_
      exact ⟨(h₃.models.grow hr.1).disciplined, hc₃.retains⟩

theorem orderly_dispatcher? (h : s.Models Γ w) (hk : s₀.Retains s) {head : ExprId} {f : Term}
    (hf : s.arena.term? head = some f) : Orderly (dispatcher? head) ctx s₀ s := by
  have hc : s₀.Continues s := ⟨h.disciplined, hk⟩
  obtain ⟨n, hn⟩ := Arena.node?_of_term? hf
  refine Orderly.node_bind hc hn ?_
  cases n with
  | global c =>
    refine (orderly_kindOf hc c).bind fun k s₁ _ hc => ?_
    cases k <;> exact orderly_pure hc _
  | _ => exact orderly_pure hc _

theorem app (horderly : Tends ctx lift) (hlift : Simulates ctx lift R) (h : s.Models Γ w)
    (hk : s₀.Retains s) {head : ExprId} {args : List ExprId} {f : Term} {xs : List Term}
    (hn : s.arena.node? e = some (.app head args)) (hf : s.arena.term? head = some f)
    (hargs : s.arena.Denote args xs) (fuel : Nat) :
    Orderly (liftApp lift fuel e head args) ctx s₀ s := by
  refine (orderly_dispatcher? h hk hf).bind fun d? s₁ hrun hc => ?_
  obtain ⟨rfl, -⟩ := Simulates.runs_dispatcher? h hf hrun
  cases d? with
  | some d => exact horderly.dispatch hlift h hk hf hargs
  | none => exact horderly.call hlift h hk hn hf hargs fuel

end Tends

end LiftM

namespace LiftM

/-- The routines that lift a term and leave the scope again that they enter for it. -/
inductive Visits (n : Nat) (e : ExprId) : LiftM ExprId → Prop where
  | term : Visits n e (liftTerm n e)
  | underLambdas : Visits n e (liftUnderLambdas (liftTerm n) n e)
  | lets : Visits n e (liftLets (liftTerm n) n e)
  | arm (fields : Nat) : Visits n e (liftArm (liftTerm n) fields e)

variable {ctx : LiftContext} {s₀ s s' : LiftState} {Γ : Context} {w : Stage} {n : Nat}
  {e r : ExprId} {t : Term} {x : LiftM ExprId}

theorem exists_term_of_liftTerm (hs : s.arena.WellFormed)
    (hrun : (liftTerm n e).Runs ctx s r s') : ∃ t, s.arena.term? e = some t := by
  cases n with
  | zero => exact absurd hrun runs_stop
  | succ n => exact exists_term_of_runs_node hs hrun

namespace Visits

theorem exists_term (hx : Visits n e x) (hs : s.arena.WellFormed) (hrun : x.Runs ctx s r s') :
    ∃ t, s.arena.term? e = some t := by
  cases hx with
  | term => exact exists_term_of_liftTerm hs hrun
  | underLambdas =>
    rw [liftUnderLambdas, runs_bind] at hrun
    obtain ⟨_, _, hopen, -⟩ := hrun
    cases n with
    | zero => exact absurd hopen runs_stop
    | succ n => exact exists_term_of_runs_node hs hopen
  | lets =>
    rw [liftLets, runs_bind] at hrun
    obtain ⟨_, _, hchain, -⟩ := hrun
    cases n with
    | zero => exact absurd hchain runs_stop
    | succ n => exact exists_term_of_runs_node hs hchain
  | arm fields =>
    rw [liftArm, runs_bind] at hrun
    obtain ⟨_, _, hopen, hrun⟩ := hrun
    cases fields with
    | zero =>
      -- Without fields to open, the arm itself is lifted next.
      simp only [openFields, ArenaM.substitute, Std.TreeMap.isEmpty_emptyc, if_true, runs_bind,
        runs_liftM, runs_pure] at hopen
      obtain ⟨_, _, ⟨_, hsame, rfl⟩, rfl, rfl⟩ := hopen
      cases hsame
      simp only [emit, runs_bind, runs_update] at hrun
      obtain ⟨-, _, rfl, _, _, hlift, -⟩ := hrun
      have hterm := exists_term_of_liftTerm (by exact hs) hlift
      exact hterm
    | succ fields => exact exists_term_of_runs_node hs hopen

end Visits

end LiftM

namespace Program

variable {fuel : Nat} {env : Environment} {p : Program} {names : NameSource}

end Program

end LambdaLifting
