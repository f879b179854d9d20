import LambdaLifting.Proofs.Programs

namespace LambdaLifting

theorem LiftState.Models.isEmpty_scope {s : LiftState} {w : Stage} (h : s.Models [] w) :
    s.scope.isEmpty = true := by
  obtain ⟨ds, hds, hshow⟩ := h.inScope
  cases hshow
  refine Std.TreeMap.isEmpty_iff_forall_not_mem.2 fun x hx => ?_
  rw [Std.TreeMap.mem_iff_isSome_getElem?] at hx
  have hnone : s.scope.decls[x]? = none := hds.find?_eq x
  simp [hnone] at hx

namespace LiftM

variable {α β : Type} {ctx : LiftContext} {s s' : LiftState} {Γ : Context} {w : Stage}

/-- A computation ends with an answer, or with a failure in `P`. -/
def Ends (P : Fault ⊕ LiftError → Prop) (x : LiftM α) (ctx : LiftContext) (s : LiftState) : Prop :=
  match x ctx s with
  | .error f => P (.inl f)
  | .ok (.error err, _) => P (.inr err)
  | .ok (.ok _, _) => True

variable {P : Fault ⊕ LiftError → Prop}

theorem ends_pure (v : α) : Ends P (Pure.pure v : LiftM α) ctx s := trivial

theorem Ends.bind {x : LiftM α} {f : α → LiftM β} (hx : Ends P x ctx s)
    (hf : ∀ v s₁, x.Runs ctx s v s₁ → Ends P (f v) ctx s₁) : Ends P (x >>= f) ctx s := by
  rcases hrun : x ctx s with fault | ⟨err | v, s₁⟩
  · rw [Ends, hrun] at hx
    rwa [Ends, bind_of_fault hrun]
  · rw [Ends, hrun] at hx
    rwa [Ends, bind_of_error hrun]
  · rw [Ends, bind_of_runs hrun]
    exact hf v s₁ hrun

theorem Ends.read_bind {f : LiftContext → LiftM β} (hf : Ends P (f ctx) ctx s) :
    Ends P (read >>= f) ctx s := by
  refine Ends.bind (x := read) trivial fun v s₁ hrun => ?_
  obtain ⟨rfl, rfl⟩ := runs_read.1 hrun
  exact hf

theorem Ends.state_bind {f : LiftState → LiftM β} (hf : Ends P (f s) ctx s) :
    Ends P (state >>= f) ctx s := by
  refine Ends.bind (x := state) trivial fun v s₁ hrun => ?_
  obtain ⟨rfl, rfl⟩ := runs_state.1 hrun
  exact hf

theorem ends_update (f : LiftState → LiftState) : Ends P (update f) ctx s := trivial

/-- Continue after a computation on the arena that ends with an answer, of which something is
known. -/
theorem Ends.arena_bind {x : ArenaM α} {Q : α → Arena → Prop} (hx : Yields x s.arena Q)
    {f : α → LiftM β} (hf : ∀ v a, Q v a → Ends P (f v) ctx { s with arena := a }) :
    Ends P ((liftM x : LiftM α) >>= f) ctx s := by
  obtain ⟨v, a, hv, hQ⟩ := hx
  have hruns : (liftM x : LiftM α).Runs ctx s v { s with arena := a } := runs_liftM.2 ⟨a, hv, rfl⟩
  have hends : Ends P (liftM x : LiftM α) ctx s := by rw [Ends, hruns]; trivial
  refine hends.bind fun u s₁ hrun => ?_
  cases hruns.symm.trans hrun
  exact hf v a hQ

theorem Ends.node_bind {e : ExprId} {n : Node} (hn : s.arena.node? e = some n)
    {f : Node → LiftM β} (hf : Ends P (f n) ctx s) :
    Ends P ((liftM (ArenaM.node e) : LiftM Node) >>= f) ctx s := by
  rw [Ends, node_bind_eq hn]
  exact hf

theorem Ends.ask_bind {q : Arena → Except Fault α} {v : α} (hq : q s.arena = .ok v)
    {f : α → LiftM β} (hf : Ends P (f v) ctx s) :
    Ends P ((liftM (ArenaM.ask q) : LiftM α) >>= f) ctx s := by
  rw [Ends, bind_of_runs (runs_liftM.2 ⟨s.arena, ArenaM.ask_eq_ok hq, rfl⟩)]
  exact hf

/-- A list is treated to the end if its members are. `K` says what they need, as long as they are
pending. -/
theorem Ends.mapM {V : Arena → α → β → Prop} {f : α → LiftM ExprId}
    {J : Stage → β → Stage → Term → Prop} {K : Stage → List β → Prop} (hf : Follows ctx V f Γ J)
    (hV : ∀ ⦃a b x y⦄, a.Extends b → V a x y → V b x y)
    (hends : ∀ ⦃s w x y ys⦄, s.Models Γ w → V s.arena x y → K w (y :: ys) → Ends P (f x) ctx s)
    (hkeeps : ∀ ⦃w y w' u ys⦄, J w y w' u → K w (y :: ys) → K w' ys) (h : s.Models Γ w)
    {xs : List α} {ys : List β} (hxs : List.Forall₂ (V s.arena) xs ys) (hys : K w ys) :
    Ends P (xs.mapM f) ctx s := by
  induction xs generalizing s w ys with
  | nil => exact ends_pure _
  | cons x xs ih =>
    obtain ⟨y, ys, hx, htail, rfl⟩ := List.forall₂_cons_left_iff.1 hxs
    rw [List.mapM_cons]
    refine (hends h hx hys).bind fun r s₁ hrun => ?_
    obtain ⟨w₁, u, hu, -, h₁⟩ := hf h hx hrun
    refine (ih h₁.models (htail.imp fun _ _ => hV h₁.isExtension) (hkeeps hu hys)).bind ?_
    exact fun rs s₂ _ => ends_pure _

theorem ends_liftM {x : ArenaM α} {Q : α → Arena → Prop} (hx : Yields x s.arena Q) :
    Ends P (liftM x : LiftM α) ctx s := by
  obtain ⟨v, a, hv, -⟩ := hx
  have hruns : (liftM x : LiftM α).Runs ctx s v { s with arena := a } := runs_liftM.2 ⟨a, hv, rfl⟩
  rw [Ends, hruns]
  trivial

theorem ends_openBinder (h : s.arena.WellFormed) (name : Name) (value : Option ExprId) :
    Ends P (openBinder name value) ctx s := by
  refine Ends.arena_bind (ArenaM.yields_newBinder h name) fun b a hb => ?_
  refine Ends.arena_bind (s := { s with arena := a }) (ArenaM.builds_mkVar hb.2.2.1 b.id) ?_
  intro x a' _
  exact (ends_update _).bind fun _ s₁ _ => ends_pure _

section Opening

variable {S : Substitution} {σ : Replacement} {e : ExprId} {t : Term}

theorem ends_openLambdas (h : s.Models Γ w) (hS : S.Means s.arena σ)
    (he : s.arena.term? e = some t) {fuel : Nat} (hfuel : t.leading < fuel) :
    Ends P (openLambdas fuel S e) ctx s := by
  induction fuel generalizing s Γ w S σ e t with
  | zero => omega
  | succ fuel ih =>
    obtain ⟨n, hn⟩ := Arena.node?_of_term? he
    refine Ends.node_bind hn ?_
    cases h.wellFormed.shows_of_node? he hn with
    | @lam b body v hv =>
      refine (ends_openBinder h.wellFormed _ _).bind fun r s₁ hopen => ?_
      obtain ⟨fresh, x⟩ := r
      obtain ⟨rfl, hx, h₁⟩ := reaches_openBinder h (.inl ⟨rfl, rfl⟩) (by simp) hopen
      have hS₁ := (hS.mono h₁.isExtension).insert b.id hx
      have hv₁ := h₁.isExtension.term?_eq_some hv
      refine (ih h₁.models hS₁ hv₁ ?_).bind fun _ s₂ _ => ends_pure _
      exact Nat.lt_of_succ_lt_succ hfuel
    | _ =>
      refine Ends.arena_bind (ArenaM.builds_substitute h.wellFormed hS he) fun _ a _ => ?_
      exact ends_pure _

theorem ends_openFields (h : s.Models Γ w) (hS : S.Means s.arena σ)
    (he : s.arena.term? e = some t) (fields : Nat) : Ends P (openFields fields S e) ctx s := by
  induction fields generalizing s Γ w S σ e t with
  | zero =>
    refine Ends.arena_bind (ArenaM.builds_substitute h.wellFormed hS he) fun _ a _ => ?_
    exact ends_pure _
  | succ fields ih =>
    obtain ⟨n, hn⟩ := Arena.node?_of_term? he
    refine Ends.node_bind hn ?_
    cases h.wellFormed.shows_of_node? he hn with
    | @lam b body v hv =>
      refine (ends_openBinder h.wellFormed _ _).bind fun r s₁ hopen => ?_
      obtain ⟨fresh, x⟩ := r
      obtain ⟨rfl, hx, h₁⟩ := reaches_openBinder h (.inl ⟨rfl, rfl⟩) (by simp) hopen
      have hS₁ := (hS.mono h₁.isExtension).insert b.id hx
      have hv₁ := h₁.isExtension.term?_eq_some hv
      exact (ih h₁.models hS₁ hv₁).bind fun _ s₂ _ => ends_pure _
    | _ =>
      refine Ends.read_bind ((ends_openBinder h.wellFormed _ _).bind fun r s₁ hopen => ?_)
      obtain ⟨fresh, x⟩ := r
      obtain ⟨rfl, hx, h₁⟩ := reaches_openBinder h (.inl ⟨rfl, rfl⟩) (by simp) hopen
      refine Ends.arena_bind (ArenaM.builds_mkApp h₁.models.wellFormed
        (h₁.isExtension.term?_eq_some he) (.cons hx .nil)) fun e' a he' => ?_
      have hS₁ := hS.mono (h₁.isExtension.trans he'.1.isExtension)
      exact (ih (h₁.models.grow he'.1) hS₁ he'.2).bind fun _ s₂ _ => ends_pure _

end Opening

theorem ends_closeOver (h : s.Models Γ w) {e : ExprId} {t : Term}
    (he : s.arena.term? e = some t) (ht : ∀ x ∈ t.occurrences, x ∈ Γ.ids) :
    Ends P (closeOver e) ctx s := by
  obtain ⟨_, _, _, _, _, hrun, -⟩ := runs_closeOver_of_models ctx h he ht
  rw [Ends, hrun]
  trivial

theorem ends_mapM_mkVar (h : s.Models Γ w) (xs : List LocalId) :
    Ends P (xs.mapM fun x => onArena (ArenaM.mkVar x)) ctx s := by
  induction xs generalizing s with
  | nil => exact ends_pure _
  | cons x xs ih =>
    rw [List.mapM_cons]
    refine Ends.arena_bind (ArenaM.builds_mkVar h.wellFormed x) fun e a he => ?_
    exact (ih (h.grow he.1)).bind fun _ s₂ _ => ends_pure _

section Lift

variable {lift : ExprId → LiftM ExprId} {R : Judgment}

theorem Ends.under (hlift : Simulates ctx lift R) (h : s.Models Γ w) {inner : ExprId} {v : Term}
    (hinner : s.arena.term? inner = some v) (hends : Ends P (lift inner) ctx s)
    (bs : List Binder) :
    Ends P (do
      let body ← lift inner
      closeBinders bs
      liftM (ArenaM.mkLambdas bs body)) ctx s := by
  refine hends.bind fun body s₁ hrun => ?_
  obtain ⟨w₁, u, -, hu, h₁⟩ := hlift Γ h hinner hrun
  refine (ends_update _).bind fun _ s₂ hclose => ?_
  rw [runs_update] at hclose
  subst hclose
  exact ends_liftM (ArenaM.builds_mkLambdas h₁.models.wellFormed hu bs)

/-- Lifting ends on the first of the terms that are pending. `K` says what pending terms need, and
pending arms of a dispatch, which come last. -/
structure Handles (P : Fault ⊕ LiftError → Prop) (ctx : LiftContext)
    (lift : ExprId → LiftM ExprId) (R : Judgment) (Γ : Context)
    (K : Stage → List Term → List (Name × Term) → Prop) : Prop where
  simulates : Simulates ctx lift R
  ends : ∀ ⦃s w e t ts ys⦄, s.Models Γ w → s.arena.term? e = some t → K w (t :: ts) ys →
    Ends P (lift e) ctx s
  keeps : ∀ ⦃w t w' u ts ys⦄, R Γ w t w' u → K w (t :: ts) ys → K w' ts ys

namespace Handles

variable {K : Stage → List Term → List (Name × Term) → Prop} {ys : List (Name × Term)}

/-- Each term needs `N` and each arm `A`, and they keep these until it is their turn. -/
theorem of_forall {N : Stage → Term → Prop} {A : Stage → Name × Term → Prop}
    (hlift : Simulates ctx lift R)
    (hends : ∀ ⦃s w e t⦄, s.Models Γ w → s.arena.term? e = some t → N w t → Ends P (lift e) ctx s)
    (hN : ∀ ⦃w t w' u⦄, R Γ w t w' u → N w t → ∀ ⦃z⦄, N w z → N w' z)
    (hA : ∀ ⦃w t w' u⦄, R Γ w t w' u → N w t → ∀ ⦃y⦄, A w y → A w' y) :
    Handles P ctx lift R Γ fun w ts ys => (∀ t ∈ ts, N w t) ∧ ∀ y ∈ ys, A w y where
  simulates := hlift
  ends _ _ _ t _ _ h he hK := hends h he (hK.1 t List.mem_cons_self)
  keeps _ t _ _ _ _ hu hK := by
    obtain ⟨ht, hts⟩ := List.forall_mem_cons.1 hK.1
    exact ⟨fun z hz => hN hu ht (hts z hz), fun y hy => hA hu ht (hK.2 y hy)⟩

theorem mapM (h : Handles P ctx lift R Γ K) (hs : s.Models Γ w) {es : List ExprId}
    {ts : List Term} (hes : s.arena.Denote es ts) (hts : K w ts ys) :
    Ends P (es.mapM lift) ctx s :=
  Ends.mapM (K := fun w ts => K w ts ys) (h.simulates Γ) (fun _ _ _ _ hab => hab.term?_eq_some)
    (fun _ _ _ _ _ hs he hK => h.ends hs he hK) (fun _ _ _ _ _ hu hK => h.keeps hu hK) hs hes hts

theorem keeps_each (h : Handles P ctx lift R Γ K) {w' : Stage} {ts us zs : List Term}
    (heach : Each (R Γ) w ts w' us) (hts : K w (ts ++ zs) ys) : K w' zs ys := by
  induction heach with
  | nil => exact hts
  | cons hu _ ih => exact ih (h.keeps hu hts)

theorem rebuild (h : Handles P ctx lift R Γ K) (hs : s.Models Γ w) {head : ExprId}
    {args : List ExprId} {f : Term} {xs : List Term} (hf : s.arena.term? head = some f)
    (hargs : s.arena.Denote args xs) (hK : K w (f :: xs) []) (e : ExprId) :
    Ends P (do
      let head' ← lift head
      let args' ← args.mapM lift
      if head' = head ∧ args' = args then return e
      else liftM (ArenaM.mkApp head' args')) ctx s := by
  refine (h.ends hs hf hK).bind fun head' s₁ hrun => ?_
  obtain ⟨w₁, f', hu, hf', h₁⟩ := h.simulates Γ hs hf hrun
  have hargs₁ := h₁.isExtension.denote hargs
  refine (h.mapM h₁.models hargs₁ (h.keeps hu hK)).bind fun args' s₂ hrun => ?_
  obtain ⟨w₂, xs', -, hargs', h₂⟩ := h.simulates.mapM h₁.models hargs₁ hrun
  split
  · exact ends_pure _
  · exact ends_liftM (ArenaM.builds_mkApp h₂.models.wellFormed
      (h₂.isExtension.term?_eq_some hf') hargs')

theorem dispatch (h : Handles P ctx lift R Γ K)
    {type : Name} {ty : InductiveType} (htype : ctx.env.type? type = some ty)
    (hends : ∀ ⦃s w e y ys⦄, s.Models Γ w → s.arena.term? e = some y.2 → K w [] (y :: ys) →
      Ends P (fieldCount ty.params y.1 >>= fun k => liftArm lift k e) ctx s)
    (hkeeps : ∀ ⦃w y w' u ys⦄, Arm ctx R ty.params Γ w y w' u → K w [] (y :: ys) → K w' [] ys)
    (hs : s.Models Γ w) {c : Name} {head : ExprId} {f : Term} {args : List ExprId}
    {xs : List Term} (hhead : s.arena.term? head = some f) (hargs : s.arena.Denote args xs)
    (hlength : 1 + ty.arms ≤ args.length)
    (hxs : ∀ x ys zs, xs = x :: (ys ++ zs) → ys.length = ty.arms →
      K w (x :: zs) (ty.constructors.zip ys)) :
    Ends P (liftDispatch lift c type head args) ctx s := by
  obtain ⟨scrut, arms, extra, rfl, harms, hdrop, hzip⟩ := Simulates.exists_split_args hlength
  obtain ⟨x, _, hx, htail, rfl⟩ := List.forall₂_cons_left_iff.1 hargs
  obtain ⟨ys, zs, rfl, hys, hzs⟩ := Arena.Denote.exists_append htail
  have hK := hxs x ys zs rfl (hys.length_eq ▸ harms)
  refine Ends.read_bind ?_
  simp only [htype, if_neg (Nat.not_lt.2 hlength), hdrop, hzip]
  -- Scrutinee, extra arguments and arms are lifted in this order.
  have hfirst : Ends P ([scrut].mapM lift) ctx s := by
    rw [List.mapM_cons]
    exact (h.ends hs hx hK).bind fun r s₁ _ => (ends_pure _).bind fun _ s₂ _ => ends_pure _
  refine hfirst.bind fun scrut' s₁ hrun => ?_
  obtain ⟨w₁, us, hus, hscrut', h₁⟩ := h.simulates.mapM hs (.cons hx .nil) hrun
  have hK₁ : K w₁ zs (ty.constructors.zip ys) := h.keeps_each hus hK
  have hzs₁ := h₁.isExtension.denote hzs
  refine (h.mapM h₁.models hzs₁ hK₁).bind fun extra' s₂ hrun => ?_
  obtain ⟨w₂, vs, hvs, hextra', h₂⟩ := h.simulates.mapM h₁.models hzs₁ hrun
  have hK₂ : K w₂ [] (ty.constructors.zip ys) := h.keeps_each hvs (by rwa [List.append_nil])
  have hV : ∀ ⦃a b : Arena⦄ ⦃p : Name × ExprId⦄ ⦃y : Name × Term⦄, a.Extends b →
      p.1 = y.1 ∧ a.term? p.2 = some y.2 → p.1 = y.1 ∧ b.term? p.2 = some y.2 :=
    fun _ _ _ _ hab => And.imp_right hab.term?_eq_some
  have hfollows := h.simulates.follows_arm ty.params Γ
  have hzipped := Arena.forall₂_zip ((h₁.trans h₂).isExtension.denote hys) ty.constructors
  refine Ends.bind (Ends.mapM (K := fun w => K w []) hfollows hV ?_ ?_ h₂.models hzipped hK₂) ?_
  · rintro s w ⟨_, e⟩ y ys hs ⟨rfl, he⟩ hy
    exact hends hs he hy
  · exact fun _ _ _ _ _ hu hK => hkeeps hu hK
  · intro arms' s₃ hrun
    obtain ⟨w₃, us', -, harms', h₃⟩ := hfollows.mapM hV h₂.models hzipped hrun
    have hhead₃ := ((h₁.trans h₂).trans h₃).isExtension.term?_eq_some hhead
    exact ends_liftM (ArenaM.builds_mkApp h₃.models.wellFormed hhead₃
      ((((h₂.trans h₃).isExtension.denote hscrut').append harms').append
        (h₃.isExtension.denote hextra')))

end Handles

end Lift

/-- Procedures are lifted one after the other. `K` says what their bodies need, as long as they are
pending. -/
theorem Ends.procedures {fuel : Nat} {K : Stage → List Term → Prop}
    (hends : ∀ ⦃s w e t ts⦄, s.Models [] w → s.arena.term? e = some t → K w (t :: ts) →
      Ends P (liftBody fuel e) ctx s)
    (hkeeps : ∀ ⦃w t w' u ts⦄, LiftsBody ctx fuel w t w' u → K w (t :: ts) → K w' ts)
    (h : s.Models [] w) {ps : List Procedure} {ts : List Term}
    (hps : s.arena.Denote (ps.map Procedure.body) ts) (hts : K w ts) :
    Ends P (ps.mapM (liftProcedure fuel)) ctx s := by
  induction ps generalizing s w ts with
  | nil => exact ends_pure _
  | cons p ps ih =>
    obtain ⟨t, ts, he, htail, rfl⟩ := List.forall₂_cons_left_iff.1 hps
    have hlift : Ends P (liftProcedure fuel p) ctx s := by
      refine (hends h he hts).bind fun body s₁ hbody => Ends.state_bind ?_
      obtain ⟨w₁, u, -, -, h₁⟩ := liftsBody_of_liftBody h he hbody
      rw [h₁.models.isEmpty_scope]
      exact ends_pure _
    rw [List.mapM_cons]
    refine hlift.bind fun q s₁ hrun => ?_
    obtain ⟨w₁, u, hu, -, h₁⟩ := liftsBody_of_liftBody h he (runs_liftProcedure hrun).2
    refine (ih h₁.models (h₁.isExtension.denote htail) (hkeeps hu hts)).bind ?_
    exact fun qs s₂ _ => ends_pure _

theorem ends_mapM_liftProcedure {fuel : Nat} {N : Stage → Term → Prop}
    (hends : ∀ ⦃s w e t⦄, s.Models [] w → s.arena.term? e = some t → N w t →
      Ends P (liftBody fuel e) ctx s)
    (hkeeps : ∀ ⦃w t w' u⦄, LiftsBody ctx fuel w t w' u → N w t → ∀ ⦃z⦄, N w z → N w' z)
    (h : s.Models [] w) {ps : List Procedure}
    (hps : ∀ p ∈ ps, ∃ t, s.arena.term? p.body = some t ∧ N w t) :
    Ends P (ps.mapM (liftProcedure fuel)) ctx s := by
  obtain ⟨ts, hterms, hts⟩ := Arena.exists_denote (List.forall_mem_map.2 hps)
  refine Ends.procedures (K := fun w ts => ∀ t ∈ ts, N w t) ?_ ?_ h hterms hts
  · exact fun s w e t ts h he hK => hends h he (hK t List.mem_cons_self)
  · intro w t w' u ts hu hK
    obtain ⟨ht, hts⟩ := List.forall_mem_cons.1 hK
    exact fun z hz => hkeeps hu ht (hts z hz)

end LiftM

end LambdaLifting
