import LambdaLifting.Proofs.Alpha
import LambdaLifting.Proofs.Flatness
import LambdaLifting.Proofs.Reduction

namespace LambdaLifting

/-- More fuel does not change which candidate is the first that is not taken. -/
theorem NameSource.fresh_unique {base : String} {taken : Name → Bool} {fuel fuel' : Nat}
    {s : NameSource} {r r' : Name × NameSource} (h : fresh base taken fuel s = .ok r)
    (h' : fresh base taken fuel' s = .ok r') : r = r' := by
  induction fuel generalizing fuel' s with
  | zero => cases h
  | succ fuel ih =>
    cases fuel' with
    | zero => cases h'
    | succ fuel' =>
      simp only [fresh] at h h'
      split at h
      · next htaken =>
        rw [if_pos htaken] at h'
        exact ih h h'
      · next htaken =>
        rw [if_neg htaken] at h'
        exact Except.ok.inj (h.symm.trans h')

theorem HeadNormal.headStep?_eq_none {t : Term} (h : HeadNormal t) (xs : List LocalId) :
    (t.nameless xs).headStep? = none := by
  induction t with
  | app f x ihf _ =>
    have hf := ihf fun u hu => h _ (.app x hu)
    cases f with
    | lam b body => exact absurd (.beta b body x) (h _)
    | _ =>
      rw [Term.nameless, Nameless.headStep?_app _ (by simp [Term.leading]), hf, Option.map_none]
  | var x =>
    rw [Term.nameless]
    split <;> rfl
  | _ => rfl

section Reduction

open Relation (ReflTransGen TransGen)

variable {m n : Nat} {Γ : Context} {t u : Term}

/-- Head steps of a term are head steps of its nameless form. -/
theorem Unlifted.nameless_transGen (ht : Unlifted m Γ t) (hΓ : Γ.Apart m n)
    (h : TransGen HeadStep t u) :
    Unlifted m Γ u ∧
      TransGen (fun a b => a.headStep? = some b) (t.nameless Γ.ids) (u.nameless Γ.ids) := by
  induction h with
  | single hstep => exact ⟨ht.step hstep, .single (hstep.nameless_eq (ht.separated hΓ) Γ.ids)⟩
  | tail _ hstep ih =>
    exact ⟨ih.1.step hstep, ih.2.tail (hstep.nameless_eq (ih.1.separated hΓ) Γ.ids)⟩

theorem Nameless.headStep?_unique {a b c : Nameless}
    (hb : TransGen (fun a b : Nameless => a.headStep? = some b) a b)
    (hc : TransGen (fun a b : Nameless => a.headStep? = some b) a c) (hb' : b.headStep? = none)
    (hc' : c.headStep? = none) : b = c := by
  have hunique : Relator.RightUnique fun a b : Nameless => a.headStep? = some b :=
    fun _ _ _ h h' => Option.some.inj (h.symm.trans h')
  have stuck {x y : Nameless} (hx : x.headStep? = none)
      (h : ReflTransGen (fun a b : Nameless => a.headStep? = some b) x y) : x = y := by
    rcases h.cases_head with h | ⟨z, hz, -⟩
    · exact h
    · simp [hx] at hz
  rcases ReflTransGen.total_of_right_unique hunique hb.to_reflTransGen hc.to_reflTransGen with h | h
  · exact stuck hb' h
  · exact (stuck hc' h).symm

end Reduction

section Shapes

variable (ctx : LiftContext) (R : Judgment) (Γ : Context) (w : Stage)

/-- The rules for terms that are no applications. -/
inductive OnAtom : Term → Stage → Term → Prop where
  | var {x} : OnAtom (.var x) w (.var x)
  | global (c) : OnAtom (.global c) w (.global c)
  | lit (l) : OnAtom (.lit l) w (.lit l)
  | lam {b body w₁ e closed k captured w₂ callee} :
      Under ctx R (Term.lam b body).leading Γ w (.lam b body) w₁ e →
      Closes Γ w₁.nextLocal e closed k captured → Calls ctx (w₁.mint k) closed w₂ callee →
      OnAtom (.lam b body) w₂ (callee.apply (captured.reverse.map Term.var))
  | letIn {b v body w' ds u} : Chain R Γ Replacement.empty w (.letIn b v body) w' ds u →
      OnAtom (.letIn b v body) w' (Term.lets ds u)

inductive OnSpine : Term → List Term → Stage → Term → Prop where
  | dispatch {c type t scrut arms extra w₁ scrut' w₂ extra' w₃ arms'} :
      ctx.env.kind? c = some (.dispatcher type) → ctx.env.type? type = some t →
      arms.length = t.arms → R Γ w scrut w₁ scrut' → Each (R Γ) w₁ extra w₂ extra' →
      Each (Arm ctx R t.params Γ) w₂ (t.constructors.zip arms) w₃ arms' →
      OnSpine (.global c) (scrut :: (arms ++ extra)) w₃
        (Term.apply (.global c) (scrut' :: (arms' ++ extra')))
  | beta {b body args t' w' u} : Relation.TransGen HeadStep ((Term.lam b body).apply args) t' →
      HeadNormal t' → R Γ w t' w' u → OnSpine (.lam b body) args w' u
  | call {f args w₁ f' w₂ args'} : f.isLambda = false →
      (∀ c, f = .global c → ∀ type, ctx.env.kind? c ≠ some (.dispatcher type)) →
      R Γ w f w₁ f' → Each (R Γ) w₁ args w₂ args' → OnSpine f args w₂ (f'.apply args')

variable {ctx R Γ w} {w' : Stage} {t u : Term}

theorem Rule.onAtom (h : Rule ctx R Γ w t w' u) (ht : t.isApp = false) :
    OnAtom ctx R Γ w t w' u := by
  have noSpine {f : Term} {xs : List Term} (hxs : xs ≠ []) (h : (f.apply xs).isApp = false) :
      False := by
    obtain ⟨g, x, happ⟩ := f.exists_apply_eq_app hxs
    rw [happ] at h
    cases h
  cases h with
  | var => exact .var
  | global c => exact .global c
  | lit l => exact .lit l
  | dispatch => exact (noSpine (List.cons_ne_nil _ _) ht).elim
  | beta hsteps =>
    obtain ⟨_, hstep, -⟩ := Relation.TransGen.head'_iff.1 hsteps
    exact absurd hstep (HeadNormal.of_isApp_eq_false ht _)
  | call _ _ hne => exact (noSpine hne ht).elim
  | lam hunder hcloses hcalls => exact .lam hunder hcloses hcalls
  | letIn hchain => exact .letIn hchain

theorem Rule.onSpine {f : Term} {xs : List Term} (h : Rule ctx R Γ w (f.apply xs) w' u)
    (hf : f.isApp = false) (hxs : xs ≠ []) : OnSpine ctx R Γ w f xs w' u := by
  obtain ⟨g, x, happ⟩ := f.exists_apply_eq_app hxs
  generalize ht : f.apply xs = t at h
  cases h with
  | dispatch hc htype hlen hscrut hextra harms =>
    obtain ⟨rfl, rfl⟩ := Term.apply_inj hf rfl ht
    exact .dispatch hc htype hlen hscrut hextra harms
  | beta hsteps hnormal hr =>
    subst ht
    cases f with
    | lam b body => exact .beta hsteps hnormal hr
    | app => cases hf
    | _ =>
      obtain ⟨_, hstep, -⟩ := Relation.TransGen.head'_iff.1 hsteps
      exact absurd hstep (HeadNormal.apply rfl rfl xs _)
  | call happ' hlam hne hkind hr hargs =>
    obtain ⟨rfl, rfl⟩ := Term.apply_inj hf happ' ht
    refine .call hlam (fun c hc type => ?_) hr hargs
    obtain ⟨k, hk, hk'⟩ := hkind c hc
    exact LiftContext.ne_dispatcher_of_kindAt? hk hk' type
  | _ => cases happ.symm.trans ht

end Shapes

structure Stage.Matches (v w : Stage) : Prop where
  names_eq : v.names = w.names
  lifted : List.Forall₂ (fun d e => d.name = e.name ∧ d.body.AlphaEq e.body) v.lifted w.lifted

namespace Stage.Matches

variable {v w : Stage}

theorem mint (h : v.Matches w) (k l : Nat) : (v.mint k).Matches (w.mint l) :=
  ⟨h.names_eq, h.lifted⟩

theorem ownsAt_eq (h : v.Matches w) (ctx : LiftContext) (c : Name) :
    ctx.ownsAt v.lifted c = ctx.ownsAt w.lifted c := by
  have hany : v.lifted.any (·.name = c) = w.lifted.any (·.name = c) := by
    obtain ⟨-, h⟩ := h
    generalize v.lifted = ds, w.lifted = es at h
    induction h with
    | nil => rfl
    | cons hd _ ih => rw [List.any_cons, List.any_cons, ih, hd.1]
  rw [LiftContext.ownsAt, LiftContext.ownsAt, hany]

theorem takenAt_eq (h : v.Matches w) (ctx : LiftContext) :
    ctx.takenAt v.lifted = ctx.takenAt w.lifted := by
  funext c
  rw [LiftContext.takenAt, LiftContext.takenAt, h.ownsAt_eq]

theorem kindAt?_eq (h : v.Matches w) (ctx : LiftContext) (c : Name) :
    ctx.kindAt? v.lifted c = ctx.kindAt? w.lifted c := by
  rw [LiftContext.kindAt?, LiftContext.kindAt?, h.ownsAt_eq]

end Stage.Matches

theorem Context.Matches.enter {Γ Δ : Context} (h : Γ.Matches Δ) {bs cs : List Binder}
    (hlength : bs.length = cs.length) : (Γ.enter bs).Matches (Δ.enter cs) := by
  induction bs generalizing Γ Δ cs with
  | nil =>
    obtain rfl := List.length_eq_zero_iff.1 hlength.symm
    exact h
  | cons b bs ih =>
    cases cs with
    | nil => cases hlength
    | cons c cs => exact ih (h.cons rfl) (Nat.succ.inj hlength)

/-- Two scopes and stages that match. What is in scope was handed out, from `m` on in the one and
from `m'` on in the other. -/
structure Parallel (m m' : Nat) (Γ Δ : Context) (v w : Stage) : Prop where
  left : Γ.Apart m v.nextLocal
  right : Δ.Apart m' w.nextLocal
  contexts : Γ.Matches Δ
  stages : v.Matches w

structure Alike (m m' : Nat) (Γ Δ : Context) (t u : Term) : Prop where
  left : Unlifted m Γ t
  right : Unlifted m' Δ u
  nameless_eq : t.nameless Γ.ids = u.nameless Δ.ids

section

variable {m m' : Nat} {Γ Δ : Context} {v w v' w' : Stage}

theorem Parallel.advance (h : Parallel m m' Γ Δ v w) (hv : v.Advances v') (hw : w.Advances w')
    (hm : v'.Matches w') : Parallel m m' Γ Δ v' w' :=
  ⟨h.left.mono hv.nextLocal_le, h.right.mono hw.nextLocal_le, h.contexts, hm⟩

theorem Parallel.declare (h : Parallel m m' Γ Δ v w) (b c : Binder) {t u : Term}
    (ht : Tidy Γ v t) (hu : Tidy Δ w u) (htu : t.nameless Γ.ids = u.nameless Δ.ids) :
    Parallel m m' (⟨⟨v.nextLocal⟩, b.name, some t⟩ :: Γ) (⟨⟨w.nextLocal⟩, c.name, some u⟩ :: Δ)
      (v.mint 1) (w.mint 1) where
  left := h.left.declare _ _ fun _ e => Option.some.inj e ▸ ⟨ht.mem_ids, ht.binder_lt⟩
  right := h.right.declare _ _ fun _ e => Option.some.inj e ▸ ⟨hu.mem_ids, hu.binder_lt⟩
  contexts := h.contexts.cons (by simp [htu])
  stages := h.stages.mint 1 1

theorem Parallel.enter {anonymous : Name} {k : Nat} {t u inner inner' : Term} {bs cs : List Binder}
    (h : Parallel m m' Γ Δ v w) (hp : Peels anonymous k .empty v.nextLocal t bs inner)
    (hp' : Peels anonymous k .empty w.nextLocal u cs inner') :
    Parallel m m' (Γ.enter bs) (Δ.enter cs) (v.mint k) (w.mint k) :=
  ⟨h.left.enter hp, h.right.enter hp', h.contexts.enter (hp.length_eq.trans hp'.length_eq.symm),
    h.stages.mint k k⟩

theorem Alike.peels {anonymous : Name} {k : Nat} {t u inner inner' : Term} {bs cs : List Binder}
    (h : Alike m m' Γ Δ t u) (hpar : Parallel m m' Γ Δ v w)
    (hp : Peels anonymous k .empty v.nextLocal t bs inner)
    (hp' : Peels anonymous k .empty w.nextLocal u cs inner') :
    Alike m m' (Γ.enter bs) (Δ.enter cs) inner inner' := by
  have ht := Opening.start h.left
  have hu := Opening.start h.right
  refine ⟨hp.unlifted hpar.left ht, hp'.unlifted hpar.right hu, ?_⟩
  rw [hp.nameless_eq hpar.left ht, hp'.nameless_eq hpar.right hu, Term.substitute_empty,
    Term.substitute_empty, h.nameless_eq]

theorem Alike.leading_eq {t u : Term} (h : Alike m m' Γ Δ t u) : t.leading = u.leading := by
  rw [← Term.leading_nameless t Γ.ids, h.nameless_eq, Term.leading_nameless]

theorem Alike.isLambda_eq {t u : Term} (h : Alike m m' Γ Δ t u) : t.isLambda = u.isLambda := by
  have hleading := h.leading_eq
  cases t <;> cases u <;> simp_all [Term.leading, Term.isLambda]

theorem Alike.of_apply {f g : Term} {xs ys : List Term}
    (h : Alike m m' Γ Δ (f.apply xs) (g.apply ys)) (hf : f.isApp = false) (hg : g.isApp = false) :
    Alike m m' Γ Δ f g ∧ List.Forall₂ (Alike m m' Γ Δ) xs ys := by
  obtain ⟨hfg, hxys⟩ := Term.nameless_eq_of_apply hf hg h.nameless_eq
  obtain ⟨huf, huxs⟩ := h.left.of_apply
  obtain ⟨hug, huys⟩ := h.right.of_apply
  refine ⟨⟨huf, hug, hfg⟩, ?_⟩
  rw [← List.forall₂_eq_eq_eq, List.forall₂_map_left_iff, List.forall₂_map_right_iff] at hxys
  clear h
  induction hxys with
  | nil => exact .nil
  | cons hxy _ ih =>
    obtain ⟨hx, huxs⟩ := List.forall_mem_cons.1 huxs
    obtain ⟨hy, huys⟩ := List.forall_mem_cons.1 huys
    exact .cons ⟨hx, hy, hxy⟩ (ih huxs huys)

theorem Alike.reduce {t u t' u' : Term} (h : Alike m m' Γ Δ t u) (hpar : Parallel m m' Γ Δ v w)
    (ht : Relation.TransGen HeadStep t t') (ht' : HeadNormal t')
    (hu : Relation.TransGen HeadStep u u') (hu' : HeadNormal u') : Alike m m' Γ Δ t' u' := by
  obtain ⟨hut, hst⟩ := h.left.nameless_transGen hpar.left ht
  obtain ⟨huu, hsu⟩ := h.right.nameless_transGen hpar.right hu
  rw [← h.nameless_eq] at hsu
  exact ⟨hut, huu, Nameless.headStep?_unique hst hsu (ht'.headStep?_eq_none _)
    (hu'.headStep?_eq_none _)⟩

end

/-- What is called in place of matching abstractions matches. -/
theorem Calls.coheres {ctx : LiftContext} {v w v' w' : Stage} {t u f g : Term}
    (h : Calls ctx v t v' f) (h' : Calls ctx w u w' g) (hvw : v.Matches w) (htu : t.AlphaEq u) :
    v'.Matches w' ∧ f.AlphaEq g := by
  have heta : t.etaReduce.AlphaEq u.etaReduce := by
    rw [Term.AlphaEq, Term.nameless_etaReduce, Term.nameless_etaReduce, htu]
  have hhead : t.etaReduce.headGlobal? = u.etaReduce.headGlobal? := by
    rw [← Term.headGlobal?_nameless _ [], heta, Term.headGlobal?_nameless]
  have hkind := hvw.kindAt?_eq ctx
  cases h with
  | reuse hc hk hplain =>
    cases h' with
    | reuse => exact ⟨hvw, heta⟩
    | new hno =>
      obtain ⟨k, hk', hplain'⟩ := hno _ (hhead ▸ hc)
      rw [← hkind, hk, Option.some.injEq] at hk'
      simp [hk', hplain'] at hplain
  | new hno hfresh =>
    cases h' with
    | reuse hc hk hplain =>
      obtain ⟨k, hk', hplain'⟩ := hno _ (hhead ▸ hc)
      rw [hkind, hk, Option.some.injEq] at hk'
      simp [hk', hplain'] at hplain
    | new _ hfresh' =>
      rw [hvw.names_eq, hvw.takenAt_eq] at hfresh
      obtain ⟨rfl, rfl⟩ := Prod.mk.inj (NameSource.fresh_unique hfresh hfresh')
      exact ⟨⟨rfl, List.rel_append hvw.lifted (.cons ⟨rfl, htu⟩ .nil)⟩, rfl⟩

/-- Lifting as far as it is given by `R` and `R'` takes terms that match to terms that match. -/
def Judgment.Coheres (m m' : Nat) (R R' : Judgment) : Prop :=
  ∀ ⦃Γ Δ v w t u v' w' t' u'⦄, Parallel m m' Γ Δ v w → Alike m m' Γ Δ t u → R Γ v t v' t' →
    R' Δ w u w' u' → v'.Matches w' ∧ t'.nameless Γ.ids = u'.nameless Δ.ids

namespace Judgment.Coheres

variable {ctx : LiftContext} {R R' : Judgment} {m m' : Nat} {Γ Δ : Context} {v w v' w' : Stage}

theorem each {α : Type} {E : α → α → Prop} {P P' : Stage → α → Stage → Term → Prop}
    (hS : ∀ ⦃w x w' u⦄, Γ.Scoped w.nextLocal → P w x w' u → w.Advances w' ∧ Tidy Γ w' u)
    (hS' : ∀ ⦃w x w' u⦄, Δ.Scoped w.nextLocal → P' w x w' u → w.Advances w' ∧ Tidy Δ w' u)
    (hP : ∀ ⦃v w x y v' w' t u⦄, Parallel m m' Γ Δ v w → E x y → P v x v' t → P' w y w' u →
      v'.Matches w' ∧ t.nameless Γ.ids = u.nameless Δ.ids)
    {xs ys : List α} {ts us : List Term} (hpar : Parallel m m' Γ Δ v w)
    (hxys : List.Forall₂ E xs ys) (h : Each P v xs v' ts) (h' : Each P' w ys w' us) :
    v'.Matches w' ∧ ts.map (Term.nameless Γ.ids) = us.map (Term.nameless Δ.ids) := by
  induction h generalizing w ys us with
  | nil =>
    cases hxys
    cases h'
    exact ⟨hpar.stages, rfl⟩
  | cons hx _ ih =>
    cases hxys with
    | cons hxy htail =>
    cases h' with
    | cons hy htail' =>
      obtain ⟨hm, htu⟩ := hP hpar hxy hx hy
      obtain ⟨hm', htus⟩ := ih (hpar.advance (hS hpar.left.isScoped hx).1
        (hS' hpar.right.isScoped hy).1 hm) htail htail'
      exact ⟨hm', by rw [List.map_cons, List.map_cons, htu, htus]⟩

theorem under (hR : R.Coheres m m' R') (k : Nat) :
    (Under ctx R k).Coheres m m' (Under ctx R' k) := by
  rintro Γ Δ v w t u v' w' - - hpar htu ⟨hp, h⟩ ⟨hp', h'⟩
  obtain ⟨hm, hinner⟩ := hR (hpar.enter hp hp') (htu.peels hpar hp hp') h h'
  refine ⟨hm, ?_⟩
  rw [Term.nameless_lambdas, Term.nameless_lambdas, hinner, hp.length_eq, hp'.length_eq]

theorem arm (hR : R.Coheres m m' R') (params : Nat) ⦃v w : Stage⦄ ⦃x y : Name × Term⦄
    ⦃v' w' : Stage⦄ ⦃t u : Term⦄ (hpar : Parallel m m' Γ Δ v w)
    (hxy : x.1 = y.1 ∧ Alike m m' Γ Δ x.2 y.2) (h : Arm ctx R params Γ v x v' t)
    (h' : Arm ctx R' params Δ w y w' u) :
    v'.Matches w' ∧ t.nameless Γ.ids = u.nameless Δ.ids := by
  obtain ⟨hk, h⟩ := h
  obtain ⟨hk', h'⟩ := h'
  obtain ⟨rfl, hxy⟩ := hxy
  obtain rfl := Option.some.inj (hk.symm.trans hk')
  exact hR.under _ hpar hxy h h'

/-- A term that is opened is a local definition if its nameless form is. -/
theorem exists_letIn {s : Replacement} {t : Term} (hs : Opening m Γ s t) {xs : List LocalId}
    {a c : Nameless} (h : (t.substitute s).nameless xs = .letIn a c) :
    ∃ b value body, t = .letIn b value body := by
  cases t with
  | var x =>
    obtain ⟨b, value, body, ht, -⟩ := Term.exists_letIn_of_nameless h
    cases hx : s x with
    | none => simp [Term.substitute, hx] at ht
    | some u =>
      obtain ⟨y, -, rfl⟩ := hs.target x u hx
      simp [Term.substitute, hx] at ht
  | letIn b value body => exact ⟨b, value, body, rfl⟩
  | _ => cases h

theorem chain (hS : R.Scopes) (hS' : R'.Scopes) (hR : R.Coheres m m' R') {s s' : Replacement}
    {t u t' u' : Term} {ds es : List (Binder × Term)} (hpar : Parallel m m' Γ Δ v w)
    (hs : Opening m Γ s t) (hs' : Opening m' Δ s' u)
    (htu : (t.substitute s).nameless Γ.ids = (u.substitute s').nameless Δ.ids)
    (h : Chain R Γ s v t v' ds t') (h' : Chain R' Δ s' w u w' es u') :
    v'.Matches w' ∧
      (Term.lets ds t').nameless Γ.ids = (Term.lets es u').nameless Δ.ids := by
  induction h generalizing Δ s' w u es with
  | done hne hbody =>
    cases h' with
    | done _ hbody' => exact hR hpar ⟨hs.unlifted, hs'.unlifted, htu⟩ hbody hbody'
    | letIn =>
      rw [Term.substitute_letIn, Term.nameless] at htu
      obtain ⟨b, value, body, rfl⟩ := exists_letIn hs htu
      exact absurd rfl (hne b value body)
  | @letIn Γ s v b value body v₁ value' v₂ ds t' hv hrest ih =>
    rw [Term.substitute_letIn, Term.nameless] at htu
    obtain ⟨b', _, _, rfl⟩ := exists_letIn hs' htu.symm
    cases h' with
    | done hne => exact absurd rfl (hne _ _ _)
    | letIn hv' hrest' =>
      rename_i w₁ uvalue' es
      rw [Term.substitute_letIn, Term.nameless] at htu
      injection htu with hvalue hbody
      obtain ⟨hadv, htidy⟩ := hS hpar.left.isScoped hv
      obtain ⟨hadv', htidy'⟩ := hS' hpar.right.isScoped hv'
      obtain ⟨hm, hvalue'⟩ := hR hpar ⟨hs.value.unlifted, hs'.value.unlifted, hvalue⟩ hv hv'
      have hpar₁ := (hpar.advance hadv hadv' hm).declare b b' htidy htidy' hvalue'
      -- Under the new variables the bodies are what they were under their binders.
      obtain ⟨hm', hlets⟩ := ih hpar₁ hs.letBody hs'.letBody
        ((hs.nameless_letBody hpar.left hadv.nextLocal_le).trans
          (hbody.trans (hs'.nameless_letBody hpar.right hadv'.nextLocal_le).symm)) hrest'
      refine ⟨hm', ?_⟩
      show Nameless.letIn _ _ = Nameless.letIn _ _
      rw [hvalue']
      exact congrArg _ hlets

theorem lambda (hS : R.Scopes) (hS' : R'.Scopes) (hR : R.Coheres m m' R')
    (hpar : Parallel m m' Γ Δ v w) {k k' l l' : Nat} {t u e e' closed closed' f g : Term}
    {xs ys : List LocalId} {v₁ w₁ : Stage} (htu : Alike m m' Γ Δ t u)
    (hunder : Under ctx R k Γ v t v₁ e) (hunder' : Under ctx R' k' Δ w u w₁ e') (hk : k = k')
    (hcloses : Closes Γ v₁.nextLocal e closed l xs)
    (hcloses' : Closes Δ w₁.nextLocal e' closed' l' ys)
    (hcalls : Calls ctx (v₁.mint l) closed v' f) (hcalls' : Calls ctx (w₁.mint l') closed' w' g) :
    v'.Matches w' ∧ (f.apply (xs.reverse.map Term.var)).nameless Γ.ids =
      (g.apply (ys.reverse.map Term.var)).nameless Δ.ids := by
  subst hk
  obtain ⟨hadv, htidy⟩ := hS.under _ hpar.left.isScoped hunder
  obtain ⟨hadv', htidy'⟩ := hS'.under _ hpar.right.isScoped hunder'
  obtain ⟨hm, hee'⟩ := hR.under _ hpar htu hunder hunder'
  have hpar₁ := hpar.advance hadv hadv' hm
  have hΓ := hpar₁.left.isScoped
  obtain ⟨halpha, hpairs⟩ := hcloses.alphaEq_and_pairs hcloses' hΓ hpar₁.right.isScoped
    hpar.contexts hee' htidy.mem_ids htidy'.mem_ids htidy.binder_lt htidy'.binder_lt
  obtain ⟨hm', hfg⟩ := hcalls.coheres hcalls' (hm.mint l l') halpha
  have hclosed := hcloses.closed_of_scoped hΓ htidy.mem_ids
  have hf := (hcalls.tidy hclosed (fun x => hcloses.binder_lt hΓ htidy.binder_lt) []).2
  have hvars : (xs.reverse.map Term.var).map (Term.nameless Γ.ids) =
      (ys.reverse.map Term.var).map (Term.nameless Δ.ids) := by
    rw [List.map_map, List.map_map, ← List.forall₂_eq_eq_eq, List.forall₂_map_left_iff,
      List.forall₂_map_right_iff]
    exact (List.rel_reverse hpairs).imp fun _ _ hp => hp.nameless_eq
  refine ⟨hm', ?_⟩
  rw [Term.nameless_apply, Term.nameless_apply, hvars, hfg.nameless_eq
    (Term.closed_iff.2 fun x hx => by simpa [Context.ids] using hf.mem_ids x hx) Γ.ids Δ.ids]

theorem onAtom (hS : R.Scopes) (hS' : R'.Scopes) (hR : R.Coheres m m' R') {t u t' u' : Term}
    (hpar : Parallel m m' Γ Δ v w) (htu : Alike m m' Γ Δ t u) (h : OnAtom ctx R Γ v t v' t')
    (h' : OnAtom ctx R' Δ w u w' u') :
    v'.Matches w' ∧ t'.nameless Γ.ids = u'.nameless Δ.ids := by
  have heq := htu.nameless_eq
  cases h with
  | @var x =>
    obtain ⟨i, hi⟩ := Term.exists_idxOf? (htu.left.mem_ids x (by simp [Term.occurrences]))
    rw [Term.nameless_var hi] at heq
    obtain ⟨y, rfl, -⟩ := Term.exists_var_of_nameless heq.symm
    cases h'
    exact ⟨hpar.stages, htu.nameless_eq⟩
  | global c =>
    obtain rfl := Term.exists_global_of_nameless heq.symm
    cases h'
    exact ⟨hpar.stages, rfl⟩
  | lit l =>
    obtain rfl := Term.exists_lit_of_nameless heq.symm
    cases h'
    exact ⟨hpar.stages, rfl⟩
  | lam hunder hcloses hcalls =>
    obtain ⟨b, body, rfl, -⟩ := Term.exists_lam_of_nameless heq.symm
    cases h' with
    | lam hunder' hcloses' hcalls' =>
      exact hR.lambda hS hS' hpar htu hunder hunder' htu.leading_eq hcloses hcloses' hcalls hcalls'
  | letIn hchain =>
    obtain ⟨b, value, body, rfl, -⟩ := Term.exists_letIn_of_nameless heq.symm
    cases h' with
    | letIn hchain' =>
      refine hR.chain hS hS' hpar (.start htu.left) (.start htu.right) ?_ hchain hchain'
      rw [Term.substitute_empty, Term.substitute_empty, heq]

theorem onSpine (hS : R.Scopes) (hS' : R'.Scopes) (hR : R.Coheres m m' R') {f g t' u' : Term}
    {xs ys : List Term} (hpar : Parallel m m' Γ Δ v w)
    (htu : Alike m m' Γ Δ (f.apply xs) (g.apply ys)) (hf : f.isApp = false) (hg : g.isApp = false)
    (h : OnSpine ctx R Γ v f xs v' t') (h' : OnSpine ctx R' Δ w g ys w' u') :
    v'.Matches w' ∧ t'.nameless Γ.ids = u'.nameless Δ.ids := by
  obtain ⟨hfg, hxys⟩ := htu.of_apply hf hg
  have heq := hfg.nameless_eq
  have member ⦃v w : Stage⦄ ⦃x y : Term⦄ ⦃v' w' : Stage⦄ ⦃t u : Term⦄
      (hpar : Parallel m m' Γ Δ v w) (hxy : Alike m m' Γ Δ x y) (h : R Γ v x v' t)
      (h' : R' Δ w y w' u) := hR hpar hxy h h'
  cases h with
  | dispatch hc htype hlen hscrut hextra harms =>
    obtain rfl := Term.exists_global_of_nameless heq.symm
    cases h' with
    | call _ hkind => exact absurd hc (hkind _ rfl _)
    | dispatch hc' htype' hlen' hscrut' hextra' harms' =>
      obtain rfl := GlobalKind.dispatcher.inj (Option.some.inj (hc.symm.trans hc'))
      obtain rfl := Option.some.inj (htype.symm.trans htype')
      obtain ⟨hxscrut, hrest⟩ := List.forall₂_cons.1 hxys
      obtain ⟨hxarms, hxextra⟩ := Arena.forall₂_of_append (hlen.trans hlen'.symm) hrest
      obtain ⟨hm₁, hscrut''⟩ := hR hpar hxscrut hscrut hscrut'
      have hpar₁ := hpar.advance (hS hpar.left.isScoped hscrut).1
        (hS' hpar.right.isScoped hscrut').1 hm₁
      obtain ⟨hm₂, hextra''⟩ := each (@hS Γ) (@hS' Δ) member hpar₁ hxextra hextra hextra'
      have hpar₂ := hpar₁.advance (Judgment.Scopes.each (@hS Γ) hpar₁.left.isScoped hextra).1
        (Judgment.Scopes.each (@hS' Δ) hpar₁.right.isScoped hextra').1 hm₂
      obtain ⟨hm₃, harms''⟩ := each (hS.arm _) (hS'.arm _) (hR.arm _) hpar₂
        (Arena.forall₂_zip hxarms _) harms harms'
      refine ⟨hm₃, ?_⟩
      rw [Term.nameless_apply, Term.nameless_apply, List.map_cons, List.map_append, List.map_cons,
        List.map_append, hscrut'', harms'', hextra'']
      rfl
  | beta hsteps hnormal hr =>
    obtain ⟨b, body, rfl, -⟩ := Term.exists_lam_of_nameless heq.symm
    cases h' with
    | beta hsteps' hnormal' hr' =>
      exact hR hpar (htu.reduce hpar hsteps hnormal hsteps' hnormal') hr hr'
    | call hlam => cases hlam
  | call hlam hkind hr hargs =>
    cases h' with
    | dispatch hc =>
      obtain rfl := Term.exists_global_of_nameless heq
      exact absurd hc (hkind _ rfl _)
    | beta =>
      obtain ⟨b, body, rfl, -⟩ := Term.exists_lam_of_nameless heq
      cases hlam
    | call _ _ hr' hargs' =>
      obtain ⟨hm, hff'⟩ := hR hpar hfg hr hr'
      obtain ⟨hm', hargs''⟩ := each (@hS Γ) (@hS' Δ) member
        (hpar.advance (hS hpar.left.isScoped hr).1 (hS' hpar.right.isScoped hr').1 hm) hxys hargs
        hargs'
      refine ⟨hm', ?_⟩
      rw [Term.nameless_apply, Term.nameless_apply, hff', hargs'']

theorem rule (hS : R.Scopes) (hS' : R'.Scopes) (hR : R.Coheres m m' R') :
    (Rule ctx R).Coheres m m' (Rule ctx R') := by
  intro Γ Δ v w t u v' w' t' u' hpar htu h h'
  obtain ⟨f, xs, rfl, hf⟩ := t.exists_spine
  obtain ⟨g, ys, rfl, hg⟩ := u.exists_spine
  have hlength := (htu.of_apply hf hg).2.length_eq
  by_cases hxs : xs = []
  · obtain rfl := hxs
    obtain rfl := List.length_eq_zero_iff.1 hlength.symm
    exact hR.onAtom hS hS' hpar htu (h.onAtom hf) (h'.onAtom hg)
  · have hys : ys ≠ [] := fun e => hxs (List.length_eq_zero_iff.1 (by simp [hlength, e]))
    exact hR.onSpine hS hS' hpar htu hf hg (h.onSpine hf hxs) (h'.onSpine hg hys)

end Judgment.Coheres

/-- Lifting is a function up to the names of variables, whatever the fuel. -/
theorem LiftsIn.coheres (ctx : LiftContext) (m m' n n' : Nat) :
    (LiftsIn ctx n).Coheres m m' (LiftsIn ctx n') := by
  induction n generalizing n' with
  | zero => exact fun _ _ _ _ _ _ _ _ _ _ _ _ h => h.elim
  | succ n ih =>
    cases n' with
    | zero => exact fun _ _ _ _ _ _ _ _ _ _ _ _ _ h => h.elim
    | succ n' => exact (ih n').rule (LiftsIn.scoped ctx n) (LiftsIn.scoped ctx n')

end LambdaLifting
