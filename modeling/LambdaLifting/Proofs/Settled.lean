import LambdaLifting.Proofs.Alpha
import LambdaLifting.Proofs.Flatness

namespace LambdaLifting

/-- All dispatchers stand in front of their arms. -/
abbrev Flat.Whole (env : Environment) : Place → Term → Prop := Flat env fun _ => False

theorem HeadStep.headGlobal?_eq_none {t u : Term} (h : HeadStep t u) : t.headGlobal? = none := by
  induction h with
  | beta => rfl
  | app _ _ ih => exact ih

namespace Flat

variable {env : Environment} {bare : Name → Prop}

/-- The head of a flat term is no applied lambda. -/
theorem headNormal {t : Term} (h : Flat env bare .plain t) : HeadNormal t := by
  intro u hstep
  induction hstep with
  | beta b body x =>
    cases h with
    | app hf _ => cases hf.isLambda_eq_false
    | dispatch h =>
      obtain ⟨c, _, hc, -⟩ := h.headGlobal?_of_dispatch rfl
      cases hc
  | app x hstep ih =>
    cases h with
    | app hf _ => exact ih hf
    | dispatch h =>
      obtain ⟨c, _, hc, -⟩ := h.headGlobal?_of_dispatch rfl
      rw [Term.headGlobal?, hstep.headGlobal?_eq_none] at hc
      cases hc

theorem rename {p : Place} {t : Term} {s : Replacement} (hs : s.Renames) (h : Flat env bare p t) :
    Flat env bare p (t.substitute s) := by
  refine h.substitute fun x u hu => ?_
  obtain ⟨y, rfl⟩ := hs x u hu
  exact .var y

theorem of_letIn {b : Binder} {v body : Term} (h : Flat env bare .plain (.letIn b v body)) :
    Flat env bare .plain v ∧ Flat env bare .plain body := by
  cases h with
  | letIn hv hb => exact ⟨hv, hb⟩
  | dispatch h => cases h.isApp_of_dispatch

theorem peels {anonymous : Name} {k n : Nat} {s : Replacement} {t inner : Term} {bs : List Binder}
    (hp : Peels anonymous k s n t bs inner) (hs : s.Renames) (h : Flat env bare (.binding k) t) :
    Flat env bare .plain inner := by
  induction hp with
  | done =>
    cases h with
    | body h => exact h.rename hs
  | lam _ ih =>
    cases h with
    | lam h => exact ih (hs.add _ _) h
  | expand hlam _ _ =>
    cases h with
    | lam h => cases hlam

/-- A dispatcher has a known type, and enough arguments. -/
theorem exists_type_of_dispatcher {c type : Name} {xs : List Term}
    (hc : env.kind? c = some (.dispatcher type))
    (h : Whole env .plain (Term.apply (.global c) xs)) :
    ∃ t, env.type? type = some t ∧ 1 + t.arms ≤ xs.length := by
  rcases h.call_or_dispatches rfl with ⟨hhead, -⟩ | ⟨t, c', x, arms, extra, hcc, rfl, hd, -⟩
  · exact (hhead.bare_of_global hc).elim
  · obtain rfl := Term.global.inj hcc
    obtain ⟨type', hk, ht⟩ := hd.type
    obtain rfl := GlobalKind.dispatcher.inj (Option.some.inj (hc.symm.trans hk))
    have hlength := hd.arms.length_eq
    refine ⟨t, ht, ?_⟩
    simp only [List.length_cons, List.length_append, InductiveType.arms]
    omega

/-- A term that is applied to as many arms as its dispatcher has. -/
theorem whole_of_dispatcher {c type : Name} {t : InductiveType} {x : Term} {arms extra : List Term}
    (hc : env.kind? c = some (.dispatcher type)) (ht : env.type? type = some t)
    (hl : arms.length = t.arms)
    (h : Whole env .plain (Term.apply (.global c) (x :: (arms ++ extra)))) :
    Whole env .plain x ∧ Arms env (fun _ => False) t t.constructors arms ∧
      ∀ y ∈ extra, Whole env .plain y := by
  rcases h.call_or_dispatches rfl with
    ⟨hhead, -⟩ | ⟨t', c', x', arms', extra', hcc, hxs, hd, hextra⟩
  · exact (hhead.bare_of_global hc).elim
  · obtain rfl := Term.global.inj hcc
    obtain ⟨type', hk, ht'⟩ := hd.type
    obtain rfl := GlobalKind.dispatcher.inj (Option.some.inj (hc.symm.trans hk))
    obtain rfl := Option.some.inj (ht.symm.trans ht')
    obtain ⟨rfl, hargs⟩ := List.cons.inj hxs
    obtain ⟨rfl, rfl⟩ := List.append_inj hargs (hl.trans hd.arms.length_eq)
    exact ⟨hd.scrutinee, hd.arms, hextra⟩

/-- The head of a call that is no dispatch, and its arguments. -/
theorem whole_of_call {f : Term} {xs : List Term} (hf : f.isApp = false)
    (hc : ∀ c, f = .global c → ∀ type, env.kind? c ≠ some (.dispatcher type))
    (h : Whole env .plain (f.apply xs)) :
    Whole env .plain f ∧ ∀ x ∈ xs, Whole env .plain x := by
  rcases h.call_or_dispatches hf with h | ⟨t, c, x, arms, extra, rfl, -, hd, -⟩
  · exact h
  · obtain ⟨type, hk, -⟩ := hd.type
    exact absurd hk (hc c rfl type)

end Flat

/-- Lifting as far as it is given by `R` renames bound variables in flat terms and does nothing
else. -/
def Judgment.Fixes (ctx : LiftContext) (m : Nat) (R : Judgment) : Prop :=
  ∀ ⦃Γ w t w' u⦄, Γ.Apart m w.nextLocal → Unlifted m Γ t → Flat.Whole ctx.env .plain t →
    R Γ w t w' u → (∃ k, w' = w.mint k) ∧ u.nameless Γ.ids = t.nameless Γ.ids

namespace Judgment.Fixes

variable {ctx : LiftContext} {R : Judgment} {m : Nat} {Γ : Context} {w w' : Stage}

theorem each {α : Type} (term : α → Term) {P : Stage → α → Stage → Term → Prop}
    {F : α → Prop}
    (hP : ∀ ⦃w x w' u⦄, Γ.Apart m w.nextLocal → Unlifted m Γ (term x) → F x → P w x w' u →
      (∃ k, w' = w.mint k) ∧ u.nameless Γ.ids = (term x).nameless Γ.ids)
    {xs : List α} {us : List Term} (hΓ : Γ.Apart m w.nextLocal)
    (hxs : ∀ x ∈ xs, Unlifted m Γ (term x)) (hF : ∀ x ∈ xs, F x) (h : Each P w xs w' us) :
    (∃ k, w' = w.mint k) ∧
      us.map (Term.nameless Γ.ids) = (xs.map term).map (Term.nameless Γ.ids) := by
  induction h with
  | nil w => exact ⟨⟨0, rfl⟩, rfl⟩
  | cons hx _ ih =>
    obtain ⟨hx', hxs⟩ := List.forall_mem_cons.1 hxs
    obtain ⟨hFx, hF⟩ := List.forall_mem_cons.1 hF
    obtain ⟨⟨k, rfl⟩, hu⟩ := hP hΓ hx' hFx hx
    obtain ⟨⟨l, rfl⟩, hus⟩ := ih (hΓ.mono (Nat.le_add_right _ k)) hxs hF
    refine ⟨⟨k + l, ?_⟩, by rw [List.map_cons, List.map_cons, List.map_cons, hu, hus]⟩
    simp only [Stage.mint, Nat.add_assoc]

theorem under (hR : R.Fixes ctx m) {k : Nat} {t u : Term} (hΓ : Γ.Apart m w.nextLocal)
    (ht : Unlifted m Γ t) (hflat : Flat.Whole ctx.env (.binding k) t)
    (h : Under ctx R k Γ w t w' u) :
    (∃ k, w' = w.mint k) ∧ u.nameless Γ.ids = t.nameless Γ.ids := by
  obtain ⟨hp, hbody⟩ := h
  rename_i bs inner u
  have hopen := Opening.start ht
  obtain ⟨⟨l, rfl⟩, hu⟩ := hR (hΓ.enter hp) (hp.unlifted hΓ hopen) (hflat.peels hp .empty) hbody
  refine ⟨⟨k + l, by simp only [Stage.mint, Nat.add_assoc]⟩, ?_⟩
  -- There are exactly as many lambdas as are opened, so that putting them back undoes it.
  rw [Term.nameless_lambdas, hu, hp.nameless_eq hΓ hopen, Term.substitute_empty, hp.length_eq]
  exact Nameless.lambdas_peel (Nat.le_of_eq (by rw [Term.leading_nameless, hflat.leading_eq]))

theorem arm (hR : R.Fixes ctx m) (params : Nat) ⦃w : Stage⦄ ⦃x : Name × Term⦄ ⦃w' : Stage⦄
    ⦃u : Term⦄ (hΓ : Γ.Apart m w.nextLocal) (hx : Unlifted m Γ x.2)
    (hflat : ∃ k, Output.fieldCount? ctx.env params x.1 = some k ∧
      Flat.Whole ctx.env (.binding k) x.2) (h : Arm ctx R params Γ w x w' u) :
    (∃ k, w' = w.mint k) ∧ u.nameless Γ.ids = x.2.nameless Γ.ids := by
  obtain ⟨hk, h⟩ := h
  obtain ⟨k, hk', hflat⟩ := hflat
  obtain rfl := Option.some.inj (hk.symm.trans hk')
  exact hR.under hΓ hx hflat h

theorem chain (hS : R.Scopes) (hR : R.Fixes ctx m) {s : Replacement} {t u : Term}
    {ds : List (Binder × Term)} (hΓ : Γ.Apart m w.nextLocal) (hs : Opening m Γ s t)
    (hrename : s.Renames) (hflat : Flat.Whole ctx.env .plain t) (h : Chain R Γ s w t w' ds u) :
    (∃ k, w' = w.mint k) ∧
      (Term.lets ds u).nameless Γ.ids = (t.substitute s).nameless Γ.ids := by
  induction h with
  | done _ hbody => exact hR hΓ hs.unlifted (hflat.rename hrename) hbody
  | @letIn Γ s w b v body w' v' w'' ds u hv hrest ih =>
    obtain ⟨hfv, hfb⟩ := hflat.of_letIn
    have hsv : Opening m Γ s v := hs.value
    have htidy := (hS hΓ.isScoped hv).2
    obtain ⟨⟨k, rfl⟩, hvalue⟩ := hR hΓ hsv.unlifted (hfv.rename hrename) hv
    have hle := Nat.le_add_right w.nextLocal k
    have hΓ' := (hΓ.mono hle).declare b.name (some v') fun _ e =>
      Option.some.inj e ▸ ⟨htidy.mem_ids, htidy.binder_lt⟩
    obtain ⟨⟨l, rfl⟩, hbody⟩ := ih hΓ' hs.letBody (hrename.add _ _) hfb
    refine ⟨⟨k + 1 + l, by simp only [Stage.mint, Nat.add_assoc]⟩, ?_⟩
    rw [Term.substitute_letIn, Term.nameless, ← hs.nameless_letBody hΓ hle, ← hvalue]
    exact congrArg _ hbody

theorem rule (hS : R.Scopes) (hR : R.Fixes ctx m) : (Rule ctx R).Fixes ctx m := by
  intro Γ w t w' u hΓ ht hflat h
  have hmint (w : Stage) : ∃ k, w = w.mint k := ⟨0, rfl⟩
  cases h with
  | var => exact ⟨hmint w, rfl⟩
  | global c => exact ⟨hmint w, rfl⟩
  | lit l => exact ⟨hmint w, rfl⟩
  | @dispatch _ _ c type t scrut arms extra _ _ _ _ _ _ hc htype hlen hscrut hextra harms =>
    obtain ⟨-, hargs⟩ := ht.of_apply
    obtain ⟨huscrut, hargs⟩ := List.forall_mem_cons.1 hargs
    obtain ⟨huarms, huextra⟩ := List.forall_mem_append.1 hargs
    obtain ⟨hfscrut, hfarms, hfextra⟩ := Flat.whole_of_dispatcher hc htype hlen hflat
    have hzip : (t.constructors.zip arms).map Prod.snd = arms :=
      List.map_snd_zip (Nat.le_of_eq hlen)
    obtain ⟨⟨k₁, rfl⟩, hnscrut⟩ := hR hΓ huscrut hfscrut hscrut
    have hΓ₁ := hΓ.mono (Nat.le_add_right _ k₁)
    obtain ⟨⟨k₂, rfl⟩, hnextra⟩ := each id (@hR Γ) hΓ₁ huextra hfextra hextra
    have hΓ₂ := hΓ₁.mono (Nat.le_add_right _ k₂)
    obtain ⟨⟨k₃, rfl⟩, hnarms⟩ := each Prod.snd (hR.arm t.params) hΓ₂
      (fun x hx => huarms x.2 (List.of_mem_zip hx).2)
      (fun x hx => List.forall₂_iff_zip.1 hfarms |>.2 hx) harms
    rw [List.map_id] at hnextra
    rw [hzip] at hnarms
    refine ⟨⟨k₁ + k₂ + k₃, by simp only [Stage.mint, Nat.add_assoc]⟩, ?_⟩
    rw [Term.nameless_apply, Term.nameless_apply, List.map_cons, List.map_append, List.map_cons,
      List.map_append, hnscrut, hnarms, hnextra]
  | beta hsteps _ _ =>
    obtain ⟨v, hstep, -⟩ := Relation.TransGen.head'_iff.1 hsteps
    exact (hflat.headNormal v hstep).elim
  | call happ _ _ hkind hf hargs =>
    obtain ⟨huf, huargs⟩ := ht.of_apply
    obtain ⟨hff, hfargs⟩ := Flat.whole_of_call happ (fun c hc type => by
      obtain ⟨k, hk, hne⟩ := hkind c hc
      exact LiftContext.ne_dispatcher_of_kindAt? hk hne type) hflat
    obtain ⟨⟨k₁, rfl⟩, hnf⟩ := hR hΓ huf hff hf
    have hΓ₁ := hΓ.mono (Nat.le_add_right _ k₁)
    obtain ⟨⟨k₂, rfl⟩, hnargs⟩ := each id (@hR Γ) hΓ₁ huargs hfargs hargs
    rw [List.map_id] at hnargs
    refine ⟨⟨k₁ + k₂, by simp only [Stage.mint, Nat.add_assoc]⟩, ?_⟩
    rw [Term.nameless_apply, Term.nameless_apply, hnf, hnargs]
  | lam => cases hflat.isLambda_eq_false
  | letIn hchain =>
    have := hR.chain hS hΓ (.start ht) .empty hflat hchain
    rwa [Term.substitute_empty] at this

end Judgment.Fixes

/-- Flat terms stay as they are, up to the names of bound variables. -/
theorem LiftsIn.fixes (ctx : LiftContext) (m n : Nat) : (LiftsIn ctx n).Fixes ctx m := by
  induction n with
  | zero => exact fun _ _ _ _ _ _ _ _ h => h.elim
  | succ n ih => exact ih.rule (LiftsIn.scoped ctx n)

/-- Closed flat bodies stay as they are when procedures are lifted one after the other. -/
theorem LiftsBody.alphaEq {ctx : LiftContext} {n : Nat} {v w : Stage} {ts us : List Term}
    (h : Each (LiftsBody ctx n) v ts w us)
    (hts : ∀ t ∈ ts, Unlifted v.nextLocal [] t ∧ Flat.Whole ctx.env (.binding t.leading) t) :
    (∃ k, w = v.mint k) ∧ List.Forall₂ Term.AlphaEq us ts := by
  have hΓ : Context.Apart v.nextLocal [] v.nextLocal :=
    ⟨.nil, by simp [Context.ids], Nat.le_refl _⟩
  obtain ⟨hw, hmap⟩ := Judgment.Fixes.each (Γ := []) id
    (F := fun t => Flat.Whole ctx.env (.binding t.leading) t)
    (fun _ t _ _ hΓ ht hflat h => (LiftsIn.fixes ctx v.nextLocal n).under hΓ ht hflat h)
    hΓ (fun t ht => (hts t ht).1) (fun t ht => (hts t ht).2) h
  refine ⟨hw, ?_⟩
  rw [List.map_id, ← List.forall₂_eq_eq_eq, List.forall₂_map_left_iff,
    List.forall₂_map_right_iff] at hmap
  exact hmap

end LambdaLifting
