import LambdaLifting.Proofs.Naming
import Mathlib.Data.List.Forall2
import Mathlib.Data.List.Induction

namespace LambdaLifting

inductive Place where
  /-- Anywhere but in an arm of a dispatch or at the top of a procedure. -/
  | plain
  /-- Under nothing but lambdas of an arm or a procedure, of which so many are left. -/
  | binding (lambdas : Nat)
  /-- At the head of a dispatch that still lacks the arms for these constructors. -/
  | dispatch (type : InductiveType) (rest : List Name)

/-- Terms with no lambdas but the leading ones of a procedure, and those that arms of a dispatch
start with, one for each field of the constructor. `bare` holds of the dispatchers that may stand
without their arms. -/
inductive Flat (env : Environment) (bare : Name → Prop) : Place → Term → Prop where
  | var (x) : Flat env bare .plain (.var x)
  | global {c} : (∀ type, env.kind? c = some (.dispatcher type) → bare c) →
      Flat env bare .plain (.global c)
  | lit (l) : Flat env bare .plain (.lit l)
  | app {f x} : Flat env bare .plain f → Flat env bare .plain x → Flat env bare .plain (.app f x)
  | letIn {b v body} : Flat env bare .plain v → Flat env bare .plain body →
      Flat env bare .plain (.letIn b v body)
  | scrutinee {c type t x} : env.kind? c = some (.dispatcher type) → env.type? type = some t →
      Flat env bare .plain x → Flat env bare (.dispatch t t.constructors) (.app (.global c) x)
  | arm {t c cs f k x} : Flat env bare (.dispatch t (c :: cs)) f →
      Output.fieldCount? env t.params c = some k → Flat env bare (.binding k) x →
      Flat env bare (.dispatch t cs) (.app f x)
  | dispatch {t f} : Flat env bare (.dispatch t []) f → Flat env bare .plain f
  | body {t} : Flat env bare .plain t → Flat env bare (.binding 0) t
  | lam {k b body} : Flat env bare (.binding k) body →
      Flat env bare (.binding (k + 1)) (.lam b body)

namespace Flat

variable {env : Environment} {bare : Name → Prop}

theorem apply {f : Term} {xs : List Term} (hf : Flat env bare .plain f)
    (hxs : ∀ x ∈ xs, Flat env bare .plain x) : Flat env bare .plain (f.apply xs) := by
  induction xs generalizing f with
  | nil => exact hf
  | cons x xs ih =>
    obtain ⟨hx, hxs⟩ := List.forall_mem_cons.1 hxs
    exact ih (.app hf hx) hxs

theorem lambdas {k : Nat} {t : Term} (h : Flat env bare (.binding k) t) (bs : List Binder) :
    Flat env bare (.binding (k + bs.length)) (Term.lambdas bs t) := by
  induction bs with
  | nil => exact h
  | cons b bs ih => exact .lam ih

theorem substitute {p : Place} {t : Term} {s : Replacement} (h : Flat env bare p t)
    (hs : ∀ x u, s x = some u → Flat env bare .plain u) : Flat env bare p (t.substitute s) := by
  induction h generalizing s with
  | var x =>
    cases hx : s x with
    | none => simpa [Term.substitute, hx] using .var x
    | some u => simpa [Term.substitute, hx] using hs x u hx
  | global h => exact .global h
  | lit l => exact .lit l
  | app _ _ ihf ihx => exact .app (ihf hs) (ihx hs)
  | @letIn b _ _ _ _ ihv ih => exact .letIn (ihv hs) (ih (Replacement.forall_hide b.id hs))
  | scrutinee hk ht _ ih => exact .scrutinee hk ht (ih hs)
  | arm _ hk _ ihf ihx => exact .arm (ihf hs) hk (ihx hs)
  | dispatch _ ih => exact .dispatch (ih hs)
  | body _ ih => exact .body (ih hs)
  | @lam _ b _ _ ih => exact .lam (ih (Replacement.forall_hide b.id hs))

theorem headGlobal?_of_dispatch {p : Place} {f : Term} (h : Flat env bare p f)
    {t : InductiveType} {cs : List Name} (hp : p = .dispatch t cs) :
    ∃ c type, f.headGlobal? = some c ∧ env.kind? c = some (.dispatcher type) := by
  induction h generalizing cs with
  | scrutinee hk => exact ⟨_, _, rfl, hk⟩
  | arm _ _ _ ih _ =>
    cases hp
    exact ih rfl
  | _ => cases hp

theorem of_app {f x : Term} (h : Flat env bare .plain (.app f x)) {c : Name}
    (hc : f.headGlobal? = some c) (hn : ∀ type, env.kind? c ≠ some (.dispatcher type)) :
    Flat env bare .plain f := by
  cases h with
  | app hf _ => exact hf
  | dispatch h =>
    obtain ⟨c', type, hc', hk⟩ := h.headGlobal?_of_dispatch rfl
    rw [Term.headGlobal?, hc, Option.some.injEq] at hc'
    exact absurd (hc' ▸ hk) (hn type)

theorem etaReduce {t : Term} {k : Nat} (h : Flat env bare (.binding k) t) {c : Name}
    (hc : t.etaReduce.headGlobal? = some c) (hn : ∀ type, env.kind? c ≠ some (.dispatcher type)) :
    Flat env bare .plain t.etaReduce := by
  induction t generalizing k with
  | lam b body ih =>
    cases h with
    | body h =>
      cases h with
      | dispatch h =>
        obtain ⟨_, _, hc', _⟩ := h.headGlobal?_of_dispatch rfl
        simp [Term.headGlobal?] at hc'
    | lam h =>
      rcases Term.etaReduce_lam b body with e | ⟨e, -⟩
      · rw [e] at hc
        simp [Term.headGlobal?] at hc
      · rw [e] at ih
        exact of_app (ih h hc) hc hn
  | _ =>
    cases h with
    | body h => exact h

theorem isLambda_eq_false {t : Term} (h : Flat env bare .plain t) : t.isLambda = false := by
  cases h with
  | dispatch h =>
    obtain ⟨c, _, hc, -⟩ := h.headGlobal?_of_dispatch rfl
    cases t with
    | lam b body => simp [Term.headGlobal?] at hc
    | _ => rfl
  | _ => rfl

theorem isApp_of_dispatch {t : InductiveType} {cs : List Name} {f : Term}
    (h : Flat env bare (.dispatch t cs) f) : f.isApp = true := by
  cases h with
  | scrutinee => rfl
  | arm => rfl

theorem bare_of_global {c type : Name} (h : Flat env bare .plain (.global c))
    (hk : env.kind? c = some (.dispatcher type)) : bare c := by
  cases h with
  | global h => exact h type hk
  | dispatch h => cases h.isApp_of_dispatch

/-- Procedures and arms start with as many lambdas as they have to. -/
theorem leading_eq {k : Nat} {t : Term} (h : Flat env bare (.binding k) t) : t.leading = k := by
  induction k generalizing t with
  | zero =>
    cases h with
    | body h => exact Term.leading_of_isLambda_eq_false h.isLambda_eq_false
  | succ k ih =>
    cases h with
    | lam h => rw [Term.leading, ih h]

abbrev Arms (env : Environment) (bare : Name → Prop) (t : InductiveType) :
    List Name → List Term → Prop :=
  List.Forall₂ fun c x =>
    ∃ k, Output.fieldCount? env t.params c = some k ∧ Flat env bare (.binding k) x

/-- A dispatch on a type, whose arms come after its scrutinee. -/
structure Dispatches (env : Environment) (bare : Name → Prop) (t : InductiveType) (c : Name)
    (x : Term) (cs : List Name) (arms : List Term) : Prop where
  type : ∃ type, env.kind? c = some (.dispatcher type) ∧ env.type? type = some t
  scrutinee : Flat env bare .plain x
  arms : Arms env bare t cs arms

/-- The spine of a dispatch that may lack arms at its end. -/
theorem dispatches_of_apply {f : Term} {xs : List Term} {t : InductiveType} {rest : List Name}
    (hf : f.isApp = false) (h : Flat env bare (.dispatch t rest) (f.apply xs)) :
    ∃ c x cs arms, f = .global c ∧ xs = x :: arms ∧ t.constructors = cs ++ rest ∧
      Dispatches env bare t c x cs arms := by
  induction xs using List.reverseRecOn generalizing rest with
  | nil =>
    rw [Term.apply_nil] at h
    cases h <;> simp [Term.isApp] at hf
  | append_singleton init last ih =>
    rw [Term.apply_concat] at h
    -- The last argument is the scrutinee or an arm; in the first case nothing comes before it.
    generalize hg : f.apply init = g at h
    cases h with
    | @scrutinee c type _ _ hk ht hx =>
      cases init with
      | nil => exact ⟨c, last, [], [], hg, rfl, rfl, ⟨type, hk, ht⟩, hx, .nil⟩
      | cons y ys =>
        obtain ⟨u, v, happ⟩ := f.exists_apply_eq_app (List.cons_ne_nil y ys)
        simp [hg] at happ
    | @arm _ d _ _ k _ hdispatch hk hlast =>
      obtain ⟨c, x, cs, arms, rfl, rfl, hcs, hd⟩ := ih (hg ▸ hdispatch)
      refine ⟨c, x, cs ++ [d], arms ++ [last], rfl, rfl, by simp [hcs], hd.type, hd.scrutinee, ?_⟩
      exact List.rel_append hd.arms (.cons ⟨k, hk, hlast⟩ .nil)

/-- The spine of a flat term: either a call, or a dispatch and its extra arguments. -/
theorem call_or_dispatches {f : Term} {xs : List Term} (hf : f.isApp = false)
    (h : Flat env bare .plain (f.apply xs)) :
    (Flat env bare .plain f ∧ ∀ x ∈ xs, Flat env bare .plain x) ∨
      ∃ t c x arms extra, f = .global c ∧ xs = x :: (arms ++ extra) ∧
        Dispatches env bare t c x t.constructors arms ∧ ∀ y ∈ extra, Flat env bare .plain y := by
  induction xs using List.reverseRecOn with
  | nil => exact .inl ⟨h, by simp⟩
  | append_singleton init last ih =>
    have happ := h
    rw [Term.apply_concat] at h
    cases h with
    -- Once a dispatch has all its arms, what follows is an argument like any other.
    | app hg hlast =>
      rcases ih hg with ⟨hhead, hinit⟩ | ⟨t, c, x, arms, extra, rfl, rfl, hd, hextra⟩
      · exact .inl ⟨hhead, by simpa [or_imp, forall_and] using ⟨hinit, hlast⟩⟩
      · refine .inr ⟨t, c, x, arms, extra ++ [last], rfl, by simp, hd, ?_⟩
        simpa [or_imp, forall_and] using ⟨hextra, hlast⟩
    | @dispatch t _ h =>
      rw [← Term.apply_concat] at h
      obtain ⟨c, x, cs, arms, rfl, hxs, hcs, hd⟩ := dispatches_of_apply hf h
      rw [List.append_nil] at hcs
      exact .inr ⟨t, c, x, arms, [], rfl, by simpa using hxs, hcs ▸ hd, by simp⟩

end Flat

/-- The dispatchers that a term mentions without arguments may stand without arms. -/
def BareIn (env : Environment) (bare : Name → Prop) (t : Term) : Prop :=
  ∀ c ∈ t.unapplied, ∀ type, env.kind? c = some (.dispatcher type) → bare c

namespace BareIn

variable {env : Environment} {bare : Name → Prop}

theorem stable : Stable (BareIn env bare) := stable_unapplied _

theorem of_mem_apply {f : Term} {xs : List Term} (h : BareIn env bare (f.apply xs)) {x : Term}
    (hx : x ∈ xs) : BareIn env bare x :=
  fun c hc => h c (Term.mem_unapplied_apply (.inr ⟨x, hx, hc⟩))

theorem head_of_call {f : Term} {xs : List Term} (h : BareIn env bare (f.apply xs))
    (hf : ∀ c, f = .global c → ∀ type, env.kind? c ≠ some (.dispatcher type)) :
    BareIn env bare f := by
  intro c hc type hk
  by_cases e : f = .global c
  · exact absurd hk (hf c e type)
  · exact h c (Term.mem_unapplied_apply (.inl ⟨hc, e⟩)) type hk

end BareIn

def Context.Flat (env : Environment) (bare : Name → Prop) (Γ : Context) : Prop :=
  ∀ d ∈ Γ, ∀ v, d.value = some v → LambdaLifting.Flat env bare .plain v

theorem Context.Flat.enter {env : Environment} {bare : Name → Prop} {Γ : Context}
    (h : Γ.Flat env bare) (bs : List Binder) : (Γ.enter bs).Flat env bare := by
  induction bs generalizing Γ with
  | nil => exact h
  | cons b bs ih => exact ih (List.forall_mem_cons.2 ⟨by simp, h⟩)

def Stage.Flat (env : Environment) (bare : Name → Prop) (w : Stage) : Prop :=
  ∀ d ∈ w.lifted, ∃ k, LambdaLifting.Flat env bare (.binding k) d.body

theorem LiftContext.ne_dispatcher_of_kindAt? {ctx : LiftContext} {ds : List Definition} {c : Name}
    {k : GlobalKind} (h : ctx.kindAt? ds c = some k) (hk : ∀ type, k ≠ .dispatcher type)
    (type : Name) : ctx.env.kind? c ≠ some (.dispatcher type) := by
  intro hc
  rw [kindAt?, hc] at h
  exact hk type (Option.some.inj h).symm

theorem Calls.flat {ctx : LiftContext} {bare : Name → Prop} {w w' : Stage} {t u : Term}
    (h : Calls ctx w t w' u) {k : Nat} (ht : Flat ctx.env bare (.binding k) t)
    (hw : w.Flat ctx.env bare) : w'.Flat ctx.env bare ∧ Flat ctx.env bare .plain u := by
  cases h with
  | @reuse c k hc hk hp =>
    refine ⟨hw, ht.etaReduce hc (LiftContext.ne_dispatcher_of_kindAt? hk fun type e => ?_)⟩
    simp [e, GlobalKind.isPlain] at hp
  | new _ hf =>
    refine ⟨List.forall_mem_append.2 ⟨hw, by simpa using ⟨k, ht⟩⟩, .global fun type hk => ?_⟩
    have := NameSource.not_taken_of_fresh hf
    simp [LiftContext.takenAt, Environment.contains, hk] at this

theorem Each.flat {env : Environment} {bare : Name → Prop} {P : Stage → Term → Stage → Term → Prop}
    {Q : Term → Prop} {w w' : Stage} {ts us : List Term} (h : Each P w ts w' us)
    (hw : w.Flat env bare) (hts : ∀ t ∈ ts, BareIn env bare t)
    (hP : ∀ w t w' u, w.Flat env bare → BareIn env bare t → P w t w' u →
      w'.Flat env bare ∧ Q u) : w'.Flat env bare ∧ ∀ u ∈ us, Q u := by
  induction h with
  | nil w => exact ⟨hw, by simp⟩
  | cons hx _ ih =>
    obtain ⟨ht, hts⟩ := List.forall_mem_cons.1 hts
    obtain ⟨h₁, hu⟩ := hP _ _ _ _ hw ht hx
    obtain ⟨h₂, hus⟩ := ih h₁ hts
    exact ⟨h₂, List.forall_mem_cons.2 ⟨hu, hus⟩⟩

/-- Lifting as far as it is given by `R` makes terms flat. -/
def Judgment.Flattens (env : Environment) (bare : Name → Prop) (R : Judgment) : Prop :=
  ∀ ⦃Γ w t w' u⦄, Γ.Flat env bare → w.Flat env bare → BareIn env bare t → R Γ w t w' u →
    w'.Flat env bare ∧ Flat env bare .plain u

namespace Judgment.Flattens

variable {ctx : LiftContext} {bare : Name → Prop} {R : Judgment} {Γ : Context} {w w' : Stage}

theorem under (hR : R.Flattens ctx.env bare) {k : Nat} {t u : Term} (hΓ : Γ.Flat ctx.env bare)
    (hw : w.Flat ctx.env bare) (ht : BareIn ctx.env bare t) (h : Under ctx R k Γ w t w' u) :
    w'.Flat ctx.env bare ∧ Flat ctx.env bare (.binding k) u := by
  obtain ⟨hp, hr⟩ := h
  rename_i bs inner u
  have hw₁ : (w.mint k).Flat ctx.env bare := hw
  obtain ⟨hw', hu⟩ := hR (hΓ.enter _) hw₁ (BareIn.stable.peels hp .empty ht) hr
  refine ⟨hw', ?_⟩
  have := (Flat.body hu).lambdas bs
  rwa [hp.length_eq, Nat.zero_add] at this

theorem arms (hR : R.Flattens ctx.env bare) {t : InductiveType} {cs : List Name}
    {arms us : List Term} (hΓ : Γ.Flat ctx.env bare) (hw : w.Flat ctx.env bare)
    (harms : ∀ x ∈ arms, BareIn ctx.env bare x) (hl : arms.length = cs.length)
    (h : Each (Arm ctx R t.params Γ) w (cs.zip arms) w' us) {f : Term}
    (hf : Flat ctx.env bare (.dispatch t cs) f) :
    w'.Flat ctx.env bare ∧ Flat ctx.env bare (.dispatch t []) (f.apply us) := by
  induction cs generalizing arms us w f with
  | nil =>
    cases h
    exact ⟨hw, hf⟩
  | cons c cs ih =>
    cases arms with
    | nil => simp at hl
    | cons x arms =>
      obtain ⟨hx, harms⟩ := List.forall_mem_cons.1 harms
      rw [List.zip_cons_cons] at h
      cases h with
      | cons harm hrest =>
        obtain ⟨hk, hunder⟩ := harm
        obtain ⟨h₁, hu⟩ := hR.under hΓ hw hx hunder
        exact ih h₁ harms (by simpa using hl) hrest (.arm hf hk hu)

theorem chain (hR : R.Flattens ctx.env bare) {s : Replacement} {t u : Term}
    {ds : List (Binder × Term)} (hs : s.Renames) (hΓ : Γ.Flat ctx.env bare)
    (hw : w.Flat ctx.env bare) (ht : BareIn ctx.env bare t) (h : Chain R Γ s w t w' ds u) :
    w'.Flat ctx.env bare ∧ Flat ctx.env bare .plain (Term.lets ds u) := by
  induction h with
  | done _ hr => exact hR hΓ hw (BareIn.stable.rename hs ht) hr
  | @letIn Γ _ _ b _ _ w' v' _ _ _ hr _ ih =>
    obtain ⟨hv, hb⟩ := BareIn.stable.letIn ht
    obtain ⟨h₁, hv'⟩ := hR hΓ hw (BareIn.stable.rename hs hv) hr
    have hΓ' : Context.Flat ctx.env bare (⟨⟨w'.nextLocal⟩, b.name, some v'⟩ :: Γ) :=
      List.forall_mem_cons.2 ⟨fun v e => Option.some.inj e ▸ hv', hΓ⟩
    obtain ⟨h₂, hu⟩ := ih (hs.add _ _) hΓ' h₁ hb
    exact ⟨h₂, .letIn hv' hu⟩

theorem rule (hR : R.Flattens ctx.env bare) : (Rule ctx R).Flattens ctx.env bare := by
  intro Γ w t w' u hΓ hw ht h
  cases h with
  | var => exact ⟨hw, .var _⟩
  | global c => exact ⟨hw, .global (ht c (by simp [Term.unapplied]))⟩
  | lit l => exact ⟨hw, .lit l⟩
  | @dispatch _ _ c type t scrut arms extra _ _ _ _ _ _ hk htype hlen hscrut hextra harms =>
    have hmem {x : Term} (hx : x ∈ scrut :: (arms ++ extra)) : BareIn ctx.env bare x :=
      ht.of_mem_apply hx
    obtain ⟨h₁, hs⟩ := hR hΓ hw (hmem List.mem_cons_self) hscrut
    obtain ⟨h₂, he⟩ := hextra.flat h₁ (fun x hx => hmem (by simp [hx]))
      fun _ _ _ _ hw hx h => hR hΓ hw hx h
    obtain ⟨h₃, ha⟩ := hR.arms hΓ h₂ (fun x hx => hmem (by simp [hx])) hlen harms
      (.scrutinee hk htype hs)
    refine ⟨h₃, ?_⟩
    rw [Term.apply_cons, Term.apply_append]
    exact (Flat.dispatch ha).apply he
  | beta hstep _ hr => exact hR hΓ hw (BareIn.stable.transGen hstep ht) hr
  | call _ _ _ hkind hf hargs =>
    have hbf := ht.head_of_call fun c hc type => by
      obtain ⟨k, hk, hne⟩ := hkind c hc
      exact LiftContext.ne_dispatcher_of_kindAt? hk hne type
    obtain ⟨h₁, hf⟩ := hR hΓ hw hbf hf
    obtain ⟨h₂, hargs⟩ := hargs.flat h₁ (fun x hx => ht.of_mem_apply hx)
      fun _ _ _ _ hw hx h => hR hΓ hw hx h
    exact ⟨h₂, hf.apply hargs⟩
  | lam hunder hcloses hcalls =>
    obtain ⟨h₁, he⟩ := hR.under hΓ hw ht hunder
    -- Values in scope are flat, so putting them in adds no lambdas. Here a bare dispatcher can
    -- become the head of a call.
    obtain ⟨bs, s, rfl, hs, -⟩ := hcloses.exists_substitute Flat.var (fun _ _ => Flat.substitute) hΓ
    obtain ⟨h₂, hcallee⟩ := hcalls.flat ((he.substitute hs).lambdas bs) h₁
    refine ⟨h₂, hcallee.apply fun x hx => ?_⟩
    obtain ⟨y, -, rfl⟩ := List.mem_map.1 hx
    exact .var y
  | letIn hchain => exact hR.chain .empty hΓ hw ht hchain

end Judgment.Flattens

/-- Lifted terms are flat. -/
theorem LiftsIn.flat (ctx : LiftContext) (bare : Name → Prop) (n : Nat) :
    (LiftsIn ctx n).Flattens ctx.env bare := by
  induction n with
  | zero => exact fun _ _ _ _ _ _ _ _ h => h.elim
  | succ n ih => exact ih.rule

/-- Lifting the bodies of procedures one after the other makes them flat, and with them the
procedures made on the way. -/
theorem LiftsBody.flat {ctx : LiftContext} {bare : Name → Prop} {n : Nat} {w w' : Stage}
    {ts us : List Term} (hw : w.Flat ctx.env bare) (hts : ∀ t ∈ ts, BareIn ctx.env bare t)
    (h : Each (LiftsBody ctx n) w ts w' us) :
    w'.Flat ctx.env bare ∧ ∀ u ∈ us, ∃ k, Flat ctx.env bare (.binding k) u := by
  refine h.flat hw hts fun w t w' u hw ht hbody => ?_
  obtain ⟨hw', hu⟩ := (LiftsIn.flat ctx bare n).under (by simp [Context.Flat]) hw ht hbody
  exact ⟨hw', t.leading, hu⟩

end LambdaLifting
