import LambdaLifting.Lift.Term
import LambdaLifting.Output.Check
import LambdaLifting.Proofs.Terms
import Mathlib.Logic.Relation

namespace LambdaLifting

structure Entry where
  id : LocalId
  name : Name
  value : Option Term

abbrev Context := List Entry

namespace Context

def ids (Γ : Context) : List LocalId := Γ.map Entry.id

def enter (Γ : Context) (bs : List Binder) : Context :=
  bs.foldl (fun Γ b => ⟨b.id, b.name, none⟩ :: Γ) Γ

/-- The declarations that variables need, latest first. A local definition needs what its value
mentions. -/
def needed : Context → List LocalId → Context
  | [], _ => []
  | d :: Γ, xs =>
    if d.id ∈ xs then d :: needed Γ (xs ++ (d.value.map Term.occurrences).getD [])
    else needed Γ xs

/-- Later declarations have new variables, and values mention earlier ones only. All variables are
numbered below `n`. -/
inductive Scoped (n : Nat) : Context → Prop where
  | nil : Scoped n []
  | cons {d Γ} : Scoped n Γ → d.id ∉ ids Γ → d.id.index < n →
      (∀ v, d.value = some v →
        (∀ x ∈ v.occurrences, x ∈ ids Γ) ∧ ∀ x ∈ v.binders, x.index < n) →
      Scoped n (d :: Γ)

end Context

structure Definition where
  name : Name
  body : Term

/-- What a run has used up and made so far. -/
structure Stage where
  nextLocal : Nat
  names : NameSource
  lifted : List Definition

def Stage.mint (w : Stage) (k : Nat) : Stage := { w with nextLocal := w.nextLocal + k }

namespace LiftContext

def ownsAt (ctx : LiftContext) (ds : List Definition) (c : Name) : Bool :=
  ctx.declared.contains c || ds.any (·.name = c)

def takenAt (ctx : LiftContext) (ds : List Definition) (c : Name) : Bool :=
  ctx.ownsAt ds c || ctx.env.contains c

/-- The kind of a global once these procedures have been lifted. -/
def kindAt? (ctx : LiftContext) (ds : List Definition) (c : Name) : Option GlobalKind :=
  match ctx.env.kind? c with
  | some k => some k
  | none => if ctx.ownsAt ds c then some .function else none

end LiftContext

namespace Term

def headGlobal? : Term → Option Name
  | global c => some c
  | app f _ => f.headGlobal?
  | _ => none

/-- Drop a last argument that is the variable `x`, not free elsewhere in the term. -/
def dropArg? (x : LocalId) : Term → Option Term
  | app f (var y) => if y = x ∧ x ∉ f.occurrences then some f else none
  | _ => none

def etaReduce : Term → Term
  | lam b body => (body.etaReduce.dropArg? b.id).getD (lam b body.etaReduce)
  | t => t

end Term

/-- One beta step at the head of a term. Nothing is renamed. -/
inductive HeadStep : Term → Term → Prop where
  | beta (b body x) :
      HeadStep (.app (.lam b body) x) (body.substitute (Replacement.empty.add b.id x))
  | app {f g} (x) : HeadStep f g → HeadStep (.app f x) (.app g x)

def HeadNormal (t : Term) : Prop := ∀ u, ¬ HeadStep t u

/-- Open lambdas with variables numbered from `n` on. A term with too few is applied to new
variables. -/
inductive Peels (anonymous : Name) :
    Nat → Replacement → Nat → Term → List Binder → Term → Prop where
  | done (s n t) : Peels anonymous 0 s n t [] (t.substitute s)
  | lam {k s n b body bs inner} :
      Peels anonymous k (s.add b.id (.var ⟨n⟩)) (n + 1) body bs inner →
      Peels anonymous (k + 1) s n (.lam b body) (⟨⟨n⟩, b.name⟩ :: bs) inner
  | expand {k s n t bs inner} : t.isLambda = false →
      Peels anonymous k s (n + 1) (.app t (.var ⟨n⟩)) bs inner →
      Peels anonymous (k + 1) s n t (⟨⟨n⟩, anonymous⟩ :: bs) inner

/-- Make declared variables parameters and write out definitions, oldest first. -/
inductive Parametrizes : Nat → List Entry → Replacement → List Binder → Replacement → Prop where
  | nil (n s) : Parametrizes n [] s [] s
  | param {n x name ds s bs s'} : Parametrizes (n + 1) ds (s.add x (.var ⟨n⟩)) bs s' →
      Parametrizes n (⟨x, name, none⟩ :: ds) s (⟨⟨n⟩, name⟩ :: bs) s'
  | define {n x name v ds s bs s'} : Parametrizes n ds (s.add x (v.substitute s)) bs s' →
      Parametrizes n (⟨x, name, some v⟩ :: ds) s bs s'

/-- Close a term over the variables in scope. Also gives the number of new parameters and the
variables that they stand for, latest first. -/
inductive Closes (Γ : Context) (n : Nat) (t : Term) : Term → Nat → List LocalId → Prop where
  | intro {bs s} :
      Parametrizes n (Γ.needed t.occurrences).reverse Replacement.empty bs s →
      Closes Γ n t (Term.lambdas bs (t.substitute s)) bs.length
        (((Γ.needed t.occurrences).filter (·.value.isNone)).map Entry.id)

/-- What to call in place of a closed abstraction. -/
inductive Calls (ctx : LiftContext) (w : Stage) (t : Term) : Stage → Term → Prop where
  | reuse {c k} : t.etaReduce.headGlobal? = some c → ctx.kindAt? w.lifted c = some k →
      k.isPlain = true → Calls ctx w t w t.etaReduce
  | new {fuel name names} :
      (∀ c, t.etaReduce.headGlobal? = some c →
        ∃ k, ctx.kindAt? w.lifted c = some k ∧ k.isPlain = false) →
      NameSource.fresh ctx.base (ctx.takenAt w.lifted) fuel w.names = .ok (name, names) →
      Calls ctx w t ⟨w.nextLocal, names, w.lifted ++ [⟨name, t⟩]⟩ (.global name)

/-- In a context and at a stage, a term is lifted to a term, which ends at another stage. -/
abbrev Judgment := Context → Stage → Term → Stage → Term → Prop

/-- Treat the members of a list from left to right. -/
inductive Each {α β : Type} (R : Stage → α → Stage → β → Prop) :
    Stage → List α → Stage → List β → Prop where
  | nil (w) : Each R w [] w []
  | cons {w x w' y xs w'' ys} : R w x w' y → Each R w' xs w'' ys →
      Each R w (x :: xs) w'' (y :: ys)

inductive Under (ctx : LiftContext) (R : Judgment) (k : Nat) : Judgment where
  | intro {Γ w t bs inner w' u} : Peels ctx.anonymous k Replacement.empty w.nextLocal t bs inner →
      R (Γ.enter bs) (w.mint k) inner w' u → Under ctx R k Γ w t w' (Term.lambdas bs u)

inductive Arm (ctx : LiftContext) (R : Judgment) (params : Nat) (Γ : Context) :
    Stage → Name × Term → Stage → Term → Prop where
  | intro {c k w t w' u} : Output.fieldCount? ctx.env params c = some k →
      Under ctx R k Γ w t w' u → Arm ctx R params Γ w (c, t) w' u

inductive Chain (R : Judgment) :
    Context → Replacement → Stage → Term → Stage → List (Binder × Term) → Term → Prop where
  | done {Γ s w t w' u} : (∀ b v body, t ≠ .letIn b v body) → R Γ w (t.substitute s) w' u →
      Chain R Γ s w t w' [] u
  | letIn {Γ s w b v body w' v' w'' ds u} : R Γ w (v.substitute s) w' v' →
      Chain R (⟨⟨w'.nextLocal⟩, b.name, some v'⟩ :: Γ) (s.add b.id (.var ⟨w'.nextLocal⟩))
        (w'.mint 1) body w'' ds u →
      Chain R Γ s w (.letIn b v body) w'' ((⟨⟨w'.nextLocal⟩, b.name⟩, v') :: ds) u

/-- The rules, with the lifting of smaller terms as a parameter. -/
inductive Rule (ctx : LiftContext) (R : Judgment) : Judgment where
  | var {Γ w x} : x ∈ Γ.ids → Rule ctx R Γ w (.var x) w (.var x)
  | global {Γ w} (c) : Rule ctx R Γ w (.global c) w (.global c)
  | lit {Γ w} (l) : Rule ctx R Γ w (.lit l) w (.lit l)
  | dispatch {Γ w c type t scrut arms extra w₁ scrut' w₂ extra' w₃ arms'} :
      ctx.env.kind? c = some (.dispatcher type) → ctx.env.type? type = some t →
      arms.length = t.arms → R Γ w scrut w₁ scrut' → Each (R Γ) w₁ extra w₂ extra' →
      Each (Arm ctx R t.params Γ) w₂ (t.constructors.zip arms) w₃ arms' →
      Rule ctx R Γ w (Term.apply (.global c) (scrut :: (arms ++ extra))) w₃
        (Term.apply (.global c) (scrut' :: (arms' ++ extra')))
  | beta {Γ w t t' w' u} : Relation.TransGen HeadStep t t' → HeadNormal t' → R Γ w t' w' u →
      Rule ctx R Γ w t w' u
  | call {Γ w f args w₁ f' w₂ args'} : f.isApp = false → f.isLambda = false → args ≠ [] →
      (∀ c, f = .global c →
        ∃ k, ctx.kindAt? w.lifted c = some k ∧ ∀ type, k ≠ .dispatcher type) →
      R Γ w f w₁ f' → Each (R Γ) w₁ args w₂ args' →
      Rule ctx R Γ w (f.apply args) w₂ (f'.apply args')
  | lam {Γ w b body w₁ e closed k captured w₂ callee} :
      Under ctx R (Term.lam b body).leading Γ w (.lam b body) w₁ e →
      Closes Γ w₁.nextLocal e closed k captured → Calls ctx (w₁.mint k) closed w₂ callee →
      Rule ctx R Γ w (.lam b body) w₂ (callee.apply (captured.reverse.map Term.var))
  | letIn {Γ w b v body w' ds u} : Chain R Γ Replacement.empty w (.letIn b v body) w' ds u →
      Rule ctx R Γ w (.letIn b v body) w' (Term.lets ds u)

/-- A term is lifted, with a derivation no higher than the fuel. -/
def LiftsIn (ctx : LiftContext) : Nat → Judgment
  | 0 => fun _ _ _ _ _ => False
  | n + 1 => Rule ctx (LiftsIn ctx n)

/-- The body of a procedure is lifted under the lambdas at its top. -/
def LiftsBody (ctx : LiftContext) (n : Nat) (w : Stage) (t : Term) (w' : Stage) (u : Term) : Prop :=
  Under ctx (LiftsIn ctx n) t.leading [] w t w' u

end LambdaLifting
