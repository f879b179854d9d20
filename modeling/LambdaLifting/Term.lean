import LambdaLifting.Node

namespace LambdaLifting

/-- Terms as trees. An application to several arguments is a chain of applications to one, so that
regrouping arguments does not change the tree. -/
inductive Term where
  | var (x : LocalId)
  | global (c : Name)
  | lit (l : Literal)
  | app (f x : Term)
  | lam (b : Binder) (body : Term)
  | letIn (b : Binder) (value body : Term)
deriving DecidableEq

/-- A term whose bound variables are replaced by the number of binders between them and theirs. -/
inductive Nameless where
  | bound (i : Nat)
  | free (x : LocalId)
  | global (c : Name)
  | lit (l : Literal)
  | app (f x : Nameless)
  | lam (body : Nameless)
  | letIn (value body : Nameless)
deriving DecidableEq

namespace Term

def apply (f : Term) (args : List Term) : Term := args.foldl app f

theorem apply_append (f : Term) (xs ys : List Term) :
    f.apply (xs ++ ys) = (f.apply xs).apply ys := by
  simp [apply]

/-- Every free occurrence of a variable, from left to right. -/
def occurrences : Term → List LocalId
  | var x => [x]
  | global _ | lit _ => []
  | app f x => f.occurrences ++ x.occurrences
  | lam b body => body.occurrences.filter (· ≠ b.id)
  | letIn b value body => value.occurrences ++ body.occurrences.filter (· ≠ b.id)

def Closed (t : Term) : Prop := t.occurrences = []

/-- Replace free variables by terms, all at once. A binder hides its variable and is not renamed. -/
def substitute (s : LocalId → Option Term) : Term → Term
  | var x => (s x).getD (var x)
  | global c => global c
  | lit l => lit l
  | app f x => app (f.substitute s) (x.substitute s)
  | lam b body => lam b (body.substitute fun y => if y = b.id then none else s y)
  | letIn b value body =>
    letIn b (value.substitute s) (body.substitute fun y => if y = b.id then none else s y)

theorem substitute_of_forall_not_mem (t : Term) {s : LocalId → Option Term}
    (h : ∀ x ∈ t.occurrences, s x = none) : t.substitute s = t := by
  induction t generalizing s with
  | var x => simp [substitute, h x (by simp [occurrences])]
  | global c => rfl
  | lit l => rfl
  | app f x ihf ihx =>
    simp only [occurrences, List.mem_append] at h
    rw [substitute, ihf fun y hy => h y (.inl hy), ihx fun y hy => h y (.inr hy)]
  | lam b body ih =>
    rw [substitute, ih]
    intro y hy
    by_cases hb : y = b.id
    · simp [hb]
    · simp [hb, h y (by simp [occurrences, hy, hb])]
  | letIn b value body ihv ih =>
    rw [substitute, ihv fun y hy => h y (by simp [occurrences, hy]), ih]
    intro y hy
    by_cases hb : y = b.id
    · simp [hb]
    · simp [hb, h y (by simp [occurrences, hy, hb])]

/-- The nameless form of a term under binders, innermost first. -/
def nameless (bs : List LocalId) : Term → Nameless
  | var x =>
    match bs.idxOf? x with
    | some i => .bound i
    | none => .free x
  | global c => .global c
  | lit l => .lit l
  | app f x => .app (f.nameless bs) (x.nameless bs)
  | lam b body => .lam (body.nameless (b.id :: bs))
  | letIn b value body => .letIn (value.nameless bs) (body.nameless (b.id :: bs))

def AlphaEq (t u : Term) : Prop := t.nameless [] = u.nameless []

instance (t u : Term) : Decidable (t.AlphaEq u) := inferInstanceAs (Decidable (_ = _))

end Term

end LambdaLifting
