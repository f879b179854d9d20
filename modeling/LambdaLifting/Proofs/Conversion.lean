import LambdaLifting.Proofs.Terms
import Mathlib.Logic.Function.Basic

namespace LambdaLifting

namespace Nameless

def liftRenaming (r : Nat → Nat) : Nat → Nat
  | 0 => 0
  | i + 1 => r i + 1

def rename (r : Nat → Nat) : Nameless → Nameless
  | bound i => bound (r i)
  | free x => free x
  | global c => global c
  | lit l => lit l
  | app f x => app (f.rename r) (x.rename r)
  | lam body => lam (body.rename (liftRenaming r))
  | letIn value body => letIn (value.rename r) (body.rename (liftRenaming r))

def shift (t : Nameless) : Nameless := t.rename Nat.succ

def liftSubst (s : Nat → Nameless) : Nat → Nameless
  | 0 => bound 0
  | i + 1 => (s i).shift

def subst (s : Nat → Nameless) : Nameless → Nameless
  | bound i => s i
  | free x => free x
  | global c => global c
  | lit l => lit l
  | app f x => app (f.subst s) (x.subst s)
  | lam body => lam (body.subst (liftSubst s))
  | letIn value body => letIn (value.subst s) (body.subst (liftSubst s))

/-- The substitution that takes the innermost binder away. -/
def top (u : Nameless) : Nat → Nameless
  | 0 => u
  | i + 1 => bound i

/-- The body of a binder with a term put in for its variable. -/
def inst (body u : Nameless) : Nameless := body.subst (top u)

theorem liftRenaming_comp (r q : Nat → Nat) :
    liftRenaming r ∘ liftRenaming q = liftRenaming (r ∘ q) := by
  funext i
  cases i <;> rfl

theorem rename_rename (t : Nameless) (r q : Nat → Nat) :
    (t.rename q).rename r = t.rename (r ∘ q) := by
  induction t generalizing r q with
  | bound i => rfl
  | free x => rfl
  | global c => rfl
  | lit l => rfl
  | app f x ihf ihx => simp only [rename, ihf, ihx]
  | lam body ih => simp only [rename, ih, liftRenaming_comp]
  | letIn value body ihv ih => simp only [rename, ihv, ih, liftRenaming_comp]

theorem rename_shift (t : Nameless) (r : Nat → Nat) :
    t.shift.rename (liftRenaming r) = (t.rename r).shift := by
  rw [shift, shift, rename_rename, rename_rename]
  rfl

theorem liftSubst_comp_liftRenaming (s : Nat → Nameless) (r : Nat → Nat) :
    liftSubst s ∘ liftRenaming r = liftSubst (s ∘ r) := by
  funext i
  cases i <;> rfl

theorem subst_rename (t : Nameless) (s : Nat → Nameless) (r : Nat → Nat) :
    (t.rename r).subst s = t.subst (s ∘ r) := by
  induction t generalizing s r with
  | bound i => rfl
  | free x => rfl
  | global c => rfl
  | lit l => rfl
  | app f x ihf ihx => simp only [rename, subst, ihf, ihx]
  | lam body ih => simp only [rename, subst, ih, liftSubst_comp_liftRenaming]
  | letIn value body ihv ih => simp only [rename, subst, ihv, ih, liftSubst_comp_liftRenaming]

theorem rename_liftSubst (s : Nat → Nameless) (r : Nat → Nat) :
    rename (liftRenaming r) ∘ liftSubst s = liftSubst (rename r ∘ s) := by
  funext i
  cases i with
  | zero => rfl
  | succ i => exact rename_shift (s i) r

theorem rename_subst (t : Nameless) (r : Nat → Nat) (s : Nat → Nameless) :
    (t.subst s).rename r = t.subst (rename r ∘ s) := by
  induction t generalizing r s with
  | bound i => rfl
  | free x => rfl
  | global c => rfl
  | lit l => rfl
  | app f x ihf ihx => simp only [rename, subst, ihf, ihx]
  | lam body ih => simp only [rename, subst, ih, rename_liftSubst]
  | letIn value body ihv ih => simp only [rename, subst, ihv, ih, rename_liftSubst]

theorem subst_shift (t : Nameless) (s : Nat → Nameless) :
    t.shift.subst (liftSubst s) = (t.subst s).shift := by
  rw [shift, shift, subst_rename, rename_subst]
  rfl

theorem liftSubst_bound : liftSubst bound = bound := by
  funext i
  cases i <;> rfl

theorem subst_bound (t : Nameless) : t.subst bound = t := by
  induction t with
  | bound i => rfl
  | free x => rfl
  | global c => rfl
  | lit l => rfl
  | app f x ihf ihx => simp only [subst, ihf, ihx]
  | lam body ih => simp only [subst, liftSubst_bound, ih]
  | letIn value body ihv ih => simp only [subst, liftSubst_bound, ihv, ih]

/-- A term that was moved under a binder does not mention its variable. -/
theorem inst_shift (t u : Nameless) : t.shift.inst u = t := by
  rw [shift, inst, subst_rename]
  exact subst_bound t

/-- Beta, eta and the unfolding of local definitions, anywhere in a term and in both directions. -/
inductive Conv : Nameless → Nameless → Prop where
  | refl (t) : Conv t t
  | symm {t u} : Conv t u → Conv u t
  | trans {t u v} : Conv t u → Conv u v → Conv t v
  | app {f g x y} : Conv f g → Conv x y → Conv (app f x) (app g y)
  | lam {t u} : Conv t u → Conv (lam t) (lam u)
  | letIn {v w t u} : Conv v w → Conv t u → Conv (letIn v t) (letIn w u)
  | beta (body x) : Conv (Nameless.app (Nameless.lam body) x) (body.inst x)
  | eta (f) : Conv (Nameless.lam (Nameless.app f.shift (bound 0))) f
  | unfold (value body) : Conv (Nameless.letIn value body) (body.inst value)

theorem Conv.of_eq {t u : Nameless} (h : t = u) : Conv t u := h ▸ .refl t

def apply (f : Nameless) (xs : List Nameless) : Nameless := xs.foldl app f

theorem Conv.apply_left {f g : Nameless} (h : Conv f g) (xs : List Nameless) :
    Conv (f.apply xs) (g.apply xs) := by
  induction xs generalizing f g with
  | nil => exact h
  | cons x xs ih => exact ih (.app h (.refl x))

theorem Conv.apply {f g : Nameless} {xs ys : List Nameless} (hf : Conv f g)
    (h : List.Forall₂ Conv xs ys) : Conv (f.apply xs) (g.apply ys) := by
  induction h generalizing f g with
  | nil => exact hf
  | cons hx _ ih => exact ih (.app hf hx)

end Nameless

/-- A meaning for the free variables and the globals of a term. -/
structure Reading where
  globals : Name → Nameless
  locals : LocalId → Nameless

namespace Reading

def plain : Reading := ⟨.global, .free⟩

/-- The reading under a binder of `x`. -/
def under (r : Reading) (x : LocalId) : Reading where
  globals c := (r.globals c).shift
  locals y := if y = x then .bound 0 else (r.locals y).shift

def assign (r : Reading) (x : LocalId) (u : Nameless) : Reading where
  globals := r.globals
  locals := Function.update r.locals x u

def map (r : Reading) (f : Nameless → Nameless) : Reading := ⟨f ∘ r.globals, f ∘ r.locals⟩

end Reading

namespace Term

/-- The nameless form of a term under a reading. -/
def read (r : Reading) : Term → Nameless
  | var x => r.locals x
  | global c => r.globals c
  | lit l => .lit l
  | app f x => .app (f.read r) (x.read r)
  | lam b body => .lam (body.read (r.under b.id))
  | letIn b value body => .letIn (value.read r) (body.read (r.under b.id))

theorem read_congr {t : Term} {r q : Reading}
    (hx : ∀ x ∈ t.occurrences, r.locals x = q.locals x)
    (hc : ∀ c ∈ t.globals, r.globals c = q.globals c) : t.read r = t.read q := by
  -- Under a binder of `b` both readings are shifted, and `b` itself reads the same.
  have under {b : LocalId} {body : Term} {r q : Reading}
      (h : ∀ x ∈ body.occurrences.filter (· ≠ b), r.locals x = q.locals x) :
      ∀ x ∈ body.occurrences, (r.under b).locals x = (q.under b).locals x := by
    intro x hx
    by_cases hb : x = b
    · simp [Reading.under, hb]
    · simp [Reading.under, hb, h x (by simp [hx, hb])]
  have shifted {c : Name} {b : LocalId} {r q : Reading} (h : r.globals c = q.globals c) :
      (r.under b).globals c = (q.under b).globals c := by
    simp [Reading.under, h]
  induction t generalizing r q with
  | var x => exact hx x (by simp [occurrences])
  | global c => exact hc c (by simp [globals])
  | lit l => rfl
  | app f x ihf ihx =>
    simp only [occurrences, globals, List.mem_append] at hx hc
    rw [read, read, ihf (fun y h => hx y (.inl h)) (fun c h => hc c (.inl h)),
      ihx (fun y h => hx y (.inr h)) (fun c h => hc c (.inr h))]
  | lam b body ih =>
    rw [read, read, ih (under hx) fun c h => shifted (hc c h)]
  | letIn b value body ihv ih =>
    simp only [occurrences, globals, List.mem_append] at hx hc
    rw [read, read, ihv (fun y h => hx y (.inl h)) (fun c h => hc c (.inl h)),
      ih (under fun y h => hx y (.inr h)) fun c h => shifted (hc c (.inr h))]

theorem rename_read (t : Term) (r : Reading) (f : Nat → Nat) :
    (t.read r).rename f = t.read (r.map (Nameless.rename f)) := by
  have under (r : Reading) (f : Nat → Nat) (x : LocalId) :
      (r.under x).map (Nameless.rename (Nameless.liftRenaming f)) =
        (r.map (Nameless.rename f)).under x := by
    simp only [Reading.map, Reading.under, Reading.mk.injEq]
    constructor
    · funext c
      exact Nameless.rename_shift _ f
    · funext y
      by_cases h : y = x
      · simp [h, Nameless.rename, Nameless.liftRenaming]
      · simp [h, Nameless.rename_shift]
  induction t generalizing r f with
  | var x => rfl
  | global c => rfl
  | lit l => rfl
  | app g x ihg ihx => simp only [read, Nameless.rename, ihg, ihx]
  | lam b body ih => simp only [read, Nameless.rename, ih, under]
  | letIn b value body ihv ih => simp only [read, Nameless.rename, ihv, ih, under]

theorem subst_read (t : Term) (r : Reading) (f : Nat → Nameless) :
    (t.read r).subst f = t.read (r.map (Nameless.subst f)) := by
  have under (r : Reading) (f : Nat → Nameless) (x : LocalId) :
      (r.under x).map (Nameless.subst (Nameless.liftSubst f)) =
        (r.map (Nameless.subst f)).under x := by
    simp only [Reading.map, Reading.under, Reading.mk.injEq]
    constructor
    · funext c
      exact Nameless.subst_shift _ f
    · funext y
      by_cases h : y = x
      · simp [h, Nameless.subst, Nameless.liftSubst]
      · simp [h, Nameless.subst_shift]
  induction t generalizing r f with
  | var x => rfl
  | global c => rfl
  | lit l => rfl
  | app g x ihg ihx => simp only [read, Nameless.subst, ihg, ihx]
  | lam b body ih => simp only [read, Nameless.subst, ih, under]
  | letIn b value body ihv ih => simp only [read, Nameless.subst, ihv, ih, under]

/-- Putting a term in for the innermost binder assigns it to the variable that was bound. -/
theorem inst_read (t : Term) (r : Reading) (x : LocalId) (u : Nameless) :
    (t.read (r.under x)).inst u = t.read (r.assign x u) := by
  rw [Nameless.inst, subst_read]
  congr 1
  simp only [Reading.map, Reading.under, Reading.assign, Reading.mk.injEq]
  constructor
  · funext c
    exact Nameless.inst_shift _ u
  · funext y
    by_cases h : y = x
    · simp [h, Nameless.subst, Nameless.top]
    · rw [Function.update_of_ne h]
      simpa [h, Nameless.inst] using Nameless.inst_shift (r.locals y) u

/-- A variable that is not free may be bound. -/
theorem shift_read {t : Term} {x : LocalId} (r : Reading) (h : x ∉ t.occurrences) :
    (t.read r).shift = t.read (r.under x) := by
  rw [Nameless.shift, rename_read]
  refine read_congr (fun y hy => ?_) fun c _ => rfl
  have hyx : y ≠ x := fun e => h (e ▸ hy)
  simp [Reading.map, Reading.under, hyx, Nameless.shift]

end Term

/-- The reading in which variables stand for what is put in for them. -/
def Reading.through (r : Reading) (s : Replacement) : Reading where
  globals := r.globals
  locals x := ((s x).map (Term.read r)).getD (r.locals x)

namespace Reading

theorem through_locals_of_eq_some {r : Reading} {s : Replacement} {x : LocalId} {u : Term}
    (h : s x = some u) : (r.through s).locals x = u.read r := by
  simp [through, h]

theorem through_locals_of_eq_none {r : Reading} {s : Replacement} {x : LocalId}
    (h : s x = none) : (r.through s).locals x = r.locals x := by
  simp [through, h]

end Reading

namespace Term

/-- No binder of the term catches a variable of what is put in. -/
def CaptureFree (s : Replacement) (t : Term) : Prop :=
  ∀ x ∈ t.occurrences, ∀ u, s x = some u → ∀ y ∈ u.occurrences, y ∉ t.binders

theorem CaptureFree.under {s : Replacement} {b : Binder} {body : Term}
    (h : ∀ x ∈ body.occurrences, x ≠ b.id → ∀ u, s x = some u → ∀ y ∈ u.occurrences,
      y ∉ body.binders) : body.CaptureFree (s.hide b.id) := by
  intro x hx u hu
  rw [Replacement.hide_eq_some] at hu
  exact h x hx hu.1 u hu.2

/-- Reading under a binder, after a substitution that the binder does not catch. -/
theorem read_under_through {r : Reading} {s : Replacement} {b : Binder} {body : Term}
    (h : ∀ x ∈ body.occurrences, x ≠ b.id → ∀ u, s x = some u → b.id ∉ u.occurrences) :
    body.read ((r.under b.id).through (s.hide b.id)) = body.read ((r.through s).under b.id) := by
  refine read_congr (fun x hx => ?_) fun c _ => rfl
  by_cases hb : x = b.id
  · have hs : s.hide b.id x = none := by simp [Replacement.hide, hb]
    rw [Reading.through_locals_of_eq_none hs]
    simp [Reading.under, hb]
  · cases hs : s x with
    | none =>
      have hs' : s.hide b.id x = none := by simp [Replacement.hide, hs]
      rw [Reading.through_locals_of_eq_none hs']
      simp [Reading.under, hb, Reading.through_locals_of_eq_none hs]
    | some u =>
      have hs' : s.hide b.id x = some u := Replacement.hide_eq_some.2 ⟨hb, hs⟩
      rw [Reading.through_locals_of_eq_some hs', ← shift_read r (h x hx hb u hs)]
      simp [Reading.under, hb, Reading.through_locals_of_eq_some hs]

theorem read_substitute {t : Term} {s : Replacement} (r : Reading) (h : t.CaptureFree s) :
    (t.substitute s).read r = t.read (r.through s) := by
  induction t generalizing s r with
  | var x => cases hx : s x <;> simp [substitute, read, Reading.through, hx]
  | global c => rfl
  | lit l => rfl
  | app f x ihf ihx =>
    have hf : f.CaptureFree s := fun y hy u hu z hz hb =>
      h y (List.mem_append_left _ hy) u hu z hz (List.mem_append_left _ hb)
    have hx : x.CaptureFree s := fun y hy u hu z hz hb =>
      h y (List.mem_append_right _ hy) u hu z hz (List.mem_append_right _ hb)
    rw [substitute, read, read, ihf r hf, ihx r hx]
  | lam b body ih =>
    have hb : ∀ x ∈ body.occurrences, x ≠ b.id → ∀ u, s x = some u → ∀ y ∈ u.occurrences,
        y ∉ (lam b body).binders :=
      fun x hx hne u hu => h x (by simp [occurrences, hx, hne]) u hu
    have hin : body.CaptureFree (s.hide b.id) :=
      .under fun x hx hne u hu y hy hm => hb x hx hne u hu y hy (List.mem_cons_of_mem _ hm)
    have hout : ∀ x ∈ body.occurrences, x ≠ b.id → ∀ u, s x = some u → b.id ∉ u.occurrences :=
      fun x hx hne u hu hm => hb x hx hne u hu b.id hm List.mem_cons_self
    rw [read, ← read_under_through hout, ← ih _ hin]
    rfl
  | letIn b value body ihv ih =>
    have hv : value.CaptureFree s := fun y hy u hu z hz hm =>
      h y (by simp [occurrences, hy]) u hu z hz (by simp [binders, hm])
    have hb : ∀ x ∈ body.occurrences, x ≠ b.id → ∀ u, s x = some u → ∀ y ∈ u.occurrences,
        y ∉ (letIn b value body).binders :=
      fun x hx hne u hu => h x (by simp [occurrences, hx, hne]) u hu
    have hin : body.CaptureFree (s.hide b.id) :=
      .under fun x hx hne u hu y hy hm => hb x hx hne u hu y hy (by simp [binders, hm])
    have hout : ∀ x ∈ body.occurrences, x ≠ b.id → ∀ u, s x = some u → b.id ∉ u.occurrences :=
      fun x hx hne u hu hm => hb x hx hne u hu b.id hm (by simp [binders])
    rw [read, ← read_under_through hout, ← ih _ hin, ← ihv r hv]
    rfl

def boundReading (bs : List LocalId) : Reading where
  globals := .global
  locals x := match bs.idxOf? x with
    | some i => .bound i
    | none => .free x

theorem boundReading_cons (b : LocalId) (bs : List LocalId) :
    boundReading (b :: bs) = (boundReading bs).under b := by
  simp only [boundReading, Reading.under, Reading.mk.injEq]
  refine ⟨rfl, funext fun x => ?_⟩
  by_cases h : x = b
  · simp [h, List.idxOf?_cons]
  · have hb : (b == x) = false := by simp [Ne.symm h]
    rw [List.idxOf?_cons, hb, if_neg h]
    cases bs.idxOf? x <;> rfl

theorem nameless_eq_read_boundReading (t : Term) (bs : List LocalId) :
    t.nameless bs = t.read (boundReading bs) := by
  induction t generalizing bs with
  | var x => rfl
  | global c => rfl
  | lit l => rfl
  | app f x ihf ihx => simp only [nameless, read, ihf, ihx]
  | lam b body ih => simp only [nameless, read, ih, boundReading_cons]
  | letIn b value body ihv ih => simp only [nameless, read, ihv, ih, boundReading_cons]

theorem nameless_eq_read (t : Term) : t.nameless [] = t.read .plain :=
  nameless_eq_read_boundReading t []

/-- Terms that are equal up to bound names, beta, eta and the unfolding of local definitions. -/
def Convertible (t u : Term) : Prop := Nameless.Conv (t.nameless []) (u.nameless [])

end Term

end LambdaLifting
