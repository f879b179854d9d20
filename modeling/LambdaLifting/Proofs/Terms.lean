import LambdaLifting.Term
import Mathlib.Data.List.Basic
import Mathlib.Data.List.Induction

namespace LambdaLifting

theorem eraseDups_concat {α : Type} [BEq α] [LawfulBEq α] (xs : List α) (x : α) :
    (xs ++ [x]).eraseDups = if xs.contains x then xs.eraseDups else xs.eraseDups ++ [x] := by
  rw [List.eraseDups_append, List.cons_removeAll]
  cases xs.contains x <;> simp [List.eraseDups_cons, List.removeAll]

abbrev Replacement := LocalId → Option Term

namespace Replacement

def empty : Replacement := fun _ => none

def hide (s : Replacement) (x : LocalId) : Replacement := fun y => if y = x then none else s y

def add (s : Replacement) (x : LocalId) (t : Term) : Replacement :=
  fun y => if y = x then some t else s y

theorem hide_eq_some {s : Replacement} {x y : LocalId} {t : Term} :
    s.hide x y = some t ↔ y ≠ x ∧ s y = some t := by
  by_cases h : y = x <;> simp [hide, h]

@[simp]
theorem add_self (s : Replacement) (x : LocalId) (t : Term) : s.add x t x = some t := by
  simp [add]

theorem add_of_ne (s : Replacement) {x y : LocalId} (t : Term) (h : y ≠ x) :
    s.add x t y = s y := by
  simp [add, h]

theorem forall_add {s : Replacement} {P : LocalId → Term → Prop} {x : LocalId} {t : Term}
    (hs : ∀ y u, s y = some u → P y u) (ht : P x t) : ∀ y u, s.add x t y = some u → P y u := by
  intro y u hu
  by_cases e : y = x
  · rw [e, add_self] at hu
    exact Option.some.inj hu ▸ e ▸ ht
  · exact hs y u (s.add_of_ne t e ▸ hu)

theorem forall_hide {s : Replacement} {P : LocalId → Term → Prop} (x : LocalId)
    (hs : ∀ y u, s y = some u → P y u) : ∀ y u, s.hide x y = some u → P y u :=
  fun y u hu => hs y u (hide_eq_some.1 hu).2

end Replacement

namespace Term

def locals : Term → List LocalId
  | var x => [x]
  | global _ | lit _ => []
  | app f x => f.locals ++ x.locals
  | lam b body => b.id :: body.locals
  | letIn b value body => b.id :: (value.locals ++ body.locals)

def binders : Term → List LocalId
  | var _ | global _ | lit _ => []
  | app f x => f.binders ++ x.binders
  | lam b body => b.id :: body.binders
  | letIn b value body => b.id :: (value.binders ++ body.binders)

def globals : Term → List Name
  | var _ | lit _ => []
  | global c => [c]
  | app f x => f.globals ++ x.globals
  | lam _ body => body.globals
  | letIn _ value body => value.globals ++ body.globals

def lambdas (bs : List Binder) (t : Term) : Term := bs.foldr lam t

def lets (ds : List (Binder × Term)) (t : Term) : Term := ds.foldr (fun d u => letIn d.1 d.2 u) t

def isLambda : Term → Bool
  | lam _ _ => true
  | _ => false

def isApp : Term → Bool
  | app _ _ => true
  | _ => false

def leading : Term → Nat
  | lam _ body => body.leading + 1
  | _ => 0

theorem leading_of_isLambda_eq_false {t : Term} (h : t.isLambda = false) : t.leading = 0 := by
  cases t with
  | lam b body => simp [isLambda] at h
  | _ => rfl

theorem mem_locals_of_mem_binders {t : Term} {x : LocalId} (h : x ∈ t.binders) : x ∈ t.locals := by
  induction t with
  | var y => simp [binders] at h
  | global c => simp [binders] at h
  | lit l => simp [binders] at h
  | app f y ihf ihy =>
    rcases List.mem_append.1 h with h | h
    · exact List.mem_append_left _ (ihf h)
    · exact List.mem_append_right _ (ihy h)
  | lam b body ih =>
    rcases List.mem_cons.1 h with h | h
    · exact h ▸ List.mem_cons_self
    · exact List.mem_cons_of_mem _ (ih h)
  | letIn b value body ihv ih =>
    simp only [binders, locals, List.mem_cons, List.mem_append] at h ⊢
    exact h.imp_right (Or.imp ihv ih)

@[simp]
theorem substitute_empty (t : Term) : t.substitute Replacement.empty = t :=
  t.substitute_of_forall_not_mem fun _ _ => rfl

@[simp]
theorem apply_nil (f : Term) : f.apply [] = f := rfl

@[simp]
theorem apply_cons (f x : Term) (xs : List Term) : f.apply (x :: xs) = (app f x).apply xs := rfl

theorem apply_concat (f : Term) (xs : List Term) (x : Term) :
    f.apply (xs ++ [x]) = app (f.apply xs) x := by
  rw [apply_append]; rfl

theorem exists_apply_eq_app (f : Term) {xs : List Term} (h : xs ≠ []) :
    ∃ g x, f.apply xs = app g x := by
  obtain ⟨init, last, rfl⟩ := (List.eq_nil_or_concat xs).resolve_left h
  exact ⟨f.apply init, last, by rw [List.concat_eq_append, apply_concat]⟩

theorem isApp_apply (f : Term) {xs : List Term} (h : xs ≠ []) : (f.apply xs).isApp = true := by
  obtain ⟨g, x, heq⟩ := f.exists_apply_eq_app h
  rw [heq]
  rfl

theorem isLambda_apply {f : Term} (hf : f.isLambda = false) (xs : List Term) :
    (f.apply xs).isLambda = false := by
  induction xs generalizing f with
  | nil => exact hf
  | cons x xs ih => exact ih rfl

theorem exists_spine (t : Term) :
    ∃ (f : Term) (xs : List Term), t = f.apply xs ∧ f.isApp = false := by
  induction t with
  | app f x ihf _ =>
    obtain ⟨g, xs, rfl, hg⟩ := ihf
    exact ⟨g, xs ++ [x], (apply_concat g xs x).symm, hg⟩
  | _ => exact ⟨_, [], rfl, rfl⟩

theorem apply_inj {f g : Term} {xs ys : List Term} (hf : f.isApp = false) (hg : g.isApp = false)
    (h : f.apply xs = g.apply ys) : f = g ∧ xs = ys := by
  induction xs using List.reverseRecOn generalizing ys with
  | nil =>
    induction ys using List.reverseRecOn with
    | nil => exact ⟨h, rfl⟩
    | append_singleton ys y _ =>
      rw [apply_concat, apply_nil] at h
      cases h ▸ hf
  | append_singleton xs x ih =>
    induction ys using List.reverseRecOn with
    | nil =>
      rw [apply_concat, apply_nil] at h
      cases h ▸ hg
    | append_singleton ys y _ =>
      rw [apply_concat, apply_concat] at h
      injection h with hhead hx
      obtain ⟨hfg, rfl⟩ := ih hhead
      exact ⟨hfg, by rw [hx]⟩

theorem lambdas_inj {bs cs : List Binder} {t u : Term} (ht : t.isLambda = false)
    (hu : u.isLambda = false) (h : lambdas bs t = lambdas cs u) : bs = cs ∧ t = u := by
  induction bs generalizing cs with
  | nil =>
    cases cs with
    | nil => exact ⟨rfl, h⟩
    | cons c cs =>
      rw [show t = lam c (lambdas cs u) from h] at ht
      cases ht
  | cons b bs ih =>
    cases cs with
    | nil =>
      rw [show u = lam b (lambdas bs t) from h.symm] at hu
      cases hu
    | cons c cs =>
      injection h with hb h
      obtain ⟨rfl, rfl⟩ := ih h
      exact ⟨by rw [hb], rfl⟩

theorem substitute_lam (s : Replacement) (b : Binder) (body : Term) :
    (lam b body).substitute s = lam b (body.substitute (s.hide b.id)) := rfl

theorem substitute_letIn (s : Replacement) (b : Binder) (v body : Term) :
    (letIn b v body).substitute s = letIn b (v.substitute s) (body.substitute (s.hide b.id)) := rfl

theorem substitute_apply (s : Replacement) (f : Term) (xs : List Term) :
    (f.apply xs).substitute s = (f.substitute s).apply (xs.map (substitute s)) := by
  induction xs generalizing f with
  | nil => rfl
  | cons x xs ih => exact ih (app f x)

theorem occurrences_apply (f : Term) (xs : List Term) :
    (f.apply xs).occurrences = f.occurrences ++ xs.flatMap occurrences := by
  induction xs generalizing f with
  | nil => simp
  | cons x xs ih => rw [apply_cons, ih]; simp [occurrences]

theorem mem_occurrences_apply {f : Term} {xs : List Term} {y : LocalId} :
    y ∈ (f.apply xs).occurrences ↔ y ∈ f.occurrences ∨ ∃ x ∈ xs, y ∈ x.occurrences := by
  simp [occurrences_apply]

theorem mem_binders_apply {f : Term} {xs : List Term} {y : LocalId} :
    y ∈ (f.apply xs).binders ↔ y ∈ f.binders ∨ ∃ x ∈ xs, y ∈ x.binders := by
  induction xs generalizing f with
  | nil => simp
  | cons x xs ih => rw [apply_cons, ih]; simp [binders, or_assoc]

theorem mem_globals_apply {f : Term} {xs : List Term} {c : Name} :
    c ∈ (f.apply xs).globals ↔ c ∈ f.globals ∨ ∃ x ∈ xs, c ∈ x.globals := by
  induction xs generalizing f with
  | nil => simp
  | cons x xs ih => rw [apply_cons, ih]; simp [globals, or_assoc]

theorem mem_occurrences_lambdas {bs : List Binder} {t : Term} {x : LocalId} :
    x ∈ (lambdas bs t).occurrences ↔ x ∈ t.occurrences ∧ x ∉ bs.map Binder.id := by
  induction bs with
  | nil => simp [lambdas]
  | cons b bs ih =>
    change x ∈ (lambdas bs t).occurrences.filter (· ≠ b.id) ↔ _
    rw [List.mem_filter, ih]
    simp only [ne_eq, decide_not, Bool.not_eq_true', decide_eq_false_iff_not, List.map_cons,
      List.mem_cons, not_or]
    tauto

theorem mem_binders_lambdas {bs : List Binder} {t : Term} {x : LocalId} :
    x ∈ (lambdas bs t).binders ↔ x ∈ bs.map Binder.id ∨ x ∈ t.binders := by
  induction bs with
  | nil => simp [lambdas]
  | cons b bs ih =>
    change x ∈ b.id :: (lambdas bs t).binders ↔ _
    rw [List.mem_cons, ih, List.map_cons, List.mem_cons, or_assoc]

theorem globals_lambdas (bs : List Binder) (t : Term) : (lambdas bs t).globals = t.globals := by
  induction bs with
  | nil => rfl
  | cons b bs ih => exact ih

/-- A free variable after a substitution was free before, or is free in a term that was put in. -/
theorem mem_occurrences_substitute {t : Term} {s : Replacement} {x : LocalId}
    (h : x ∈ (t.substitute s).occurrences) :
    (x ∈ t.occurrences ∧ s x = none) ∨
      ∃ y ∈ t.occurrences, ∃ u, s y = some u ∧ x ∈ u.occurrences := by
  induction t generalizing s with
  | var y =>
    cases hy : s y with
    | none =>
      simp only [substitute, hy, Option.getD_none, occurrences, List.mem_singleton] at h
      exact .inl ⟨by simp [occurrences, h], h ▸ hy⟩
    | some u =>
      simp only [substitute, hy, Option.getD_some] at h
      exact .inr ⟨y, by simp [occurrences], u, hy, h⟩
  | global c => simp [substitute, occurrences] at h
  | lit l => simp [substitute, occurrences] at h
  | app f y ihf ihy =>
    simp only [substitute, occurrences, List.mem_append] at h ⊢
    rcases h with h | h
    · rcases ihf h with ⟨hx, hs⟩ | ⟨z, hz, hu⟩
      · exact .inl ⟨.inl hx, hs⟩
      · exact .inr ⟨z, .inl hz, hu⟩
    · rcases ihy h with ⟨hx, hs⟩ | ⟨z, hz, hu⟩
      · exact .inl ⟨.inr hx, hs⟩
      · exact .inr ⟨z, .inr hz, hu⟩
  | lam b body ih =>
    simp only [substitute, occurrences, List.mem_filter, decide_eq_true_eq] at h ⊢
    obtain ⟨h, hx⟩ := h
    rcases ih (s := s.hide b.id) h with ⟨hb, hs⟩ | ⟨z, hz, u, hu, hxu⟩
    · simp only [Replacement.hide, hx, if_false] at hs
      exact .inl ⟨⟨hb, hx⟩, hs⟩
    · rw [Replacement.hide_eq_some] at hu
      exact .inr ⟨z, ⟨hz, hu.1⟩, u, hu.2, hxu⟩
  | letIn b value body ihv ih =>
    simp only [substitute, occurrences, List.mem_append, List.mem_filter, decide_eq_true_eq] at h ⊢
    rcases h with h | ⟨h, hx⟩
    · rcases ihv h with ⟨hb, hs⟩ | ⟨z, hz, hu⟩
      · exact .inl ⟨.inl hb, hs⟩
      · exact .inr ⟨z, .inl hz, hu⟩
    · rcases ih (s := s.hide b.id) h with ⟨hb, hs⟩ | ⟨z, hz, u, hu, hxu⟩
      · simp only [Replacement.hide, hx, if_false] at hs
        exact .inl ⟨.inr ⟨hb, hx⟩, hs⟩
      · rw [Replacement.hide_eq_some] at hu
        exact .inr ⟨z, .inr ⟨hz, hu.1⟩, u, hu.2, hxu⟩

/-- What a term collects at its leaves and binders after a substitution, it collected before, or it
comes from a term that was put in. -/
theorem mem_collected_substitute {α : Type} (C : Term → List α) (here : Binder → List α)
    (happ : ∀ f x, C (app f x) = C f ++ C x) (hlam : ∀ b t, C (lam b t) = here b ++ C t)
    (hlet : ∀ b v t, C (letIn b v t) = here b ++ (C v ++ C t)) {t : Term} {s : Replacement} {c : α}
    (h : c ∈ C (t.substitute s)) : c ∈ C t ∨ ∃ y u, s y = some u ∧ c ∈ C u := by
  -- Under a binder fewer variables are replaced, so nothing new can come in.
  have hide {s : Replacement} {b : Binder} (h : ∃ y u, s.hide b.id y = some u ∧ c ∈ C u) :
      ∃ y u, s y = some u ∧ c ∈ C u := by
    obtain ⟨y, u, hu, hc⟩ := h
    exact ⟨y, u, (Replacement.hide_eq_some.1 hu).2, hc⟩
  induction t generalizing s with
  | var y =>
    cases hy : s y with
    | none =>
      rw [substitute, hy] at h
      exact .inl h
    | some u =>
      rw [substitute, hy] at h
      exact .inr ⟨y, u, hy, h⟩
  | global d => exact .inl h
  | lit l => exact .inl h
  | app f x ihf ihx =>
    simp only [substitute, happ, List.mem_append] at h ⊢
    rcases h with h | h
    · exact (ihf h).imp_left .inl
    · exact (ihx h).imp_left .inr
  | lam b body ih =>
    simp only [substitute_lam, hlam, List.mem_append] at h ⊢
    rcases h with h | h
    · exact .inl (.inl h)
    · exact (ih h).imp .inr hide
  | letIn b value body ihv ih =>
    simp only [substitute_letIn, hlet, List.mem_append] at h ⊢
    rcases h with h | h | h
    · exact .inl (.inl h)
    · exact (ihv h).imp_left fun hc => .inr (.inl hc)
    · exact (ih h).imp (fun hc => .inr (.inr hc)) hide

theorem mem_binders_substitute {t : Term} {s : Replacement} {x : LocalId}
    (h : x ∈ (t.substitute s).binders) : x ∈ t.binders ∨ ∃ y u, s y = some u ∧ x ∈ u.binders :=
  mem_collected_substitute binders (fun b => [b.id]) (fun _ _ => rfl) (fun _ _ => rfl)
    (fun _ _ _ => rfl) h

theorem mem_globals_substitute {t : Term} {s : Replacement} {c : Name}
    (h : c ∈ (t.substitute s).globals) : c ∈ t.globals ∨ ∃ y u, s y = some u ∧ c ∈ u.globals :=
  mem_collected_substitute globals (fun _ => []) (fun _ _ => rfl) (fun _ _ => rfl)
    (fun _ _ _ => rfl) h

end Term

end LambdaLifting
