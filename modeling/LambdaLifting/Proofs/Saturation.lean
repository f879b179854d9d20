import LambdaLifting.Proofs.Flatness

namespace LambdaLifting

/-- The number of arguments that a global cannot do without. A dispatcher needs a scrutinee, and an
arm for each constructor of its type. -/
def Environment.leastArgs (env : Environment) (c : Name) : Nat :=
  match env.kind? c with
  | some (.dispatcher type) => 1 + ((env.type? type).map InductiveType.arms).getD 0
  | _ => 0

theorem Environment.leastArgs_of_dispatcher {env : Environment} {c type : Name}
    (h : env.kind? c = some (.dispatcher type)) :
    env.leastArgs c = 1 + ((env.type? type).map InductiveType.arms).getD 0 := by
  simp only [leastArgs, h]

namespace Term

/-- All globals of a term have the arguments they need, if the term itself is applied to `n`. -/
def Saturated (env : Environment) : Nat → Term → Prop
  | _, var _ | _, lit _ => True
  | n, global c => env.leastArgs c ≤ n
  | n, app f x => f.Saturated env (n + 1) ∧ x.Saturated env 0
  | _, lam _ body => body.Saturated env 0
  | _, letIn _ value body => value.Saturated env 0 ∧ body.Saturated env 0

instance Saturated.decidable (env : Environment) : (n : Nat) → (t : Term) →
    Decidable (t.Saturated env n)
  | _, var _ | _, lit _ => inferInstanceAs (Decidable True)
  | n, global c => inferInstanceAs (Decidable (env.leastArgs c ≤ n))
  | n, app f x =>
    have := decidable env (n + 1) f
    have := decidable env 0 x
    inferInstanceAs (Decidable (_ ∧ _))
  | _, lam _ body => decidable env 0 body
  | _, letIn _ value body =>
    have := decidable env 0 value
    have := decidable env 0 body
    inferInstanceAs (Decidable (_ ∧ _))

namespace Saturated

variable {env : Environment} {n : Nat} {t : Term}

theorem mono {m : Nat} (h : t.Saturated env n) (hnm : n ≤ m) : t.Saturated env m := by
  induction t generalizing n m with
  | global c => exact Nat.le_trans h hnm
  | app f x ihf _ => exact ⟨ihf h.1 (by omega), h.2⟩
  | _ => exact h

theorem apply_iff {f : Term} {xs : List Term} :
    (f.apply xs).Saturated env n ↔
      f.Saturated env (n + xs.length) ∧ ∀ x ∈ xs, x.Saturated env 0 := by
  induction xs generalizing f with
  | nil => simp
  | cons x xs ih =>
    rw [apply_cons, ih, Saturated, List.forall_mem_cons, List.length_cons, and_assoc,
      Nat.add_assoc]

theorem substitute {s : Replacement} (h : t.Saturated env n)
    (hs : ∀ x u, s x = some u → u.Saturated env 0) : (t.substitute s).Saturated env n := by
  induction t generalizing n s with
  | var x =>
    cases hx : s x with
    | none => simp [Term.substitute, hx, Saturated]
    | some u =>
      -- What is put in at the head of an application gets more arguments than it has.
      simpa [Term.substitute, hx] using (hs x u hx).mono (Nat.zero_le n)
  | global c => exact h
  | lit l => exact h
  | app f x ihf ihx => exact ⟨ihf h.1 hs, ihx h.2 hs⟩
  | lam b body ih => exact ih h (Replacement.forall_hide b.id hs)
  | letIn b value body ihv ih => exact ⟨ihv h.1 hs, ih h.2 (Replacement.forall_hide b.id hs)⟩

theorem step {u : Term} (h : t.Saturated env n) (hstep : HeadStep t u) : u.Saturated env n := by
  induction hstep generalizing n with
  | beta b body x =>
    have hbody : body.Saturated env 0 := h.1
    refine (hbody.substitute fun y u hu => ?_).mono (Nat.zero_le n)
    exact (Replacement.eq_of_empty_add hu).2 ▸ h.2
  | app x _ ih => exact ⟨ih h.1, h.2⟩

/-- Lifting meets saturated terms only, if it starts with one. -/
theorem stable (env : Environment) : Stable fun t => t.Saturated env 0 where
  body h := h
  letIn h := h
  expand x h := ⟨h.mono (Nat.zero_le 1), trivial⟩
  rename hs h := h.substitute fun x u hu => by
    obtain ⟨y, rfl⟩ := hs x u hu
    trivial
  step hstep h := h.step hstep

/-- A dispatcher in a saturated term has arguments. -/
theorem bareIn (h : t.Saturated env 0) : BareIn env (fun _ => False) t := by
  have unapplied {c : Name} {t : Term} {n : Nat} (h : t.Saturated env n)
      (hc : c ∈ t.unapplied) (hn : t = .global c → n = 0) : env.leastArgs c = 0 := by
    induction t generalizing n with
    | var x => simp [Term.unapplied] at hc
    | lit l => simp [Term.unapplied] at hc
    | global d =>
      rw [Term.unapplied, List.mem_singleton] at hc
      subst hc
      exact Nat.le_zero.1 (hn rfl ▸ h)
    | app f x ihf ihx =>
      rcases mem_unapplied_app.1 hc with ⟨hc, hne⟩ | hc
      · exact ihf h.1 hc fun e => absurd e hne
      · exact ihx h.2 hc fun _ => rfl
    | lam b body ih => exact ih h hc fun _ => rfl
    | letIn b value body ihv ih =>
      rcases List.mem_append.1 hc with hc | hc
      · exact ihv h.1 hc fun _ => rfl
      · exact ih h.2 hc fun _ => rfl
  intro c hc type hk
  have := unapplied h hc fun _ => rfl
  rw [Environment.leastArgs_of_dispatcher hk] at this
  omega

end Saturated

end Term

end LambdaLifting
