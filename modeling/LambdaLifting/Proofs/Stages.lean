import LambdaLifting.Proofs.CallGraph
import LambdaLifting.Proofs.Shape

namespace LambdaLifting

namespace Term

theorem isLambda_lambdas {bs : List Binder} (h : bs ≠ []) (t : Term) :
    (lambdas bs t).isLambda = true := by
  cases bs with
  | nil => exact absurd rfl h
  | cons b bs => rfl

theorem isLambda_lambdas_of_isLambda {t : Term} (h : t.isLambda = true) (bs : List Binder) :
    (lambdas bs t).isLambda = true := by
  cases bs with
  | nil => exact h
  | cons b bs => rfl

theorem isLambda_substitute {t : Term} (h : t.isLambda = true) (s : Replacement) :
    (t.substitute s).isLambda = true := by
  cases t with
  | lam b body => rfl
  | _ => cases h

end Term

namespace Stage

inductive Step (ctx : LiftContext) : Stage → Stage → Prop where
  | mint (w k) : Step ctx w (w.mint k)
  | call {w t w' u} : t.isLambda = true → Calls ctx w t w' u → Step ctx w w'

def Evolves (ctx : LiftContext) : Stage → Stage → Prop := Relation.ReflTransGen (Step ctx)

theorem Evolves.mint (ctx : LiftContext) (w : Stage) (k : Nat) : w.Evolves ctx (w.mint k) :=
  .single (.mint w k)

end Stage

/-- Lifting as far as it is given by `R` goes on step by step. -/
def Judgment.Evolves (ctx : LiftContext) (R : Judgment) : Prop :=
  ∀ ⦃Γ w t w' u⦄, R Γ w t w' u → w.Evolves ctx w'

namespace Judgment.Evolves

variable {ctx : LiftContext} {R : Judgment} {Γ : Context} {w w' : Stage}

theorem each {α : Type} {P : Stage → α → Stage → Term → Prop}
    (hP : ∀ ⦃w x w' u⦄, P w x w' u → w.Evolves ctx w') {xs : List α} {us : List Term}
    (h : Each P w xs w' us) : w.Evolves ctx w' := by
  induction h with
  | nil w => exact .refl
  | cons hx _ ih => exact (hP hx).trans ih

theorem under (hR : R.Evolves ctx) (k : Nat) : (Under ctx R k).Evolves ctx := by
  rintro Γ w t w' - ⟨-, hr⟩
  exact (Stage.Evolves.mint ctx w k).trans (hR hr)

theorem arm (hR : R.Evolves ctx) (params : Nat) ⦃w : Stage⦄ ⦃x : Name × Term⦄ ⦃w' : Stage⦄
    ⦃u : Term⦄ (h : Arm ctx R params Γ w x w' u) : w.Evolves ctx w' := by
  obtain ⟨-, h⟩ := h
  exact hR.under _ h

theorem chain (hR : R.Evolves ctx) {s : Replacement} {t u : Term} {ds : List (Binder × Term)}
    (h : Chain R Γ s w t w' ds u) : w.Evolves ctx w' := by
  induction h with
  | done _ hr => exact hR hr
  | letIn hr _ ih => exact (hR hr).trans ((Stage.Evolves.mint ctx _ 1).trans ih)

theorem rule (hR : R.Evolves ctx) : (Rule ctx R).Evolves ctx := by
  intro Γ w t w' u h
  cases h with
  | var => exact .refl
  | global c => exact .refl
  | lit l => exact .refl
  | dispatch _ _ _ hs he ha =>
    exact (hR hs).trans ((each (@hR Γ) he).trans (each (hR.arm _) ha))
  | beta _ _ hr => exact hR hr
  | call _ _ _ _ hf ha => exact (hR hf).trans (each (@hR Γ) ha)
  | lam hu hc hcall =>
    refine (hR.under _ hu).trans ((Stage.Evolves.mint ctx _ _).tail (.call ?_ hcall))
    -- The abstraction keeps its lambdas, and gets more of them in front.
    obtain ⟨hp, -⟩ := hu
    obtain ⟨-⟩ := hc
    refine Term.isLambda_lambdas_of_isLambda (Term.isLambda_substitute ?_ _) _
    refine Term.isLambda_lambdas (fun hnil => ?_) _
    have := hp.length_eq
    simp [hnil, Term.leading] at this
  | letIn hc => exact hR.chain hc

end Judgment.Evolves

theorem LiftsIn.evolves (ctx : LiftContext) (n : Nat) : (LiftsIn ctx n).Evolves ctx := by
  induction n with
  | zero => exact fun _ _ _ _ _ h => h.elim
  | succ n ih => exact ih.rule

theorem Derives.evolves {fuel : Nat} {ctx : LiftContext} {a b : Arena}
    {ps given lifted : List Procedure} {v w : Stage} {ts us : List Term}
    (h : Derives fuel ctx a ps b given lifted v w ts us) : v.Evolves ctx w :=
  Judgment.Evolves.each (fun _ _ _ _ h => (LiftsIn.evolves ctx fuel).under _ h) h.each

/-- An abstraction that is not eta equal to a call of a function. -/
structure Essential (env : Environment) (t : Term) : Prop where
  isLambda : t.isLambda = true
  head : ∀ c, t.etaReduce.headGlobal? = some c → ∃ k, env.kind? c = some k ∧ k.isPlain = false

theorem LiftContext.kind?_of_kindAt? {ctx : LiftContext} {ds : List Definition} {c : Name}
    {k : GlobalKind} (h : ctx.kindAt? ds c = some k) (hk : k.isPlain = false) :
    ctx.env.kind? c = some k := by
  rw [kindAt?] at h
  split at h
  · next hkind => exact hkind.trans h
  · split at h
    · cases h
      cases hk
    · cases h

namespace Stage

variable {ctx : LiftContext} {w w' : Stage}

theorem Step.essential (h : Step ctx w w') (hw : ∀ d ∈ w.lifted, Essential ctx.env d.body) :
    ∀ d ∈ w'.lifted, Essential ctx.env d.body := by
  cases h with
  | mint => exact hw
  | call ht hcall =>
    cases hcall with
    | reuse => exact hw
    | new hhead =>
      refine List.forall_mem_append.2 ⟨hw, List.forall_mem_singleton.2 ⟨ht, fun c hc => ?_⟩⟩
      obtain ⟨k, hk, hplain⟩ := hhead c hc
      exact ⟨k, LiftContext.kind?_of_kindAt? hk hplain, hplain⟩

theorem Evolves.essential (h : w.Evolves ctx w')
    (hw : ∀ d ∈ w.lifted, Essential ctx.env d.body) :
    ∀ d ∈ w'.lifted, Essential ctx.env d.body := by
  induction h with
  | refl => exact hw
  | tail _ hstep ih => exact hstep.essential ih

end Stage

namespace Program

variable {fuel : Nat} {env : Environment} {p : Program} {names names' : NameSource}
  {report : Report}

/-- A global that can stand for an abstraction: a function of the environment, or a procedure of the
program that the environment does not know. -/
def IsPlain (p : Program) (env : Environment) (c : Name) : Prop :=
  match env.kind? c with
  | some k => k.isPlain = true
  | none => c ∈ p.procedures.map Procedure.name

/-- The bodies of new procedures are abstractions, and are not eta equal to a call of a function or
of a procedure. -/
theorem not_isPlain_of_lift (hp : p.arena.WellFormed)
    (hrun : p.lift fuel env names = .ok (report, names')) (herror : report.error? = none) :
    ∀ q ∈ report.newProcedures p,
      (∃ b body, report.program.arena.node? q.body = some (.lam b body)) ∧
      ∃ e a head?, ArenaM.etaReduce q.body report.program.arena = .ok (e, a) ∧
        a.headGlobal? e = .ok head? ∧ ∀ c, head? = some c → ¬ report.program.IsPlain env c := by
  obtain ⟨ctx, given, lifted, v, w, ts, us, rfl, -, hprocs, h⟩ := derives_of_lift hp hrun herror
  have hlifted : ∀ d ∈ w.lifted, Essential ctx.env d.body :=
    h.evolves.essential (by simp [h.lifted_eq_nil])
  rw [Report.newProcedures, hprocs, ← h.length_given, List.drop_left]
  intro q hq
  obtain ⟨d, hd, -, hterm⟩ := exists_of_mem_forall₂ h.shows hq
  obtain ⟨hlam, hhead⟩ := hlifted d hd
  constructor
  · obtain ⟨n, hn⟩ := Arena.node?_of_term? hterm
    rw [h.wellFormed.isLambda_eq hterm hn] at hlam
    cases n with
    | lam b body => exact ⟨b, body, hn⟩
    | _ => cases hlam
  · obtain ⟨e, a, heta, hgrow, he⟩ := ArenaM.builds_etaReduce h.wellFormed hterm
    refine ⟨e, a, _, heta, hgrow.wellFormed.headGlobal?_eq_ok he, fun c hc hplain => ?_⟩
    obtain ⟨k, hk, hfalse⟩ := hhead c hc
    simp [IsPlain, hk, hfalse] at hplain

/-- A procedure with an abstraction that is eta equal to a constructor:
`main = λ l, g (λ x, List.cons l x)`. -/
def constructorProgram : Program where
  arena := .ofNodes
    [.var ⟨0⟩, .var ⟨1⟩, .global ⟨4⟩, .app ⟨2⟩ [⟨0⟩, ⟨1⟩], .lam ⟨⟨1⟩, ⟨10⟩⟩ ⟨3⟩,
      .global ⟨2⟩, .app ⟨5⟩ [⟨4⟩], .lam ⟨⟨0⟩, ⟨7⟩⟩ ⟨6⟩] 2
  procedures := [⟨⟨6⟩, ⟨7⟩⟩]
  config := { owner := ⟨6⟩ }

/-- The abstraction becomes a procedure, since a constructor cannot stand for it. -/
theorem not_isPlain_constructorProgram :
    constructorProgram.arena.WellFormed ∧
      ∃ report names' q, constructorProgram.lift 40 dispatchEnvironment dispatchNames =
        .ok (report, names') ∧ report.error? = none ∧ q ∈ report.newProcedures constructorProgram ∧
        (∃ b body, report.program.arena.node? q.body = some (.lam b body)) ∧
        ∃ e a head?, ArenaM.etaReduce q.body report.program.arena = .ok (e, a) ∧
          a.headGlobal? e = .ok head? ∧
          ∀ c, head? = some c → ¬ report.program.IsPlain dispatchEnvironment c := by
  have hp : constructorProgram.arena.WellFormed := by decide +kernel
  have hlifts : constructorProgram.liftsTo 40 dispatchEnvironment dispatchNames 2 = true := by
    decide +kernel
  obtain ⟨report, names', hrun, herror, hlength⟩ := exists_of_liftsTo hlifts
  have hpos : 0 < (report.newProcedures constructorProgram).length := by
    rw [Report.newProcedures, List.length_drop, hlength]
    decide
  obtain ⟨q, hq⟩ := List.exists_mem_of_length_pos hpos
  exact ⟨hp, report, names', q, hrun, herror, hq, not_isPlain_of_lift hp hrun herror q hq⟩

end Program

end LambdaLifting
