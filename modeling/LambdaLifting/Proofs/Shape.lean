import LambdaLifting.Proofs.Flatness
import LambdaLifting.Proofs.Programs

namespace LambdaLifting

/-- Procedures mention a global without applying it. -/
def Arena.Unapplied (a : Arena) (ps : List Procedure) (c : Name) : Prop :=
  ∃ p ∈ ps, ∃ t, a.term? p.body = some t ∧ c ∈ t.unapplied

namespace Derives

variable {fuel : Nat} {ctx : LiftContext} {a b : Arena} {ps given lifted : List Procedure}
  {v w : Stage} {ts us : List Term}

theorem closed (h : Derives fuel ctx a ps b given lifted v w ts us) :
    ∀ q ∈ given ++ lifted, ∃ t, b.term? q.body = some t ∧ t.Closed := by
  obtain ⟨hw, hus⟩ := LiftsBody.closed h.each
  refine h.forall_output hus fun d hd => ?_
  obtain ⟨ds, heq, hds⟩ := hw.lifted_eq
  rw [h.lifted_eq_nil, List.nil_append] at heq
  exact (hds d (heq ▸ hd)).1

theorem flat (h : Derives fuel ctx a ps b given lifted v w ts us) :
    ∀ q ∈ given ++ lifted, ∃ t, b.term? q.body = some t ∧
      Flat ctx.env (b.Unapplied ps) (.binding t.leading) t := by
  have hinput : ∀ t ∈ ts, BareIn ctx.env (b.Unapplied ps) t := by
    intro t ht c hc type _
    obtain ⟨e, he, hterm⟩ := exists_of_mem_forall₂ h.input.flip ht
    obtain ⟨p, hp, rfl⟩ := List.mem_map.1 he
    exact ⟨p, hp, t, hterm, hc⟩
  have hnone : v.Flat ctx.env (b.Unapplied ps) := by simp [Stage.Flat, h.lifted_eq_nil]
  obtain ⟨hlifted, hus⟩ := LiftsBody.flat hnone hinput h.each
  have leading {t : Term} : (∃ k, Flat ctx.env (b.Unapplied ps) (.binding k) t) →
      Flat ctx.env (b.Unapplied ps) (.binding t.leading) t := fun ⟨_, hk⟩ => hk.leading_eq ▸ hk
  exact h.forall_output (fun u hu => leading (hus u hu)) fun d hd => leading (hlifted d hd)

end Derives

/-- `captureProgram` in an arena that hands out variables which are bound already. -/
def clashingProgram : Program :=
  { captureProgram with arena := { captureProgram.arena with nextLocal := 1 } }

theorem liftsTo_clashingProgram :
    clashingProgram.liftsTo 40 captureEnvironment captureNames 2 = true := by
  decide +kernel

/-- A procedure with an abstraction in an arm of a dispatch:
`main = λ l, List.casesOn l 0 (λ h t, g (λ x, h))`. -/
def dispatchProgram : Program where
  arena := .ofNodes
    [.var ⟨0⟩, .global ⟨1⟩, .lit (.nat 0), .var ⟨1⟩, .lam ⟨⟨3⟩, ⟨10⟩⟩ ⟨3⟩, .global ⟨2⟩,
      .app ⟨5⟩ [⟨4⟩], .lam ⟨⟨2⟩, ⟨9⟩⟩ ⟨6⟩, .lam ⟨⟨1⟩, ⟨8⟩⟩ ⟨7⟩, .app ⟨1⟩ [⟨0⟩, ⟨2⟩, ⟨8⟩],
      .lam ⟨⟨0⟩, ⟨7⟩⟩ ⟨9⟩] 4
  procedures := [⟨⟨6⟩, ⟨10⟩⟩]
  config := { owner := ⟨6⟩ }

def dispatchNames : NameSource :=
  ["List.casesOn", "g", "List.nil", "List.cons", "List", "main", "l", "h", "t", "x"].foldl
    (fun s text => (s.intern text).2) .initial

def dispatchEnvironment : Environment where
  kind? c :=
    if c = ⟨1⟩ then some (.dispatcher ⟨5⟩) else if c = ⟨2⟩ then some .function
    else if c ∈ [⟨3⟩, ⟨4⟩] then some .constructor else none
  type? c := if c = ⟨5⟩ then some ⟨1, [⟨3⟩, ⟨4⟩]⟩ else none
  arity? c := if c = ⟨3⟩ then some 1 else if c = ⟨4⟩ then some 3 else none

theorem liftsTo_dispatchProgram :
    dispatchProgram.liftsTo 40 dispatchEnvironment dispatchNames 2 = true := by
  decide +kernel

namespace Program

variable {fuel : Nat} {env : Environment} {p : Program} {names names' : NameSource}
  {report : Report}

/-- Lifted procedures have no free variables, whatever variables the arena hands out. -/
theorem freeVars_eq_nil_of_lift (hp : p.arena.WellFormed)
    (hrun : p.lift fuel env names = .ok (report, names')) (herror : report.error? = none) :
    ∀ q ∈ report.program.procedures, report.program.arena.freeVars q.body = .ok [] := by
  obtain ⟨ctx, given, lifted, v, w, ts, us, -, -, hprocs, h⟩ := derives_of_lift hp hrun herror
  intro q hq
  obtain ⟨t, ht, hclosed⟩ := h.closed q (hprocs ▸ hq)
  rw [Arena.freeVars_eq_ok h.wellFormed ht, hclosed, firstOccurrences_nil]

theorem freeVars_eq_nil_clashingProgram :
    clashingProgram.arena.WellFormed ∧
      ∃ report names', clashingProgram.lift 40 captureEnvironment captureNames =
          .ok (report, names') ∧ report.error? = none ∧ report.program.procedures.length = 2 ∧
        ∀ q ∈ report.program.procedures, report.program.arena.freeVars q.body = .ok [] := by
  have hp : clashingProgram.arena.WellFormed := by decide +kernel
  obtain ⟨report, names', hrun, herror, hlength⟩ := exists_of_liftsTo liftsTo_clashingProgram
  exact ⟨hp, report, names', hrun, herror, hlength, freeVars_eq_nil_of_lift hp hrun herror⟩

/-- Lifted procedures are flat under the lambdas at their top. A dispatch has all its arms, and
these bind exactly their fields; only a dispatcher that was mentioned without arguments before can
be called like a function, with no lambda among its arguments. -/
theorem flat_of_lift (hp : p.arena.WellFormed)
    (hrun : p.lift fuel env names = .ok (report, names')) (herror : report.error? = none) :
    ∀ q ∈ report.program.procedures, ∃ t, report.program.arena.term? q.body = some t ∧
      Flat env (report.program.arena.Unapplied p.procedures) (.binding t.leading) t := by
  obtain ⟨ctx, given, lifted, v, w, ts, us, rfl, -, hprocs, h⟩ := derives_of_lift hp hrun herror
  exact hprocs ▸ h.flat

theorem flat_dispatchProgram :
    dispatchProgram.arena.WellFormed ∧
      ∃ report names', dispatchProgram.lift 40 dispatchEnvironment dispatchNames =
          .ok (report, names') ∧ report.error? = none ∧ report.program.procedures.length = 2 ∧
        ∀ q ∈ report.program.procedures, ∃ t, report.program.arena.term? q.body = some t ∧
          Flat dispatchEnvironment (report.program.arena.Unapplied dispatchProgram.procedures)
            (.binding t.leading) t := by
  have hp : dispatchProgram.arena.WellFormed := by decide +kernel
  obtain ⟨report, names', hrun, herror, hlength⟩ := exists_of_liftsTo liftsTo_dispatchProgram
  exact ⟨hp, report, names', hrun, herror, hlength, flat_of_lift hp hrun herror⟩

end Program

end LambdaLifting
