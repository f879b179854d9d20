import LambdaLifting.Lift.Term
import LambdaLifting.Output.Check

namespace LambdaLifting

structure Config where
  /-- New procedures are named after their owner. -/
  owner : Name
  suffix : String := "_lambda"
  /-- Whether lifted procedures have to pass the output check. -/
  checked : Bool := true

structure Program where
  arena : Arena
  procedures : List Procedure
  config : Config

/-- A program after lifting. One that failed keeps its procedures. -/
structure Report where
  program : Program
  error? : Option LiftError
  events : List Event

namespace Program

def liftProcedures (fuel : Nat) (ps : List Procedure) : LiftM (List Procedure) := do
  let given ← ps.mapM (LiftM.liftProcedure fuel)
  return given ++ (← LiftM.state).lifted.toList

def lift (fuel : Nat) (env : Environment) (p : Program) (names : NameSource) :
    Except Fault (Report × NameSource) := do
  let ⟨arena, procedures, config⟩ := p
  let base ← names.base config.owner config.suffix
  let (anonymous, names) := names.intern "a"
  let ctx : LiftContext := ⟨env, base, anonymous, procedures.map Procedure.name⟩
  let started := #[Event.started config.owner procedures.length]
  match ← liftProcedures fuel procedures ctx { arena, names, events := started } with
  | (.error err, s) => return (⟨⟨s.arena, procedures, config⟩, some err, s.events.toList⟩, s.names)
  | (.ok output, s) =>
    if config.checked then Output.enforce s.arena env procedures output
    let finished := Event.finished (output.length - procedures.length) s.arena.size
    return (⟨⟨s.arena, output, config⟩, none, (s.events.push finished).toList⟩, s.names)

/-- Lift programs one after the other. They share the source of new names and nothing else; one that
fails does not hinder the next. -/
def liftEach (fuel : Nat) (env : Environment) :
    List Program → NameSource → Except Fault (List Report × NameSource)
  | [], names => return ([], names)
  | p :: ps, names => do
    let (report, names) ← p.lift fuel env names
    let (reports, names) ← liftEach fuel env ps names
    return (report :: reports, names)

end Program

end LambdaLifting
