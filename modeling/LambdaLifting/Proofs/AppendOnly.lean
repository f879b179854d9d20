import LambdaLifting.Proofs.Growth
import LambdaLifting.Proofs.Idempotence
import LambdaLifting.Proofs.Isolation
import LambdaLifting.Proofs.Numbering

namespace LambdaLifting

namespace Program

variable {fuel : Nat} {env : Environment} {p : Program} {names : NameSource}

/-- A program in order: its arena is well-formed, its procedures are stored there, and all names
that it and the environment mention have texts. -/
structure Sound (p : Program) (env : Environment) (table : NameTable) : Prop where
  wellFormed : p.arena.WellFormed
  procedures : ∀ q ∈ p.procedures, table.Has q.name ∧ p.arena.Holds table.Has q.body
  owner : table.Has p.config.owner
  named : env.Named table

/-- What a run leaves of a program and of the source of names. The arena is continued, the outcome
is in order again, and what is reported can be shown. -/
structure Continues (p : Program) (env : Environment) (names : NameSource) (report : Report)
    (names' : NameSource) : Prop where
  appends : p.arena.Appends report.program.arena
  body_lt : ∀ q ∈ report.program.procedures, q.body.index < report.program.arena.size
  sound : report.program.Sound env names'.table
  table : names.table.Extends names'.table
  events : ∀ ev ∈ report.events, ∀ c ∈ ev.names, names'.table.Has c
  error : ∀ err, report.error? = some err → report.program.procedures = p.procedures ∧
    ∃ text, err.message names'.table = .ok text

theorem keeps_liftProcedures {ctx : LiftContext} {s : LiftState} (hs : s.Sound ctx.env) {w : Stage}
    (h : s.Models [] w) (fuel : Nat) {ps : List Procedure}
    (hps : ∀ p ∈ ps, s.names.table.Has p.name ∧ s.Holds p.body) :
    (liftProcedures fuel ps).Keeps ctx s fun qs s' =>
      ∀ q ∈ qs, s'.names.table.Has q.name ∧ s'.Holds q.body := by
  refine (LiftM.keeps_mapM_liftProcedure hs h fuel hps).bind fun qs s₁ h₁ hqs => .state_bind ?_
  refine LiftM.keeps_pure h₁.sound (List.forall_mem_append.2 ⟨hqs, fun q hq => ?_⟩)
  exact h₁.sound.lifted q (Array.mem_toList_iff.1 hq)

theorem Sound.start (hp : p.Sound env names.table) : (p.start names).Sound env where
  wellFormed := hp.wellFormed
  named := hp.named.mono fun _ => (names.advances_intern "a").table.has
  scope x d hd := by simp [Program.start, Scope.find?] at hd
  lifted q hq := by simp [Program.start] at hq
  events ev hev c hc := by
    obtain rfl : ev = .started p.config.owner p.procedures.length := by
      simpa [Program.start] using hev
    exact List.mem_singleton.1 hc ▸ (names.advances_intern "a").table.has hp.owner

theorem continues_of_precedes {s : LiftState} (hp : p.Sound env names.table)
    (hs : (p.start names).Precedes env s) {output : List Procedure} {error? : Option LiftError}
    {events : List Event} (houtput : ∀ q ∈ output, s.names.table.Has q.name ∧ s.Holds q.body)
    (hevents : ∀ ev ∈ events, ∀ c ∈ ev.names, s.names.table.Has c)
    (herror : ∀ err, error? = some err → output = p.procedures ∧
      ∀ c ∈ err.names, s.names.table.Has c) :
    p.Continues env names ⟨⟨s.arena, output, p.config⟩, error?, events⟩ s.names := by
  have htable : names.table.Extends s.names.table :=
    fun _ _ hc => hs.table ((names.advances_intern "a").table hc)
  exact {
    appends := hs.isExtension.appends hs.sound.wellFormed
    body_lt := fun q hq => (houtput q hq).2.index_lt
    sound := ⟨hs.sound.wellFormed, houtput, htable.has hp.owner, hs.sound.named⟩
    table := htable
    events := hevents
    error := fun err herr =>
      ⟨(herror err herr).1, LiftError.exists_message (herror err herr).2⟩ }

theorem continues_of_lift (hp : p.Sound env names.table) (hchecked : p.config.checked = false)
    (fuel : Nat) : p.lift fuel env names = .error .outOfFuel ∨
      ∃ report names', p.lift fuel env names = .ok (report, names') ∧
        p.Continues env names report names' := by
  obtain ⟨owner, howner⟩ := hp.owner
  obtain ⟨base, hbase⟩ := base_eq_ok howner p.config.suffix
  have hgiven (q : Procedure) (hq : q ∈ p.procedures) :
      (p.start names).names.table.Has q.name ∧ (p.start names).Holds q.body := by
    have htable := (names.advances_intern "a").table
    exact ⟨htable.has (hp.procedures q hq).1,
      (hp.procedures q hq).2.mono (.refl _) fun _ => htable.has⟩
  have hkeeps : (liftProcedures fuel p.procedures).Keeps (p.context env names base)
      (p.start names) _ :=
    keeps_liftProcedures hp.start (start_models hp.wellFormed names) fuel hgiven
  rw [LiftM.Keeps] at hkeeps
  rcases hrun : liftProcedures fuel p.procedures (p.context env names base) (p.start names) with
    fault | ⟨err | output, s⟩
  · rw [hrun] at hkeeps
    exact .inl (hkeeps ▸ lift_of_fault hbase hrun)
  · rw [hrun] at hkeeps
    obtain ⟨hs, herr⟩ := hkeeps
    refine .inr ⟨_, _, lift_of_error hbase hrun, continues_of_precedes hp hs ?_ ?_ ?_⟩
    · exact fun q hq => ⟨hs.has _ (hgiven q hq).1, hs.holds (hgiven q hq).2⟩
    · exact fun ev hev => hs.sound.events ev (Array.mem_toList_iff.1 hev)
    · rintro _ ⟨⟩
      exact ⟨rfl, herr⟩
  · rw [hrun] at hkeeps
    obtain ⟨hs, houtput⟩ := hkeeps
    refine .inr ⟨_, _, lift_of_ok hbase hrun hchecked,
      continues_of_precedes hp hs houtput (fun ev hev => ?_) (by simp)⟩
    rcases Array.mem_push.1 (Array.mem_toList_iff.1 hev) with hev | rfl
    · exact hs.sound.events ev hev
    · simp [Event.names]

/-- Operations on stored terms end with a stored term, and lifting of a program in order ends with a
report. The one other outcome is that the fuel runs out, for operations only in a head reduction.
The arena is well-formed afterwards and starts with all that was stored before. A failed run returns
the procedures it was given. -/
theorem append_only :
    (∀ (op : Operation) (a : Arena), a.WellFormed → (∀ e ∈ op.operands, e.index < a.size) →
      (∃ fuel e, op = .headReduce fuel e ∧ op.run a = .error .outOfFuel) ∨
        ∃ e b, op.run a = .ok (e, b) ∧ a.Appends b ∧ e.index < b.size) ∧
    ∀ (p : Program) (env : Environment) (names : NameSource), p.Sound env names.table →
      p.config.checked = false → ∀ fuel, p.lift fuel env names = .error .outOfFuel ∨
        ∃ report names', p.lift fuel env names = .ok (report, names') ∧
          p.Continues env names report names' :=
  ⟨fun op _ ha h => op.appends_of_run ha h,
    fun _ _ _ hp hchecked fuel => continues_of_lift hp hchecked fuel⟩

def inOrder (p : Program) (table : NameTable) : Bool :=
  decide p.arena.WellFormed && (table.text? p.config.owner).isSome &&
    p.procedures.all fun q => (table.text? q.name).isSome &&
      (p.arena.term? q.body).any fun t => t.globals.all fun c => (table.text? c).isSome

theorem sound_of_inOrder {table : NameTable} (h : p.inOrder table = true)
    (henv : env.Named table) : p.Sound env table := by
  have hhas {c : Name} (hc : (table.text? c).isSome = true) : table.Has c :=
    Option.isSome_iff_exists.1 hc
  simp only [inOrder, Bool.and_eq_true, decide_eq_true_eq, List.all_eq_true] at h
  obtain ⟨⟨hp, howner⟩, hprocs⟩ := h
  refine ⟨hp, fun q hq => ⟨hhas (hprocs q hq).1, ?_⟩, hhas howner, henv⟩
  obtain ⟨t, ht, hglobals⟩ := (Option.any_eq_true ..).1 (hprocs q hq).2
  exact ⟨t, ht, fun c hc => hhas (List.all_eq_true.1 hglobals c hc)⟩

/-- An application takes further arguments, and a run fails when a procedure was made already. -/
theorem append_only_openProgram :
    (∃ e b, (Operation.app ⟨9⟩ [⟨3⟩]).run captureProgram.arena = .ok (e, b) ∧
      captureProgram.arena.Appends b ∧ e.index < b.size) ∧
    ∃ report names', openProgram.lift 40 captureEnvironment captureNames = .ok (report, names') ∧
      report.error? = some (.unboundVar ⟨1⟩) ∧
      openProgram.Continues captureEnvironment captureNames report names' := by
  constructor
  · refine (append_only.1 (.app ⟨9⟩ [⟨3⟩]) captureProgram.arena (by decide +kernel)
      (by decide +kernel)).resolve_left ?_
    rintro ⟨fuel, e, hop, -⟩
    cases hop
  · have henv : captureEnvironment.Named captureNames.table := by
      refine ⟨fun c type hc => ?_, fun type ty hty => ?_⟩
      · simp only [captureEnvironment] at hc
        split at hc <;> cases hc
      · cases hty
    have hsound : openProgram.Sound captureEnvironment captureNames.table :=
      sound_of_inOrder (by decide +kernel) henv
    have herror : (openProgram.lift 40 captureEnvironment captureNames).toOption.map
        (fun r => r.1.error?) = some (some (.unboundVar ⟨1⟩)) := by decide +kernel
    rcases append_only.2 openProgram captureEnvironment captureNames hsound rfl 40 with
      hdry | ⟨report, names', hrun, hcontinues⟩
    · rw [hdry] at herror
      cases herror
    · rw [hrun] at herror
      exact ⟨report, names', hrun, Option.some.inj herror, hcontinues⟩

end Program

end LambdaLifting
