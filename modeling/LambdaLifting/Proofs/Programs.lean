import LambdaLifting.Program
import LambdaLifting.Proofs.Simulation

namespace LambdaLifting

/-- What is evaluated of a run shows that the run has ended. -/
theorem exists_of_toOption_map {ε α β : Type} {x : Except ε α} {f : α → β} {y : β}
    (h : x.toOption.map f = some y) : ∃ r, x = .ok r ∧ f r = y := by
  cases x with
  | error err => cases h
  | ok r => exact ⟨r, rfl, Option.some.inj h⟩

theorem Arena.Denote.of_extends {a b : Arena} {es : List ExprId} {ts : List Term}
    (h : b.Denote es ts) (hab : a.Extends b) (hes : ∀ e ∈ es, ∃ t, a.term? e = some t) :
    a.Denote es ts := by
  induction h with
  | nil => exact .nil
  | @cons e t es ts ht _ ih =>
    obtain ⟨⟨t', ht'⟩, hes⟩ := List.forall_mem_cons.1 hes
    obtain rfl := Option.some.inj (ht.symm.trans (hab.term?_eq_some ht'))
    exact .cons ht' (ih hes)

/-- Procedures `ps` of the arena `a` are lifted to `given`, with `lifted` made on the way. -/
structure Derives (fuel : Nat) (ctx : LiftContext) (a : Arena) (ps : List Procedure) (b : Arena)
    (given lifted : List Procedure) (v w : Stage) (ts us : List Term) : Prop where
  wellFormed : b.WellFormed
  isExtension : a.Extends b
  nextLocal_eq : v.nextLocal = a.nextLocal
  handedOut : b.nextLocal = w.nextLocal
  lifted_eq_nil : v.lifted = []
  each : Each (LiftsBody ctx fuel) v ts w us
  input : b.Denote (ps.map Procedure.body) ts
  output : b.Denote (given.map Procedure.body) us
  names : given.map Procedure.name = ps.map Procedure.name
  shows : List.Forall₂ (Procedure.Shows b) lifted w.lifted

namespace LiftM

variable {ctx : LiftContext} {fuel : Nat} {s s' : LiftState} {w : Stage}

theorem runs_liftProcedure {p q : Procedure} (hrun : (liftProcedure fuel p).Runs ctx s q s') :
    q.name = p.name ∧ (liftBody fuel p.body).Runs ctx s q.body s' := by
  simp only [liftProcedure, runs_bind, runs_state] at hrun
  obtain ⟨body, s₁, hbody, _, _, ⟨rfl, rfl⟩, hrun⟩ := hrun
  cases hempty : s₁.scope.isEmpty with
  | true =>
    simp only [hempty, if_true, runs_pure] at hrun
    obtain ⟨rfl, rfl⟩ := hrun
    exact ⟨rfl, hbody⟩
  | false =>
    simp only [hempty, Bool.false_eq_true, if_false, runs_bind, runs_stop, false_and,
      exists_false] at hrun

theorem map_name_of_mapM_liftProcedure {ps qs : List Procedure}
    (hrun : (ps.mapM (liftProcedure fuel)).Runs ctx s qs s') :
    qs.map Procedure.name = ps.map Procedure.name := by
  induction ps generalizing s qs with
  | nil =>
    obtain ⟨rfl, -⟩ := runs_pure.1 hrun
    rfl
  | cons p ps ih =>
    simp only [List.mapM_cons, runs_bind, runs_pure] at hrun
    obtain ⟨q, s₁, hq, qs, _, hqs, rfl, rfl⟩ := hrun
    rw [List.map_cons, List.map_cons, (runs_liftProcedure hq).1, ih hqs]

/-- The bodies of procedures are lifted one after the other. Where a body is first looked at, it has
a tree. -/
theorem each_of_mapM_liftProcedure (h : s.Models [] w) {ps qs : List Procedure}
    (hrun : (ps.mapM (liftProcedure fuel)).Runs ctx s qs s') :
    ∃ w' ts us, Each (LiftsBody ctx fuel) w ts w' us ∧
      s'.arena.Denote (ps.map Procedure.body) ts ∧ s'.arena.Denote (qs.map Procedure.body) us ∧
      qs.map Procedure.name = ps.map Procedure.name ∧ s.Reaches s' [] w' := by
  induction ps generalizing s w qs with
  | nil =>
    obtain ⟨rfl, rfl⟩ := runs_pure.1 hrun
    exact ⟨w, [], [], .nil w, .nil, .nil, rfl, .refl h⟩
  | cons p ps ih =>
    have hnames := map_name_of_mapM_liftProcedure hrun
    simp only [List.mapM_cons, runs_bind, runs_pure] at hrun
    obtain ⟨q, s₁, hq, qs, _, hqs, rfl, rfl⟩ := hrun
    have hbody := (runs_liftProcedure hq).2
    obtain ⟨t, ht⟩ := exists_term_of_runs_node h.wellFormed hbody
    obtain ⟨w₁, u, hu, hterm, h₁⟩ := liftsBody_of_liftBody h ht hbody
    obtain ⟨w₂, ts, us, heach, hts, hus, -, h₂⟩ := ih h₁.models hqs
    have hext := (h₁.trans h₂).isExtension
    exact ⟨w₂, t :: ts, u :: us, .cons hu heach, .cons (hext.term?_eq_some ht) hts,
      .cons (h₂.isExtension.term?_eq_some hterm) hus, hnames, h₁.trans h₂⟩

end LiftM

def Procedure.AlphaEq (a b : Arena) (p q : Procedure) : Prop :=
  p.name = q.name ∧ ∃ t u, a.term? p.body = some t ∧ b.term? q.body = some u ∧ t.AlphaEq u

theorem Procedure.alphaEq_of_denote {a b : Arena} {ps qs : List Procedure} {ts us : List Term}
    (hnames : ps.map Procedure.name = qs.map Procedure.name)
    (hts : a.Denote (ps.map Procedure.body) ts) (hus : b.Denote (qs.map Procedure.body) us)
    (h : List.Forall₂ Term.AlphaEq ts us) : List.Forall₂ (Procedure.AlphaEq a b) ps qs := by
  induction ps generalizing qs ts us with
  | nil => simp [List.map_eq_nil_iff.1 hnames.symm]
  | cons p ps ih =>
    obtain ⟨q, qs, rfl, hname, htail⟩ := List.map_eq_cons_iff.1 hnames.symm
    obtain ⟨t, ts, ht, hts', rfl⟩ := List.forall₂_cons_left_iff.1 hts
    obtain ⟨u, us, hu, hus', rfl⟩ := List.forall₂_cons_left_iff.1 hus
    obtain ⟨htu, htail'⟩ := List.forall₂_cons.1 h
    exact .cons ⟨hname.symm, t, u, ht, hu, htu⟩ (ih htail.symm hts' hus' htail')

/-- Procedures with the same names in the same order, equal up to the names of bound variables. -/
def Program.AlphaEq (p q : Program) : Prop :=
  List.Forall₂ (Procedure.AlphaEq p.arena q.arena) p.procedures q.procedures

namespace Derives

variable {fuel : Nat} {ctx : LiftContext} {a b : Arena} {ps given lifted : List Procedure}
  {v w : Stage} {ts us : List Term}

theorem forall_input (h : Derives fuel ctx a ps b given lifted v w ts us) {P : Term → Prop}
    (hps : ∀ q ∈ ps, ∃ t, a.term? q.body = some t ∧ P t) :
    ∀ t ∈ ts, P t ∧ ∃ q ∈ ps, a.term? q.body = some t := by
  intro t ht
  obtain ⟨e, he, hterm⟩ := exists_of_mem_forall₂ h.input.flip ht
  obtain ⟨q, hq, rfl⟩ := List.mem_map.1 he
  obtain ⟨t', ht', hP⟩ := hps q hq
  obtain rfl := Option.some.inj (hterm.symm.trans (h.isExtension.term?_eq_some ht'))
  exact ⟨hP, q, hq, ht'⟩

theorem length_given (h : Derives fuel ctx a ps b given lifted v w ts us) :
    given.length = ps.length := by
  simpa using congrArg List.length h.names

/-- What holds of all lifted bodies, given and new, holds of the trees of all procedures. -/
theorem forall_output (h : Derives fuel ctx a ps b given lifted v w ts us) {P : Term → Prop}
    (hus : ∀ u ∈ us, P u) (hlifted : ∀ d ∈ w.lifted, P d.body) :
    ∀ q ∈ given ++ lifted, ∃ t, b.term? q.body = some t ∧ P t := by
  intro q hq
  rcases List.mem_append.1 hq with hq | hq
  · obtain ⟨u, hu, hterm⟩ := exists_of_mem_forall₂ h.output (List.mem_map_of_mem hq)
    exact ⟨u, hterm, hus u hu⟩
  · obtain ⟨d, hd, hshows⟩ := exists_of_mem_forall₂ h.shows hq
    exact ⟨d.body, hshows.2, hlifted d hd⟩

end Derives

namespace Program

theorem derives_of_liftProcedures {fuel : Nat} {ctx : LiftContext} {a : Arena}
    {ps output : List Procedure} {names : NameSource} {events : Array Event} {s : LiftState}
    (ha : a.WellFormed)
    (hrun : (liftProcedures fuel ps).Runs ctx { arena := a, names, events } output s) :
    ∃ given lifted v w ts us, output = given ++ lifted ∧
      Derives fuel ctx a ps s.arena given lifted v w ts us := by
  -- A run starts in an empty scope and with no procedures made.
  have hmodels : LiftState.Models { arena := a, names, events } [] ⟨a.nextLocal, names, []⟩ :=
    ⟨ha, rfl, rfl, .nil, ⟨[], Scope.lists_empty, .nil⟩, .nil⟩
  simp only [liftProcedures, LiftM.runs_bind, LiftM.runs_state, LiftM.runs_pure] at hrun
  obtain ⟨given, s₁, hgiven, _, _, ⟨rfl, rfl⟩, rfl, rfl⟩ := hrun
  obtain ⟨w, ts, us, heach, hts, hus, hnames, h⟩ := LiftM.each_of_mapM_liftProcedure hmodels hgiven
  exact ⟨given, s₁.lifted.toList, _, w, ts, us, rfl, h.models.wellFormed, h.isExtension, rfl,
    h.models.nextLocal_eq, rfl, heach, hts, hus, hnames, h.models.lifted⟩

variable {fuel : Nat} {env : Environment} {p : Program} {names names' : NameSource}
  {report : Report}

/-- The outcome of a run on the procedures, as it is reported. -/
inductive Reports (p : Program) (s : LiftState) :
    Except LiftError (List Procedure) → Report → Prop where
  | ok (output) {events} : Reports p s (.ok output) ⟨⟨s.arena, output, p.config⟩, none, events⟩
  | error (err) {events} :
      Reports p s (.error err) ⟨⟨s.arena, p.procedures, p.config⟩, some err, events⟩

def context (p : Program) (env : Environment) (names : NameSource) (base : String) : LiftContext :=
  ⟨env, base, (names.intern "a").1, p.procedures.map Procedure.name⟩

def start (p : Program) (names : NameSource) : LiftState where
  arena := p.arena
  names := (names.intern "a").2
  events := #[.started p.config.owner p.procedures.length]

theorem exists_of_lift (hrun : p.lift fuel env names = .ok (report, names')) :
    ∃ base outcome s, names.base p.config.owner p.config.suffix = .ok base ∧
      liftProcedures fuel p.procedures (p.context env names base) (p.start names) =
        .ok (outcome, s) ∧ p.Reports s outcome report ∧ names' = s.names := by
  obtain ⟨arena, procedures, config⟩ := p
  simp only [lift, Bind.bind, Except.bind] at hrun
  split at hrun
  · cases hrun
  · next base hbase =>
    split at hrun
    · cases hrun
    · next r hr =>
      split at hrun
      · next err s =>
        cases hrun
        exact ⟨base, .error err, s, hbase, hr, .error err, rfl⟩
      · next output s =>
        refine ⟨base, .ok output, s, hbase, hr, ?_⟩
        split at hrun
        · split at hrun
          · cases hrun
          · cases hrun
            exact ⟨.ok output, rfl⟩
        · cases hrun
          exact ⟨.ok output, rfl⟩

theorem lift_of_error {base : String} {err : LiftError} {s : LiftState}
    (hbase : names.base p.config.owner p.config.suffix = .ok base)
    (hrun : liftProcedures fuel p.procedures (p.context env names base) (p.start names) =
      .ok (.error err, s)) :
    p.lift fuel env names =
      .ok (⟨⟨s.arena, p.procedures, p.config⟩, some err, s.events.toList⟩, s.names) := by
  obtain ⟨arena, procedures, config⟩ := p
  dsimp only [context, start] at hbase hrun
  simp only [lift, hbase, hrun, Bind.bind, Except.bind]
  rfl

theorem lift_of_ok {base : String} {output : List Procedure} {s : LiftState}
    (hbase : names.base p.config.owner p.config.suffix = .ok base)
    (hrun : liftProcedures fuel p.procedures (p.context env names base) (p.start names) =
      .ok (.ok output, s)) (hchecked : p.config.checked = false) :
    p.lift fuel env names = .ok (⟨⟨s.arena, output, p.config⟩, none, (s.events.push (.finished
      (output.length - p.procedures.length) s.arena.size)).toList⟩, s.names) := by
  obtain ⟨arena, procedures, config⟩ := p
  dsimp only [context, start] at hbase hrun hchecked
  simp only [lift, hbase, hrun, hchecked, Bind.bind, Except.bind, Bool.false_eq_true, if_false]
  rfl

theorem lift_of_outcome {base : String} {outcome : Except LiftError (List Procedure)}
    {s : LiftState} (hbase : names.base p.config.owner p.config.suffix = .ok base)
    (hrun : liftProcedures fuel p.procedures (p.context env names base) (p.start names) =
      .ok (outcome, s)) (hchecked : p.config.checked = false) :
    ∃ report, p.Reports s outcome report ∧ p.lift fuel env names = .ok (report, s.names) := by
  cases outcome with
  | ok output => exact ⟨_, .ok output, lift_of_ok hbase hrun hchecked⟩
  | error err => exact ⟨_, .error err, lift_of_error hbase hrun⟩

theorem lift_of_fault {base : String} {fault : Fault}
    (hbase : names.base p.config.owner p.config.suffix = .ok base)
    (hrun : liftProcedures fuel p.procedures (p.context env names base) (p.start names) =
      .error fault) : p.lift fuel env names = .error fault := by
  obtain ⟨arena, procedures, config⟩ := p
  dsimp only [context, start] at hbase hrun
  simp only [lift, hbase, hrun, Bind.bind, Except.bind]

theorem runs_of_lift (hrun : p.lift fuel env names = .ok (report, names'))
    (herror : report.error? = none) :
    ∃ base events s, (liftProcedures fuel p.procedures).Runs
        ⟨env, base, (names.intern "a").1, p.procedures.map Procedure.name⟩
        { arena := p.arena, names := (names.intern "a").2, events } report.program.procedures s ∧
      report.program.arena = s.arena := by
  obtain ⟨base, outcome, s, -, hlift, hreport, -⟩ := exists_of_lift hrun
  cases hreport with
  | ok output => exact ⟨base, _, s, hlift, rfl⟩
  | error err => simp at herror

/-- A program that is lifted without an error has a derivation. -/
theorem derives_of_lift (hp : p.arena.WellFormed)
    (hrun : p.lift fuel env names = .ok (report, names')) (herror : report.error? = none) :
    ∃ ctx given lifted v w ts us, ctx.env = env ∧
      ctx.declared = p.procedures.map Procedure.name ∧
      report.program.procedures = given ++ lifted ∧
      Derives fuel ctx p.arena p.procedures report.program.arena given lifted v w ts us := by
  obtain ⟨base, events, s, hlift, harena⟩ := runs_of_lift hrun herror
  obtain ⟨given, lifted, v, w, ts, us, hprocs, h⟩ := derives_of_liftProcedures hp hlift
  exact ⟨_, given, lifted, v, w, ts, us, rfl, rfl, hprocs, harena ▸ h⟩

/-- Whether a program is lifted without an error, to so many procedures. -/
def liftsTo (p : Program) (fuel : Nat) (env : Environment) (names : NameSource) (n : Nat) : Bool :=
  match p.lift fuel env names with
  | .ok (report, _) => report.error?.isNone && report.program.procedures.length == n
  | .error _ => false

theorem exists_of_liftsTo {n : Nat} (h : p.liftsTo fuel env names n = true) :
    ∃ report names', p.lift fuel env names = .ok (report, names') ∧ report.error? = none ∧
      report.program.procedures.length = n := by
  rw [liftsTo] at h
  split at h
  · next report names' hrun =>
    simp only [Bool.and_eq_true, Option.isNone_iff_eq_none, beq_iff_eq] at h
    exact ⟨report, names', hrun, h⟩
  · simp at h

end Program

/-- A procedure with an abstraction that mentions a local definition, and with it a parameter:
`main = λ a, let k := f a; g (λ x, h x k)`. -/
def captureProgram : Program where
  arena := .ofNodes
    [.var ⟨0⟩, .global ⟨1⟩, .app ⟨1⟩ [⟨0⟩], .var ⟨2⟩, .var ⟨1⟩, .global ⟨3⟩,
      .app ⟨5⟩ [⟨3⟩, ⟨4⟩], .lam ⟨⟨2⟩, ⟨7⟩⟩ ⟨6⟩, .global ⟨2⟩, .app ⟨8⟩ [⟨7⟩],
      .letIn ⟨⟨1⟩, ⟨6⟩⟩ ⟨2⟩ ⟨9⟩, .lam ⟨⟨0⟩, ⟨5⟩⟩ ⟨10⟩] 3
  procedures := [⟨⟨4⟩, ⟨11⟩⟩]
  config := { owner := ⟨4⟩ }

def captureNames : NameSource :=
  ["f", "g", "h", "main", "a", "k", "x"].foldl (fun s text => (s.intern text).2) .initial

def captureEnvironment : Environment where
  kind? c := if c.index ∈ [1, 2, 3] then some .function else none
  type? _ := none
  arity? _ := none

theorem liftsTo_captureProgram :
    captureProgram.liftsTo 40 captureEnvironment captureNames 2 = true := by
  decide +kernel

end LambdaLifting
