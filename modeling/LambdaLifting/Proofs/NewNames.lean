import LambdaLifting.Proofs.Isolation
import LambdaLifting.Proofs.Minting

namespace LambdaLifting

theorem NameSource.exists_of_base {s : NameSource} {owner : Name} {suffix base : String}
    (h : s.base owner suffix = .ok base) :
    ∃ text, s.table.text? owner = some text ∧
      base = if text = "" then suffix else text ++ "." ++ suffix := by
  simp only [NameSource.base, NameTable.text, Bind.bind, Except.bind] at h
  cases htext : s.table.text? owner with
  | none =>
    rw [htext] at h
    cases h
  | some text =>
    rw [htext] at h
    cases h
    exact ⟨text, rfl, by simp [String.isEmpty_iff]⟩

def Report.newNames (r : Report) (p : Program) : List Name :=
  (r.program.procedures.drop p.procedures.length).map Procedure.name

namespace Program

variable {fuel : Nat} {env : Environment} {p : Program} {names names' : NameSource}
  {report : Report}

theorem newNames_of_error (hrun : p.lift fuel env names = .ok (report, names'))
    (herror : report.error? ≠ none) : report.newNames p = [] := by
  rw [Report.newNames, procedures_of_error hrun herror, List.drop_length, List.map_nil]

theorem evolves_of_lift (hrun : p.lift fuel env names = .ok (report, names')) :
    ∃ base, ∃ s : LiftState, names.base p.config.owner p.config.suffix = .ok base ∧
      (p.start names).Evolves (p.context env names base) s ∧ names' = s.names ∧
      (report.error? = none → report.program.procedures.map Procedure.name =
        p.procedures.map Procedure.name ++ s.lifted.toList.map Procedure.name) := by
  obtain ⟨base, outcome, s, hbase, hlift, hreport, rfl⟩ := exists_of_lift hrun
  refine ⟨base, s, hbase, evolves_of_liftProcedures hlift, rfl, fun herror => ?_⟩
  cases hreport with
  | error err => cases herror
  | ok output =>
    have hruns : (liftProcedures fuel p.procedures).Runs _ _ output s := hlift
    simp only [liftProcedures, LiftM.runs_bind, LiftM.runs_state, LiftM.runs_pure] at hruns
    obtain ⟨given, s₁, hgiven, _, _, ⟨rfl, rfl⟩, rfl, rfl⟩ := hruns
    rw [List.map_append, LiftM.map_name_of_mapM_liftProcedure hgiven]

theorem ledger_of_evolves {base : String} {s : LiftState}
    (h : (p.start names).Evolves (p.context env names base) s) :
    s.Ledger (p.context env names base) names :=
  h.ledger (LiftState.ledger_start (names.advances_intern "a") rfl rfl)

theorem newNames_eq {ps : List Name}
    (h : report.program.procedures.map Procedure.name = p.procedures.map Procedure.name ++ ps) :
    report.newNames p = ps := by
  rw [Report.newNames, List.map_drop, h]
  exact List.drop_left' (List.length_map _)

/-- The procedures of a lifted program are those given, under their names, and then the new ones.
No new name is known from the start, and no two are the same. New names are numbered behind the text
of the owner and the suffix, with numbers that were drawn in this run, in order; as long as the
counter does not start again from zero, the numbers grow, from what it shows first to what it shows
last. -/
theorem map_name_of_lift (hrun : p.lift fuel env names = .ok (report, names'))
    (herror : report.error? = none) :
    ∃ owner synthetic ns, names.table.text? p.config.owner = some owner ∧
      report.program.procedures.map Procedure.name =
        p.procedures.map Procedure.name ++ synthetic ∧
      synthetic.Nodup ∧
      (∀ c ∈ synthetic, c ∉ p.procedures.map Procedure.name ∧ env.kind? c = none) ∧
      List.Forall₂ (fun c n => names'.table.text? c =
          some ((if owner = "" then p.config.suffix else owner ++ "." ++ p.config.suffix) ++
            "_" ++ toString n)) synthetic ns ∧
      (∃ ks : List Nat, ns = ks.map (· % NameSource.limit) ∧ ks.Pairwise (· < ·) ∧
        ∀ k ∈ ks, names.count ≤ k ∧ k < names'.count) ∧
      (names.next + (names'.count - names.count) < NameSource.limit →
        ns.Pairwise (· < ·) ∧ ∀ n ∈ ns, names.next ≤ n ∧ n < names'.next) := by
  obtain ⟨base, s, hbase, hevolves, rfl, hprocs⟩ := evolves_of_lift hrun
  have hs := ledger_of_evolves hevolves
  obtain ⟨owner, howner, rfl⟩ := NameSource.exists_of_base hbase
  obtain ⟨ks, hks⟩ := hs.numbers
  refine ⟨owner, _, ks.map (· % NameSource.limit), howner, hprocs herror, hs.nodup, ?_, ?_,
    ⟨ks, rfl, hks.ordered, hks.bounds⟩, hks.mod_limit⟩
  · intro c hc
    obtain ⟨q, hq, rfl⟩ := List.mem_map.1 hc
    have hfree : ¬ p.Knows env q.name := by
      rw [knows_iff, hs.free q (Array.mem_toList_iff.1 hq)]
      simp
    rw [Knows, Environment.contains, not_or, Option.not_isSome_iff_eq_none] at hfree
    exact hfree.symm
  · rw [List.forall₂_map_right_iff]
    exact hks.shows

/-- The names of `captureProgram`, and the first name that its new procedure could have. -/
def crowdedNames : NameSource := (captureNames.intern "main._lambda_1").2

def crowdedEnvironment : Environment :=
  { captureEnvironment with kind? c := if c.index ∈ [1, 2, 3, 8] then some .function else none }

/-- The first number gives a name that is declared, so that the new procedure has the second. -/
theorem map_name_of_lift_crowded :
    ∃ report names', captureProgram.lift 40 crowdedEnvironment crowdedNames = .ok (report, names') ∧
      report.error? = none ∧ crowdedNames.next = 1 ∧ names'.next = 3 ∧
      ∃ synthetic ns, synthetic = [⟨9⟩] ∧ ns = [2] ∧
        report.program.procedures.map Procedure.name = [⟨4⟩] ++ synthetic ∧ synthetic.Nodup ∧
        (∀ c ∈ synthetic, c ∉ [(⟨4⟩ : Name)] ∧ crowdedEnvironment.kind? c = none) ∧
        List.Forall₂ (fun c n => names'.table.text? c =
          some ("main" ++ "." ++ "_lambda" ++ "_" ++ toString n)) synthetic ns ∧
        ns.Pairwise (· < ·) ∧ ∀ n ∈ ns, 1 ≤ n ∧ n < 3 := by
  have hanswer : (captureProgram.lift 40 crowdedEnvironment crowdedNames).toOption.map
      (fun r => (r.1.error?, r.1.newNames captureProgram, r.2.count, r.2.table.text? ⟨9⟩)) =
      some (none, [⟨9⟩], 3, some (NameSource.candidate "main._lambda" 2)) := by decide +kernel
  have howner : crowdedNames.table.text? ⟨4⟩ = some "main" := by decide +kernel
  obtain ⟨r, hrun, hanswer⟩ := exists_of_toOption_map hanswer
  simp only [Prod.mk.injEq] at hanswer
  obtain ⟨herror, hnew, hcount, htext⟩ := hanswer
  obtain ⟨owner, synthetic, ns, howner', hprocs, hnodup, hfree, htexts, -, hordered⟩ :=
    map_name_of_lift hrun herror
  cases howner.symm.trans howner'
  rw [newNames_eq hprocs] at hnew
  subst hnew
  have hns : ns = [2] := by
    cases htexts with
    | cons hn hrest =>
      cases hrest
      rw [NameSource.eq_of_candidate_eq (Option.some.inj (hn.symm.trans htext))]
  have hlast : r.2.next = 3 := by rw [NameSource.next, hcount]; rfl
  obtain ⟨hlt, hbounds⟩ := hordered (by rw [hcount]; decide +kernel)
  rw [hlast] at hbounds
  exact ⟨r.1, r.2, hrun, herror, rfl, hlast, [⟨9⟩], ns, rfl, hns, hprocs, hnodup, hfree, htexts,
    hlt, hbounds⟩

/-- Two abstractions, `main = g (λ x, h x x) (λ k, h k k)`. -/
def twinProgram : Program where
  arena := .ofNodes
    [.var ⟨0⟩, .global ⟨3⟩, .app ⟨1⟩ [⟨0⟩, ⟨0⟩], .lam ⟨⟨0⟩, ⟨7⟩⟩ ⟨2⟩, .var ⟨1⟩, .global ⟨3⟩,
      .app ⟨5⟩ [⟨4⟩, ⟨4⟩], .lam ⟨⟨1⟩, ⟨6⟩⟩ ⟨6⟩, .global ⟨2⟩, .app ⟨8⟩ [⟨3⟩, ⟨7⟩]] 2
  procedures := [⟨⟨4⟩, ⟨9⟩⟩]
  config := { owner := ⟨4⟩ }

/-- A counter that has one number left. -/
def lastNames : NameSource := { captureNames with count := 4294967295 }

/-- The second new name has number zero: when the counter starts again, numbers neither grow nor
stay between what it showed first and what it shows last. -/
theorem not_ordered_twinProgram :
    ∃ report names', twinProgram.lift 40 captureEnvironment lastNames = .ok (report, names') ∧
      report.error? = none ∧ lastNames.next = 4294967295 ∧ names'.next = 1 ∧
      report.program.procedures.map Procedure.name = [⟨4⟩] ++ [⟨8⟩, ⟨9⟩] ∧
      [⟨8⟩, ⟨9⟩].map names'.table.text? =
        [some "main._lambda_4294967295", some "main._lambda_0"] ∧
      ∀ ns, List.Forall₂ (fun c n => names'.table.text? c =
          some ("main" ++ "." ++ "_lambda" ++ "_" ++ toString n)) [⟨8⟩, ⟨9⟩] ns →
        ¬ ns.Pairwise (· < ·) ∧ ¬ ∀ n ∈ ns, lastNames.next ≤ n ∧ n < names'.next := by
  have hanswer : (twinProgram.lift 40 captureEnvironment lastNames).toOption.map
      (fun r => (r.1.error?, r.2.next, r.1.program.procedures.map Procedure.name,
        r.2.table.text? ⟨8⟩, r.2.table.text? ⟨9⟩)) =
      some (none, 1, [⟨4⟩, ⟨8⟩, ⟨9⟩], some (NameSource.candidate "main._lambda" 4294967295),
        some (NameSource.candidate "main._lambda" 0)) := by decide +kernel
  have hcandidate : NameSource.candidate "main._lambda" 4294967295 = "main._lambda_4294967295" ∧
      NameSource.candidate "main._lambda" 0 = "main._lambda_0" := by decide +kernel
  obtain ⟨r, hrun, hanswer⟩ := exists_of_toOption_map hanswer
  simp only [Prod.mk.injEq] at hanswer
  obtain ⟨herror, hlast, hprocs, hfirst, hsecond⟩ := hanswer
  refine ⟨r.1, r.2, hrun, herror, rfl, hlast, hprocs, ?_, fun ns hns => ?_⟩
  · rw [List.map_cons, List.map_singleton, hfirst, hsecond, hcandidate.1, hcandidate.2]
  · obtain ⟨m, _, hm, hrest, rfl⟩ := List.forall₂_cons_left_iff.1 hns
    obtain ⟨n, _, hn, hnil, rfl⟩ := List.forall₂_cons_left_iff.1 hrest
    obtain rfl := List.forall₂_nil_left_iff.1 hnil
    obtain rfl := NameSource.eq_of_candidate_eq (Option.some.inj (hm.symm.trans hfirst))
    obtain rfl := NameSource.eq_of_candidate_eq (Option.some.inj (hn.symm.trans hsecond))
    rw [hlast]
    decide

def Mentions (p : Program) (c : Name) : Prop :=
  ∃ q ∈ p.procedures, ∃ e, Relation.ReflTransGen p.arena.HasChild q.body e ∧
    p.arena.node? e = some (.global c)

/-- A reference of the program has become one to a new procedure. -/
def Redirects (p : Program) (r : Report) (c : Name) : Prop := p.Mentions c ∧ c ∈ r.newNames p

/-- A name is new exactly if it was not known and has a number that was drawn in the run. -/
theorem mem_newNames_iff {base : String} {c : Name}
    (hrun : p.lift fuel env names = .ok (report, names')) (herror : report.error? = none)
    (hbase : names.base p.config.owner p.config.suffix = .ok base) :
    c ∈ report.newNames p ↔ ¬ p.Knows env c ∧ ∃ k, names.count ≤ k ∧ k < names'.count ∧
      names'.table.text? c = some (NameSource.candidate base (k % NameSource.limit)) := by
  obtain ⟨_, s, hbase', hevolves, rfl, hprocs⟩ := evolves_of_lift hrun
  cases hbase.symm.trans hbase'
  have hs := ledger_of_evolves hevolves
  have hknows : p.Knows env c ↔ (p.context env names base).taken #[] c = true := knows_iff
  rw [newNames_eq (hprocs herror), hknows]
  constructor
  · intro hc
    obtain ⟨ks, hks⟩ := hs.numbers
    obtain ⟨k, hk, htext⟩ := exists_of_mem_forall₂ hks.shows hc
    obtain ⟨q, hq, rfl⟩ := List.mem_map.1 hc
    obtain ⟨hle, hlt⟩ := hks.bounds k hk
    exact ⟨by simp [hs.free q (Array.mem_toList_iff.1 hq)], k, hle, hlt, htext⟩
  · rintro ⟨hfree, k, hle, hlt, htext⟩
    -- The name that the number belongs to has the same text.
    obtain ⟨d, hd, htaken⟩ := hs.spent k hle hlt
    obtain rfl : c = d := s.names.table.text?_inj htext hd
    obtain ⟨q, hq, rfl⟩ := (LiftContext.taken_iff.1 htaken).resolve_left hfree
    exact List.mem_map_of_mem (Array.mem_toList_iff.2 hq)

/-- A reference is redirected exactly if it is to a name that was not known, spelled like a new name
with a number that was drawn in the run. -/
theorem redirects_iff (hrun : p.lift fuel env names = .ok (report, names'))
    (herror : report.error? = none) :
    ∃ owner, names.table.text? p.config.owner = some owner ∧ ∀ c,
      p.Redirects report c ↔ p.Mentions c ∧ ¬ p.Knows env c ∧
        ∃ k, names.count ≤ k ∧ k < names'.count ∧ names'.table.text? c =
          some ((if owner = "" then p.config.suffix else owner ++ "." ++ p.config.suffix) ++
            "_" ++ toString (k % NameSource.limit)) := by
  obtain ⟨base, s, hbase, -⟩ := evolves_of_lift hrun
  obtain ⟨owner, howner, rfl⟩ := NameSource.exists_of_base hbase
  exact ⟨owner, howner, fun c => and_congr_right fun _ => mem_newNames_iff hrun herror hbase⟩

/-- A procedure that mentions a name which nothing declares:
`main = g main._lambda_1 (λ x, h x x)`. -/
def hintingProgram : Program where
  arena := .ofNodes
    [.global ⟨8⟩, .var ⟨0⟩, .global ⟨3⟩, .app ⟨2⟩ [⟨1⟩, ⟨1⟩], .lam ⟨⟨0⟩, ⟨7⟩⟩ ⟨3⟩,
      .global ⟨2⟩, .app ⟨5⟩ [⟨0⟩, ⟨4⟩]] 1
  procedures := [⟨⟨4⟩, ⟨6⟩⟩]
  config := { owner := ⟨4⟩ }

theorem mentions_hintingProgram : hintingProgram.Mentions ⟨8⟩ :=
  ⟨⟨⟨4⟩, ⟨6⟩⟩, List.mem_singleton.2 rfl, ⟨0⟩,
    .single ⟨.app ⟨5⟩ [⟨0⟩, ⟨4⟩], rfl, by decide⟩, rfl⟩

/-- The new procedure takes the name that the program mentions, and lifting reports no error. -/
theorem redirects_hintingProgram :
    ∃ report names', hintingProgram.lift 40 captureEnvironment crowdedNames = .ok (report, names') ∧
      report.error? = none ∧ hintingProgram.Redirects report ⟨8⟩ := by
  have hnames : (hintingProgram.lift 40 captureEnvironment crowdedNames).toOption.map
      (fun r => (r.1.error?, r.1.newNames hintingProgram)) = some (none, [⟨8⟩]) := by
    decide +kernel
  obtain ⟨r, hrun, hnames⟩ := exists_of_toOption_map hnames
  obtain ⟨herror, hnew⟩ := Prod.mk.inj hnames
  refine ⟨r.1, r.2, hrun, herror, mentions_hintingProgram, ?_⟩
  rw [hnew]
  exact List.mem_singleton.2 rfl

/-- With the number drawn before, the reference keeps its meaning. -/
theorem not_redirects_hintingProgram :
    ∃ report names', hintingProgram.lift 40 captureEnvironment { crowdedNames with count := 2 } =
        .ok (report, names') ∧ report.error? = none ∧
      report.newNames hintingProgram = [⟨9⟩] ∧ hintingProgram.Mentions ⟨8⟩ ∧
      ¬ hintingProgram.Redirects report ⟨8⟩ := by
  have hanswer : (hintingProgram.lift 40 captureEnvironment
        { crowdedNames with count := 2 }).toOption.map
      (fun r => (r.1.error?, r.1.newNames hintingProgram, r.2.count, r.2.table.text? ⟨8⟩)) =
      some (none, [⟨9⟩], 3, some (NameSource.candidate "main._lambda" 1)) := by decide +kernel
  obtain ⟨r, hrun, hanswer⟩ := exists_of_toOption_map hanswer
  simp only [Prod.mk.injEq] at hanswer
  obtain ⟨herror, hnew, hcount, hold⟩ := hanswer
  refine ⟨r.1, r.2, hrun, herror, hnew, mentions_hintingProgram, fun hc => ?_⟩
  obtain ⟨owner, -, hiff⟩ := redirects_iff hrun herror
  obtain ⟨-, -, k, hle, hlt, htext⟩ := (hiff ⟨8⟩).1 hc
  have hone := NameSource.eq_of_candidate_eq (Option.some.inj (htext.symm.trans hold))
  have htwo : 2 ≤ k := hle
  rw [hcount] at hlt
  obtain rfl : k = 2 := by omega
  cases hone

end Program

end LambdaLifting
