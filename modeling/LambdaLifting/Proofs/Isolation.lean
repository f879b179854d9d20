import LambdaLifting.Proofs.Mirroring
import LambdaLifting.Proofs.Programs
import Mathlib.Data.Set.Operations

namespace LambdaLifting

/-- Names with a text keep it, and so does the name for parameters, if it has one by then. -/
structure NameTable.Continues (table t : NameTable) : Prop where
  isExtension : table.Extends t
  anonymous : (table.intern "a").2.Extends (t.intern "a").2

namespace NameTable

variable {table t t' : NameTable}

theorem continues_refl (table : NameTable) : table.Continues table :=
  ⟨fun _ _ h => h, fun _ _ h => h⟩

theorem continues_of_extends (h : (table.intern "a").2.Extends t) : table.Continues t where
  isExtension _ _ hn := h (table.text?_intern_of_text? "a" hn)
  anonymous _ _ hn := t.text?_intern_of_text? "a" (h hn)

theorem Continues.intern_eq (h : table.Continues t) (h' : table.Continues t') :
    (t.intern "a").1 = (t'.intern "a").1 := by
  have position {t : NameTable} (h : table.Continues t) : (t.intern "a").1 = (table.intern "a").1 :=
    (t.intern "a").2.text?_inj (t.text?_intern "a") (h.anonymous (table.text?_intern "a"))
  rw [position h, position h']

end NameTable

theorem NameSource.base_congr {s t : NameSource} {owner : Name} {text : String}
    (hs : s.table.text? owner = some text) (ht : t.table.text? owner = some text)
    (suffix : String) : s.base owner suffix = t.base owner suffix := by
  simp only [base, NameTable.text, hs, ht]

namespace LiftState.Mirrors

variable {g : Ground} {ctx : LiftContext} {τ : NameTable} {ρ : Name → Name} {s t : LiftState}

theorem injOn (h : s.Mirrors g ctx τ ρ t) : Set.InjOn ρ {c | ctx.taken s.lifted c = true} := by
  -- A name from the start stays, and no new one is renamed to it.
  have apart {c : Name} (hc : ctx.taken #[] c = true) {p : Procedure} (hp : p ∈ s.lifted) :
      ρ c ≠ ρ p.name := by
    intro heq
    rw [h.keeps c ((h.kept_iff c).2 hc)] at heq
    rw [heq, (h.free p hp).2] at hc
    cases hc
  intro c hc d hd heq
  rcases LiftContext.taken_iff.1 hc with hc | ⟨p, hp, rfl⟩
  · rcases LiftContext.taken_iff.1 hd with hd | ⟨q, hq, rfl⟩
    · rwa [h.keeps c ((h.kept_iff c).2 hc), h.keeps d ((h.kept_iff d).2 hd)] at heq
    · exact absurd heq (apart hc hq)
  · rcases LiftContext.taken_iff.1 hd with hd | ⟨q, hq, rfl⟩
    · exact absurd heq.symm (apart hd hp)
    · exact h.injective p hp q hq heq

end LiftState.Mirrors

namespace Program

variable {fuel fuel' : Nat} {env : Environment} {p : Program} {names names' : NameSource}
  {report : Report}

/-- A name that stands for something before lifting. -/
def Knows (p : Program) (env : Environment) (c : Name) : Prop :=
  env.contains c = true ∨ c ∈ p.procedures.map Procedure.name

def KnowsIssued (p : Program) (env : Environment) (table : NameTable) : Prop :=
  ∀ c, p.Knows env c → ∃ text, table.text? c = some text

/-- A program that can be lifted in company: it mentions no names but those it knows, its owner has
a name from the start, and its output is not checked. -/
structure SelfContained (p : Program) (env : Environment) (table : NameTable) : Prop where
  unchecked : p.config.checked = false
  owner : ∃ text, table.text? p.config.owner = some text
  knows : ∀ q ∈ p.procedures, ∀ e, Relation.ReflTransGen p.arena.HasChild q.body e →
    ∀ c, p.arena.node? e = some (.global c) → p.Knows env c

/-- Whether all globals in the arena of a program are known, also those that no procedure
mentions. -/
def mentionsKnown (p : Program) (env : Environment) : Bool :=
  p.arena.cells.all fun n => match n with
    | .global c => env.contains c || (p.procedures.map Procedure.name).contains c
    | _ => true

theorem selfContained_of_mentionsKnown {table : NameTable} (hknows : p.mentionsKnown env = true)
    (hchecked : p.config.checked = false) (howner : (table.text? p.config.owner).isSome = true) :
    p.SelfContained env table where
  unchecked := hchecked
  owner := Option.isSome_iff_exists.1 howner
  knows q hq e he c hc := by
    have hknown := Array.all_eq_true'.1 hknows _ (Arena.mem_cells_of_node? hc)
    simpa [Knows] using hknown

/-- A name that is known, or that a report on the program mentions. -/
def InUse (p : Program) (env : Environment) (r : Report) (c : Name) : Prop :=
  p.Knows env c ∨ c ∈ r.program.procedures.map Procedure.name ∨
    ∃ e, p.arena.size ≤ e.index ∧ r.program.arena.node? e = some (.global c)

/-- Two reports on a program differ in the names of new procedures only: `ρ` takes those of `r` to
those of `r'`, keeps all names that are known and takes no two names to one. The error is the same,
procedures have the same bodies, and the arenas hold the same nodes at the same positions; nodes
from before are as they were. -/
structure Renames (p : Program) (env : Environment) (ρ : Name → Name) (r r' : Report) : Prop where
  error_eq : r'.error? = r.error?
  procedures_eq : r'.program.procedures = r.program.procedures.map (Procedure.rename ρ)
  arena_eq : r'.program.arena = r.program.arena.renameFrom p.arena.size ρ
  isExtension : p.arena.Extends r.program.arena
  keeps : ∀ c, p.Knows env c → ρ c = c
  injOn : Set.InjOn ρ {c | p.InUse env r c}

/-- Two runs on a program see what its procedures are made of. -/
def ground (p : Program) (env : Environment) {table : NameTable}
    (hp : p.SelfContained env table) : Ground where
  arena := p.arena
  live e := ∃ q ∈ p.procedures, Relation.ReflTransGen p.arena.HasChild q.body e
  kept := p.Knows env
  live_child he hn c hc := by
    obtain ⟨q, hq, hbelow⟩ := he
    exact ⟨q, hq, hbelow.tail ⟨_, hn, hc⟩⟩
  kept_global he hn := by
    obtain ⟨q, hq, hbelow⟩ := he
    exact hp.knows q hq _ hbelow _ hn

theorem knows_iff {base : String} {c : Name} :
    p.Knows env c ↔ (p.context env names base).taken #[] c = true := by
  simp [Knows, context, LiftContext.taken, LiftContext.owns, or_comm]

theorem mirrors_start {table : NameTable} (hp : p.SelfContained env table) (base : String)
    (hm : table.Continues names.table) (hm' : table.Continues names'.table) :
    (p.start names).Mirrors (p.ground env hp) (p.context env names base) (table.intern "a").2 id
      (p.start names') where
  kept_iff _ := knows_iff
  arena_eq := Arena.renameFrom_id.symm
  carries := by
    have absent {e : ExprId} {n : Node} (he : p.arena.size ≤ e.index) : p.arena.node? e ≠ some n :=
      fun hn => Nat.not_lt.2 he (Arena.index_lt_of_node? hn)
    exact ⟨.refl _, fun he hn => absurd hn (absent he), fun he hn => absurd hn (absent he)⟩
  scope_eq := rfl
  seesScope _ _ hd := by simp [start, Scope.find?] at hd
  lifted_eq := by simp [start]
  keeps _ _ := rfl
  free q hq := by simp [start] at hq
  injective q hq := by simp [start] at hq
  nodup := List.nodup_nil
  drawn q hq := by simp [start] at hq
  drawn' q hq := by simp [start] at hq
  left := hm.anonymous
  right := hm'.anonymous

theorem map_rename_eq_self {ρ : Name → Name} {ps : List Procedure}
    (h : ∀ q ∈ ps, ρ q.name = q.name) : ps.map (Procedure.rename ρ) = ps := by
  refine (List.map_congr_left fun q hq => ?_).trans ps.map_id
  rw [Procedure.rename, h q hq, id]

theorem answers_liftProcedures {g : Ground} {ctx : LiftContext} {τ : NameTable} {ample : Prop}
    {ρ : Name → Name} {s t s' : LiftState} (h : s.Mirrors g ctx τ ρ t)
    (hfuel : ample → LiftM.Spare ctx τ fuel fuel') {ps : List Procedure}
    (hps : ∀ q ∈ ps, g.Sees q.body ∧ g.kept q.name)
    {outcome : Except LiftError (List Procedure)}
    (hrun : liftProcedures fuel ps ctx s = .ok (outcome, s')) :
    Answers ample (liftProcedures fuel' ps ctx t) fun q => ∃ ρ', s'.Mirrors g ctx τ ρ' q.2 ∧
      q.1 = outcome.map (List.map (Procedure.rename ρ')) ∧
      ∀ output, outcome = .ok output → ∀ o ∈ output, ctx.taken s'.lifted o.name = true := by
  have hmapM : LiftM.Tracks g ctx τ ample (ps.mapM (LiftM.liftProcedure fuel))
      (ps.mapM (LiftM.liftProcedure fuel')) fun qs => ∀ q ∈ qs, g.kept q.name :=
    LiftM.Tracks.mapM fun q hq => LiftM.tracks_liftProcedure hfuel (hps q hq).1 (hps q hq).2
  rcases hgiven : ps.mapM (LiftM.liftProcedure fuel) ctx s with fault | ⟨err | given, s₁⟩
  · cases (LiftM.bind_of_fault hgiven).symm.trans hrun
  · cases (LiftM.bind_of_error hgiven).symm.trans hrun
    rcases hmapM h hgiven with ⟨⟨_, t₁⟩, hgiven', rfl, ⟨ρ', hmirror⟩, -⟩ | ⟨hdry, hample⟩
    · refine .inl ⟨_, LiftM.bind_of_error hgiven', ρ', hmirror, rfl, ?_⟩
      rintro _ ⟨⟩
    · exact .inr ⟨LiftM.bind_of_fault hdry, hample⟩
  · cases (LiftM.bind_of_runs hgiven).symm.trans hrun
    rcases hmapM h hgiven with ⟨⟨_, t₁⟩, hgiven', rfl, ⟨ρ', hmirror⟩, hkept⟩ | ⟨hdry, hample⟩
    · have hstay : given.map (Procedure.rename ρ') = given :=
        map_rename_eq_self fun q hq => hmirror.keeps _ (hkept _ rfl q hq)
      refine .inl ⟨_, LiftM.bind_of_runs hgiven', ρ', hmirror, ?_, ?_⟩
      · show Except.ok (given ++ t₁.lifted.toList) = _
        rw [hmirror.lifted_eq, Array.toList_map]
        show _ = Except.ok ((given ++ s'.lifted.toList).map _)
        rw [List.map_append, hstay]
      · rintro _ ⟨⟩ o ho
        refine LiftContext.taken_iff.2 ?_
        rcases List.mem_append.1 ho with ho | ho
        · exact .inl ((h.kept_iff _).1 (hkept _ rfl o ho))
        · exact .inr ⟨o, Array.mem_toList_iff.1 ho, rfl⟩
    · exact .inr ⟨LiftM.bind_of_fault hdry, hample⟩

theorem renames_of_mirrors {table τ : NameTable} {hp : p.SelfContained env table} {base : String}
    {ρ : Name → Name} {s t : LiftState} {outcome : Except LiftError (List Procedure)}
    {report report' : Report}
    (h : s.Mirrors (p.ground env hp) (p.context env names base) τ ρ t)
    (htaken : ∀ output, outcome = .ok output → ∀ o ∈ output,
      (p.context env names base).taken s.lifted o.name = true)
    (hreport : p.Reports s outcome report)
    (hreport' : p.Reports t (outcome.map (List.map (Procedure.rename ρ))) report') :
    p.Renames env ρ report report' := by
  have hknown (c : Name) (hc : p.Knows env c) :
      (p.context env names base).taken s.lifted c = true :=
    LiftContext.taken_iff.2 (.inl ((h.kept_iff c).1 hc))
  have hown : ∀ q ∈ p.procedures, p.Knows env q.name :=
    fun q hq => .inr (List.mem_map_of_mem hq)
  have hinj {r : Report} (harena : r.program.arena = s.arena)
      (hprocs : ∀ q ∈ r.program.procedures,
        (p.context env names base).taken s.lifted q.name = true) :
      Set.InjOn ρ {c | p.InUse env r c} := by
    have htaken' (c : Name) (hc : p.InUse env r c) :
        (p.context env names base).taken s.lifted c = true := by
      rcases hc with hc | hc | ⟨e, he, hn⟩
      · exact hknown c hc
      · obtain ⟨q, hq, rfl⟩ := List.mem_map.1 hc
        exact hprocs q hq
      · exact h.carries.known_of_new he (harena ▸ hn)
    exact fun c hc d hd => h.injOn (htaken' c hc) (htaken' d hd)
  cases hreport with
  | ok output =>
    cases hreport'
    exact ⟨rfl, rfl, h.arena_eq, h.carries.isExtension, h.keeps, hinj rfl (htaken output rfl)⟩
  | error err =>
    cases hreport'
    exact ⟨rfl, (map_rename_eq_self fun q hq => h.keeps _ (hown q hq)).symm, h.arena_eq,
      h.carries.isExtension, h.keeps, hinj rfl fun q hq => hknown _ (hown q hq)⟩

/-- Two runs on a program whose name sources have grown from one table give the same, up to the
names of new procedures. The second needs fuel to try all numbers. -/
theorem answers_lift {table : NameTable} (hp : p.SelfContained env table) {ample : Prop}
    (hfuel : ample → p.KnowsIssued env table ∧ fuel + NameSource.limit < fuel')
    {m m' m₁ : NameSource} (hm : table.Continues m.table) (hm' : table.Continues m'.table)
    {report : Report} (hrun : p.lift fuel env m = .ok (report, m₁)) :
    Answers ample (p.lift fuel' env m') fun r => (∃ ρ, p.Renames env ρ report r.1) ∧
      (table.intern "a").2.Extends m₁.table ∧ (table.intern "a").2.Extends r.2.table := by
  obtain ⟨base, outcome, s, hbase, houtcome, hreport, rfl⟩ := exists_of_lift hrun
  obtain ⟨text, howner⟩ := hp.owner
  have hbase' : m'.base p.config.owner p.config.suffix = .ok base := by
    rw [← hbase, NameSource.base_congr (hm.isExtension howner) (hm'.isExtension howner)]
  have hctx : p.context env m' base = p.context env m base := by
    rw [context, context]
    exact congrArg (LiftContext.mk env base · _) (hm'.intern_eq hm)
  have hspare (hample : ample) :
      LiftM.Spare (p.context env m base) (table.intern "a").2 fuel fuel' := by
    refine ⟨fun c hc => ?_, (hfuel hample).2⟩
    obtain ⟨r, hr⟩ := (hfuel hample).1 c (knows_iff.2 hc)
    exact ⟨r, table.text?_intern_of_text? "a" hr⟩
  have hps : ∀ q ∈ p.procedures, (p.ground env hp).Sees q.body ∧ (p.ground env hp).kept q.name :=
    fun q hq => ⟨.inr ⟨q, hq, .refl⟩, .inr (List.mem_map_of_mem hq)⟩
  rcases answers_liftProcedures (mirrors_start hp base hm hm') hspare hps houtcome with
    ⟨⟨outcome', t⟩, houtcome', ρ, hmirror, heq, htaken⟩ | ⟨hdry, hample⟩
  · rw [← hctx] at houtcome'
    obtain ⟨report', hreport', hrun'⟩ := lift_of_outcome hbase' houtcome' hp.unchecked
    exact .inl ⟨_, hrun', ⟨ρ, renames_of_mirrors hmirror htaken hreport (heq ▸ hreport')⟩,
      hmirror.left, hmirror.right⟩
  · rw [← hctx] at hdry
    exact .inr ⟨lift_of_fault hbase' hdry, hample⟩

theorem extends_of_lift {table : NameTable} (hp : p.SelfContained env table) {m m₁ : NameSource}
    (hm : table.Continues m.table) {report : Report}
    (hrun : p.lift fuel env m = .ok (report, m₁)) : (table.intern "a").2.Extends m₁.table := by
  -- A run is compared with itself.
  rcases answers_lift hp (fun hno : False => hno.elim) hm hm hrun with ⟨_, _, _, h, _⟩ | ⟨hdry, _⟩
  · exact h
  · cases hdry.symm.trans hrun

theorem procedures_of_error (hrun : p.lift fuel env names = .ok (report, names'))
    (herror : report.error? ≠ none) : report.program.procedures = p.procedures := by
  obtain ⟨_, _, _, _, _, hreport, _⟩ := exists_of_lift hrun
  cases hreport with
  | ok output => exact absurd rfl herror
  | error err => rfl

theorem exists_of_liftEach_cons {units : List Program} {reports : List Report}
    (hrun : liftEach fuel env (p :: units) names = .ok (reports, names')) :
    ∃ r rs m, reports = r :: rs ∧ p.lift fuel env names = .ok (r, m) ∧
      liftEach fuel env units m = .ok (rs, names') := by
  rw [liftEach] at hrun
  cases hhead : p.lift fuel env names with
  | error fault =>
    rw [hhead] at hrun
    cases hrun
  | ok r =>
    simp only [hhead, Bind.bind, Except.bind] at hrun
    cases htail : liftEach fuel env units r.2 with
    | error fault =>
      rw [htail] at hrun
      cases hrun
    | ok rs =>
      rw [htail] at hrun
      cases hrun
      exact ⟨r.1, rs.1, r.2, rfl, rfl, htail⟩

section Each

variable {table : NameTable} {units : List Program} {reports : List Report}

theorem extends_of_liftEach (hunits : ∀ p ∈ units, p.SelfContained env table)
    (hm : (table.intern "a").2.Extends names.table)
    (hrun : liftEach fuel env units names = .ok (reports, names')) :
    (table.intern "a").2.Extends names'.table := by
  induction units generalizing names reports with
  | nil =>
    cases hrun
    exact hm
  | cons p units ih =>
    obtain ⟨hp, hrest⟩ := List.forall_mem_cons.1 hunits
    obtain ⟨r, rs, m, rfl, hhead, htail⟩ := exists_of_liftEach_cons hrun
    exact ih hrest (extends_of_lift hp (NameTable.continues_of_extends hm) hhead) htail

theorem forall₂_of_liftEach (hunits : ∀ p ∈ units, p.SelfContained env table)
    (hm : table.Continues names.table)
    (hrun : liftEach fuel env units names = .ok (reports, names')) :
    List.Forall₂ (fun p r => (table.intern "a").2.Extends names'.table ∧
      ∃ m m', table.Continues m.table ∧ p.lift fuel env m = .ok (r, m')) units reports := by
  induction units generalizing names reports with
  | nil =>
    cases hrun
    exact .nil
  | cons p units ih =>
    obtain ⟨hp, hrest⟩ := List.forall_mem_cons.1 hunits
    obtain ⟨r, rs, m, rfl, hhead, htail⟩ := exists_of_liftEach_cons hrun
    have hext := extends_of_lift hp hm hhead
    exact .cons ⟨extends_of_liftEach hrest hext htail, names, m, hm, hhead⟩
      (ih hrest (NameTable.continues_of_extends hext) htail)

/-- A program that is lifted with one source of names is lifted with any other that has grown from
the same table, once there is fuel enough. -/
theorem exists_lift (hknows : p.KnowsIssued env table) (hp : p.SelfContained env table)
    {m m₁ : NameSource} (hm : table.Continues m.table) {report : Report}
    (hrun : p.lift fuel env m = .ok (report, m₁)) :
    ∃ n, ∀ fuel', n < fuel' → ∀ m' : NameSource, table.Continues m'.table →
      ∃ r m₁', p.lift fuel' env m' = .ok (r, m₁') := by
  refine ⟨fuel + NameSource.limit, fun fuel' hfuel m' hm' => ?_⟩
  rcases answers_lift hp (fun _ : True => ⟨hknows, hfuel⟩) hm hm' hrun with ⟨r, hr, -⟩ | ⟨-, hno⟩
  · exact ⟨r.1, r.2, hr⟩
  · exact absurd trivial hno

theorem exists_liftEach (hknows : ∀ p ∈ units, p.KnowsIssued env table)
    (hunits : ∀ p ∈ units, p.SelfContained env table) {m : NameSource}
    (hm : table.Continues m.table)
    (halone : ∀ p ∈ units, ∃ fuel r m₁, p.lift fuel env m = .ok (r, m₁)) :
    ∃ n, ∀ fuel', n < fuel' → ∀ m' : NameSource, table.Continues m'.table →
      ∃ rs m₁', liftEach fuel' env units m' = .ok (rs, m₁') := by
  induction units with
  | nil => exact ⟨0, fun _ _ m' _ => ⟨[], m', rfl⟩⟩
  | cons p units ih =>
    obtain ⟨hknown, hknows⟩ := List.forall_mem_cons.1 hknows
    obtain ⟨hp, hrest⟩ := List.forall_mem_cons.1 hunits
    obtain ⟨⟨fuel, r, m₁, hrun⟩, halone⟩ := List.forall_mem_cons.1 halone
    obtain ⟨n, hn⟩ := exists_lift hknown hp hm hrun
    obtain ⟨k, hk⟩ := ih hknows hrest halone
    refine ⟨max n k, fun fuel' hfuel m' hm' => ?_⟩
    obtain ⟨r, m₁', hhead⟩ := hn fuel' (by omega) m' hm'
    have hext := extends_of_lift hp hm' hhead
    obtain ⟨rs, m₂, htail⟩ := hk fuel' (by omega) m₁' (NameTable.continues_of_extends hext)
    exact ⟨r :: rs, m₂, by simp only [liftEach, hhead, htail, Bind.bind, Except.bind]; rfl⟩

end Each

/-- Programs that are lifted one after the other come out as if each had been lifted alone, from the
same table and with any counter: with the same error or none, and with the same procedures and nodes
up to a renaming of the new procedures that is one-to-one. One that fails keeps its procedures. All
of them together have an answer just if each alone has one; for that, what they know has to be
named in the table, as all numbers could be in use otherwise. -/
theorem liftEach_isolated {units : List Program}
    (hunits : ∀ p ∈ units, p.SelfContained env names.table) (count : Nat) :
    (∀ fuel reports names', liftEach fuel env units names = .ok (reports, names') →
      List.Forall₂ (fun p r =>
        (r.error? ≠ none → r.program.procedures = p.procedures) ∧
        ∀ fuel' r' alone, p.lift fuel' env ⟨names.table, count⟩ = .ok (r', alone) →
          (∃ ρ, p.Renames env ρ r r') ∧ (names.table.intern "a").2.Extends names'.table ∧
            (names.table.intern "a").2.Extends alone.table) units reports) ∧
    ((∀ p ∈ units, p.KnowsIssued env names.table) →
      ((∃ fuel reports names', liftEach fuel env units names = .ok (reports, names')) ↔
        ∀ p ∈ units, ∃ fuel r alone, p.lift fuel env ⟨names.table, count⟩ = .ok (r, alone))) := by
  have hm := names.table.continues_refl
  have halone : names.table.Continues (⟨names.table, count⟩ : NameSource).table := hm
  constructor
  · intro fuel reports names' hrun
    have heach := forall₂_of_liftEach hunits hm hrun
    refine ((List.forall₂_and_left _ _).2 ⟨hunits, heach⟩).imp ?_
    rintro p r ⟨hp, hext, m, m', hm', hlift⟩
    refine ⟨procedures_of_error hlift, fun fuel' r' alone hrun' => ?_⟩
    rcases answers_lift hp (fun hno : False => hno.elim) hm' halone hlift with
      ⟨q, hq, hrenames, -, hext'⟩ | ⟨hdry, -⟩
    · cases hq.symm.trans hrun'
      exact ⟨hrenames, hext, hext'⟩
    · cases hdry.symm.trans hrun'
  · intro hknows
    constructor
    · rintro ⟨fuel, reports, names', hrun⟩ p hp
      obtain ⟨r, -, -, m, m', hm', hlift⟩ :=
        exists_of_mem_forall₂ (forall₂_of_liftEach hunits hm hrun) hp
      obtain ⟨n, hn⟩ := exists_lift (hknows p hp) (hunits p hp) hm' hlift
      exact ⟨n + 1, hn (n + 1) (Nat.lt_succ_self n) ⟨names.table, count⟩ halone⟩
    · intro hlifts
      obtain ⟨n, hn⟩ := exists_liftEach hknows hunits halone hlifts
      exact ⟨n + 1, hn (n + 1) (Nat.lt_succ_self n) names hm⟩

def uncheckedCapture : Program :=
  { captureProgram with config := { captureProgram.config with checked := false } }

/-- A procedure that is left when an abstraction is lifted already: `main = g (λ x, x) y`, with no
binder for `y`. -/
def openProgram : Program where
  arena := .ofNodes
    [.var ⟨0⟩, .lam ⟨⟨0⟩, ⟨7⟩⟩ ⟨0⟩, .global ⟨2⟩, .var ⟨1⟩, .app ⟨2⟩ [⟨1⟩, ⟨3⟩]] 2
  procedures := [⟨⟨4⟩, ⟨4⟩⟩]
  config := { owner := ⟨4⟩, checked := false }

/-- The second program fails with a number used up; the third gets another name than the first. -/
theorem liftEach_isolated_uncheckedCapture :
    ∃ reports names', liftEach 40 captureEnvironment
        [uncheckedCapture, openProgram, uncheckedCapture] captureNames = .ok (reports, names') ∧
      reports.map (fun r => (r.error?, r.program.procedures.map Procedure.name)) =
        [(none, [⟨4⟩, ⟨8⟩]), (some (.unboundVar ⟨1⟩), [⟨4⟩]), (none, [⟨4⟩, ⟨10⟩])] ∧
      List.Forall₂ (fun p r => ∀ fuel r' alone,
          p.lift fuel captureEnvironment ⟨captureNames.table, 1⟩ = .ok (r', alone) →
          ∃ ρ, p.Renames captureEnvironment ρ r r')
        [uncheckedCapture, openProgram, uncheckedCapture] reports ∧
      ∀ p ∈ [uncheckedCapture, openProgram, uncheckedCapture], ∃ fuel r alone,
        p.lift fuel captureEnvironment ⟨captureNames.table, 1⟩ = .ok (r, alone) := by
  have hcapture : uncheckedCapture.SelfContained captureEnvironment captureNames.table :=
    selfContained_of_mentionsKnown (by decide +kernel) rfl (by decide +kernel)
  have hopen : openProgram.SelfContained captureEnvironment captureNames.table :=
    selfContained_of_mentionsKnown (by decide +kernel) rfl (by decide +kernel)
  have hunits : ∀ p ∈ [uncheckedCapture, openProgram, uncheckedCapture],
      p.SelfContained captureEnvironment captureNames.table := by simp [hcapture, hopen]
  have hissued : ∀ c ∈ ([⟨1⟩, ⟨2⟩, ⟨3⟩, ⟨4⟩] : List Name),
      ∃ text, captureNames.table.text? c = some text := by
    simp only [← Option.isSome_iff_exists]
    decide +kernel
  have hknows : ∀ p ∈ [uncheckedCapture, openProgram, uncheckedCapture],
      p.KnowsIssued captureEnvironment captureNames.table := by
    have heach {p : Program} (hp : p.procedures.map Procedure.name = [⟨4⟩]) :
        p.KnowsIssued captureEnvironment captureNames.table := by
      rintro ⟨i⟩ hc
      refine hissued ⟨i⟩ ?_
      simpa [Knows, hp, Environment.contains, captureEnvironment, or_assoc] using hc
    simp [heach (p := uncheckedCapture) rfl, heach (p := openProgram) rfl]
  have hreports : (liftEach 40 captureEnvironment
      [uncheckedCapture, openProgram, uncheckedCapture] captureNames).toOption.map
        (fun r => r.1.map fun r => (r.error?, r.program.procedures.map Procedure.name)) =
      some [(none, [⟨4⟩, ⟨8⟩]), (some (.unboundVar ⟨1⟩), [⟨4⟩]), (none, [⟨4⟩, ⟨10⟩])] := by
    decide +kernel
  obtain ⟨hall, hiff⟩ := liftEach_isolated hunits 1
  obtain ⟨r, hrun, hreports⟩ := exists_of_toOption_map hreports
  exact ⟨r.1, r.2, hrun, hreports,
    (hall 40 r.1 r.2 hrun).imp fun p r h fuel r' alone hr' => (h.2 fuel r' alone hr').1,
    (hiff hknows).1 ⟨40, r.1, r.2, hrun⟩⟩

end Program

end LambdaLifting
