import LambdaLifting.Proofs.Shape
import LambdaLifting.Proofs.Validation

namespace LambdaLifting

/-- What a walk over a flat term meets: flat terms, and dispatchers apart from their arms. -/
def Part (env : Environment) (bare : Name → Prop) (t : Term) : Prop :=
  (∃ k, Flat env bare (.binding k) t) ∨ ∃ c, t = .global c

namespace Part

variable {env : Environment} {bare : Name → Prop}

theorem of_plain {t : Term} (h : Flat env bare .plain t) : Part env bare t := .inl ⟨0, .body h⟩

theorem plain_of_apply {f : Term} {xs : List Term} (hxs : xs ≠ [])
    (h : Part env bare (f.apply xs)) : Flat env bare .plain (f.apply xs) := by
  obtain ⟨g, x, happ⟩ := f.exists_apply_eq_app hxs
  rw [happ] at h ⊢
  rcases h with ⟨k, hk⟩ | ⟨c, hc⟩
  · cases hk with
    | body h => exact h
  · cases hc

theorem of_apply {f : Term} {xs : List Term} (hf : f.isApp = false) (hxs : xs ≠ [])
    (h : Part env bare (f.apply xs)) : ∀ x ∈ f :: xs, Part env bare x := by
  rcases (h.plain_of_apply hxs).call_or_dispatches hf with
    ⟨hhead, hargs⟩ | ⟨t, c, x, arms, extra, rfl, rfl, hd, hextra⟩
  · exact List.forall_mem_cons.2 ⟨of_plain hhead, fun x hx => of_plain (hargs x hx)⟩
  · have harms : ∀ y ∈ arms, Part env bare y := by
      intro y hy
      obtain ⟨d, -, k, -, hk⟩ := exists_of_mem_forall₂ hd.arms.flip hy
      exact .inl ⟨k, hk⟩
    simp only [List.forall_mem_cons, List.forall_mem_append]
    exact ⟨.inr ⟨c, rfl⟩, of_plain hd.scrutinee, harms, fun y hy => of_plain (hextra y hy)⟩

theorem of_lam {b : Binder} {t : Term} (h : Part env bare (.lam b t)) : Part env bare t := by
  rcases h with ⟨k, hk⟩ | ⟨c, hc⟩
  · cases hk with
    | body h => simpa [Term.isLambda] using h.isLambda_eq_false
    | lam h => exact .inl ⟨_, h⟩
  · cases hc

theorem of_letIn {b : Binder} {v t : Term} (h : Part env bare (.letIn b v t)) :
    Part env bare v ∧ Part env bare t := by
  rcases h with ⟨k, hk⟩ | ⟨c, hc⟩
  · cases hk with
    | body h =>
      cases h with
      | letIn hv ht => exact ⟨of_plain hv, of_plain ht⟩
      | dispatch h =>
        obtain ⟨_, _, hc, -⟩ := h.headGlobal?_of_dispatch rfl
        simp [Term.headGlobal?] at hc
  · cases hc

end Part

theorem Arena.WellFormed.inherits_part {a : Arena} (ha : a.WellFormed) (env : Environment)
    (bare : Name → Prop) : a.Inherits (Part env bare) := by
  intro e n t hn hshows ht c hc
  cases hshows with
  | var x => simp [Node.children] at hc
  | global d => simp [Node.children] at hc
  | lit l => simp [Node.children] at hc
  | app hf hxs =>
    obtain ⟨happ, hne⟩ := ha.spine_of_node? hn hf hxs
    have hall : a.Denote (_ :: _) (_ :: _) := .cons hf hxs
    obtain ⟨u, hu, hterm⟩ := exists_of_mem_forall₂ hall hc
    exact ⟨u, hterm, ht.of_apply happ hne u hu⟩
  | lam hu =>
    obtain rfl := List.mem_singleton.1 hc
    exact ⟨_, hu, ht.of_lam⟩
  | letIn hv hu =>
    obtain ⟨hpv, hpu⟩ := ht.of_letIn
    rcases List.mem_cons.1 hc with rfl | hc
    · exact ⟨_, hv, hpv⟩
    · obtain rfl := List.mem_singleton.1 hc
      exact ⟨_, hu, hpu⟩

/-- An arm of a dispatch can only lack lambdas if the dispatcher may stand without arms. -/
theorem Flat.bare_of_openArm {env : Environment} {bare : Name → Prop} {t : Term} {c : Name}
    {i : Nat} (h : Flat env bare .plain t) (hopen : t.OpenArm env c i) : bare c := by
  obtain ⟨T, xs, rfl, ⟨type, hk, hT⟩, d, arm, k, hd, harm, hfields, hlt⟩ := hopen
  rcases h.call_or_dispatches rfl with ⟨hhead, -⟩ | ⟨T', c', x, arms, extra, hc, rfl, hdispatch, -⟩
  · exact hhead.bare_of_global hk
  · cases hc
    obtain ⟨type', hk', hT'⟩ := hdispatch.type
    -- The check looks up the same type that the arms were lifted for.
    cases hk.symm.trans hk'
    cases hT.symm.trans hT'
    obtain ⟨arm', harm', k', hfields', hflat⟩ := getElem?_of_forall₂ hdispatch.arms hd
    obtain ⟨hi, -⟩ := List.getElem?_eq_some_iff.1 harm'
    rw [Nat.add_comm, List.getElem?_cons_succ, List.getElem?_append_left hi, harm'] at harm
    cases harm
    cases hfields.symm.trans hfields'
    exact absurd hlt (by rw [hflat.leading_eq]; exact Nat.lt_irrefl k)

/-- What the check finds at a place of a flat tree is excused: a walk over the tree meets the
dispatch with all its arguments. -/
theorem Part.bare_of_openArm {a : Arena} {env : Environment} {bare : Name → Prop} {e : ExprId}
    {t s : Term} {c : Name} {i : Nat} (ha : a.WellFormed) (he : a.term? e = some t)
    (ht : Part env bare t) (hs : s ∈ t.subterms) (hopen : s.OpenArm env c i) : bare c := by
  obtain ⟨x, hx, zs, hterm⟩ := ha.exists_of_mem_subterms he hs
  obtain ⟨u, hu, hpart⟩ := (ha.inherits_part env bare).of_mem_visits ha he ht hx
  obtain rfl := Option.some.inj (hu.symm.trans hterm)
  obtain ⟨T, xs, heq, hT, d, arm, k, hd, harm, hk⟩ := hopen.apply zs
  have hne : xs ≠ [] := by
    rintro rfl
    simp at harm
  rw [heq] at hpart
  exact (hpart.plain_of_apply hne).bare_of_openArm ⟨T, xs, rfl, hT, d, arm, k, hd, harm, hk⟩

namespace Output

/-- If a problem is an arm with too few lambdas, its dispatcher may stand without arms. -/
def Excused (bare : Name → Prop) (problem : Problem) : Prop :=
  ∀ q d i, problem = .openArm q d i → bare d

/-- The check of flat procedures ends, and the arms that it finds open are excused. -/
theorem problems_eq_ok {a : Arena} {env : Environment} {bare : Name → Prop} (ha : a.WellFormed)
    (input : List Procedure) {output : List Procedure}
    (h : ∀ q ∈ output, ∃ t, a.term? q.body = some t ∧ Part env bare t) :
    ∃ found, problems a env input output = .ok found ∧ ∀ x ∈ found, Excused bare x := by
  have hbodies : ∀ q ∈ output, q.body.index < a.size := by
    intro q hq
    obtain ⟨t, ht, -⟩ := h q hq
    exact Arena.index_lt_of_term? ht
  obtain ⟨found, hfound, hmem⟩ := collects_problems ha env input hbodies
  refine ⟨found, hfound, ?_⟩
  rintro _ hx q d i rfl
  cases (hmem _).1 hx with
  | openArm hq ht hs hopen =>
    obtain ⟨t, ht', hpart⟩ := h _ hq
    obtain rfl := Option.some.inj (ht'.symm.trans ht)
    exact hpart.bare_of_openArm ha ht hs hopen

end Output

/-- A procedure that gives a dispatcher another name and uses it in an abstraction:
`main = let t := List.casesOn; g (λ l, t 1 l (λ h x, h))`. -/
def aliasProgram : Program where
  arena := .ofNodes
    [.global ⟨1⟩, .var ⟨0⟩, .lit (.nat 1), .var ⟨1⟩, .var ⟨2⟩, .lam ⟨⟨3⟩, ⟨10⟩⟩ ⟨4⟩,
      .lam ⟨⟨2⟩, ⟨8⟩⟩ ⟨5⟩, .app ⟨1⟩ [⟨2⟩, ⟨3⟩, ⟨6⟩], .lam ⟨⟨1⟩, ⟨7⟩⟩ ⟨7⟩, .global ⟨2⟩,
      .app ⟨9⟩ [⟨8⟩], .letIn ⟨⟨0⟩, ⟨9⟩⟩ ⟨0⟩ ⟨10⟩] 4
  procedures := [⟨⟨6⟩, ⟨11⟩⟩]
  config := { owner := ⟨6⟩, checked := false }

namespace Program

variable {fuel : Nat} {env : Environment} {p : Program} {names : NameSource}

def finds (p : Program) (fuel : Nat) (env : Environment) (names : NameSource)
    (problems : List Problem) : Bool :=
  match p.lift fuel env names with
  | .ok (report, _) => report.error?.isNone &&
    Output.problems report.program.arena env p.procedures report.program.procedures = .ok problems
  | .error _ => false

theorem exists_of_finds {problems : List Problem} (h : p.finds fuel env names problems = true) :
    ∃ report names', p.lift fuel env names = .ok (report, names') ∧ report.error? = none ∧
      Output.problems report.program.arena env p.procedures report.program.procedures =
        .ok problems := by
  rw [finds] at h
  split at h
  · next report names' hrun =>
    simp only [Bool.and_eq_true, Option.isNone_iff_eq_none, decide_eq_true_eq] at h
    exact ⟨report, names', hrun, h⟩
  · cases h

theorem finds_aliasProgram :
    aliasProgram.finds 40 dispatchEnvironment dispatchNames [.openArm ⟨13⟩ ⟨1⟩ 1] = true := by
  decide +kernel

/-- The check of lifted procedures ends. Where it finds an arm with too few lambdas, the dispatcher
was mentioned without arguments by a procedure that was lifted. -/
theorem unapplied_of_openArm {ctx : LiftContext} {a : Arena} {ps output : List Procedure}
    {events : Array Event} {s : LiftState} (ha : a.WellFormed)
    (hrun : (liftProcedures fuel ps).Runs ctx { arena := a, names, events } output s) :
    ∃ problems, Output.problems s.arena ctx.env ps output = .ok problems ∧
      ∀ q d i, .openArm q d i ∈ problems → s.arena.Unapplied ps d := by
  obtain ⟨given, lifted, v, w, ts, us, rfl, h⟩ := derives_of_liftProcedures ha hrun
  have hparts : ∀ q ∈ given ++ lifted, ∃ t, s.arena.term? q.body = some t ∧
      Part ctx.env (s.arena.Unapplied ps) t := by
    intro q hq
    obtain ⟨t, ht, hflat⟩ := h.flat q hq
    exact ⟨t, ht, .inl ⟨_, hflat⟩⟩
  obtain ⟨problems, hproblems, hexcused⟩ := Output.problems_eq_ok h.wellFormed ps hparts
  exact ⟨problems, hproblems, fun q d i hmem => hexcused _ hmem q d i rfl⟩

theorem unapplied_aliasProgram :
    aliasProgram.arena.WellFormed ∧ ∃ ctx names events output s,
      (liftProcedures 40 aliasProgram.procedures).Runs ctx
        { arena := aliasProgram.arena, names, events } output s ∧
      Output.problems s.arena ctx.env aliasProgram.procedures output =
        .ok [.openArm ⟨13⟩ ⟨1⟩ 1] ∧
      s.arena.Unapplied aliasProgram.procedures ⟨1⟩ := by
  have hp : aliasProgram.arena.WellFormed := by decide +kernel
  obtain ⟨report, names', hlift, herror, hfinds⟩ := exists_of_finds finds_aliasProgram
  obtain ⟨base, events, s, hrun, harena⟩ := runs_of_lift hlift herror
  rw [harena] at hfinds
  obtain ⟨problems, hproblems, hopen⟩ := unapplied_of_openArm hp hrun
  cases hfinds.symm.trans hproblems
  exact ⟨hp, _, _, events, _, s, hrun, hfinds, hopen _ _ _ List.mem_cons_self⟩

/-- Closing the abstraction puts the dispatcher in for its other name, when its arms have already
been lifted. -/
theorem openArm_aliasProgram :
    ∃ report names', aliasProgram.lift 40 dispatchEnvironment dispatchNames =
        .ok (report, names') ∧ report.error? = none ∧
      Output.problems report.program.arena dispatchEnvironment aliasProgram.procedures
        report.program.procedures = .ok [.openArm ⟨13⟩ ⟨1⟩ 1] :=
  exists_of_finds finds_aliasProgram

end Program

end LambdaLifting
