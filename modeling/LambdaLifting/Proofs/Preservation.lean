import LambdaLifting.Proofs.Expansion
import LambdaLifting.Proofs.Programs

namespace LambdaLifting

def Arena.body? (a : Arena) (ps : List Procedure) (c : Name) : Option Term :=
  (ps.find? (·.name = c)).bind fun p => a.term? p.body

theorem Arena.body?_eq_lookup {a : Arena} {ps : List Procedure} {ds : List Definition}
    (h : List.Forall₂ (Procedure.Shows a) ps ds) : a.body? ps = Definition.lookup ds := by
  funext c
  induction h with
  | nil => rfl
  | @cons p d ps ds hp _ ih =>
    rw [body?, Definition.lookup, List.find?_cons, List.find?_cons, hp.1]
    by_cases hc : d.name = c
    · simp [hc, hp.2]
    · simpa [hc, body?, Definition.lookup] using ih

def captureTerm : Term :=
  .lam ⟨⟨0⟩, ⟨5⟩⟩ (.letIn ⟨⟨1⟩, ⟨6⟩⟩ (.app (.global ⟨1⟩) (.var ⟨0⟩))
    (.app (.global ⟨2⟩) (.lam ⟨⟨2⟩, ⟨7⟩⟩ (.app (.app (.global ⟨3⟩) (.var ⟨2⟩)) (.var ⟨1⟩)))))

namespace Program

/-- Procedures are closed, use variables that were handed out, and mention known globals. -/
structure Admissible (env : Environment) (p : Program) : Prop where
  wellFormed : p.arena.WellFormed
  body : ∀ q ∈ p.procedures, ∃ t, p.arena.term? q.body = some t ∧ t.Closed ∧
    (∀ x ∈ t.locals, x.index < p.arena.nextLocal) ∧
    ∀ c ∈ t.globals, env.contains c ∨ c ∈ p.procedures.map Procedure.name

variable {fuel : Nat} {env : Environment} {p : Program} {names names' : NameSource}
  {report : Report}

theorem Admissible.forall_input {ctx : LiftContext} {a : Arena} {given lifted : List Procedure}
    {v w : Stage} {ts us : List Term} (hp : p.Admissible ctx.env)
    (hctx : ctx.declared = p.procedures.map Procedure.name)
    (h : Derives fuel ctx p.arena p.procedures a given lifted v w ts us) :
    ∀ t ∈ ts, t.Closed ∧ (∀ x ∈ t.locals, x.index < v.nextLocal) ∧
      ∀ c ∈ t.globals, ctx.takenAt [] c = true := by
  intro t ht
  obtain ⟨hclosed, hlocals, hglobals⟩ := (h.forall_input hp.body t ht).1
  refine ⟨hclosed, h.nextLocal_eq ▸ hlocals, fun c hc => ?_⟩
  rw [LiftContext.takenAt_nil_iff, hctx]
  exact hglobals c hc

/-- Every procedure of a lifted program, with the new procedures put in for their names, is
convertible to what it was before. -/
theorem convertible_of_lift (hp : p.Admissible env)
    (hrun : p.lift fuel env names = .ok (report, names')) (herror : report.error? = none) (i : Nat)
    (q : Procedure) (hq : p.procedures[i]? = some q) :
    ∃ q' t u, report.program.procedures[i]? = some q' ∧ q'.name = q.name ∧
      p.arena.term? q.body = some t ∧ report.program.arena.term? q'.body = some u ∧
      let defs := report.program.arena.body?
        (report.program.procedures.drop p.procedures.length)
      (∃ e, u.Expands defs e) ∧ ∀ e, u.Expands defs e → e.Convertible t := by
  obtain ⟨ctx, given, lifted, v, w, ts, us, rfl, hctx, hprocs, h⟩ :=
    derives_of_lift hp.wellFormed hrun herror
  have hconv := LiftsBody.convertible h.each h.lifted_eq_nil (hp.forall_input hctx h)
  have hbody : (p.procedures.map Procedure.body)[i]? = some q.body := by simp [hq]
  obtain ⟨t, hti, hterm⟩ := getElem?_of_forall₂ h.input hbody
  obtain ⟨u, hui, hexpands⟩ := getElem?_of_forall₂ hconv hti
  obtain ⟨e, hei, hterm'⟩ := getElem?_of_forall₂ h.output.flip hui
  rw [List.getElem?_map, Option.map_eq_some_iff] at hei
  obtain ⟨q', hq', rfl⟩ := hei
  have hlength : given.length = p.procedures.length := by simpa using congrArg List.length h.names
  have hname : q'.name = q.name := by
    have := congrArg (fun ns : List Name => ns[i]?) h.names
    simpa [hq, hq'] using this
  obtain ⟨t', ht', -⟩ := hp.body q (List.mem_of_getElem? hq)
  obtain rfl := Option.some.inj (hterm.symm.trans (h.isExtension.term?_eq_some ht'))
  -- The new procedures stand after the given ones, so dropping these leaves the definitions.
  refine ⟨q', t, u, ?_, hname, ht', hterm', ?_⟩
  · rw [hprocs, List.getElem?_append_left (List.getElem?_eq_some_iff.1 hq').1, hq']
  · rw [hprocs, ← hlength, List.drop_left, Arena.body?_eq_lookup h.shows]
    exact hexpands

theorem admissible_captureProgram : captureProgram.Admissible captureEnvironment where
  wellFormed := by decide +kernel
  body := by
    intro q hq
    obtain rfl := List.mem_singleton.1 hq
    exact ⟨captureTerm, by decide +kernel, rfl, by decide, by decide⟩

theorem convertible_captureProgram :
    ∃ report names', captureProgram.lift 40 captureEnvironment captureNames =
        .ok (report, names') ∧ report.error? = none ∧ report.program.procedures.length = 2 ∧
      ∃ q' t u, report.program.procedures[0]? = some q' ∧ q'.name = ⟨4⟩ ∧
        captureProgram.arena.term? ⟨11⟩ = some t ∧ report.program.arena.term? q'.body = some u ∧
        let defs := report.program.arena.body? (report.program.procedures.drop 1)
        (∃ e, u.Expands defs e) ∧ ∀ e, u.Expands defs e → e.Convertible t := by
  obtain ⟨report, names', hrun, herror, hlength⟩ := exists_of_liftsTo liftsTo_captureProgram
  exact ⟨report, names', hrun, herror, hlength,
    convertible_of_lift admissible_captureProgram hrun herror 0 ⟨⟨4⟩, ⟨11⟩⟩ rfl⟩

end Program

end LambdaLifting
