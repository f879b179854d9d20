import LambdaLifting.Proofs.Completion
import Mathlib.Algebra.Order.BigOperators.Group.List
import Mathlib.Algebra.Order.Group.Nat

namespace LambdaLifting

/-- The name of a procedure that was given or made, or else a name of the environment. -/
theorem Derives.mem_names_of_takenAt {fuel : Nat} {ctx : LiftContext} {a b : Arena}
    {ps given lifted : List Procedure} {v w : Stage} {ts us : List Term}
    (h : Derives fuel ctx a ps b given lifted v w ts us)
    (hctx : ctx.declared = ps.map Procedure.name) {c : Name}
    (hc : ctx.takenAt w.lifted c = true) :
    ctx.env.contains c ∨ c ∈ (given ++ lifted).map Procedure.name := by
  rw [List.map_append, List.mem_append, h.names, ← hctx]
  simp only [LiftContext.takenAt, LiftContext.ownsAt, Bool.or_eq_true, List.contains_iff_mem,
    List.any_eq_true, decide_eq_true_eq] at hc
  rcases hc with (hc | ⟨d, hd, rfl⟩) | hc
  · exact .inr (.inl hc)
  · obtain ⟨q, hq, hshows⟩ := exists_of_mem_forall₂ h.shows.flip hd
    exact .inr (.inr (List.mem_map.2 ⟨q, hq, hshows.1⟩))
  · exact .inl hc

namespace Program

/-- Nothing is left to lift: procedures are closed, flat and mention known globals, and bind
variables that were handed out. -/
structure Settled (env : Environment) (p : Program) : Prop where
  wellFormed : p.arena.WellFormed
  body : ∀ q ∈ p.procedures, ∃ t, p.arena.term? q.body = some t ∧ t.Closed ∧
    (∀ x ∈ t.binders, x.index < p.arena.nextLocal) ∧ Flat.Whole env (.binding t.leading) t ∧
    ∀ c ∈ t.globals, env.contains c ∨ c ∈ p.procedures.map Procedure.name

variable {fuel : Nat} {env : Environment} {p : Program} {names names' : NameSource}
  {report : Report}

theorem settled_of_lift (hp : p.Liftable env) (hrun : p.lift fuel env names = .ok (report, names'))
    (herror : report.error? = none) : report.program.Settled env := by
  obtain ⟨ctx, given, lifted, v, w, ts, us, rfl, hctx, hprocs, h⟩ :=
    derives_of_lift hp.wellFormed hrun herror
  have hinput := h.forall_input hp.body
  have hknown (t : Term) (ht : t ∈ ts) : Known ctx v t := by
    intro c hc
    rw [h.lifted_eq_nil, LiftContext.takenAt_nil_iff, hctx]
    exact (hinput t ht).1.2.1 c hc
  -- The four properties of lifted terms, for the given bodies and for the new ones.
  obtain ⟨hw, htidy⟩ := Judgment.Scopes.each
    (fun _ _ _ _ hΓ h => (LiftsIn.scoped ctx fuel).under _ hΓ h) .nil h.each
  obtain ⟨hordered, hknown⟩ := LiftsBody.named h.each h.lifted_eq_nil hknown
  obtain ⟨hflat, hflats⟩ := LiftsBody.flat (by simp [Stage.Flat, h.lifted_eq_nil])
    (fun t ht => (hinput t ht).1.2.2.bareIn) h.each
  have leading {t : Term} (h : ∃ k, Flat.Whole ctx.env (.binding k) t) :
      Flat.Whole ctx.env (.binding t.leading) t := by
    obtain ⟨k, hk⟩ := h
    exact hk.leading_eq ▸ hk
  refine ⟨h.wellFormed, ?_⟩
  rw [hprocs, h.handedOut]
  refine h.forall_output (fun u hu => ⟨?_, (htidy u hu).binder_lt, leading (hflats u hu),
    fun c hc => h.mem_names_of_takenAt hctx (hknown u hu c hc)⟩) fun d hd => ?_
  · exact Term.closed_iff.2 fun x hx => by simpa [Context.ids] using (htidy u hu).mem_ids x hx
  · obtain ⟨ds, hds, hall⟩ := hw.lifted_eq
    rw [h.lifted_eq_nil, List.nil_append] at hds
    obtain ⟨hclosed, hbinders⟩ := hall d (hds ▸ hd)
    exact ⟨hclosed, hbinders, leading (hflat d hd),
      fun c hc => h.mem_names_of_takenAt hctx (hordered.takenAt d hd c hc)⟩

theorem base_eq_ok {owner : Name} {text : String} (h : names.table.text? owner = some text)
    (suffix : String) : ∃ base, names.base owner suffix = .ok base := by
  simp only [NameSource.base, NameTable.text, h, Bind.bind, Except.bind]
  exact ⟨_, rfl⟩

/-- A program in which nothing is left to lift stays as it is, up to the names of bound variables,
once there is enough fuel to look at all of it. -/
theorem Settled.exists_lift (hp : p.Settled env) (hchecked : p.config.checked = false)
    {owner : String} (howner : names.table.text? p.config.owner = some owner) :
    ∃ n, ∀ fuel, n < fuel → ∃ report, p.lift fuel env names = .ok (report, (names.intern "a").2) ∧
      report.error? = none ∧ report.program.AlphaEq p := by
  obtain ⟨base, hbase⟩ := base_eq_ok howner p.config.suffix
  have hmodels := start_models hp.wellFormed names
  -- The largest procedure says how much fuel there has to be.
  let size (q : Procedure) : Nat := ((p.arena.term? q.body).map Term.size).getD 0
  refine ⟨(p.procedures.map size).sum, fun fuel hfuel => ?_⟩
  have hfinished : ∀ q ∈ p.procedures, ∃ t, p.arena.term? q.body = some t ∧
      LiftM.Finished (p.context env names base) p.arena.nextLocal []
        ⟨p.arena.nextLocal, (names.intern "a").2, []⟩ (p.procedures.map size).sum
        (.binding t.leading) t := by
    intro q hq
    obtain ⟨t, ht, hclosed, hbinders, hwhole, hglobals⟩ := hp.body q hq
    refine ⟨t, ht, ⟨fun x hx => absurd hx (Term.closed_iff.1 hclosed x), hbinders⟩,
      fun c hc => takenAt_context (hglobals c hc), hwhole, ?_⟩
    have hmem : t.size ∈ p.procedures.map size :=
      List.mem_map.2 ⟨q, hq, by simp [size, ht]⟩
    exact List.le_sum_of_mem hmem
  have hhalts : LiftM.Halts (liftProcedures fuel p.procedures) (p.context env names base)
      (p.start names) :=
    LiftM.Ends.bind (LiftM.halts_mapM_liftProcedure hmodels (Nat.le_refl _) hfinished hfuel)
      fun given s₁ _ => LiftM.Ends.state_bind (LiftM.ends_pure _)
  obtain ⟨output, s, hrun⟩ := LiftM.exists_runs_of_halts hhalts
  obtain ⟨_, ⟨⟩, hlift⟩ := lift_of_outcome hbase hrun hchecked
  simp only [liftProcedures, LiftM.runs_bind, LiftM.runs_state, LiftM.runs_pure] at hrun
  obtain ⟨given, s₁, hgiven, _, _, ⟨rfl, rfl⟩, rfl, rfl⟩ := hrun
  obtain ⟨w, ts, us, heach, hts, hus, hnames, h⟩ := LiftM.each_of_mapM_liftProcedure hmodels hgiven
  obtain ⟨⟨k, rfl⟩, halpha⟩ := LiftsBody.alphaEq heach fun t ht => by
    obtain ⟨e, he, hterm⟩ := exists_of_mem_forall₂ hts.flip ht
    obtain ⟨q, hq, rfl⟩ := List.mem_map.1 he
    obtain ⟨t', ht', hfin⟩ := hfinished q hq
    obtain rfl := Option.some.inj (hterm.symm.trans (h.isExtension.term?_eq_some ht'))
    exact ⟨hfin.unlifted, hfin.whole⟩
  have hnone : s₁.lifted.toList = [] := List.forall₂_nil_right_iff.1 h.models.lifted
  have hbodies : p.arena.Denote (p.procedures.map Procedure.body) ts := by
    refine hts.of_extends h.isExtension fun e he => ?_
    obtain ⟨q, hq, rfl⟩ := List.mem_map.1 he
    obtain ⟨t, ht, -⟩ := hp.body q hq
    exact ⟨t, ht⟩
  have hnames' : s₁.names = (names.intern "a").2 := h.models.names_eq
  refine ⟨_, hnames' ▸ hlift, rfl, ?_⟩
  rw [Program.AlphaEq, hnone, List.append_nil]
  exact Procedure.alphaEq_of_denote hnames hus hbodies halpha

/-- A program that is lifted without an error can be lifted again, for whatever owner and with
whatever names: the second run ends without an error, makes no names and no procedures, and changes
nothing but the names of bound variables. -/
theorem lift_lift (hp : p.Liftable env) (hrun : p.lift fuel env names = .ok (report, names'))
    (herror : report.error? = none) {config : Config} (hchecked : config.checked = false)
    {again : NameSource} {owner : String}
    (howner : again.table.text? config.owner = some owner) :
    ∃ n, ∀ fuel', n < fuel' → ∃ report',
      lift fuel' env { report.program with config := config } again =
        .ok (report', (again.intern "a").2) ∧
      report'.error? = none ∧ report'.program.AlphaEq report.program := by
  have h := settled_of_lift hp hrun herror
  exact Settled.exists_lift (p := { report.program with config := config })
    ⟨h.wellFormed, h.body⟩ hchecked howner

theorem lift_lift_dispatchProgram :
    dispatchProgram.Liftable dispatchEnvironment ∧
      ∃ report names', dispatchProgram.lift 40 dispatchEnvironment dispatchNames =
          .ok (report, names') ∧ report.program.procedures.length = 2 ∧
        ∃ n, ∀ fuel', n < fuel' → ∃ report',
          lift fuel' dispatchEnvironment { report.program with config := ⟨⟨6⟩, "_again", false⟩ }
            names' = .ok (report', (names'.intern "a").2) ∧
          report'.error? = none ∧ report'.program.AlphaEq report.program := by
  have hp : dispatchProgram.Liftable dispatchEnvironment := by
    refine ⟨by decide +kernel, fun q hq => ?_⟩
    obtain rfl := List.mem_singleton.1 hq
    exact ⟨dispatchTerm, by decide +kernel, rfl, by decide, by decide⟩
  have howner : (dispatchProgram.lift 40 dispatchEnvironment dispatchNames).toOption.bind
      (fun r => r.2.table.text? ⟨6⟩) = some "main" := by
    decide +kernel
  obtain ⟨report, names', hrun, herror, hlength⟩ := exists_of_liftsTo liftsTo_dispatchProgram
  rw [hrun] at howner
  exact ⟨hp, report, names', hrun, hlength, lift_lift hp hrun herror rfl howner⟩

end Program

end LambdaLifting
