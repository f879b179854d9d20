import LambdaLifting.Proofs.NewNames

namespace LambdaLifting

/-- What callers that share a source do to it, in whatever order. They intern texts and draw
numbers, and from a number that was drawn a name can be made later, once. `ms` are the names so
made, with the counts at which their numbers were drawn. -/
inductive Schedule (s : NameSource) : List (Name × Nat) → NameSource → Prop where
  | start : Schedule s [] s
  | intern {ms s'} (text : String) : Schedule s ms s' → Schedule s ms (s'.intern text).2
  | draw {ms s'} : Schedule s ms s' → Schedule s ms s'.draw.2
  | make {ms s' k} (base : String) : Schedule s ms s' → s.count ≤ k → k < s'.count →
      k ∉ ms.map Prod.snd →
      Schedule s (ms ++ [((s'.intern (NameSource.candidate base (k % NameSource.limit))).1, k)])
        (s'.intern (NameSource.candidate base (k % NameSource.limit))).2

namespace Schedule

variable {s s' s'' : NameSource} {ms ms' : List (Name × Nat)}

theorem advances (h : Schedule s ms s') : s.Advances s' := by
  induction h with
  | start => exact .refl s
  | intern text _ ih => exact ih.trans (NameSource.advances_intern _ text)
  | draw _ ih => exact ih.trans (NameSource.advances_draw _)
  | make base _ _ _ _ ih => exact ih.trans (NameSource.advances_intern _ _)

theorem bounds (h : Schedule s ms s') : ∀ k ∈ ms.map Prod.snd, s.count ≤ k ∧ k < s'.count := by
  induction h with
  | start => simp
  | intern _ _ ih => exact ih
  | draw _ ih =>
    intro k hk
    exact ⟨(ih k hk).1, Nat.lt_succ_of_lt (ih k hk).2⟩
  | make base _ hle hlt _ ih =>
    rw [List.map_append, List.forall_mem_append]
    exact ⟨ih, by simpa using ⟨hle, hlt⟩⟩

theorem trans (h : Schedule s ms s') (h' : Schedule s' ms' s'') : Schedule s (ms ++ ms') s'' := by
  induction h' with
  | start => rwa [List.append_nil]
  | intern text _ ih => exact ih.intern text
  | draw _ ih => exact ih.draw
  | @make ms' s'' k base _ hle hlt hnew ih =>
    rw [← List.append_assoc]
    refine ih.make base (Nat.le_trans h.advances.count hle) hlt ?_
    rw [List.map_append, List.mem_append, not_or]
    -- All numbers of the first part were drawn before this one.
    exact ⟨fun hold => Nat.not_lt.2 hle (h.bounds k hold).2, hnew⟩

theorem exists_append {cs ds : List Name}
    (h : ∃ ms, Schedule s ms s' ∧ cs.Sublist (ms.map Prod.fst))
    (h' : ∃ ms, Schedule s' ms s'' ∧ ds.Sublist (ms.map Prod.fst)) :
    ∃ ms, Schedule s ms s'' ∧ (cs ++ ds).Sublist (ms.map Prod.fst) := by
  obtain ⟨ms, hms, hsub⟩ := h
  obtain ⟨ms', hms', hsub'⟩ := h'
  refine ⟨ms ++ ms', hms.trans hms', ?_⟩
  rw [List.map_append]
  exact hsub.append hsub'

theorem nodup_counts (h : Schedule s ms s') : (ms.map Prod.snd).Nodup := by
  induction h with
  | start => exact List.nodup_nil
  | intern _ _ ih => exact ih
  | draw _ ih => exact ih
  | make base _ _ _ hnew ih =>
    rw [List.map_append, List.map_singleton, ← List.concat_eq_append]
    exact List.Nodup.concat hnew ih

theorem shows (h : Schedule s ms s') :
    ∀ m ∈ ms, ∃ base, s'.table.text? m.1 =
      some (NameSource.candidate base (m.2 % NameSource.limit)) := by
  have mono {ms : List (Name × Nat)} {t t' : NameSource} (hs : t.Advances t')
      (ht : ∀ m ∈ ms, ∃ base, t.table.text? m.1 =
        some (NameSource.candidate base (m.2 % NameSource.limit))) :
      ∀ m ∈ ms, ∃ base, t'.table.text? m.1 =
        some (NameSource.candidate base (m.2 % NameSource.limit)) := by
    intro m hm
    obtain ⟨base, htext⟩ := ht m hm
    exact ⟨base, hs.table htext⟩
  induction h with
  | start => simp
  | intern text _ ih => exact mono (NameSource.advances_intern _ text) ih
  | draw _ ih => exact ih
  | @make ms s' k base _ _ _ _ ih =>
    rw [List.forall_mem_append]
    refine ⟨mono (NameSource.advances_intern _ _) ih, ?_⟩
    rintro _ hm
    rw [List.mem_singleton.1 hm]
    exact ⟨base, s'.table.text?_intern _⟩

/-- Different counts show different numbers, as long as the counter has not gone round, and a name
tells its number. -/
theorem nodup_names (h : Schedule s ms s') (hlimit : s'.count ≤ s.count + NameSource.limit) :
    (ms.map Prod.fst).Nodup := by
  have hcounts : ms.Pairwise fun m m' => m.2 ≠ m'.2 := List.pairwise_map.1 h.nodup_counts
  refine List.pairwise_map.2 (hcounts.imp_of_mem fun {m m'} hm hm' hne heq => hne ?_)
  obtain ⟨base, htext⟩ := h.shows m hm
  obtain ⟨base', htext'⟩ := h.shows m' hm'
  have hmod := NameSource.eq_of_candidate_eq
    (Option.some.inj (htext.symm.trans (heq ▸ htext')))
  obtain ⟨hle, hlt⟩ := h.bounds m.2 (List.mem_map_of_mem hm)
  obtain ⟨hle', hlt'⟩ := h.bounds m'.2 (List.mem_map_of_mem hm')
  exact NameSource.eq_of_mod_limit_eq hle (by omega) hle' (by omega) hmod

end Schedule

/-- A search draws a number and interns its name, until that is free. -/
theorem NameSource.schedule_of_fresh {base : String} {taken : Name → Bool} {fuel : Nat}
    {s s' : NameSource} {c : Name} (h : fresh base taken fuel s = .ok (c, s')) :
    ∃ k, Schedule s [(c, k)] s' := by
  induction fuel generalizing s with
  | zero => cases h
  | succ fuel ih =>
    rcases fresh_cases h with ⟨-, h⟩ | ⟨-, rfl, rfl⟩
    · obtain ⟨k, hk⟩ := ih h
      exact ⟨k, (Schedule.start.draw.intern (candidate base s.next)).trans hk⟩
    · exact ⟨s.count, Schedule.start.draw.make base (Nat.le_refl _) (Nat.lt_succ_self _) (by simp)⟩

theorem LiftState.Evolves.schedule {ctx : LiftContext} {s s' : LiftState} (h : s.Evolves ctx s') :
    ∃ ms, Schedule s.names ms s'.names ∧ s'.lifted.toList.map Procedure.name =
      s.lifted.toList.map Procedure.name ++ ms.map Prod.fst := by
  induction h with
  | refl => exact ⟨[], .start, by simp⟩
  | tail _ hstep ih =>
    obtain ⟨ms, hms, hlifted⟩ := ih
    cases hstep with
    | idle hnames hsame => exact ⟨ms, hnames ▸ hms, hsame ▸ hlifted⟩
    | add hfresh hadd =>
      obtain ⟨k, hk⟩ := NameSource.schedule_of_fresh hfresh
      refine ⟨_, hms.trans hk, ?_⟩
      rw [hadd, Array.toList_push, List.map_append, hlifted, List.map_append, List.append_assoc]
      rfl

/-- Different names have different texts. -/
theorem NameTable.exists_texts {t : NameTable} {cs : List Name} (hnodup : cs.Nodup)
    (h : ∀ c ∈ cs, ∃ text, t.text? c = some text) :
    ∃ texts, List.Forall₂ (fun c text => t.text? c = some text) cs texts ∧ texts.Nodup := by
  induction cs with
  | nil => exact ⟨[], .nil, .nil⟩
  | cons c cs ih =>
    obtain ⟨hc, hcs⟩ := List.forall_mem_cons.1 h
    obtain ⟨hnew, hnodup⟩ := List.nodup_cons.1 hnodup
    obtain ⟨text, htext⟩ := hc
    obtain ⟨texts, htexts, hdistinct⟩ := ih hnodup hcs
    refine ⟨text :: texts, .cons htext htexts, List.nodup_cons.2 ⟨fun hmem => hnew ?_, hdistinct⟩⟩
    obtain ⟨d, hd, hdtext⟩ := exists_of_mem_forall₂ htexts.flip hmem
    exact t.text?_inj htext hdtext ▸ hd

namespace Program

variable {fuel : Nat} {env : Environment} {p : Program} {names names' : NameSource}
  {report : Report}

/-- Lifting interns the name for parameters, and then makes a name for each new procedure; those of
a run that fails are made as well, but not returned. -/
theorem schedule_of_lift (hrun : p.lift fuel env names = .ok (report, names')) :
    ∃ ms, Schedule names ms names' ∧ (report.newNames p).Sublist (ms.map Prod.fst) := by
  obtain ⟨base, s, -, hevolves, rfl, hprocs⟩ := evolves_of_lift hrun
  obtain ⟨ms, hms, hlifted⟩ := hevolves.schedule
  refine ⟨ms, (Schedule.start.intern "a").trans hms, ?_⟩
  by_cases herror : report.error? = none
  · rw [newNames_eq (hprocs herror), hlifted]
    exact List.Sublist.refl _
  · rw [newNames_of_error hrun herror]
    exact List.nil_sublist _

theorem schedule_of_liftEach {units : List Program} {reports : List Report}
    (hrun : liftEach fuel env units names = .ok (reports, names')) :
    ∃ ms, Schedule names ms names' ∧
      (List.zipWith Report.newNames reports units).flatten.Sublist (ms.map Prod.fst) := by
  induction units generalizing names reports with
  | nil =>
    cases hrun
    exact ⟨[], .start, by simp⟩
  | cons p units ih =>
    obtain ⟨r, rs, m, rfl, hhead, htail⟩ := exists_of_liftEach_cons hrun
    exact Schedule.exists_append (schedule_of_lift hhead) (ih htail)

end Program

/-- Calls that share a source of names: from `s` on they have returned the new names `cs`, in this
order, and have left the source as `s'`. Each call comes with its own program, environment, base
text and test for names that are taken. Calls that fail return no names. -/
inductive Session (s : NameSource) : List Name → NameSource → Prop where
  | start : Session s [] s
  | intern {cs s'} (text : String) : Session s cs s' → Session s cs (s'.intern text).2
  | draw {cs s'} : Session s cs s' → Session s cs s'.draw.2
  | fresh {cs s' base taken fuel c s''} : Session s cs s' →
      NameSource.fresh base taken fuel s' = .ok (c, s'') → Session s (cs ++ [c]) s''
  | lift {cs s' fuel env report s''} {p : Program} : Session s cs s' →
      p.lift fuel env s' = .ok (report, s'') → Session s (cs ++ report.newNames p) s''
  | liftEach {cs s' fuel env units reports s''} : Session s cs s' →
      Program.liftEach fuel env units s' = .ok (reports, s'') →
      Session s (cs ++ (List.zipWith Report.newNames reports units).flatten) s''

namespace Session

variable {s s' : NameSource} {cs : List Name}

theorem schedule (h : Session s cs s') :
    ∃ ms, Schedule s ms s' ∧ cs.Sublist (ms.map Prod.fst) := by
  induction h with
  | start => exact ⟨[], .start, .slnil⟩
  | intern text _ ih =>
    obtain ⟨ms, hms, hsub⟩ := ih
    exact ⟨ms, hms.intern text, hsub⟩
  | draw _ ih =>
    obtain ⟨ms, hms, hsub⟩ := ih
    exact ⟨ms, hms.draw, hsub⟩
  | fresh _ hfresh ih =>
    obtain ⟨k, hk⟩ := NameSource.schedule_of_fresh hfresh
    exact Schedule.exists_append ih ⟨_, hk, .refl _⟩
  | lift _ hrun ih => exact Schedule.exists_append ih (Program.schedule_of_lift hrun)
  | liftEach _ hrun ih => exact Schedule.exists_append ih (Program.schedule_of_liftEach hrun)

/-- No two of the names that calls with one source return have the same text, so that no two are the
same name, until the counter has gone round. -/
theorem nodup_texts (h : Session s cs s') (hlimit : s'.count ≤ s.count + NameSource.limit) :
    ∃ texts, List.Forall₂ (fun c text => s'.table.text? c = some text) cs texts ∧
      texts.Nodup ∧ cs.Nodup := by
  obtain ⟨ms, hms, hsub⟩ := h.schedule
  have hnodup : cs.Nodup := (hms.nodup_names hlimit).sublist hsub
  have hnamed (c : Name) (hc : c ∈ cs) : ∃ text, s'.table.text? c = some text := by
    obtain ⟨m, hm, rfl⟩ := List.mem_map.1 (hsub.subset hc)
    obtain ⟨base, htext⟩ := hms.shows m hm
    exact ⟨_, htext⟩
  obtain ⟨texts, htexts, hdistinct⟩ := NameTable.exists_texts hnodup hnamed
  exact ⟨texts, htexts, hdistinct, hnodup⟩

/-- A base that looks like a numbered name, then two programs that share a base and between them one
that fails with a number used up. -/
theorem nodup_texts_nested :
    ∃ s₁ s₂ s₃ reports,
      NameSource.fresh "p" (fun _ => false) 1 captureNames = .ok (⟨8⟩, s₁) ∧
      NameSource.fresh "p_1" (fun _ => false) 1 s₁ = .ok (⟨9⟩, s₂) ∧
      Program.liftEach 40 captureEnvironment
          [Program.uncheckedCapture, Program.openProgram, Program.uncheckedCapture] s₂ =
        .ok (reports, s₃) ∧
      reports.map Report.error? = [none, some (.unboundVar ⟨1⟩), none] ∧
      List.zipWith Report.newNames reports
          [Program.uncheckedCapture, Program.openProgram, Program.uncheckedCapture] =
        [[⟨10⟩], [], [⟨12⟩]] ∧
      s₃.count = captureNames.count + 5 ∧
      Session captureNames [⟨8⟩, ⟨9⟩, ⟨10⟩, ⟨12⟩] s₃ ∧
      ∃ texts, List.Forall₂ (fun c text => s₃.table.text? c = some text)
          [⟨8⟩, ⟨9⟩, ⟨10⟩, ⟨12⟩] texts ∧ texts.Nodup := by
  let first := (captureNames.attempt "p").2
  let second := (first.attempt "p_1").2
  have hp : NameSource.fresh "p" (fun _ => false) 1 captureNames = .ok (⟨8⟩, first) := by
    rw [NameSource.fresh_succ, if_neg Bool.false_ne_true]
    exact congrArg (fun c => Except.ok (c, first)) (by decide +kernel)
  have hnested : NameSource.fresh "p_1" (fun _ => false) 1 first = .ok (⟨9⟩, second) := by
    rw [NameSource.fresh_succ, if_neg Bool.false_ne_true]
    exact congrArg (fun c => Except.ok (c, second)) (by decide +kernel)
  let units := [Program.uncheckedCapture, Program.openProgram, Program.uncheckedCapture]
  have hanswer : (Program.liftEach 40 captureEnvironment units second).toOption.map
      (fun r => (r.1.map Report.error?, List.zipWith Report.newNames r.1 units, r.2.count)) =
      some ([none, some (.unboundVar ⟨1⟩), none], [[⟨10⟩], [], [⟨12⟩]],
        captureNames.count + 5) := by decide +kernel
  obtain ⟨r, hrun, hanswer⟩ := exists_of_toOption_map hanswer
  simp only [Prod.mk.injEq] at hanswer
  obtain ⟨herrors, hnew, hcount⟩ := hanswer
  have hsession := ((start.fresh hp).fresh hnested).liftEach hrun
  rw [hnew] at hsession
  obtain ⟨texts, htexts, hdistinct, -⟩ := nodup_texts hsession (by rw [hcount]; decide +kernel)
  exact ⟨first, second, r.2, r.1, hp, hnested, hrun, herrors, hnew, hcount, hsession, texts,
    htexts, hdistinct⟩

end Session

end LambdaLifting
