import LambdaLifting.Lift.Closure
import LambdaLifting.Proofs.States
import Mathlib.Data.List.Nodup
import Mathlib.Data.List.Perm.Subperm

namespace LambdaLifting

namespace Term

theorem headGlobal?_apply (f : Term) (xs : List Term) :
    (f.apply xs).headGlobal? = f.headGlobal? := by
  induction xs generalizing f with
  | nil => rfl
  | cons x xs ih => exact ih (.app f x)

end Term

theorem Arena.WellFormed.headGlobal?_eq_ok {a : Arena} (ha : a.WellFormed) {e : ExprId} {t : Term}
    (he : a.term? e = some t) : a.headGlobal? e = .ok t.headGlobal? := by
  obtain ⟨n, hn⟩ := node?_of_term? he
  rw [headGlobal?, spine, node_of_node? hn]
  cases ha.shows_of_node? he hn with
  | @app head args f xs hf hxs =>
    obtain ⟨m, hm⟩ := node?_of_term? hf
    rw [Term.headGlobal?_apply]
    have hshow := ha.shows_of_node? hf hm
    cases hshow with
    | app => exact absurd hm (ha.head_flat hn _ _)
    | _ => simp only [Bind.bind, Except.bind, Pure.pure, Except.pure, node_of_node? hm]; rfl
  | _ => simp only [Bind.bind, Except.bind, Pure.pure, Except.pure, node_of_node? hn]; rfl

namespace LiftM

variable {ctx : LiftContext} {s s' : LiftState} {Γ : Context} {w : Stage}

section Needed

/-- Declarations, latest first, that are all in scope. -/
structure Declared (s : LiftState) (ds : List Decl) : Prop where
  ordered : ds.Pairwise fun d d' => d'.position < d.position
  nodup : (ds.map Decl.id).Nodup
  find?_eq : ∀ d ∈ ds, s.scope.find? d.id = some d

theorem Declared.tail {d : Decl} {ds : List Decl} (h : Declared s (d :: ds)) : Declared s ds :=
  ⟨h.ordered.of_cons, (List.nodup_cons.1 h.nodup).2, fun c hc => h.find?_eq c (.tail d hc)⟩

theorem declared_of_lists {ds : List Decl} (h : s.scope.Lists ds) (hds : (ds.map Decl.id).Nodup) :
    Declared s ds := by
  refine ⟨h.ordered, hds, fun d hd => ?_⟩
  have hsome : (ds.find? (·.id = d.id)).isSome := List.find?_isSome.2 ⟨d, hd, by simp⟩
  obtain ⟨c, hc⟩ := Option.isSome_iff_exists.1 hsome
  have hid : c.id = d.id := by simpa using List.find?_some hc
  rw [h.find?_eq, hc, List.inj_on_of_nodup_map hds (List.mem_of_find?_eq_some hc) hd hid]

theorem Declared.length_le {ds : List Decl} (h : Declared s ds) : ds.length ≤ s.scope.size := by
  have hkeys : ds.map Decl.id ⊆ s.scope.decls.keys := by
    intro x hx
    obtain ⟨d, hd, rfl⟩ := List.mem_map.1 hx
    have hfind : s.scope.decls[d.id]? = some d := h.find?_eq d hd
    rw [Std.TreeMap.mem_keys, Std.TreeMap.mem_iff_isSome_getElem?, hfind, Option.isSome_some]
  have hlength := (List.subperm_of_subset h.nodup hkeys).length_le
  rwa [List.length_map, Std.TreeMap.length_keys] at hlength

theorem insertDecl_of_forall_lt {d : Decl} {ds : List Decl}
    (h : ∀ c ∈ ds, c.position < d.position) : insertDecl d ds = d :: ds := by
  cases ds with
  | nil => rfl
  | cons c cs => rw [insertDecl, if_pos (h c List.mem_cons_self)]

theorem insertDecl_filter {ds : List Decl}
    (hds : ds.Pairwise fun d d' => d'.position < d.position) {d : Decl} (hd : d ∈ ds)
    (p : Decl → Bool) :
    insertDecl d (ds.filter p) = ds.filter fun c => p c || decide (c = d) := by
  induction ds with
  | nil => simp at hd
  | cons c cs ih =>
    obtain ⟨hc, hcs⟩ := List.pairwise_cons.1 hds
    rw [List.filter_cons, List.filter_cons]
    rcases List.mem_cons.1 hd with rfl | hd
    · have hrest : (cs.filter fun c => p c || decide (c = d)) = cs.filter p := by
        refine List.filter_congr fun c hm => ?_
        have hne : c ≠ d := fun h => by simpa [h] using hc c hm
        simp [hne]
      rw [hrest]
      by_cases hp : p d
      · simp [hp, insertDecl]
      · simp only [hp, Bool.false_eq_true, if_false, decide_true, Bool.or_true, if_true]
        exact insertDecl_of_forall_lt fun c hm => hc c (List.mem_of_mem_filter hm)
    · have hlt := hc d hd
      have hne : c ≠ d := fun h => by simp [h] at hlt
      by_cases hp : p c
      · simp only [hp, if_true, Bool.true_or]
        rw [insertDecl, if_neg (by omega), if_neg (by omega), ih hcs hd]
      · simp only [hp, Bool.false_eq_true, if_false, hne, decide_false, Bool.or_false]
        exact ih hcs hd

theorem runs_foldlM_insertDecl {ds : List Decl} (hds : Declared s ds) (xs : List LocalId)
    {ys : List LocalId} (hys : ∀ x ∈ ys, x ∈ ds.map Decl.id) :
    Runs (ys.foldlM (fun ds x => do
      match (← state).scope.find? x with
      | some d => return insertDecl d ds
      | none => throw (.unboundVar x)) (ds.filter (·.id ∈ xs))) ctx s
      (ds.filter (·.id ∈ xs ++ ys)) s := by
  induction ys generalizing xs with
  | nil =>
    rw [List.foldlM_nil, List.append_nil]
    exact runs_pure.2 ⟨rfl, rfl⟩
  | cons y ys ih =>
    obtain ⟨hy, hrest⟩ := List.forall_mem_cons.1 hys
    obtain ⟨d, hd, rfl⟩ := List.mem_map.1 hy
    -- Pending declarations stay a part of the scope, in its order.
    have hfilter : insertDecl d (ds.filter (·.id ∈ xs)) = ds.filter (·.id ∈ xs ++ [d.id]) := by
      rw [insertDecl_filter hds.ordered hd]
      refine List.filter_congr fun c hc => ?_
      have hid : c = d ↔ c.id = d.id :=
        ⟨congrArg _, List.inj_on_of_nodup_map hds.nodup hc hd⟩
      simp [hid, Bool.decide_or]
    have hrun := ih (xs ++ [d.id]) hrest
    rw [List.append_assoc, List.singleton_append] at hrun
    simp only [List.foldlM_cons, runs_bind, runs_state]
    refine ⟨_, s, ⟨s, s, ⟨rfl, rfl⟩, ?_⟩, hrun⟩
    simp only [hds.find?_eq d hd, runs_pure, hfilter, and_self]

variable (ctx) in
theorem runs_addFree {ds : List Decl} (hds : Declared s ds) (hwf : s.arena.WellFormed) {e : ExprId}
    {t : Term} (he : s.arena.term? e = some t) (ht : ∀ x ∈ t.occurrences, x ∈ ds.map Decl.id)
    (xs : List LocalId) :
    (addFree e (ds.filter (·.id ∈ xs))).Runs ctx s (ds.filter (·.id ∈ xs ++ t.occurrences)) s := by
  have hfree : (ArenaM.ask fun a => a.freeVars e) s.arena =
      .ok (firstOccurrences t.occurrences, s.arena) :=
    ArenaM.ask_eq_ok (Arena.freeVars_eq_ok hwf he)
  have hfilter : ds.filter (·.id ∈ xs ++ t.occurrences) =
      ds.filter (·.id ∈ xs ++ firstOccurrences t.occurrences) := by
    simp only [List.mem_append, mem_firstOccurrences]
  simp only [addFree, runs_bind, runs_liftM, hfilter]
  exact ⟨_, s, ⟨s.arena, hfree, rfl⟩,
    runs_foldlM_insertDecl hds xs fun x hx => ht x (mem_firstOccurrences.1 hx)⟩

variable (ctx) in
theorem runs_needed {ds : List Decl} (hds : Declared s ds) (hwf : s.arena.WellFormed) {n : Nat}
    (hΓ : Γ.Scoped n) (hshow : List.Forall₂ (Decl.Shows s.arena) ds Γ) {fuel : Nat}
    (hfuel : ds.length ≤ fuel) (xs : List LocalId) :
    ∃ r, (needed fuel (ds.filter (·.id ∈ xs))).Runs ctx s r s ∧ r.Sublist ds ∧
      List.Forall₂ (Decl.Shows s.arena) r (Γ.needed xs) := by
  induction hshow generalizing fuel xs with
  | nil =>
    refine ⟨[], ?_, .slnil, .nil⟩
    cases fuel <;> exact runs_pure.2 ⟨rfl, rfl⟩
  -- By recursion on the scope, latest first: what is pending can only grow by declarations that
  -- come before the one at hand.
  | @cons d x ds Γ hd hshow ih =>
    cases hΓ with
    | cons hΓ _ _ hvalue =>
      rw [List.length_cons] at hfuel
      rw [List.filter_cons, Context.needed, ← hd.id_eq]
      by_cases hx : d.id ∈ xs
      · simp only [hx, decide_true, if_true]
        cases fuel with
        | zero => omega
        | succ fuel =>
          rcases hd.value with ⟨hv, hxv⟩ | ⟨e, t, hv, hxv, he⟩
          · obtain ⟨r, hrun, hsub, hr⟩ := ih hds.tail hΓ (Nat.le_of_succ_le_succ hfuel) xs
            refine ⟨d :: r, ?_, hsub.cons_cons d, .cons hd (by simpa [hxv] using hr)⟩
            simp only [needed, hv, runs_bind, runs_pure]
            exact ⟨_, s, ⟨rfl, rfl⟩, r, s, hrun, rfl, rfl⟩
          · have ht : ∀ y ∈ t.occurrences, y ∈ ds.map Decl.id := by
              rw [Decl.map_id_eq_ids hshow]
              exact (hvalue t hxv).1
            obtain ⟨r, hrun, hsub, hr⟩ :=
              ih hds.tail hΓ (Nat.le_of_succ_le_succ hfuel) (xs ++ t.occurrences)
            refine ⟨d :: r, ?_, hsub.cons_cons d, .cons hd (by simpa [hxv] using hr)⟩
            simp only [needed, hv, runs_bind, runs_pure]
            exact ⟨_, s, runs_addFree ctx hds.tail hwf he ht xs, r, s, hrun, rfl, rfl⟩
      · simp only [hx, decide_false, Bool.false_eq_true, if_false]
        obtain ⟨r, hrun, hsub, hr⟩ := ih hds.tail hΓ (Nat.le_of_succ_le hfuel) xs
        exact ⟨r, hrun, hsub.cons d, hr⟩

end Needed

theorem yields_parametrize {a : Arena} {ds : List Decl} {es : List Entry} {S : Substitution}
    {σ : Replacement} (ha : a.WellFormed) (hS : S.Means a σ)
    (hds : List.Forall₂ (Decl.Shows a) ds es) :
    Yields (parametrize ds S) a fun r b => a.Extends b ∧ b.WellFormed ∧
      b.nextLocal = a.nextLocal + r.1.length ∧
      ∃ σ', Parametrizes a.nextLocal es σ r.1 σ' ∧ r.2.Means b σ' := by
  induction ds generalizing a es S σ with
  | nil =>
    cases hds
    exact .pure ⟨.refl a, ha, rfl, σ, .nil _ σ, hS⟩
  | cons d ds ih =>
    obtain ⟨⟨x, name, v⟩, es, ⟨hid, hname, hvalue⟩, htail, rfl⟩ := List.forall₂_cons_left_iff.1 hds
    dsimp only at hid hname hvalue
    subst hid hname
    rcases hvalue with ⟨hv, rfl⟩ | ⟨e, t, hv, rfl, he⟩
    · simp only [parametrize, hv]
      refine (ArenaM.yields_newBinder ha d.name).bind ?_
      rintro _ b ⟨rfl, hab, hb, hnext⟩
      refine Yields.bind (ArenaM.builds_mkVar hb ⟨a.nextLocal⟩) fun x c ⟨hbc, hx⟩ => ?_
      have hac := hab.trans hbc.isExtension
      have hS' := (hS.mono hac).insert d.id hx
      refine (ih hbc.wellFormed hS' (htail.imp fun _ _ h => h.mono hac)).bind ?_
      rintro ⟨bs, S'⟩ c' ⟨hcc', hc', hnext', σ', hparam, hmeans⟩
      have hc := hbc.nextLocal_eq.trans hnext
      rw [hc] at hparam hnext'
      refine .pure ⟨hac.trans hcc', hc', ?_, σ', .param hparam, hmeans⟩
      rw [hnext', List.length_cons]
      omega
    · simp only [parametrize, hv]
      refine Yields.bind (ArenaM.builds_substitute ha hS he) fun e' b ⟨hab, he'⟩ => ?_
      have hS' := (hS.mono hab.isExtension).insert d.id he'
      refine (ih hab.wellFormed hS' (htail.imp fun _ _ h => h.mono hab.isExtension)).imp ?_
      rintro ⟨bs, S'⟩ c ⟨hbc, hc, hnext, σ', hparam, hmeans⟩
      rw [hab.nextLocal_eq] at hparam hnext
      exact ⟨hab.isExtension.trans hbc, hc, hnext, σ', .define hparam, hmeans⟩

theorem captured_eq {a : Arena} {ds : List Decl} {es : List Entry}
    (h : List.Forall₂ (Decl.Shows a) ds es) :
    (ds.filter (·.value.isNone)).map Decl.id = (es.filter (·.value.isNone)).map Entry.id := by
  induction h with
  | nil => rfl
  | cons h _ ih =>
    rw [List.filter_cons, List.filter_cons]
    rcases h.value with ⟨hd, hx⟩ | ⟨e, t, hd, hx, -⟩
    · simp [hd, hx, ih, h.id_eq]
    · simp [hd, hx, ih]

variable (ctx) in
/-- Closing a term over variables that are declared ends, and follows the rule. -/
theorem runs_closeOver {ds : List Decl} (hds : Declared s ds) (hwf : s.arena.WellFormed)
    (hΓ : Γ.Scoped s.arena.nextLocal) (hshow : List.Forall₂ (Decl.Shows s.arena) ds Γ) {e : ExprId}
    {t : Term} (he : s.arena.term? e = some t) (ht : ∀ x ∈ t.occurrences, x ∈ Γ.ids) :
    ∃ closed, ∃ r : List Decl, ∃ b u k,
      (closeOver e).Runs ctx s (closed, (r.filter (·.value.isNone)).map Decl.id)
        { s with arena := b } ∧ r.Sublist ds ∧
      Closes Γ s.arena.nextLocal t u k ((r.filter (·.value.isNone)).map Decl.id) ∧
      b.term? closed = some u ∧ s.arena.Extends b ∧ b.WellFormed ∧
      b.nextLocal = s.arena.nextLocal + k := by
  have hnil : ([] : List Decl) = ds.filter (·.id ∈ ([] : List LocalId)) := by simp
  rw [← Decl.map_id_eq_ids hshow] at ht
  -- The three steps: find what is needed, make parameters of it, and put them in.
  have hadd : (addFree e []).Runs ctx s (ds.filter (·.id ∈ t.occurrences)) s := by
    have hrun := runs_addFree ctx hds hwf he ht []
    rwa [← hnil] at hrun
  have hfuel : ds.length ≤ s.scope.size + 1 := Nat.le_succ_of_le hds.length_le
  obtain ⟨r, hneeded, hsub, hr⟩ := runs_needed ctx hds hwf hΓ hshow hfuel t.occurrences
  obtain ⟨⟨bs, S⟩, a₁, hparam, hext₁, hwf₁, hnext, σ, hσ, hS⟩ :=
    yields_parametrize hwf (Substitution.means_empty _) (List.rel_reverse hr)
  obtain ⟨body, a₂, hsubst, hgrow₂, hbody⟩ :=
    ArenaM.builds_substitute hwf₁ hS (hext₁.term?_eq_some he)
  obtain ⟨closed, a₃, hlambdas, hgrow₃, hclosed⟩ :=
    ArenaM.builds_mkLambdas hgrow₂.wellFormed hbody bs
  have hgrow := hgrow₂.trans hgrow₃
  refine ⟨closed, r, a₃, _, bs.length, ?_, hsub, ?_, hclosed, hext₁.trans hgrow.isExtension,
    hgrow.wellFormed, hgrow.nextLocal_eq.trans hnext⟩
  · simp only [closeOver, runs_bind, runs_state, runs_liftM, runs_pure]
    exact ⟨_, s, hadd, s, s, ⟨rfl, rfl⟩, r, s, hneeded, (bs, S), _, ⟨a₁, hparam, rfl⟩, body, _,
      ⟨a₂, hsubst, rfl⟩, closed, _, ⟨a₃, hlambdas, rfl⟩, rfl, rfl⟩
  · rw [captured_eq hr]
    exact .intro hσ

variable (ctx) in
theorem runs_closeOver_of_models (h : s.Models Γ w) {e : ExprId} {t : Term}
    (he : s.arena.term? e = some t) (ht : ∀ x ∈ t.occurrences, x ∈ Γ.ids) :
    ∃ closed captured b u k, (closeOver e).Runs ctx s (closed, captured) { s with arena := b } ∧
      Closes Γ w.nextLocal t u k captured ∧ b.term? closed = some u ∧
      s.Reaches { s with arena := b } Γ (w.mint k) := by
  obtain ⟨ds, hlists, hshow⟩ := h.inScope
  have hids := Decl.map_id_eq_ids hshow
  have hds := declared_of_lists hlists (hids ▸ h.isScoped.nodup_ids)
  obtain ⟨closed, r, b, u, k, hrun, -, hcloses, hclosed, hext, hwf, hnext⟩ :=
    runs_closeOver ctx hds h.wellFormed (h.nextLocal_eq ▸ h.isScoped) hshow he ht
  rw [h.nextLocal_eq] at hcloses
  exact ⟨closed, _, b, u, k, hrun, hcloses, hclosed, h.extend hext hwf hnext, hext⟩

theorem closes_of_closeOver (h : s.Models Γ w) {e closed : ExprId} {captured : List LocalId}
    {t : Term} (he : s.arena.term? e = some t) (ht : ∀ x ∈ t.occurrences, x ∈ Γ.ids)
    (hrun : (closeOver e).Runs ctx s (closed, captured) s') :
    ∃ u k, Closes Γ w.nextLocal t u k captured ∧ s'.arena.term? closed = some u ∧
      s.Reaches s' Γ (w.mint k) := by
  obtain ⟨_, _, b, u, k, hrun', hrest⟩ := runs_closeOver_of_models ctx h he ht
  cases hrun'.symm.trans hrun
  exact ⟨u, k, hrest⟩

theorem any_name_eq {a : Arena} {ps : List Procedure} {ds : List Definition}
    (h : List.Forall₂ (Procedure.Shows a) ps ds) (c : Name) :
    ps.any (·.name = c) = ds.any (·.name = c) := by
  induction h with
  | nil => rfl
  | cons h _ ih => rw [List.any_cons, List.any_cons, ih, h.1]

theorem ownsAt_eq (h : s.Models Γ w) (ctx : LiftContext) (c : Name) :
    ctx.owns s.lifted c = ctx.ownsAt w.lifted c := by
  rw [LiftContext.owns, LiftContext.ownsAt, ← any_name_eq h.lifted, Array.any_toList]

theorem taken_eq (h : s.Models Γ w) (ctx : LiftContext) :
    ctx.taken s.lifted = ctx.takenAt w.lifted := by
  funext c
  rw [LiftContext.taken, LiftContext.takenAt, ownsAt_eq h ctx c]

theorem runs_kindOf (h : s.Models Γ w) {c : Name} {k : GlobalKind}
    (hrun : (kindOf c).Runs ctx s k s') : s = s' ∧ ctx.kindAt? w.lifted c = some k := by
  simp only [kindOf, runs_bind, runs_read] at hrun
  obtain ⟨_, _, ⟨rfl, rfl⟩, hrun⟩ := hrun
  rw [LiftContext.kindAt?, ← ownsAt_eq h ctx c]
  cases hk : ctx.env.kind? c with
  | some k' =>
    simp only [hk, runs_pure] at hrun
    exact ⟨hrun.2, congrArg some hrun.1⟩
  | none =>
    simp only [hk, runs_bind, runs_read, runs_state] at hrun
    obtain ⟨_, _, ⟨rfl, rfl⟩, _, _, ⟨rfl, rfl⟩, hrun⟩ := hrun
    cases howns : ctx.owns s.lifted c with
    | true =>
      simp only [howns, if_true, runs_pure] at hrun
      exact ⟨hrun.2, congrArg some hrun.1⟩
    | false =>
      simp only [howns, Bool.false_eq_true, if_false] at hrun
      exact absurd hrun runs_throw

theorem runs_reusable? (h : s.Models Γ w) {e : ExprId} {t : Term} {r : Option Name}
    (he : s.arena.term? e = some t) (hrun : (reusable? e).Runs ctx s r s') :
    s = s' ∧ (∀ c, r = some c → t.headGlobal? = some c ∧
        ∃ k, ctx.kindAt? w.lifted c = some k ∧ k.isPlain = true) ∧
      (r = none → ∀ c, t.headGlobal? = some c →
        ∃ k, ctx.kindAt? w.lifted c = some k ∧ k.isPlain = false) := by
  simp only [reusable?, runs_bind, runs_liftM] at hrun
  obtain ⟨head?, _, ⟨_, hask, rfl⟩, hrun⟩ := hrun
  cases (ArenaM.ask_eq_ok (h.wellFormed.headGlobal?_eq_ok he)).symm.trans hask
  cases hhead : t.headGlobal? with
  | none =>
    simp only [hhead, runs_pure] at hrun
    obtain ⟨rfl, rfl⟩ := hrun
    simp
  | some c =>
    simp only [hhead, runs_bind, runs_pure] at hrun
    obtain ⟨k, _, hkind, rfl, rfl⟩ := hrun
    obtain ⟨rfl, hk⟩ := runs_kindOf h hkind
    cases hplain : k.isPlain with
    | true => simp [hk, hplain]
    | false => simp [hk, hplain]

theorem calls_of_callee (h : s.Models Γ w) {fuel : Nat} {e r : ExprId} {t : Term}
    (he : s.arena.term? e = some t) (hrun : (callee fuel e).Runs ctx s r s') :
    ∃ w' u, Calls ctx w t w' u ∧ s'.arena.term? r = some u ∧ s.Reaches s' Γ w' := by
  simp only [callee, runs_bind, runs_liftM] at hrun
  obtain ⟨reduced, _, ⟨a₁, heta, rfl⟩, r?, _, hreuse, hrun⟩ := hrun
  obtain ⟨hgrow, hreduced⟩ := (ArenaM.builds_etaReduce h.wellFormed he).of_eq_ok heta
  have h₁ := h.grow hgrow
  obtain ⟨rfl, hsome, hnone⟩ := runs_reusable? h₁ hreduced hreuse
  cases r? with
  | some c =>
    simp only [emit, runs_bind, runs_update, runs_pure] at hrun
    obtain ⟨-, _, rfl, rfl, rfl⟩ := hrun
    obtain ⟨hc, k, hk, hplain⟩ := hsome c rfl
    exact ⟨w, _, .reuse hc hk hplain, hreduced, h₁.emit _, hgrow.isExtension⟩
  | none =>
    simp only [addProcedure, emit, runs_bind, runs_read, runs_state, runs_onNames, runs_update,
      runs_liftM] at hrun
    obtain ⟨_, _, ⟨rfl, rfl⟩, _, _, ⟨rfl, rfl⟩, name, _, ⟨names, hfresh, rfl⟩, -, _, rfl, -, _, rfl,
      a₂, hpush, rfl⟩ := hrun
    rw [taken_eq h, h.names_eq] at hfresh
    have h₂ := (h₁.addProcedure name names (hgrow.isExtension.term?_eq_some he)).emit
      (s.events.push (.lifted name))
    obtain ⟨hgrow₂, hr⟩ :=
      (ArenaM.builds_push h₂.wellFormed (.global name) (by simp)).of_eq_ok hpush
    exact ⟨_, _, .new (hnone rfl) hfresh, hr, h₂.grow hgrow₂,
      hgrow.isExtension.trans hgrow₂.isExtension⟩

end LiftM

end LambdaLifting
