import LambdaLifting.Proofs.Meaning
import LambdaLifting.Proofs.Programs

namespace LambdaLifting

namespace Term

/-- What is put in for a free variable occurs in the result, unless a binder catches it. -/
theorem mem_occurrences_substitute_of_mem {t u : Term} {s : Replacement} {x y : LocalId}
    (hy : y ∈ t.occurrences) (hu : s y = some u) (hx : x ∈ u.occurrences) (hb : x ∉ t.binders) :
    x ∈ (t.substitute s).occurrences := by
  induction t generalizing s with
  | var z =>
    obtain rfl := List.mem_singleton.1 hy
    rwa [substitute, hu]
  | global c => simp [occurrences] at hy
  | lit l => simp [occurrences] at hy
  | app f z ihf ihz =>
    simp only [binders, List.mem_append, not_or] at hb
    rcases List.mem_append.1 hy with hy | hy
    · exact List.mem_append_left _ (ihf hy hu hb.1)
    · exact List.mem_append_right _ (ihz hy hu hb.2)
  | lam b body ih =>
    simp only [binders, List.mem_cons, not_or] at hb
    simp only [occurrences, List.mem_filter, decide_eq_true_eq] at hy
    rw [substitute_lam, occurrences, List.mem_filter]
    exact ⟨ih hy.1 (Replacement.hide_eq_some.2 ⟨hy.2, hu⟩) hb.2, by simpa using hb.1⟩
  | letIn b value body ihv ih =>
    simp only [binders, List.mem_cons, List.mem_append, not_or] at hb
    simp only [occurrences, List.mem_append, List.mem_filter, decide_eq_true_eq] at hy
    rw [substitute_letIn, occurrences, List.mem_append, List.mem_filter]
    rcases hy with hy | hy
    · exact .inl (ihv hy hu hb.2.1)
    · refine .inr ⟨?_, by simpa using hb.1⟩
      exact ih hy.1 (Replacement.hide_eq_some.2 ⟨hy.2, hu⟩) hb.2.2

theorem substitute_congr {t : Term} {s s' : Replacement} (h : ∀ x ∈ t.occurrences, s x = s' x) :
    t.substitute s = t.substitute s' := by
  -- Under a binder both forget the same variable.
  have hide {s s' : Replacement} {b : Binder} {body : Term}
      (h : ∀ x ∈ body.occurrences.filter (· ≠ b.id), s x = s' x) :
      ∀ x ∈ body.occurrences, s.hide b.id x = s'.hide b.id x := by
    intro x hx
    by_cases e : x = b.id
    · simp [Replacement.hide, e]
    · simpa [Replacement.hide, e] using h x (by simp [hx, e])
  induction t generalizing s s' with
  | var x => rw [substitute, substitute, h x (by simp [occurrences])]
  | global c => rfl
  | lit l => rfl
  | app f x ihf ihx =>
    simp only [occurrences, List.forall_mem_append] at h
    rw [substitute, substitute, ihf h.1, ihx h.2]
  | lam b body ih => rw [substitute_lam, substitute_lam, ih (hide h)]
  | letIn b value body ihv ih =>
    simp only [occurrences, List.forall_mem_append] at h
    rw [substitute_letIn, substitute_letIn, ihv h.1, ih (hide h.2)]

end Term

namespace Context

variable {n : Nat} {Γ : Context} {xs : List LocalId}

/-- What holds of given variables, and of those in the value of a definition once it holds of the
definition, holds of all that is needed. -/
theorem needed_induction {P : LocalId → Prop} (hxs : ∀ x ∈ xs, P x)
    (hvalue : ∀ d ∈ Γ.needed xs, P d.id → ∀ v, d.value = some v → ∀ y ∈ v.occurrences, P y) :
    ∀ x ∈ (Γ.needed xs).ids, P x := by
  induction Γ generalizing xs with
  | nil => simp [needed, ids]
  | cons d Γ ih =>
    rw [needed] at hvalue ⊢
    split
    · next hd =>
      rw [if_pos hd, List.forall_mem_cons] at hvalue
      refine List.forall_mem_cons.2 ⟨hxs _ hd, ih (fun x hx => ?_) hvalue.2⟩
      rcases List.mem_append.1 hx with hx | hx
      · exact hxs x hx
      · cases hv : d.value with
        | none => simp [hv] at hx
        | some v => exact hvalue.1 (hxs _ hd) v hv x (by simpa [hv] using hx)
    · next hd =>
      rw [if_neg hd] at hvalue
      exact ih hxs hvalue

end Context

namespace Parametrizes

variable {n : Nat} {ds : List Entry} {s s' : Replacement} {bs : List Binder}

theorem eq_of_not_mem (h : Parametrizes n ds s bs s') {x : LocalId} (hx : x ∉ ds.map Entry.id) :
    s' x = s x := by
  induction h with
  | nil => rfl
  | param _ ih =>
    rw [List.map_cons, List.mem_cons, not_or] at hx
    rw [ih hx.2, Replacement.add_of_ne _ _ hx.1]
  | define _ ih =>
    rw [List.map_cons, List.mem_cons, not_or] at hx
    rw [ih hx.2, Replacement.add_of_ne _ _ hx.1]

/-- Each parameter has a new lambda of its name, and is replaced by the variable of that lambda. -/
theorem forall₂_binders (h : Parametrizes n ds s bs s') (hds : (ds.map Entry.id).Nodup) :
    List.Forall₂ (fun b d => n ≤ b.id.index ∧ d ∈ ds ∧ b.name = d.name ∧
      s' d.id = some (.var b.id)) bs (ds.filter (·.value.isNone)) := by
  induction h with
  | nil => exact .nil
  | @param n x name ds s bs s' h ih =>
    obtain ⟨hx, hds⟩ := List.nodup_cons.1 hds
    rw [List.filter_cons_of_pos (by rfl)]
    refine .cons ⟨Nat.le_refl n, List.mem_cons_self, rfl, ?_⟩ ((ih hds).imp fun b d hbd => ?_)
    · rw [h.eq_of_not_mem hx, Replacement.add_self]
    · exact ⟨Nat.le_of_succ_le hbd.1, List.mem_cons_of_mem _ hbd.2.1, hbd.2.2⟩
  | define _ ih =>
    rw [List.filter_cons_of_neg (by simp)]
    refine (ih (List.nodup_cons.1 hds).2).imp fun b d hbd => ?_
    exact ⟨hbd.1, List.mem_cons_of_mem _ hbd.2.1, hbd.2.2⟩

/-- Each definition is replaced by its value, in which all replacements are made. -/
theorem eq_substitute (h : Parametrizes n ds s bs s') (hds : (ds.map Entry.id).Nodup)
    (hres : Resolvable ds fun x => (s x).isSome) (hs : ∀ x, (s x).isSome → x ∉ ds.map Entry.id) :
    ∀ d ∈ ds, ∀ v, d.value = some v → s' d.id = some (v.substitute s') := by
  have tail {d : Entry} {ds : List Entry} {s : Replacement} (u : Term)
      (hds : ((d :: ds).map Entry.id).Nodup)
      (hs : ∀ x, (s x).isSome → x ∉ (d :: ds).map Entry.id) (x : LocalId)
      (hx : (s.add d.id u x).isSome) : x ∉ ds.map Entry.id := by
    by_cases e : x = d.id
    · exact e ▸ (List.nodup_cons.1 hds).1
    · rw [s.add_of_ne u e] at hx
      exact fun hm => hs x hx (List.mem_cons_of_mem _ hm)
  induction h with
  | nil => simp
  | param _ ih =>
    refine List.forall_mem_cons.2 ⟨by simp, ?_⟩
    exact ih (List.nodup_cons.1 hds).2 (hres.tail _) (tail _ hds hs)
  | @define n x name v ds s bs s' h ih =>
    refine List.forall_mem_cons.2 ⟨fun u hu => ?_, ?_⟩
    · obtain rfl := Option.some.inj hu
      rw [h.eq_of_not_mem (List.nodup_cons.1 hds).1, Replacement.add_self]
      -- The value mentions what was replaced before, and that is not touched any more.
      refine congrArg some (Term.substitute_congr fun y hy => ?_)
      have hy := hs y (hres.1 v rfl y hy)
      rw [List.map_cons, List.mem_cons, not_or] at hy
      rw [h.eq_of_not_mem hy.2, Replacement.add_of_ne _ _ hy.1]
    · exact ih (List.nodup_cons.1 hds).2 (hres.tail _) (tail _ hds hs)

end Parametrizes

namespace Closes

variable {Γ : Context} {n k : Nat} {t closed : Term} {captured : List LocalId}

theorem captured_eq (h : Closes Γ n t closed k captured) :
    captured = ((Γ.needed t.occurrences).filter (·.value.isNone)).map Entry.id := by
  cases h
  rfl

/-- A closed term starts with a new lambda for each captured variable, and each is used. -/
theorem exists_binders (h : Closes Γ n t closed k captured) (hΓ : Γ.Scoped n)
    (ht : ∀ x ∈ t.binders, x.index < n) :
    ∃ bs body, closed = Term.lambdas bs body ∧ (bs.map Binder.id).Nodup ∧
      List.Forall₂ (fun b x => n ≤ b.id.index ∧ ∃ d ∈ Γ, d.id = x ∧ b.name = d.name) bs
        captured.reverse ∧ ∀ b ∈ bs, b.id ∈ body.occurrences := by
  obtain ⟨hp⟩ := h
  rename_i bs s
  have hneeded := hΓ.needed t.occurrences
  have hnodup : ((Γ.needed t.occurrences).reverse.map Entry.id).Nodup := by
    rw [List.map_reverse, List.nodup_reverse]
    exact hneeded.nodup_ids
  have hbinders := hp.forall₂_binders hnodup
  have heq := hp.eq_substitute hnodup (by simpa [Replacement.empty] using hneeded.resolvable)
    (by simp [Replacement.empty])
  -- A parameter that stands for a needed variable, or occurs in what a needed definition stands
  -- for, has come into the term.
  have hcomes : ∀ x ∈ (Γ.needed t.occurrences).ids, ∀ u, s x = some u → ∀ y ∈ u.occurrences,
      n ≤ y.index → y ∈ (t.substitute s).occurrences := by
    refine Context.needed_induction (fun x hx u hu y hy hn => ?_) ?_
    · exact Term.mem_occurrences_substitute_of_mem hx hu hy fun hb => absurd (ht y hb) (by omega)
    · intro d hd hP v hv x hx u hu y hy hn
      refine hP _ (heq d (List.mem_reverse.2 hd) v hv) y ?_ hn
      have hb := (hneeded.value_scoped hd hv).2
      exact Term.mem_occurrences_substitute_of_mem hx hu hy fun hm => absurd (hb y hm) (by omega)
  refine ⟨bs, t.substitute s, rfl, hp.nodup, ?_, fun b hb => ?_⟩
  · rw [← List.map_reverse, ← List.filter_reverse, List.forall₂_map_right_iff]
    refine hbinders.imp fun b d hbd => ⟨hbd.1, d, ?_, rfl, hbd.2.2.1⟩
    exact Context.mem_of_mem_needed (List.mem_reverse.1 hbd.2.1)
  · obtain ⟨d, -, hfresh, hd, -, hs⟩ := exists_of_mem_forall₂ hbinders hb
    have hd := List.mem_map_of_mem (f := Entry.id) (List.mem_reverse.1 hd)
    exact hcomes d.id hd _ hs b.id (by simp [Term.occurrences]) hfresh

end Closes

theorem Decl.Shows.value_eq_none_iff {a : Arena} {d : Decl} {x : Entry} (h : d.Shows a x) :
    d.value = none ↔ x.value = none := by
  rcases h.value with ⟨hd, hx⟩ | ⟨e, t, hd, hx, -⟩ <;> simp [hd, hx]

namespace Scope

/-- A scope in order: declarations have different positions, values mention earlier declarations,
and the variables declared and bound are numbered below the next one. -/
structure InOrder (s : Scope) (a : Arena) : Prop where
  id_eq : ∀ {x d}, s.find? x = some d → d.id = x
  position_inj : ∀ {x y c d}, s.find? x = some c → s.find? y = some d →
    c.position = d.position → c = d
  index_lt : ∀ {x d}, s.find? x = some d → x.index < a.nextLocal
  value : ∀ {x d v}, s.find? x = some d → d.value = some v → ∃ t, a.term? v = some t ∧
    (∀ y ∈ t.occurrences, ∃ c, s.find? y = some c ∧ c.position < d.position) ∧
    ∀ y ∈ t.binders, y.index < a.nextLocal

/-- The variables that a term needs: those free in it, and those free in the value of a definition
that it needs. -/
inductive Needs (s : Scope) (a : Arena) (e : ExprId) : LocalId → Prop where
  | free {xs x} : a.freeVars e = .ok xs → x ∈ xs → Needs s a e x
  | value {x d v xs y} : Needs s a e x → s.find? x = some d → d.value = some v →
      a.freeVars v = .ok xs → y ∈ xs → Needs s a e y

/-- What closing the term `e` gives: a term of the arena `b`, and the variables captured. -/
structure Captures (s : Scope) (a : Arena) (e : ExprId) (b : Arena) (closed : ExprId)
    (captured : List LocalId) : Prop where
  /-- The parameters that the term needs are captured, and nothing else. -/
  mem_iff : ∀ x, x ∈ captured ↔ s.Needs a e x ∧ ∃ d, s.find? x = some d ∧ d.value = none
  nodup : captured.Nodup
  /-- Later declarations stand first. -/
  ordered : captured.Pairwise fun x y => ∃ c d, s.find? x = some c ∧ s.find? y = some d ∧
    d.position < c.position
  isClosed : b.freeVars closed = .ok []
  /-- The closed term starts with a new lambda for each captured variable, under its name and with
  the oldest outermost. Each of these lambdas binds a variable that occurs. -/
  binders : ∃ bs body, b.term? closed = some (Term.lambdas bs body) ∧
    List.Forall₂ (fun c x => a.nextLocal ≤ c.id.index ∧
      ∃ d, s.find? x = some d ∧ c.name = d.name) bs captured.reverse ∧
    (bs.map Binder.id).Nodup ∧
    ∀ outer c inner, bs = outer ++ c :: inner → c.id ∈ (Term.lambdas inner body).occurrences

variable {s : Scope} {a : Arena}

/-- The declarations of a scope in order, latest first. -/
theorem InOrder.exists_list (hs : s.InOrder a) :
    ∃ ds : List Decl, (∀ d, d ∈ ds ↔ s.find? d.id = some d) ∧
      ds.Pairwise fun c d => d.position < c.position := by
  let later (c d : Decl) : Bool := decide (d.position ≤ c.position)
  let ds := (s.decls.toList.map Prod.snd).mergeSort later
  have hmem (d : Decl) : d ∈ ds ↔ s.find? d.id = some d := by
    rw [List.mem_mergeSort, List.mem_map]
    constructor
    · rintro ⟨⟨x, _⟩, hx, rfl⟩
      have hfind := Std.TreeMap.mem_toList_iff_getElem?_eq_some.1 hx
      rwa [hs.id_eq hfind]
    · exact fun hd => ⟨(d.id, d), Std.TreeMap.mem_toList_iff_getElem?_eq_some.2 hd, rfl⟩
  have hne : ds.Pairwise fun c d => c.position ≠ d.position := by
    refine (List.Perm.pairwise_iff Ne.symm (List.mergeSort_perm _ later)).2 ?_
    rw [List.pairwise_map]
    refine List.Pairwise.imp_of_mem ?_ Std.TreeMap.distinct_keys_toList
    rintro ⟨x, c⟩ ⟨y, d⟩ hc hd hxy heq
    have hc : s.find? x = some c := Std.TreeMap.mem_toList_iff_getElem?_eq_some.1 hc
    have hd : s.find? y = some d := Std.TreeMap.mem_toList_iff_getElem?_eq_some.1 hd
    obtain rfl := hs.position_inj hc hd heq
    obtain rfl := (hs.id_eq hc).symm.trans (hs.id_eq hd)
    exact hxy Std.ReflCmp.compare_self
  have hle : ds.Pairwise fun c d => later c d = true := by
    refine List.pairwise_mergeSort ?_ ?_ _
    · intro c d e hcd hde
      simp only [later, decide_eq_true_eq] at hcd hde ⊢
      omega
    · intro c d
      simp only [later, Bool.or_eq_true, decide_eq_true_eq]
      omega
  refine ⟨ds, hmem, (hne.and hle).imp ?_⟩
  rintro c d ⟨hcd, hle⟩
  simp only [later, decide_eq_true_eq] at hle
  omega

/-- Declarations of a scope in order, with all that come before them, make a context. -/
theorem InOrder.exists_context (hs : s.InOrder a) {ds : List Decl}
    (hds : ∀ d ∈ ds, s.find? d.id = some d)
    (hord : ds.Pairwise fun c d => d.position < c.position)
    (hbefore : ∀ d ∈ ds, ∀ x c, s.find? x = some c → c.position < d.position → c ∈ ds) :
    ∃ Γ : Context, List.Forall₂ (Decl.Shows a) ds Γ ∧ Γ.Scoped a.nextLocal := by
  induction ds with
  | nil => exact ⟨[], .nil, .nil⟩
  | cons d ds ih =>
    obtain ⟨hd, hds⟩ := List.forall_mem_cons.1 hds
    obtain ⟨hlt, hord⟩ := List.pairwise_cons.1 hord
    -- What comes before a declaration in the list is not at its head.
    have htail {e c : Decl} {x : LocalId} (he : e ∈ d :: ds) (hc : s.find? x = some c)
        (hce : c.position < e.position) : c ∈ ds := by
      have hed : e.position ≤ d.position := by
        rcases List.mem_cons.1 he with rfl | he
        · exact Nat.le_refl _
        · exact Nat.le_of_lt (hlt e he)
      refine (List.mem_cons.1 (hbefore e he x c hc hce)).resolve_left ?_
      rintro rfl
      omega
    obtain ⟨Γ, hshow, hΓ⟩ := ih hds hord fun e he x c => htail (List.mem_cons_of_mem _ he)
    have hid : d.id ∉ Γ.ids := by
      rw [← Decl.map_id_eq_ids hshow]
      intro hm
      obtain ⟨c, hc, hcd⟩ := List.mem_map.1 hm
      have hfind := hds c hc
      rw [hcd, hd] at hfind
      obtain rfl := Option.some.inj hfind
      exact absurd (hlt d hc) (Nat.lt_irrefl _)
    cases hv : d.value with
    | none =>
      exact ⟨⟨d.id, d.name, none⟩ :: Γ, .cons ⟨rfl, rfl, .inl ⟨hv, rfl⟩⟩ hshow,
        .cons hΓ hid (hs.index_lt hd) (by simp)⟩
    | some v =>
      obtain ⟨t, ht, hfree, hbinders⟩ := hs.value hd hv
      refine ⟨⟨d.id, d.name, some t⟩ :: Γ, .cons ⟨rfl, rfl, .inr ⟨v, t, hv, rfl, ht⟩⟩ hshow,
        .cons hΓ hid (hs.index_lt hd) fun u hu => ?_⟩
      obtain rfl := Option.some.inj hu
      refine ⟨fun y hy => ?_, hbinders⟩
      obtain ⟨c, hc, hlt⟩ := hfree y hy
      rw [← Decl.map_id_eq_ids hshow, ← hs.id_eq hc]
      exact List.mem_map_of_mem (htail List.mem_cons_self hc hlt)

/-- The context of a scope tells what a term needs. -/
theorem mem_ids_needed_iff {Γ : Context} {n : Nat} (ha : a.WellFormed) (hΓ : Γ.Scoped n)
    (hdecl : ∀ d ∈ Γ, ∃ c, s.find? d.id = some c ∧ c.Shows a d) {e : ExprId} {t : Term}
    (he : a.term? e = some t) (ht : ∀ x ∈ t.occurrences, x ∈ Γ.ids) {x : LocalId} :
    x ∈ (Γ.needed t.occurrences).ids ↔ s.Needs a e x := by
  have hfree {e : ExprId} {t : Term} (he : a.term? e = some t) {xs : List LocalId}
      (hxs : a.freeVars e = .ok xs) {x : LocalId} : x ∈ xs ↔ x ∈ t.occurrences := by
    obtain rfl := Except.ok.inj ((Arena.freeVars_eq_ok ha he).symm.trans hxs)
    exact mem_firstOccurrences
  constructor
  · refine Context.needed_induction (fun y hy => ?_) (fun d hd hneeds v hv y hy => ?_) x
    · exact .free (Arena.freeVars_eq_ok ha he) (mem_firstOccurrences.2 hy)
    · obtain ⟨c, hc, hshow⟩ := hdecl d (Context.mem_of_mem_needed hd)
      rcases hshow.value with ⟨-, hnone⟩ | ⟨e', t', hvalue, hsome, he'⟩
      · simp [hnone] at hv
      · obtain rfl := Option.some.inj (hsome.symm.trans hv)
        exact .value hneeds hc hvalue (Arena.freeVars_eq_ok ha he') (mem_firstOccurrences.2 hy)
  · intro hneeds
    induction hneeds with
    | free hxs hx =>
      have hx := (hfree he hxs).1 hx
      exact Context.mem_ids_needed hx (ht _ hx)
    | value _ hfind hvalue hxs hy ih =>
      obtain ⟨d, hd, rfl⟩ := List.mem_map.1 ih
      obtain ⟨c, hc, hshow⟩ := hdecl d (Context.mem_of_mem_needed hd)
      obtain rfl := Option.some.inj (hc.symm.trans hfind)
      rcases hshow.value with ⟨hnone, -⟩ | ⟨e', t', hvalue', hsome, he'⟩
      · simp [hnone] at hvalue
      · obtain rfl := Option.some.inj (hvalue'.symm.trans hvalue)
        exact ((hΓ.needed _).value_scoped hd hsome).1 _ ((hfree he' hxs).1 hy)

theorem mem_captured_iff {Γ : Context} {n k : Nat} (ha : a.WellFormed) (hΓ : Γ.Scoped n)
    (hdecl : ∀ d ∈ Γ, ∃ c, s.find? d.id = some c ∧ c.Shows a d) {e : ExprId} {t u : Term}
    (he : a.term? e = some t) (ht : ∀ x ∈ t.occurrences, x ∈ Γ.ids) {captured : List LocalId}
    (hcloses : Closes Γ n t u k captured) {x : LocalId} :
    x ∈ captured ↔ s.Needs a e x ∧ ∃ d, s.find? x = some d ∧ d.value = none := by
  rw [hcloses.captured_eq, ← mem_ids_needed_iff ha hΓ hdecl he ht, Context.ids, List.mem_map,
    List.mem_map]
  constructor
  · rintro ⟨d, hd, rfl⟩
    obtain ⟨hd, hnone⟩ := List.mem_filter.1 hd
    obtain ⟨c, hc, hcd⟩ := hdecl d (Context.mem_of_mem_needed hd)
    exact ⟨⟨d, hd, rfl⟩, c, hc, hcd.value_eq_none_iff.2 (Option.isNone_iff_eq_none.1 hnone)⟩
  · rintro ⟨⟨d, hd, rfl⟩, c, hc, hnone⟩
    obtain ⟨c', hc', hcd⟩ := hdecl d (Context.mem_of_mem_needed hd)
    obtain rfl := Option.some.inj (hc'.symm.trans hc)
    have hvalue := hcd.value_eq_none_iff.1 hnone
    exact ⟨d, List.mem_filter.2 ⟨hd, Option.isNone_iff_eq_none.2 hvalue⟩, rfl⟩

end Scope

namespace LiftM

variable {ctx : LiftContext} {s : LiftState}

theorem exists_declared (hs : s.scope.InOrder s.arena) :
    ∃ (ds : List Decl) (Γ : Context), Declared s ds ∧ List.Forall₂ (Decl.Shows s.arena) ds Γ ∧
      Γ.Scoped s.arena.nextLocal ∧ ∀ x, s.scope.contains x = true → x ∈ Γ.ids := by
  obtain ⟨ds, hmem, hord⟩ := hs.exists_list
  have hfind (d : Decl) (hd : d ∈ ds) : s.scope.find? d.id = some d := (hmem d).1 hd
  have hall {x : LocalId} {c : Decl} (hc : s.scope.find? x = some c) : c ∈ ds :=
    (hmem c).2 (by rwa [hs.id_eq hc])
  obtain ⟨Γ, hshow, hΓ⟩ := hs.exists_context hfind hord fun d _ x c hc _ => hall hc
  refine ⟨ds, Γ, ⟨hord, Decl.map_id_eq_ids hshow ▸ hΓ.nodup_ids, hfind⟩, hshow, hΓ, ?_⟩
  intro x hx
  obtain ⟨c, hc⟩ := Option.isSome_iff_exists.1 hx
  rw [← Decl.map_id_eq_ids hshow, ← hs.id_eq hc]
  exact List.mem_map_of_mem (hall hc)

/-- Closing a term over a scope in order ends, and captures what the term needs. -/
theorem captures_closeOver (hwf : s.arena.WellFormed) (hs : s.scope.InOrder s.arena) {e : ExprId}
    {t : Term} (he : s.arena.term? e = some t)
    (hbinders : ∀ x ∈ t.binders, x.index < s.arena.nextLocal)
    (hfree : ∀ x ∈ t.occurrences, s.scope.contains x = true) :
    ∃ closed captured b, (closeOver e).Runs ctx s (closed, captured) { s with arena := b } ∧
      s.scope.Captures s.arena e b closed captured := by
  obtain ⟨ds, Γ, hds, hshow, hΓ, hcontains⟩ := exists_declared hs
  have ht (x : LocalId) (hx : x ∈ t.occurrences) : x ∈ Γ.ids := hcontains x (hfree x hx)
  obtain ⟨closed, r, b, u, k, hrun, hsub, hcloses, hclosed, hext, hb, hnext⟩ :=
    runs_closeOver ctx hds hwf hΓ hshow he ht
  have hdecl (d : Entry) (hd : d ∈ Γ) : ∃ c, s.scope.find? d.id = some c ∧ c.Shows s.arena d := by
    obtain ⟨c, hc, hcd⟩ := exists_of_mem_forall₂ hshow.flip hd
    exact ⟨c, hcd.id_eq ▸ hds.find?_eq c hc, hcd⟩
  refine ⟨closed, _, b, hrun, fun x => Scope.mem_captured_iff hwf hΓ hdecl he ht hcloses,
    ?_, ?_, ?_, ?_⟩
  · rw [hcloses.captured_eq]
    exact (hΓ.needed _).nodup_ids.sublist (List.filter_sublist.map _)
  · rw [List.pairwise_map]
    have hparams : (r.filter (·.value.isNone)).Sublist ds := List.filter_sublist.trans hsub
    refine (hds.ordered.sublist hparams).imp_of_mem fun {c d} hc hd hlt => ?_
    exact ⟨c, d, hds.find?_eq c (hparams.subset hc), hds.find?_eq d (hparams.subset hd), hlt⟩
  · rw [Arena.freeVars_eq_ok hb hclosed, hcloses.closed_of_scoped hΓ ht, firstOccurrences_nil]
  · obtain ⟨bs, body, rfl, hnodup, hbs, hoccurs⟩ := hcloses.exists_binders hΓ hbinders
    refine ⟨bs, body, hclosed, hbs.imp ?_, hnodup, ?_⟩
    · rintro c x ⟨hfresh, d, hd, rfl, hname⟩
      obtain ⟨c', hc', hcd⟩ := hdecl d hd
      exact ⟨hfresh, c', hc', hname.trans hcd.name_eq.symm⟩
    · rintro outer c inner rfl
      refine Term.mem_occurrences_lambdas.2 ⟨hoccurs c (by simp), fun hm => ?_⟩
      rw [List.map_append, List.map_cons] at hnodup
      exact (List.nodup_cons.1 (List.nodup_append.1 hnodup).2.1).1 hm

/-- The state in which the abstraction of `captureProgram` is closed: its parameter `a` and the
local definition `k` are in scope. -/
def captureState : LiftState where
  arena := captureProgram.arena
  names := captureNames
  scope := ((Scope.declare {} ⟨⟨0⟩, ⟨5⟩⟩ none).2.declare ⟨⟨1⟩, ⟨6⟩⟩ (some ⟨2⟩)).2

theorem eq_of_find?_captureState {x : LocalId} {d : Decl}
    (h : captureState.scope.find? x = some d) :
    x = ⟨1⟩ ∧ d = ⟨⟨1⟩, ⟨6⟩, some ⟨2⟩, 1⟩ ∨ x = ⟨0⟩ ∧ d = ⟨⟨0⟩, ⟨5⟩, none, 0⟩ := by
  rw [captureState, Scope.find?_declare, Scope.find?_declare] at h
  split at h
  · next hx => exact .inl ⟨hx, (Option.some.inj h).symm⟩
  · split at h
    · next hx => exact .inr ⟨hx, (Option.some.inj h).symm⟩
    · simp [Scope.find?] at h

theorem inOrder_captureState : captureState.scope.InOrder captureState.arena := by
  refine ⟨fun h => ?_, fun h h' heq => ?_, fun h => ?_, fun h hv => ?_⟩
  · rcases eq_of_find?_captureState h with ⟨rfl, rfl⟩ | ⟨rfl, rfl⟩ <;> rfl
  · rcases eq_of_find?_captureState h with ⟨-, rfl⟩ | ⟨-, rfl⟩ <;>
      rcases eq_of_find?_captureState h' with ⟨-, rfl⟩ | ⟨-, rfl⟩
    · rfl
    · cases heq
    · cases heq
    · rfl
  · rcases eq_of_find?_captureState h with ⟨rfl, rfl⟩ | ⟨rfl, rfl⟩ <;> decide
  · rcases eq_of_find?_captureState h with ⟨rfl, rfl⟩ | ⟨rfl, rfl⟩
    · obtain rfl := Option.some.inj hv
      refine ⟨.app (.global ⟨1⟩) (.var ⟨0⟩), by decide +kernel, fun y hy => ?_, by decide⟩
      obtain rfl : y = ⟨0⟩ := by simpa [Term.occurrences] using hy
      exact ⟨⟨⟨0⟩, ⟨5⟩, none, 0⟩, by decide +kernel, Nat.zero_lt_one⟩
    · cases hv

/-- The abstraction `λ x, h x k` mentions only `k`, and captures the parameter `a` through it. -/
theorem captures_captureState :
    captureState.arena.WellFormed ∧ captureState.scope.InOrder captureState.arena ∧
      ∃ closed b, (closeOver ⟨7⟩).Runs
          (captureProgram.context captureEnvironment captureNames "main") captureState
          (closed, [⟨0⟩]) { captureState with arena := b } ∧
        captureState.scope.Captures captureState.arena ⟨7⟩ b closed [⟨0⟩] := by
  have hwf : captureState.arena.WellFormed := by decide +kernel
  have hterm : captureState.arena.term? ⟨7⟩ = some
      (.lam ⟨⟨2⟩, ⟨7⟩⟩ (.app (.app (.global ⟨3⟩) (.var ⟨2⟩)) (.var ⟨1⟩))) := by decide +kernel
  obtain ⟨closed, captured, b, hrun, hcaptures⟩ := captures_closeOver hwf inOrder_captureState hterm
    (by decide) (by decide +kernel)
  have hcaptured : ((closeOver ⟨7⟩ (captureProgram.context captureEnvironment captureNames "main")
      captureState).toOption.bind fun r => r.1.toOption.map Prod.snd) = some [⟨0⟩] := by
    decide +kernel
  rw [hrun] at hcaptured
  obtain rfl : captured = [⟨0⟩] := Option.some.inj hcaptured
  exact ⟨hwf, inOrder_captureState, closed, b, hrun, hcaptures⟩

end LiftM

end LambdaLifting
