import LambdaLifting.Output.Check
import LambdaLifting.Proofs.FreeVariables
import LambdaLifting.Proofs.Traversal
import Mathlib.Data.List.Duplicate

namespace LambdaLifting

/-- A computation ends with a list of exactly the things in `Q`. -/
def Collects {ε β : Type} (x : Except ε (List β)) (Q : β → Prop) : Prop :=
  ∃ ys, x = .ok ys ∧ ∀ y, y ∈ ys ↔ Q y

namespace Collects

variable {ε α β : Type} {xs : List α} {Q : α → β → Prop}

theorem congr {x : Except ε (List β)} {P R : β → Prop} (h : Collects x P) (hPR : ∀ y, P y ↔ R y) :
    Collects x R := by
  obtain ⟨ys, hys, hmem⟩ := h
  exact ⟨ys, hys, fun y => (hmem y).trans (hPR y)⟩

theorem mapM_flatten {f : α → Except ε (List β)} (h : ∀ x ∈ xs, Collects (f x) (Q x)) :
    ∃ yss, xs.mapM f = .ok yss ∧ ∀ y, y ∈ yss.flatten ↔ ∃ x ∈ xs, Q x y := by
  induction xs with
  | nil => exact ⟨[], rfl, by simp⟩
  | cons x xs ih =>
    obtain ⟨⟨ys, hys, hQ⟩, hxs⟩ := List.forall_mem_cons.1 h
    obtain ⟨yss, hyss, hall⟩ := ih hxs
    refine ⟨ys :: yss, ?_, by simp [hQ, hall]⟩
    rw [List.mapM_cons, hys, hyss]
    rfl

theorem filterMapM {f : α → Except ε (Option β)}
    (h : ∀ x ∈ xs, ∃ y?, f x = .ok y? ∧ ∀ y, y? = some y ↔ Q x y) :
    Collects (xs.filterMapM f) fun y => ∃ x ∈ xs, Q x y := by
  induction xs with
  | nil => exact ⟨[], rfl, by simp⟩
  | cons x xs ih =>
    obtain ⟨⟨y?, hy, hQ⟩, hxs⟩ := List.forall_mem_cons.1 h
    obtain ⟨ys, hys, hall⟩ := ih hxs
    rw [List.filterMapM_cons, hy, hys]
    cases y? with
    | none => exact ⟨ys, rfl, by simp [← hQ, hall]⟩
    | some y => exact ⟨y :: ys, rfl, by simp [← hQ, hall, @eq_comm _ y]⟩

end Collects

namespace Arena

variable {a : Arena}

theorem lambdaChainFrom_eq_ok (ha : a.WellFormed) {fuel : Nat} {e : ExprId} {t : Term}
    (he : a.term? e = some t) (hfuel : e.index < fuel) :
    ∃ bs inner, a.lambdaChainFrom fuel e = .ok (bs, inner) ∧ bs.length = t.leading := by
  induction fuel generalizing e t with
  | zero => omega
  | succ fuel ih =>
    obtain ⟨n, hn⟩ := node?_of_term? he
    rw [lambdaChainFrom, node_of_node? hn]
    by_cases hlam : n.isLambda
    · cases ha.shows_of_node? he hn with
      | @lam b body u hu =>
        have hlt := ha.child_lt hn body (by simp [Node.children])
        obtain ⟨bs, inner, hchain, hlength⟩ := ih hu (by omega)
        refine ⟨b :: bs, inner, ?_, by rw [List.length_cons, hlength, Term.leading]⟩
        simp only [Bind.bind, Except.bind, hchain]
        rfl
      | _ => simp [Node.isLambda] at hlam
    · refine ⟨[], e, ?_, ?_⟩
      · cases n with
        | lam => simp [Node.isLambda] at hlam
        | _ => rfl
      · rw [Bool.not_eq_true, ← ha.isLambda_eq he hn] at hlam
        rw [Term.leading_of_isLambda_eq_false hlam, List.length_nil]

theorem lambdaChain_eq_ok (ha : a.WellFormed) {e : ExprId} {t : Term} (he : a.term? e = some t) :
    ∃ bs inner, a.lambdaChain e = .ok (bs, inner) ∧ bs.length = t.leading :=
  lambdaChainFrom_eq_ok ha he (index_lt_depthBound he)

end Arena

/-- The arm at a position of a dispatch has fewer lambdas than its constructor has fields. An arm
that is missing is not open, nor is one whose constructor has no known number of fields. -/
def InductiveType.OpenArm (env : Environment) (T : InductiveType) (xs : List Term) (i : Nat) :
    Prop :=
  ∃ d arm k, T.constructors[i]? = some d ∧ xs[1 + i]? = some arm ∧
    Output.fieldCount? env T.params d = some k ∧ arm.leading < k

namespace Term

def OpenArm (env : Environment) (t : Term) (c : Name) (i : Nat) : Prop :=
  ∃ T xs, t = (global c).apply xs ∧ env.Dispatcher c T ∧ T.OpenArm env xs i

variable {env : Environment} {c : Name} {i : Nat}

theorem openArm_apply_iff {f : Term} (hf : f.isApp = false) {xs : List Term} :
    (f.apply xs).OpenArm env c i ↔
      ∃ T, f = global c ∧ env.Dispatcher c T ∧ T.OpenArm env xs i := by
  constructor
  · rintro ⟨T, ys, heq, hT, harm⟩
    obtain ⟨rfl, rfl⟩ := apply_inj hf rfl heq
    exact ⟨T, rfl, hT, harm⟩
  · rintro ⟨T, rfl, hT, harm⟩
    exact ⟨T, xs, rfl, hT, harm⟩

theorem not_openArm_of_isApp_eq_false {t : Term} (ht : t.isApp = false) : ¬ t.OpenArm env c i := by
  rw [← t.apply_nil, openArm_apply_iff ht]
  rintro ⟨T, -, -, d, arm, k, -, harm, -⟩
  simp at harm

/-- More arguments do not close an arm. -/
theorem OpenArm.apply {t : Term} (h : t.OpenArm env c i) (zs : List Term) :
    (t.apply zs).OpenArm env c i := by
  obtain ⟨T, xs, rfl, hT, d, arm, k, hd, harm, hk⟩ := h
  obtain ⟨hi, -⟩ := List.getElem?_eq_some_iff.1 harm
  refine ⟨T, xs ++ zs, (apply_append ..).symm, hT, d, arm, k, hd, ?_, hk⟩
  rw [List.getElem?_append_left hi, harm]

end Term

/-- What a problem says of lifted procedures, given those before lifting. -/
inductive Problem.Applies (a : Arena) (env : Environment) (input output : List Procedure) :
    Problem → Prop where
  | renamed {i p} : input[i]? = some p → output[i]?.map Procedure.name ≠ some p.name →
      Applies a env input output (.renamed i)
  | duplicate {c} : List.Duplicate c (output.map Procedure.name) →
      Applies a env input output (.duplicate c)
  | notClosed {q t x} : q ∈ output → a.term? q.body = some t → t.occurrences.head? = some x →
      Applies a env input output (.notClosed q.name x)
  | openArm {q t s c i} : q ∈ output → a.term? q.body = some t → s ∈ t.subterms →
      s.OpenArm env c i → Applies a env input output (.openArm q.name c i)

namespace Output

variable {a : Arena} {env : Environment}

theorem fieldCount?_eq_some_iff {params k : Nat} {c : Name} :
    fieldCount? env params c = some k ↔
      ∃ arity, env.arity? c = some arity ∧ params ≤ arity ∧ k = arity - params := by
  rw [fieldCount?]
  cases env.arity? c with
  | none => simp
  | some arity =>
    by_cases h : arity < params
    · simp [h, Nat.not_le.2 h]
    · simp [h, Nat.not_lt.1 h, @eq_comm _ k]

theorem mem_renamedProblems {input output : List Procedure} {x : Problem} :
    x ∈ renamedProblems input output ↔ ∃ i p, input[i]? = some p ∧
      output[i]?.map Procedure.name ≠ some p.name ∧ x = .renamed i := by
  simp only [renamedProblems, List.mem_filterMap, Prod.exists, List.mk_mem_zipIdx_iff_getElem?]
  constructor
  · rintro ⟨p, i, hp, hx⟩
    split at hx
    · cases hx
    · next hne => exact ⟨i, p, hp, hne, (Option.some.inj hx).symm⟩
  · rintro ⟨i, p, hp, hne, rfl⟩
    exact ⟨p, i, hp, if_neg hne⟩

/-- The check of a dispatch looks at the arms that are there. -/
theorem collects_openArms (ha : a.WellFormed) (env : Environment) (T : InductiveType)
    {args : List ExprId} {xs : List Term} (hargs : a.Denote args xs) :
    Collects (openArms a env T args) (T.OpenArm env xs) := by
  have hpositions {d : Name} {e : ExprId} {i : Nat} :
      ((d, e), i) ∈ (T.constructors.zip (args.drop 1)).zipIdx ↔
        T.constructors[i]? = some d ∧ args[1 + i]? = some e := by
    rw [List.mk_mem_zipIdx_iff_getElem?, List.getElem?_zip_eq_some, List.getElem?_drop]
  rw [openArms]
  refine Collects.congr (Collects.filterMapM (Q := fun m i => m.2 = i ∧ ∃ arm k,
    a.term? m.1.2 = some arm ∧ fieldCount? env T.params m.1.1 = some k ∧ arm.leading < k) ?_) ?_
  · rintro ⟨⟨d, e⟩, i⟩ hm
    obtain ⟨arm, -, harm⟩ := getElem?_of_forall₂ hargs (hpositions.1 hm).2
    obtain ⟨bs, inner, hchain, hlength⟩ := Arena.lambdaChain_eq_ok ha harm
    simp only [hchain, hlength, Bind.bind, Except.bind]
    cases hk : fieldCount? env T.params d with
    | none => exact ⟨none, rfl, by simp⟩
    | some k =>
      refine ⟨_, rfl, fun j => ?_⟩
      simp [harm, and_comm]
  · intro i
    constructor
    · rintro ⟨⟨⟨d, e⟩, j⟩, hm, rfl, arm, k, harm, hk⟩
      obtain ⟨hd, he⟩ := hpositions.1 hm
      obtain ⟨u, hu, hterm⟩ := getElem?_of_forall₂ hargs he
      cases harm.symm.trans hterm
      exact ⟨d, arm, k, hd, hu, hk⟩
    · rintro ⟨d, arm, k, hd, harm, hk⟩
      obtain ⟨e, he, hterm⟩ := getElem?_of_forall₂ hargs.flip harm
      exact ⟨((d, e), i), hpositions.2 ⟨hd, he⟩, rfl, arm, k, hterm, hk⟩

theorem dispatch?_eq_ok (ha : a.WellFormed) (env : Environment) {head : ExprId} {f : Term}
    (hf : a.term? head = some f) :
    ∃ r, dispatch? a env head = .ok r ∧
      ∀ c T, r = some (c, T) ↔ f = .global c ∧ env.Dispatcher c T := by
  obtain ⟨n, hn⟩ := Arena.node?_of_term? hf
  simp only [dispatch?, Arena.node_of_node? hn, Bind.bind, Except.bind]
  cases ha.shows_of_node? hf hn with
  | global c =>
    dsimp only
    split
    · next type hk =>
      refine ⟨_, rfl, fun d T => ?_⟩
      simp only [Option.map_eq_some_iff, Prod.mk.injEq, Term.global.injEq]
      constructor
      · rintro ⟨T', hT, rfl, rfl⟩
        exact ⟨rfl, type, hk, hT⟩
      · rintro ⟨rfl, type', hk', hT⟩
        cases hk.symm.trans hk'
        exact ⟨T, hT, rfl, rfl⟩
    · next hk =>
      refine ⟨none, rfl, fun d T => ⟨by simp, ?_⟩⟩
      rintro ⟨heq, type, hk', -⟩
      cases heq
      exact absurd hk' (hk type)
  | app hg hxs =>
    obtain ⟨g, x, heq⟩ := ha.exists_eq_app hf hn
    refine ⟨none, rfl, fun d T => ⟨by simp, ?_⟩⟩
    rintro ⟨hglobal, -⟩
    cases heq.symm.trans hglobal
  | _ => exact ⟨none, rfl, by simp⟩

theorem collects_nodeProblems (ha : a.WellFormed) (env : Environment) (q : Name) {e : ExprId}
    {n : Node} {t : Term} (hn : a.node? e = some n) (hshows : a.Shows n t) :
    Collects (nodeProblems a env q n) fun x => ∃ c i, t.OpenArm env c i ∧ x = .openArm q c i := by
  cases hshows with
  | @app head args f xs hf hxs =>
    obtain ⟨hhead, -⟩ := ha.spine_of_node? hn hf hxs
    obtain ⟨r, hr, hdispatch⟩ := dispatch?_eq_ok ha env hf
    simp only [nodeProblems, hr, Bind.bind, Except.bind]
    cases r with
    | none =>
      refine ⟨[], rfl, fun x => ⟨by simp, ?_⟩⟩
      rintro ⟨c, i, harm, -⟩
      obtain ⟨T, hc, hT, -⟩ := (Term.openArm_apply_iff hhead).1 harm
      cases (hdispatch c T).2 ⟨hc, hT⟩
    | some r =>
      obtain ⟨c, T⟩ := r
      obtain ⟨rfl, hT⟩ := (hdispatch c T).1 rfl
      obtain ⟨arms, harms, hopen⟩ := collects_openArms ha env T hxs
      simp only [harms]
      refine ⟨arms.map (.openArm q c), rfl, fun x => ?_⟩
      simp only [List.mem_map, hopen]
      constructor
      · rintro ⟨i, harm, rfl⟩
        exact ⟨c, i, ⟨T, xs, rfl, hT, harm⟩, rfl⟩
      · rintro ⟨d, i, harm, rfl⟩
        obtain ⟨T', hd, hT', harm⟩ := (Term.openArm_apply_iff rfl).1 harm
        cases (hdispatch d T').2 ⟨hd, hT'⟩
        exact ⟨i, harm, rfl⟩
  | _ =>
    refine ⟨[], rfl, fun x => ⟨by simp, ?_⟩⟩
    rintro ⟨c, i, harm, -⟩
    exact absurd harm (Term.not_openArm_of_isApp_eq_false rfl)

/-- What a problem says of the body of one procedure. -/
def InBody (env : Environment) (q : Name) (t : Term) (x : Problem) : Prop :=
  (∃ y, t.occurrences.head? = some y ∧ x = .notClosed q y) ∨
    ∃ s ∈ t.subterms, ∃ c i, s.OpenArm env c i ∧ x = .openArm q c i

/-- The check of a body finds open arms at all places of its tree, although it looks at each node
once. -/
theorem collects_bodyProblems (ha : a.WellFormed) (env : Environment) {p : Procedure} {t : Term}
    (hp : a.term? p.body = some t) : Collects (bodyProblems a env p) (InBody env p.name t) := by
  obtain ⟨nodes, hnodes, hids, hown⟩ := Arena.preorder_eq_ok ha hp
  have hvisits {x : ExprId} : x ∈ a.visits p.body ↔ ∃ m ∈ nodes, m.1 = x := by
    rw [← List.mem_eraseDups, ← hids, List.mem_map]
  have hnode (m : ExprId × Node) (hm : m ∈ nodes) :
      Collects (nodeProblems a env p.name m.2) fun x => ∃ u, a.term? m.1 = some u ∧
        ∃ c i, u.OpenArm env c i ∧ x = Problem.openArm p.name c i := by
    obtain ⟨u, -, hu⟩ := ha.mem_subterms_of_mem_visits hp (hvisits.2 ⟨m, hm, rfl⟩)
    refine (collects_nodeProblems ha env p.name (hown m hm)
      (ha.shows_of_node? hu (hown m hm))).congr fun x => ?_
    simp [hu]
  obtain ⟨found, hfound, hmem⟩ := Collects.mapM_flatten hnode
  simp only [bodyProblems, Arena.freeVars_eq_ok ha hp, hnodes, hfound, Bind.bind, Except.bind]
  refine ⟨_, rfl, fun x => ?_⟩
  rw [List.mem_append, hmem]
  refine or_congr ?_ ?_
  · cases t.occurrences with
    | nil => simp [firstOccurrences_nil]
    | cons y ys => simp [firstOccurrences_cons]
  · constructor
    · rintro ⟨m, hm, u, hu, hopen⟩
      obtain ⟨v, hv, hterm⟩ := ha.mem_subterms_of_mem_visits hp (hvisits.2 ⟨m, hm, rfl⟩)
      cases hu.symm.trans hterm
      exact ⟨u, hv, hopen⟩
    · rintro ⟨s, hs, c, i, hopen, rfl⟩
      obtain ⟨y, hy, zs, hterm⟩ := ha.exists_of_mem_subterms hp hs
      obtain ⟨m, hm, rfl⟩ := hvisits.1 hy
      exact ⟨m, hm, _, hterm, c, i, hopen.apply zs, rfl⟩

theorem collects_procedureProblems (ha : a.WellFormed) (env : Environment) (seen : List Name)
    {ps : List Procedure} (h : ∀ p ∈ ps, p.body.index < a.size) :
    Collects (procedureProblems a env seen ps) fun x =>
      (∃ c, x = .duplicate c ∧ (c ∈ seen ∧ c ∈ ps.map Procedure.name ∨
        List.Duplicate c (ps.map Procedure.name))) ∨
      ∃ p ∈ ps, ∃ t, a.term? p.body = some t ∧ InBody env p.name t x := by
  induction ps generalizing seen with
  | nil => exact ⟨[], rfl, by simp⟩
  | cons p ps ih =>
    obtain ⟨hp, hps⟩ := List.forall_mem_cons.1 h
    obtain ⟨t, ht⟩ := ha.exists_term hp
    obtain ⟨body, hbody, hinBody⟩ := collects_bodyProblems ha env ht
    obtain ⟨rest, hrest, hinRest⟩ := ih (p.name :: seen) hps
    simp only [procedureProblems, hbody, hrest, Bind.bind, Except.bind]
    refine ⟨_, rfl, fun x => ?_⟩
    have hrepeated : x ∈ (if seen.contains p.name then [Problem.duplicate p.name] else []) ↔
        ∃ c, x = .duplicate c ∧ c = p.name ∧ c ∈ seen := by
      by_cases hseen : p.name ∈ seen <;> simp [hseen]
    have hnames (c : Name) : (c = p.name ∧ c ∈ seen) ∨
        (c ∈ p.name :: seen ∧ c ∈ ps.map Procedure.name ∨
          List.Duplicate c (ps.map Procedure.name)) ↔
        c ∈ seen ∧ c ∈ (p :: ps).map Procedure.name ∨
          List.Duplicate c ((p :: ps).map Procedure.name) := by
      rw [List.map_cons, List.duplicate_cons_iff, List.mem_cons, List.mem_cons, @eq_comm _ p.name c]
      grind
    rw [List.mem_append, List.mem_append, hrepeated, hinBody, hinRest, or_or_or_comm]
    refine or_congr ?_ ?_
    · rw [← exists_or]
      refine exists_congr fun c => ?_
      rw [← and_or_left, hnames]
    · simp [ht]

/-- The check ends, and finds exactly the problems that there are. -/
theorem collects_problems (ha : a.WellFormed) (env : Environment) (input : List Procedure)
    {output : List Procedure} (h : ∀ q ∈ output, q.body.index < a.size) :
    Collects (problems a env input output) (Problem.Applies a env input output) := by
  obtain ⟨found, hfound, hmem⟩ := collects_procedureProblems ha env [] h
  simp only [problems, hfound, Bind.bind, Except.bind]
  refine ⟨_, rfl, fun x => ?_⟩
  rw [List.mem_append, mem_renamedProblems, hmem]
  constructor
  · rintro (⟨i, p, hp, hne, rfl⟩ | ⟨c, rfl, hc | hc⟩ | ⟨q, hq, t, ht, hbody⟩)
    · exact .renamed hp hne
    · simp at hc
    · exact .duplicate hc
    · rcases hbody with ⟨y, hy, rfl⟩ | ⟨s, hs, c, i, hopen, rfl⟩
      · exact .notClosed hq ht hy
      · exact .openArm hq ht hs hopen
  · intro hx
    cases hx with
    | renamed hp hne => exact .inl ⟨_, _, hp, hne, rfl⟩
    | duplicate hc => exact .inr (.inl ⟨_, rfl, .inr hc⟩)
    | notClosed hq ht hy => exact .inr (.inr ⟨_, hq, _, ht, .inl ⟨_, hy, rfl⟩⟩)
    | openArm hq ht hs hopen => exact .inr (.inr ⟨_, hq, _, ht, .inr ⟨_, hs, _, _, hopen, rfl⟩⟩)

/-- Lifted procedures are in order: those that were there before keep their places, names are
distinct, bodies are closed, and each arm of a dispatch has a lambda for each field, as far as the
arms are there and the number of fields is known. -/
structure Valid (a : Arena) (env : Environment) (input output : List Procedure) : Prop where
  kept : ∀ (i : Nat) p, input[i]? = some p → ∃ q, output[i]? = some q ∧ q.name = p.name
  nodup : (output.map Procedure.name).Nodup
  closed : ∀ q ∈ output, ∀ t, a.term? q.body = some t → t.Closed
  arms : ∀ q ∈ output, ∀ t, a.term? q.body = some t →
    ∀ c xs, (Term.global c).apply xs ∈ t.subterms →
    ∀ type T, env.kind? c = some (.dispatcher type) → env.type? type = some T →
    ∀ (i : Nat) d arm arity, T.constructors[i]? = some d → xs[1 + i]? = some arm →
      env.arity? d = some arity → T.params ≤ arity → arity - T.params ≤ arm.leading

theorem valid_iff (input output : List Procedure) :
    Valid a env input output ↔ ∀ x, ¬ Problem.Applies a env input output x := by
  constructor
  · intro h x hx
    cases hx with
    | renamed hp hne =>
      obtain ⟨q, hq, hname⟩ := h.kept _ _ hp
      exact hne (by rw [hq, Option.map_some, hname])
    | duplicate hc => exact List.nodup_iff_forall_not_duplicate.1 h.nodup _ hc
    | notClosed hq ht hy =>
      rw [show _ = [] from h.closed _ hq _ ht] at hy
      cases hy
    | openArm hq ht hs hopen =>
      obtain ⟨T, xs, rfl, ⟨type, hk, hT⟩, d, arm, k, hd, harm, hfields, hlt⟩ := hopen
      obtain ⟨arity, harity, hle, rfl⟩ := fieldCount?_eq_some_iff.1 hfields
      have hle := h.arms _ hq _ ht _ xs hs type T hk hT _ d arm arity hd harm harity hle
      omega
  · intro h
    constructor
    · intro i p hp
      by_contra hne
      refine h _ (.renamed hp fun hname => hne ?_)
      exact Option.map_eq_some_iff.1 hname
    · exact List.nodup_iff_forall_not_duplicate.2 fun c hc => h _ (.duplicate hc)
    · intro q hq t ht
      cases hocc : t.occurrences with
      | nil => exact hocc
      | cons y ys => exact absurd (.notClosed hq ht (by rw [hocc]; rfl)) (h _)
    · intro q hq t ht c xs hs type T hk hT i d arm arity hd harm harity hle
      by_contra hlt
      refine h _ (.openArm (c := c) (i := i) hq ht hs ⟨T, xs, rfl, ⟨type, hk, hT⟩, d, arm, _, hd,
        harm, fieldCount?_eq_some_iff.2 ⟨arity, harity, hle, rfl⟩, by omega⟩)

/-- The check decides whether lifted procedures are in order. -/
theorem problems_eq_nil_iff (ha : a.WellFormed) (env : Environment)
    (input output : List Procedure) (h : ∀ q ∈ output, q.body.index < a.size) :
    ∃ found, problems a env input output = .ok found ∧
      (found = [] ↔ Valid a env input output) := by
  obtain ⟨found, hfound, hmem⟩ := collects_problems ha env input h
  refine ⟨found, hfound, ?_⟩
  rw [valid_iff, List.eq_nil_iff_forall_not_mem]
  exact forall_congr' fun x => not_congr (hmem x)

/-- A type of pairs, with a constructor that has two fields. -/
def pairEnvironment : Environment where
  kind? c :=
    if c = ⟨1⟩ then some (.dispatcher ⟨3⟩) else if c = ⟨2⟩ then some .constructor
    else if c = ⟨4⟩ then some .function else none
  type? c := if c = ⟨3⟩ then some ⟨0, [⟨2⟩]⟩ else none
  arity? c := if c = ⟨2⟩ then some 2 else none

/-- The terms `λ p, Pair.casesOn p (λ x y, x)` and `λ p, g d d`, with one node for both occurrences
of the term `d`, which is `Pair.casesOn p (λ x, x)`. -/
def pairArena : Arena :=
  .ofNodes [.global ⟨1⟩, .var ⟨0⟩, .var ⟨1⟩, .lam ⟨⟨2⟩, ⟨8⟩⟩ ⟨2⟩, .lam ⟨⟨1⟩, ⟨7⟩⟩ ⟨3⟩,
    .app ⟨0⟩ [⟨1⟩, ⟨4⟩], .lam ⟨⟨0⟩, ⟨6⟩⟩ ⟨5⟩, .lam ⟨⟨1⟩, ⟨7⟩⟩ ⟨2⟩, .app ⟨0⟩ [⟨1⟩, ⟨7⟩],
    .global ⟨4⟩, .app ⟨9⟩ [⟨8⟩, ⟨8⟩], .lam ⟨⟨0⟩, ⟨6⟩⟩ ⟨10⟩] 3

/-- The first term is in order as a procedure; the second is not, since its arm binds one field. -/
theorem problems_eq_nil_iff_pairArena :
    pairArena.WellFormed ∧ Valid pairArena pairEnvironment [⟨⟨5⟩, ⟨6⟩⟩] [⟨⟨5⟩, ⟨6⟩⟩] ∧
      ¬ Valid pairArena pairEnvironment [⟨⟨5⟩, ⟨6⟩⟩] [⟨⟨5⟩, ⟨11⟩⟩] := by
  have hwf : pairArena.WellFormed := by decide +kernel
  have hfirst : problems pairArena pairEnvironment [⟨⟨5⟩, ⟨6⟩⟩] [⟨⟨5⟩, ⟨6⟩⟩] = .ok [] := by
    decide +kernel
  have hsecond : problems pairArena pairEnvironment [⟨⟨5⟩, ⟨6⟩⟩] [⟨⟨5⟩, ⟨11⟩⟩] =
      .ok [.openArm ⟨5⟩ ⟨1⟩ 0] := by decide +kernel
  obtain ⟨found, hfound, hvalid⟩ := problems_eq_nil_iff hwf pairEnvironment [⟨⟨5⟩, ⟨6⟩⟩]
    [⟨⟨5⟩, ⟨6⟩⟩] (by decide +kernel)
  obtain ⟨found', hfound', hvalid'⟩ := problems_eq_nil_iff hwf pairEnvironment [⟨⟨5⟩, ⟨6⟩⟩]
    [⟨⟨5⟩, ⟨11⟩⟩] (by decide +kernel)
  cases hfirst.symm.trans hfound
  cases hsecond.symm.trans hfound'
  exact ⟨hwf, hvalid.1 rfl, fun h => absurd (hvalid'.2 h) (by simp)⟩

end Output

end LambdaLifting
