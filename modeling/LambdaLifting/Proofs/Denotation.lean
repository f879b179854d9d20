import LambdaLifting.Arena.WellFormed
import LambdaLifting.Proofs.Runs
import LambdaLifting.Proofs.Terms

namespace LambdaLifting

theorem getElem?_of_forall₂ {α β : Type} {R : α → β → Prop} {xs : List α} {ys : List β}
    (h : List.Forall₂ R xs ys) {i : Nat} {x : α} (hx : xs[i]? = some x) :
    ∃ y, ys[i]? = some y ∧ R x y := by
  induction h generalizing i with
  | nil => simp at hx
  | cons hxy _ ih =>
    cases i with
    | zero =>
      rw [List.getElem?_cons_zero, Option.some.injEq] at hx
      exact ⟨_, List.getElem?_cons_zero, hx ▸ hxy⟩
    | succ i =>
      rw [List.getElem?_cons_succ] at hx ⊢
      exact ih hx

theorem exists_of_mem_forall₂ {α β : Type} {R : α → β → Prop} {xs : List α} {ys : List β}
    (h : List.Forall₂ R xs ys) {x : α} (hx : x ∈ xs) : ∃ y ∈ ys, R x y := by
  obtain ⟨i, hi⟩ := List.getElem?_of_mem hx
  obtain ⟨y, hy, hR⟩ := getElem?_of_forall₂ h hi
  exact ⟨y, List.mem_of_getElem? hy, hR⟩

namespace Arena

def HasChild (a : Arena) (e c : ExprId) : Prop := ∃ n, a.node? e = some n ∧ c ∈ n.children

abbrev Denote (a : Arena) : List ExprId → List Term → Prop :=
  List.Forall₂ fun e t => a.term? e = some t

/-- The tree of a node, given the trees of its children. -/
inductive Shows (a : Arena) : Node → Term → Prop where
  | var (x) : Shows a (.var x) (.var x)
  | global (c) : Shows a (.global c) (.global c)
  | lit (l) : Shows a (.lit l) (.lit l)
  | app {head args f xs} : a.term? head = some f → a.Denote args xs →
      Shows a (.app head args) (f.apply xs)
  | lam {b body t} : a.term? body = some t → Shows a (.lam b body) (.lam b t)
  | letIn {b value body v t} : a.term? value = some v → a.term? body = some t →
      Shows a (.letIn b value body) (.letIn b v t)

theorem mapM_eq_some_iff {α β : Type} {f : α → Option β} {xs : List α} {ys : List β} :
    xs.mapM f = some ys ↔ List.Forall₂ (fun x y => f x = some y) xs ys := by
  induction xs generalizing ys with
  | nil => simp [eq_comm]
  | cons x xs ih =>
    simp only [List.mapM_cons, Option.bind_eq_bind, Option.bind_eq_some_iff, Option.pure_def,
      Option.some.injEq, List.forall₂_cons_left_iff, ih]
    constructor
    · rintro ⟨y, hy, zs, hzs, rfl⟩
      exact ⟨y, zs, hy, hzs, rfl⟩
    · rintro ⟨y, zs, hy, hzs, rfl⟩
      exact ⟨y, hy, zs, hzs, rfl⟩

theorem mapM_congr {α β : Type} {f g : α → Option β} {xs : List α} (h : ∀ x ∈ xs, f x = g x) :
    xs.mapM f = xs.mapM g := by
  induction xs with
  | nil => rfl
  | cons x xs ih =>
    obtain ⟨hx, hxs⟩ := List.forall_mem_cons.1 h
    rw [List.mapM_cons, List.mapM_cons, hx, ih hxs]

theorem node?_of_term? {a : Arena} {e : ExprId} {t : Term} (h : a.term? e = some t) :
    ∃ n, a.node? e = some n := by
  cases hn : a.node? e with
  | none => simp [term?, unfold, hn] at h
  | some n => exact ⟨n, rfl⟩

theorem index_lt_of_term? {a : Arena} {e : ExprId} {t : Term} (h : a.term? e = some t) :
    e.index < a.size := by
  obtain ⟨n, hn⟩ := node?_of_term? h
  exact index_lt_of_node? hn

theorem index_lt_depthBound {a : Arena} {e : ExprId} {t : Term} (h : a.term? e = some t) :
    e.index < a.depthBound := by
  have h1 := index_lt_of_term? h
  have h2 := Nat.le_mul_self (a.size + 1)
  rw [depthBound]
  omega

theorem node_of_node? {a : Arena} {e : ExprId} {n : Node} (h : a.node? e = some n) :
    a.node e = .ok n := by
  rw [node_eq, h]

theorem Denote.unique {a : Arena} {es : List ExprId} {ts us : List Term} (ht : a.Denote es ts)
    (hu : a.Denote es us) : ts = us := by
  induction ht generalizing us with
  | nil => cases hu; rfl
  | cons h _ ih =>
    cases hu with
    | cons h' hu => rw [Option.some.inj (h.symm.trans h'), ih hu]

theorem exists_denote {a : Arena} {P : Term → Prop} {es : List ExprId}
    (h : ∀ e ∈ es, ∃ t, a.term? e = some t ∧ P t) : ∃ ts, a.Denote es ts ∧ ∀ t ∈ ts, P t := by
  induction es with
  | nil => exact ⟨[], .nil, by simp⟩
  | cons e es ih =>
    obtain ⟨⟨t, ht, hP⟩, hes⟩ := List.forall_mem_cons.1 h
    obtain ⟨ts, hts, hall⟩ := ih hes
    exact ⟨t :: ts, .cons ht hts, List.forall_mem_cons.2 ⟨hP, hall⟩⟩

theorem Denote.append {a : Arena} {ds es : List ExprId} {us vs : List Term} (h : a.Denote ds us)
    (h' : a.Denote es vs) : a.Denote (ds ++ es) (us ++ vs) :=
  List.rel_append h h'

theorem Denote.exists_append {a : Arena} {ds es : List ExprId} {ts : List Term}
    (h : a.Denote (ds ++ es) ts) :
    ∃ us vs, ts = us ++ vs ∧ a.Denote ds us ∧ a.Denote es vs := by
  induction ds generalizing ts with
  | nil => exact ⟨[], ts, rfl, .nil, h⟩
  | cons d ds ih =>
    obtain ⟨t, ts, ht, htail, rfl⟩ := List.forall₂_cons_left_iff.1 h
    obtain ⟨us, vs, rfl, hus, hvs⟩ := ih htail
    exact ⟨t :: us, vs, rfl, .cons ht hus, hvs⟩

theorem Denote.exists_concat {a : Arena} {es : List ExprId} {e : ExprId} {ts : List Term}
    (h : a.Denote (es ++ [e]) ts) :
    ∃ us u, ts = us ++ [u] ∧ a.Denote es us ∧ a.term? e = some u := by
  obtain ⟨us, vs, rfl, hus, hvs⟩ := h.exists_append
  obtain ⟨u, _, hu, hnil, rfl⟩ := List.forall₂_cons_left_iff.1 hvs
  cases hnil
  exact ⟨us, u, rfl, hus, hu⟩

theorem zip_append_of_length_eq {α β : Type} {xs : List α} {ys : List β}
    (h : xs.length = ys.length) (zs : List β) : xs.zip (ys ++ zs) = xs.zip ys := by
  conv_lhs => rw [← List.append_nil xs]
  rw [List.zip_append h, List.zip_nil_left, List.append_nil]

theorem forall₂_zip {α β γ : Type} {R : β → γ → Prop} {ys : List β} {zs : List γ}
    (h : List.Forall₂ R ys zs) (xs : List α) :
    List.Forall₂ (fun y z => y.1 = z.1 ∧ R y.2 z.2) (xs.zip ys) (xs.zip zs) := by
  induction h generalizing xs with
  | nil => simp
  | cons hyz _ ih =>
    cases xs with
    | nil => exact .nil
    | cons x xs => exact .cons ⟨rfl, hyz⟩ (ih xs)

theorem forall₂_of_append {α β : Type} {R : α → β → Prop} {ws xs : List α} {ys zs : List β}
    (hlength : ws.length = ys.length) (h : List.Forall₂ R (ws ++ xs) (ys ++ zs)) :
    List.Forall₂ R ws ys ∧ List.Forall₂ R xs zs := by
  have htake := List.forall₂_take_append _ _ _ h
  have hdrop := List.forall₂_drop_append _ _ _ h
  rw [← hlength, List.take_left] at htake
  rw [← hlength, List.drop_left] at hdrop
  exact ⟨htake, hdrop⟩

theorem Extends.denote {a b : Arena} (hab : a.Extends b) {es : List ExprId} {ts : List Term}
    (h : a.Denote es ts) : b.Denote es ts :=
  h.imp fun _ _ => hab.term?_eq_some

theorem Extends.shows {a b : Arena} (hab : a.Extends b) {n : Node} {t : Term} (h : a.Shows n t) :
    b.Shows n t := by
  cases h with
  | var x => exact .var x
  | global c => exact .global c
  | lit l => exact .lit l
  | app hf hxs => exact .app (hab.term?_eq_some hf) (hab.denote hxs)
  | lam ht => exact .lam (hab.term?_eq_some ht)
  | letIn hv ht => exact .letIn (hab.term?_eq_some hv) (hab.term?_eq_some ht)

namespace WellFormed

variable {a : Arena} {e : ExprId} {n : Node} {t : Term}

/-- Any fuel above the index of a node gives the same tree. -/
theorem unfold_eq_term? (ha : a.WellFormed) {k : Nat} (hk : e.index < k) :
    a.unfold k e = a.term? e := by
  by_cases he : e.index < a.size
  · obtain ⟨t, ht⟩ := ha.exists_term he
    rw [ht]
    exact unfold_eq_some_of_extends (.refl a) hk ht
  · have hn := node?_eq_none (Nat.not_lt.1 he)
    obtain ⟨k, rfl⟩ := Nat.exists_eq_add_one_of_ne_zero (by omega : k ≠ 0)
    simp [term?, unfold, hn]

theorem term?_eq_some_iff (ha : a.WellFormed) :
    a.term? e = some t ↔ ∃ n, a.node? e = some n ∧ a.Shows n t := by
  have child {n : Node} (hn : a.node? e = some n) (c : ExprId) (hc : c ∈ n.children) :
      a.unfold e.index c = a.term? c :=
    ha.unfold_eq_term? (ha.child_lt hn c hc)
  rw [show a.term? e = a.unfold (e.index + 1) e from rfl]
  cases hn : a.node? e with
  | none => simp [unfold, hn]
  | some n =>
    simp only [Option.some.injEq, exists_eq_left']
    cases n with
    | var x =>
      simp only [unfold, hn, Option.bind_eq_bind, Option.bind_some]
      exact ⟨fun h => Option.some.inj h ▸ .var x, fun h => by cases h; rfl⟩
    | global c =>
      simp only [unfold, hn, Option.bind_eq_bind, Option.bind_some]
      exact ⟨fun h => Option.some.inj h ▸ .global c, fun h => by cases h; rfl⟩
    | lit l =>
      simp only [unfold, hn, Option.bind_eq_bind, Option.bind_some]
      exact ⟨fun h => Option.some.inj h ▸ .lit l, fun h => by cases h; rfl⟩
    | app head args =>
      have hargs : args.mapM (a.unfold e.index) = args.mapM a.term? :=
        mapM_congr fun x hx => child hn x (List.mem_cons_of_mem _ hx)
      simp only [unfold, hn, Option.bind_eq_bind, Option.bind_some,
        child hn head (List.mem_cons_self ..), hargs, Option.bind_eq_some_iff, Option.pure_def,
        Option.some.injEq]
      constructor
      · rintro ⟨f, hf, xs, hxs, rfl⟩
        exact .app hf (mapM_eq_some_iff.1 hxs)
      · intro h
        cases h with
        | app hf hxs => exact ⟨_, hf, _, mapM_eq_some_iff.2 hxs, rfl⟩
    | lam b body =>
      simp only [unfold, hn, Option.bind_eq_bind, Option.bind_some,
        child hn body (List.mem_cons_self ..), Option.bind_eq_some_iff, Option.pure_def,
        Option.some.injEq]
      constructor
      · rintro ⟨u, hu, rfl⟩
        exact .lam hu
      · intro h
        cases h with
        | lam hu => exact ⟨_, hu, rfl⟩
    | letIn b value body =>
      simp only [unfold, hn, Option.bind_eq_bind, Option.bind_some,
        child hn value (List.mem_cons_self ..), child hn body (by simp [Node.children]),
        Option.bind_eq_some_iff, Option.pure_def, Option.some.injEq]
      constructor
      · rintro ⟨v, hv, u, hu, rfl⟩
        exact .letIn hv hu
      · intro h
        cases h with
        | letIn hv hu => exact ⟨_, hv, _, hu, rfl⟩

theorem term?_of_node? (ha : a.WellFormed) (hn : a.node? e = some n) (h : a.Shows n t) :
    a.term? e = some t :=
  ha.term?_eq_some_iff.2 ⟨n, hn, h⟩

theorem shows_of_node? (ha : a.WellFormed) (ht : a.term? e = some t) (hn : a.node? e = some n) :
    a.Shows n t := by
  obtain ⟨m, hm, h⟩ := ha.term?_eq_some_iff.1 ht
  exact Option.some.inj (hm.symm.trans hn) ▸ h

theorem exists_eq_app (ha : a.WellFormed) (ht : a.term? e = some t) {head : ExprId}
    {args : List ExprId} (hn : a.node? e = some (.app head args)) : ∃ f x, t = .app f x := by
  cases ha.shows_of_node? ht hn with
  | @app _ _ f xs hf hxs =>
    have hne : xs ≠ [] := fun h => ha.args_ne_nil hn (by cases h; cases hxs; rfl)
    exact f.exists_apply_eq_app hne

theorem isLambda_eq (ha : a.WellFormed) (ht : a.term? e = some t) (hn : a.node? e = some n) :
    t.isLambda = n.isLambda := by
  cases ha.shows_of_node? ht hn with
  | app =>
    obtain ⟨f, x, h⟩ := ha.exists_eq_app ht hn
    rw [h]
    rfl
  | _ => rfl

theorem ne_letIn (ha : a.WellFormed) (ht : a.term? e = some t) (hn : a.node? e = some n)
    (h : ∀ b value body, n ≠ .letIn b value body) (b : Binder) (v u : Term) : t ≠ .letIn b v u := by
  cases ha.shows_of_node? ht hn with
  | app =>
    obtain ⟨f, x, heq⟩ := ha.exists_eq_app ht hn
    simp [heq]
  | letIn => exact absurd rfl (h _ _ _)
  | _ => simp

theorem isApp_eq_false (ha : a.WellFormed) (ht : a.term? e = some t) (hn : a.node? e = some n)
    (h : ∀ head args, n ≠ .app head args) : t.isApp = false := by
  cases ha.shows_of_node? ht hn with
  | app => exact absurd rfl (h _ _)
  | _ => rfl

/-- The head of an application is no application, and there are arguments. -/
theorem spine_of_node? (ha : a.WellFormed) {head : ExprId} {args : List ExprId}
    (hn : a.node? e = some (.app head args)) {f : Term} {xs : List Term}
    (hf : a.term? head = some f) (hxs : a.Denote args xs) : f.isApp = false ∧ xs ≠ [] := by
  obtain ⟨m, hm⟩ := node?_of_term? hf
  refine ⟨ha.isApp_eq_false hf hm fun inner init heq => ha.head_flat hn inner init (heq ▸ hm), ?_⟩
  rintro rfl
  cases hxs
  exact ha.args_ne_nil hn rfl

end WellFormed

/-- The node of a tree, by the shape of the tree. -/
def Stores (a : Arena) (e : ExprId) : Term → Prop
  | .var x => a.node? e = some (.var x)
  | .global c => a.node? e = some (.global c)
  | .lit l => a.node? e = some (.lit l)
  | .app f x => ∃ head args g xs, a.node? e = some (.app head args) ∧ a.term? head = some g ∧
      a.Denote args xs ∧ Term.app f x = g.apply xs
  | .lam b t => ∃ body, a.node? e = some (.lam b body) ∧ a.term? body = some t
  | .letIn b v t => ∃ value body, a.node? e = some (.letIn b value body) ∧
      a.term? value = some v ∧ a.term? body = some t

theorem WellFormed.stores {a : Arena} (ha : a.WellFormed) {e : ExprId} {t : Term}
    (he : a.term? e = some t) : a.Stores e t := by
  obtain ⟨n, hn⟩ := node?_of_term? he
  cases ha.shows_of_node? he hn with
  | var x => exact hn
  | global c => exact hn
  | lit l => exact hn
  | @app head args f xs hf hxs =>
    obtain ⟨g, x, happ⟩ := f.exists_apply_eq_app (ha.spine_of_node? hn hf hxs).2
    rw [happ]
    exact ⟨head, args, f, xs, hn, hf, hxs, happ.symm⟩
  | lam hu => exact ⟨_, hn, hu⟩
  | letIn hv hu => exact ⟨_, _, hn, hv, hu⟩

/-- Nodes were added and no variables were handed out. -/
structure Grows (a b : Arena) : Prop where
  isExtension : a.Extends b
  wellFormed : b.WellFormed
  nextLocal_eq : b.nextLocal = a.nextLocal

namespace Grows

theorem refl {a : Arena} (ha : a.WellFormed) : a.Grows a := ⟨.refl a, ha, rfl⟩

theorem trans {a b c : Arena} (hab : a.Grows b) (hbc : b.Grows c) : a.Grows c :=
  ⟨hab.isExtension.trans hbc.isExtension, hbc.wellFormed, hbc.nextLocal_eq.trans hab.nextLocal_eq⟩

end Grows

theorem Denote.index_lt {a : Arena} {es : List ExprId} {ts : List Term} (h : a.Denote es ts) :
    ∀ e ∈ es, e.index < a.size := by
  induction h with
  | nil => simp
  | cons h _ ih => exact List.forall_mem_cons.2 ⟨index_lt_of_term? h, ih⟩

theorem Shows.child_lt {a : Arena} {n : Node} {t : Term} (h : a.Shows n t) :
    ∀ c ∈ n.children, c.index < a.size := by
  cases h with
  | var | global | lit => simp [Node.children]
  | app hf hxs => exact List.forall_mem_cons.2 ⟨index_lt_of_term? hf, hxs.index_lt⟩
  | lam ht => simpa [Node.children] using index_lt_of_term? ht
  | letIn hv ht => simpa [Node.children] using ⟨index_lt_of_term? hv, index_lt_of_term? ht⟩

end Arena

namespace ArenaM

/-- A computation stores nodes and returns one that stands for `t`. -/
def Builds (x : ArenaM ExprId) (a : Arena) (t : Term) : Prop :=
  Yields x a fun e b => a.Grows b ∧ b.term? e = some t

variable {a : Arena}

theorem bind_of_eq_ok {α β : Type} {x : ArenaM α} {f : α → ArenaM β} {b : Arena} {v : α}
    (h : x a = .ok (v, b)) : (x >>= f) a = f v b := by
  simp only [Bind.bind, StateT.bind, Except.bind, h]

theorem ask_eq_ok {α : Type} {f : Arena → Except Fault α} {v : α} (h : f a = .ok v) :
    ask f a = .ok (v, a) := by
  rw [ask, h]
  rfl

theorem node_eq_ok {e : ExprId} {n : Node} (h : a.node? e = some n) :
    node e a = .ok (n, a) :=
  ask_eq_ok (Arena.node_of_node? h)

theorem yields_node {e : ExprId} {n : Node} (h : a.node? e = some n) :
    Yields (node e) a fun m b => n = m ∧ a = b :=
  ⟨n, a, node_eq_ok h, rfl, rfl⟩

theorem yields_node_bind {α : Type} {e : ExprId} {n : Node} (h : a.node? e = some n)
    {f : Node → ArenaM α} {Q : α → Arena → Prop} (hf : Yields (f n) a Q) :
    Yields (node e >>= f) a Q := by
  refine (yields_node h).bind ?_
  rintro _ _ ⟨rfl, rfl⟩
  exact hf

theorem builds_pure (ha : a.WellFormed) {e : ExprId} {t : Term} (h : a.term? e = some t) :
    Builds (pure e) a t :=
  .pure ⟨.refl ha, h⟩

theorem builds_push_of_fits (ha : a.WellFormed) {n : Node} {t : Term} (hn : a.Fits n)
    (h : a.Shows n t) : Builds (push n) a t := by
  have hb := ha.push hn
  have hext := Arena.extends_push a n
  refine ⟨_, _, rfl, ⟨hext, hb, rfl⟩, ?_⟩
  refine hb.term?_of_node? ?_ (hext.shows h)
  rw [Arena.node?_push]
  exact if_pos rfl

/-- Nodes other than applications can be stored as soon as their children are. -/
theorem builds_push (ha : a.WellFormed) {n : Node} {t : Term} (h : a.Shows n t)
    (hn : ∀ head args, n ≠ .app head args) : Builds (push n) a t :=
  builds_push_of_fits ha ⟨h.child_lt, fun head args e => absurd e (hn head args),
    fun head args e => absurd e (hn head args)⟩ h

theorem yields_newBinder (ha : a.WellFormed) (name : Name) :
    Yields (newBinder name) a fun b c => b = ⟨⟨a.nextLocal⟩, name⟩ ∧ a.Extends c ∧ c.WellFormed ∧
      c.nextLocal = a.nextLocal + 1 :=
  ⟨_, { a with nextLocal := a.nextLocal + 1 }, rfl, rfl,
    Arena.extends_nextLocal (Nat.le_succ _), ⟨ha.child_lt, ha.args_ne_nil, ha.head_flat⟩, rfl⟩

theorem builds_mkVar (ha : a.WellFormed) (x : LocalId) : Builds (mkVar x) a (.var x) :=
  builds_push ha (.var x) (by simp)

theorem builds_mkApp (ha : a.WellFormed) {head : ExprId} {args : List ExprId} {f : Term}
    {xs : List Term} (hf : a.term? head = some f) (hxs : a.Denote args xs) :
    Builds (mkApp head args) a (f.apply xs) := by
  cases hxs with
  | nil => exact builds_pure ha hf
  | @cons e x es xs he hes =>
    obtain ⟨n, hn⟩ := Arena.node?_of_term? hf
    refine yields_node_bind hn ?_
    have hall : a.Denote (e :: es) (x :: xs) := .cons he hes
    cases n with
    | app inner init =>
      cases ha.shows_of_node? hf hn with
      | app hg hys =>
        rw [← Term.apply_append]
        have hshows := Arena.Shows.app hg (hys.append hall)
        refine builds_push_of_fits ha ⟨hshows.child_lt, ?_, ?_⟩ hshows
        · rintro _ _ ⟨⟩; simp
        · rintro _ _ ⟨⟩; exact ha.head_flat hn
    | _ =>
      have hshows := Arena.Shows.app hf hall
      refine builds_push_of_fits ha ⟨hshows.child_lt, ?_, ?_⟩ hshows
      · rintro _ _ ⟨⟩; simp
      · rintro _ _ ⟨⟩; simp [hn]

theorem builds_mkLambdas (ha : a.WellFormed) {body : ExprId} {t : Term}
    (ht : a.term? body = some t) (bs : List Binder) :
    Builds (mkLambdas bs body) a (Term.lambdas bs t) := by
  induction bs with
  | nil => exact builds_pure ha ht
  | cons b bs ih =>
    rw [mkLambdas, List.foldrM_cons]
    refine Yields.bind ih fun e b ⟨hab, he⟩ => ?_
    refine (builds_push hab.wellFormed (.lam he) (by simp)).imp fun _ _ ⟨hbc, h⟩ => ?_
    exact ⟨hab.trans hbc, h⟩

theorem builds_mkLets (ha : a.WellFormed) {body : ExprId} {t : Term} (ht : a.term? body = some t)
    {ds : List (Binder × ExprId)} {us : List (Binder × Term)}
    (hds : List.Forall₂ (fun d u => d.1 = u.1 ∧ a.term? d.2 = some u.2) ds us) :
    Builds (mkLets ds body) a (Term.lets us t) := by
  induction hds with
  | nil => exact builds_pure ha ht
  | cons h _ ih =>
    rw [mkLets, List.foldrM_cons]
    refine Yields.bind ih fun e b ⟨hab, he⟩ => ?_
    have hv := hab.isExtension.term?_eq_some h.2
    refine (builds_push hab.wellFormed (.letIn hv he) (by simp)).imp fun _ _ ⟨hbc, h'⟩ => ?_
    rw [h.1] at h'
    exact ⟨hab.trans hbc, h'⟩

end ArenaM

end LambdaLifting
