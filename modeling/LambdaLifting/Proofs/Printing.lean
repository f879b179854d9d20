import LambdaLifting.Proofs.Readability
import LambdaLifting.Proofs.Traversal

namespace LambdaLifting

def Prints (x : Except Fault String) (cs : List Char) : Prop := ∃ s, x = .ok s ∧ s.toList = cs

theorem Prints.bind {x : Except Fault String} {f : String → Except Fault String}
    {cs ds : List Char} (hx : Prints x cs) (hf : ∀ s, s.toList = cs → Prints (f s) ds) :
    Prints (x >>= f) ds := by
  obtain ⟨s, rfl, hs⟩ := hx
  exact hf s hs

theorem prints_pure {s : String} {cs : List Char} (h : s.toList = cs) : Prints (pure s) cs :=
  ⟨s, rfl, h⟩

theorem forall₂_imp_of_mem {α β : Type} {R S : α → β → Prop} {xs : List α} {ys : List β}
    (h : List.Forall₂ R xs ys) (hRS : ∀ x ∈ xs, ∀ y ∈ ys, R x y → S x y) :
    List.Forall₂ S xs ys := by
  induction h with
  | nil => exact .nil
  | cons hxy _ ih =>
    refine .cons (hRS _ List.mem_cons_self _ List.mem_cons_self hxy) (ih fun x hx y hy => ?_)
    exact hRS x (List.mem_cons_of_mem _ hx) y (List.mem_cons_of_mem _ hy)

theorem forall₂_of_common {α β γ : Type} {R : γ → α → Prop} {S : γ → β → Prop} {Q : α → β → Prop}
    {xs : List α} {ys : List β} {zs : List γ} (hx : List.Forall₂ R zs xs)
    (hy : List.Forall₂ S zs ys) (hQ : ∀ z ∈ zs, ∀ x ∈ xs, ∀ y, R z x → S z y → Q x y) :
    List.Forall₂ Q xs ys := by
  induction hx generalizing ys with
  | nil =>
    cases hy
    exact .nil
  | cons hxz _ ih =>
    cases hy with
    | cons hyz hys =>
      refine .cons (hQ _ List.mem_cons_self _ List.mem_cons_self _ hxz hyz)
        (ih hys fun z hz x hx => ?_)
      exact hQ z (List.mem_cons_of_mem _ hz) x (List.mem_cons_of_mem _ hx)

theorem exists_mapM_of_prints {α β : Type} {f : α → Except Fault String} {g : β → List Char}
    {xs : List α} {ys : List β} (h : List.Forall₂ (fun x y => Prints (f x) (g y)) xs ys) :
    ∃ ss, xs.mapM f = .ok ss ∧ ss.map String.toList = ys.map g := by
  induction h with
  | nil => exact ⟨[], rfl, rfl⟩
  | cons hxy _ ih =>
    obtain ⟨s, hs, hy⟩ := hxy
    obtain ⟨ss, hss, hys⟩ := ih
    refine ⟨s :: ss, ?_, by rw [List.map_cons, List.map_cons, hy, hys]⟩
    rw [List.mapM_cons, hs, hss]
    rfl

theorem toList_intercalate_cons (w : String) (ws : List String) :
    (" ".intercalate (w :: ws)).toList = w.toList ++ ws.flatMap fun v => ' ' :: v.toList := by
  induction ws generalizing w with
  | nil => simp
  | cons v ws ih => simp_all

theorem toList_parenthesizeIf {p : Position} {t : Term} {q : Bool} {s : String} {cs : List Char}
    (hq : p.encloses t = q) (hs : s.toList = cs) :
    (parenthesizeIf q s).toList = p.enclose t cs := by
  rw [Position.enclose, hq]
  cases q <;> simp [parenthesizeIf, hs]

namespace Arena

variable {a : Arena} {names : NameTable} {around : Around} {e : ExprId} {t : Term}

theorem prints_text {c : Name} {s : String} (h : names.text? c = some s) :
    Prints (names.text c) (names.spelling c) :=
  ⟨s, NameTable.text_of_text? h, (NameTable.spelling_of_text? h).symm⟩

theorem prints_binderText {b : Binder} (h : names.Plain b.name) :
    Prints (binderText names b) (Term.spellBinder names b) := by
  obtain ⟨s, hs, -⟩ := h
  refine (prints_text hs).bind fun s hs => prints_pure ?_
  simp [Term.spellBinder, hs]

theorem prints_varText (ha : around.Plain names) (x : LocalId) :
    Prints (varText names around x) ((Term.var x).spell names around) := by
  rw [varText, Term.spell]
  cases hx : around[x]? with
  | some name =>
    have hname : names.Plain (⟨x, name⟩ : Binder).name := ha x name hx
    exact prints_binderText hname
  | none => exact prints_pure (by simp [LocalId.text])

theorem prints_literalText {l : Literal} (hl : (Term.lit l).Legible names) :
    Prints (literalText names l) (Term.spellLiteral names l) := by
  cases l with
  | nat n => exact prints_pure (by simp [Term.spellLiteral])
  | str x =>
    obtain ⟨s, hs⟩ := hl
    refine ⟨Text.quote s, ?_, ?_⟩
    · rw [literalText, NameTable.text_of_text? hs]
      rfl
    · rw [Term.spellLiteral, hs, Option.getD_some]

theorem enclose_of_isAtom (p : Position) (ht : t.isAtom = true) (cs : List Char) :
    p.enclose t cs = cs := by
  cases p <;> simp [Position.enclose, Position.encloses, ht]

/-- Parentheses are all that the place of a term changes in its text. -/
theorem WellFormed.prints_printFrom (ha : a.WellFormed) (he : a.term? e = some t) {fuel : Nat}
    (hfuel : e.index < fuel) (hl : t.Legible names) (p : Position) (hp : around.Plain names) :
    Prints (a.printFrom names fuel p around e) (p.enclose t (t.spell names around)) := by
  refine ha.term_induction (P := fun e t => ∀ {fuel : Nat}, e.index < fuel → t.Legible names →
    ∀ (p : Position) {around : Around}, around.Plain names →
      Prints (a.printFrom names fuel p around e) (p.enclose t (t.spell names around))) ?_ he hfuel
      hl p hp
  intro e n t hn hshows ih fuel hfuel hl p around hp
  obtain ⟨k, rfl⟩ : ∃ k, fuel = k + 1 := ⟨fuel - 1, by omega⟩
  have hchild : ∀ c ∈ n.children, c.index < k := fun c hc => by
    have := ha.child_lt hn c hc
    omega
  rw [printFrom, node_of_node? hn]
  cases hshows with
  | var x =>
    rw [enclose_of_isAtom p rfl]
    exact prints_varText hp x
  | global c =>
    obtain ⟨s, hs, -⟩ := hl.1
    rw [enclose_of_isAtom p rfl]
    exact prints_text hs
  | lit l =>
    rw [enclose_of_isAtom p rfl]
    exact prints_literalText hl
  | @app head args f xs hf hxs =>
    obtain ⟨hflat, hne⟩ := ha.spine_of_node? hn hf hxs
    obtain ⟨hlf, hlxs⟩ := Term.legible_apply.1 hl
    have hhead := ih head (by simp [Node.children]) f hf (hchild head (by simp [Node.children])) hlf
      .head hp
    have hargs : List.Forall₂ (fun e x => Prints (a.printFrom names k .arg around e)
        (x.spellArg names around)) args xs :=
      forall₂_imp_of_mem hxs fun c hc x hx hterm => ih c (by simp [Node.children, hc]) x hterm
        (hchild c (by simp [Node.children, hc])) (hlxs x hx) .arg hp
    obtain ⟨ss, hss, hmap⟩ := exists_mapM_of_prints hargs
    refine hhead.bind fun s hs => ?_
    rw [hss]
    refine prints_pure (toList_parenthesizeIf ?_ ?_)
    · cases p <;> simp [Position.encloses, Term.isApp_apply f hne, Term.isAtom_apply f hne]
    · rw [toList_intercalate_cons, hs, Term.enclose_head hflat,
        Term.spell_apply hflat fun hnil => absurd hnil hne, Term.spellArgs]
      have htail := congrArg (List.flatMap (' ' :: ·)) hmap
      rw [List.flatMap_map, List.flatMap_map] at htail
      rw [htail]
  | @lam b body u hu =>
    have hbody := ih body (by simp [Node.children]) u hu (hchild body (by simp [Node.children]))
      hl.2 .top (hp.insert hl.1)
    refine (prints_binderText hl.1).bind fun x hx => hbody.bind fun s hs => ?_
    refine prints_pure (toList_parenthesizeIf ?_ ?_)
    · cases p <;> rfl
    · simp [hx, hs, Term.spell, Position.enclose, Position.encloses]
  | @letIn b value body v u hv hu =>
    have hvalue := ih value (by simp [Node.children]) v hv (hchild value (by simp [Node.children]))
      hl.2.1 .top hp
    have hbody := ih body (by simp [Node.children]) u hu (hchild body (by simp [Node.children]))
      hl.2.2 .top (hp.insert hl.1)
    refine (prints_binderText hl.1).bind fun x hx => hvalue.bind fun r hr =>
      hbody.bind fun s hs => ?_
    refine prints_pure (toList_parenthesizeIf ?_ ?_)
    · cases p <;> rfl
    · simp [hx, hr, hs, Term.spell, Position.enclose, Position.encloses]

/-- Two expressions are the same node by node, with the same arguments in the same groups. -/
inductive Alike (a : Arena) : ExprId → ExprId → Prop where
  | var {d e x} : a.node? d = some (.var x) → a.node? e = some (.var x) → Alike a d e
  | global {d e c} : a.node? d = some (.global c) → a.node? e = some (.global c) → Alike a d e
  | lit {d e l} : a.node? d = some (.lit l) → a.node? e = some (.lit l) → Alike a d e
  | app {d e f g xs ys} : a.node? d = some (.app f xs) → a.node? e = some (.app g ys) →
      Alike a f g → List.Forall₂ (Alike a) xs ys → Alike a d e
  | lam {d e b t u} : a.node? d = some (.lam b t) → a.node? e = some (.lam b u) →
      Alike a t u → Alike a d e
  | letIn {d e b v w t u} : a.node? d = some (.letIn b v t) → a.node? e = some (.letIn b w u) →
      Alike a v w → Alike a t u → Alike a d e

/-- Arguments are grouped in one way only, so that the tree tells the nodes. -/
theorem WellFormed.alike_of_term? (ha : a.WellFormed) {d : ExprId} (hd : a.term? d = some t)
    (he : a.term? e = some t) : a.Alike d e := by
  refine ha.term_induction (P := fun d t => ∀ {e}, a.term? e = some t → a.Alike d e) ?_ hd he
  intro d m t hm hshows ih e he
  cases hshows with
  | var x => exact .var hm (ha.stores he)
  | global c => exact .global hm (ha.stores he)
  | lit l => exact .lit hm (ha.stores he)
  | @app head args f xs hf hxs =>
    obtain ⟨hflat, hne⟩ := ha.spine_of_node? hm hf hxs
    obtain ⟨g, x, happ⟩ := f.exists_apply_eq_app hne
    rw [happ] at he
    obtain ⟨head', args', f', ys, hn, hf', hys, heq⟩ := ha.stores he
    obtain ⟨rfl, rfl⟩ := Term.apply_inj hflat (ha.spine_of_node? hn hf' hys).1 (happ.trans heq)
    refine .app hm hn (ih head (by simp [Node.children]) f hf hf') ?_
    exact forall₂_of_common (R := fun x c => a.term? c = some x)
      (S := fun x d => a.term? d = some x) hxs.flip hys.flip
      fun x _ c hc d hx hd => ih c (by simp [Node.children, hc]) x hx hd
  | @lam b body u hu =>
    obtain ⟨body', hn, hu'⟩ := ha.stores he
    exact .lam hm hn (ih body (by simp [Node.children]) u hu hu')
  | @letIn b value body v u hv hu =>
    obtain ⟨value', body', hn, hv', hu'⟩ := ha.stores he
    exact .letIn hm hn (ih value (by simp [Node.children]) v hv hv')
      (ih body (by simp [Node.children]) u hu hu')

theorem WellFormed.term?_of_alike (ha : a.WellFormed) {d : ExprId} (hd : a.term? d = some t)
    (h : a.Alike d e) : a.term? e = some t := by
  refine ha.term_induction (P := fun d t => ∀ {e}, a.Alike d e → a.term? e = some t) ?_ hd h
  intro d m t hm hshows ih e h
  cases h with
  | var hd he =>
    cases hm.symm.trans hd
    cases hshows
    exact ha.term?_of_node? he (.var _)
  | global hd he =>
    cases hm.symm.trans hd
    cases hshows
    exact ha.term?_of_node? he (.global _)
  | lit hd he =>
    cases hm.symm.trans hd
    cases hshows
    exact ha.term?_of_node? he (.lit _)
  | app hd he hhead hargs =>
    cases hm.symm.trans hd
    cases hshows with
    | app hf hxs =>
      refine ha.term?_of_node? he (.app (ih _ (by simp [Node.children]) _ hf hhead) ?_)
      exact forall₂_of_common hargs hxs fun c hc d _ x hcd hx =>
        ih c (by simp [Node.children, hc]) x hx hcd
  | lam hd he hbody =>
    cases hm.symm.trans hd
    cases hshows with
    | lam hu => exact ha.term?_of_node? he (.lam (ih _ (by simp [Node.children]) _ hu hbody))
  | letIn hd he hvalue hbody =>
    cases hm.symm.trans hd
    cases hshows with
    | letIn hv hu =>
      exact ha.term?_of_node? he (.letIn (ih _ (by simp [Node.children]) _ hv hvalue)
        (ih _ (by simp [Node.children]) _ hu hbody))

end Arena

/-- What a node shows under a name is a word of letters and dots, and no keyword. -/
def Node.Legible (names : NameTable) : Node → Prop
  | .var _ | .app _ _ | .lit (.nat _) => True
  | .global c => names.Plain c ∧ names.text? c ≠ some "fun" ∧ names.text? c ≠ some "let"
  | .lit (.str s) => ∃ text, names.text? s = some text
  | .lam b _ | .letIn b _ _ => names.Plain b.name

instance (names : NameTable) : (n : Node) → Decidable (n.Legible names)
  | .var _ | .app _ _ | .lit (.nat _) => inferInstanceAs (Decidable True)
  | .global c => inferInstanceAs (Decidable (names.Plain c ∧ _))
  | .lit (.str s) =>
    decidable_of_iff (names.text? s).isSome Option.isSome_iff_exists
  | .lam b _ | .letIn b _ _ => inferInstanceAs (Decidable (names.Plain b.name))

namespace Arena

variable {a : Arena} {names : NameTable} {d e : ExprId} {t : Term}

/-- All names that are shown in the text of an expression can be read. -/
def Legible (a : Arena) (names : NameTable) (e : ExprId) : Prop :=
  ∀ x ∈ a.visits e, ∀ n ∈ a.node? x, n.Legible names

instance (a : Arena) (names : NameTable) (e : ExprId) : Decidable (a.Legible names e) :=
  inferInstanceAs (Decidable (∀ x ∈ a.visits e, ∀ n ∈ a.node? x, n.Legible names))

theorem WellFormed.legible_child (ha : a.WellFormed) {n : Node} (hn : a.node? e = some n)
    (h : a.Legible names e) {c : ExprId} (hc : c ∈ n.children) : a.Legible names c :=
  fun x hx => h x ((ha.mem_visits_iff hn).2 (.inr ⟨c, hc, hx⟩))

theorem WellFormed.legible_of_term? (ha : a.WellFormed) (he : a.term? e = some t)
    (h : a.Legible names e) : t.Legible names := by
  refine ha.term_induction (P := fun e t => a.Legible names e → t.Legible names) ?_ he h
  intro e n t hn hshows ih h
  have hnode := h e ((ha.mem_visits_iff hn).2 (.inl rfl)) n hn
  have hchild := fun c hc u hu => ih c hc u hu (ha.legible_child hn h hc)
  cases hshows with
  | var x => trivial
  | global c => exact hnode
  | lit l => cases l <;> exact hnode
  | @app head args f xs hf hxs =>
    refine Term.legible_apply.2 ⟨hchild head (by simp [Node.children]) f hf, fun x hx => ?_⟩
    obtain ⟨c, hc, hterm⟩ := exists_of_mem_forall₂ hxs.flip hx
    exact hchild c (by simp [Node.children, hc]) x hterm
  | lam hu => exact ⟨hnode, hchild _ (by simp [Node.children]) _ hu⟩
  | letIn hv hu =>
    exact ⟨hnode, hchild _ (by simp [Node.children]) _ hv, hchild _ (by simp [Node.children]) _ hu⟩

theorem WellFormed.prints_print (ha : a.WellFormed) (he : a.term? e = some t)
    (h : a.Legible names e) : Prints (a.print names e) (t.spell names ∅) :=
  ha.prints_printFrom he (index_lt_depthBound he) (ha.legible_of_term? he h) .top
    (by simp [Around.Plain])

/-- Printing legible expressions succeeds, and two of them have one text if and only if they are the
same node by node. -/
theorem print_eq_iff_alike (ha : a.WellFormed) (hd : d.index < a.size) (he : e.index < a.size)
    (hld : a.Legible names d) (hle : a.Legible names e) :
    ∃ s s', a.print names d = .ok s ∧ a.print names e = .ok s' ∧ (s = s' ↔ a.Alike d e) := by
  obtain ⟨t, ht⟩ := ha.exists_term hd
  obtain ⟨u, hu⟩ := ha.exists_term he
  obtain ⟨s, hs, htext⟩ := ha.prints_print ht hld
  obtain ⟨s', hs', htext'⟩ := ha.prints_print hu hle
  refine ⟨s, s', hs, hs', ?_, ?_⟩
  · rintro rfl
    have htu := Term.spell_inj (ha.legible_of_term? ht hld) (ha.legible_of_term? hu hle)
      (htext.symm.trans htext')
    exact ha.alike_of_term? ht (htu ▸ hu)
  · intro h
    obtain rfl : t = u := Option.some.inj ((ha.term?_of_alike ht h).symm.trans hu)
    exact String.toList_inj.1 (htext.trans htext'.symm)

/-- Two copies of a local definition with another one in its value. -/
def copiesArena : Arena :=
  .ofNodes [.var ⟨1⟩, .lit (.str ⟨3⟩), .letIn ⟨⟨1⟩, ⟨2⟩⟩ ⟨1⟩ ⟨0⟩, .var ⟨0⟩, .var ⟨2⟩,
    .app ⟨3⟩ [⟨4⟩], .lam ⟨⟨2⟩, ⟨2⟩⟩ ⟨5⟩, .global ⟨1⟩, .var ⟨3⟩, .lit (.nat 3),
    .app ⟨7⟩ [⟨6⟩, ⟨8⟩, ⟨9⟩], .letIn ⟨⟨0⟩, ⟨2⟩⟩ ⟨2⟩ ⟨10⟩, .var ⟨0⟩, .app ⟨12⟩ [⟨4⟩],
    .lam ⟨⟨2⟩, ⟨2⟩⟩ ⟨13⟩, .app ⟨7⟩ [⟨14⟩, ⟨8⟩, ⟨9⟩], .letIn ⟨⟨0⟩, ⟨2⟩⟩ ⟨2⟩ ⟨15⟩] 4

def copiesNames : NameTable :=
  ["Nat.add", "x", "\""].foldl (fun s text => (s.intern text).2) .initial

theorem print_copiesArena : copiesArena.WellFormed ∧ copiesArena.Legible copiesNames ⟨11⟩ ∧
    copiesArena.Legible copiesNames ⟨16⟩ ∧
    copiesArena.print copiesNames ⟨11⟩ =
      .ok "let x_0 := let x_1 := \"\\\"\"; x_1; Nat.add (fun x_2 => x_0 x_2) _#3 3" ∧
    copiesArena.Alike ⟨11⟩ ⟨16⟩ := by
  have hwf : copiesArena.WellFormed := by decide +kernel
  have hd : copiesArena.Legible copiesNames ⟨11⟩ := by decide +kernel
  have he : copiesArena.Legible copiesNames ⟨16⟩ := by decide +kernel
  have htext : copiesArena.print copiesNames ⟨11⟩ =
      .ok "let x_0 := let x_1 := \"\\\"\"; x_1; Nat.add (fun x_2 => x_0 x_2) _#3 3" := by
    decide +kernel
  have hsame : copiesArena.print copiesNames ⟨11⟩ = copiesArena.print copiesNames ⟨16⟩ := by
    decide +kernel
  obtain ⟨s, s', hs, hs', hiff⟩ :=
    print_eq_iff_alike (d := ⟨11⟩) (e := ⟨16⟩) hwf (by decide) (by decide) hd he
  rw [hs, hs'] at hsame
  exact ⟨hwf, hd, he, htext, hiff.1 (Except.ok.inj hsame)⟩

end Arena

end LambdaLifting
