import LambdaLifting.Proofs.Alpha
import LambdaLifting.Proofs.Capture
import Mathlib.Data.Finset.Basic

namespace LambdaLifting

namespace Term

variable {t v : Term} {x y : LocalId}

theorem mem_occurrences_substitute_of_eq_none {s : Replacement} (hx : x ∈ t.occurrences)
    (hs : s x = none) : x ∈ (t.substitute s).occurrences := by
  have hide (b : Binder) {s : Replacement} (hs : s x = none) : s.hide b.id x = none := by
    simp [Replacement.hide, hs]
  induction t generalizing s with
  | var z =>
    obtain rfl := List.mem_singleton.1 hx
    simp [substitute, hs, occurrences]
  | global c => exact hx
  | lit l => exact hx
  | app f z ihf ihz =>
    rcases List.mem_append.1 hx with hx | hx
    · exact List.mem_append_left _ (ihf hx hs)
    · exact List.mem_append_right _ (ihz hx hs)
  | lam b body ih =>
    obtain ⟨hx, hb⟩ := List.mem_filter.1 hx
    exact List.mem_filter.2 ⟨ih hx (hide b hs), hb⟩
  | letIn b value body ihv ih =>
    rcases List.mem_append.1 hx with hx | hx
    · exact List.mem_append_left _ (ihv hx hs)
    · obtain ⟨hx, hb⟩ := List.mem_filter.1 hx
      exact List.mem_append_right _ (List.mem_filter.2 ⟨ih hx (hide b hs), hb⟩)

/-- What is free after a term was put in for one variable. -/
theorem mem_occurrences_substitute_one (hx : x ∈ t.occurrences)
    (hv : ∀ y ∈ v.occurrences, y ∉ t.binders) :
    y ∈ (t.substitute (Replacement.empty.add x v)).occurrences ↔
      y ∈ t.occurrences ∧ y ≠ x ∨ y ∈ v.occurrences := by
  constructor
  · intro hy
    rcases mem_occurrences_substitute hy with ⟨hmem, hnone⟩ | ⟨z, -, u, hu, hmem⟩
    · refine .inl ⟨hmem, ?_⟩
      rintro rfl
      simp at hnone
    · obtain ⟨-, rfl⟩ := Replacement.eq_of_empty_add hu
      exact .inr hmem
  · rintro (⟨hy, hne⟩ | hy)
    · refine mem_occurrences_substitute_of_eq_none hy ?_
      rw [Replacement.add_of_ne _ _ hne]
      rfl
    · exact mem_occurrences_substitute_of_mem hx (Replacement.add_self _ _ _) hy (hv y hy)

end Term

namespace Context

/-- What a term needs depends on which variables are free in it, not on where they occur. -/
theorem needed_congr {Γ : Context} {xs ys : List LocalId} (h : ∀ x ∈ Γ.ids, x ∈ xs ↔ x ∈ ys) :
    Γ.needed xs = Γ.needed ys := by
  induction Γ generalizing xs ys with
  | nil => rfl
  | cons d Γ ih =>
    obtain ⟨hd, htail⟩ := List.forall_mem_cons.1 h
    have happend (zs : List LocalId) : ∀ x ∈ ids Γ, x ∈ xs ++ zs ↔ x ∈ ys ++ zs := fun x hx => by
      rw [List.mem_append, List.mem_append, htail x hx]
    rw [needed, needed, ih (happend _), ih htail]
    simp only [hd]

/-- Close a term over declarations one after the other. Also gives the parameters that it captures,
latest first. -/
def resolve : Context → Term → Term × List LocalId
  | [], t => (t, [])
  | d :: Γ, t =>
    if d.id ∈ t.occurrences then
      match d.value with
      | some v => resolve Γ (t.substitute (Replacement.empty.add d.id v))
      | none =>
        let r := resolve Γ (.lam ⟨d.id, d.name⟩ t)
        (r.1, d.id :: r.2)
    else resolve Γ t

section Equations

variable {Γ : Context} {d : Entry} {t : Term}

theorem resolve_of_not_mem (h : d.id ∉ t.occurrences) :
    resolve (d :: Γ) t = resolve Γ t :=
  if_neg h

theorem resolve_define (h : d.id ∈ t.occurrences) {v : Term} (hv : d.value = some v) :
    resolve (d :: Γ) t = resolve Γ (t.substitute (Replacement.empty.add d.id v)) := by
  rw [resolve, if_pos h, hv]

theorem resolve_param (h : d.id ∈ t.occurrences) (hv : d.value = none) :
    resolve (d :: Γ) t = ((resolve Γ (.lam ⟨d.id, d.name⟩ t)).1,
      d.id :: (resolve Γ (.lam ⟨d.id, d.name⟩ t)).2) := by
  rw [resolve, if_pos h, hv]

end Equations

/-- A term to be closed: it mentions declared variables only, and neither it nor the value of a
definition binds one of them. -/
structure Admits (Γ : Context) (t : Term) : Prop where
  mem_ids : ∀ x ∈ t.occurrences, x ∈ Γ.ids
  not_mem_ids : ∀ x ∈ t.binders, x ∉ Γ.ids
  value : ∀ d ∈ Γ, ∀ v, d.value = some v → ∀ x ∈ v.binders, x ∉ Γ.ids

namespace Admits

variable {Γ : Context} {d : Entry} {t v : Term} {n : Nat}

theorem value_tail (h : Admits (d :: Γ) t) :
    ∀ e ∈ Γ, ∀ v, e.value = some v → ∀ x ∈ v.binders, x ∉ Γ.ids := fun e he v hv x hx hm =>
  h.value e (List.mem_cons_of_mem _ he) v hv x hx (List.mem_cons_of_mem _ hm)

theorem skip (h : Admits (d :: Γ) t) (hd : d.id ∉ t.occurrences) : Γ.Admits t where
  mem_ids x hx := (List.mem_cons.1 (h.mem_ids x hx)).resolve_left fun e => hd (e ▸ hx)
  not_mem_ids x hx hm := h.not_mem_ids x hx (List.mem_cons_of_mem _ hm)
  value := h.value_tail

theorem param (h : Admits (d :: Γ) t) (hd : d.id ∉ Γ.ids) (name : Name) :
    Γ.Admits (.lam ⟨d.id, name⟩ t) where
  mem_ids x hx := by
    simp only [Term.occurrences, List.mem_filter, decide_eq_true_eq] at hx
    exact (List.mem_cons.1 (h.mem_ids x hx.1)).resolve_left hx.2
  not_mem_ids x hx hm := by
    rcases List.mem_cons.1 hx with rfl | hx
    · exact hd hm
    · exact h.not_mem_ids x hx (List.mem_cons_of_mem _ hm)
  value := h.value_tail

/-- The value mentions earlier declarations, which the term does not bind. -/
theorem apart (h : Admits (d :: Γ) t) (hv : ∀ x ∈ v.occurrences, x ∈ Γ.ids) :
    ∀ x ∈ v.occurrences, x ∉ t.binders := fun x hx hb =>
  h.not_mem_ids x hb (List.mem_cons_of_mem _ (hv x hx))

theorem define (h : Admits (d :: Γ) t) (hd : d.id ∈ t.occurrences) (hvalue : d.value = some v)
    (hv : ∀ x ∈ v.occurrences, x ∈ Γ.ids) :
    Γ.Admits (t.substitute (Replacement.empty.add d.id v)) where
  mem_ids x hx := by
    rcases (Term.mem_occurrences_substitute_one hd (h.apart hv)).1 hx with ⟨hx, hne⟩ | hx
    · exact (List.mem_cons.1 (h.mem_ids x hx)).resolve_left hne
    · exact hv x hx
  not_mem_ids x hx hm := by
    rcases Term.mem_binders_substitute hx with hb | ⟨y, u, hu, hb⟩
    · exact h.not_mem_ids x hb (List.mem_cons_of_mem _ hm)
    · obtain ⟨-, rfl⟩ := Replacement.eq_of_empty_add hu
      exact h.value d List.mem_cons_self _ hvalue x hb (List.mem_cons_of_mem _ hm)
  value := h.value_tail

end Admits

variable {Γ : Context} {n : Nat}

/-- The variables that are captured one at a time are the parameters that the term needs. -/
theorem snd_resolve (hΓ : Γ.Scoped n) {t : Term} (ht : Γ.Admits t) :
    (Γ.resolve t).2 = ((Γ.needed t.occurrences).filter (·.value.isNone)).map Entry.id := by
  induction hΓ generalizing t with
  | nil => rfl
  | @cons d Γ hΓ hd _ hvalue ih =>
    rw [needed]
    by_cases hmem : d.id ∈ t.occurrences
    · rw [if_pos hmem]
      cases hv : d.value with
      | some v =>
        have hfree := (hvalue v hv).1
        rw [resolve_define hmem hv, ih (ht.define hmem hv hfree),
          List.filter_cons_of_neg (by simp [hv])]
        congr 2
        refine needed_congr fun x hx => ?_
        have hne : x ≠ d.id := fun e => hd (e ▸ hx)
        simp [Term.mem_occurrences_substitute_one hmem (ht.apart hfree), hne]
      | none =>
        rw [resolve_param hmem hv, List.filter_cons_of_pos (by simp [hv]), List.map_cons]
        refine congrArg (d.id :: ·) ((ih (ht.param hd d.name)).trans ?_)
        congr 2
        refine needed_congr fun x hx => ?_
        have hne : x ≠ d.id := fun e => hd (e ▸ hx)
        simp [Term.occurrences, hne]
    · rw [if_neg hmem, resolve_of_not_mem hmem]
      exact ih (ht.skip hmem)

/-- Parameters that are read one binder further in make all variables read so. -/
theorem Scoped.locals_reading_shift (hΓ : Γ.Scoped n) {p q : LocalId → Nameless}
    (hpq : ∀ x ∈ Γ.ids, q x = (p x).shift) {x : LocalId} (hx : x ∈ Γ.ids) :
    (Γ.reading q).locals x = ((Γ.reading p).locals x).shift := by
  induction hΓ generalizing x with
  | nil => simp [ids] at hx
  | @cons d Γ hΓ hd _ hvalue ih =>
    obtain ⟨hhead, htail⟩ := List.forall_mem_cons.1 hpq
    rw [reading, reading]
    by_cases e : x = d.id
    · rw [e, Reading.assign_locals_self, Reading.assign_locals_self]
      cases hv : d.value with
      | none => exact hhead
      | some v =>
        rw [Nameless.shift, Term.rename_read]
        refine Term.read_congr (fun y hy => ih htail ((hvalue v hv).1 y hy)) fun c _ => ?_
        simp [Reading.map, Nameless.rename]
    · rw [Reading.assign_locals_of_ne e, Reading.assign_locals_of_ne e]
      exact ih htail ((List.mem_cons.1 hx).resolve_left e)

end Context

theorem Nameless.lambdas_lam (k : Nat) (t : Nameless) : (lam t).lambdas k = lam (t.lambdas k) := by
  induction k with
  | zero => rfl
  | succ k ih => rw [lambdas, ih, lambdas]

/-- Closing a term one variable at a time gives the term itself under one lambda for each variable
that it captures, with local definitions written out. -/
theorem Context.nameless_resolve {Γ : Context} {n : Nat} (hΓ : Γ.Scoped n) {t : Term}
    (ht : Γ.Admits t) {xs : List LocalId} (hxs : (Γ.resolve t).2 = xs) :
    (Γ.resolve t).1.nameless [] =
      (t.read (Γ.reading fun x => .bound (xs.idxOf x))).lambdas xs.length := by
  induction hΓ generalizing t xs with
  | nil =>
    obtain rfl := hxs
    exact Term.nameless_eq_read t
  | @cons d Γ hΓ hd _ hvalue ih =>
    by_cases hmem : d.id ∈ t.occurrences
    · cases hv : d.value with
      | some v =>
        have hfree := (hvalue v hv).1
        rw [resolve_define hmem hv] at hxs ⊢
        have hcap : t.CaptureFree (Replacement.empty.add d.id v) := by
          intro x _ u hu y hy
          obtain ⟨-, rfl⟩ := Replacement.eq_of_empty_add hu
          exact ht.apart hfree y hy
        rw [ih (ht.define hmem hv hfree) hxs, Term.read_substitute _ hcap]
        congr 1
        refine Term.read_congr (fun x hx => ?_) fun c _ => by simp [Reading.through]
        rw [reading, hv]
        by_cases e : x = d.id
        · rw [e, Reading.assign_locals_self,
            Reading.through_locals_of_eq_some (Replacement.add_self _ _ _)]
        · rw [Reading.assign_locals_of_ne e, Reading.through_locals_of_eq_none]
          rw [Replacement.add_of_ne _ _ e]
          rfl
      | none =>
        rw [resolve_param hmem hv] at hxs ⊢
        obtain rfl := hxs
        rw [ih (ht.param hd d.name) rfl, List.length_cons, Nameless.lambdas, Term.read,
          Nameless.lambdas_lam]
        congr 2
        -- The new lambda reads as the last one captured, and all others are one binder further out.
        refine Term.read_congr (fun x hx => ?_) fun c _ => by simp [Reading.under]; rfl
        rw [reading, hv]
        by_cases e : x = d.id
        · simp [e]
        · have hx := (List.mem_cons.1 (ht.mem_ids x hx)).resolve_left e
          rw [Reading.under_locals_of_ne e, Reading.assign_locals_of_ne e]
          refine (hΓ.locals_reading_shift (fun y hy => ?_) hx).symm
          have hne : (d.id == y) = false := by simpa using fun h : d.id = y => hd (h ▸ hy)
          rw [List.idxOf_cons, hne]
          rfl
    · rw [resolve_of_not_mem hmem] at hxs ⊢
      rw [ih (ht.skip hmem) hxs]
      congr 1
      refine Term.read_congr (fun x hx => ?_) fun c _ => by simp
      have hne : x ≠ d.id := fun e => hmem (e ▸ hx)
      rw [reading, Reading.assign_locals_of_ne hne]

/-- A term that is being closed, the variables that are still pending and those captured so far,
latest first. -/
structure Resolution where
  term : Term
  pending : Finset LocalId
  captured : List LocalId

namespace Scope

variable {s : Scope} {a : Arena}

/-- The variable `x` with declaration `d` is pending, and no pending variable was declared later. -/
structure Latest (s : Scope) (pending : Finset LocalId) (x : LocalId) (d : Decl) : Prop where
  mem : x ∈ pending
  find?_eq : s.find? x = some d
  position_le : ∀ y ∈ pending, ∀ c, s.find? y = some c → c.position ≤ d.position

/-- One round of the loop that closes a term. The pending variable that was declared last is taken:
a definition is written out, and the variables of its value become pending; a parameter is recorded
and becomes a lambda around the term. -/
inductive Resolves (s : Scope) (a : Arena) : Resolution → Resolution → Prop where
  | define {t pending captured x d v u} : s.Latest pending x d → d.value = some v →
      a.term? v = some u →
      Resolves s a ⟨t, pending, captured⟩ ⟨t.substitute (Replacement.empty.add x u),
        pending.erase x ∪ u.occurrences.toFinset, captured⟩
  | param {t pending captured x d} : s.Latest pending x d → d.value = none →
      Resolves s a ⟨t, pending, captured⟩
        ⟨.lam ⟨x, d.name⟩ t, pending.erase x, captured ++ [x]⟩

theorem Latest.unique (hs : s.InOrder a) {pending : Finset LocalId} {x y : LocalId} {c d : Decl}
    (hx : s.Latest pending x c) (hy : s.Latest pending y d) : x = y ∧ c = d := by
  have hle := hx.position_le y hy.mem d hy.find?_eq
  have hge := hy.position_le x hx.mem c hx.find?_eq
  obtain rfl := hs.position_inj hx.find?_eq hy.find?_eq (Nat.le_antisymm hge hle)
  exact ⟨(hs.id_eq hx.find?_eq).symm.trans (hs.id_eq hy.find?_eq), rfl⟩

theorem InOrder.rightUnique_resolves (hs : s.InOrder a) : Relator.RightUnique (s.Resolves a) := by
  intro r r₁ r₂ h₁ h₂
  cases h₁ with
  | define hlatest hv hu =>
    cases h₂ with
    | define hlatest' hv' hu' =>
      obtain ⟨rfl, rfl⟩ := hlatest.unique hs hlatest'
      obtain rfl := Option.some.inj (hv.symm.trans hv')
      obtain rfl := Option.some.inj (hu.symm.trans hu')
      rfl
    | param hlatest' hv' =>
      obtain ⟨rfl, rfl⟩ := hlatest.unique hs hlatest'
      cases hv.symm.trans hv'
  | param hlatest hv =>
    cases h₂ with
    | define hlatest' hv' =>
      obtain ⟨rfl, rfl⟩ := hlatest.unique hs hlatest'
      cases hv.symm.trans hv'
    | param hlatest' hv' =>
      obtain ⟨rfl, rfl⟩ := hlatest.unique hs hlatest'
      rfl

theorem not_resolves_of_pending_eq_empty {r q : Resolution} (hr : r.pending = ∅) :
    ¬ s.Resolves a r q := by
  intro h
  cases h with
  | define hlatest => exact Finset.eq_empty_iff_forall_notMem.1 hr _ hlatest.mem
  | param hlatest => exact Finset.eq_empty_iff_forall_notMem.1 hr _ hlatest.mem

/-- Rounds of the loop lead from `r` to `q`, where nothing is pending any more. -/
def ResolvesTo (s : Scope) (a : Arena) (r q : Resolution) : Prop :=
  Relation.ReflTransGen (s.Resolves a) r q ∧ q.pending = ∅

/-- The loop ends in one way only. -/
theorem ResolvesTo.unique (hs : s.InOrder a) {r q₁ q₂ : Resolution} (h₁ : s.ResolvesTo a r q₁)
    (h₂ : s.ResolvesTo a r q₂) : q₁ = q₂ := by
  have stuck {q q' : Resolution} (hq : q.pending = ∅)
      (h : Relation.ReflTransGen (s.Resolves a) q q') : q = q' := by
    rcases h.cases_head with h | ⟨_, hstep, -⟩
    · exact h
    · exact absurd hstep (not_resolves_of_pending_eq_empty hq)
  rcases Relation.ReflTransGen.total_of_right_unique hs.rightUnique_resolves h₁.1 h₂.1 with h | h
  · exact stuck h₁.2 h
  · exact (stuck h₂.2 h).symm

end Scope

namespace LiftM

variable {ctx : LiftContext} {s : LiftState} {Γ : Context}

/-- The first of the declarations is the latest one, if its variable is pending. -/
theorem Declared.latest {d : Decl} {ds : List Decl} (hds : Declared s (d :: ds))
    {pending : Finset LocalId} (hd : d.id ∈ pending)
    (hpending : ∀ y ∈ pending, y ∈ (d :: ds).map Decl.id) : s.scope.Latest pending d.id d where
  mem := hd
  find?_eq := hds.find?_eq d List.mem_cons_self
  position_le y hy c hc := by
    obtain ⟨c', hc', rfl⟩ := List.mem_map.1 (hpending y hy)
    obtain rfl := Option.some.inj ((hds.find?_eq c' hc').symm.trans hc)
    rcases List.mem_cons.1 hc' with rfl | hc'
    · exact Nat.le_refl _
    · exact Nat.le_of_lt ((List.pairwise_cons.1 hds.ordered).1 c' hc')

/-- The loop goes through the declarations from the latest on. -/
theorem resolves_resolve {ds : List Decl} (hds : Declared s ds)
    (hshow : List.Forall₂ (Decl.Shows s.arena) ds Γ) {n : Nat} (hΓ : Γ.Scoped n) {t : Term}
    (ht : Γ.Admits t) (xs : List LocalId) :
    Relation.ReflTransGen (s.scope.Resolves s.arena) ⟨t, t.occurrences.toFinset, xs⟩
      ⟨(Γ.resolve t).1, ∅, xs ++ (Γ.resolve t).2⟩ := by
  induction hshow generalizing t xs with
  | nil =>
    have hclosed : t.occurrences = [] := List.eq_nil_iff_forall_not_mem.2 fun x hx => by
      simpa [Context.ids] using ht.mem_ids x hx
    rw [hclosed, Context.resolve, List.append_nil]
    exact .refl
  | @cons d e ds Γ hd hshow ih =>
    cases hΓ with | cons hΓ he _ hvalue =>
    by_cases hmem : e.id ∈ t.occurrences
    · have hlatest : s.scope.Latest t.occurrences.toFinset e.id d := by
        rw [← hd.id_eq] at hmem ⊢
        refine hds.latest (List.mem_toFinset.2 hmem) fun y hy => ?_
        rw [Decl.map_id_eq_ids (.cons hd hshow)]
        exact ht.mem_ids y (List.mem_toFinset.1 hy)
      rcases hd.value with ⟨hdv, hev⟩ | ⟨v, u, hdv, hev, hu⟩
      · have hpending : t.occurrences.toFinset.erase e.id =
            (Term.lam ⟨e.id, e.name⟩ t).occurrences.toFinset := by
          ext x
          simp [Term.occurrences, and_comm]
        rw [Context.resolve_param hmem hev, List.append_cons]
        refine .head (.param hlatest hdv) ?_
        rw [hpending, hd.name_eq]
        exact ih hds.tail hΓ (ht.param he e.name) (xs ++ [e.id])
      · have hfree := (hvalue u hev).1
        have hpending : t.occurrences.toFinset.erase e.id ∪ u.occurrences.toFinset =
            (t.substitute (Replacement.empty.add e.id u)).occurrences.toFinset := by
          ext x
          simp [Term.mem_occurrences_substitute_one hmem (ht.apart hfree), and_comm]
        rw [Context.resolve_define hmem hev]
        refine .head (.define hlatest hdv hu) ?_
        rw [hpending]
        exact ih hds.tail hΓ (ht.define hmem hev hfree) xs
    · rw [Context.resolve_of_not_mem hmem]
      exact ih hds.tail hΓ (ht.skip hmem) xs

/-- A term that binds no variable in scope, where no value in scope does either, can be closed one
variable at a time. -/
theorem admits_of_contains {ds : List Decl} (hds : Declared s ds)
    (hshow : List.Forall₂ (Decl.Shows s.arena) ds Γ) {t : Term}
    (ht : ∀ x ∈ t.occurrences, x ∈ Γ.ids)
    (hterm : ∀ x ∈ t.binders, s.scope.contains x = false)
    (hvalues : ∀ x d v u, s.scope.find? x = some d → d.value = some v → s.arena.term? v = some u →
      ∀ y ∈ u.binders, s.scope.contains y = false) : Γ.Admits t := by
  have apart {x : LocalId} (hx : s.scope.contains x = false) : x ∉ Γ.ids := by
    rw [← Decl.map_id_eq_ids hshow]
    intro hm
    obtain ⟨d, hd, rfl⟩ := List.mem_map.1 hm
    simp [Scope.contains, hds.find?_eq d hd] at hx
  refine ⟨ht, fun x hx => apart (hterm x hx), fun d hd u hu x hx => apart ?_⟩
  obtain ⟨c, hc, hcd⟩ := exists_of_mem_forall₂ hshow.flip hd
  rcases hcd.value with ⟨-, hnone⟩ | ⟨v, u', hv, hu', hterm⟩
  · cases hu.symm.trans hnone
  · obtain rfl := Option.some.inj (hu.symm.trans hu')
    exact hvalues c.id c v u (hds.find?_eq c hc) hv hterm x hx

/-- Closing a term over a scope in order agrees with the loop that takes one variable at a time: the
loop ends in one way, with the same variables captured and the same term up to bound names. -/
theorem resolves_closeOver (hwf : s.arena.WellFormed) (hs : s.scope.InOrder s.arena) {e : ExprId}
    {t : Term} (he : s.arena.term? e = some t)
    (hbinders : ∀ x ∈ t.binders, x.index < s.arena.nextLocal)
    (hfree : ∀ x ∈ t.occurrences, s.scope.contains x = true)
    (hterm : ∀ x ∈ t.binders, s.scope.contains x = false)
    (hvalues : ∀ x d v u, s.scope.find? x = some d → d.value = some v → s.arena.term? v = some u →
      ∀ y ∈ u.binders, s.scope.contains y = false) :
    ∃ closed captured b u v, (closeOver e).Runs ctx s (closed, captured) { s with arena := b } ∧
      b.term? closed = some u ∧ u.AlphaEq v ∧
      ∀ r, s.scope.ResolvesTo s.arena ⟨t, t.occurrences.toFinset, []⟩ r ↔ r = ⟨v, ∅, captured⟩ := by
  obtain ⟨ds, Γ, hds, hshow, hΓ, hcontains⟩ := exists_declared hs
  have ht (x : LocalId) (hx : x ∈ t.occurrences) : x ∈ Γ.ids := hcontains x (hfree x hx)
  have hadmits := admits_of_contains hds hshow ht hterm hvalues
  obtain ⟨closed, r, b, u, k, hrun, -, hcloses, hclosed, -⟩ :=
    runs_closeOver ctx hds hwf hΓ hshow he ht
  have hcaptured := (Context.snd_resolve hΓ hadmits).trans hcloses.captured_eq.symm
  refine ⟨closed, _, b, u, (Γ.resolve t).1, hrun, hclosed, ?_, fun q => ?_⟩
  · rw [Term.AlphaEq, hcloses.nameless_eq hΓ ht hbinders,
      Context.nameless_resolve hΓ hadmits hcaptured]
  · have hloop : s.scope.ResolvesTo s.arena ⟨t, t.occurrences.toFinset, []⟩
        ⟨(Γ.resolve t).1, ∅, (Γ.resolve t).2⟩ := ⟨resolves_resolve hds hshow hΓ hadmits [], rfl⟩
    rw [hcaptured] at hloop
    constructor
    · exact fun hq => hq.unique hs hloop
    · rintro rfl
      exact hloop

/-- In `λ x, h x k` the loop first writes out `k := f a`, and then puts a lambda around for `a`. -/
theorem resolves_captureState :
    captureState.arena.WellFormed ∧ captureState.scope.InOrder captureState.arena ∧
      ∃ closed b u v, (closeOver ⟨7⟩).Runs
          (captureProgram.context captureEnvironment captureNames "main") captureState
          (closed, [⟨0⟩]) { captureState with arena := b } ∧
        b.term? closed = some u ∧ u.AlphaEq v ∧
        v = .lam ⟨⟨0⟩, ⟨5⟩⟩ (.lam ⟨⟨2⟩, ⟨7⟩⟩
          (.app (.app (.global ⟨3⟩) (.var ⟨2⟩)) (.app (.global ⟨1⟩) (.var ⟨0⟩)))) ∧
        ∀ r, captureState.scope.ResolvesTo captureState.arena
            ⟨.lam ⟨⟨2⟩, ⟨7⟩⟩ (.app (.app (.global ⟨3⟩) (.var ⟨2⟩)) (.var ⟨1⟩)), {⟨1⟩}, []⟩ r ↔
          r = ⟨v, ∅, [⟨0⟩]⟩ := by
  have hwf : captureState.arena.WellFormed := by decide +kernel
  have hterm : captureState.arena.term? ⟨7⟩ = some
      (.lam ⟨⟨2⟩, ⟨7⟩⟩ (.app (.app (.global ⟨3⟩) (.var ⟨2⟩)) (.var ⟨1⟩))) := by decide +kernel
  have hvalue : captureState.arena.term? ⟨2⟩ = some (.app (.global ⟨1⟩) (.var ⟨0⟩)) := by
    decide +kernel
  have hvalues (x : LocalId) (d : Decl) (v : ExprId) (u : Term)
      (hd : captureState.scope.find? x = some d) (hv : d.value = some v)
      (hu : captureState.arena.term? v = some u) :
      ∀ y ∈ u.binders, captureState.scope.contains y = false := by
    rcases eq_of_find?_captureState hd with ⟨-, rfl⟩ | ⟨-, rfl⟩
    · obtain rfl := Option.some.inj hv
      obtain rfl := Option.some.inj (hvalue.symm.trans hu)
      simp [Term.binders]
    · cases hv
  have hlatest (x : LocalId) (d : Decl) (hd : captureState.scope.find? x = some d) :
      captureState.scope.Latest {x} x d :=
    ⟨Finset.mem_singleton_self x, hd, fun y hy c hc => by
      obtain rfl := Finset.mem_singleton.1 hy
      exact Nat.le_of_eq (congrArg Decl.position (Option.some.inj (hc.symm.trans hd)))⟩
  obtain ⟨closed, captured, b, u, v, hrun, hu, huv, hloop⟩ := resolves_closeOver hwf
    inOrder_captureState hterm (by decide) (by decide +kernel) (by decide +kernel) hvalues
  have hk := hlatest ⟨1⟩ ⟨⟨1⟩, ⟨6⟩, some ⟨2⟩, 1⟩ (by decide +kernel)
  have ha := hlatest ⟨0⟩ ⟨⟨0⟩, ⟨5⟩, none, 0⟩ (by decide +kernel)
  have hend := (hloop _).1 ⟨.head (.define hk rfl hvalue) (.head (.param ha rfl) .refl), rfl⟩
  cases hend
  exact ⟨hwf, inOrder_captureState, closed, b, u, _, hrun, hu, huv, rfl, hloop⟩

end LiftM

end LambdaLifting
