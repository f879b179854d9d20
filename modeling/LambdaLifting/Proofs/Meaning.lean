import LambdaLifting.Proofs.Conversion
import LambdaLifting.Proofs.Stable
import Mathlib.Data.List.Forall2

namespace LambdaLifting

open Nameless (Conv)

namespace Reading

/-- Local definitions in scope read as their values. -/
def Respects (r : Reading) (Γ : Context) : Prop :=
  ∀ d ∈ Γ, ∀ v, d.value = some v → r.locals d.id = v.read r

/-- Procedures read as their bodies. -/
def Solves (r : Reading) (ds : List Definition) : Prop :=
  ∀ d ∈ ds, d.body.Closed ∧ r.globals d.name = d.body.read r

theorem Solves.of_advances {r : Reading} {w w' : Stage} (h : r.Solves w'.lifted)
    (hw : w.Advances w') : r.Solves w.lifted := by
  obtain ⟨ds, hds, -⟩ := hw.lifted_eq
  exact fun d hd => h d (hds ▸ List.mem_append_left _ hd)

theorem Solves.under {r : Reading} {ds : List Definition} (h : r.Solves ds) (x : LocalId) :
    (r.under x).Solves ds := by
  intro d hd
  obtain ⟨hc, he⟩ := h d hd
  refine ⟨hc, ?_⟩
  rw [← Term.shift_read r (Term.closed_iff.1 hc x), ← he]
  rfl

theorem Solves.assign {r : Reading} {ds : List Definition} (h : r.Solves ds) (x : LocalId)
    (u : Nameless) : (r.assign x u).Solves ds := by
  intro d hd
  obtain ⟨hc, he⟩ := h d hd
  refine ⟨hc, he.trans (Term.read_congr (fun y hy => ?_) fun _ _ => rfl)⟩
  exact absurd hy (Term.closed_iff.1 hc y)

theorem under_locals_of_ne {r : Reading} {x y : LocalId} (h : y ≠ x) :
    (r.under x).locals y = (r.locals y).shift := by
  simp [under, h]

@[simp]
theorem under_locals_self (r : Reading) (x : LocalId) : (r.under x).locals x = .bound 0 := by
  simp [under]

theorem assign_locals_of_ne {r : Reading} {x y : LocalId} {u : Nameless} (h : y ≠ x) :
    (r.assign x u).locals y = r.locals y :=
  Function.update_of_ne h _ _

@[simp]
theorem assign_locals_self (r : Reading) (x : LocalId) (u : Nameless) :
    (r.assign x u).locals x = u :=
  Function.update_self ..

theorem Respects.under {r : Reading} {Γ : Context} {n : Nat} (h : r.Respects Γ) (hΓ : Γ.Scoped n)
    {x : LocalId} (hx : x ∉ Γ.ids) (name : Name) :
    (r.under x).Respects (⟨x, name, none⟩ :: Γ) := by
  refine List.forall_mem_cons.2 ⟨by simp, fun d hd v hv => ?_⟩
  have hne : d.id ≠ x := fun e => hx (e ▸ List.mem_map_of_mem hd)
  have hxv : x ∉ v.occurrences := fun hm => hx ((hΓ.value_scoped hd hv).1 x hm)
  rw [under_locals_of_ne hne, h d hd v hv, Term.shift_read r hxv]

theorem Respects.assign {r : Reading} {Γ : Context} {n : Nat} (h : r.Respects Γ) (hΓ : Γ.Scoped n)
    {x : LocalId} (hx : x ∉ Γ.ids) (name : Name) {value : Option Term} {u : Nameless}
    (hv : ∀ v, value = some v → u = v.read r ∧ ∀ y ∈ v.occurrences, y ∈ Γ.ids) :
    (r.assign x u).Respects (⟨x, name, value⟩ :: Γ) := by
  -- Values mention variables in scope only, and these keep their reading.
  have same {t : Term} (ht : ∀ y ∈ t.occurrences, y ∈ Γ.ids) :
      t.read (r.assign x u) = t.read r := by
    refine Term.read_congr (fun y hy => assign_locals_of_ne fun e => ?_) fun _ _ => rfl
    exact hx (e ▸ ht y hy)
  refine List.forall_mem_cons.2 ⟨fun v e => ?_, fun d hd v e => ?_⟩
  · obtain ⟨rfl, hocc⟩ := hv v e
    rw [assign_locals_self, same hocc]
  · have hne : d.id ≠ x := fun e => hx (e ▸ List.mem_map_of_mem hd)
    rw [assign_locals_of_ne hne, h d hd v e, same (hΓ.value_scoped hd e).1]

end Reading

/-- Variables in scope that are numbered from `m` on, after all binders of the terms to be
lifted. -/
structure Context.Apart (m : Nat) (Γ : Context) (n : Nat) : Prop where
  isScoped : Γ.Scoped n
  le_index : ∀ x ∈ Γ.ids, m ≤ x.index
  le : m ≤ n

/-- Terms to be lifted: they mention what is in scope and bind variables below `m`. -/
structure Unlifted (m : Nat) (Γ : Context) (t : Term) : Prop where
  mem_ids : ∀ x ∈ t.occurrences, x ∈ Γ.ids
  binder_lt : ∀ x ∈ t.binders, x.index < m

/-- Binders below `m` stand for variables in scope, and a term mentions nothing else. -/
structure Opening (m : Nat) (Γ : Context) (s : Replacement) (t : Term) : Prop where
  key_lt : ∀ x u, s x = some u → x.index < m
  target : ∀ x u, s x = some u → ∃ y ∈ Γ.ids, u = .var y
  mem_ids : ∀ x ∈ t.occurrences, s x = none → x ∈ Γ.ids
  binder_lt : ∀ x ∈ t.binders, x.index < m

theorem Unlifted.of_apply {m : Nat} {Γ : Context} {f : Term} {xs : List Term}
    (h : Unlifted m Γ (f.apply xs)) : Unlifted m Γ f ∧ ∀ x ∈ xs, Unlifted m Γ x := by
  refine ⟨⟨fun y hy => ?_, fun y hy => ?_⟩, fun x hx => ⟨fun y hy => ?_, fun y hy => ?_⟩⟩
  · exact h.mem_ids y (Term.mem_occurrences_apply.2 (.inl hy))
  · exact h.binder_lt y (Term.mem_binders_apply.2 (.inl hy))
  · exact h.mem_ids y (Term.mem_occurrences_apply.2 (.inr ⟨x, hx, hy⟩))
  · exact h.binder_lt y (Term.mem_binders_apply.2 (.inr ⟨x, hx, hy⟩))

namespace Context.Apart

variable {m n : Nat} {Γ : Context}

theorem not_mem (h : Γ.Apart m n) : (⟨n⟩ : LocalId) ∉ Γ.ids := fun hn => by
  have := h.isScoped.index_lt hn
  simp at this

theorem mono {k : Nat} (h : Γ.Apart m n) (hn : n ≤ k) : Γ.Apart m k :=
  ⟨h.isScoped.mono hn, h.le_index, Nat.le_trans h.le hn⟩

theorem declare (h : Γ.Apart m n) (name : Name) (value : Option Term)
    (hv : ∀ v, value = some v →
      (∀ x ∈ v.occurrences, x ∈ Γ.ids) ∧ ∀ x ∈ v.binders, x.index < n) :
    Context.Apart m (⟨⟨n⟩, name, value⟩ :: Γ) (n + 1) where
  isScoped := h.isScoped.declare name value hv
  le_index := List.forall_mem_cons.2 ⟨h.le, h.le_index⟩
  le := Nat.le_succ_of_le h.le

theorem enter {anonymous : Name} {k : Nat} {s : Replacement} {t inner : Term} {bs : List Binder}
    (h : Γ.Apart m n) (hp : Peels anonymous k s n t bs inner) : (Γ.enter bs).Apart m (n + k) where
  isScoped := hp.scoped_enter h.isScoped
  le_index x hx := by
    rcases Context.mem_ids_enter.1 hx with hx | hx
    · exact Nat.le_trans h.le (hp.index_lt hx).1
    · exact h.le_index x hx
  le := Nat.le_add_right_of_le h.le

end Context.Apart

namespace Opening

variable {m n : Nat} {Γ : Context} {s : Replacement} {t : Term}

theorem start (h : Unlifted m Γ t) : Opening m Γ Replacement.empty t :=
  ⟨by simp [Replacement.empty], by simp [Replacement.empty], fun x hx _ => h.mem_ids x hx,
    h.binder_lt⟩

theorem unlifted (h : Opening m Γ s t) : Unlifted m Γ (t.substitute s) where
  mem_ids x hx := by
    rcases Term.mem_occurrences_substitute hx with ⟨hx, hs⟩ | ⟨y, -, u, hu, hxu⟩
    · exact h.mem_ids x hx hs
    · obtain ⟨z, hz, rfl⟩ := h.target y u hu
      rw [Term.occurrences, List.mem_singleton] at hxu
      exact hxu ▸ hz
  binder_lt x hx := by
    rcases Term.mem_binders_substitute hx with hx | ⟨y, u, hu, hxu⟩
    · exact h.binder_lt x hx
    · obtain ⟨z, hz, rfl⟩ := h.target y u hu
      simp [Term.binders] at hxu

theorem captureFree (h : Opening m Γ s t) (hΓ : Γ.Apart m n) : t.CaptureFree s := by
  intro x _ u hu y hy hb
  obtain ⟨z, hz, rfl⟩ := h.target x u hu
  rw [Term.occurrences, List.mem_singleton] at hy
  have h₁ := hΓ.le_index z hz
  have h₂ := h.binder_lt y hb
  rw [hy] at h₂
  omega

theorem add {b : Binder} {body : Term} {d : Entry} (hs : Opening m Γ s t) (hb : b.id.index < m)
    (hbody : ∀ x ∈ body.occurrences, x ≠ b.id → x ∈ t.occurrences)
    (hbinders : ∀ x ∈ body.binders, x ∈ t.binders) :
    Opening m (d :: Γ) (s.add b.id (.var d.id)) body where
  key_lt := Replacement.forall_add hs.key_lt hb
  target := Replacement.forall_add
    (fun x u hu => (hs.target x u hu).imp fun y hy => ⟨List.mem_cons_of_mem _ hy.1, hy.2⟩)
    ⟨d.id, by simp, rfl⟩
  mem_ids x hx hn := by
    have e : x ≠ b.id := fun e => by simp [e] at hn
    rw [s.add_of_ne _ e] at hn
    exact List.mem_cons_of_mem _ (hs.mem_ids x (hbody x hx e) hn)
  binder_lt x hx := hs.binder_lt x (hbinders x hx)

theorem body {b : Binder} {body : Term} {d : Entry} (hs : Opening m Γ s (.lam b body)) :
    Opening m (d :: Γ) (s.add b.id (.var d.id)) body :=
  hs.add (hs.binder_lt b.id List.mem_cons_self)
    (fun x hx hne => by simp [Term.occurrences, hx, hne]) fun x hx => List.mem_cons_of_mem _ hx

theorem value {b : Binder} {v body : Term} (hs : Opening m Γ s (.letIn b v body)) :
    Opening m Γ s v :=
  ⟨hs.key_lt, hs.target, fun x hx => hs.mem_ids x (by simp [Term.occurrences, hx]),
    fun x hx => hs.binder_lt x (by simp [Term.binders, hx])⟩

theorem letBody {b : Binder} {v body : Term} {d : Entry} (hs : Opening m Γ s (.letIn b v body)) :
    Opening m (d :: Γ) (s.add b.id (.var d.id)) body :=
  hs.add (hs.binder_lt b.id List.mem_cons_self)
    (fun x hx hne => by simp [Term.occurrences, hx, hne]) fun x hx => by simp [Term.binders, hx]

theorem expand (hs : Opening m Γ s t) (d : Entry) : Opening m (d :: Γ) s (.app t (.var d.id)) where
  key_lt := hs.key_lt
  target x u hu := (hs.target x u hu).imp fun y hy => ⟨List.mem_cons_of_mem _ hy.1, hy.2⟩
  mem_ids x hx hn := by
    rcases List.mem_append.1 hx with hx | hx
    · exact List.mem_cons_of_mem _ (hs.mem_ids x hx hn)
    · rw [Term.occurrences, List.mem_singleton] at hx
      simp [hx]
  binder_lt x hx := hs.binder_lt x (by simpa [Term.binders] using hx)

/-- What is bound in a term that is opened is not in scope yet. -/
theorem ne_of_mem_binders (hΓ : Γ.Apart m n) (hs : Opening m Γ s t) {x y : LocalId}
    (hy : y ∈ Γ.ids) (hx : x ∈ t.binders) : y ≠ x := by
  have h₁ := hΓ.le_index y hy
  have h₂ := hs.binder_lt x hx
  rintro rfl
  omega

/-- A body with a new variable for its binder reads as under the binder itself, if both variables
do and all variables in scope keep their reading. -/
theorem read_add {b : Binder} {body : Term} {x : LocalId} {r q : Reading} (hΓ : Γ.Apart m n)
    (hs : Opening m Γ s t)
    (hbody : ∀ y ∈ body.occurrences, y ≠ b.id → y ∈ t.occurrences)
    (hbinders : ∀ y ∈ body.binders, y ∈ t.binders) (hx : m ≤ x.index)
    (hg : r.globals = q.globals) (hxb : r.locals x = q.locals b.id)
    (hrq : ∀ y ∈ Γ.ids, r.locals y = q.locals y) :
    (body.substitute (s.add b.id (.var x))).read r = (body.substitute (s.hide b.id)).read q := by
  have hcap : body.CaptureFree (s.hide b.id) := by
    intro y hy u hu z hz hm
    rw [Replacement.hide_eq_some] at hu
    exact hs.captureFree hΓ y (hbody y hy hu.1) u hu.2 z hz (hbinders z hm)
  have hcap' : body.CaptureFree (s.add b.id (.var x)) := by
    intro y hy u hu z hz hm
    by_cases e : y = b.id
    · rw [e, Replacement.add_self] at hu
      cases hu
      rw [Term.occurrences, List.mem_singleton] at hz
      have := hs.binder_lt z (hbinders z hm)
      rw [hz] at this
      omega
    · rw [s.add_of_ne _ e] at hu
      exact hs.captureFree hΓ y (hbody y hy e) u hu z hz (hbinders z hm)
  rw [Term.read_substitute r hcap', Term.read_substitute q hcap]
  refine Term.read_congr (fun y hy => ?_) fun c _ => congrFun hg c
  by_cases e : y = b.id
  · have hn : s.hide b.id y = none := by simp [Replacement.hide, e]
    rw [Reading.through_locals_of_eq_none hn, e,
      Reading.through_locals_of_eq_some (s.add_self b.id (.var x))]
    exact hxb
  · have hadd := s.add_of_ne (.var x) e
    have hhide : s.hide b.id y = s y := by simp [Replacement.hide, e]
    cases hsy : s y with
    | none =>
      rw [Reading.through_locals_of_eq_none (hadd.trans hsy),
        Reading.through_locals_of_eq_none (hhide.trans hsy)]
      exact hrq y (hs.mem_ids y (hbody y hy e) hsy)
    | some u =>
      rw [Reading.through_locals_of_eq_some (hadd.trans hsy),
        Reading.through_locals_of_eq_some (hhide.trans hsy)]
      obtain ⟨z, hz, rfl⟩ := hs.target y u hsy
      exact hrq z hz

/-- Opening a binder with the next variable does not change how its body reads. -/
theorem read_under {b : Binder} {body : Term} (hΓ : Γ.Apart m n) (hs : Opening m Γ s t)
    (hb : b.id ∈ t.binders) (hbody : ∀ y ∈ body.occurrences, y ≠ b.id → y ∈ t.occurrences)
    (hbinders : ∀ y ∈ body.binders, y ∈ t.binders) (r : Reading) {k : Nat} (hk : n ≤ k) :
    (body.substitute (s.add b.id (.var ⟨k⟩))).read (r.under ⟨k⟩) =
      (body.substitute (s.hide b.id)).read (r.under b.id) := by
  refine hs.read_add hΓ hbody hbinders (Nat.le_trans hΓ.le hk) rfl (by simp) fun y hy => ?_
  have hyk : y ≠ ⟨k⟩ := fun e => (hΓ.mono hk).not_mem (e ▸ hy)
  have hyb : y ≠ b.id := hs.ne_of_mem_binders hΓ hy hb
  rw [Reading.under_locals_of_ne hyk, Reading.under_locals_of_ne hyb]

/-- The new variable that a term is applied to is above all that is replaced, so that it stays. -/
theorem read_expand (hΓ : Γ.Apart m n) (hs : Opening m Γ s t) (r : Reading) :
    ((Term.app t (.var ⟨n⟩)).substitute s).read (r.under ⟨n⟩) =
      .app ((t.substitute s).read r).shift (.bound 0) := by
  have hnone : s ⟨n⟩ = none := by
    cases hn : s ⟨n⟩ with
    | none => rfl
    | some u =>
      have hlt : n < m := hs.key_lt _ u hn
      have := hΓ.le
      omega
  have hfree : (⟨n⟩ : LocalId) ∉ (t.substitute s).occurrences :=
    fun hm => hΓ.not_mem (hs.unlifted.mem_ids _ hm)
  rw [Term.shift_read r hfree]
  simp [Term.substitute, hnone, Term.read]

end Opening

theorem Peels.unlifted {anonymous : Name} {m k n : Nat} {s : Replacement} {t inner : Term}
    {bs : List Binder} {Γ : Context} (h : Peels anonymous k s n t bs inner) (hΓ : Γ.Apart m n)
    (hs : Opening m Γ s t) : Unlifted m (Γ.enter bs) inner := by
  induction h generalizing Γ with
  | done => exact hs.unlifted
  | lam _ ih => exact ih (hΓ.declare _ none (by simp)) hs.body
  | expand _ _ ih => exact ih (hΓ.declare _ none (by simp)) (hs.expand _)

/-- Lifting under new variables is lifting under the binders they stand for; a term that was applied
to them is eta equal to itself. -/
theorem Peels.conv {anonymous : Name} {m k n : Nat} {s : Replacement} {t inner u : Term}
    {bs : List Binder} {Γ : Context} {ds : List Definition}
    (h : Peels anonymous k s n t bs inner) (hΓ : Γ.Apart m n) (hs : Opening m Γ s t)
    (hu : ∀ r : Reading, r.Respects (Γ.enter bs) → r.Solves ds → Conv (u.read r) (inner.read r))
    {r : Reading} (hr : r.Respects Γ) (hds : r.Solves ds) :
    Conv ((Term.lambdas bs u).read r) ((t.substitute s).read r) := by
  induction h generalizing Γ r with
  | done => exact hu r hr hds
  | @lam k s n b body bs inner _ ih =>
    have hocc : ∀ x ∈ body.occurrences, x ≠ b.id → x ∈ (Term.lam b body).occurrences :=
      fun x hx hne => by simp [Term.occurrences, hx, hne]
    have hbnd : ∀ x ∈ body.binders, x ∈ (Term.lam b body).binders :=
      fun x hx => List.mem_cons_of_mem _ hx
    have hin := ih (hΓ.declare b.name none (by simp)) hs.body hu
      (hr.under hΓ.isScoped hΓ.not_mem b.name) (hds.under ⟨n⟩)
    rw [hs.read_under hΓ List.mem_cons_self hocc hbnd r (Nat.le_refl n)] at hin
    exact .lam hin
  | @expand k s n t bs inner _ _ ih =>
    have hin := ih (hΓ.declare anonymous none (by simp)) (hs.expand _) hu
      (hr.under hΓ.isScoped hΓ.not_mem anonymous) (hds.under ⟨n⟩)
    rw [hs.read_expand hΓ r] at hin
    exact .trans (.lam hin) (.eta _)

/-- No variable is both bound and free in the term. -/
def Term.Separated (t : Term) : Prop := ∀ x ∈ t.binders, x ∉ t.occurrences

instance (t : Term) : Decidable t.Separated :=
  inferInstanceAs (Decidable (∀ x ∈ t.binders, x ∉ t.occurrences))

namespace Term.Separated

theorem of_app {f x : Term} (h : (Term.app f x).Separated) : f.Separated :=
  fun y hb hy => h y (List.mem_append_left _ hb) (List.mem_append_left _ hy)

theorem step {t u : Term} (ht : t.Separated) (h : HeadStep t u) : u.Separated :=
  fun x hb hx => ht x (h.mem_binders hb) (h.mem_occurrences hx)

/-- Putting in an argument reads as the instance of the body. -/
theorem read_beta {b : Binder} {body x : Term} (h : (Term.app (.lam b body) x).Separated)
    (r : Reading) :
    (body.substitute (Replacement.empty.add b.id x)).read r =
      (body.read (r.under b.id)).inst (x.read r) := by
  have hcap : body.CaptureFree (Replacement.empty.add b.id x) := by
    intro y _ v hv z hz hm
    obtain ⟨-, rfl⟩ := Replacement.eq_of_empty_add hv
    exact h z (by simp [Term.binders, hm]) (List.mem_append_right _ hz)
  rw [Term.read_substitute r hcap, Term.inst_read]
  refine Term.read_congr (fun y _ => ?_) fun _ _ => rfl
  by_cases e : y = b.id
  · rw [e, Reading.through_locals_of_eq_some (Replacement.add_self _ _ _),
      Reading.assign_locals_self]
  · rw [Reading.assign_locals_of_ne e, Reading.through_locals_of_eq_none]
    rw [Replacement.add_of_ne _ _ e]
    rfl

end Term.Separated

theorem Unlifted.separated {m n : Nat} {Γ : Context} {t : Term} (ht : Unlifted m Γ t)
    (hΓ : Γ.Apart m n) : t.Separated := by
  intro x hb hx
  have h₁ := hΓ.le_index x (ht.mem_ids x hx)
  have h₂ := ht.binder_lt x hb
  omega

theorem HeadStep.conv {t u : Term} (h : HeadStep t u) (ht : t.Separated) (r : Reading) :
    Conv (u.read r) (t.read r) := by
  induction h with
  | beta b body x =>
    rw [ht.read_beta r]
    exact .symm (.beta _ _)
  | app x _ ih => exact .app (ih ht.of_app) (.refl _)

theorem Unlifted.step {m : Nat} {Γ : Context} {t u : Term} (ht : Unlifted m Γ t)
    (h : HeadStep t u) : Unlifted m Γ u :=
  ⟨fun x hx => ht.mem_ids x (h.mem_occurrences hx), fun x hx => ht.binder_lt x (h.mem_binders hx)⟩

theorem Unlifted.transGen {m n : Nat} {Γ : Context} {t u : Term} (ht : Unlifted m Γ t)
    (hΓ : Γ.Apart m n) (h : Relation.TransGen HeadStep t u) (r : Reading) :
    Unlifted m Γ u ∧ Conv (u.read r) (t.read r) := by
  induction h with
  | single h => exact ⟨ht.step h, h.conv (ht.separated hΓ) r⟩
  | tail _ h ih => exact ⟨ih.1.step h, .trans (h.conv (ih.1.separated hΓ) r) ih.2⟩

theorem Term.conv_etaReduce (t : Term) (r : Reading) : Conv (t.etaReduce.read r) (t.read r) := by
  induction t generalizing r with
  | lam b body ih =>
    have hb := ih (r.under b.id)
    rcases etaReduce_lam b body with e | ⟨e, hb'⟩
    · rw [e]
      exact .lam hb
    · rw [e, read, ← shift_read r hb', read, Reading.under_locals_self] at hb
      exact .trans (.symm (.eta _)) (.lam hb)
  | _ => exact .refl _

namespace Term

theorem read_apply (f : Term) (xs : List Term) (r : Reading) :
    (f.apply xs).read r = (f.read r).apply (xs.map (read r)) := by
  induction xs generalizing f with
  | nil => rfl
  | cons x xs ih => exact ih (app f x)

def assignAll (r : Reading) : List Binder → List Nameless → Reading
  | b :: bs, u :: us => assignAll (r.assign b.id u) bs us
  | _, _ => r

theorem globals_assignAll (r : Reading) (bs : List Binder) (us : List Nameless) :
    (assignAll r bs us).globals = r.globals := by
  induction bs generalizing r us with
  | nil => rfl
  | cons b bs ih =>
    cases us with
    | nil => rfl
    | cons u us => exact ih (r.assign b.id u) us

theorem locals_assignAll_of_not_mem {r : Reading} {bs : List Binder} {us : List Nameless}
    {x : LocalId} (hx : x ∉ bs.map Binder.id) : (assignAll r bs us).locals x = r.locals x := by
  induction bs generalizing r us with
  | nil => rfl
  | cons b bs ih =>
    cases us with
    | nil => rfl
    | cons u us =>
      simp only [List.map_cons, List.mem_cons, not_or] at hx
      rw [assignAll, ih hx.2, Reading.assign_locals_of_ne hx.1]

theorem map_locals_assignAll {r : Reading} {bs : List Binder} {us : List Nameless}
    (hn : (bs.map Binder.id).Nodup) (hl : bs.length = us.length) :
    bs.map (fun b => (assignAll r bs us).locals b.id) = us := by
  induction bs generalizing r us with
  | nil => exact (List.length_eq_zero_iff.1 hl.symm).symm
  | cons b bs ih =>
    cases us with
    | nil => simp at hl
    | cons u us =>
      rw [List.map_cons, List.nodup_cons] at hn
      rw [List.map_cons, assignAll, ih hn.2 (by simpa using hl), locals_assignAll_of_not_mem hn.1,
        Reading.assign_locals_self]

/-- Lambdas applied to as many arguments. -/
theorem conv_apply_lambdas (bs : List Binder) (t : Term) (r : Reading) (us : List Nameless)
    (hl : bs.length = us.length) :
    Conv (((lambdas bs t).read r).apply us) (t.read (assignAll r bs us)) := by
  induction bs generalizing r us with
  | nil =>
    rw [List.length_eq_zero_iff.1 hl.symm]
    exact .refl _
  | cons b bs ih =>
    cases us with
    | nil => simp at hl
    | cons u us =>
      have hbeta : Conv (.app ((lambdas (b :: bs) t).read r) u)
          ((lambdas bs t).read (r.assign b.id u)) := by
        rw [← inst_read]
        exact .beta _ _
      exact .trans (hbeta.apply_left us) (ih (r.assign b.id u) us (by simpa using hl))

end Term

namespace Parametrizes

variable {n : Nat} {ds : List Entry} {s s' : Replacement} {bs : List Binder}

theorem length_eq (h : Parametrizes n ds s bs s') :
    bs.length = (ds.filter (·.value.isNone)).length := by
  induction h with
  | nil => rfl
  | param _ ih => simpa using ih
  | define _ ih => simpa using ih

theorem nodup (h : Parametrizes n ds s bs s') : (bs.map Binder.id).Nodup := by
  induction h with
  | nil => simp
  | param h ih =>
    refine List.nodup_cons.2 ⟨fun hm => ?_, ih⟩
    have := (h.index_lt hm).1
    simp only at this
    omega
  | define _ ih => exact ih

/-- If the parameters read as the variables they stand for, then what is put in for a declaration
reads as its variable. -/
theorem read_eq (h : Parametrizes n ds s bs s') {m : Nat} {r q : Reading} (hm : m ≤ n)
    (hds : Resolvable ds fun x => (s x).isSome)
    (hval : ∀ d ∈ ds, ∀ v, d.value = some v →
      r.locals d.id = v.read r ∧ ∀ x ∈ v.binders, x.index < m)
    (hg : q.globals = r.globals)
    (hbs : bs.map (fun b => q.locals b.id) =
      (ds.filter (·.value.isNone)).map fun d => r.locals d.id)
    (hs : ∀ x u, s x = some u → u.read q = r.locals x ∧ ∀ y ∈ u.occurrences, m ≤ y.index) :
    ∀ x u, s' x = some u → u.read q = r.locals x ∧ ∀ y ∈ u.occurrences, m ≤ y.index := by
  induction h with
  | nil => exact hs
  | @param n z name ds s bs s' _ ih =>
    simp only [Option.isNone_none, List.filter_cons_of_pos, List.map_cons, List.cons.injEq] at hbs
    refine ih (by omega) (hds.tail _) (fun d hd => hval d (List.mem_cons_of_mem _ hd)) hbs.2
      (Replacement.forall_add hs ⟨hbs.1, ?_⟩)
    simpa [Term.occurrences] using hm
  | @define n z name v ds s bs s' _ ih =>
    simp only [Option.isNone_some, Bool.false_eq_true, not_false_eq_true,
      List.filter_cons_of_neg] at hbs
    obtain ⟨hv, hb⟩ := hval _ List.mem_cons_self v rfl
    -- Values bind variables below `m`, and what is put in mentions parameters from `m` on.
    have hcap : v.CaptureFree s := fun x _ u hu y hy hm => by
      have h₁ := (hs x u hu).2 y hy
      have h₂ := hb y hm
      omega
    refine ih hm (hds.tail _) (fun d hd => hval d (List.mem_cons_of_mem _ hd)) hbs
      (Replacement.forall_add hs ⟨?_, ?_⟩)
    · rw [Term.read_substitute q hcap, hv]
      refine Term.read_congr (fun x hx => ?_) fun c _ => congrFun hg c
      obtain ⟨u, hu⟩ := Option.isSome_iff_exists.1 (hds.1 v rfl x hx)
      rw [Reading.through_locals_of_eq_some hu, (hs x u hu).1]
    · intro y hy
      rcases Term.mem_occurrences_substitute hy with ⟨hx, hn⟩ | ⟨x, -, u, hu, hyu⟩
      · have := hds.1 v rfl y hx
        simp [hn] at this
      · exact (hs x u hu).2 y hyu

end Parametrizes

/-- A closed term, applied to the variables that its parameters stand for, is the term itself. -/
theorem Closes.conv {Γ : Context} {n k : Nat} {t closed : Term} {captured : List LocalId}
    (h : Closes Γ n t closed k captured) (hΓ : Γ.Scoped n) (ht : ∀ x ∈ t.occurrences, x ∈ Γ.ids)
    (hb : ∀ x ∈ t.binders, x.index < n) {r : Reading} (hr : r.Respects Γ) :
    Conv ((closed.apply (captured.reverse.map Term.var)).read r) (t.read r) := by
  obtain ⟨hp⟩ := h
  rename_i bs s
  have hres := (hΓ.needed t.occurrences).resolvable
  have hmem {d : Entry} (hd : d ∈ (Γ.needed t.occurrences).reverse) : d ∈ Γ :=
    Context.mem_of_mem_needed (List.mem_reverse.1 hd)
  generalize hds : (Γ.needed t.occurrences).reverse = ds at hp hres hmem
  let us := (ds.filter (·.value.isNone)).map fun d => r.locals d.id
  have hlen : bs.length = us.length := by simpa [us] using hp.length_eq
  have hargs : ((((Γ.needed t.occurrences).filter (·.value.isNone)).map Entry.id).reverse.map
      Term.var).map (Term.read r) = us := by
    simp only [us, ← hds, List.filter_reverse, List.map_reverse, List.map_map]
    rfl
  -- The parameters read as the variables they stand for, so the body reads as before.
  have hread := hp.read_eq (q := Term.assignAll r bs us) (r := r) (Nat.le_refl n)
    (by simpa [Replacement.empty] using hres)
    (fun d hd v hv => ⟨hr d (hmem hd) v hv, (hΓ.value_scoped (hmem hd) hv).2⟩)
    (Term.globals_assignAll r bs us) (Term.map_locals_assignAll hp.nodup hlen)
    (by simp [Replacement.empty])
  have hcap : t.CaptureFree s := fun x _ u hu y hy hm => by
    have h₁ := (hread x u hu).2 y hy
    have h₂ := hb y hm
    omega
  rw [Term.read_apply, hargs]
  refine .trans (Term.conv_apply_lambdas bs _ r us hlen) (.of_eq ?_)
  rw [Term.read_substitute _ hcap]
  refine Term.read_congr (fun x hx => ?_) fun c _ => congrFun (Term.globals_assignAll r bs us) c
  have hx' : x ∈ ds.map Entry.id := by
    simpa [← hds, Context.ids] using Context.mem_ids_needed hx (ht x hx)
  obtain ⟨u, hu⟩ := Option.isSome_iff_exists.1 (hp.isSome_of_mem hx')
  rw [Reading.through_locals_of_eq_some hu, (hread x u hu).1]

theorem Calls.conv {ctx : LiftContext} {w w' : Stage} {t u : Term} (h : Calls ctx w t w' u)
    {r : Reading} (hr : r.Solves w'.lifted) : Conv (u.read r) (t.read r) := by
  cases h with
  | reuse => exact t.conv_etaReduce r
  | @new _ name _ _ _ =>
    exact .of_eq (hr ⟨name, t⟩ (List.mem_append_right _ (List.mem_singleton.2 rfl))).2

/-- Lifting as far as it is given by `R` keeps the meaning of terms that bind variables below
`m`. -/
def Judgment.Means (m : Nat) (R : Judgment) : Prop :=
  ∀ ⦃Γ w t w' u⦄, Γ.Apart m w.nextLocal → Unlifted m Γ t → R Γ w t w' u →
    ∀ r : Reading, r.Respects Γ → r.Solves w'.lifted → Conv (u.read r) (t.read r)

namespace Judgment.Means

variable {ctx : LiftContext} {R : Judgment} {m : Nat} {Γ : Context} {w w' : Stage}

theorem each {α : Type} (term : α → Term) {P : Stage → α → Stage → Term → Prop}
    (hS : ∀ ⦃w x w' u⦄, Γ.Scoped w.nextLocal → P w x w' u → w.Advances w' ∧ Tidy Γ w' u)
    (hP : ∀ ⦃w x w' u⦄, Γ.Apart m w.nextLocal → Unlifted m Γ (term x) → P w x w' u →
      ∀ r : Reading, r.Respects Γ → r.Solves w'.lifted → Conv (u.read r) ((term x).read r))
    {xs : List α} {us : List Term} (hΓ : Γ.Apart m w.nextLocal)
    (hxs : ∀ x ∈ xs, Unlifted m Γ (term x)) (h : Each P w xs w' us) {r : Reading}
    (hr : r.Respects Γ) (hds : r.Solves w'.lifted) :
    List.Forall₂ Conv (us.map (Term.read r)) ((xs.map term).map (Term.read r)) := by
  induction h with
  | nil => exact .nil
  | cons hx hrest ih =>
    obtain ⟨hx', hxs⟩ := List.forall_mem_cons.1 hxs
    obtain ⟨h₁, -⟩ := hS hΓ.isScoped hx
    have hΓ₁ := hΓ.mono h₁.nextLocal_le
    obtain ⟨h₂, -⟩ := Judgment.Scopes.each hS hΓ₁.isScoped hrest
    exact .cons (hP hΓ hx' hx r hr (hds.of_advances h₂)) (ih hΓ₁ hxs hds)

theorem under (hR : R.Means m) (k : Nat) : (Under ctx R k).Means m := by
  rintro Γ w t w' - hΓ ht ⟨hp, hbody⟩ r hr hds
  rename_i bs inner u
  have hopen := Opening.start ht
  have hinner : Unlifted m (Γ.enter bs) inner := hp.unlifted hΓ hopen
  have hconv := hp.conv hΓ hopen (fun q hq hd => hR (hΓ.enter hp) hinner hbody q hq hd) hr hds
  rwa [Term.substitute_empty] at hconv

theorem arm (hR : R.Means m) (params : Nat) ⦃w : Stage⦄ ⦃x : Name × Term⦄ ⦃w' : Stage⦄
    ⦃u : Term⦄ (hΓ : Γ.Apart m w.nextLocal) (hx : Unlifted m Γ x.2)
    (h : Arm ctx R params Γ w x w' u) (r : Reading) (hr : r.Respects Γ)
    (hds : r.Solves w'.lifted) : Conv (u.read r) (x.2.read r) := by
  obtain ⟨-, h⟩ := h
  exact hR.under _ hΓ hx h r hr hds

theorem chain (hS : R.Scopes) (hR : R.Means m) {s : Replacement} {t u : Term}
    {ds : List (Binder × Term)} (hΓ : Γ.Apart m w.nextLocal) (hs : Opening m Γ s t)
    (h : Chain R Γ s w t w' ds u) {r : Reading} (hr : r.Respects Γ) (hds : r.Solves w'.lifted) :
    Conv ((Term.lets ds u).read r) ((t.substitute s).read r) := by
  induction h generalizing r with
  | done _ hbody => exact hR hΓ hs.unlifted hbody r hr hds
  | @letIn Γ s w b v body w' v' w'' ds u hv hrest ih =>
    have hsv : Opening m Γ s v := hs.value
    obtain ⟨h₁, hv'⟩ := hS hΓ.isScoped hv
    have hΓ₁ := hΓ.mono h₁.nextLocal_le
    have hΓ' := hΓ₁.declare b.name (some v') fun _ e =>
      Option.some.inj e ▸ ⟨hv'.mem_ids, hv'.binder_lt⟩
    obtain ⟨h₂, -⟩ := hS.chain hΓ'.isScoped hrest
    have hvalue : Conv (v'.read r) ((v.substitute s).read r) :=
      hR hΓ hsv.unlifted hv r hr (hds.of_advances ((Stage.Advances.mint w' 1).trans h₂))
    have hocc : ∀ x ∈ body.occurrences, x ≠ b.id → x ∈ (Term.letIn b v body).occurrences :=
      fun x hx hne => by simp [Term.occurrences, hx, hne]
    have hbnd : ∀ x ∈ body.binders, x ∈ (Term.letIn b v body).binders :=
      fun x hx => by simp [Term.binders, hx]
    have hin := ih hΓ' hs.letBody (hr.assign (u := v'.read r) hΓ₁.isScoped hΓ₁.not_mem b.name
      fun _ e => Option.some.inj e ▸ ⟨rfl, hv'.mem_ids⟩) (hds.assign _ _)
    have hread := hs.read_add (x := ⟨w'.nextLocal⟩) (r := r.assign ⟨w'.nextLocal⟩ (v'.read r))
      (q := r.assign b.id (v'.read r)) hΓ hocc hbnd hΓ₁.le rfl (by simp) fun y hy => by
        have hyn : y ≠ ⟨w'.nextLocal⟩ := fun e => hΓ₁.not_mem (e ▸ hy)
        have hyb : y ≠ b.id := hs.ne_of_mem_binders hΓ hy List.mem_cons_self
        rw [Reading.assign_locals_of_ne hyn, Reading.assign_locals_of_ne hyb]
    rw [hread, ← Term.inst_read, ← Term.inst_read] at hin
    -- Unfold both definitions; their values are convertible.
    exact .trans (.unfold _ _) (.trans hin (.trans (.symm (.unfold _ _)) (.letIn hvalue (.refl _))))

theorem rule (hS : R.Scopes) (hR : R.Means m) : (Rule ctx R).Means m := by
  intro Γ w t w' u hΓ ht h r hr hds
  cases h with
  | var => exact .refl _
  | global c => exact .refl _
  | lit l => exact .refl _
  | @dispatch _ _ c type t scrut arms extra _ _ _ _ _ _ _ _ hlen hscrut hextra harms =>
    obtain ⟨-, hargs⟩ := ht.of_apply
    obtain ⟨huscrut, hargs⟩ := List.forall_mem_cons.1 hargs
    obtain ⟨huarms, huextra⟩ := List.forall_mem_append.1 hargs
    obtain ⟨h₁, -⟩ := hS hΓ.isScoped hscrut
    have hΓ₁ := hΓ.mono h₁.nextLocal_le
    obtain ⟨h₂, -⟩ := Judgment.Scopes.each (@hS Γ) hΓ₁.isScoped hextra
    have hΓ₂ := hΓ₁.mono h₂.nextLocal_le
    obtain ⟨h₃, -⟩ := Judgment.Scopes.each (hS.arm _) hΓ₂.isScoped harms
    have hzip : (t.constructors.zip arms).map Prod.snd = arms :=
      List.map_snd_zip (Nat.le_of_eq hlen)
    have hds₂ := hds.of_advances h₃
    have hcscrut := hR hΓ huscrut hscrut r hr (hds₂.of_advances h₂)
    have hcextra := each id (@hS Γ) (@hR Γ) hΓ₁ huextra hextra hr hds₂
    have hcarms := each Prod.snd (hS.arm _) (hR.arm _) hΓ₂
      (fun x hx => huarms x.2 (List.of_mem_zip hx).2) harms hr hds
    rw [List.map_id] at hcextra
    rw [hzip] at hcarms
    rw [Term.read_apply, Term.read_apply]
    refine Conv.apply (.refl _) ?_
    simp only [List.map_cons, List.map_append]
    exact .cons hcscrut (List.rel_append hcarms hcextra)
  | beta hstep _ hbody =>
    obtain ⟨hu, hconv⟩ := ht.transGen hΓ hstep r
    exact .trans (hR hΓ hu hbody r hr hds) hconv
  | call _ _ _ _ hf hargs =>
    obtain ⟨huf, huargs⟩ := ht.of_apply
    obtain ⟨h₁, -⟩ := hS hΓ.isScoped hf
    have hΓ₁ := hΓ.mono h₁.nextLocal_le
    obtain ⟨h₂, -⟩ := Judgment.Scopes.each (@hS Γ) hΓ₁.isScoped hargs
    have hcf := hR hΓ huf hf r hr (hds.of_advances h₂)
    have hcargs := each id (@hS Γ) (@hR Γ) hΓ₁ huargs hargs hr hds
    rw [List.map_id] at hcargs
    rw [Term.read_apply, Term.read_apply]
    exact hcf.apply hcargs
  | @lam _ _ b body w₁ e closed k captured _ callee hunder hcloses hcalls =>
    obtain ⟨h₁, he⟩ := hS.under _ hΓ.isScoped hunder
    have hΓ₁ := hΓ.isScoped.mono h₁.nextLocal_le
    have hclosed := hcloses.closed_of_scoped hΓ₁ he.mem_ids
    obtain ⟨h₂, -⟩ := hcalls.tidy hclosed (fun x => hcloses.binder_lt hΓ₁ he.binder_lt) Γ
    have hds₁ := hds.of_advances ((Stage.Advances.mint w₁ k).trans h₂)
    -- A call means the closed abstraction applied to what it captures, and that is the abstraction.
    have hcallee := hcalls.conv hds
    have hcall : Conv ((callee.apply (captured.reverse.map Term.var)).read r)
        ((closed.apply (captured.reverse.map Term.var)).read r) := by
      rw [Term.read_apply, Term.read_apply]
      exact hcallee.apply_left _
    have hinline := hcloses.conv hΓ₁ he.mem_ids he.binder_lt hr
    exact .trans hcall (.trans hinline (hR.under _ hΓ ht hunder r hr hds₁))
  | letIn hchain =>
    have hconv := hR.chain hS hΓ (.start ht) hchain hr hds
    rwa [Term.substitute_empty] at hconv

end Judgment.Means

/-- Lifted terms mean what the terms meant that they come from. -/
theorem LiftsIn.means (ctx : LiftContext) (m n : Nat) : (LiftsIn ctx n).Means m := by
  induction n with
  | zero => exact fun _ _ _ _ _ _ _ h => h.elim
  | succ n ih => exact ih.rule (LiftsIn.scoped ctx n)

end LambdaLifting
