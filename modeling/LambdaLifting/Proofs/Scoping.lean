import LambdaLifting.Proofs.Eta

namespace LambdaLifting

namespace Context

@[simp]
theorem ids_cons (d : Entry) (Γ : Context) : ids (d :: Γ) = d.id :: ids Γ := rfl

@[simp]
theorem enter_cons (Γ : Context) (b : Binder) (bs : List Binder) :
    Γ.enter (b :: bs) = enter (⟨b.id, b.name, none⟩ :: Γ) bs := rfl

theorem mem_ids_enter {Γ : Context} {bs : List Binder} {x : LocalId} :
    x ∈ (Γ.enter bs).ids ↔ x ∈ bs.map Binder.id ∨ x ∈ Γ.ids := by
  induction bs generalizing Γ with
  | nil => simp [enter]
  | cons b bs ih =>
    rw [enter_cons, ih, ids_cons, List.mem_cons, List.map_cons, List.mem_cons]
    tauto

namespace Scoped

theorem mono {n m : Nat} {Γ : Context} (h : Scoped n Γ) (hnm : n ≤ m) : Scoped m Γ := by
  induction h with
  | nil => exact .nil
  | cons _ hd hn hv ih =>
    refine .cons ih hd (by omega) fun v e => ⟨(hv v e).1, fun x hx => ?_⟩
    have := (hv v e).2 x hx
    omega

theorem index_lt {n : Nat} {Γ : Context} (h : Scoped n Γ) {x : LocalId} (hx : x ∈ Γ.ids) :
    x.index < n := by
  induction h with
  | nil => simp [ids] at hx
  | cons _ _ hn _ ih =>
    rcases List.mem_cons.1 hx with rfl | hx
    · exact hn
    · exact ih hx

theorem nodup_ids {n : Nat} {Γ : Context} (h : Scoped n Γ) : Γ.ids.Nodup := by
  induction h with
  | nil => exact List.nodup_nil
  | cons _ hd _ _ ih => exact List.nodup_cons.2 ⟨hd, ih⟩

theorem value_scoped {n : Nat} {Γ : Context} (h : Scoped n Γ) {d : Entry} (hd : d ∈ Γ) {v : Term}
    (hv : d.value = some v) : (∀ x ∈ v.occurrences, x ∈ Γ.ids) ∧ ∀ x ∈ v.binders, x.index < n := by
  induction h with
  | nil => simp at hd
  | cons _ _ _ hc ih =>
    rcases List.mem_cons.1 hd with rfl | hd
    · exact ⟨fun x hx => List.mem_cons_of_mem _ ((hc v hv).1 x hx), (hc v hv).2⟩
    · exact ⟨fun x hx => List.mem_cons_of_mem _ ((ih hd).1 x hx), (ih hd).2⟩

/-- A new variable, with a value that mentions what is in scope. -/
theorem declare {n : Nat} {Γ : Context} (h : Scoped n Γ) (name : Name) (value : Option Term)
    (hv : ∀ v, value = some v →
      (∀ x ∈ v.occurrences, x ∈ Γ.ids) ∧ ∀ x ∈ v.binders, x.index < n) :
    Scoped (n + 1) (⟨⟨n⟩, name, value⟩ :: Γ) := by
  refine .cons (h.mono (by omega)) (fun hn => ?_) (by simp) fun v e => ⟨(hv v e).1, fun x hx => ?_⟩
  · have := h.index_lt hn
    simp at this
  · have := (hv v e).2 x hx
    omega

theorem param {n : Nat} {Γ : Context} (h : Scoped n Γ) (name : Name) :
    Scoped (n + 1) (⟨⟨n⟩, name, none⟩ :: Γ) :=
  h.declare name none (by simp)

theorem of_append {n : Nat} {Δ Γ : Context} (h : Scoped n (Δ ++ Γ)) : Scoped n Γ := by
  induction Δ with
  | nil => exact h
  | cons d Δ ih =>
    cases h with
    | cons h _ _ _ => exact ih h

theorem not_mem_of_append {n : Nat} {Δ Γ : Context} (h : Scoped n (Δ ++ Γ)) {x : LocalId}
    (hx : x ∈ Δ.ids) : x ∉ Γ.ids := by
  induction Δ with
  | nil => simp [ids] at hx
  | cons d Δ ih =>
    cases h with
    | cons h hd _ _ =>
      rcases List.mem_cons.1 hx with rfl | hx
      · intro hm
        obtain ⟨c, hc, hid⟩ := List.mem_map.1 hm
        exact hd (List.mem_map.2 ⟨c, List.mem_append_right Δ hc, hid⟩)
      · exact ih h hx

end Scoped

theorem mem_of_mem_needed {Γ : Context} {xs : List LocalId} {d : Entry}
    (h : d ∈ Γ.needed xs) : d ∈ Γ := by
  induction Γ generalizing xs with
  | nil => simp [needed] at h
  | cons c Γ ih =>
    rw [needed] at h
    split at h
    · rcases List.mem_cons.1 h with rfl | h
      · exact List.mem_cons_self
      · exact List.mem_cons_of_mem _ (ih h)
    · exact List.mem_cons_of_mem _ (ih h)

theorem mem_ids_of_mem_ids_needed {Γ : Context} {xs : List LocalId} {x : LocalId}
    (h : x ∈ (Γ.needed xs).ids) : x ∈ Γ.ids := by
  obtain ⟨d, hd, rfl⟩ := List.mem_map.1 h
  exact List.mem_map_of_mem (mem_of_mem_needed hd)

theorem mem_ids_needed {Γ : Context} {xs : List LocalId} {x : LocalId} (hx : x ∈ xs)
    (h : x ∈ Γ.ids) : x ∈ (Γ.needed xs).ids := by
  induction Γ generalizing xs with
  | nil => simp [ids] at h
  | cons c Γ ih =>
    rw [needed]
    split
    · rcases List.mem_cons.1 h with rfl | h
      · simp
      · simp [ih (List.mem_append_left _ hx) h]
    · next hc =>
      rcases List.mem_cons.1 h with rfl | h
      · exact absurd hx hc
      · exact ih hx h

/-- What the needed definitions mention is needed as well. -/
theorem Scoped.needed {n : Nat} {Γ : Context} (h : Scoped n Γ) (xs : List LocalId) :
    Scoped n (Γ.needed xs) := by
  induction h generalizing xs with
  | nil => exact .nil
  | cons _ hd hn hv ih =>
    rw [Context.needed]
    split
    · refine .cons (ih _) (fun hm => hd (mem_ids_of_mem_ids_needed hm)) hn fun v e => ?_
      refine ⟨fun x hx => mem_ids_needed ?_ ((hv v e).1 x hx), (hv v e).2⟩
      simp [e, hx]
    · exact ih xs

end Context

/-- All values of a list of declarations, oldest first, mention earlier declarations only, or else
variables in `P`. -/
def Resolvable : List Entry → (LocalId → Prop) → Prop
  | [], _ => True
  | d :: ds, P =>
    (∀ v, d.value = some v → ∀ x ∈ v.occurrences, P x) ∧ Resolvable ds fun x => x = d.id ∨ P x

theorem Resolvable.append {ds es : List Entry} {P : LocalId → Prop} (hd : Resolvable ds P)
    (he : Resolvable es fun x => x ∈ ds.map Entry.id ∨ P x) : Resolvable (ds ++ es) P := by
  induction ds generalizing P with
  | nil => simpa using he
  | cons d ds ih =>
    refine ⟨hd.1, ih hd.2 ?_⟩
    convert he using 2 with x
    simp only [List.map_cons, List.mem_cons]
    tauto

theorem Resolvable.tail {d : Entry} {ds : List Entry} {s : Replacement}
    (h : Resolvable (d :: ds) fun x => (s x).isSome) (u : Term) :
    Resolvable ds fun x => (s.add d.id u x).isSome := by
  convert h.2 using 2 with x
  by_cases e : x = d.id
  · simp [e]
  · simp [e, s.add_of_ne u e]

theorem Context.Scoped.resolvable {n : Nat} {Γ : Context} (h : Scoped n Γ) :
    Resolvable Γ.reverse fun _ => False := by
  induction h with
  | nil => trivial
  | @cons d Γ _ _ _ hv ih =>
    rw [List.reverse_cons]
    refine ih.append ⟨fun v e x hx => .inl ?_, trivial⟩
    simpa [ids] using (hv v e).1 x hx

namespace Peels

variable {anonymous : Name} {k n : Nat} {s : Replacement} {t inner : Term} {bs : List Binder}

theorem length_eq (h : Peels anonymous k s n t bs inner) : bs.length = k := by
  induction h with
  | done => rfl
  | lam _ ih => simp [ih]
  | expand _ _ ih => simp [ih]

theorem index_lt (h : Peels anonymous k s n t bs inner) {x : LocalId}
    (hx : x ∈ bs.map Binder.id) : n ≤ x.index ∧ x.index < n + k := by
  induction h with
  | done => simp at hx
  | lam _ ih =>
    rcases List.mem_cons.1 hx with rfl | hx
    · simp
    · have := ih hx
      omega
  | expand _ _ ih =>
    rcases List.mem_cons.1 hx with rfl | hx
    · simp
    · have := ih hx
      omega

theorem scoped_enter (h : Peels anonymous k s n t bs inner) {Γ : Context} (hΓ : Γ.Scoped n) :
    (Γ.enter bs).Scoped (n + k) := by
  induction h generalizing Γ with
  | done => exact hΓ
  | @lam _ _ _ b _ _ _ _ ih =>
    have := ih (hΓ.param b.name)
    rwa [Nat.add_right_comm] at this
  | expand _ _ ih =>
    have := ih (hΓ.param anonymous)
    rwa [Nat.add_right_comm] at this

end Peels

namespace Parametrizes

variable {n : Nat} {ds : List Entry} {s s' : Replacement} {bs : List Binder}

theorem index_lt (h : Parametrizes n ds s bs s') {x : LocalId} (hx : x ∈ bs.map Binder.id) :
    n ≤ x.index ∧ x.index < n + bs.length := by
  induction h with
  | nil => simp at hx
  | param _ ih =>
    rcases List.mem_cons.1 hx with rfl | hx
    · simp
    · have := ih hx
      simp only [List.length_cons]
      omega
  | define _ ih => exact ih hx

theorem isSome_of_isSome (h : Parametrizes n ds s bs s') {x : LocalId} (hx : (s x).isSome) :
    (s' x).isSome := by
  have add (s : Replacement) (y : LocalId) (u : Term) (hx : (s x).isSome) :
      (s.add y u x).isSome := by
    by_cases e : x = y
    · simp [e]
    · rwa [s.add_of_ne u e]
  induction h with
  | nil => exact hx
  | param _ ih => exact ih (add _ _ _ hx)
  | define _ ih => exact ih (add _ _ _ hx)

theorem isSome_of_mem (h : Parametrizes n ds s bs s') {x : LocalId} (hx : x ∈ ds.map Entry.id) :
    (s' x).isSome := by
  induction h with
  | nil => simp at hx
  | param h ih =>
    rcases List.mem_cons.1 hx with rfl | hx
    · exact h.isSome_of_isSome (by simp)
    · exact ih hx
  | define h ih =>
    rcases List.mem_cons.1 hx with rfl | hx
    · exact h.isSome_of_isSome (by simp)
    · exact ih hx

theorem mem_occurrences (h : Parametrizes n ds s bs s') {B : LocalId → Prop}
    (hds : Resolvable ds fun x => (s x).isSome)
    (hs : ∀ x u, s x = some u → ∀ y ∈ u.occurrences, B y) {x : LocalId} {u : Term}
    (hu : s' x = some u) {y : LocalId} (hy : y ∈ u.occurrences) :
    y ∈ bs.map Binder.id ∨ B y := by
  induction h generalizing B with
  | nil => exact .inr (hs x u hu y hy)
  | @param n z name ds s bs s' _ ih =>
    have hB : ∀ x u, s.add z (.var ⟨n⟩) x = some u → ∀ y ∈ u.occurrences, y = ⟨n⟩ ∨ B y :=
      Replacement.forall_add (fun x u hu y hy => .inr (hs x u hu y hy)) (by simp [Term.occurrences])
    have := ih (hds.tail _) hB hu
    simp only [List.map_cons, List.mem_cons]
    tauto
  | @define n z name v ds s bs s' _ ih =>
    refine ih (hds.tail _) (Replacement.forall_add hs fun y hy => ?_) hu
    rcases Term.mem_occurrences_substitute hy with ⟨hv, hn⟩ | ⟨w, -, u, hu, hyu⟩
    · have := hds.1 v rfl y hv
      simp [hn] at this
    · exact hs w u hu y hyu

/-- What holds of all values, and is kept by substitution, holds of all that is put in. -/
theorem forall_of_substitute (h : Parametrizes n ds s bs s') {P : Term → Prop}
    (hvar : ∀ x, P (.var x))
    (hsub : ∀ v s, P v → (∀ x u, s x = some u → P u) → P (v.substitute s))
    (hds : ∀ d ∈ ds, ∀ v, d.value = some v → P v) (hs : ∀ x u, s x = some u → P u) :
    ∀ x u, s' x = some u → P u := by
  induction h with
  | nil => exact hs
  | param _ ih =>
    exact ih (fun d hd => hds d (List.mem_cons_of_mem _ hd)) (Replacement.forall_add hs (hvar _))
  | define _ ih =>
    have hv := hds _ List.mem_cons_self _ rfl
    exact ih (fun d hd => hds d (List.mem_cons_of_mem _ hd))
      (Replacement.forall_add hs (hsub _ _ hv hs))

end Parametrizes

namespace Term

theorem closed_iff {t : Term} : t.Closed ↔ ∀ x, x ∉ t.occurrences :=
  List.eq_nil_iff_forall_not_mem

end Term

namespace Closes

variable {Γ : Context} {n k : Nat} {t closed : Term} {captured : List LocalId}

theorem closed_of_scoped (h : Closes Γ n t closed k captured) (hΓ : Γ.Scoped n)
    (ht : ∀ x ∈ t.occurrences, x ∈ Γ.ids) : closed.Closed := by
  obtain ⟨hp⟩ := h
  rename_i bs s
  refine Term.closed_iff.2 fun x hx => ?_
  rw [Term.mem_occurrences_lambdas] at hx
  -- Every free variable is needed, so it is replaced; what replaces it mentions parameters only.
  rcases Term.mem_occurrences_substitute hx.1 with ⟨hxt, hn⟩ | ⟨y, -, u, hu, hxu⟩
  · have hmem := Context.mem_ids_needed hxt (ht x hxt)
    have := hp.isSome_of_mem (x := x) (by simpa [Context.ids] using hmem)
    simp [hn] at this
  · have hr := (hΓ.needed t.occurrences).resolvable
    have := hp.mem_occurrences (B := fun _ => False) (by simpa [Replacement.empty] using hr)
      (by simp [Replacement.empty]) hu hxu
    exact hx.2 (by simpa using this)

theorem mem_ids_of_mem_captured (h : Closes Γ n t closed k captured) {x : LocalId}
    (hx : x ∈ captured) : x ∈ Γ.ids := by
  obtain ⟨-⟩ := h
  obtain ⟨d, hd, rfl⟩ := List.mem_map.1 hx
  exact List.mem_map_of_mem (Context.mem_of_mem_needed (List.mem_filter.1 hd).1)

/-- A closed term has parameters and a substitution. What holds of all values in scope, and is kept
by substitution, holds of all that is put in. -/
theorem exists_substitute (h : Closes Γ n t closed k captured) {P : Term → Prop}
    (hvar : ∀ x, P (.var x))
    (hsub : ∀ v s, P v → (∀ x u, s x = some u → P u) → P (v.substitute s))
    (hΓ : ∀ d ∈ Γ, ∀ v, d.value = some v → P v) :
    ∃ bs s, closed = Term.lambdas bs (t.substitute s) ∧ (∀ x u, s x = some u → P u) ∧
      ∀ x ∈ bs.map Binder.id, n ≤ x.index ∧ x.index < n + k := by
  obtain ⟨hp⟩ := h
  refine ⟨_, _, rfl, ?_, fun x => hp.index_lt⟩
  refine hp.forall_of_substitute hvar hsub (fun d hd => hΓ d ?_) (by simp [Replacement.empty])
  exact Context.mem_of_mem_needed (List.mem_reverse.1 hd)

theorem binder_lt (h : Closes Γ n t closed k captured) (hΓ : Γ.Scoped n)
    (ht : ∀ x ∈ t.binders, x.index < n) {x : LocalId} (hx : x ∈ closed.binders) :
    x.index < n + k := by
  have hsub (v : Term) (s : Replacement) (hv : ∀ x ∈ v.binders, x.index < n)
      (hs : ∀ x u, s x = some u → ∀ y ∈ u.binders, y.index < n) :
      ∀ y ∈ (v.substitute s).binders, y.index < n := by
    intro y hy
    rcases Term.mem_binders_substitute hy with hy | ⟨z, u, hu, hyu⟩
    · exact hv y hy
    · exact hs z u hu y hyu
  obtain ⟨bs, s, rfl, hs, hbs⟩ := h.exists_substitute (by simp [Term.binders]) hsub
    fun d hd v hv => (hΓ.value_scoped hd hv).2
  rcases Term.mem_binders_lambdas.1 hx with hx | hx
  · exact (hbs x hx).2
  · exact Nat.lt_add_right k (hsub t s ht hs x hx)

end Closes

/-- A later stage: more variables are handed out, and more closed terms, which bind such variables,
have become procedures. -/
structure Stage.Advances (w w' : Stage) : Prop where
  nextLocal_le : w.nextLocal ≤ w'.nextLocal
  lifted_eq : ∃ ds, w'.lifted = w.lifted ++ ds ∧
    ∀ d ∈ ds, d.body.Closed ∧ ∀ x ∈ d.body.binders, x.index < w'.nextLocal

namespace Stage.Advances

theorem refl (w : Stage) : w.Advances w := ⟨Nat.le_refl _, [], by simp⟩

theorem trans {w w' w'' : Stage} (h : w.Advances w') (h' : w'.Advances w'') : w.Advances w'' := by
  obtain ⟨ds, hds, hc⟩ := h.lifted_eq
  obtain ⟨es, hes, hc'⟩ := h'.lifted_eq
  refine ⟨Nat.le_trans h.nextLocal_le h'.nextLocal_le, ds ++ es, by simp [hes, hds], ?_⟩
  refine List.forall_mem_append.2 ⟨fun d hd => ⟨(hc d hd).1, fun x hx => ?_⟩, hc'⟩
  exact Nat.lt_of_lt_of_le ((hc d hd).2 x hx) h'.nextLocal_le

theorem mint (w : Stage) (k : Nat) : w.Advances (w.mint k) :=
  ⟨Nat.le_add_right _ k, [], by simp [Stage.mint]⟩

end Stage.Advances

/-- A term that mentions what is in scope and binds variables handed out already. -/
structure Tidy (Γ : Context) (w : Stage) (t : Term) : Prop where
  mem_ids : ∀ x ∈ t.occurrences, x ∈ Γ.ids
  binder_lt : ∀ x ∈ t.binders, x.index < w.nextLocal

theorem Tidy.mono {Γ : Context} {w w' : Stage} {t : Term} (h : Tidy Γ w t) (hw : w.Advances w') :
    Tidy Γ w' t :=
  ⟨h.mem_ids, fun x hx => Nat.lt_of_lt_of_le (h.binder_lt x hx) hw.nextLocal_le⟩

theorem Tidy.apply {Γ : Context} {w : Stage} {f : Term} {xs : List Term} (hf : Tidy Γ w f)
    (hxs : ∀ x ∈ xs, Tidy Γ w x) : Tidy Γ w (f.apply xs) := by
  constructor
  · intro y hy
    rcases Term.mem_occurrences_apply.1 hy with hy | ⟨x, hx, hy⟩
    · exact hf.mem_ids y hy
    · exact (hxs x hx).mem_ids y hy
  · intro y hy
    rcases Term.mem_binders_apply.1 hy with hy | ⟨x, hx, hy⟩
    · exact hf.binder_lt y hy
    · exact (hxs x hx).binder_lt y hy

theorem Calls.tidy {ctx : LiftContext} {w w' : Stage} {t u : Term} (h : Calls ctx w t w' u)
    (ht : t.Closed) (hb : ∀ x ∈ t.binders, x.index < w.nextLocal) (Γ : Context) :
    w.Advances w' ∧ Tidy Γ w' u := by
  cases h with
  | reuse =>
    refine ⟨.refl w, fun x hx => ?_, fun x hx => hb x (Term.mem_binders_of_etaReduce hx)⟩
    exact absurd (Term.mem_occurrences_etaReduce.1 hx) (Term.closed_iff.1 ht x)
  | new =>
    refine ⟨⟨Nat.le_refl _, _, rfl, ?_⟩, by simp [Term.occurrences], by simp [Term.binders]⟩
    simpa using ⟨ht, hb⟩

/-- Lifting as far as it is given by `R` respects scopes. -/
def Judgment.Scopes (R : Judgment) : Prop :=
  ∀ ⦃Γ w t w' u⦄, Γ.Scoped w.nextLocal → R Γ w t w' u → w.Advances w' ∧ Tidy Γ w' u

namespace Judgment.Scopes

variable {ctx : LiftContext} {R : Judgment} {Γ : Context} {w w' : Stage}

theorem each {α : Type} {P : Stage → α → Stage → Term → Prop}
    (hP : ∀ ⦃w x w' u⦄, Γ.Scoped w.nextLocal → P w x w' u → w.Advances w' ∧ Tidy Γ w' u)
    {xs : List α} {us : List Term} (hΓ : Γ.Scoped w.nextLocal) (h : Each P w xs w' us) :
    w.Advances w' ∧ ∀ u ∈ us, Tidy Γ w' u := by
  induction h with
  | nil w => exact ⟨.refl w, by simp⟩
  | cons hx _ ih =>
    obtain ⟨h₁, hu⟩ := hP hΓ hx
    obtain ⟨h₂, hus⟩ := ih (hΓ.mono h₁.nextLocal_le)
    exact ⟨h₁.trans h₂, List.forall_mem_cons.2 ⟨hu.mono h₂, hus⟩⟩

theorem under (hR : R.Scopes) (k : Nat) : (Under ctx R k).Scopes := by
  rintro Γ w t w' - hΓ ⟨hp, hr⟩
  rename_i bs inner u
  obtain ⟨ha, hu⟩ := hR (hp.scoped_enter hΓ) hr
  refine ⟨(Stage.Advances.mint w k).trans ha, fun x hx => ?_, fun x hx => ?_⟩
  · rw [Term.mem_occurrences_lambdas] at hx
    exact (Context.mem_ids_enter.1 (hu.mem_ids x hx.1)).resolve_left hx.2
  · rcases Term.mem_binders_lambdas.1 hx with hx | hx
    · have := (hp.index_lt hx).2
      have := ha.nextLocal_le
      simp only [Stage.mint] at this
      omega
    · exact hu.binder_lt x hx

theorem arm (hR : R.Scopes) (params : Nat) ⦃w : Stage⦄ ⦃x : Name × Term⦄ ⦃w' : Stage⦄ ⦃u : Term⦄
    (hΓ : Γ.Scoped w.nextLocal) (h : Arm ctx R params Γ w x w' u) :
    w.Advances w' ∧ Tidy Γ w' u := by
  obtain ⟨-, h⟩ := h
  exact hR.under _ hΓ h

theorem chain (hR : R.Scopes) {s : Replacement} {t u : Term} {ds : List (Binder × Term)}
    (hΓ : Γ.Scoped w.nextLocal) (h : Chain R Γ s w t w' ds u) :
    w.Advances w' ∧ Tidy Γ w' (Term.lets ds u) := by
  induction h with
  | done _ hr => exact hR hΓ hr
  | @letIn Γ s w b v body w' v' w'' ds u hr hc ih =>
    obtain ⟨h₁, hv⟩ := hR hΓ hr
    have hΓ' := (hΓ.mono h₁.nextLocal_le).declare b.name (some v') fun _ e =>
      Option.some.inj e ▸ ⟨hv.mem_ids, hv.binder_lt⟩
    obtain ⟨h₂, hu⟩ := ih hΓ'
    -- The variable of the definition was handed out between its value and the rest of the chain.
    have h₂' := (Stage.Advances.mint w' 1).trans h₂
    refine ⟨h₁.trans h₂', fun x hx => ?_, fun x hx => ?_⟩
    · rcases List.mem_append.1 hx with hx | hx
      · exact hv.mem_ids x hx
      · obtain ⟨hx, hne⟩ := List.mem_filter.1 hx
        exact (List.mem_cons.1 (hu.mem_ids x hx)).resolve_left (by simpa using hne)
    · rcases List.mem_cons.1 hx with rfl | hx
      · exact Nat.lt_of_lt_of_le (Nat.lt_succ_self _) h₂.nextLocal_le
      · rcases List.mem_append.1 hx with hx | hx
        · exact (hv.mono h₂').binder_lt x hx
        · exact hu.binder_lt x hx

theorem rule (hR : R.Scopes) : (Rule ctx R).Scopes := by
  intro Γ w t w' u hΓ h
  cases h with
  | var hx => exact ⟨.refl w, by simpa [Term.occurrences] using hx, by simp [Term.binders]⟩
  | global c => exact ⟨.refl w, by simp [Term.occurrences], by simp [Term.binders]⟩
  | lit l => exact ⟨.refl w, by simp [Term.occurrences], by simp [Term.binders]⟩
  | dispatch _ _ _ hs he ha =>
    obtain ⟨h₁, hs⟩ := hR hΓ hs
    have hΓ₁ := hΓ.mono h₁.nextLocal_le
    obtain ⟨h₂, he⟩ := each (@hR Γ) hΓ₁ he
    obtain ⟨h₃, ha⟩ := each (hR.arm _) (hΓ₁.mono h₂.nextLocal_le) ha
    refine ⟨h₁.trans (h₂.trans h₃), .apply ⟨by simp [Term.occurrences], by simp [Term.binders]⟩ ?_⟩
    intro x hx
    rcases List.mem_cons.1 hx with rfl | hx
    · exact hs.mono (h₂.trans h₃)
    · rcases List.mem_append.1 hx with hx | hx
      · exact ha x hx
      · exact (he x hx).mono h₃
  | beta _ _ hr => exact hR hΓ hr
  | call _ _ _ _ hf ha =>
    obtain ⟨h₁, hf⟩ := hR hΓ hf
    obtain ⟨h₂, ha⟩ := each (@hR Γ) (hΓ.mono h₁.nextLocal_le) ha
    exact ⟨h₁.trans h₂, (hf.mono h₂).apply ha⟩
  | lam hu hc hcall =>
    obtain ⟨h₁, he⟩ := hR.under _ hΓ hu
    have hΓ₁ := hΓ.mono h₁.nextLocal_le
    have hclosed := hc.closed_of_scoped hΓ₁ he.mem_ids
    obtain ⟨h₂, hcallee⟩ := hcall.tidy hclosed (fun x => hc.binder_lt hΓ₁ he.binder_lt) Γ
    refine ⟨h₁.trans ((Stage.Advances.mint _ _).trans h₂), hcallee.apply fun x hx => ?_⟩
    obtain ⟨y, hy, rfl⟩ := List.mem_map.1 hx
    have hy := hc.mem_ids_of_mem_captured (List.mem_reverse.1 hy)
    exact ⟨by simpa [Term.occurrences] using hy, by simp [Term.binders]⟩
  | letIn hc => exact hR.chain hΓ hc

end Judgment.Scopes

theorem LiftsIn.scoped (ctx : LiftContext) (n : Nat) : (LiftsIn ctx n).Scopes := by
  induction n with
  | zero => exact fun _ _ _ _ _ _ h => h.elim
  | succ n ih => exact ih.rule

/-- Lifting the bodies of procedures one after the other gives closed terms, and the procedures made
on the way are closed. -/
theorem LiftsBody.closed {ctx : LiftContext} {n : Nat} {w w' : Stage} {ts us : List Term}
    (h : Each (LiftsBody ctx n) w ts w' us) : w.Advances w' ∧ ∀ u ∈ us, u.Closed := by
  obtain ⟨hw, hu⟩ := Judgment.Scopes.each
    (fun _ _ _ _ hΓ h => (LiftsIn.scoped ctx n).under _ hΓ h) .nil h
  refine ⟨hw, fun u hm => Term.closed_iff.2 fun x hx => ?_⟩
  simpa [Context.ids] using (hu u hm).mem_ids x hx

end LambdaLifting
