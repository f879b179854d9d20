import LambdaLifting.Proofs.Capture
import LambdaLifting.Proofs.Numbering
import LambdaLifting.Proofs.Safety

namespace LambdaLifting

/-- The declarations of a scope, in positions already handed out, and the stored terms they and the
procedures made so far refer to. -/
structure LiftState.Disciplined (s : LiftState) : Prop where
  wellFormed : s.arena.WellFormed
  inOrder : s.scope.InOrder s.arena
  position_lt : ∀ {x d}, s.scope.find? x = some d → d.position < s.scope.next
  stored : ∀ p ∈ s.lifted, p.body.index < s.arena.size

namespace LiftState

variable {s s' : LiftState} {Γ : Context} {w : Stage}

/-- In a list of declarations that show a context, the value of each mentions later members only. -/
theorem exists_decl_of_shows {a : Arena} {n : Nat} {ds : List Decl}
    (hord : ds.Pairwise fun d d' => d'.position < d.position)
    (hshow : List.Forall₂ (Decl.Shows a) ds Γ) (hΓ : Γ.Scoped n) {d : Decl} (hd : d ∈ ds)
    {v : ExprId} (hv : d.value = some v) : ∃ t, a.term? v = some t ∧
      (∀ y ∈ t.occurrences, ∃ c ∈ ds, c.id = y ∧ c.position < d.position) ∧
      ∀ y ∈ t.binders, y.index < n := by
  induction hshow with
  | nil => simp at hd
  | @cons c x ds Γ hc hshow ih =>
    obtain ⟨hlt, hord⟩ := List.pairwise_cons.1 hord
    cases hΓ with
    | cons hΓ _ _ hvalue =>
      rcases List.mem_cons.1 hd with rfl | hd
      · rcases hc.value with ⟨hnone, -⟩ | ⟨e, t, he, ht, hterm⟩
        · simp [hnone] at hv
        · obtain rfl := Option.some.inj (he.symm.trans hv)
          obtain ⟨hfree, hbinders⟩ := hvalue t ht
          refine ⟨t, hterm, fun y hy => ?_, hbinders⟩
          have hmem := hfree y hy
          rw [← Decl.map_id_eq_ids hshow] at hmem
          obtain ⟨c, hc, rfl⟩ := List.mem_map.1 hmem
          exact ⟨c, List.mem_cons_of_mem _ hc, rfl, hlt c hc⟩
      · obtain ⟨t, hterm, hfree, hbinders⟩ := ih hord hΓ hd
        refine ⟨t, hterm, fun y hy => ?_, hbinders⟩
        obtain ⟨c, hc, hid⟩ := hfree y hy
        exact ⟨c, List.mem_cons_of_mem _ hc, hid⟩

theorem Models.disciplined (h : s.Models Γ w) : s.Disciplined := by
  obtain ⟨ds, hds, hshow⟩ := h.inScope
  have hids := Decl.map_id_eq_ids hshow
  have hdecl := LiftM.declared_of_lists hds (hids ▸ h.isScoped.nodup_ids)
  have hmem {x : LocalId} {d : Decl} (hd : s.scope.find? x = some d) : d ∈ ds ∧ d.id = x := by
    rw [hds.find?_eq] at hd
    exact ⟨List.mem_of_find?_eq_some hd, by simpa using List.find?_some hd⟩
  have hpos : (ds.map Decl.position).Nodup :=
    List.pairwise_map.2 (hds.ordered.imp fun hlt => Nat.ne_of_gt hlt)
  refine ⟨h.wellFormed, ⟨fun hd => (hmem hd).2, fun hc hd heq => ?_, fun hd => ?_, ?_⟩,
    fun hd => hds.position_lt _ (hmem hd).1, fun p hp => ?_⟩
  · exact List.inj_on_of_nodup_map hpos (hmem hc).1 (hmem hd).1 heq
  · obtain ⟨hd, rfl⟩ := hmem hd
    rw [h.nextLocal_eq]
    exact h.isScoped.index_lt (hids ▸ List.mem_map_of_mem ‹_ ∈ ds›)
  · intro x d v hd hv
    obtain ⟨t, hterm, hfree, hbinders⟩ :=
      exists_decl_of_shows hds.ordered hshow h.isScoped (hmem hd).1 hv
    refine ⟨t, hterm, fun y hy => ?_, h.nextLocal_eq ▸ hbinders⟩
    obtain ⟨c, hc, rfl, hlt⟩ := hfree y hy
    exact ⟨c, hdecl.find?_eq c hc, hlt⟩
  · obtain ⟨q, -, hq⟩ := exists_of_mem_forall₂ h.lifted (Array.mem_toList_iff.2 hp)
    exact Arena.index_lt_of_term? hq.2

end LiftState

namespace LiftM

/-- What a run does to its state apart from the arena and the names: one declaration, the end of
some, one procedure, one event. -/
inductive Change : (LiftState → LiftState) → Prop where
  | declare (b value) : Change fun s => { s with scope := (s.scope.declare b value).2 }
  | remove (xs) : Change fun s => { s with scope := s.scope.remove xs }
  | procedure (p) : Change fun s => { s with lifted := s.lifted.push p }
  | event (ev) : Change fun s => { s with events := s.events.push ev }

/-- Every state that a computation passes through is in `I`: the states before and after each of the
operations that it is made of. -/
inductive Throughout (I : LiftState → Prop) (ctx : LiftContext) :
    {α : Type} → LiftM α → LiftState → Prop where
  | pure {α : Type} (v : α) {s} : I s → Throughout I ctx (Pure.pure v) s
  | throw {α : Type} (err : LiftError) {s} : I s → Throughout I ctx (throw err : LiftM α) s
  | stop {α : Type} (f : Fault) {s} : I s → Throughout I ctx (stop f : LiftM α) s
  | read {s} : I s → Throughout I ctx read s
  | state {s} : I s → Throughout I ctx state s
  | update {g} (hg : Change g) {s} : I s → I (g s) → Throughout I ctx (update g) s
  | onArena {α : Type} (x : ArenaM α) {s} : I s →
      (∀ v a, x s.arena = .ok (v, a) → I { s with arena := a }) → Throughout I ctx (onArena x) s
  | onNames {α : Type} (x : NameSource → Except Fault (α × NameSource)) {s} : I s →
      (∀ v names, x s.names = .ok (v, names) → I { s with names := names }) →
      Throughout I ctx (onNames x) s
  | bind {α β : Type} {x : LiftM α} {f : α → LiftM β} {s} : Throughout I ctx x s →
      (∀ v s', x.Runs ctx s v s' → Throughout I ctx (f v) s') → Throughout I ctx (x >>= f) s

namespace Throughout

variable {α β : Type} {I J : LiftState → Prop} {ctx : LiftContext} {x : LiftM α} {s s' : LiftState}

theorem mono (h : Throughout I ctx x s) (hIJ : ∀ s, I s → J s) : Throughout J ctx x s := by
  induction h with
  | pure v h => exact .pure v (hIJ _ h)
  | throw err h => exact .throw err (hIJ _ h)
  | stop f h => exact .stop f (hIJ _ h)
  | read h => exact .read (hIJ _ h)
  | state h => exact .state (hIJ _ h)
  | update hg h h' => exact .update hg (hIJ _ h) (hIJ _ h')
  | onArena x h h' => exact .onArena x (hIJ _ h) fun v a hx => hIJ _ (h' v a hx)
  | onNames x h h' => exact .onNames x (hIJ _ h) fun v names hx => hIJ _ (h' v names hx)
  | bind _ _ ihx ihf => exact .bind ihx ihf

theorem start (h : Throughout I ctx x s) : I s := by
  induction h with
  | pure _ h | throw _ h | stop _ h | read h | state h | update _ h _ | onArena _ h _
  | onNames _ h _ => exact h
  | bind _ _ ihx _ => exact ihx

/-- The state at the end, with an answer or with an error, is among those passed through. -/
theorem of_eq_ok (h : Throughout I ctx x s) {r : Except LiftError α} (hx : x ctx s = .ok (r, s')) :
    I s' := by
  induction h generalizing s' with
  | pure v h => cases hx; exact h
  | throw err h => cases hx; exact h
  | stop f h => cases hx
  | read h => cases hx; exact h
  | state h => cases hx; exact h
  | update _ _ h => cases hx; exact h
  | @onArena α x s _ h =>
    simp only [LiftM.onArena] at hx
    rcases hrun : x s.arena with fault | ⟨v, a⟩ <;> rw [hrun] at hx <;> cases hx
    exact h v a hrun
  | @onNames α x s _ h =>
    simp only [LiftM.onNames] at hx
    rcases hrun : x s.names with fault | ⟨v, names⟩ <;> rw [hrun] at hx <;> cases hx
    exact h v names hrun
  | @bind α β x f s hx' _ ihx ihf =>
    rcases hrun : x ctx s with fault | ⟨err | v, s₁⟩
    · cases (bind_of_fault hrun).symm.trans hx
    · cases (bind_of_error hrun).symm.trans hx
      exact ihx hrun
    · exact ihf v s₁ hrun ((bind_of_runs hrun).symm.trans hx)

end Throughout

end LiftM

def LiftState.Retains (s s' : LiftState) : Prop :=
  ∀ x d, s.scope.find? x = some d → s'.scope.find? x = some d

/-- A state in order that has kept the declarations of `s`. -/
structure LiftState.Continues (s s' : LiftState) : Prop where
  disciplined : s'.Disciplined
  retains : s.Retains s'

namespace LiftState.Models

variable {s₀ s : LiftState} {Γ : Context} {w : Stage}

theorem mem_ids_of_retains (h : s.Models Γ w) (hk : s₀.Retains s) (x : LocalId) (d : Decl)
    (hd : s₀.scope.find? x = some d) : x ∈ Γ.ids :=
  h.mem_ids_of_contains (Option.isSome_iff_exists.2 ⟨d, hk x d hd⟩)

/-- Leaving the scope of `Δ` keeps the declarations of `Γ`. -/
theorem continues_leave {Δ : Context} (h : s.Models (Δ ++ Γ) w) (hk : s₀.Retains s)
    (hout : ∀ x d, s₀.scope.find? x = some d → x ∈ Γ.ids) {xs : List LocalId}
    (hxs : ∀ x, x ∈ xs ↔ x ∈ Δ.ids) :
    s₀.Continues { s with scope := s.scope.remove xs } where
  disciplined := (h.leave hxs).disciplined
  retains x d hd := by
    have hx : x ∉ xs := fun hmem =>
      h.isScoped.not_mem_of_append ((hxs x).1 hmem) (hout x d hd)
    rw [Scope.find?_remove, if_neg hx]
    exact hk x d hd

end LiftState.Models

namespace LiftM

variable {α β : Type} {ctx : LiftContext} {s₀ s s' : LiftState} {Γ : Context} {w : Stage}

/-- A computation passes through states in order, in which the declarations of `s₀` are in scope,
and does not find a scope open that should be closed. -/
structure Orderly (x : LiftM α) (ctx : LiftContext) (s₀ s : LiftState) : Prop where
  throughout : Throughout s₀.Continues ctx x s
  ends : Ends (· ≠ .inl .openScope) x ctx s

theorem orderly_pure (h : s₀.Continues s) (v : α) : Orderly (Pure.pure v) ctx s₀ s :=
  ⟨.pure v h, ends_pure v⟩

theorem orderly_throw (h : s₀.Continues s) (err : LiftError) :
    Orderly (throw err : LiftM α) ctx s₀ s :=
  ⟨.throw err h, Sum.inr_ne_inl⟩

theorem orderly_stop (h : s₀.Continues s) : Orderly (stop .outOfFuel : LiftM α) ctx s₀ s :=
  ⟨.stop _ h, by simp [Ends, stop]⟩

theorem Orderly.bind {x : LiftM α} {f : α → LiftM β} (hx : Orderly x ctx s₀ s)
    (hf : ∀ v s₁, x.Runs ctx s v s₁ → s₀.Continues s₁ → Orderly (f v) ctx s₀ s₁) :
    Orderly (x >>= f) ctx s₀ s := by
  have hnext (v : α) (s₁ : LiftState) (hrun : x.Runs ctx s v s₁) : Orderly (f v) ctx s₀ s₁ :=
    hf v s₁ hrun (hx.throughout.of_eq_ok hrun)
  exact ⟨.bind hx.throughout fun v s₁ hrun => (hnext v s₁ hrun).throughout,
    hx.ends.bind fun v s₁ hrun => (hnext v s₁ hrun).ends⟩

theorem Orderly.read_bind (h : s₀.Continues s) {f : LiftContext → LiftM β}
    (hf : Orderly (f ctx) ctx s₀ s) : Orderly (read >>= f) ctx s₀ s := by
  refine Orderly.bind ⟨.read h, trivial⟩ fun v s₁ hrun _ => ?_
  obtain ⟨rfl, rfl⟩ := runs_read.1 hrun
  exact hf

theorem Orderly.state_bind (h : s₀.Continues s) {f : LiftState → LiftM β}
    (hf : Orderly (f s) ctx s₀ s) : Orderly (state >>= f) ctx s₀ s := by
  refine Orderly.bind ⟨.state h, trivial⟩ fun v s₁ hrun _ => ?_
  obtain ⟨rfl, rfl⟩ := runs_state.1 hrun
  exact hf

theorem Orderly.update_bind {g : LiftState → LiftState} (hg : Change g) (h : s₀.Continues s)
    {f : Unit → LiftM β} (hf : Orderly (f ()) ctx s₀ (g s)) :
    Orderly (update g >>= f) ctx s₀ s := by
  refine Orderly.bind ⟨.update hg h hf.throughout.start, ends_update g⟩ fun _ s₁ hrun _ => ?_
  rw [runs_update] at hrun
  exact hrun ▸ hf

theorem orderly_onArena {x : ArenaM α} (h : s₀.Continues s)
    (hok : ∀ v a, x s.arena = .ok (v, a) → s₀.Continues { s with arena := a })
    (hfault : ∀ f, x s.arena = .error f → f ≠ .openScope) : Orderly (onArena x) ctx s₀ s := by
  refine ⟨.onArena x h hok, ?_⟩
  simp only [Ends, onArena]
  rcases hrun : x s.arena with f | ⟨v, a⟩
  · simpa using hfault f hrun
  · trivial

theorem orderly_liftM {x : ArenaM α} {Q : α → Arena → Prop} (h : s₀.Continues s)
    (hx : Yields x s.arena Q) (hQ : ∀ v a, Q v a → s₀.Continues { s with arena := a }) :
    Orderly (liftM x) ctx s₀ s :=
  ⟨.onArena x h fun v a hv => hQ v a (hx.of_eq_ok hv), ends_liftM hx⟩

/-- Continue after a computation on the arena that ends with an answer, of which something is
known. -/
theorem Orderly.arena_bind {x : ArenaM α} {Q : α → Arena → Prop} (h : s₀.Continues s)
    (hx : Yields x s.arena Q) {f : α → LiftM β}
    (hf : ∀ v a, Q v a → Orderly (f v) ctx s₀ { s with arena := a }) :
    Orderly ((liftM x : LiftM α) >>= f) ctx s₀ s := by
  refine (orderly_liftM h hx fun v a hv => (hf v a hv).throughout.start).bind fun v s₁ hrun _ => ?_
  obtain ⟨a, hv, rfl⟩ := runs_liftM.1 hrun
  exact hf v a (hx.of_eq_ok hv)

theorem Orderly.node_bind (h : s₀.Continues s) {e : ExprId} {n : Node}
    (hn : s.arena.node? e = some n) {f : Node → LiftM β} (hf : Orderly (f n) ctx s₀ s) :
    Orderly ((liftM (ArenaM.node e) : LiftM Node) >>= f) ctx s₀ s := by
  refine Orderly.arena_bind h (ArenaM.yields_node hn) ?_
  rintro _ _ ⟨rfl, rfl⟩
  exact hf

/-- A new declaration hides none of those in scope. -/
theorem orderly_openBinder (h : s.Models Γ w) (hk : s₀.Retains s) (name : Name)
    {value : Option ExprId} {v : Option Term}
    (hvalue : (value = none ∧ v = none) ∨
      ∃ e t, value = some e ∧ v = some t ∧ s.arena.term? e = some t)
    (hv : ∀ t, v = some t → (∀ x ∈ t.occurrences, x ∈ Γ.ids) ∧
      ∀ x ∈ t.binders, x.index < w.nextLocal) : Orderly (openBinder name value) ctx s₀ s := by
  refine Orderly.arena_bind ⟨h.disciplined, hk⟩ (ArenaM.yields_newBinder h.wellFormed name) ?_
  rintro _ a ⟨rfl, hext, hwf, hnext⟩
  have h₁ := h.extend hext hwf hnext
  refine Orderly.arena_bind ⟨h₁.disciplined, hk⟩ (ArenaM.builds_mkVar hwf _) fun x b hx => ?_
  have h₂ := h₁.grow hx.1
  have hvalue₂ : (value = none ∧ v = none) ∨
      ∃ e t, value = some e ∧ v = some t ∧ b.term? e = some t := by
    refine hvalue.imp_right ?_
    rintro ⟨e, t, he, ht, hterm⟩
    exact ⟨e, t, he, ht, (hext.trans hx.1.isExtension).term?_eq_some hterm⟩
  have h₃ := h₂.declare name rfl h.isScoped hvalue₂ hv
  rw [← h.nextLocal_eq] at h₃
  refine Orderly.update_bind (.declare _ _) ⟨h₂.disciplined, hk⟩
    (orderly_pure ⟨h₃.disciplined, fun y d hd => ?_⟩ _)
  have hlt := h.disciplined.inOrder.index_lt (hk y d hd)
  have hne : y ≠ ⟨s.arena.nextLocal⟩ := by
    rintro rfl
    exact Nat.lt_irrefl _ hlt
  show Scope.find? _ y = some d
  rw [Scope.find?_declare, if_neg hne]
  exact hk y d hd

section Opening

variable {S : Substitution} {σ : Replacement} {e : ExprId} {t : Term}

theorem orderly_openLambdas (h : s.Models Γ w) (hk : s₀.Retains s) (hS : S.Means s.arena σ)
    (he : s.arena.term? e = some t) (fuel : Nat) : Orderly (openLambdas fuel S e) ctx s₀ s := by
  induction fuel generalizing s Γ w S σ e t with
  | zero => exact orderly_stop ⟨h.disciplined, hk⟩
  | succ fuel ih =>
    obtain ⟨n, hn⟩ := Arena.node?_of_term? he
    refine Orderly.node_bind ⟨h.disciplined, hk⟩ hn ?_
    cases h.wellFormed.shows_of_node? he hn with
    | @lam b body v hv =>
      refine (orderly_openBinder h hk _ (.inl ⟨rfl, rfl⟩) (by simp)).bind fun r s₁ hopen hc => ?_
      obtain ⟨fresh, x⟩ := r
      obtain ⟨rfl, hx, h₁⟩ := reaches_openBinder h (.inl ⟨rfl, rfl⟩) (by simp) hopen
      have hS₁ := (hS.mono h₁.isExtension).insert b.id hx
      refine (ih h₁.models hc.retains hS₁ (h₁.isExtension.term?_eq_some hv)).bind ?_
      exact fun _ s₂ _ hc => orderly_pure hc _
    | _ =>
      refine Orderly.arena_bind ⟨h.disciplined, hk⟩ (ArenaM.builds_substitute h.wellFormed hS he)
        fun _ a hbuilt => ?_
      exact orderly_pure ⟨(h.grow hbuilt.1).disciplined, hk⟩ _

theorem orderly_openFields (h : s.Models Γ w) (hk : s₀.Retains s) (hS : S.Means s.arena σ)
    (he : s.arena.term? e = some t) (fields : Nat) :
    Orderly (openFields fields S e) ctx s₀ s := by
  induction fields generalizing s Γ w S σ e t with
  | zero =>
    refine Orderly.arena_bind ⟨h.disciplined, hk⟩ (ArenaM.builds_substitute h.wellFormed hS he)
      fun _ a hbuilt => ?_
    exact orderly_pure ⟨(h.grow hbuilt.1).disciplined, hk⟩ _
  | succ fields ih =>
    obtain ⟨n, hn⟩ := Arena.node?_of_term? he
    refine Orderly.node_bind ⟨h.disciplined, hk⟩ hn ?_
    cases h.wellFormed.shows_of_node? he hn with
    | @lam b body v hv =>
      refine (orderly_openBinder h hk _ (.inl ⟨rfl, rfl⟩) (by simp)).bind fun r s₁ hopen hc => ?_
      obtain ⟨fresh, x⟩ := r
      obtain ⟨rfl, hx, h₁⟩ := reaches_openBinder h (.inl ⟨rfl, rfl⟩) (by simp) hopen
      have hS₁ := (hS.mono h₁.isExtension).insert b.id hx
      refine (ih h₁.models hc.retains hS₁ (h₁.isExtension.term?_eq_some hv)).bind ?_
      exact fun _ s₂ _ hc => orderly_pure hc _
    | _ =>
      refine Orderly.read_bind ⟨h.disciplined, hk⟩ ?_
      refine (orderly_openBinder h hk _ (.inl ⟨rfl, rfl⟩) (by simp)).bind fun r s₁ hopen hc => ?_
      obtain ⟨fresh, x⟩ := r
      obtain ⟨rfl, hx, h₁⟩ := reaches_openBinder h (.inl ⟨rfl, rfl⟩) (by simp) hopen
      refine Orderly.arena_bind hc (ArenaM.builds_mkApp h₁.models.wellFormed
        (h₁.isExtension.term?_eq_some he) (.cons hx .nil)) fun e' a he' => ?_
      have hS₁ := hS.mono (h₁.isExtension.trans he'.1.isExtension)
      refine (ih (h₁.models.grow he'.1) hc.retains hS₁ he'.2).bind ?_
      exact fun _ s₂ _ hc => orderly_pure hc _

end Opening

section Closing

abbrev Quiet (x : LiftM α) (ctx : LiftContext) (s : LiftState) : Prop :=
  Throughout (· = s) ctx x s

theorem Quiet.bind {x : LiftM α} {f : α → LiftM β} (hx : Quiet x ctx s)
    (hf : ∀ v, Quiet (f v) ctx s) : Quiet (x >>= f) ctx s := by
  refine Throughout.bind hx fun v s₁ hrun => ?_
  rw [hx.of_eq_ok hrun]
  exact hf v

theorem Quiet.throughout {I : LiftState → Prop} {x : LiftM α} (hx : Quiet x ctx s) (hs : I s) :
    Throughout I ctx x s :=
  hx.mono fun _ h => h ▸ hs

theorem arena_eq_of_ask {q : Arena → Except Fault α} {v : α} {a b : Arena}
    (h : ArenaM.ask q a = .ok (v, b)) : b = a := by
  rcases hq : q a with fault | u
  · rw [ArenaM.ask, hq] at h
    cases h
  · cases (ArenaM.ask_eq_ok hq).symm.trans h
    rfl

theorem quiet_addFree (e : ExprId) (pending : List Decl) : Quiet (addFree e pending) ctx s := by
  refine Quiet.bind (.onArena _ rfl fun v a hv => ?_) fun xs => ?_
  · rw [arena_eq_of_ask hv]
  · induction xs generalizing pending with
    | nil => exact .pure _ rfl
    | cons x xs ih =>
      rw [List.foldlM_cons]
      refine Quiet.bind (Quiet.bind (.state rfl) fun s' => ?_) fun ds => ih ds
      split
      · exact .pure _ rfl
      · exact .throw _ rfl

theorem quiet_needed (fuel : Nat) (pending : List Decl) : Quiet (needed fuel pending) ctx s := by
  induction fuel generalizing pending with
  | zero =>
    cases pending with
    | nil => exact .pure _ rfl
    | cons d pending => exact .stop _ rfl
  | succ fuel ih =>
    cases pending with
    | nil => exact .pure _ rfl
    | cons d pending =>
      rw [needed]
      split
      · exact Quiet.bind (quiet_addFree _ _) fun _ => Quiet.bind (ih _) fun _ => .pure _ rfl
      · exact Quiet.bind (.pure _ rfl) fun _ => Quiet.bind (ih _) fun _ => .pure _ rfl

theorem orderly_closeOver (h : s.Models Γ w) (hk : s₀.Retains s) {e : ExprId} {t : Term}
    (he : s.arena.term? e = some t) (ht : ∀ x ∈ t.occurrences, x ∈ Γ.ids) :
    Orderly (closeOver e) ctx s₀ s := by
  have hc : s₀.Continues s := ⟨h.disciplined, hk⟩
  refine ⟨?_, ends_closeOver h he ht⟩
  obtain ⟨ds, hlists, hshow⟩ := h.inScope
  have hids := Decl.map_id_eq_ids hshow
  have hds := declared_of_lists hlists (hids ▸ h.isScoped.nodup_ids)
  -- The scope is only read; what it gives is known, so that the arena grows in order.
  have hadd := runs_addFree ctx hds h.wellFormed he (hids ▸ ht) []
  obtain ⟨r, hneeded, -, hr⟩ := runs_needed ctx hds h.wellFormed h.isScoped hshow
    (Nat.le_succ_of_le hds.length_le) t.occurrences
  have hnil : ds.filter (·.id ∈ ([] : List LocalId)) = [] := by simp
  rw [hnil] at hadd
  refine .bind ((quiet_addFree e []).throughout hc) fun pending s₁ hrun => ?_
  cases hadd.symm.trans hrun
  refine .bind (.state hc) fun _ s₁ hrun => ?_
  obtain ⟨rfl, rfl⟩ := runs_state.1 hrun
  refine .bind ((quiet_needed _ _).throughout hc) fun decls s₁ hrun => ?_
  cases hneeded.symm.trans hrun
  refine (Orderly.arena_bind hc (yields_parametrize h.wellFormed (Substitution.means_empty _)
    (List.rel_reverse hr)) ?_).throughout
  rintro ⟨bs, S⟩ a₁ ⟨hext, hwf, hnext, σ, -, hS⟩
  have h₁ := h.extend hext hwf hnext
  refine Orderly.arena_bind ⟨h₁.disciplined, hk⟩
    (ArenaM.builds_substitute hwf hS (hext.term?_eq_some he)) fun body a₂ hbody => ?_
  have h₂ := h₁.grow hbody.1
  refine Orderly.arena_bind ⟨h₂.disciplined, hk⟩
    (ArenaM.builds_mkLambdas h₂.wellFormed hbody.2 bs) fun closed a₃ hclosed => ?_
  exact orderly_pure ⟨(h₂.grow hclosed.1).disciplined, hk⟩ _

theorem orderly_kindOf (hc : s₀.Continues s) (c : Name) : Orderly (kindOf c) ctx s₀ s := by
  refine Orderly.read_bind hc ?_
  split
  · exact orderly_pure hc _
  · refine Orderly.read_bind hc (Orderly.state_bind hc ?_)
    split
    · exact orderly_pure hc _
    · exact orderly_throw hc _

theorem orderly_fresh (hc : s₀.Continues s) {base : String} {taken : Name → Bool} (fuel : Nat) :
    Orderly (onNames (NameSource.fresh base taken fuel)) ctx s₀ s := by
  have hd := hc.disciplined
  refine ⟨.onNames _ hc fun name names _ => ⟨?_, hc.retains⟩, ?_⟩
  · exact ⟨hd.wellFormed, hd.inOrder, hd.position_lt, hd.stored⟩
  · simp only [Ends, onNames]
    rcases hfresh : NameSource.fresh base taken fuel s.names with f | ⟨name, names⟩
    · simp [NameSource.eq_outOfFuel_of_fresh hfresh]
    · trivial

theorem orderly_addProcedure (h : s.Models Γ w) (hk : s₀.Retains s) {closed : ExprId} {t : Term}
    (ht : s.arena.term? closed = some t) (fuel : Nat) :
    Orderly (addProcedure fuel closed) ctx s₀ s := by
  have hc : s₀.Continues s := ⟨h.disciplined, hk⟩
  refine Orderly.read_bind hc (Orderly.state_bind hc ?_)
  refine Orderly.bind (orderly_fresh hc fuel) fun name s₁ hrun hc₁ => ?_
  obtain ⟨names, -, rfl⟩ := runs_onNames.1 hrun
  have h₂ := h.addProcedure name names ht
  have h₃ := h₂.emit (s.events.push (.lifted name))
  refine Orderly.update_bind (.procedure _) hc₁
    (Orderly.update_bind (.event _) ⟨h₂.disciplined, hk⟩ ?_)
  exact orderly_liftM ⟨h₃.disciplined, hk⟩
    (ArenaM.builds_push h₃.wellFormed (.global name) (by simp))
    fun e a he => ⟨(h₃.grow he.1).disciplined, hk⟩

theorem orderly_callee (h : s.Models Γ w) (hk : s₀.Retains s) {closed : ExprId} {t : Term}
    (ht : s.arena.term? closed = some t) (fuel : Nat) : Orderly (callee fuel closed) ctx s₀ s := by
  refine Orderly.arena_bind ⟨h.disciplined, hk⟩ (ArenaM.builds_etaReduce h.wellFormed ht)
    fun reduced a hbuilt => ?_
  obtain ⟨hgrow, hred⟩ := hbuilt
  have h₁ := h.grow hgrow
  have hc : s₀.Continues { s with arena := a } := ⟨h₁.disciplined, hk⟩
  have hreuse : Orderly (reusable? reduced) ctx s₀ { s with arena := a } := by
    have hask : Yields (ArenaM.ask fun a => a.headGlobal? reduced) a
        fun _ b => b = a :=
      ⟨_, a, ArenaM.ask_eq_ok (h₁.wellFormed.headGlobal?_eq_ok hred), rfl⟩
    refine Orderly.arena_bind hc hask ?_
    rintro head? _ rfl
    cases head? with
    | none => exact orderly_pure hc _
    | some c => exact (orderly_kindOf hc c).bind fun k s₂ _ hc => orderly_pure hc _
  refine hreuse.bind fun head? s₂ hrun hc₂ => ?_
  obtain ⟨rfl, -⟩ := runs_reusable? h₁ hred hrun
  cases head? with
  | some c =>
    exact Orderly.update_bind (.event _) hc₂ (orderly_pure ⟨(h₁.emit _).disciplined, hk⟩ _)
  | none => exact orderly_addProcedure h₁ hk (hgrow.isExtension.term?_eq_some ht) fuel

theorem orderly_mapM_mkVar (h : s.Models Γ w) (hk : s₀.Retains s) (xs : List LocalId) :
    Orderly (xs.mapM fun x => onArena (ArenaM.mkVar x)) ctx s₀ s := by
  induction xs generalizing s with
  | nil => exact orderly_pure ⟨h.disciplined, hk⟩ _
  | cons x xs ih =>
    rw [List.mapM_cons]
    refine Orderly.arena_bind ⟨h.disciplined, hk⟩ (ArenaM.builds_mkVar h.wellFormed x)
      fun e a he => ?_
    exact (ih (h.grow he.1) hk).bind fun _ s₂ _ hc => orderly_pure hc _

end Closing

end LiftM

end LambdaLifting
