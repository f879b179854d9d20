import LambdaLifting.Lift.Basic
import Mathlib.Data.List.Forall2

namespace LambdaLifting

section State

variable {σ τ ε α β : Type}

/-- A computation ends with an answer and a state in `Q`. -/
def Yields (x : StateT σ (Except ε) α) (s : σ) (Q : α → σ → Prop) : Prop :=
  ∃ v s', x s = .ok (v, s') ∧ Q v s'

namespace Yields

theorem pure {v : α} {s : σ} {Q : α → σ → Prop} (h : Q v s) :
    Yields (Pure.pure v : StateT σ (Except ε) α) s Q :=
  ⟨v, s, rfl, h⟩

theorem bind {x : StateT σ (Except ε) α} {f : α → StateT σ (Except ε) β} {s : σ}
    {P : α → σ → Prop} {Q : β → σ → Prop} (hx : Yields x s P)
    (hf : ∀ v s', P v s' → Yields (f v) s' Q) : Yields (x >>= f) s Q := by
  obtain ⟨v, s', hv, hP⟩ := hx
  obtain ⟨u, s'', hu, hQ⟩ := hf v s' hP
  refine ⟨u, s'', ?_, hQ⟩
  simp only [Bind.bind, StateT.bind, Except.bind, hv]
  exact hu

theorem imp {x : StateT σ (Except ε) α} {s : σ} {P Q : α → σ → Prop} (hx : Yields x s P)
    (h : ∀ v s', P v s' → Q v s') : Yields x s Q := by
  obtain ⟨v, s', hv, hP⟩ := hx
  exact ⟨v, s', hv, h v s' hP⟩

theorem of_eq_ok {x : StateT σ (Except ε) α} {s s' : σ} {v : α} {Q : α → σ → Prop}
    (hx : Yields x s Q) (h : x s = .ok (v, s')) : Q v s' := by
  obtain ⟨u, t, hu, hQ⟩ := hx
  cases hu.symm.trans h
  exact hQ

theorem lift {x : Except ε α} {v : α} (hx : x = .ok v) (s : σ) :
    Yields (liftM x : StateT σ (Except ε) α) s fun u s' => v = u ∧ s = s' :=
  ⟨v, s, by rw [hx]; rfl, rfl, rfl⟩

theorem get (s : σ) :
    Yields (MonadState.get : StateT σ (Except ε) σ) s fun v s' => s = v ∧ s = s' :=
  ⟨s, s, rfl, rfl, rfl⟩

theorem modify (g : σ → σ) (s : σ) :
    Yields (modify g : StateT σ (Except ε) PUnit) s fun _ s' => g s = s' :=
  ⟨(), g s, rfl, rfl⟩

theorem run'_eq_ok {x : StateT σ (Except ε) α} {s : σ} {Q : α → σ → Prop} (hx : Yields x s Q) :
    ∃ v s', x.run' s = .ok v ∧ Q v s' := by
  obtain ⟨v, s', hv, hQ⟩ := hx
  refine ⟨v, s', ?_, hQ⟩
  simp only [StateT.run', Functor.map, Except.map, hv]

end Yields

/-- A computation with a memory of its own ends with an answer, a memory and a state in `Q`. -/
def YieldsWith (x : StateT τ (StateT σ (Except ε)) α) (t : τ) (s : σ) (Q : α → τ → σ → Prop) :
    Prop :=
  Yields (x t) s fun p s' => Q p.1 p.2 s'

namespace YieldsWith

theorem pure {v : α} {t : τ} {s : σ} {Q : α → τ → σ → Prop} (h : Q v t s) :
    YieldsWith (Pure.pure v : StateT τ (StateT σ (Except ε)) α) t s Q :=
  ⟨(v, t), s, rfl, h⟩

theorem bind {x : StateT τ (StateT σ (Except ε)) α} {f : α → StateT τ (StateT σ (Except ε)) β}
    {t : τ} {s : σ} {P : α → τ → σ → Prop} {Q : β → τ → σ → Prop} (hx : YieldsWith x t s P)
    (hf : ∀ v t' s', P v t' s' → YieldsWith (f v) t' s' Q) : YieldsWith (x >>= f) t s Q :=
  Yields.bind hx fun p s' h => hf p.1 p.2 s' h

theorem imp {x : StateT τ (StateT σ (Except ε)) α} {t : τ} {s : σ} {P Q : α → τ → σ → Prop}
    (hx : YieldsWith x t s P) (h : ∀ v t' s', P v t' s' → Q v t' s') : YieldsWith x t s Q :=
  Yields.imp hx fun p s' => h p.1 p.2 s'

theorem lift {x : StateT σ (Except ε) α} {t : τ} {s : σ} {Q : α → σ → Prop} (hx : Yields x s Q) :
    YieldsWith (liftM x : StateT τ (StateT σ (Except ε)) α) t s fun v t' s' => t' = t ∧ Q v s' := by
  obtain ⟨v, s', hv, hQ⟩ := hx
  refine ⟨(v, t), s', ?_, rfl, hQ⟩
  simp only [liftM, monadLift, MonadLift.monadLift, StateT.lift, Bind.bind, StateT.bind,
    Except.bind, hv]
  rfl

theorem get {t : τ} {s : σ} : YieldsWith (MonadState.get : StateT τ (StateT σ (Except ε)) τ) t s
    fun v t' s' => v = t ∧ t' = t ∧ s' = s :=
  ⟨(t, t), s, rfl, rfl, rfl, rfl⟩

theorem modify {g : τ → τ} {t : τ} {s : σ} :
    YieldsWith (modify g : StateT τ (StateT σ (Except ε)) PUnit) t s
      fun _ t' s' => t' = g t ∧ s' = s :=
  ⟨((), g t), s, rfl, rfl, rfl⟩

theorem run' {x : StateT τ (StateT σ (Except ε)) α} {t : τ} {s : σ} {Q : α → τ → σ → Prop}
    (hx : YieldsWith x t s Q) : Yields (x.run' t) s fun v s' => ∃ t', Q v t' s' := by
  obtain ⟨p, s', hp, hQ⟩ := hx
  refine ⟨p.1, s', ?_, p.2, hQ⟩
  simp only [StateT.run', Functor.map, StateT.map, Bind.bind, Except.bind, hp]
  rfl

end YieldsWith

end State

namespace LiftM

variable {α β : Type}

def Runs (x : LiftM α) (ctx : LiftContext) (s : LiftState) (v : α) (s' : LiftState) : Prop :=
  x ctx s = .ok (.ok v, s')

section

variable {ctx : LiftContext} {s s' : LiftState}

@[simp]
theorem runs_pure {u v : α} : (Pure.pure u : LiftM α).Runs ctx s v s' ↔ u = v ∧ s = s' := by
  show (.ok (.ok u, s) : Except Fault (Except LiftError α × LiftState)) = .ok (.ok v, s') ↔ _
  simp

theorem bind_of_runs {x : LiftM α} {f : α → LiftM β} {v : α} (h : x.Runs ctx s v s') :
    (x >>= f) ctx s = f v ctx s' := by
  rw [Runs] at h
  simp only [Bind.bind, ReaderT.bind, ExceptT.bind, ExceptT.mk, StateT.bind, Except.bind, h]
  rfl

theorem bind_of_error {x : LiftM α} {f : α → LiftM β} {err : LiftError}
    (h : x ctx s = .ok (.error err, s')) : (x >>= f) ctx s = .ok (.error err, s') := by
  simp only [Bind.bind, ReaderT.bind, ExceptT.bind, ExceptT.mk, StateT.bind, Except.bind, h]
  rfl

theorem bind_of_fault {x : LiftM α} {f : α → LiftM β} {fault : Fault}
    (h : x ctx s = .error fault) : (x >>= f) ctx s = .error fault := by
  simp only [Bind.bind, ReaderT.bind, ExceptT.bind, ExceptT.mk, StateT.bind, Except.bind, h]

@[simp]
theorem runs_bind {x : LiftM α} {f : α → LiftM β} {v : β} :
    (x >>= f).Runs ctx s v s' ↔ ∃ u s₁, x.Runs ctx s u s₁ ∧ (f u).Runs ctx s₁ v s' := by
  constructor
  · intro h
    rcases hx : x ctx s with fault | ⟨err | u, s₁⟩
    · cases (bind_of_fault hx).symm.trans h
    · cases (bind_of_error hx).symm.trans h
    · exact ⟨u, s₁, hx, (bind_of_runs hx).symm.trans h⟩
  · rintro ⟨u, s₁, hx, hf⟩
    exact (bind_of_runs hx).trans hf

@[simp]
theorem runs_throw {e : LiftError} {v : α} : ¬ (throw e : LiftM α).Runs ctx s v s' := by
  intro h
  cases h

@[simp]
theorem runs_stop {f : Fault} {v : α} : ¬ (stop f : LiftM α).Runs ctx s v s' := by
  intro h
  cases h

@[simp]
theorem runs_read {v : LiftContext} :
    (read : LiftM LiftContext).Runs ctx s v s' ↔ ctx = v ∧ s = s' := by
  show (.ok (.ok ctx, s) : Except Fault (Except LiftError LiftContext × LiftState)) =
    .ok (.ok v, s') ↔ _
  simp

@[simp]
theorem runs_state {v : LiftState} : state.Runs ctx s v s' ↔ s = v ∧ s = s' := by
  simp [Runs, state]

@[simp]
theorem runs_update {f : LiftState → LiftState} {v : Unit} :
    (update f).Runs ctx s v s' ↔ f s = s' := by
  simp [Runs, update]

theorem runs_onArena {x : ArenaM α} {v : α} :
    (onArena x).Runs ctx s v s' ↔ ∃ a, x s.arena = .ok (v, a) ∧ s' = { s with arena := a } := by
  obtain ⟨arena, names, scope, lifted, events⟩ := s
  simp only [Runs, onArena]
  rcases x arena with e | ⟨u, a⟩
  · simp
  · simp only [Except.ok.injEq, Prod.mk.injEq]
    exact ⟨fun h => ⟨a, ⟨h.1, rfl⟩, h.2.symm⟩, fun ⟨_, ⟨hu, ha⟩, h⟩ => ⟨hu, by rw [h, ha]⟩⟩

theorem runs_onNames {x : NameSource → Except Fault (α × NameSource)} {v : α} :
    (onNames x).Runs ctx s v s' ↔
      ∃ names, x s.names = .ok (v, names) ∧ s' = { s with names := names } := by
  obtain ⟨arena, names, scope, lifted, events⟩ := s
  simp only [Runs, onNames]
  rcases x names with e | ⟨u, names'⟩
  · simp
  · simp only [Except.ok.injEq, Prod.mk.injEq]
    exact ⟨fun h => ⟨names', ⟨h.1, rfl⟩, h.2.symm⟩, fun ⟨_, ⟨hu, hn⟩, h⟩ => ⟨hu, by rw [h, hn]⟩⟩

@[simp]
theorem runs_liftM {x : ArenaM α} {v : α} :
    (liftM x : LiftM α).Runs ctx s v s' ↔
      ∃ a, x s.arena = .ok (v, a) ∧ s' = { s with arena := a } :=
  runs_onArena

end

end LiftM

end LambdaLifting
