import LambdaLifting.Proofs.Mirroring
import LambdaLifting.Proofs.Programs

namespace LambdaLifting

theorem NameSource.fresh_of_le {base : String} {taken : Name → Bool} {fuel fuel' : Nat}
    {s : NameSource} {r : Name × NameSource} (h : fresh base taken fuel s = .ok r)
    (hle : fuel ≤ fuel') : fresh base taken fuel' s = .ok r := by
  induction fuel generalizing fuel' s with
  | zero => cases h
  | succ fuel ih =>
    obtain ⟨fuel', rfl⟩ := Nat.exists_eq_add_of_le' (Nat.le_of_add_left_le hle)
    rw [fresh_succ] at h ⊢
    split at h
    · next htaken => rw [if_pos htaken, ih h (Nat.le_of_succ_le_succ hle)]
    · next htaken => rw [if_neg htaken, h]

namespace LiftM

variable {α β : Type} {fuel fuel' : Nat}

/-- The second computation ends as the first, wherever the first ends. -/
def Approximates (x y : LiftM α) : Prop := ∀ ⦃ctx s r⦄, x ctx s = .ok r → y ctx s = .ok r

theorem approximates_refl (x : LiftM α) : Approximates x x := fun _ _ _ h => h

theorem approximates_stop (f : Fault) (y : LiftM α) : Approximates (stop f) y := by
  intro ctx s r h
  cases h

theorem Approximates.bind {x y : LiftM α} {f g : α → LiftM β} (hx : Approximates x y)
    (hf : ∀ v, Approximates (f v) (g v)) : Approximates (x >>= f) (y >>= g) := by
  intro ctx s r h
  rcases hrun : x ctx s with fault | ⟨err | v, s₁⟩
  · cases (bind_of_fault hrun).symm.trans h
  · rw [bind_of_error (hx hrun), ← h, bind_of_error hrun]
  · rw [bind_of_runs (hx hrun)]
    exact hf v ((bind_of_runs hrun).symm.trans h)

theorem Approximates.bind_right {x : LiftM α} {f g : α → LiftM β}
    (hf : ∀ v, Approximates (f v) (g v)) : Approximates (x >>= f) (x >>= g) :=
  (approximates_refl x).bind hf

theorem Approximates.mapM {f g : α → LiftM β} (hf : ∀ x, Approximates (f x) (g x)) (xs : List α) :
    Approximates (xs.mapM f) (xs.mapM g) := by
  induction xs with
  | nil => exact approximates_refl _
  | cons x xs ih =>
    rw [List.mapM_cons, List.mapM_cons]
    exact (hf x).bind fun y => ih.bind fun ys => approximates_refl _

theorem approximates_liftM {x y : ArenaM α} (h : ∀ a r, x a = .ok r → y a = .ok r) :
    Approximates (liftM x : LiftM α) (liftM y) := by
  intro ctx s r hrun
  change onArena x ctx s = .ok r at hrun
  show onArena y ctx s = .ok r
  rw [onArena] at hrun ⊢
  split at hrun
  · next v a hv => rw [h _ _ hv, ← hrun]
  · cases hrun

end LiftM

namespace ArenaM

theorem exists_of_bind_eq_ok {α β : Type} {x : ArenaM α} {f : α → ArenaM β} {a : Arena}
    {r : β × Arena} (h : (x >>= f) a = .ok r) : ∃ v b, x a = .ok (v, b) ∧ f v b = .ok r := by
  rcases hx : x a with fault | ⟨v, b⟩
  · simp only [Bind.bind, StateT.bind, Except.bind, hx] at h
    cases h
  · exact ⟨v, b, rfl, (bind_of_eq_ok hx).symm.trans h⟩

theorem headReduce_of_le {fuel fuel' : Nat} {e : ExprId} {a : Arena} {r : ExprId × Arena}
    (h : headReduce fuel e a = .ok r) (hle : fuel ≤ fuel') : headReduce fuel' e a = .ok r := by
  induction fuel generalizing fuel' e a with
  | zero => cases h
  | succ fuel ih =>
    obtain ⟨fuel', rfl⟩ : ∃ k, fuel' = k + 1 := ⟨fuel' - 1, by omega⟩
    rw [headReduce] at h ⊢
    obtain ⟨n, b, hn, h⟩ := exists_of_bind_eq_ok h
    rw [bind_of_eq_ok hn]
    cases n with
    | app head args =>
      obtain ⟨m, c, hm, h⟩ := exists_of_bind_eq_ok h
      dsimp only
      rw [bind_of_eq_ok hm]
      cases m with
      | lam _ _ =>
        obtain ⟨⟨rest, left⟩, d, hfeed, h⟩ := exists_of_bind_eq_ok h
        obtain ⟨e', d', happ, h⟩ := exists_of_bind_eq_ok h
        dsimp only
        rw [bind_of_eq_ok hfeed]
        dsimp only
        rw [bind_of_eq_ok happ]
        exact ih h (Nat.le_of_succ_le_succ hle)
      | _ => exact h
    | _ => exact h

end ArenaM

namespace LiftM

variable {fuel fuel' : Nat}

theorem approximates_addProcedure (hle : fuel ≤ fuel') (closed : ExprId) :
    Approximates (addProcedure fuel closed) (addProcedure fuel' closed) := by
  intro ctx s r h
  rw [addProcedure_eq] at h ⊢
  split at h
  · next hfresh => rw [NameSource.fresh_of_le hfresh hle, ← h]
  · cases h

theorem approximates_callee (hle : fuel ≤ fuel') (closed : ExprId) :
    Approximates (callee fuel closed) (callee fuel' closed) := by
  refine .bind_right fun reduced => .bind_right fun head? => ?_
  cases head? with
  | none => exact approximates_addProcedure hle closed
  | some c => exact approximates_refl _

theorem approximates_openLambdas (hle : fuel ≤ fuel') (S : Substitution) (e : ExprId) :
    Approximates (openLambdas fuel S e) (openLambdas fuel' S e) := by
  induction fuel generalizing fuel' S e with
  | zero => exact approximates_stop _ _
  | succ fuel ih =>
    obtain ⟨fuel', rfl⟩ : ∃ k, fuel' = k + 1 := ⟨fuel' - 1, by omega⟩
    refine .bind_right fun n => ?_
    cases n with
    | lam b body =>
      refine .bind_right fun r => (ih (Nat.le_of_succ_le_succ hle) _ _).bind fun _ => ?_
      exact approximates_refl _
    | _ => exact approximates_refl _

section Lift

variable {lift lift' : ExprId → LiftM ExprId} (hlift : ∀ e, Approximates (lift e) (lift' e))
include hlift

theorem Approximates.liftUnderLambdas (hle : fuel ≤ fuel') (e : ExprId) :
    Approximates (liftUnderLambdas lift fuel e) (liftUnderLambdas lift' fuel' e) :=
  (approximates_openLambdas hle _ _).bind fun _ => (hlift _).bind fun _ => approximates_refl _

theorem Approximates.liftLambda (hle : fuel ≤ fuel') (e : ExprId) :
    Approximates (liftLambda lift fuel e) (liftLambda lift' fuel' e) :=
  (Approximates.liftUnderLambdas hlift hle e).bind fun _ => .bind_right fun _ =>
    (approximates_callee hle _).bind fun _ => approximates_refl _

theorem Approximates.liftChain (hle : fuel ≤ fuel') (S : Substitution) (e : ExprId) :
    Approximates (liftChain lift fuel S e) (liftChain lift' fuel' S e) := by
  induction fuel generalizing fuel' S e with
  | zero => exact approximates_stop _ _
  | succ fuel ih =>
    obtain ⟨fuel', rfl⟩ : ∃ k, fuel' = k + 1 := ⟨fuel' - 1, by omega⟩
    refine .bind_right fun n => ?_
    cases n with
    | letIn b value body =>
      refine .bind_right fun _ => (hlift _).bind fun _ => .bind_right fun _ => ?_
      exact (ih (Nat.le_of_succ_le_succ hle) _ _).bind fun _ => approximates_refl _
    | _ => exact .bind_right fun _ => (hlift _).bind fun _ => approximates_refl _

theorem Approximates.liftLets (hle : fuel ≤ fuel') (e : ExprId) :
    Approximates (liftLets lift fuel e) (liftLets lift' fuel' e) :=
  (Approximates.liftChain hlift hle _ _).bind fun _ => approximates_refl _

theorem Approximates.liftArm (fields : Nat) (e : ExprId) :
    Approximates (liftArm lift fields e) (liftArm lift' fields e) :=
  .bind_right fun _ => .bind_right fun _ => (hlift _).bind fun _ => approximates_refl _

theorem Approximates.liftDispatch (c type : Name) (head : ExprId) (args : List ExprId) :
    Approximates (liftDispatch lift c type head args) (liftDispatch lift' c type head args) := by
  refine .bind_right fun ctx => ?_
  split
  · next t _ =>
    have harm (p : Name × ExprId) :
        Approximates (fieldCount t.params p.1 >>= fun k => LiftM.liftArm lift k p.2)
          (fieldCount t.params p.1 >>= fun k => LiftM.liftArm lift' k p.2) :=
      .bind_right fun _ => Approximates.liftArm hlift _ _
    have hrest : Approximates _ _ := (Approximates.mapM hlift (args.take 1)).bind fun scrutinee =>
      (Approximates.mapM hlift (args.drop (1 + t.arms))).bind fun extra =>
        (Approximates.mapM harm (t.constructors.zip (args.drop 1))).bind fun arms =>
          approximates_refl (liftM (ArenaM.mkApp head (scrutinee ++ arms ++ extra)))
    dsimp only
    split
    · exact .bind_right fun _ => hrest
    · exact hrest
  · exact approximates_refl _

theorem Approximates.liftCall (hle : fuel ≤ fuel') (e head : ExprId) (args : List ExprId) :
    Approximates (liftCall lift fuel e head args) (liftCall lift' fuel' e head args) := by
  refine (approximates_liftM fun a r h => ArenaM.headReduce_of_le h hle).bind fun reduced => ?_
  split
  · exact hlift _
  · exact (hlift _).bind fun _ => (Approximates.mapM hlift _).bind fun _ => approximates_refl _

theorem Approximates.liftApp (hle : fuel ≤ fuel') (e head : ExprId) (args : List ExprId) :
    Approximates (liftApp lift fuel e head args) (liftApp lift' fuel' e head args) := by
  refine .bind_right fun dispatcher => ?_
  split
  · exact Approximates.liftDispatch hlift _ _ _ _
  · exact Approximates.liftCall hlift hle _ _ _

end Lift

end LiftM

namespace Program

variable {fuel fuel' : Nat} {env : Environment} {p : Program} {names names' : NameSource}
  {report : Report}

end Program

end LambdaLifting
