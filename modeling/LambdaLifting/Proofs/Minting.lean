import LambdaLifting.Proofs.Effects

namespace LambdaLifting

namespace LiftState

variable {ctx : LiftContext} {names : NameSource} {s s' : LiftState}

/-- The state of a run that has started with the source `names`. The new procedures are numbered in
order, none has a name known from the start or that of another, and each number drawn belongs to a
name in use. -/
structure Ledger (ctx : LiftContext) (names : NameSource) (s : LiftState) : Prop where
  advances : names.Advances s.names
  numbers : ∃ ks, NameSource.Numbers s.names.table ctx.base names.count s.names.count
    (s.lifted.toList.map Procedure.name) ks
  nodup : (s.lifted.toList.map Procedure.name).Nodup
  free : ∀ p ∈ s.lifted, ctx.taken #[] p.name = false
  spent : ∀ k, names.count ≤ k → k < s.names.count →
    ∃ c, s.names.table.text? c = some (NameSource.candidate ctx.base (k % NameSource.limit)) ∧
      ctx.taken s.lifted c = true

theorem ledger_start (hs : names.Advances s.names) (hcount : s.names.count = names.count)
    (hlifted : s.lifted = #[]) : s.Ledger ctx names where
  advances := hs
  numbers := ⟨[], by rw [hlifted]; exact NameSource.numbers_nil _ _ _ _⟩
  nodup := by rw [hlifted]; exact List.nodup_nil
  free := by simp [hlifted]
  spent k hle hlt := by omega

theorem Step.ledger (hstep : Step ctx s s') (h : s.Ledger ctx names) : s'.Ledger ctx names := by
  obtain ⟨hadvances, ⟨ks, hks⟩, hnodup, hfree, hspent⟩ := h
  cases hstep with
  | idle hnames hlifted =>
    constructor
    · rwa [hnames]
    · rw [hnames, hlifted]
      exact ⟨ks, hks⟩
    · rwa [hlifted]
    · rwa [hlifted]
    · rwa [hnames, hlifted]
  | @add p fuel hfresh hlifted =>
    obtain ⟨k, hk⟩ := NameSource.makes_of_fresh hfresh
    have hmono (c : Name) (hc : ctx.taken s.lifted c = true) : ctx.taken s'.lifted c = true :=
      hlifted ▸ LiftContext.taken_push hc p
    constructor
    case advances => exact hadvances.trans hk.advances
    case numbers =>
      refine ⟨ks ++ [k], ?_⟩
      rw [hlifted, Array.toList_push, List.map_append]
      exact hks.concat hk hadvances.count
    case nodup =>
      rw [hlifted, Array.toList_push, List.map_append]
      exact LiftContext.nodup_concat hnodup hk.free
    case free =>
      intro q hq
      rw [hlifted] at hq
      rcases Array.mem_push.1 hq with hq | rfl
      · exact hfree q hq
      · exact LiftContext.taken_empty_of_not_taken hk.free
    case spent =>
      intro j hle hlt
      rw [hk.count_eq] at hlt
      by_cases hold : j < s.names.count
      · obtain ⟨c, htext, hc⟩ := hspent j hle hold
        exact ⟨c, hk.advances.table htext, hmono c hc⟩
      · by_cases heq : j = k
        · refine ⟨p.name, heq ▸ hk.text, LiftContext.taken_iff.2 (.inr ⟨p, ?_, rfl⟩)⟩
          rw [hlifted]
          exact Array.mem_push_self
        · obtain ⟨c, htext, hc⟩ := hk.skipped j (by omega) (by omega)
          exact ⟨c, htext, hmono c hc⟩

theorem Evolves.ledger (hs : s.Evolves ctx s') (h : s.Ledger ctx names) : s'.Ledger ctx names := by
  induction hs with
  | refl => exact h
  | tail _ hstep ih => exact hstep.ledger ih

end LiftState

end LambdaLifting
