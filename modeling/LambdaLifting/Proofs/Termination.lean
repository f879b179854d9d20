import LambdaLifting.Proofs.AppendOnly
import LambdaLifting.Proofs.Fuel
import LambdaLifting.Proofs.Stages
import Mathlib.Algebra.GroupWithZero.Nat

namespace LambdaLifting

namespace Term

def isVar : Term → Bool
  | var _ => true
  | _ => false

def hasRedex : Term → Bool
  | var _ | global _ | lit _ => false
  | app f x => f.isLambda || f.hasRedex || x.hasRedex
  | lam _ body => body.hasRedex
  | letIn _ value body => value.hasRedex || body.hasRedex

/-- The number of nodes of a term, without variables and applications to variables. An arm with too
few lambdas is applied to new variables, so that the terms to lift can grow; their weight does not.
-/
def weight : Term → Nat
  | var _ => 0
  | global _ | lit _ => 1
  | app f x => f.weight + if x.isVar then 0 else x.weight + 1
  | lam _ body => body.weight + 1
  | letIn _ value body => value.weight + body.weight + 1

def abstractions : Term → Nat
  | var _ | global _ | lit _ => 0
  | app f x => f.abstractions + x.abstractions
  | lam _ body => body.abstractions + 1
  | letIn _ value body => value.abstractions + body.abstractions

/-- The weight counts most. Among terms of one weight, an application comes after its head. -/
def rank (t : Term) : Nat := 2 * t.weight + if t.isApp then 1 else 0

theorem rank_le (t : Term) : t.rank ≤ 2 * t.weight + 1 := by
  rw [rank]
  split <;> omega

theorem leading_le_weight (t : Term) : t.leading ≤ t.weight := by
  induction t with
  | lam b body ih => exact Nat.succ_le_succ ih
  | _ => exact Nat.zero_le _

section Renames

variable {s : Replacement}

theorem substitute_var_of_renames (hs : s.Renames) (x : LocalId) :
    ∃ y, (var x).substitute s = var y := by
  cases hx : s x with
  | none => exact ⟨x, by simp [substitute, hx]⟩
  | some u =>
    obtain ⟨y, rfl⟩ := hs x u hx
    exact ⟨y, by simp [substitute, hx]⟩

theorem isVar_substitute (hs : s.Renames) (t : Term) : (t.substitute s).isVar = t.isVar := by
  cases t with
  | var x =>
    obtain ⟨y, hy⟩ := substitute_var_of_renames hs x
    rw [hy]
    rfl
  | _ => rfl

theorem isLambda_substitute_of_renames (hs : s.Renames) (t : Term) :
    (t.substitute s).isLambda = t.isLambda := by
  cases t with
  | var x =>
    obtain ⟨y, hy⟩ := substitute_var_of_renames hs x
    rw [hy]
    rfl
  | _ => rfl

theorem hasRedex_substitute (hs : s.Renames) (t : Term) :
    (t.substitute s).hasRedex = t.hasRedex := by
  induction t generalizing s with
  | var x =>
    obtain ⟨y, hy⟩ := substitute_var_of_renames hs x
    rw [hy]
    rfl
  | global c => rfl
  | lit l => rfl
  | app f x ihf ihx =>
    rw [substitute, hasRedex, hasRedex, isLambda_substitute_of_renames hs, ihf hs, ihx hs]
  | lam b body ih => exact ih (hs.hide b.id)
  | letIn b value body ihv ih =>
    rw [substitute_letIn, hasRedex, hasRedex, ihv hs, ih (hs.hide b.id)]

theorem weight_substitute (hs : s.Renames) (t : Term) : (t.substitute s).weight = t.weight := by
  induction t generalizing s with
  | var x =>
    obtain ⟨y, hy⟩ := substitute_var_of_renames hs x
    rw [hy]
    rfl
  | global c => rfl
  | lit l => rfl
  | app f x ihf ihx => rw [substitute, weight, weight, isVar_substitute hs, ihf hs, ihx hs]
  | lam b body ih => rw [substitute_lam, weight, weight, ih (hs.hide b.id)]
  | letIn b value body ihv ih =>
    rw [substitute_letIn, weight, weight, ihv hs, ih (hs.hide b.id)]

theorem abstractions_substitute (hs : s.Renames) (t : Term) :
    (t.substitute s).abstractions = t.abstractions := by
  induction t generalizing s with
  | var x =>
    obtain ⟨y, hy⟩ := substitute_var_of_renames hs x
    rw [hy]
    rfl
  | global c => rfl
  | lit l => rfl
  | app f x ihf ihx => rw [substitute, abstractions, abstractions, ihf hs, ihx hs]
  | lam b body ih => rw [substitute_lam, abstractions, abstractions, ih (hs.hide b.id)]
  | letIn b value body ihv ih =>
    rw [substitute_letIn, abstractions, abstractions, ihv hs, ih (hs.hide b.id)]

theorem rank_substitute_le (hs : s.Renames) (t : Term) :
    (t.substitute s).rank ≤ 2 * t.weight + 1 :=
  weight_substitute hs t ▸ rank_le _

end Renames

section Apply

variable {f : Term} {xs : List Term}

theorem hasRedex_of_apply (h : (f.apply xs).hasRedex = false) :
    f.hasRedex = false ∧ ∀ x ∈ xs, x.hasRedex = false := by
  induction xs generalizing f with
  | nil => exact ⟨h, by simp⟩
  | cons x xs ih =>
    obtain ⟨hfx, hxs⟩ := ih h
    simp only [hasRedex, Bool.or_eq_false_iff] at hfx
    exact ⟨hfx.1.2, List.forall_mem_cons.2 ⟨hfx.2, hxs⟩⟩

theorem headNormal_of_hasRedex_eq_false {t : Term} (h : t.hasRedex = false) : HeadNormal t := by
  intro u hstep
  induction hstep with
  | beta b body x => simp [hasRedex, isLambda] at h
  | app x _ ih =>
    simp only [hasRedex, Bool.or_eq_false_iff] at h
    exact ih h.1.2

theorem abstractions_apply (f : Term) (xs : List Term) :
    (f.apply xs).abstractions = f.abstractions + (xs.map abstractions).sum := by
  induction xs generalizing f with
  | nil => rfl
  | cons x xs ih => rw [apply_cons, ih, abstractions, List.map_cons, List.sum_cons, Nat.add_assoc]

theorem map_abstractions_zip {cs : List Name} (h : xs.length = cs.length) :
    ((cs.zip xs).map fun y => y.2.abstractions) = xs.map abstractions := by
  conv_rhs => rw [← List.map_snd_zip (Nat.le_of_eq h), List.map_map]
  rfl

theorem weight_le_apply (f : Term) (xs : List Term) : f.weight ≤ (f.apply xs).weight := by
  induction xs generalizing f with
  | nil => exact Nat.le_refl _
  | cons x xs ih => exact Nat.le_trans (Nat.le_add_right _ _) (ih (app f x))

theorem weight_add_lt_apply {x : Term} (hx : x ∈ xs) (hvar : x.isVar = false) :
    f.weight + x.weight < (f.apply xs).weight := by
  induction xs generalizing f with
  | nil => simp at hx
  | cons y xs ih =>
    rw [apply_cons]
    rcases List.mem_cons.1 hx with rfl | hx
    · have hle := weight_le_apply (app f x) xs
      simp only [weight, hvar] at hle
      exact hle
    · have hle : f.weight ≤ (app f y).weight := Nat.le_add_right _ _
      exact Nat.lt_of_le_of_lt (Nat.add_le_add_right hle _) (ih hx)

theorem rank_apply (f : Term) (h : xs ≠ []) :
    (f.apply xs).rank = 2 * (f.apply xs).weight + 1 := by
  rw [rank, if_pos (isApp_apply f h)]

theorem rank_head_lt (happ : f.isApp = false) (h : xs ≠ []) : f.rank < (f.apply xs).rank := by
  have hle := weight_le_apply f xs
  have hrank : f.rank = 2 * f.weight := by simp [rank, happ]
  rw [rank_apply f h]
  omega

theorem rank_arg_lt {x : Term} (hx : x ∈ xs) : x.rank < (f.apply xs).rank := by
  rw [rank_apply f (List.ne_nil_of_mem hx)]
  cases hvar : x.isVar with
  | true =>
    cases x with
    | var y => exact Nat.succ_pos _
    | _ => cases hvar
  | false =>
    have hrank := x.rank_le
    have hlt : f.weight + x.weight < (f.apply xs).weight := weight_add_lt_apply hx hvar
    omega

/-- A global weighs something, so that an argument may be a variable here. -/
theorem weight_arg_lt_of_global {c : Name} {x : Term} (hx : x ∈ xs) :
    x.weight < ((global c).apply xs).weight := by
  have hpos : 1 ≤ ((global c).apply xs).weight := weight_le_apply (global c) xs
  cases hvar : x.isVar with
  | true =>
    cases x with
    | var y => exact hpos
    | _ => cases hvar
  | false => exact Nat.lt_of_le_of_lt (Nat.le_add_left _ _) (weight_add_lt_apply hx hvar)

end Apply

end Term

namespace Peels

variable {anonymous : Name} {k n : Nat} {s : Replacement} {t inner : Term} {bs : List Binder}

theorem hasRedex_eq_false (h : Peels anonymous k s n t bs inner) (hs : s.Renames)
    (ht : t.hasRedex = false) : inner.hasRedex = false := by
  induction h with
  | done => rw [Term.hasRedex_substitute hs, ht]
  | lam _ ih => exact ih (hs.add _ _) ht
  | expand hlam _ ih =>
    refine ih hs ?_
    simp [Term.hasRedex, hlam, ht]

theorem weight_le (h : Peels anonymous k s n t bs inner) (hs : s.Renames) :
    inner.weight ≤ t.weight := by
  induction h with
  | done => exact Nat.le_of_eq (Term.weight_substitute hs _)
  | lam _ ih => exact Nat.le_succ_of_le (ih (hs.add _ _))
  | expand _ _ ih => exact ih hs

theorem rank_lt (h : Peels anonymous t.leading s n t bs inner) (hs : s.Renames)
    (ht : t.isLambda = true) : inner.rank < t.rank := by
  cases t with
  | lam b body =>
    rw [Term.leading] at h
    cases h with
    | lam h =>
      have hweight := h.weight_le (hs.add _ _)
      have hrank := inner.rank_le
      have : (Term.lam b body).rank = 2 * (body.weight + 1) := rfl
      omega
    | expand hlam => cases hlam
  | _ => cases ht

theorem abstractions_le (h : Peels anonymous k s n t bs inner) (hs : s.Renames) :
    inner.abstractions ≤ t.abstractions := by
  induction h with
  | done => exact Nat.le_of_eq (Term.abstractions_substitute hs _)
  | lam _ ih => exact Nat.le_succ_of_le (ih (hs.add _ _))
  | expand _ _ ih => exact ih hs

theorem abstractions_lt (h : Peels anonymous t.leading s n t bs inner) (hs : s.Renames)
    (ht : t.isLambda = true) : inner.abstractions < t.abstractions := by
  cases t with
  | lam b body =>
    rw [Term.leading] at h
    cases h with
    | lam h => exact Nat.lt_succ_of_le (h.abstractions_le (hs.add _ _))
    | expand hlam => cases hlam
  | _ => cases ht

end Peels

/-- Lifting as far as it is given by `R` makes no more procedures than there are lambdas, if none of
these is applied. -/
def Judgment.Counts (R : Judgment) : Prop :=
  ∀ ⦃Γ w t w' u⦄, R Γ w t w' u → t.hasRedex = false →
    w'.lifted.length ≤ w.lifted.length + t.abstractions

theorem Calls.length_le {ctx : LiftContext} {w w' : Stage} {t u : Term}
    (h : Calls ctx w t w' u) : w'.lifted.length ≤ w.lifted.length + 1 := by
  cases h with
  | reuse => exact Nat.le_succ _
  | new => exact Nat.le_of_eq List.length_append

namespace Judgment.Counts

variable {ctx : LiftContext} {R : Judgment} {Γ : Context} {w w' : Stage}

theorem each {α : Type} {P : Stage → α → Stage → Term → Prop} (cost : α → Nat) {xs : List α}
    {us : List Term} (h : Each P w xs w' us)
    (hP : ∀ x ∈ xs, ∀ ⦃w w' u⦄, P w x w' u → w'.lifted.length ≤ w.lifted.length + cost x) :
    w'.lifted.length ≤ w.lifted.length + (xs.map cost).sum := by
  induction h with
  | nil w => exact Nat.le_refl _
  | cons hx _ ih =>
    obtain ⟨hfirst, hrest⟩ := List.forall_mem_cons.1 hP
    have := hfirst hx
    have := ih hrest
    rw [List.map_cons, List.sum_cons]
    omega

theorem under (hR : R.Counts) (k : Nat) : (Under ctx R k).Counts := by
  rintro Γ w t w' - ⟨hpeels, hr⟩ hredex
  have hle := hR hr (hpeels.hasRedex_eq_false .empty hredex)
  exact Nat.le_trans hle (Nat.add_le_add_left (hpeels.abstractions_le .empty) _)

/-- A lambda at the top is left over. -/
theorem under_leading (hR : R.Counts) {t u : Term} (h : Under ctx R t.leading Γ w t w' u)
    (hlam : t.isLambda = true) (hredex : t.hasRedex = false) :
    w'.lifted.length < w.lifted.length + t.abstractions := by
  obtain ⟨hpeels, hr⟩ := h
  have hle := hR hr (hpeels.hasRedex_eq_false .empty hredex)
  exact Nat.lt_of_le_of_lt hle (Nat.add_lt_add_left (hpeels.abstractions_lt .empty hlam) _)

theorem arm (hR : R.Counts) {params : Nat} {x : Name × Term} {u : Term}
    (h : Arm ctx R params Γ w x w' u) (hredex : x.2.hasRedex = false) :
    w'.lifted.length ≤ w.lifted.length + x.2.abstractions := by
  obtain ⟨-, h⟩ := h
  exact hR.under _ h hredex

theorem chain (hR : R.Counts) {s : Replacement} {t u : Term} {ds : List (Binder × Term)}
    (h : Chain R Γ s w t w' ds u) (hs : s.Renames) (hredex : t.hasRedex = false) :
    w'.lifted.length ≤ w.lifted.length + t.abstractions := by
  induction h with
  | done _ hr =>
    rw [← Term.abstractions_substitute hs]
    exact hR hr (by rw [Term.hasRedex_substitute hs, hredex])
  | @letIn Γ s w b v body w' v' w'' ds u hr _ ih =>
    rw [Term.hasRedex, Bool.or_eq_false_iff] at hredex
    have hvalue := hR hr (by rw [Term.hasRedex_substitute hs, hredex.1])
    have hbody : w''.lifted.length ≤ w'.lifted.length + body.abstractions :=
      ih (hs.add _ _) hredex.2
    rw [Term.abstractions_substitute hs] at hvalue
    rw [Term.abstractions]
    omega

theorem rule (hR : R.Counts) : (Rule ctx R).Counts := by
  intro Γ w t w' u h hredex
  cases h with
  | var => exact Nat.le_refl _
  | global c => exact Nat.le_refl _
  | lit l => exact Nat.le_refl _
  | @dispatch _ _ c type ty scrut arms extra w₁ _ w₂ _ _ arms' _ _ hlength hs he ha =>
    obtain ⟨-, hxs⟩ := Term.hasRedex_of_apply hredex
    obtain ⟨hscrut, hrest⟩ := List.forall_mem_cons.1 hxs
    obtain ⟨harms, hextra⟩ := List.forall_mem_append.1 hrest
    have h₁ := hR hs hscrut
    have h₂ := each Term.abstractions he fun x hx w w' u hu => hR hu (hextra x hx)
    have h₃ := each (fun x => x.2.abstractions) ha fun x hx w w' u hu =>
      hR.arm hu (harms x.2 (List.of_mem_zip hx).2)
    rw [Term.map_abstractions_zip hlength] at h₃
    rw [Term.abstractions_apply, List.map_cons, List.sum_cons, List.map_append, List.sum_append]
    omega
  | beta hsteps =>
    -- There is nothing to reduce.
    obtain ⟨v, hstep, -⟩ := Relation.TransGen.head'_iff.1 hsteps
    exact absurd hstep (Term.headNormal_of_hasRedex_eq_false hredex v)
  | call _ _ _ _ hf ha =>
    obtain ⟨hredexf, hredexs⟩ := Term.hasRedex_of_apply hredex
    have h₁ := hR hf hredexf
    have h₂ := each Term.abstractions ha fun x hx w w' u hu => hR hu (hredexs x hx)
    rw [Term.abstractions_apply]
    omega
  | lam hu hc hcall =>
    have h₁ := hR.under_leading hu rfl hredex
    have h₂ : w'.lifted.length ≤ _ + 1 := hcall.length_le
    exact Nat.le_trans h₂ h₁
  | letIn hc => exact hR.chain hc .empty hredex

end Judgment.Counts

namespace LiftM

variable {α : Type} {ctx : LiftContext} {s s' : LiftState} {Γ : Context} {w : Stage} {m n : Nat}

abbrev Returns (x : LiftM α) (ctx : LiftContext) (s : LiftState) : Prop :=
  Ends (fun p => p.isRight = true) x ctx s

theorem returns_throw (err : LiftError) : Returns (throw err : LiftM α) ctx s := rfl

theorem returns_kindOf (c : Name) : Returns (kindOf c) ctx s := by
  refine Ends.read_bind ?_
  cases ctx.env.kind? c with
  | some k => exact ends_pure _
  | none =>
    refine Ends.read_bind (Ends.state_bind ?_)
    cases ctx.owns s.lifted c with
    | true => exact ends_pure _
    | false => exact returns_throw _

theorem returns_fieldCount (params : Nat) (c : Name) : Returns (fieldCount params c) ctx s := by
  refine Ends.read_bind ?_
  cases ctx.env.arity? c with
  | none => exact returns_throw _
  | some arity =>
    by_cases hlt : arity < params
    · simp only [if_pos hlt]
      exact (returns_throw _).bind fun _ _ _ => ends_pure _
    · simp only [if_neg hlt]
      exact ends_pure _

theorem returns_dispatcher? {head : ExprId} {f : Term} (hf : s.arena.term? head = some f) :
    Returns (dispatcher? head) ctx s := by
  obtain ⟨k, hk⟩ := Arena.node?_of_term? hf
  refine Ends.node_bind hk ?_
  cases k with
  | global c =>
    refine (returns_kindOf c).bind fun kind s₁ _ => ?_
    cases kind <;> exact ends_pure _
  | _ => exact ends_pure _

-- The names that are taken at the start are all in the list `cs`, and there are numbers for `B`
-- procedures.
section Names

variable {cs : List Name} {B fuel : Nat} (hcs : ∀ c, ctx.takenAt [] c = true → c ∈ cs)
  (hroom : cs.length + B ≤ NameSource.limit) (hfuel : cs.length + B ≤ fuel)

include hcs hroom hfuel

theorem returns_addProcedure (h : s.Models Γ w) (hw : w.lifted.length < B) (closed : ExprId) :
    Returns (addProcedure fuel closed) ctx s := by
  have htaken (c : Name) (hc : ctx.taken s.lifted c = true) :
      c ∈ cs ++ w.lifted.map Definition.name := by
    rw [taken_eq h, LiftContext.takenAt_eq_true_iff] at hc
    refine List.mem_append.2 (hc.imp (hcs c) ?_)
    rintro ⟨d, hd, rfl⟩
    exact List.mem_map_of_mem hd
  have hlength : (cs ++ w.lifted.map Definition.name).length < cs.length + B := by
    simpa using hw
  obtain ⟨r, hr⟩ := NameSource.exists_fresh_of_length_lt (s := s.names) htaken
    (Nat.lt_of_lt_of_le hlength hroom) (Nat.lt_of_lt_of_le hlength hfuel)
  rw [Returns, Ends, addProcedure_eq, hr]
  trivial

theorem returns_callee (h : s.Models Γ w) (hw : w.lifted.length < B) {e : ExprId} {t : Term}
    (he : s.arena.term? e = some t) : Returns (callee fuel e) ctx s := by
  refine Ends.arena_bind (ArenaM.builds_etaReduce h.wellFormed he) fun reduced a ⟨hgrow, hred⟩ => ?_
  have h₁ := h.grow hgrow
  have hreuse : Returns (reusable? reduced) ctx { s with arena := a } := by
    refine Ends.ask_bind (h₁.wellFormed.headGlobal?_eq_ok hred) ?_
    cases t.etaReduce.headGlobal? with
    | none => exact ends_pure _
    | some c => exact (returns_kindOf c).bind fun _ s₃ _ => ends_pure _
  refine hreuse.bind fun r s₂ hrun => ?_
  obtain ⟨rfl, -⟩ := runs_reusable? h₁ hred hrun
  cases r with
  | none => exact returns_addProcedure hcs hroom hfuel h₁ hw e
  | some c => exact (ends_update _).bind fun _ s₃ _ => ends_pure _

end Names

/-- Lifting as far as it is given by `lift` ends on terms of a rank below `n` in which no lambda is
applied, as long as no more than `B` procedures come of them. -/
def Terminates (ctx : LiftContext) (B n : Nat) (lift : ExprId → LiftM ExprId) : Prop :=
  ∀ ⦃Γ s w e t⦄, s.Models Γ w → w.lifted.length + t.abstractions ≤ B →
    s.arena.term? e = some t → t.hasRedex = false → t.rank < n → Returns (lift e) ctx s

/-- Terms and arms that are to be lifted, with room for the procedures that come of them. -/
structure Pending (B n : Nat) (w : Stage) (ts : List Term) (ys : List (Name × Term)) : Prop where
  terms : ∀ t ∈ ts, t.hasRedex = false ∧ t.rank < n
  arms : ∀ y ∈ ys, y.2.hasRedex = false ∧ 2 * y.2.weight + 1 < n
  room : w.lifted.length + (ts.map Term.abstractions).sum +
    (ys.map fun y => y.2.abstractions).sum ≤ B

namespace Pending

variable {B : Nat} {w' : Stage} {t : Term} {ts : List Term} {y : Name × Term}
  {ys : List (Name × Term)}

theorem room_head (h : Pending B n w (t :: ts) ys) : w.lifted.length + t.abstractions ≤ B := by
  have hroom := h.room
  rw [List.map_cons, List.sum_cons] at hroom
  omega

theorem tail (h : Pending B n w (t :: ts) ys)
    (hw : w'.lifted.length ≤ w.lifted.length + t.abstractions) : Pending B n w' ts ys := by
  have hroom := h.room
  rw [List.map_cons, List.sum_cons] at hroom
  exact ⟨(List.forall_mem_cons.1 h.terms).2, h.arms, by omega⟩

theorem room_arm (h : Pending B n w ts (y :: ys)) : w.lifted.length + y.2.abstractions ≤ B := by
  have hroom := h.room
  rw [List.map_cons, List.sum_cons] at hroom
  omega

theorem tail_arm (h : Pending B n w ts (y :: ys))
    (hw : w'.lifted.length ≤ w.lifted.length + y.2.abstractions) : Pending B n w' ts ys := by
  have hroom := h.room
  rw [List.map_cons, List.sum_cons] at hroom
  exact ⟨h.terms, (List.forall_mem_cons.1 h.arms).2, by omega⟩

end Pending

namespace Terminates

variable {lift : ExprId → LiftM ExprId} {R : Judgment} {e : ExprId} {t : Term} {B : Nat}

theorem handles (hends : Terminates ctx B n lift) (hlift : Simulates ctx lift R)
    (hR : R.Counts) (Γ : Context) :
    Handles (fun p => p.isRight = true) ctx lift R Γ (Pending B n) where
  simulates := hlift
  ends s w e t ts ys h he hK := by
    obtain ⟨hredex, hrank⟩ := hK.terms t List.mem_cons_self
    exact hends h hK.room_head he hredex hrank
  keeps w t w' u ts ys hu hK := hK.tail (hR hu (hK.terms t List.mem_cons_self).1)

theorem underLambdas (hends : Terminates ctx B n lift) (hlift : Simulates ctx lift R)
    (h : s.Models Γ w) (hw : w.lifted.length + t.abstractions ≤ B)
    (he : s.arena.term? e = some t) (hredex : t.hasRedex = false) (hlam : t.isLambda = true)
    (hrank : t.rank ≤ n) {fuel : Nat} (hfuel : t.weight < fuel) :
    Returns (liftUnderLambdas lift fuel e) ctx s := by
  have hleading := Nat.lt_of_le_of_lt t.leading_le_weight hfuel
  refine (ends_openLambdas h (Substitution.means_empty _) he hleading).bind fun r s₁ hopen => ?_
  obtain ⟨v, hpeels, hv, h₁⟩ := peels_of_openLambdas h (Substitution.means_empty _) he hopen
  have hredex' := hpeels.hasRedex_eq_false .empty hredex
  have hrank' := Nat.lt_of_lt_of_le (hpeels.rank_lt .empty hlam) hrank
  have hroom := Nat.le_trans (Nat.add_le_add_left (hpeels.abstractions_le .empty) _) hw
  exact Ends.under hlift h₁.models hv (hends h₁.models hroom hv hredex' hrank') r.1

theorem arm (hends : Terminates ctx B n lift) (hlift : Simulates ctx lift R) (h : s.Models Γ w)
    (hw : w.lifted.length + t.abstractions ≤ B) (he : s.arena.term? e = some t)
    (hredex : t.hasRedex = false) (hweight : 2 * t.weight + 1 < n) (fields : Nat) :
    Returns (liftArm lift fields e) ctx s := by
  refine (ends_openFields h (Substitution.means_empty _) he fields).bind fun r s₁ hopen => ?_
  obtain ⟨v, hpeels, hv, h₁⟩ := peels_of_openFields h (Substitution.means_empty _) he hopen
  refine (ends_update _).bind fun _ s₂ hemit => ?_
  rw [runs_update] at hemit
  subst hemit
  have h₂ := h₁.models.emit (s₁.events.push (.enteredArm fields))
  have hrank := v.rank_le
  have hle := hpeels.weight_le .empty
  have hroom := Nat.le_trans (Nat.add_le_add_left (hpeels.abstractions_le .empty) _) hw
  exact Ends.under hlift h₂ hv (hends h₂ hroom hv (hpeels.hasRedex_eq_false .empty hredex)
    (by omega)) r.1

theorem lambda (hends : Terminates ctx B n lift) (hlift : Simulates ctx lift R) (hS : R.Scopes)
    (hR : R.Counts) {cs : List Name} (hcs : ∀ c, ctx.takenAt [] c = true → c ∈ cs)
    (hroom : cs.length + B ≤ NameSource.limit) (h : s.Models Γ w)
    (hw : w.lifted.length + t.abstractions ≤ B) (he : s.arena.term? e = some t)
    (hredex : t.hasRedex = false) (hlam : t.isLambda = true) (hrank : t.rank ≤ n) {fuel : Nat}
    (hfuel : t.weight + (cs.length + B) < fuel) : Returns (liftLambda lift fuel e) ctx s := by
  refine (hends.underLambdas hlift h hw he hredex hlam hrank (by omega)).bind ?_
  intro lifted s₁ hunder
  obtain ⟨w₁, v, hv, hlifted, h₁⟩ := hlift.underLambdas h he hunder
  obtain ⟨-, htidy⟩ := hS.under _ h.isScoped hv
  -- The lambda itself has given no procedure yet.
  have hw₁ : w₁.lifted.length < B := Nat.lt_of_lt_of_le (hR.under_leading hv hlam hredex) hw
  refine (ends_closeOver h₁.models hlifted htidy.mem_ids).bind fun r s₂ hclose => ?_
  obtain ⟨c, k, -, hclosed, h₂⟩ := closes_of_closeOver h₁.models hlifted htidy.mem_ids hclose
  refine (returns_callee hcs hroom (by omega) h₂.models hw₁ hclosed).bind fun head s₃ hcallee => ?_
  obtain ⟨w₃, f, -, hhead, h₃⟩ := calls_of_callee h₂.models hclosed hcallee
  refine (ends_mapM_mkVar h₃.models _).bind fun args s₄ hargs => ?_
  obtain ⟨hterms, h₄⟩ := Simulates.denote_of_mapM_mkVar h₃.models hargs
  refine (ends_update _).bind fun _ s₅ hemit => ?_
  rw [runs_update] at hemit
  subst hemit
  exact ends_liftM (ArenaM.builds_mkApp h₄.models.wellFormed
    (h₄.isExtension.term?_eq_some hhead) hterms)

/-- The values of local definitions, and what is under them, weigh less than all of it. -/
theorem chain (hends : Terminates ctx B n lift) (hlift : Simulates ctx lift R) (hS : R.Scopes)
    (hR : R.Counts) {S : Substitution} {σ : Replacement} (h : s.Models Γ w)
    (hw : w.lifted.length + t.abstractions ≤ B) (hσ : S.Means s.arena σ)
    (he : s.arena.term? e = some t) (hrename : σ.Renames) (hredex : t.hasRedex = false)
    {fuel : Nat} (hfuel : t.weight < fuel) (hweight : 2 * t.weight ≤ n)
    (hdone : (∀ b v body, t ≠ .letIn b v body) → 2 * t.weight + 1 < n) :
    Returns (liftChain lift fuel S e) ctx s := by
  induction fuel generalizing s Γ w S σ e t with
  | zero => omega
  | succ fuel ih =>
    obtain ⟨k, hk⟩ := Arena.node?_of_term? he
    have hne := h.wellFormed.ne_letIn he hk
    rw [liftChain]
    refine Ends.node_bind hk ?_
    cases h.wellFormed.shows_of_node? he hk with
    | @letIn b value body v u hv hu =>
      rw [Term.weight] at hfuel hweight
      rw [Term.abstractions] at hw
      rw [Term.hasRedex, Bool.or_eq_false_iff] at hredex
      refine Ends.arena_bind (ArenaM.builds_substitute h.wellFormed hσ hv) fun e' a he' => ?_
      have h₀ := h.grow he'.1
      have hredex' : (v.substitute σ).hasRedex = false := by
        rw [Term.hasRedex_substitute hrename, hredex.1]
      have hrank := Term.rank_substitute_le hrename v
      have hlambdas := Term.abstractions_substitute hrename v
      refine (hends h₀ (by omega) he'.2 hredex' (by omega)).bind fun value' s₁ hvalue => ?_
      obtain ⟨w₁, v', hv', hterm, h₁⟩ := hlift Γ h₀ he'.2 hvalue
      have htidy := (hS h.isScoped hv').2
      refine (ends_openBinder h₁.models.wellFormed _ _).bind fun r s₂ hbinder => ?_
      obtain ⟨fresh, x⟩ := r
      obtain ⟨rfl, hx, h₂⟩ := reaches_openBinder h₁.models (.inr ⟨value', v', rfl, rfl, hterm⟩)
        (fun _ e => Option.some.inj e ▸ ⟨htidy.mem_ids, htidy.binder_lt⟩) hbinder
      have hext := he'.1.isExtension.trans (h₁.trans h₂).isExtension
      have hw₁ := hR hv' hredex'
      have hw₂ : (w₁.mint 1).lifted.length + u.abstractions ≤ B := by
        show w₁.lifted.length + u.abstractions ≤ B
        omega
      refine (ih h₂.models hw₂ ((hσ.mono hext).insert b.id hx) (hext.term?_eq_some hu)
        (hrename.add _ _) hredex.2 ?_ ?_ ?_).bind fun _ s₃ _ => ends_pure _
      all_goals omega
    | _ =>
      refine Ends.arena_bind (ArenaM.builds_substitute h.wellFormed hσ he) fun e' a he' => ?_
      refine (hends (h.grow he'.1) ?_ he'.2 ?_ ?_).bind fun _ s₂ _ => ends_pure _
      · rwa [Term.abstractions_substitute hrename]
      · rw [Term.hasRedex_substitute hrename, hredex]
      · exact Nat.lt_of_le_of_lt (Term.rank_substitute_le hrename _) (hdone (hne (by simp)))

theorem lets (hends : Terminates ctx B n lift) (hlift : Simulates ctx lift R) (hS : R.Scopes)
    (hR : R.Counts) (h : s.Models Γ w) {b : Binder} {v body : Term}
    (hw : w.lifted.length + (Term.letIn b v body).abstractions ≤ B)
    (he : s.arena.term? e = some (.letIn b v body))
    (hredex : (Term.letIn b v body).hasRedex = false) (hrank : (Term.letIn b v body).rank ≤ n)
    {fuel : Nat} (hfuel : (Term.letIn b v body).weight < fuel) :
    Returns (liftLets lift fuel e) ctx s := by
  refine (hends.chain hlift hS hR h hw (Substitution.means_empty _) he .empty hredex hfuel hrank
    fun hne => absurd rfl (hne b v body)).bind fun r s₁ hchain => ?_
  obtain ⟨ds, inner⟩ := r
  obtain ⟨w', us, u, Δ, -, hds, hinner, -, h₁⟩ :=
    hlift.chain hS h (Substitution.means_empty _) he hchain
  refine (ends_update _).bind fun _ s₂ hclose => ?_
  rw [runs_update] at hclose
  subst hclose
  exact ends_liftM (ArenaM.builds_mkLets h₁.models.wellFormed hinner hds)

/-- The arms of a dispatch weigh less than the dispatch, which has a global at its head. -/
theorem dispatch (hends : Terminates ctx B n lift) (hlift : Simulates ctx lift R)
    (hR : R.Counts) (h : s.Models Γ w) {c type : Name} {head : ExprId} {args : List ExprId}
    {xs : List Term} (hw : w.lifted.length + (Term.apply (.global c) xs).abstractions ≤ B)
    (hhead : s.arena.term? head = some (.global c)) (hargs : s.arena.Denote args xs)
    (hredex : (Term.apply (.global c) xs).hasRedex = false)
    (hrank : (Term.apply (.global c) xs).rank ≤ n) :
    Returns (liftDispatch lift c type head args) ctx s := by
  cases htype : ctx.env.type? type with
  | none =>
    refine Ends.read_bind ?_
    simp only [htype]
    exact returns_throw _
  | some ty =>
    by_cases hlength : args.length < 1 + ty.arms
    · refine Ends.read_bind ?_
      simp only [htype, if_pos hlength]
      exact (returns_throw _).bind fun _ s₁ hrun => absurd hrun runs_throw
    · have hxs := (Term.hasRedex_of_apply hredex).2
      refine (hends.handles hlift hR Γ).dispatch htype ?_ ?_ h hhead hargs (Nat.not_lt.1 hlength) ?_
      · intro s w e y ys h he hK
        obtain ⟨hy, hweight⟩ := hK.arms y List.mem_cons_self
        refine (returns_fieldCount _ _).bind fun k s₁ hcount => ?_
        obtain ⟨rfl, -⟩ := Simulates.runs_fieldCount hcount
        exact hends.arm hlift h hK.room_arm he hy hweight k
      · intro w y w' u ys hu hK
        exact hK.tail_arm (hR.arm hu (hK.arms y List.mem_cons_self).1)
      · rintro x ys zs rfl harms
        refine ⟨fun z hz => ?_, fun y hy => ?_, ?_⟩
        · have hmem : z ∈ x :: (ys ++ zs) :=
            List.cons_subset_cons x (List.subset_append_right ys zs) hz
          exact ⟨hxs z hmem, Nat.lt_of_lt_of_le (Term.rank_arg_lt hmem) hrank⟩
        · have hmem : y.2 ∈ x :: (ys ++ zs) := by simp [(List.of_mem_zip hy).2]
          have hlt : y.2.weight < ((Term.global c).apply (x :: (ys ++ zs))).weight :=
            Term.weight_arg_lt_of_global hmem
          rw [Term.rank_apply _ (by simp)] at hrank
          exact ⟨hxs _ hmem, by omega⟩
        · rw [Term.map_abstractions_zip harms]
          rw [Term.abstractions_apply, List.map_cons, List.sum_cons, List.map_append,
            List.sum_append] at hw
          rw [List.map_cons, List.sum_cons]
          omega

/-- Nothing is reduced, since no lambda is applied. -/
theorem call (hends : Terminates ctx B n lift) (hlift : Simulates ctx lift R) (hR : R.Counts)
    (h : s.Models Γ w) {head : ExprId} {args : List ExprId} {f : Term} {xs : List Term}
    (hw : w.lifted.length + (f.apply xs).abstractions ≤ B)
    (hn : s.arena.node? e = some (.app head args)) (hf : s.arena.term? head = some f)
    (hargs : s.arena.Denote args xs) (hredex : (f.apply xs).hasRedex = false)
    (hrank : (f.apply xs).rank ≤ n) (fuel : Nat) :
    Returns (liftCall lift (fuel + 1) e head args) ctx s := by
  have he := h.wellFormed.term?_of_node? hn (.app hf hargs)
  obtain ⟨happ, hne⟩ := h.wellFormed.spine_of_node? hn hf hargs
  obtain ⟨hredexf, hredexs⟩ := Term.hasRedex_of_apply hredex
  have hreduce := ArenaM.headReduce_eq_self h.wellFormed he
    (Term.headNormal_of_hasRedex_eq_false hredex) fuel
  refine Ends.arena_bind (Q := fun r a => r = e ∧ a = s.arena) ⟨e, _, hreduce, rfl, rfl⟩ ?_
  rintro _ _ ⟨rfl, rfl⟩
  rw [if_neg (fun hne => hne rfl)]
  refine (hends.handles hlift hR Γ).rebuild h hf hargs ⟨?_, by simp, ?_⟩ _
  · exact List.forall_mem_cons.2
      ⟨⟨hredexf, Nat.lt_of_lt_of_le (Term.rank_head_lt happ hne) hrank⟩,
        fun x hx => ⟨hredexs x hx, Nat.lt_of_lt_of_le (Term.rank_arg_lt hx) hrank⟩⟩
  · rwa [List.map_cons, List.sum_cons, ← Term.abstractions_apply]

theorem app (hends : Terminates ctx B n lift) (hlift : Simulates ctx lift R) (hR : R.Counts)
    (h : s.Models Γ w) {head : ExprId} {args : List ExprId} {f : Term} {xs : List Term}
    (hw : w.lifted.length + (f.apply xs).abstractions ≤ B)
    (hn : s.arena.node? e = some (.app head args)) (hf : s.arena.term? head = some f)
    (hargs : s.arena.Denote args xs) (hredex : (f.apply xs).hasRedex = false)
    (hrank : (f.apply xs).rank ≤ n) (fuel : Nat) :
    Returns (liftApp lift (fuel + 1) e head args) ctx s := by
  refine (returns_dispatcher? hf).bind fun d? s₁ hrun => ?_
  obtain ⟨rfl, hsome, -⟩ := Simulates.runs_dispatcher? h hf hrun
  cases d? with
  | some d =>
    obtain ⟨rfl, -⟩ := hsome d.1 d.2 rfl
    exact hends.dispatch hlift hR h hw hf hargs hredex hrank
  | none => exact hends.call hlift hR h hw hn hf hargs hredex hrank fuel

end Terminates

section Room

variable {cs : List Name} {B : Nat} (hcs : ∀ c, ctx.takenAt [] c = true → c ∈ cs)
  (hroom : cs.length + B ≤ NameSource.limit)

include hcs hroom

end Room

end LiftM

namespace Program

variable {env : Environment} {p : Program} {names : NameSource}

def abstractions (p : Program) : Nat :=
  (((p.procedures.map Procedure.body).filterMap p.arena.term?).map Term.abstractions).sum

end Program

end LambdaLifting
