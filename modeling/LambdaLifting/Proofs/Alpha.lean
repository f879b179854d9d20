import LambdaLifting.Proofs.Meaning
import Mathlib.Data.List.Induction
import Mathlib.Data.List.Nodup

namespace LambdaLifting

namespace Nameless

/-- The indices of a term that point beyond its own binders. -/
def indices : Nameless → List Nat
  | bound i => [i]
  | free _ | global _ | lit _ => []
  | app f x => f.indices ++ x.indices
  | lam body => (body.indices.filter (· ≠ 0)).map Nat.pred
  | letIn value body => value.indices ++ (body.indices.filter (· ≠ 0)).map Nat.pred

theorem mem_map_pred {is : List Nat} {i : Nat} :
    i ∈ (is.filter (· ≠ 0)).map Nat.pred ↔ i + 1 ∈ is := by
  simp only [List.mem_map, List.mem_filter, decide_eq_true_eq]
  constructor
  · rintro ⟨j, ⟨hj, hne⟩, rfl⟩
    rwa [Nat.pred_eq_sub_one, Nat.sub_add_cancel (Nat.pos_of_ne_zero hne)]
  · intro h
    exact ⟨i + 1, ⟨h, Nat.succ_ne_zero i⟩, rfl⟩

def leading : Nameless → Nat
  | lam body => body.leading + 1
  | _ => 0

def headGlobal? : Nameless → Option Name
  | global c => some c
  | app f _ => f.headGlobal?
  | _ => none

/-- Go under `k` lambdas. A term with too few is applied to the variables of new ones. -/
def peel : Nat → Nameless → Nameless
  | 0, t => t
  | k + 1, lam body => body.peel k
  | k + 1, t => (app t.shift (bound 0)).peel k

def headStep? : Nameless → Option Nameless
  | app (lam body) x => some (body.inst x)
  | app f x => f.headStep?.map (app · x)
  | _ => none

/-- Drop a last argument that is the variable of the innermost binder, not mentioned elsewhere. -/
def dropArg? : Nameless → Option Nameless
  | app f (bound 0) => if 0 ∉ f.indices then some (f.rename Nat.pred) else none
  | _ => none

def etaReduce : Nameless → Nameless
  | lam body => body.etaReduce.dropArg?.getD (lam body.etaReduce)
  | t => t

def lambdas : Nat → Nameless → Nameless
  | 0, t => t
  | k + 1, t => lam (t.lambdas k)

theorem lambdas_peel {k : Nat} {t : Nameless} (h : k ≤ t.leading) : (t.peel k).lambdas k = t := by
  induction k generalizing t with
  | zero => rfl
  | succ k ih =>
    cases t with
    | lam body => rw [peel, lambdas, ih (Nat.le_of_succ_le_succ h)]
    | _ => simp [leading] at h

theorem headStep?_app {f : Nameless} (x : Nameless) (h : f.leading = 0) :
    (app f x).headStep? = f.headStep?.map (app · x) := by
  cases f with
  | lam body => simp [leading] at h
  | _ => rfl

theorem rename_pred_shift (t : Nameless) : t.shift.rename Nat.pred = t := by
  have lift : ∀ r : Nat → Nat, (∀ i, r i = i) → ∀ i, liftRenaming r i = i := by
    intro r hr i
    cases i with
    | zero => rfl
    | succ i => rw [liftRenaming, hr]
  have ident (t : Nameless) (r : Nat → Nat) (hr : ∀ i, r i = i) : t.rename r = t := by
    induction t generalizing r with
    | bound i => rw [rename, hr]
    | free x => rfl
    | global c => rfl
    | lit l => rfl
    | app f x ihf ihx => rw [rename, ihf r hr, ihx r hr]
    | lam body ih => rw [rename, ih _ (lift r hr)]
    | letIn value body ihv ih => rw [rename, ihv r hr, ih _ (lift r hr)]
  rw [shift, rename_rename]
  exact ident t _ fun i => Nat.pred_succ i

end Nameless

namespace Term

variable {t u : Term} {xs ys : List LocalId}

theorem exists_var_of_nameless {i : Nat} (h : t.nameless xs = .bound i) :
    ∃ x, t = var x ∧ xs.idxOf? x = some i := by
  cases t with
  | var x =>
    rw [nameless] at h
    split at h
    · next hx => exact ⟨x, rfl, hx.trans (congrArg some (Nameless.bound.inj h))⟩
    · cases h
  | _ => cases h

theorem exists_global_of_nameless {c : Name} (h : t.nameless xs = .global c) : t = global c := by
  cases t with
  | global d => exact congrArg global (Nameless.global.inj h)
  | var x =>
    rw [nameless] at h
    split at h <;> cases h
  | _ => cases h

theorem exists_lit_of_nameless {l : Literal} (h : t.nameless xs = .lit l) : t = lit l := by
  cases t with
  | lit m => exact congrArg lit (Nameless.lit.inj h)
  | var x =>
    rw [nameless] at h
    split at h <;> cases h
  | _ => cases h

theorem exists_app_of_nameless {f x : Nameless} (h : t.nameless xs = .app f x) :
    ∃ g y, t = app g y ∧ g.nameless xs = f ∧ y.nameless xs = x := by
  cases t with
  | app g y =>
    injection h with hf hx
    exact ⟨g, y, rfl, hf, hx⟩
  | var x =>
    rw [nameless] at h
    split at h <;> cases h
  | _ => cases h

theorem exists_lam_of_nameless {n : Nameless} (h : t.nameless xs = .lam n) :
    ∃ b body, t = lam b body ∧ body.nameless (b.id :: xs) = n := by
  cases t with
  | lam b body => exact ⟨b, body, rfl, Nameless.lam.inj h⟩
  | var x =>
    rw [nameless] at h
    split at h <;> cases h
  | _ => cases h

theorem exists_letIn_of_nameless {v n : Nameless} (h : t.nameless xs = .letIn v n) :
    ∃ b value body, t = letIn b value body ∧ value.nameless xs = v ∧
      body.nameless (b.id :: xs) = n := by
  cases t with
  | letIn b value body =>
    injection h with hv hb
    exact ⟨b, value, body, rfl, hv, hb⟩
  | var x =>
    rw [nameless] at h
    split at h <;> cases h
  | _ => cases h

theorem nameless_var {x : LocalId} {i : Nat} (h : xs.idxOf? x = some i) :
    (var x).nameless xs = .bound i := by
  rw [nameless, h]

theorem exists_idxOf? {x : LocalId} (h : x ∈ xs) : ∃ i, xs.idxOf? x = some i := by
  cases hi : xs.idxOf? x with
  | none => exact absurd h (List.idxOf?_eq_none_iff.1 hi)
  | some i => exact ⟨i, rfl⟩

theorem eq_of_idxOf? {x y : LocalId} {i : Nat} (hx : xs.idxOf? x = some i)
    (hy : xs.idxOf? y = some i) : x = y := by
  obtain ⟨_, rfl, -⟩ := List.idxOf?_eq_some_iff.1 hx
  obtain ⟨_, rfl, -⟩ := List.idxOf?_eq_some_iff.1 hy
  rfl

theorem idxOf?_cons_eq_succ {b x : LocalId} {i : Nat} :
    (b :: xs).idxOf? x = some (i + 1) ↔ x ≠ b ∧ xs.idxOf? x = some i := by
  rw [List.idxOf?_cons]
  by_cases h : b = x
  · simp [h]
  · simp [h, Ne.symm h]

theorem idxOf?_cons_eq_zero {b x : LocalId} : (b :: xs).idxOf? x = some 0 ↔ x = b := by
  rw [List.idxOf?_cons]
  by_cases h : b = x
  · simp [h]
  · simp [h, Ne.symm h]

theorem mem_indices_nameless {i : Nat} :
    i ∈ (t.nameless xs).indices ↔ ∃ x ∈ t.occurrences, xs.idxOf? x = some i := by
  have body {b : Binder} {u : Term} {xs : List LocalId} {i : Nat}
      (ih : ∀ {xs : List LocalId} {i : Nat},
        i ∈ (u.nameless xs).indices ↔ ∃ x ∈ u.occurrences, xs.idxOf? x = some i) :
      i ∈ ((u.nameless (b.id :: xs)).indices.filter (· ≠ 0)).map Nat.pred ↔
        ∃ x ∈ u.occurrences.filter (· ≠ b.id), xs.idxOf? x = some i := by
    simp only [Nameless.mem_map_pred, ih, idxOf?_cons_eq_succ, List.mem_filter, decide_eq_true_eq,
      and_assoc]
  induction t generalizing xs i with
  | var x =>
    simp only [occurrences, List.mem_singleton, exists_eq_left]
    cases hx : xs.idxOf? x with
    | none => simp [nameless, hx, Nameless.indices]
    | some j => simp [nameless, hx, Nameless.indices, eq_comm]
  | global c => simp [nameless, Nameless.indices, occurrences]
  | lit l => simp [nameless, Nameless.indices, occurrences]
  | app f x ihf ihx =>
    simp only [nameless, Nameless.indices, occurrences, List.mem_append, ihf, ihx, or_and_right,
      exists_or]
  | lam b u ih => exact body ih
  | letIn b v u ihv ih =>
    simp only [nameless, Nameless.indices, occurrences, List.mem_append, ihv, or_and_right,
      exists_or, body ih]

theorem mem_occurrences_iff (h : t.nameless xs = u.nameless ys) {x y : LocalId} {i : Nat}
    (hx : xs.idxOf? x = some i) (hy : ys.idxOf? y = some i) :
    x ∈ t.occurrences ↔ y ∈ u.occurrences := by
  have key {t : Term} {xs : List LocalId} {x : LocalId} (hx : xs.idxOf? x = some i) :
      x ∈ t.occurrences ↔ i ∈ (t.nameless xs).indices := by
    rw [mem_indices_nameless]
    refine ⟨fun hm => ⟨x, hm, hx⟩, fun ⟨z, hz, hi⟩ => ?_⟩
    exact eq_of_idxOf? hi hx ▸ hz
  rw [key hx, h, ← key hy]

/-- Matching terms read the same, if variables at the same position do. -/
theorem read_eq_read {r q : Reading} (h : t.nameless xs = u.nameless ys)
    (hocc : ∀ x ∈ t.occurrences, x ∈ xs)
    (hr : ∀ x ∈ t.occurrences, ∀ y i, xs.idxOf? x = some i → ys.idxOf? y = some i →
      r.locals x = q.locals y) (hg : r.globals = q.globals) : t.read r = u.read q := by
  -- Under binders `b` and `c`, which are at the first position, the others move on by one.
  have under {b c : Binder} {body : Term} {xs ys : List LocalId} {r q : Reading}
      (hr : ∀ x ∈ body.occurrences.filter (· ≠ b.id), ∀ y i, xs.idxOf? x = some i →
        ys.idxOf? y = some i → r.locals x = q.locals y) :
      ∀ x ∈ body.occurrences, ∀ y i, (b.id :: xs).idxOf? x = some i →
        (c.id :: ys).idxOf? y = some i → (r.under b.id).locals x = (q.under c.id).locals y := by
    intro x hx y i hi hj
    cases i with
    | zero =>
      rw [idxOf?_cons_eq_zero.1 hi, idxOf?_cons_eq_zero.1 hj, Reading.under_locals_self,
        Reading.under_locals_self]
    | succ i =>
      obtain ⟨hxb, hi⟩ := idxOf?_cons_eq_succ.1 hi
      obtain ⟨hyc, hj⟩ := idxOf?_cons_eq_succ.1 hj
      rw [Reading.under_locals_of_ne hxb, Reading.under_locals_of_ne hyc,
        hr x (by simp [hx, hxb]) y i hi hj]
  have reach {b : Binder} {body : Term} {xs : List LocalId}
      (h : ∀ x ∈ body.occurrences.filter (· ≠ b.id), x ∈ xs) :
      ∀ x ∈ body.occurrences, x ∈ b.id :: xs := by
    intro x hx
    by_cases e : x = b.id
    · simp [e]
    · exact List.mem_cons_of_mem _ (h x (by simp [hx, e]))
  have shifted {b c : Binder} {r q : Reading} (hg : r.globals = q.globals) :
      (r.under b.id).globals = (q.under c.id).globals := by
    simp only [Reading.under, hg]
  induction t generalizing u xs ys r q with
  | var x =>
    obtain ⟨i, hi⟩ := exists_idxOf? (hocc x (by simp [occurrences]))
    rw [nameless_var hi] at h
    obtain ⟨y, rfl, hj⟩ := exists_var_of_nameless h.symm
    exact hr x (by simp [occurrences]) y i hi hj
  | global c =>
    obtain rfl := exists_global_of_nameless h.symm
    exact congrFun hg c
  | lit l =>
    obtain rfl := exists_lit_of_nameless h.symm
    rfl
  | app f x ihf ihx =>
    obtain ⟨g, y, rfl, hf, hx⟩ := exists_app_of_nameless h.symm
    simp only [occurrences, List.mem_append] at hocc hr
    rw [read, read, ihf hf.symm (fun z hz => hocc z (.inl hz)) (fun z hz => hr z (.inl hz)) hg,
      ihx hx.symm (fun z hz => hocc z (.inr hz)) (fun z hz => hr z (.inr hz)) hg]
  | lam b body ih =>
    obtain ⟨c, body', rfl, hbody⟩ := exists_lam_of_nameless h.symm
    rw [read, read, ih hbody.symm (reach hocc) (under hr) (shifted hg)]
  | letIn b value body ihv ih =>
    obtain ⟨c, value', body', rfl, hv, hbody⟩ := exists_letIn_of_nameless h.symm
    simp only [occurrences, List.mem_append] at hocc hr
    rw [read, read, ihv hv.symm (fun z hz => hocc z (.inl hz)) (fun z hz => hr z (.inl hz)) hg,
      ih hbody.symm (reach fun z hz => hocc z (.inr hz)) (under fun z hz => hr z (.inr hz))
        (shifted hg)]

theorem AlphaEq.nameless_eq (h : t.AlphaEq u) (ht : t.Closed) (xs ys : List LocalId) :
    t.nameless xs = u.nameless ys := by
  rw [nameless_eq_read_boundReading, nameless_eq_read_boundReading]
  exact read_eq_read h (fun x hx => absurd hx (closed_iff.1 ht x))
    (fun x hx => absurd hx (closed_iff.1 ht x)) rfl

theorem nameless_of_not_mem {x : LocalId} (h : x ∉ t.occurrences) (xs : List LocalId) :
    t.nameless (x :: xs) = (t.nameless xs).shift := by
  rw [nameless_eq_read_boundReading, nameless_eq_read_boundReading, boundReading_cons,
    shift_read _ h]

theorem nameless_apply (f : Term) (args : List Term) (xs : List LocalId) :
    (f.apply args).nameless xs = (f.nameless xs).apply (args.map (nameless xs)) := by
  induction args generalizing f with
  | nil => rfl
  | cons x args ih => exact ih (app f x)

theorem nameless_lambdas (bs : List Binder) (t : Term) (Γ : Context) :
    (lambdas bs t).nameless Γ.ids = (t.nameless (Γ.enter bs).ids).lambdas bs.length := by
  induction bs generalizing Γ with
  | nil => rfl
  | cons b bs ih => exact congrArg Nameless.lam (ih (⟨b.id, b.name, none⟩ :: Γ))

@[simp]
theorem leading_nameless (t : Term) (xs : List LocalId) : (t.nameless xs).leading = t.leading := by
  induction t generalizing xs with
  | lam b body ih => rw [nameless, Nameless.leading, leading, ih]
  | var x =>
    rw [nameless]
    split <;> rfl
  | _ => rfl

@[simp]
theorem headGlobal?_nameless (t : Term) (xs : List LocalId) :
    (t.nameless xs).headGlobal? = t.headGlobal? := by
  induction t with
  | app f x ihf _ => exact ihf
  | var x =>
    rw [nameless]
    split <;> rfl
  | _ => rfl

theorem nameless_eq_of_apply {f g : Term} {as bs : List Term} (hf : f.isApp = false)
    (hg : g.isApp = false) (h : (f.apply as).nameless xs = (g.apply bs).nameless ys) :
    f.nameless xs = g.nameless ys ∧ as.map (nameless xs) = bs.map (nameless ys) := by
  -- A term that matches an application is one.
  have noApp {f g : Term} {xs ys : List LocalId} {bs : List Term} {x : Term}
      (hf : f.isApp = false) (h : f.nameless xs = (g.apply (bs ++ [x])).nameless ys) : False := by
    rw [apply_concat, nameless] at h
    obtain ⟨_, _, rfl, -⟩ := exists_app_of_nameless h
    cases hf
  induction as using List.reverseRecOn generalizing bs with
  | nil =>
    induction bs using List.reverseRecOn with
    | nil => exact ⟨h, rfl⟩
    | append_singleton bs b _ => exact (noApp hf h).elim
  | append_singleton as a ih =>
    induction bs using List.reverseRecOn with
    | nil => exact (noApp hg h.symm).elim
    | append_singleton bs b _ =>
      rw [apply_concat, apply_concat] at h
      injection h with h₁ h₂
      obtain ⟨hhead, hargs⟩ := ih h₁
      exact ⟨hhead, by simp [hargs, h₂]⟩

theorem nameless_dropArg? (t : Term) (x : LocalId) (xs : List LocalId) :
    (t.nameless (x :: xs)).dropArg? = (t.dropArg? x).map (nameless xs) := by
  cases t with
  | app f y =>
    cases y with
    | var z =>
      have hfree : 0 ∈ (f.nameless (x :: xs)).indices ↔ x ∈ f.occurrences := by
        simp [mem_indices_nameless, idxOf?_cons_eq_zero]
      by_cases hz : z = x
      · have hvar : (var z).nameless (x :: xs) = .bound 0 := nameless_var (idxOf?_cons_eq_zero.2 hz)
        rw [nameless, hvar, Nameless.dropArg?, dropArg?]
        by_cases hx : x ∈ f.occurrences
        · simp [hfree, hx]
        · rw [if_pos (mt hfree.1 hx), if_pos ⟨hz, hx⟩, nameless_of_not_mem hx,
            Nameless.rename_pred_shift]
          rfl
      · rw [dropArg?, if_neg (fun h => hz h.1), nameless]
        cases hv : (var z).nameless (x :: xs) with
        | bound i =>
          obtain ⟨w, hw, hi⟩ := exists_var_of_nameless hv
          cases hw
          cases i with
          | zero => exact absurd (idxOf?_cons_eq_zero.1 hi) hz
          | succ i => rfl
        | _ => rfl
    | _ => rfl
  | var y =>
    rw [nameless]
    split <;> rfl
  | _ => rfl

theorem nameless_etaReduce (t : Term) (xs : List LocalId) :
    t.etaReduce.nameless xs = (t.nameless xs).etaReduce := by
  induction t generalizing xs with
  | lam b body ih =>
    rw [nameless, Nameless.etaReduce, etaReduce, ← ih, nameless_dropArg?]
    cases body.etaReduce.dropArg? b.id <;> rfl
  | var x =>
    rw [etaReduce, nameless]
    · split <;> rfl
    · simp
  | _ => rfl

end Term

/-- Opening a binder with a new variable does not change the nameless form of its body. -/
theorem Opening.nameless_under {m n : Nat} {Γ : Context} {s : Replacement} {t body : Term}
    {b : Binder} (hΓ : Γ.Apart m n) (hs : Opening m Γ s t) (hb : b.id ∈ t.binders)
    (hbody : ∀ y ∈ body.occurrences, y ≠ b.id → y ∈ t.occurrences)
    (hbinders : ∀ y ∈ body.binders, y ∈ t.binders) {k : Nat} (hk : n ≤ k) :
    (body.substitute (s.add b.id (.var ⟨k⟩))).nameless (⟨k⟩ :: Γ.ids) =
      (body.substitute (s.hide b.id)).nameless (b.id :: Γ.ids) := by
  rw [Term.nameless_eq_read_boundReading, Term.nameless_eq_read_boundReading,
    Term.boundReading_cons, Term.boundReading_cons, hs.read_under hΓ hb hbody hbinders _ hk]

theorem Opening.nameless_letBody {m n : Nat} {Γ : Context} {s : Replacement} {b : Binder}
    {value body : Term} (hΓ : Γ.Apart m n) (hs : Opening m Γ s (.letIn b value body)) {k : Nat}
    (hk : n ≤ k) :
    (body.substitute (s.add b.id (.var ⟨k⟩))).nameless (⟨k⟩ :: Γ.ids) =
      (body.substitute (s.hide b.id)).nameless (b.id :: Γ.ids) :=
  hs.nameless_under hΓ List.mem_cons_self (fun x hx hne => by simp [Term.occurrences, hx, hne])
    (fun x hx => by simp [Term.binders, hx]) hk

/-- Opening lambdas is going under the lambdas of the nameless form. -/
theorem Peels.nameless_eq {anonymous : Name} {m k n : Nat} {s : Replacement} {t inner : Term}
    {bs : List Binder} {Γ : Context} (h : Peels anonymous k s n t bs inner) (hΓ : Γ.Apart m n)
    (hs : Opening m Γ s t) :
    inner.nameless (Γ.enter bs).ids = ((t.substitute s).nameless Γ.ids).peel k := by
  induction h generalizing Γ with
  | done => rfl
  | @lam k s n b body bs inner _ ih =>
    have hocc : ∀ x ∈ body.occurrences, x ≠ b.id → x ∈ (Term.lam b body).occurrences :=
      fun x hx hne => by simp [Term.occurrences, hx, hne]
    have hbnd : ∀ x ∈ body.binders, x ∈ (Term.lam b body).binders :=
      fun x hx => List.mem_cons_of_mem _ hx
    have hin := ih (hΓ.declare b.name none (by simp)) hs.body
    rw [Context.ids_cons, hs.nameless_under hΓ List.mem_cons_self hocc hbnd (Nat.le_refl n)] at hin
    rw [Context.enter_cons, hin, Term.substitute_lam, Term.nameless, Nameless.peel]
  | @expand k s n t bs inner hlam _ ih =>
    have hin := ih (hΓ.declare anonymous none (by simp)) (hs.expand _)
    rw [Context.ids_cons, Term.nameless_eq_read_boundReading (Term.substitute _ _),
      Term.boundReading_cons, hs.read_expand hΓ, ← Term.nameless_eq_read_boundReading] at hin
    -- Only variables are put in, so there is still no lambda at the top.
    have hzero : (t.substitute s).leading = 0 := by
      cases t with
      | var x =>
        cases hx : s x with
        | none => simp [Term.substitute, hx, Term.leading]
        | some u =>
          obtain ⟨y, -, rfl⟩ := hs.target x u hx
          simp [Term.substitute, hx, Term.leading]
      | lam b body => cases hlam
      | _ => rfl
    rw [Context.enter_cons, hin]
    cases hn : (t.substitute s).nameless Γ.ids with
    | lam body =>
      rw [← Term.leading_nameless _ Γ.ids, hn] at hzero
      cases hzero
    | _ => rfl

theorem HeadStep.nameless_eq {t u : Term} (h : HeadStep t u) (ht : t.Separated)
    (xs : List LocalId) : (t.nameless xs).headStep? = some (u.nameless xs) := by
  induction h with
  | beta b body x =>
    rw [Term.nameless_eq_read_boundReading (Term.substitute _ _), ht.read_beta,
      ← Term.boundReading_cons, ← Term.nameless_eq_read_boundReading,
      ← Term.nameless_eq_read_boundReading]
    rfl
  | @app f g x hstep ih =>
    have hzero : (f.nameless xs).leading = 0 := by cases hstep <;> simp [Term.leading]
    rw [Term.nameless, Nameless.headStep?_app _ hzero, ih ht.of_app]
    rfl

namespace Context

/-- Variables at the same position of two scopes. -/
def Pairs (Γ Δ : Context) (x y : LocalId) : Prop :=
  ∃ i, Γ.ids.idxOf? x = some i ∧ Δ.ids.idxOf? y = some i

/-- Scopes that differ in the names of variables only. -/
inductive Matches : Context → Context → Prop where
  | nil : Matches [] []
  | cons {d e Γ Δ} : Matches Γ Δ →
      d.value.map (Term.nameless Γ.ids) = e.value.map (Term.nameless Δ.ids) →
      Matches (d :: Γ) (e :: Δ)

namespace Pairs

variable {Γ Δ : Context} {d e : Entry} {x y : LocalId}

theorem cons_iff : Pairs (d :: Γ) (e :: Δ) x y ↔
    (x = d.id ∧ y = e.id) ∨ (x ≠ d.id ∧ y ≠ e.id ∧ Γ.Pairs Δ x y) := by
  constructor
  · rintro ⟨i, hx, hy⟩
    cases i with
    | zero => exact .inl ⟨Term.idxOf?_cons_eq_zero.1 hx, Term.idxOf?_cons_eq_zero.1 hy⟩
    | succ i =>
      obtain ⟨hxd, hx⟩ := Term.idxOf?_cons_eq_succ.1 hx
      obtain ⟨hye, hy⟩ := Term.idxOf?_cons_eq_succ.1 hy
      exact .inr ⟨hxd, hye, i, hx, hy⟩
  · rintro (⟨hx, hy⟩ | ⟨hxd, hye, i, hx, hy⟩)
    · exact ⟨0, Term.idxOf?_cons_eq_zero.2 hx, Term.idxOf?_cons_eq_zero.2 hy⟩
    · exact ⟨i + 1, Term.idxOf?_cons_eq_succ.2 ⟨hxd, hx⟩, Term.idxOf?_cons_eq_succ.2 ⟨hye, hy⟩⟩

theorem mem_left (h : Γ.Pairs Δ x y) : x ∈ Γ.ids := by
  obtain ⟨i, hx, -⟩ := h
  by_contra hn
  simp [List.idxOf?_eq_none_iff.2 hn] at hx

theorem symm (h : Γ.Pairs Δ x y) : Δ.Pairs Γ y x := h.imp fun _ => And.symm

theorem tail (h : Γ.Pairs Δ x y) (hd : d.id ∉ Γ.ids) (he : e.id ∉ Δ.ids) :
    Pairs (d :: Γ) (e :: Δ) x y :=
  cons_iff.2 (.inr ⟨fun hx => hd (hx ▸ h.mem_left), fun hy => he (hy ▸ h.symm.mem_left), h⟩)

theorem eq_iff {x' y' : LocalId} (h : Γ.Pairs Δ x y) (h' : Γ.Pairs Δ x' y') :
    x = x' ↔ y = y' := by
  obtain ⟨i, hx, hy⟩ := h
  obtain ⟨j, hx', hy'⟩ := h'
  constructor
  · rintro rfl
    obtain rfl := Option.some.inj (hx.symm.trans hx')
    exact Term.eq_of_idxOf? hy hy'
  · rintro rfl
    obtain rfl := Option.some.inj (hy.symm.trans hy')
    exact Term.eq_of_idxOf? hx hx'

theorem idxOf_eq (h : Γ.Pairs Δ x y) {xs ys : List LocalId}
    (hxs : List.Forall₂ (Γ.Pairs Δ) xs ys) : xs.idxOf x = ys.idxOf y := by
  induction hxs with
  | nil => rfl
  | @cons z z' _ _ hz _ ih =>
    have hb : (z == x) = (z' == y) := by rw [Bool.eq_iff_iff, beq_iff_eq, beq_iff_eq, hz.eq_iff h]
    rw [List.idxOf_cons, List.idxOf_cons, hb, ih]

theorem nameless_eq (h : Γ.Pairs Δ x y) :
    (Term.var x).nameless Γ.ids = (Term.var y).nameless Δ.ids := by
  obtain ⟨i, hx, hy⟩ := h
  rw [Term.nameless_var hx, Term.nameless_var hy]

theorem mem_occurrences_iff {t u : Term} (h : Γ.Pairs Δ x y)
    (htu : t.nameless Γ.ids = u.nameless Δ.ids) : x ∈ t.occurrences ↔ y ∈ u.occurrences := by
  obtain ⟨i, hx, hy⟩ := h
  exact Term.mem_occurrences_iff htu hx hy

end Pairs

/-- Matching terms need matching declarations. -/
theorem Matches.needed {Γ Δ : Context} {n k : Nat} (h : Γ.Matches Δ) (hΓ : Γ.Scoped n)
    (hΔ : Δ.Scoped k) {xs ys : List LocalId} (hxy : ∀ x y, Γ.Pairs Δ x y → (x ∈ xs ↔ y ∈ ys)) :
    List.Forall₂ (fun d e => Γ.Pairs Δ d.id e.id ∧ (d.value.isNone = true ↔ e.value.isNone = true))
      (Γ.needed xs) (Δ.needed ys) := by
  induction h generalizing xs ys with
  | nil => exact .nil
  | @cons d e Γ Δ _ hv ih =>
    cases hΓ with | cons hΓ hd _ _ =>
    cases hΔ with | cons hΔ he _ _ =>
    have hhead : Pairs (d :: Γ) (e :: Δ) d.id e.id := Pairs.cons_iff.2 (.inl ⟨rfl, rfl⟩)
    have tail {xs ys : List LocalId} (h : ∀ x y, Γ.Pairs Δ x y → (x ∈ xs ↔ y ∈ ys)) :=
      (ih hΓ hΔ h).imp fun _ _ hp => And.imp_left (·.tail hd he) hp
    rw [Context.needed, Context.needed]
    by_cases hx : d.id ∈ xs
    · rw [if_pos hx, if_pos ((hxy _ _ hhead).1 hx)]
      refine .cons ⟨hhead, ?_⟩ (tail fun x y hp => ?_)
      · rw [← Option.isNone_map, hv, Option.isNone_map]
      · rw [List.mem_append, List.mem_append, hxy x y (hp.tail hd he)]
        refine or_congr_right ?_
        -- The values match, so they mention the same variables.
        cases hdv : d.value with
        | none =>
          rw [hdv, Option.map_none, eq_comm, Option.map_eq_none_iff] at hv
          simp [hv]
        | some v =>
          rw [hdv, Option.map_some, eq_comm, Option.map_eq_some_iff] at hv
          obtain ⟨u, hu, huv⟩ := hv
          simpa [hu] using hp.mem_occurrences_iff huv.symm
    · rw [if_neg hx, if_neg (mt (hxy _ _ hhead).2 hx)]
      exact tail fun x y hp => hxy x y (hp.tail hd he)

/-- The reading in which local definitions read as their values and other variables as given. -/
def reading (p : LocalId → Nameless) : Context → Reading
  | [] => .plain
  | d :: Γ => (reading p Γ).assign d.id
      (match d.value with
      | none => p d.id
      | some v => v.read (reading p Γ))

@[simp]
theorem globals_reading (p : LocalId → Nameless) (Γ : Context) :
    (Γ.reading p).globals = .global := by
  induction Γ with
  | nil => rfl
  | cons d Γ ih => exact ih

theorem Scoped.respects_reading {n : Nat} {Γ : Context} (h : Γ.Scoped n) (p : LocalId → Nameless) :
    (Γ.reading p).Respects Γ := by
  induction h with
  | nil => simp [Reading.Respects]
  | cons hΓ hd _ hv ih =>
    refine ih.assign hΓ hd _ fun v e => ⟨?_, (hv v e).1⟩
    rw [e]

theorem Scoped.locals_reading {n : Nat} {Γ : Context} (h : Γ.Scoped n) (p : LocalId → Nameless)
    {d : Entry} (hd : d ∈ Γ) (hv : d.value = none) : (Γ.reading p).locals d.id = p d.id := by
  induction h with
  | nil => simp at hd
  | @cons e Γ _ he _ _ ih =>
    rcases List.mem_cons.1 hd with rfl | hd
    · rw [reading, Reading.assign_locals_self, hv]
    · have hne : d.id ≠ e.id := fun h => he (h ▸ List.mem_map_of_mem hd)
      rw [reading, Reading.assign_locals_of_ne hne, ih hd]

theorem Matches.locals_reading {Γ Δ : Context} {n k : Nat} (h : Γ.Matches Δ) (hΓ : Γ.Scoped n)
    (hΔ : Δ.Scoped k) {p q : LocalId → Nameless} (hpq : ∀ x y, Γ.Pairs Δ x y → p x = q y)
    {x y : LocalId} (hxy : Γ.Pairs Δ x y) :
    (Γ.reading p).locals x = (Δ.reading q).locals y := by
  induction h generalizing x y with
  | nil => simp [Pairs, ids] at hxy
  | @cons d e Γ Δ _ hv ih =>
    cases hΓ with | cons hΓ hd _ hocc =>
    cases hΔ with | cons hΔ he _ _ =>
    have htail {x y : LocalId} (h : Γ.Pairs Δ x y) :
        (Γ.reading p).locals x = (Δ.reading q).locals y :=
      ih hΓ hΔ (fun x y hp => hpq x y (hp.tail hd he)) h
    rcases Pairs.cons_iff.1 hxy with ⟨rfl, rfl⟩ | ⟨hxd, hye, hp⟩
    · rw [reading, reading, Reading.assign_locals_self, Reading.assign_locals_self]
      cases hdv : d.value with
      | none =>
        rw [hdv, Option.map_none, eq_comm, Option.map_eq_none_iff] at hv
        rw [hv]
        exact hpq _ _ hxy
      | some v =>
        rw [hdv, Option.map_some, eq_comm, Option.map_eq_some_iff] at hv
        obtain ⟨u, hu, huv⟩ := hv
        rw [hu]
        exact Term.read_eq_read huv.symm (hocc v hdv).1
          (fun z _ z' i hz hz' => htail ⟨i, hz, hz'⟩) (by simp)
    · rw [reading, reading, Reading.assign_locals_of_ne hxd, Reading.assign_locals_of_ne hye]
      exact htail hp

theorem ids_enter (Γ : Context) (bs : List Binder) :
    (Γ.enter bs).ids = (bs.map Binder.id).reverse ++ Γ.ids := by
  induction bs generalizing Γ with
  | nil => rfl
  | cons b bs ih => simp [ih]

end Context

namespace Term

theorem locals_boundReading {xs : List LocalId} {x : LocalId} (h : x ∈ xs) :
    (boundReading xs).locals x = .bound (xs.idxOf x) := by
  induction xs with
  | nil => simp at h
  | cons y xs ih =>
    rw [boundReading_cons, List.idxOf_cons]
    by_cases e : x = y
    · simp [e]
    · have hne : (y == x) = false := by simp [Ne.symm e]
      rw [Reading.under_locals_of_ne e, ih ((List.mem_cons.1 h).resolve_left e), hne]
      rfl

theorem map_bound_idxOf {xs : List LocalId} (h : xs.Nodup) :
    xs.map (fun x => Nameless.bound (xs.idxOf x)) = (List.range xs.length).map .bound := by
  refine List.ext_getElem (by simp) fun i hi _ => ?_
  rw [List.length_map] at hi
  simp [h.idxOf_getElem i hi]

end Term

namespace Closes

variable {Γ Δ : Context} {n k n' k' : Nat} {t u c c' : Term} {xs ys : List LocalId}

/-- A closed term is the term itself under one lambda for each variable it captures, with local
definitions written out. -/
theorem nameless_eq (h : Closes Γ n t c k xs) (hΓ : Γ.Scoped n)
    (ht : ∀ x ∈ t.occurrences, x ∈ Γ.ids) (hb : ∀ x ∈ t.binders, x.index < n) :
    c.nameless [] = (t.read (Γ.reading fun x => .bound (xs.idxOf x))).lambdas xs.length := by
  obtain ⟨hp⟩ := h
  rename_i bs s
  have hneeded := hΓ.needed t.occurrences
  have hmem {d : Entry} (hd : d ∈ (Γ.needed t.occurrences).reverse) : d ∈ Γ :=
    Context.mem_of_mem_needed (List.mem_reverse.1 hd)
  generalize hxs : ((Γ.needed t.occurrences).filter (·.value.isNone)).map Entry.id = xs
  have hnodup : xs.Nodup := hxs ▸ hneeded.nodup_ids.sublist (List.filter_sublist.map _)
  have hlength : bs.length = xs.length := by
    rw [hp.length_eq, ← hxs, List.filter_reverse, List.length_reverse, List.length_map]
  -- Parameters and the variables they stand for have the same numbers.
  have hparams : bs.map (fun b => (Term.boundReading (bs.map Binder.id).reverse).locals b.id) =
      ((Γ.needed t.occurrences).reverse.filter (·.value.isNone)).map
        fun d => (Γ.reading fun x => .bound (xs.idxOf x)).locals d.id := by
    have hleft : (bs.map Binder.id).reverse.map
        (Term.boundReading (bs.map Binder.id).reverse).locals =
          (List.range xs.length).map .bound := by
      rw [List.map_congr_left fun x => Term.locals_boundReading,
        Term.map_bound_idxOf (List.nodup_reverse.2 hp.nodup), List.length_reverse, List.length_map,
        hlength]
    have hright : ((Γ.needed t.occurrences).filter (·.value.isNone)).map
        (fun d => (Γ.reading fun x => .bound (xs.idxOf x)).locals d.id) =
          (List.range xs.length).map .bound := by
      rw [← Term.map_bound_idxOf hnodup]
      conv_rhs => rw [← hxs, List.map_map]
      refine List.map_congr_left fun d hd => ?_
      obtain ⟨hd, hv⟩ := List.mem_filter.1 hd
      rw [hΓ.locals_reading _ (Context.mem_of_mem_needed hd) (Option.isNone_iff_eq_none.1 hv),
        Function.comp_apply, hxs]
    rw [List.filter_reverse, List.map_reverse, hright, ← hleft, List.map_reverse,
      List.reverse_reverse, List.map_map]
    rfl
  have hread := hp.read_eq (q := Term.boundReading (bs.map Binder.id).reverse)
    (r := Γ.reading fun x => .bound (xs.idxOf x)) (Nat.le_refl n)
    (by simpa [Replacement.empty] using hneeded.resolvable)
    (fun d hd v hv => ⟨hΓ.respects_reading _ d (hmem hd) v hv, (hΓ.value_scoped (hmem hd) hv).2⟩)
    (by simp [Term.boundReading]) hparams (by simp [Replacement.empty])
  have hcap : t.CaptureFree s := fun x _ u hu y hy hm => by
    have h₁ := (hread x u hu).2 y hy
    have h₂ := hb y hm
    omega
  have hlam := Term.nameless_lambdas bs (t.substitute s) []
  rw [Context.ids_enter] at hlam
  rw [← hlength]
  refine hlam.trans (congrArg (Nameless.lambdas bs.length) ?_)
  rw [Term.nameless_eq_read_boundReading, Term.read_substitute _ hcap, Context.ids, List.map_nil,
    List.append_nil]
  refine Term.read_congr (fun x hx => ?_) fun c _ => by simp [Reading.through, Term.boundReading]
  have hx' := Context.mem_ids_needed hx (ht x hx)
  obtain ⟨u, hu⟩ := Option.isSome_iff_exists.1
    (hp.isSome_of_mem (x := x) (by simpa [Context.ids] using hx'))
  rw [Reading.through_locals_of_eq_some hu, (hread x u hu).1]

/-- Closing matching terms gives terms equal up to bound names, which capture matching variables. -/
theorem alphaEq_and_pairs (h : Closes Γ n t c k xs) (h' : Closes Δ n' u c' k' ys)
    (hΓ : Γ.Scoped n) (hΔ : Δ.Scoped n') (hm : Γ.Matches Δ)
    (htu : t.nameless Γ.ids = u.nameless Δ.ids) (ht : ∀ x ∈ t.occurrences, x ∈ Γ.ids)
    (hu : ∀ x ∈ u.occurrences, x ∈ Δ.ids) (hbt : ∀ x ∈ t.binders, x.index < n)
    (hbu : ∀ x ∈ u.binders, x.index < n') :
    c.AlphaEq c' ∧ List.Forall₂ (Γ.Pairs Δ) xs ys := by
  have hpairs : List.Forall₂ (Γ.Pairs Δ) xs ys := by
    cases h
    cases h'
    have hneeded := hm.needed hΓ hΔ fun x y hp => hp.mem_occurrences_iff htu
    have hfilter := List.rel_filter (p := fun d : Entry => d.value.isNone)
      (q := fun d : Entry => d.value.isNone) (fun _ _ h => h.2) hneeded
    exact List.rel_map (R := fun d e => Γ.Pairs Δ d.id e.id ∧ _) (fun _ _ h => h.1) hfilter
  have hbound : ∀ x y, Γ.Pairs Δ x y → Nameless.bound (xs.idxOf x) = .bound (ys.idxOf y) :=
    fun x y hp => congrArg _ (hp.idxOf_eq hpairs)
  refine ⟨?_, hpairs⟩
  rw [Term.AlphaEq, h.nameless_eq hΓ ht hbt, h'.nameless_eq hΔ hu hbu, hpairs.length_eq]
  congr 1
  exact Term.read_eq_read htu ht
    (fun x _ y i hx hy => hm.locals_reading hΓ hΔ hbound ⟨i, hx, hy⟩) (by simp)

end Closes

end LambdaLifting
