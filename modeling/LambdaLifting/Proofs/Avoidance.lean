import LambdaLifting.Proofs.Conversion
import LambdaLifting.Proofs.Substitution

namespace LambdaLifting

namespace Nameless

/-- Put in terms for free variables. Under a binder they are moved, so that it does not catch their
variables. -/
def replaceFree (s : LocalId → Option Nameless) : Nameless → Nameless
  | bound i => bound i
  | free x => (s x).getD (free x)
  | global c => global c
  | lit l => lit l
  | app f x => app (f.replaceFree s) (x.replaceFree s)
  | lam body => lam (body.replaceFree fun x => (s x).map shift)
  | letIn value body => letIn (value.replaceFree s) (body.replaceFree fun x => (s x).map shift)

theorem replaceFree_rename (t : Nameless) (s : LocalId → Option Nameless) (r : Nat → Nat) :
    (t.rename r).replaceFree (fun x => (s x).map (rename r)) = (t.replaceFree s).rename r := by
  have under (s : LocalId → Option Nameless) (r : Nat → Nat) :
      (fun x => ((s x).map (rename r)).map shift) =
        fun x => ((s x).map shift).map (rename (liftRenaming r)) := by
    funext x
    simp only [Option.map_map]
    exact congrFun (congrArg Option.map (funext fun t => (rename_shift t r).symm)) (s x)
  induction t generalizing s r with
  | bound i => rfl
  | free x => cases h : s x <;> simp [rename, replaceFree, h]
  | global c => rfl
  | lit l => rfl
  | app f x ihf ihx => simp only [rename, replaceFree, ihf, ihx]
  | lam body ih => simp only [rename, replaceFree, under, ih]
  | letIn value body ihv ih => simp only [rename, replaceFree, under, ihv, ih]

theorem replaceFree_shift (t : Nameless) (s : LocalId → Option Nameless) :
    t.shift.replaceFree (fun x => (s x).map shift) = (t.replaceFree s).shift :=
  replaceFree_rename t s Nat.succ

end Nameless

namespace Term

theorem replaceFree_read (t : Term) (r : Reading) (s : LocalId → Option Nameless) :
    (t.read r).replaceFree s = t.read (r.map (Nameless.replaceFree s)) := by
  have under (r : Reading) (s : LocalId → Option Nameless) (x : LocalId) :
      (r.under x).map (Nameless.replaceFree fun x => (s x).map Nameless.shift) =
        (r.map (Nameless.replaceFree s)).under x := by
    simp only [Reading.map, Reading.under, Reading.mk.injEq]
    constructor
    · funext c
      exact Nameless.replaceFree_shift _ s
    · funext y
      by_cases h : y = x
      · simp [h, Nameless.replaceFree]
      · simp [h, Nameless.replaceFree_shift]
  induction t generalizing r s with
  | var x => rfl
  | global c => rfl
  | lit l => rfl
  | app f x ihf ihx => simp only [read, Nameless.replaceFree, ihf, ihx]
  | lam b body ih => simp only [read, Nameless.replaceFree, ih, under]
  | letIn b value body ihv ih => simp only [read, Nameless.replaceFree, ihv, ih, under]

/-- Where no binder catches a variable, putting in terms is substitution for free variables. -/
theorem nameless_substitute {t : Term} {s : Replacement} (h : t.CaptureFree s) :
    (t.substitute s).nameless [] =
      (t.nameless []).replaceFree fun x => (s x).map (nameless []) := by
  rw [nameless_eq_read, nameless_eq_read, read_substitute _ h, replaceFree_read]
  refine read_congr (fun x _ => ?_) fun c _ => rfl
  have hread : nameless [] = read Reading.plain := funext nameless_eq_read
  simp only [Reading.through, Reading.map, hread, Function.comp_apply]
  rfl

end Term

namespace ArenaM

variable {a : Arena} {S : Substitution} {e : ExprId} {t : Term}

/-- Substitution on shared terms always ends. Its result stands for the tree with terms put in for
free variables, whatever nodes are shared; applications are flat again, as the arena stays well
formed. If no binder of the term is free in what is put in, no variable is captured. -/
theorem substitute_eq_ok (ha : a.WellFormed)
    (hS : ∀ (x : LocalId) (v : ExprId), S[x]? = some v → v.index < a.size)
    (he : a.term? e = some t) :
    ∃ r b, substitute S e a = .ok (r, b) ∧ a.Grows b ∧
      b.term? r = some (t.substitute (S.replacement a)) ∧
      ((∀ x u, S.replacement a x = some u → ∀ y ∈ t.binders, y ∉ u.occurrences) →
        (t.substitute (S.replacement a)).nameless [] =
          (t.nameless []).replaceFree fun x => (S.replacement a x).map (Term.nameless [])) := by
  have hmeans : S.Means a (S.replacement a) :=
    Substitution.means_replacement fun x v hv => ha.exists_term (hS x v hv)
  obtain ⟨r, b, hrun, hab, hr⟩ := builds_substitute ha hmeans he
  refine ⟨r, b, hrun, hab, hr, fun h => Term.nameless_substitute fun x _ u hu y hy hb => ?_⟩
  exact h x u hu y hb hy

/-- The term `x y (λ x, x)`, with one node for both occurrences of `x`, and the term `g w`. -/
def sharingArena : Arena :=
  .ofNodes [.var ⟨0⟩, .var ⟨1⟩, .lam ⟨⟨0⟩, ⟨2⟩⟩ ⟨0⟩, .app ⟨0⟩ [⟨1⟩, ⟨2⟩], .global ⟨1⟩, .var ⟨2⟩,
    .app ⟨4⟩ [⟨5⟩]] 3

def sharingSubstitution : Substitution := (∅ : Substitution).insert ⟨0⟩ ⟨6⟩

/-- Putting in `g w` for `x` gives the flat application `g w y (λ x, x)`. -/
theorem substitute_sharingArena : sharingArena.WellFormed ∧
    (∀ (x : LocalId) (v : ExprId), sharingSubstitution[x]? = some v →
      v.index < sharingArena.size) ∧
    ∃ r b, substitute sharingSubstitution ⟨3⟩ sharingArena = .ok (r, b) ∧ sharingArena.Grows b ∧
      b.node? r = some (.app ⟨4⟩ [⟨5⟩, ⟨1⟩, ⟨2⟩]) ∧
      ∃ u, b.term? r = some u ∧
        u.nameless [] = .app (.app (.app (.global ⟨1⟩) (.free ⟨2⟩)) (.free ⟨1⟩))
          (.lam (.bound 0)) := by
  have hwf : sharingArena.WellFormed := by decide +kernel
  have hterm : sharingArena.term? ⟨3⟩ = some
      (.app (.app (.var ⟨0⟩) (.var ⟨1⟩)) (.lam ⟨⟨0⟩, ⟨2⟩⟩ (.var ⟨0⟩))) := by decide +kernel
  have hvalue (x : LocalId) (v : ExprId) (hv : sharingSubstitution[x]? = some v) : v = ⟨6⟩ := by
    rw [sharingSubstitution, Std.TreeMap.getElem?_insert] at hv
    split at hv
    · exact (Option.some.inj hv).symm
    · simp at hv
  have hS (x : LocalId) (v : ExprId) (hv : sharingSubstitution[x]? = some v) :
      v.index < sharingArena.size := by
    rw [hvalue x v hv]
    decide
  have hfree (x : LocalId) (u : Term)
      (hu : sharingSubstitution.replacement sharingArena x = some u) : u.occurrences = [⟨2⟩] := by
    obtain ⟨v, hv, hu⟩ := Option.bind_eq_some_iff.1 hu
    obtain rfl := hvalue x v hv
    have hgw : sharingArena.term? ⟨6⟩ = some (.app (.global ⟨1⟩) (.var ⟨2⟩)) := by decide +kernel
    obtain rfl := Option.some.inj (hgw.symm.trans hu)
    rfl
  obtain ⟨r, b, hrun, hab, hr, hcapture⟩ := substitute_eq_ok hwf hS hterm
  have hnode : ((substitute sharingSubstitution ⟨3⟩ sharingArena).toOption.bind
      fun p => p.2.node? p.1) = some (.app ⟨4⟩ [⟨5⟩, ⟨1⟩, ⟨2⟩]) := by decide +kernel
  rw [hrun] at hnode
  refine ⟨hwf, hS, r, b, hrun, hab, hnode, _, hr, (hcapture fun x u hu y hy => ?_).trans ?_⟩
  · rw [hfree x u hu]
    obtain rfl : y = ⟨0⟩ := by simpa [Term.binders] using hy
    decide
  · decide +kernel

end ArenaM

end LambdaLifting
