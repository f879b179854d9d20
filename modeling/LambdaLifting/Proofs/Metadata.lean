import LambdaLifting.Proofs.Effects
import LambdaLifting.Proofs.Shape

namespace LambdaLifting

inductive Declaration where
  | function (n : Name)
  | builtin (n : Name)
  | projection (n : Name)
  | inductiveType (n : Name) (params : Nat) (dispatcher : Name) (constructors : List (Name × Nat))

/-- The type of every dispatcher is known, and the arity of every constructor of a known type. They
may have been declared for other types since. -/
structure Environment.Described (env : Environment) : Prop where
  exists_type : ∀ {c type}, env.kind? c = some (.dispatcher type) → ∃ T, env.type? type = some T
  exists_arity : ∀ {type T}, env.type? type = some T →
    ∀ k ∈ T.constructors, ∃ arity, env.arity? k = some arity

/-- A run that ends with an error in a described environment misses no type and no constructor. -/
theorem LiftError.Arises.ne_unknown {ctx : LiftContext} {err : LiftError} (h : err.Arises ctx)
    (henv : ctx.env.Described) (c : Name) : err ≠ .unknownType c ∧ err ≠ .unknownConstructor c := by
  cases h with
  | unknownType hk hnone =>
    obtain ⟨T, hT⟩ := henv.exists_type hk
    cases hnone.symm.trans hT
  | unknownConstructor hT hd hnone =>
    obtain ⟨type, -, htype⟩ := hT
    obtain ⟨arity, harity⟩ := henv.exists_arity htype _ hd
    cases hnone.symm.trans harity
  | _ => exact ⟨nofun, nofun⟩

namespace Declarations

variable {d : Declarations}

def declare (d : Declarations) : Declaration → Declarations
  | .function n => d.addGlobal n .function
  | .builtin n => d.addGlobal n .builtin
  | .projection n => d.addGlobal n .projection
  | .inductiveType n params dispatcher constructors =>
    d.addInductive n params dispatcher constructors

def ofList (ds : List Declaration) : Declarations := ds.foldl declare {}

theorem arity?_addConstructor (d : Declarations) (m n : Name) (arity : Nat) :
    (d.addConstructor m arity).environment.arity? n =
      if m = n then some arity else d.environment.arity? n := by
  simp [addConstructor, addGlobal, environment, Std.TreeMap.getElem?_insert]

theorem type?_insert (d : Declarations) (m n : Name) (T : InductiveType) :
    ({ d with types := d.types.insert m T } : Declarations).environment.type? n =
      if m = n then some T else d.environment.type? n := by
  simp [environment, Std.TreeMap.getElem?_insert]

/-- What is no dispatcher needs no type. -/
theorem described_addGlobal (h : d.environment.Described) (n : Name) {k : GlobalKind}
    (hk : ∀ type, k ≠ .dispatcher type) : (d.addGlobal n k).environment.Described where
  exists_type := by
    intro c type hc
    rw [kind?_addGlobal] at hc
    split at hc
    · exact absurd (Option.some.inj hc) (hk type)
    · exact h.exists_type hc
  exists_arity := h.exists_arity

theorem described_addConstructor (h : d.environment.Described) (n : Name) (arity : Nat) :
    (d.addConstructor n arity).environment.Described where
  exists_type := (described_addGlobal h n (k := .constructor) (by simp)).exists_type
  exists_arity := by
    intro type T hT k hk
    rw [arity?_addConstructor]
    split
    · exact ⟨arity, rfl⟩
    · exact h.exists_arity hT k hk

/-- Constructors get arities, and none is forgotten. -/
theorem described_foldl_addConstructor (h : d.environment.Described) (cs : List (Name × Nat)) :
    (cs.foldl (fun d c => d.addConstructor c.1 c.2) d).environment.Described ∧
      ∀ k, (k ∈ cs.map Prod.fst ∨ ∃ arity, d.environment.arity? k = some arity) →
        ∃ arity, (cs.foldl (fun d c => d.addConstructor c.1 c.2) d).environment.arity? k =
          some arity := by
  induction cs generalizing d with
  | nil => exact ⟨h, by simp⟩
  | cons c cs ih =>
    obtain ⟨hrest, hknown⟩ := ih (described_addConstructor h c.1 c.2)
    refine ⟨hrest, fun k hk => hknown k ?_⟩
    rw [List.map_cons, List.mem_cons, or_assoc] at hk
    rw [arity?_addConstructor]
    by_cases hc : c.1 = k
    · exact .inr ⟨c.2, if_pos hc⟩
    · rw [if_neg hc]
      exact hk.resolve_left (Ne.symm hc)

/-- The constructors come first, then the dispatcher, and the type after it. -/
theorem described_addInductive (h : d.environment.Described) (n : Name) (params : Nat)
    (dispatcher : Name) (constructors : List (Name × Nat)) :
    (d.addInductive n params dispatcher constructors).environment.Described := by
  obtain ⟨hd, harity⟩ := described_foldl_addConstructor h constructors
  rw [addInductive]
  generalize constructors.foldl (fun d c => d.addConstructor c.1 c.2) d = d' at hd harity
  constructor
  · intro c type hc
    change (d'.addGlobal dispatcher (.dispatcher n)).environment.kind? c = _ at hc
    rw [kind?_addGlobal] at hc
    rw [type?_insert]
    by_cases e : n = type
    · exact ⟨_, if_pos e⟩
    · rw [if_neg e]
      split at hc
      · cases hc
        exact absurd rfl e
      · exact hd.exists_type hc
  · intro type T hT k hk
    rw [type?_insert] at hT
    split at hT
    · cases hT
      exact harity k (.inl hk)
    · exact hd.exists_arity hT k hk

theorem described_declare (h : d.environment.Described) (x : Declaration) :
    (d.declare x).environment.Described := by
  cases x with
  | function n => exact described_addGlobal h n (by simp)
  | builtin n => exact described_addGlobal h n (by simp)
  | projection n => exact described_addGlobal h n (by simp)
  | inductiveType n params dispatcher constructors =>
    exact described_addInductive h n params dispatcher constructors

theorem described_ofList (ds : List Declaration) : (ofList ds).environment.Described := by
  have hempty : (environment {}).Described := ⟨by simp [environment], by simp [environment]⟩
  exact List.foldlRecOn (motive := fun d => d.environment.Described) ds declare hempty
    fun d hd x _ => described_declare hd x

end Declarations

namespace Program

variable {fuel : Nat} {p : Program} {names names' : NameSource} {report : Report}

/-- However things are declared, with names used again and shared in any order, no lifting run ends
with an error because a type or a constructor is unknown. -/
theorem error?_of_declarations (ds : List Declaration)
    (hrun : p.lift fuel (Declarations.ofList ds).environment names = .ok (report, names'))
    (c : Name) :
    report.error? ≠ some (.unknownType c) ∧ report.error? ≠ some (.unknownConstructor c) := by
  obtain ⟨base, outcome, s, -, hlift, hreport, -⟩ := exists_of_lift hrun
  cases hreport with
  | ok output => exact ⟨nofun, nofun⟩
  | error err =>
    obtain ⟨htype, hconstructor⟩ :=
      (arises_of_liftProcedures hlift).ne_unknown (Declarations.described_ofList ds) c
    exact ⟨fun h => htype (Option.some.inj h), fun h => hconstructor (Option.some.inj h)⟩

/-- A type that is declared again, as a type of lists. Then its second constructor becomes a
builtin, and its first one a constructor of another type. -/
def replacingDeclarations : List Declaration :=
  [.inductiveType ⟨5⟩ 0 ⟨1⟩ [(⟨3⟩, 0)], .inductiveType ⟨5⟩ 1 ⟨1⟩ [(⟨3⟩, 1), (⟨4⟩, 3)],
    .function ⟨2⟩, .builtin ⟨4⟩, .inductiveType ⟨7⟩ 0 ⟨8⟩ [(⟨3⟩, 0)]]

/-- The run finds the constructor that is shared, with the arity that was declared last. -/
theorem error?_of_declarations_replacing :
    ∃ report names', dispatchProgram.lift 40
        (Declarations.ofList replacingDeclarations).environment dispatchNames =
          .ok (report, names') ∧
      report.error? = some (.arityBelowParams ⟨3⟩ 0 1) ∧
      ∀ c, report.error? ≠ some (.unknownType c) ∧
        report.error? ≠ some (.unknownConstructor c) := by
  have herror : ((dispatchProgram.lift 40 (Declarations.ofList replacingDeclarations).environment
      dispatchNames).toOption.bind fun r => r.1.error?) = some (.arityBelowParams ⟨3⟩ 0 1) := by
    decide +kernel
  cases hrun : dispatchProgram.lift 40
      (Declarations.ofList replacingDeclarations).environment dispatchNames with
  | error f =>
    rw [hrun] at herror
    cases herror
  | ok r =>
    rw [hrun] at herror
    exact ⟨r.1, r.2, rfl, herror, error?_of_declarations replacingDeclarations hrun⟩

end Program

end LambdaLifting
