import LambdaLifting.Arena.AlphaEquiv
import LambdaLifting.Proofs.Alpha
import LambdaLifting.Proofs.FreeVariables

namespace LambdaLifting

def Nameless.frees : Nameless → List LocalId
  | free x => [x]
  | bound _ | global _ | lit _ => []
  | app f x => f.frees ++ x.frees
  | lam body => body.frees
  | letIn value body => value.frees ++ body.frees

namespace Term

theorem frees_nameless (t : Term) (xs : List LocalId) :
    (t.nameless xs).frees = t.occurrences.filter (· ∉ xs) := by
  have under (b : Binder) (xs ys : List LocalId) :
      ys.filter (· ∉ b.id :: xs) = (ys.filter (· ≠ b.id)).filter (· ∉ xs) := by
    rw [List.filter_filter]
    refine List.filter_congr fun y _ => ?_
    by_cases h : y = b.id <;> simp [h]
  induction t generalizing xs with
  | var x =>
    by_cases hx : x ∈ xs
    · obtain ⟨i, hi⟩ := exists_idxOf? hx
      simp [nameless_var hi, Nameless.frees, occurrences, hx]
    · simp [nameless, List.idxOf?_eq_none_iff.2 hx, Nameless.frees, occurrences, hx]
  | global c => rfl
  | lit l => rfl
  | app f x ihf ihx => rw [nameless, Nameless.frees, occurrences, List.filter_append, ihf, ihx]
  | lam b body ih => rw [nameless, Nameless.frees, occurrences, ih, under]
  | letIn b value body ihv ih =>
    rw [nameless, Nameless.frees, occurrences, List.filter_append, ihv, ih, under]

theorem AlphaEq.occurrences_eq {t u : Term} (h : t.AlphaEq u) : t.occurrences = u.occurrences := by
  have hfrees := congrArg Nameless.frees h
  simpa [frees_nameless] using hfrees

/-- No binder binds a variable once more that is bound around it. -/
def unshadowed (xs : List LocalId) : Term → Bool
  | var _ | global _ | lit _ => true
  | app f x => f.unshadowed xs && x.unshadowed xs
  | lam b body => decide (b.id ∉ xs) && body.unshadowed (b.id :: xs)
  | letIn b value body =>
    value.unshadowed xs && (decide (b.id ∉ xs) && body.unshadowed (b.id :: xs))

theorem nameless_var_cons_iff {x y b c : LocalId} {xs ys : List LocalId} :
    (var x).nameless (b :: xs) = (var y).nameless (c :: ys) ↔
      x = b ∧ y = c ∨ x ≠ b ∧ y ≠ c ∧ (var x).nameless xs = (var y).nameless ys := by
  have zero {x b : LocalId} {xs : List LocalId} (h : x = b) :
      (var x).nameless (b :: xs) = .bound 0 :=
    nameless_var (idxOf?_cons_eq_zero.2 h)
  have succ {x b : LocalId} {xs : List LocalId} (h : x ≠ b) :
      (var x).nameless (b :: xs) = ((var x).nameless xs).shift :=
    nameless_of_not_mem (by simpa [occurrences] using h.symm) xs
  -- A variable that was moved under a binder is not the variable of that binder.
  have apart (x : LocalId) (xs : List LocalId) : ((var x).nameless xs).shift ≠ .bound 0 := by
    rw [nameless]
    split <;> simp [Nameless.shift, Nameless.rename]
  by_cases hx : x = b <;> by_cases hy : y = c
  · simp [hx, hy, zero]
  · simp [hx, hy, zero, succ, (apart y ys).symm]
  · simp [hx, hy, zero, succ, apart]
  · rw [succ hx, succ hy]
    have inj := Function.LeftInverse.injective Nameless.rename_pred_shift
    simp [hx, hy, inj.eq_iff]

end Term

namespace Renaming

variable {r q : Renaming} {ps : List (LocalId × LocalId)} {x y : LocalId}

/-- A renaming knows the partners of the variables on the left. The pairs of binders are listed from
the innermost on. -/
def Tracks (r : Renaming) (ps : List (LocalId × LocalId)) : Prop := ∀ x, r[x]? = ps.lookup x

theorem tracks_nil_of_isEmpty (h : r.isEmpty) : r.Tracks [] := fun x =>
  Std.TreeMap.getElem?_eq_none (Std.TreeMap.isEmpty_iff_forall_not_mem.1 h x)

theorem lookup_cons_eq_ite (b c : LocalId) (ps : List (LocalId × LocalId)) (x : LocalId) :
    ((b, c) :: ps).lookup x = if x = b then some c else ps.lookup x := by
  by_cases h : x = b
  · rw [if_pos h, h, List.lookup_cons_self]
  · have hb : (x == b) = false := by simp [h]
    rw [if_neg h, List.lookup_cons, hb]

theorem Tracks.bind (h : r.Tracks ps) (x y : LocalId) : (r.bind x y).Tracks ((x, y) :: ps) := by
  intro z
  rw [Renaming.bind, Std.TreeMap.getElem?_insert, lookup_cons_eq_ite, h z]
  by_cases hz : z = x
  · simp [hz]
  · simp [hz, Ne.symm hz]

/-- Variables correspond if they are partners, or if the left one is free and equal to the right
one, which must not be the partner of another. -/
def Partners (ps : List (LocalId × LocalId)) (x y : LocalId) : Prop :=
  ps.lookup x = some y ∨ ps.lookup x = none ∧ x = y ∧ ∀ z, ps.lookup z ≠ some y

theorem Tracks.relates_iff (h : r.Tracks ps) : r.relates x y = true ↔ Partners ps x y := by
  have hall : (r.toList.all (·.2 ≠ y)) = true ↔ ∀ z, ps.lookup z ≠ some y := by
    simp only [List.all_eq_true, decide_eq_true_eq, Prod.forall,
      Std.TreeMap.mem_toList_iff_getElem?_eq_some, h _]
    exact ⟨fun hy z hz => hy z y hz rfl, fun hy z w hw e => hy z (e ▸ hw)⟩
  rw [relates, Partners, h x]
  cases ps.lookup x with
  | some z => simp
  | none => simp only [Bool.and_eq_true, beq_iff_eq, hall]; simp

/-- Variables with the same nameless form correspond. -/
theorem partners_of_nameless_eq
    (h : (Term.var x).nameless (ps.map Prod.fst) = (Term.var y).nameless (ps.map Prod.snd)) :
    Partners ps x y := by
  induction ps with
  | nil => exact .inr ⟨rfl, by simpa [Term.nameless] using h, by simp⟩
  | cons p ps ih =>
    obtain ⟨b, c⟩ := p
    rcases Term.nameless_var_cons_iff.1 h with ⟨rfl, rfl⟩ | ⟨hx, hy, h⟩
    · exact .inl (by simp)
    · rcases ih h with hl | ⟨hl, rfl, hz⟩
      · exact .inl (by simpa [lookup_cons_eq_ite, hx] using hl)
      · refine .inr ⟨by simpa [lookup_cons_eq_ite, hx] using hl, rfl, fun z => ?_⟩
        rw [lookup_cons_eq_ite]
        split
        · simpa using Ne.symm hy
        · exact hz z

/-- Variables that correspond from both sides have the same nameless form. -/
theorem nameless_eq_of_partners (h : Partners ps x y) (h' : Partners (ps.map Prod.swap) y x) :
    (Term.var x).nameless (ps.map Prod.fst) = (Term.var y).nameless (ps.map Prod.snd) := by
  -- Whether a right variable is hidden from the renaming is not asked here.
  replace h : ps.lookup x = some y ∨ ps.lookup x = none ∧ x = y := h.imp_right fun h => ⟨h.1, h.2.1⟩
  replace h' : (ps.map Prod.swap).lookup y = some x ∨ (ps.map Prod.swap).lookup y = none ∧ y = x :=
    h'.imp_right fun h => ⟨h.1, h.2.1⟩
  induction ps with
  | nil =>
    obtain ⟨-, rfl⟩ := h.resolve_left (by simp)
    rfl
  | cons p ps ih =>
    obtain ⟨b, c⟩ := p
    simp only [List.map_cons, Prod.swap_prod_mk, lookup_cons_eq_ite] at h h'
    refine Term.nameless_var_cons_iff.2 ?_
    by_cases hx : x = b
    · simp only [hx, if_true, Option.some.injEq, reduceCtorEq, false_and, or_false] at h
      exact .inl ⟨hx, h.symm⟩
    · by_cases hy : y = c
      · simp only [hy, if_true, Option.some.injEq, reduceCtorEq, false_and, or_false] at h'
        exact absurd h'.symm hx
      · rw [if_neg hx] at h
        rw [if_neg hy] at h'
        exact .inr ⟨hx, hy, ih h h'⟩

/-- If no variable is bound twice on either side, it is enough that variables correspond from the
left. -/
theorem nameless_eq_of_nodup (hl : (ps.map Prod.fst).Nodup) (hr : (ps.map Prod.snd).Nodup)
    (h : Partners ps x y) :
    (Term.var x).nameless (ps.map Prod.fst) = (Term.var y).nameless (ps.map Prod.snd) := by
  have mem_sides {ps : List (LocalId × LocalId)} {x y : LocalId} (h : ps.lookup x = some y) :
      x ∈ ps.map Prod.fst ∧ y ∈ ps.map Prod.snd := by
    obtain ⟨_, _, rfl, -⟩ := List.lookup_eq_some_iff.1 h
    simp
  induction ps with
  | nil =>
    obtain ⟨-, rfl, -⟩ := h.resolve_left (by simp)
    rfl
  | cons p ps ih =>
    obtain ⟨b, c⟩ := p
    obtain ⟨hb, hl⟩ := List.nodup_cons.1 hl
    obtain ⟨hc, hr⟩ := List.nodup_cons.1 hr
    simp only [Partners, lookup_cons_eq_ite] at h
    refine Term.nameless_var_cons_iff.2 ?_
    by_cases hx : x = b
    · simp only [hx, if_true, Option.some.injEq, reduceCtorEq, false_and, or_false] at h
      exact .inl ⟨hx, h.symm⟩
    · rw [if_neg hx] at h
      have hy : y ≠ c := by
        rintro rfl
        rcases h with h | ⟨-, -, h⟩
        · exact hc (mem_sides h).2
        · exact h b (by simp)
      refine .inr ⟨hx, hy, ih hl hr (h.imp_right fun h => ⟨h.1, h.2.1, fun z hz => ?_⟩)⟩
      have hzb : z ≠ b := fun e => hb (e ▸ (mem_sides hz).1)
      exact h.2.2 z (by rwa [if_neg hzb])

end Renaming

namespace Term

variable {t u : Term} {r q : Renaming} {ps : List (LocalId × LocalId)}

def resembles (r : Renaming) : Term → Term → Bool
  | var x, var y => r.relates x y
  | global c, global c' => c == c'
  | lit l, lit l' => l == l'
  | app f x, app g y => f.resembles r g && x.resembles r y
  | lam b body, lam b' body' => body.resembles (r.bind b.id b'.id) body'
  | letIn b value body, letIn b' value' body' =>
    value.resembles r value' && body.resembles (r.bind b.id b'.id) body'
  | _, _ => false

theorem exists_var_of_nameless_var {x : LocalId} {xs ys : List LocalId}
    (h : (var x).nameless xs = u.nameless ys) : ∃ y, u = var y := by
  cases u with
  | var y => exact ⟨y, rfl⟩
  | _ =>
    rw [nameless] at h
    split at h <;> cases h

/-- Terms with the same nameless form resemble each other. -/
theorem resembles_of_nameless_eq (hr : r.Tracks ps)
    (h : t.nameless (ps.map Prod.fst) = u.nameless (ps.map Prod.snd)) : t.resembles r u = true := by
  induction t generalizing u r ps with
  | var x =>
    obtain ⟨y, rfl⟩ := exists_var_of_nameless_var h
    exact hr.relates_iff.2 (Renaming.partners_of_nameless_eq h)
  | global c =>
    obtain rfl := exists_global_of_nameless h.symm
    simp [resembles]
  | lit l =>
    obtain rfl := exists_lit_of_nameless h.symm
    simp [resembles]
  | app f x ihf ihx =>
    obtain ⟨g, y, rfl, hf, hx⟩ := exists_app_of_nameless h.symm
    rw [resembles, ihf hr hf.symm, ihx hr hx.symm, Bool.and_self]
  | lam b body ih =>
    obtain ⟨c, body', rfl, hbody⟩ := exists_lam_of_nameless h.symm
    exact ih (hr.bind b.id c.id) hbody.symm
  | letIn b value body ihv ih =>
    obtain ⟨c, value', body', rfl, hv, hbody⟩ := exists_letIn_of_nameless h.symm
    rw [resembles, ihv hr hv.symm, ih (hr.bind b.id c.id) hbody.symm, Bool.and_self]

/-- Terms that resemble each other both ways have the same nameless form. -/
theorem nameless_eq_of_resembles (hr : r.Tracks ps) (hq : q.Tracks (ps.map Prod.swap))
    (h : t.resembles r u = true) (h' : u.resembles q t = true) :
    t.nameless (ps.map Prod.fst) = u.nameless (ps.map Prod.snd) := by
  fun_induction t.resembles r u generalizing q ps with
  | case1 r x y =>
    exact Renaming.nameless_eq_of_partners (hr.relates_iff.1 h) (hq.relates_iff.1 h')
  | case2 r c c' => rw [beq_iff_eq.1 h]; rfl
  | case3 r l l' => rw [beq_iff_eq.1 h]; rfl
  | case4 r f x g y ihf ihx =>
    rw [resembles, Bool.and_eq_true] at h'
    rw [Bool.and_eq_true] at h
    rw [nameless, nameless, ihf hr hq h.1 h'.1, ihx hr hq h.2 h'.2]
  | case5 r b body b' body' ih =>
    exact congrArg Nameless.lam (ih (hr.bind _ _) (hq.bind b'.id b.id) h h')
  | case6 r b value body b' value' body' ihv ih =>
    rw [resembles, Bool.and_eq_true] at h'
    rw [Bool.and_eq_true] at h
    have hbody := ih (hr.bind _ _) (hq.bind b'.id b.id) h.2 h'.2
    rw [nameless, nameless, ihv hr hq h.1 h'.1]
    exact congrArg _ hbody
  | case7 => cases h

/-- Without shadowing on either side, one way is enough. -/
theorem nameless_eq_of_unshadowed (hr : r.Tracks ps) (hl : (ps.map Prod.fst).Nodup)
    (hn : (ps.map Prod.snd).Nodup) (ht : t.unshadowed (ps.map Prod.fst) = true)
    (hu : u.unshadowed (ps.map Prod.snd) = true) (h : t.resembles r u = true) :
    t.nameless (ps.map Prod.fst) = u.nameless (ps.map Prod.snd) := by
  fun_induction t.resembles r u generalizing ps with
  | case1 r x y => exact Renaming.nameless_eq_of_nodup hl hn (hr.relates_iff.1 h)
  | case2 r c c' => rw [beq_iff_eq.1 h]; rfl
  | case3 r l l' => rw [beq_iff_eq.1 h]; rfl
  | case4 r f x g y ihf ihx =>
    rw [unshadowed, Bool.and_eq_true] at ht hu
    rw [Bool.and_eq_true] at h
    rw [nameless, nameless, ihf hr hl hn ht.1 hu.1 h.1, ihx hr hl hn ht.2 hu.2 h.2]
  | case5 r b body b' body' ih =>
    rw [unshadowed, Bool.and_eq_true, decide_eq_true_eq] at ht hu
    exact congrArg Nameless.lam (ih (hr.bind _ _) (List.nodup_cons.2 ⟨ht.1, hl⟩)
      (List.nodup_cons.2 ⟨hu.1, hn⟩) ht.2 hu.2 h)
  | case6 r b value body b' value' body' ihv ih =>
    rw [unshadowed, Bool.and_eq_true, Bool.and_eq_true, decide_eq_true_eq] at ht hu
    rw [Bool.and_eq_true] at h
    have hbody := ih (hr.bind _ _) (List.nodup_cons.2 ⟨ht.2.1, hl⟩)
      (List.nodup_cons.2 ⟨hu.2.1, hn⟩) ht.2.2 hu.2.2 h.2
    rw [nameless, nameless, ihv hr hl hn ht.1 hu.1 h.1]
    exact congrArg _ hbody
  | case7 => cases h

/-- Terms are equal up to bound names exactly if they resemble each other both ways. -/
theorem alphaEq_iff_resembles :
    t.AlphaEq u ↔ t.resembles ∅ u = true ∧ u.resembles ∅ t = true := by
  have hempty : Renaming.Tracks ∅ [] := Renaming.tracks_nil_of_isEmpty rfl
  constructor
  · intro h
    exact ⟨resembles_of_nameless_eq hempty h, resembles_of_nameless_eq hempty h.symm⟩
  · rintro ⟨h, h'⟩
    exact nameless_eq_of_resembles hempty hempty h h'

theorem resembles_apply {f g : Term} (hf : f.isApp = false) (hg : g.isApp = false)
    (xs ys : List Term) : (f.apply xs).resembles r (g.apply ys) =
      (decide (xs.length = ys.length) &&
        ((f, g) :: xs.zip ys).all fun p => p.1.resembles r p.2) := by
  induction xs using List.reverseRecOn generalizing ys with
  | nil =>
    induction ys using List.reverseRecOn with
    | nil => simp
    | append_singleton ys y _ =>
      rw [apply_concat]
      cases f with
      | app f x => cases hf
      | _ => simp [resembles]
  | append_singleton xs x ih =>
    induction ys using List.reverseRecOn with
    | nil =>
      rw [apply_concat]
      cases g with
      | app g y => cases hg
      | _ => simp [resembles]
    | append_singleton ys y _ =>
      rw [apply_concat, apply_concat, resembles, ih ys]
      by_cases hlen : xs.length = ys.length
      · simp [hlen, List.zip_append hlen, Bool.and_assoc]
      · simp [hlen]

end Term

namespace Arena

variable {a : Arena} {d e : ExprId} {t u : Term}

/-- A walk that compares nodes pair by pair compares their trees. -/
theorem allM_zip_eq_ok {walk : ExprId → ExprId → Except Fault Bool} {r : Renaming}
    {ds es : List ExprId} {ts us : List Term} (hds : a.Denote ds ts) (hes : a.Denote es us)
    (hwalk : ∀ d ∈ ds, ∀ e t u, a.term? d = some t → a.term? e = some u →
      walk d e = .ok (t.resembles r u)) :
    (ds.zip es).allM (fun p => walk p.1 p.2) =
      .ok ((ts.zip us).all fun p => p.1.resembles r p.2) := by
  induction hds generalizing es us with
  | nil => rfl
  | @cons d t ds ts hd _ ih =>
    cases hes with
    | nil => rfl
    | @cons e u es us he hes =>
      obtain ⟨hhead, htail⟩ := List.forall_mem_cons.1 hwalk
      rw [List.zip_cons_cons, List.zip_cons_cons, List.allM, hhead e t u hd he, List.all_cons]
      cases t.resembles r u with
      | true => exact ih hes htail
      | false => rfl

/-- Applications are compared by the number of their arguments, and then pair by pair. -/
theorem allM_spines_eq_ok {walk : ExprId → ExprId → Except Fault Bool} {r : Renaming}
    {head head' : ExprId} {args args' : List ExprId} {f g : Term} {xs ys : List Term}
    (hf : f.isApp = false) (hg : g.isApp = false) (hds : a.Denote (head :: args) (f :: xs))
    (hes : a.Denote (head' :: args') (g :: ys))
    (hwalk : ∀ d ∈ head :: args, ∀ e t u, a.term? d = some t → a.term? e = some u →
      walk d e = .ok (t.resembles r u)) :
    (if args.length ≠ args'.length then .ok false
      else ((head, head') :: args.zip args').allM fun p => walk p.1 p.2) =
      Except.ok ((f.apply xs).resembles r (g.apply ys)) := by
  have hxs := Nat.succ.inj hds.length_eq
  have hys := Nat.succ.inj hes.length_eq
  rw [Term.resembles_apply hf hg, ← hxs, ← hys]
  by_cases hlen : args.length = args'.length
  · rw [if_neg (not_not.2 hlen), decide_eq_true hlen, Bool.true_and]
    exact allM_zip_eq_ok hds hes hwalk
  · rw [if_pos hlen, decide_eq_false hlen, Bool.false_and]

/-- The comparison of shared terms is the comparison of their trees. -/
theorem alphaEquivFrom_eq_ok (ha : a.WellFormed) (ht : a.term? d = some t)
    (hu : a.term? e = some u) {fuel : Nat} (hfuel : d.index < fuel) (r : Renaming) :
    a.alphaEquivFrom fuel r d e = .ok (t.resembles r u) := by
  induction fuel generalizing d e t u r with
  | zero => omega
  | succ fuel ih =>
    rw [alphaEquivFrom]
    split
    · next heq =>
      obtain ⟨rfl, hempty⟩ := heq
      obtain rfl := Option.some.inj (ht.symm.trans hu)
      rw [Term.resembles_of_nameless_eq (Renaming.tracks_nil_of_isEmpty hempty) rfl]
      rfl
    · obtain ⟨n, hn⟩ := node?_of_term? ht
      obtain ⟨m, hm⟩ := node?_of_term? hu
      have child (c : ExprId) (hc : c ∈ n.children) : c.index < fuel := by
        have := ha.child_lt hn c hc
        omega
      rw [node_of_node? hn, node_of_node? hm]
      cases n with
      | app head args =>
        cases ha.shows_of_node? ht hn with
        | @app _ _ f xs hf hxs =>
          cases m with
          | app head' args' =>
            cases ha.shows_of_node? hu hm with
            | @app _ _ g ys hg hys =>
              exact allM_spines_eq_ok (ha.spine_of_node? hn hf hxs).1
                (ha.spine_of_node? hm hg hys).1 (.cons hf hxs) (.cons hg hys)
                fun c hc e t u ht hu => ih ht hu (child c hc) r
          | _ =>
            obtain ⟨f, x, heq⟩ := ha.exists_eq_app ht hn
            rw [heq]
            cases ha.shows_of_node? hu hm
            rfl
      | lam b body =>
        cases ha.shows_of_node? ht hn with
        | lam hbody =>
          cases m with
          | lam b' body' =>
            cases ha.shows_of_node? hu hm with
            | lam hbody' => exact ih hbody hbody' (child body List.mem_cons_self) _
          | app head' args' =>
            obtain ⟨g, y, rfl⟩ := ha.exists_eq_app hu hm
            rfl
          | _ =>
            cases ha.shows_of_node? hu hm
            rfl
      | letIn b value body =>
        cases ha.shows_of_node? ht hn with
        | @letIn _ _ _ v u hvalue hbody =>
          cases m with
          | letIn b' value' body' =>
            cases ha.shows_of_node? hu hm with
            | @letIn _ _ _ v' u' hvalue' hbody' =>
              have hv := ih hvalue hvalue' (child value List.mem_cons_self) r
              have hb := ih hbody hbody' (child body (by simp [Node.children])) (r.bind b.id b'.id)
              simp only [Bind.bind, Except.bind, hv, Term.resembles]
              cases Term.resembles r v v' with
              | true => exact hb
              | false => rfl
          | app head' args' =>
            obtain ⟨g, y, rfl⟩ := ha.exists_eq_app hu hm
            rfl
          | _ =>
            cases ha.shows_of_node? hu hm
            rfl
      | _ =>
        cases ha.shows_of_node? ht hn
        cases m with
        | app head' args' =>
          obtain ⟨g, y, rfl⟩ := ha.exists_eq_app hu hm
          rfl
        | _ =>
          cases ha.shows_of_node? hu hm
          rfl

theorem alphaEquiv_eq_ok (ha : a.WellFormed) (ht : a.term? d = some t) (hu : a.term? e = some u) :
    a.alphaEquiv d e = .ok (t.resembles ∅ u) :=
  alphaEquivFrom_eq_ok ha ht hu (index_lt_depthBound ht) ∅

/-- Terms that are equal up to bound names are never told apart, whatever variables they bind and
whatever nodes they share. -/
theorem alphaEquiv_of_alphaEq (ha : a.WellFormed) (ht : a.term? d = some t)
    (hu : a.term? e = some u) (h : t.AlphaEq u) : a.alphaEquiv d e = .ok true := by
  rw [alphaEquiv_eq_ok ha ht hu, (Term.alphaEq_iff_resembles.1 h).1]

/-- The terms `λ x, λ x, f x w` and `λ y, λ z, f z w`, which share the nodes of `f` and `w`. -/
def nestedArena : Arena :=
  .ofNodes [.global ⟨1⟩, .var ⟨0⟩, .var ⟨9⟩, .app ⟨0⟩ [⟨1⟩, ⟨2⟩], .lam ⟨⟨0⟩, ⟨2⟩⟩ ⟨3⟩,
    .lam ⟨⟨0⟩, ⟨2⟩⟩ ⟨4⟩, .var ⟨2⟩, .app ⟨0⟩ [⟨6⟩, ⟨2⟩], .lam ⟨⟨2⟩, ⟨3⟩⟩ ⟨7⟩,
    .lam ⟨⟨1⟩, ⟨4⟩⟩ ⟨8⟩] 10

theorem alphaEquiv_nestedArena : nestedArena.WellFormed ∧
    ∃ t u, nestedArena.term? ⟨5⟩ = some t ∧ nestedArena.term? ⟨9⟩ = some u ∧ t.AlphaEq u ∧
      nestedArena.alphaEquiv ⟨5⟩ ⟨9⟩ = .ok true := by
  have hwf : nestedArena.WellFormed := by decide +kernel
  have ht : nestedArena.term? ⟨5⟩ = some (.lam ⟨⟨0⟩, ⟨2⟩⟩ (.lam ⟨⟨0⟩, ⟨2⟩⟩
      (.app (.app (.global ⟨1⟩) (.var ⟨0⟩)) (.var ⟨9⟩)))) := by decide +kernel
  have hu : nestedArena.term? ⟨9⟩ = some (.lam ⟨⟨1⟩, ⟨4⟩⟩ (.lam ⟨⟨2⟩, ⟨3⟩⟩
      (.app (.app (.global ⟨1⟩) (.var ⟨2⟩)) (.var ⟨9⟩)))) := by decide +kernel
  exact ⟨hwf, _, _, ht, hu, by decide, alphaEquiv_of_alphaEq hwf ht hu (by decide)⟩

/-- A positive answer says that terms are equal up to bound names exactly if the answer the other
way round is positive too; and then they have the same free variables. If no binder of either term
binds a variable that is bound around it, that is so. -/
theorem alphaEq_iff_of_alphaEquiv (ha : a.WellFormed) (ht : a.term? d = some t)
    (hu : a.term? e = some u) (h : a.alphaEquiv d e = .ok true) :
    (t.AlphaEq u ↔ a.alphaEquiv e d = .ok true) ∧
      (t.AlphaEq u → a.freeVars d = a.freeVars e) ∧
      (t.unshadowed [] = true → u.unshadowed [] = true → t.AlphaEq u) := by
  rw [alphaEquiv_eq_ok ha ht hu, Except.ok.injEq] at h
  refine ⟨?_, fun htu => ?_, fun htn hun => ?_⟩
  · rw [alphaEquiv_eq_ok ha hu ht, Except.ok.injEq, Term.alphaEq_iff_resembles, h]
    simp
  · rw [freeVars_eq_ok ha ht, freeVars_eq_ok ha hu, htu.occurrences_eq]
  · have hempty : Renaming.Tracks ∅ [] := Renaming.tracks_nil_of_isEmpty rfl
    exact Term.nameless_eq_of_unshadowed hempty List.nodup_nil List.nodup_nil htn hun h

/-- The terms `λ x, λ x, y`, `λ y, λ z, y` and `λ v, λ w, v`. The first two share the node of `y`,
which is free in the first and bound in the second. -/
def shadowingArena : Arena :=
  .ofNodes [.var ⟨1⟩, .lam ⟨⟨0⟩, ⟨1⟩⟩ ⟨0⟩, .lam ⟨⟨0⟩, ⟨1⟩⟩ ⟨1⟩, .lam ⟨⟨2⟩, ⟨3⟩⟩ ⟨0⟩,
    .lam ⟨⟨1⟩, ⟨2⟩⟩ ⟨3⟩, .var ⟨3⟩, .lam ⟨⟨4⟩, ⟨5⟩⟩ ⟨5⟩, .lam ⟨⟨3⟩, ⟨4⟩⟩ ⟨6⟩] 5

theorem wellFormed_shadowingArena : shadowingArena.WellFormed := by decide +kernel

/-- The constant functions `λ y, λ z, y` and `λ v, λ w, v` are found equal, and they are. -/
theorem alphaEq_shadowingArena : shadowingArena.alphaEquiv ⟨4⟩ ⟨7⟩ = .ok true ∧
    shadowingArena.alphaEquiv ⟨7⟩ ⟨4⟩ = .ok true ∧
    ∃ t u, shadowingArena.term? ⟨4⟩ = some t ∧ shadowingArena.term? ⟨7⟩ = some u ∧
      t.AlphaEq u := by
  have ht : shadowingArena.term? ⟨4⟩ =
      some (.lam ⟨⟨1⟩, ⟨2⟩⟩ (.lam ⟨⟨2⟩, ⟨3⟩⟩ (.var ⟨1⟩))) := by decide +kernel
  have hu : shadowingArena.term? ⟨7⟩ =
      some (.lam ⟨⟨3⟩, ⟨4⟩⟩ (.lam ⟨⟨4⟩, ⟨5⟩⟩ (.var ⟨3⟩))) := by decide +kernel
  have h : shadowingArena.alphaEquiv ⟨4⟩ ⟨7⟩ = .ok true := by decide +kernel
  obtain ⟨hiff, -, hsound⟩ := alphaEq_iff_of_alphaEquiv wellFormed_shadowingArena ht hu h
  have htu := hsound (by decide) (by decide)
  exact ⟨h, hiff.1 htu, _, _, ht, hu, htu⟩

/-- The terms `λ x, λ x, y` and `λ y, λ z, y` are found equal from the left, although `y` is free in
one of them only. -/
theorem not_alphaEq_shadowingArena : shadowingArena.WellFormed ∧
    shadowingArena.alphaEquiv ⟨2⟩ ⟨4⟩ = .ok true ∧
    shadowingArena.alphaEquiv ⟨4⟩ ⟨2⟩ = .ok false ∧
    shadowingArena.freeVars ⟨2⟩ = .ok [⟨1⟩] ∧ shadowingArena.freeVars ⟨4⟩ = .ok [] ∧
    ∃ t u, shadowingArena.term? ⟨2⟩ = some t ∧ shadowingArena.term? ⟨4⟩ = some u ∧
      ¬ t.AlphaEq u := by
  refine ⟨wellFormed_shadowingArena, by decide +kernel, by decide +kernel, by decide +kernel,
    by decide +kernel, .lam ⟨⟨0⟩, ⟨1⟩⟩ (.lam ⟨⟨0⟩, ⟨1⟩⟩ (.var ⟨1⟩)),
    .lam ⟨⟨1⟩, ⟨2⟩⟩ (.lam ⟨⟨2⟩, ⟨3⟩⟩ (.var ⟨1⟩)), by decide +kernel, by decide +kernel, by decide⟩

end Arena

end LambdaLifting
