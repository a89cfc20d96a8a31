import LogAutomata.ExactWeight
import LogAutomata.Proofs.Lineup
import LogAutomata.Proofs.Union

/-!
# Nested unions and concatenations

Automata can be joined in one call or two at a time. Unions of two, however nested, give the
union of all, ids and the order of links included: a union in a union is copied input by input.
Of the concatenations of two the one that is nested on the right gives the concatenation of all.
In the others the splice states are made at other moments, so their states stand elsewhere, but
they have the same inputs in a row.
-/

namespace LogAutomata

/-- An order in which things in a row are joined two at a time. -/
inductive Nesting (α : Type)
  | leaf (x : α)
  | join (left right : Nesting α)

namespace Nesting

variable {α : Type}

def leaves : Nesting α → List α
  | leaf x => [x]
  | join left right => left.leaves ++ right.leaves

/-- Only single things are joined from the left. -/
def RightNested : Nesting α → Prop
  | leaf _ => True
  | join (leaf _) right => right.RightNested
  | join (join _ _) _ => False

def eval {ε : Type} (op : List α → Except ε α) : Nesting α → Except ε α
  | leaf x => return x
  | join left right => do op [← left.eval op, ← right.eval op]

theorem leaves_ne_nil (n : Nesting α) : n.leaves ≠ [] := by
  induction n with
  | leaf x => exact List.cons_ne_nil x []
  | join left right ih _ => exact List.append_ne_nil_of_left_ne_nil ih _

end Nesting

namespace Automaton

variable {W : Type} [LogWeight W] {x y : Automaton W} {as bs : List (Automaton W)}

-- ---------------------------------------------------------------------------
-- Unions
-- ---------------------------------------------------------------------------

/-- To put the automaton into a union is to put all of these into it. -/
def StandsFor (x : Automaton W) (as : List (Automaton W)) : Prop :=
  ∀ target, target.WellFormed → target.Numbered →
    x.embed "union" {} target = as.foldlM (fun t a => a.embed "union" {} t) target

theorem standsFor_self (a : Automaton W) : a.StandsFor [a] := fun target _ _ => by
  rw [List.foldlM_cons]
  exact (bind_pure _).symm

theorem StandsFor.foldlM_pair (hx : x.StandsFor as) (hy : y.StandsFor bs) (wx : x.WellFormed)
    {target : Automaton W} (wf : target.WellFormed) (fresh : target.Numbered) :
    [x, y].foldlM (fun t a => a.embed "union" {} t) target =
      (as ++ bs).foldlM (fun t a => a.embed "union" {} t) target := by
  have two := wf.two_le_size
  obtain ⟨s, hs, grown⟩ := embed_between wx wf (i := 0) (f := 1) (by omega) (by omega) "union"
  have first := (hx target wf fresh).symm.trans hs
  rw [List.foldlM_append, first, List.foldlM_cons, hs, ok_bind, ok_bind, List.foldlM_cons,
    ← hy s grown.wellFormed (fresh.embed rfl hs)]
  exact bind_pure _

theorem StandsFor.union_pair (hx : x.StandsFor as) (hy : y.StandsFor bs) (wx : x.WellFormed)
    (wy : y.WellFormed) :
    ∃ z, union [x, y] = .ok z ∧ union (as ++ bs) = .ok z ∧ z.WellFormed ∧ z.StandsFor (as ++ bs) := by
  have both : ∀ a ∈ [x, y], a.WellFormed := by simp [wx, wy]
  obtain ⟨z, part, hz, h, -⟩ := union_ok both
  refine ⟨z, hz, (hx.foldlM_pair hy wx .empty .empty).symm.trans hz, h.wellFormed,
    fun target wf fresh => ?_⟩
  rw [embed_foldlM both .empty wf fresh hz, embed_empty, ok_bind, hx.foldlM_pair hy wx wf fresh]

theorem eval_union (n : Nesting (Automaton W)) (wf : ∀ a ∈ n.leaves, a.WellFormed) :
    ∃ x, n.eval union = .ok x ∧ x.WellFormed ∧ x.StandsFor n.leaves := by
  induction n with
  | leaf a => exact ⟨a, rfl, wf a (List.mem_singleton_self a), standsFor_self a⟩
  | join left right ihl ihr =>
    obtain ⟨wl, wr⟩ := List.forall_mem_append.1 wf
    obtain ⟨x, hx, wx, sx⟩ := ihl wl
    obtain ⟨y, hy, wy, sy⟩ := ihr wr
    obtain ⟨z, hz, -, wz, sz⟩ := sx.union_pair sy wx wy
    refine ⟨z, ?_, wz, sz⟩
    rw [Nesting.eval, hx, hy]
    exact hz

theorem eval_union_join (left right : Nesting (Automaton W))
    (wf : ∀ a ∈ (left.join right).leaves, a.WellFormed) :
    (left.join right).eval union = union (left.join right).leaves := by
  obtain ⟨wl, wr⟩ := List.forall_mem_append.1 wf
  obtain ⟨x, hx, wx, sx⟩ := eval_union left wl
  obtain ⟨y, hy, wy, sy⟩ := eval_union right wr
  obtain ⟨z, hz, hall, -⟩ := sx.union_pair sy wx wy
  rw [Nesting.eval, hx, hy]
  exact hz.trans hall.symm

-- ---------------------------------------------------------------------------
-- Concatenations
-- ---------------------------------------------------------------------------

theorem eval_concat (n : Nesting (Automaton W)) (wf : ∀ a ∈ n.leaves, a.WellFormed) :
    ∃ d place, n.eval concat = .ok d ∧ d.LinesUp n.leaves place := by
  induction n with
  | leaf a =>
    have ha := wf a (List.mem_singleton_self a)
    exact ⟨a, _, rfl, linesUp_single ha ha rfl (fun _ _ => rfl) (.refl _)⟩
  | join left right ihl ihr =>
    obtain ⟨wl, wr⟩ := List.forall_mem_append.1 wf
    obtain ⟨x, f, hx, lx⟩ := ihl wl
    obtain ⟨y, g, hy, ly⟩ := ihr wr
    obtain ⟨d, hd, chains⟩ := concat_pair lx.wellFormed ly.wellFormed
    refine ⟨d, _, ?_, chains.linesUp lx ly⟩
    rw [Nesting.eval, hx, hy]
    exact hd

theorem eval_concat_join (left right : Nesting (Automaton W))
    (wf : ∀ a ∈ (left.join right).leaves, a.WellFormed) (nested : (left.join right).RightNested) :
    (left.join right).eval concat = concat (left.join right).leaves := by
  induction right generalizing left with
  | leaf b =>
    cases left with
    | leaf a => rfl
    | join => exact nested.elim
  | join second third _ ih =>
    cases left with
    | leaf a =>
      obtain ⟨-, rest⟩ := List.forall_mem_cons.1 wf
      obtain ⟨d, place, hd, -⟩ := eval_concat (second.join third) rest
      have all := ih second rest nested
      rw [Nesting.eval, Nesting.eval, hd]
      exact concat_cons (second.join third).leaves_ne_nil rest (all.symm.trans hd)
    | join => exact nested.elim

/-- However automata are joined two at a time, one gets the union of all of them, and their
concatenation up to isomorphism. If the nesting is to the right, one gets just this. -/
theorem nested_joins (n : Nesting (Automaton W)) (built : ∀ a ∈ n.leaves, a.Built)
    (two : 2 ≤ n.leaves.length) :
    ∃ u c d, union n.leaves = .ok u ∧ n.eval union = .ok u ∧
      concat n.leaves = .ok c ∧ n.eval concat = .ok d ∧ d.Isomorphic c ∧
      (n.RightNested → d = c) := by
  have wf : ∀ a ∈ n.leaves, a.WellFormed := fun a ha => (built a ha).wellFormed
  cases n with
  | leaf a => exact absurd two (Nat.not_succ_le_self 1)
  | join left right =>
    obtain ⟨u, part, hu, -⟩ := union_ok wf
    obtain ⟨c, f, hc, lc, -⟩ := linesUp_concat (left.join right).leaves_ne_nil wf
    obtain ⟨d, g, hd, ld⟩ := eval_concat (left.join right) wf
    obtain ⟨r, keeps, -⟩ := ld.exists_renaming lc
    refine ⟨u, c, d, hu, (eval_union_join left right wf).trans hu, hc, hd, ⟨r, keeps⟩,
      fun nested => ?_⟩
    exact Except.ok.inj (hd.symm.trans ((eval_concat_join left right wf nested).trans hc))

-- ---------------------------------------------------------------------------
-- Three automata
-- ---------------------------------------------------------------------------

/-- A state with an id of its own, and a link out of Final back to it. -/
def bypass : Automaton ExactWeight :=
  (empty.addState (some 4) ⟨none, some (.text "a")⟩).withArcs
    [⟨0, 2, .finite 0⟩, ⟨2, 1, .finite 1⟩, ⟨1, 2, .finite (-1)⟩]

def turnaround : Automaton ExactWeight :=
  empty.withArcs [⟨0, 1, .finite (1 + 1)⟩, ⟨1, 0, .impossible⟩]

theorem bypass_built : bypass.Built := by
  refine Built.withArcs (.addState _ _ .empty) fun r hr => ?_
  simp only [List.mem_cons, List.not_mem_nil, or_false] at hr
  rcases hr with rfl | rfl | rfl <;> exact ⟨by decide, by decide, rfl⟩

theorem turnaround_built : turnaround.Built := by
  refine Built.withArcs .empty fun r hr => ?_
  simp only [List.mem_cons, List.not_mem_nil, or_false] at hr
  rcases hr with rfl | rfl <;> exact ⟨by decide, by decide, rfl⟩

def fromLeft : Nesting (Automaton ExactWeight) :=
  .join (.join (.leaf bypass) (.leaf turnaround)) (.leaf bypass)

def fromRight : Nesting (Automaton ExactWeight) :=
  .join (.leaf bypass) (.join (.leaf turnaround) (.leaf bypass))

theorem nested_joins_bypass :
    fromLeft.eval union = fromRight.eval union ∧
      ∃ c d, fromLeft.eval concat = .ok d ∧ fromRight.eval concat = .ok c ∧
        concat [bypass, turnaround, bypass] = .ok c ∧ d.Isomorphic c := by
  have built : ∀ a ∈ [bypass, turnaround, bypass], a.Built := by
    simp [bypass_built, turnaround_built]
  obtain ⟨u, c, d, hu, hl, hc, hd, iso, -⟩ := nested_joins fromLeft built (Nat.le_succ 2)
  obtain ⟨u', c', d', hu', hr, hc', hd', -, same⟩ :=
    nested_joins fromRight built (Nat.le_succ 2)
  obtain rfl : u = u' := Except.ok.inj (hu.symm.trans hu')
  obtain rfl : c = c' := Except.ok.inj (hc.symm.trans hc')
  obtain rfl := same trivial
  exact ⟨hl.trans hr.symm, d', d, hd, hd', hc, iso⟩

end Automaton

end LogAutomata
