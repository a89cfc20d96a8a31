import LogAutomata.ExactWeight
import LogAutomata.Proofs.Walks

/-!
# Walks in pieces

What a walk spells, reads and weighs is put together from its pieces. Exact addition
is associative and commutative and 0 is neutral, whatever the weights: an undefined
sum stays undefined, however it is grouped. So the weight of a walk is the sum of its
weights. Exact log-sums may be regrouped in the same way.
-/

namespace LogAutomata

namespace ExactWeight

theorem add_eq (v w : ExactWeight) : v + w = add v w := rfl

instance : @Std.Commutative ExactWeight (· + ·) where
  comm v w := by
    cases v <;> cases w <;> simp only [add_eq, add, add_comm]

instance : @Std.Associative ExactWeight (· + ·) where
  assoc u v w := by
    cases u <;> cases v <;> cases w <;> simp only [add_eq, add, add_assoc]

instance : @Std.LawfulIdentity ExactWeight (· + ·) 0 where
  left_id w := by
    cases w with
    | finite x => exact congrArg finite (zero_add x)
    | _ => rfl
  right_id w := by
    cases w with
    | finite x => exact congrArg finite (add_zero x)
    | _ => rfl

theorem logAdd_eq (v w : ExactWeight) : LogAutomata.logAdd v w = logAdd v w := rfl

instance : @Std.Commutative ExactWeight LogAutomata.logAdd where
  comm v w := by
    cases v <;> cases w <;> simp only [logAdd_eq, logAdd, add_comm]

instance : @Std.Associative ExactWeight LogAutomata.logAdd where
  assoc u v w := by
    cases u <;> cases v <;> cases w <;> simp only [logAdd_eq, logAdd]
    next x y z =>
      rw [Real.exp_log (by positivity), Real.exp_log (by positivity), add_assoc]

end ExactWeight

theorem logSum_perm {W : Type} [LogWeight W] [@Std.Commutative W logAdd]
    [@Std.Associative W logAdd] {vs ws : List W} (h : vs.Perm ws) : logSum vs = logSum ws :=
  h.foldl_eq impossible

namespace Automaton

theorem isWalk_append_iff {W : Type} {a : Automaton W} {i k : Nat} {ps qs : List Place} :
    a.IsWalk i (ps ++ qs) k ↔ ∃ j, a.IsWalk i ps j ∧ a.IsWalk j qs k := by
  constructor
  · intro h
    induction ps generalizing i with
    | nil => exact ⟨i, .nil i, h⟩
    | cons p ps ih =>
      obtain ⟨hp, j, hj, h⟩ := isWalk_cons_iff.1 h
      obtain ⟨m, hm, h⟩ := ih h
      exact ⟨m, isWalk_cons_iff.2 ⟨hp, j, hj, hm⟩, h⟩
  · rintro ⟨j, h, h'⟩
    exact h.append h'

section
variable {W : Type} (a : Automaton W) (ps qs : List Place)

theorem weights_append : a.weights (ps ++ qs) = a.weights ps ++ a.weights qs :=
  List.filterMap_append

theorem entered_append : a.entered (ps ++ qs) = a.entered ps ++ a.entered qs :=
  List.filterMap_append

theorem spelling_append : a.spelling (ps ++ qs) = a.spelling ps ++ a.spelling qs := by
  simp [spelling, entered_append]

theorem reading_append : a.reading (ps ++ qs) = a.reading ps ++ a.reading qs := by
  simp [reading, spelling_append]

theorem weights_eq_flatMap : a.weights ps = ps.flatMap fun p => a.weights [p] := by
  induction ps with
  | nil => rfl
  | cons p ps ih => rw [← List.singleton_append, weights_append, ih, List.flatMap_append]; simp

theorem spelling_eq_flatMap : a.spelling ps = ps.flatMap fun p => a.spelling [p] := by
  induction ps with
  | nil => rfl
  | cons p ps ih => rw [← List.singleton_append, spelling_append, ih, List.flatMap_append]; simp

end

section
variable {W : Type} {a : Automaton W}

theorem entered_cons {p : Place} {j : Nat} (h : a.arrival p = some j) (ps : List Place) :
    a.entered (p :: ps) = j :: a.entered ps := List.filterMap_cons_some h

theorem entered_concat {p : Place} {j : Nat} (h : a.arrival p = some j) (ps : List Place) :
    a.entered (ps ++ [p]) = a.entered ps ++ [j] := by
  simp [entered, h]

theorem IsWalk.exists_split {i j k : Nat} {ps : List Place} (h : a.IsWalk i ps j)
    (hk : k ∈ a.entered ps) :
    ∃ qs qs', ps = qs ++ qs' ∧ qs ≠ [] ∧ a.IsWalk i qs k ∧ a.IsWalk k qs' j := by
  induction h with
  | nil => cases hk
  | @cons i m j n ps hm hp ih =>
    rw [← List.singleton_append, entered_append] at hk
    rcases List.mem_append.1 hk with hk | hk
    · obtain rfl : k = m := by simpa [entered, hm] using hk
      exact ⟨[⟨i, n⟩], ps, rfl, List.cons_ne_nil _ _, .cons hm (.nil k), hp⟩
    · obtain ⟨qs, qs', rfl, -, hq, hq'⟩ := ih hk
      exact ⟨⟨i, n⟩ :: qs, qs', rfl, List.cons_ne_nil _ _, .cons hm hq, hq'⟩

def heard (a : Automaton W) (i : Nat) : List Symbol := (a.spell [i]).filter fun s => !s.isNil

theorem reading_eq_flatMap (a : Automaton W) (ps : List Place) :
    a.reading ps = (a.entered ps).flatMap a.heard := by
  change ((a.spell (a.entered ps)).filter fun s => !s.isNil) = _
  induction a.entered ps with
  | nil => rfl
  | cons i is ih =>
    rw [← List.singleton_append, spell_append, List.filter_append, ih]
    rfl

theorem heard_of_lt_two {i : Nat} (hi : i < 2) : a.heard i = [] := by
  rw [heard, spell_cons_sentinel hi]
  rfl

theorem heard_of_two_le {i : Nat} (hi : 2 ≤ i) :
    a.heard i = [a.symbolAt i].filter fun s => !s.isNil := by
  rw [heard, spell_cons_interior hi]
  rfl

theorem heard_of_symbol_nil {i : Nat} (h : a.symbolAt i = .nil) : a.heard i = [] := by
  have none : Symbol.nil.isNil = true := rfl
  by_cases hi : i < 2
  · exact heard_of_lt_two hi
  · simp [heard_of_two_le (Nat.le_of_not_lt hi), h, none]

theorem heard_of_isNil {i : Nat} (hi : a.isNil i = true) : a.heard i = [] := by
  obtain ⟨h2, hs⟩ : 1 < i ∧ (a.symbolAt i).isNil = true := by simpa [isNil, isSentinel] using hi
  rw [heard_of_two_le h2]
  simp [hs]

end

theorem walkWeight_eq_sum (a : Automaton ExactWeight) (ps : List Place) :
    a.walkWeight ps = (a.weights ps).sum := List.sum_eq_foldl.symm

theorem walkWeight_append (a : Automaton ExactWeight) (ps qs : List Place) :
    a.walkWeight (ps ++ qs) = a.walkWeight ps + a.walkWeight qs := by
  simp only [walkWeight_eq_sum, weights_append, List.sum_append]

theorem walkWeight_cons (a : Automaton ExactWeight) (p : Place) (ps : List Place) :
    a.walkWeight (p :: ps) = a.walkWeight [p] + a.walkWeight ps := a.walkWeight_append [p] ps

end Automaton

end LogAutomata
