/-!
# Counters

One number for each position below a bound. What is counted at other positions
is lost. `zeros` and `total` measure how far a count has come.
-/

namespace LogAutomata

abbrev Counters := Array Nat

namespace Counters

def zero (n : Nat) : Counters := Array.replicate n 0

def increase (counts : Counters) (i : Nat) : Counters := counts.modify i (· + 1)

def decrease (counts : Counters) (i : Nat) : Counters := counts.modify i (· - 1)

def zeros (counts : Counters) : Nat := counts.toList.count 0

def total (counts : Counters) : Nat := counts.toList.foldr (· + ·) 0

theorem getElem?_increase (counts : Counters) (i j : Nat) :
    (counts.increase i)[j]? = if i = j then counts[j]?.map (· + 1) else counts[j]? :=
  Array.getElem?_modify

theorem getElem?_decrease (counts : Counters) (i j : Nat) :
    (counts.decrease i)[j]? = if i = j then counts[j]?.map (· - 1) else counts[j]? :=
  Array.getElem?_modify

theorem count_zero_modify_succ (l : List Nat) (i : Nat) :
    (l.modify i (· + 1)).count 0 + (if l[i]? = some 0 then 1 else 0) = l.count 0 := by
  induction l generalizing i with
  | nil => simp
  | cons n l ih =>
    cases i with
    | zero => by_cases h : n = 0 <;> simp [h]
    | succ i =>
      have := ih i
      simp only [List.modify_succ_cons, List.count_cons, List.getElem?_cons_succ]
      omega

theorem foldr_modify_pred_le (l : List Nat) (i : Nat) :
    (l.modify i (· - 1)).foldr (· + ·) 0 + (if l[i]? = some 1 then 1 else 0) ≤
      l.foldr (· + ·) 0 := by
  induction l generalizing i with
  | nil => simp
  | cons n l ih =>
    cases i with
    | zero =>
      simp only [List.modify_zero_cons, List.foldr_cons, List.getElem?_cons_zero, Option.some.injEq]
      split <;> omega
    | succ i =>
      have := ih i
      simp only [List.modify_succ_cons, List.foldr_cons, List.getElem?_cons_succ]
      omega

theorem zeros_increase (counts : Counters) (i : Nat) :
    (counts.increase i).zeros + (if counts[i]? = some 0 then 1 else 0) = counts.zeros := by
  simpa [zeros, increase] using count_zero_modify_succ counts.toList i

theorem total_decrease_le (counts : Counters) (i : Nat) :
    (counts.decrease i).total + (if counts[i]? = some 1 then 1 else 0) ≤ counts.total := by
  simpa [total, decrease] using foldr_modify_pred_le counts.toList i

end Counters

end LogAutomata
