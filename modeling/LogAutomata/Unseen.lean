/-!
# Unseen positions

A search over positions below a bound ends because each position is new only
once. `unseen` counts those that are still to come.
-/

namespace LogAutomata

def unseen (n : Nat) (seen : List Nat) : Nat := ((List.range n).filter (· ∉ seen)).length

theorem unseen_cons_lt {n v : Nat} {seen : List Nat} (hv : v < n) (hs : v ∉ seen) :
    unseen n (v :: seen) < unseen n seen := by
  have h : (List.range n).filter (· ∉ v :: seen) =
      ((List.range n).filter (· ∉ seen)).filter (· ≠ v) := by
    rw [List.filter_filter]
    congr 1
    funext x
    simp
  rw [unseen, unseen, h]
  exact List.length_filter_lt_length_iff_exists.2 ⟨v, by simp [hv, hs], by simp⟩

theorem unseen_congr {n : Nat} {s t : List Nat} (h : ∀ x, x ∈ s ↔ x ∈ t) :
    unseen n s = unseen n t := by
  simp [unseen, h]

end LogAutomata
