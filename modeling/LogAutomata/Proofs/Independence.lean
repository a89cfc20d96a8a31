import LogAutomata.Proofs.RenamedWalks
import LogAutomata.Proofs.SameShape

/-!
# Order does not matter

What operations make of an automaton depends on its states and weighted links, and not on
the order in which they were made or on ids. Only the weights after minimization do depend
on the order of links, since the last visit decides how weights are pushed.
-/

namespace LogAutomata.Automaton

def swapSides (i : Nat) : Nat := [0, 1, 3, 2].getD i 0

theorem arcsFrom_diamond (v w : ExactWeight) (i : Nat) : (diamond v w).arcsFrom i =
    ((diamondArcs v w).filter (·.src == i)).map fun r => (r.dest, r.weight) := by
  have ends : ∀ r ∈ diamondArcs v w, r.src < sides.size ∧ r.dest < sides.size := by
    simp [diamondArcs, sides]
  have none : sides.arcsFrom i = [] := by simp [arcsFrom, sides]
  rw [diamond, arcsFrom_withArcs ends, none, List.nil_append]

theorem diamond_isomorphic (v w : ExactWeight) : (diamond v w).Isomorphic (diamond w v) := by
  have size : ∀ v w, (diamond v w).size = 4 := fun v w => size_withArcs _ _
  refine ⟨⟨swapSides, swapSides, ?_, ?_, ?_, ?_, rfl, rfl, ?_⟩, ?_⟩
  · rw [size, size]
    decide
  · rw [size, size]
    decide
  · rw [size]
    decide
  · rw [size]
    decide
  · rw [size]
    simp only [diamond, symbolAt_withArcs]
    decide
  · intro i hi
    rw [size] at hi
    rw [arcsFrom_diamond, arcsFrom_diamond]
    rcases i with _ | _ | _ | _ | i
    · exact .swap (2, w) (3, v) []
    · exact .refl []
    · exact .refl [(1, v)]
    · exact .refl [(1, w)]
    · omega

end LogAutomata.Automaton
