import LogAutomata.Automaton.Basic
import LogAutomata.Unseen

/-!
# Cycles

A depth-first search from Init. The trail holds the states from the current one
back to Init, each with the targets that it has not tried yet. A target that is
on the trail closes a cycle: the part of the trail from there on.
-/

namespace LogAutomata.Automaton

variable {W : Type}

structure Visit where
  state : Nat
  untried : List Endpoint

def Visit.states (trail : List Visit) : List Nat := trail.map state

def Visit.work (trail : List Visit) : Nat :=
  trail.foldr (fun v rest => v.untried.length + 1 + rest) 0

def closing (states : List Nat) (v : Nat) : List Nat :=
  v :: (states.takeWhile (· != v)).reverse

/-- Follows the trail, innermost state first, until a cycle is closed or nothing
is left. The states in `done` lead into no cycle. -/
def follow (a : Automaton W) : List Visit → List Nat → Except Fault (Option (List Nat))
  | [], _ => return none
  | ⟨u, []⟩ :: trail, done => follow a trail (u :: done)
  | ⟨u, e :: rest⟩ :: trail, done =>
    match _h : a.owned "find_cycle" e with
    | .error f => throw f
    | .ok v =>
      if v ∈ u :: Visit.states trail then return some (closing (u :: Visit.states trail) v)
      else if v ∈ done then follow a (⟨u, rest⟩ :: trail) done
      else follow a (⟨v, a.targets v⟩ :: ⟨u, rest⟩ :: trail) done
termination_by trail done => (unseen a.size (Visit.states trail ++ done), Visit.work trail)
decreasing_by
  · have : unseen a.size (Visit.states trail ++ u :: done) =
        unseen a.size (Visit.states (⟨u, []⟩ :: trail) ++ done) :=
      unseen_congr fun x => by simp [Visit.states]; grind
    rw [this]
    exact Prod.Lex.right _ (by simp [Visit.work])
  · exact Prod.Lex.right _ (by simp [Visit.work])
  · next ht hd =>
    refine Prod.Lex.left _ _ ?_
    exact @unseen_cons_lt a.size v (u :: Visit.states trail ++ done) (owned_eq_ok_iff.1 _h).2
      fun hm => (List.mem_append.1 hm).elim ht hd

def findCycle (a : Automaton W) : Except Fault (Option (List Nat)) :=
  follow a [⟨0, a.targets 0⟩] []

def isAcyclic (a : Automaton W) : Except Fault Bool := return (← a.findCycle).isNone

def checkAcyclic (a : Automaton W) : Except Fault Unit := do
  if let some states ← a.findCycle then
    throw (.cycle (states.map fun i => (a.profile (.inner i)).id))

end LogAutomata.Automaton
