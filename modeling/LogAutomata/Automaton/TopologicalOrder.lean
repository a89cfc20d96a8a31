import LogAutomata.Automaton.Basic
import LogAutomata.Counters

/-!
# Topological order

The states that Init reaches, each one after all of its predecessors among
them. A first pass counts, for every state, the links that arrive there from
reached states. A second pass takes them away again; a state is due when its
last one is gone. Init comes first and never again.
-/

namespace LogAutomata.Automaton

variable {W : Type}

def successors (a : Automaton W) (i : Nat) : List Nat :=
  (a.linksFrom i).filterMap fun l => a.position? l.dest

-- ---------------------------------------------------------------------------
-- Arrivals
-- ---------------------------------------------------------------------------

/-- The states that are still to be explored, last found first, and how many
links to each position have been seen. -/
structure Discovery where
  pending : List Nat
  seen : Counters

/-- Sees one link to `v`. Init counts as found from the start. -/
def Discovery.visit (d : Discovery) (v : Nat) : Discovery :=
  if d.seen[v]? = some 0 ∧ v ≠ 0 then ⟨v :: d.pending, d.seen.increase v⟩
  else ⟨d.pending, d.seen.increase v⟩

theorem Discovery.visit_measure (d : Discovery) (v : Nat) :
    (d.visit v).seen.zeros + (d.visit v).pending.length ≤ d.seen.zeros + d.pending.length := by
  have := d.seen.zeros_increase v
  unfold visit
  split
  · next h =>
    simp only [h.1, if_true] at this
    simp only [List.length_cons]
    omega
  · simp only
    omega

theorem Discovery.foldl_visit_measure (vs : List Nat) (d : Discovery) :
    (vs.foldl visit d).seen.zeros + (vs.foldl visit d).pending.length ≤
      d.seen.zeros + d.pending.length := by
  induction vs generalizing d with
  | nil => exact Nat.le_refl _
  | cons v vs ih => exact Nat.le_trans (ih (d.visit v)) (d.visit_measure v)

def arrivals (a : Automaton W) : Discovery → Except Fault Counters
  | ⟨[], seen⟩ => return seen
  | ⟨u :: pending, seen⟩ => do
    (a.linksFrom u).forM fun l => discard (a.owned "topological_order" l.dest)
    arrivals a ((a.successors u).foldl Discovery.visit ⟨pending, seen⟩)
termination_by d => d.seen.zeros + d.pending.length
decreasing_by
  have := Discovery.foldl_visit_measure (a.successors u) ⟨pending, seen⟩
  simp only [List.length_cons] at this ⊢
  omega

-- ---------------------------------------------------------------------------
-- Departures
-- ---------------------------------------------------------------------------

/-- How many links are still awaited at each position, and the states that have
become due. -/
structure Countdown where
  awaited : Counters
  due : Array Nat

def Countdown.arrive (c : Countdown) (v : Nat) : Countdown :=
  if c.awaited[v]? = some 1 ∧ v ≠ 0 then ⟨c.awaited.decrease v, c.due.push v⟩
  else ⟨c.awaited.decrease v, c.due⟩

theorem Countdown.arrive_measure (c : Countdown) (v : Nat) :
    (c.arrive v).awaited.total + (c.arrive v).due.size ≤ c.awaited.total + c.due.size := by
  have := c.awaited.total_decrease_le v
  unfold arrive
  split
  · next h =>
    simp only [h.1, if_true] at this
    simp only [Array.size_push]
    omega
  · simp only
    omega

theorem Countdown.foldl_arrive_measure (vs : List Nat) (c : Countdown) :
    (vs.foldl arrive c).awaited.total + (vs.foldl arrive c).due.size ≤
      c.awaited.total + c.due.size := by
  induction vs generalizing c with
  | nil => exact Nat.le_refl _
  | cons v vs ih => exact Nat.le_trans (ih (c.arrive v)) (c.arrive_measure v)

def leave (a : Automaton W) (us : List Nat) (awaited : Counters) : Countdown :=
  us.foldl (fun c u => (a.successors u).foldl Countdown.arrive c) ⟨awaited, #[]⟩

theorem leave_measure (a : Automaton W) (us : List Nat) (awaited : Counters) :
    (a.leave us awaited).awaited.total + (a.leave us awaited).due.size ≤ awaited.total := by
  suffices h : ∀ c : Countdown,
      let d := us.foldl (fun c u => (a.successors u).foldl Countdown.arrive c) c
      d.awaited.total + d.due.size ≤ c.awaited.total + c.due.size from h ⟨awaited, #[]⟩
  induction us with
  | nil => exact fun c => Nat.le_refl _
  | cons u us ih => exact fun c => Nat.le_trans (ih _) (c.foldl_arrive_measure (a.successors u))

/-- The states that are due, and after them those that become due when these
have left. -/
def inOrder (a : Automaton W) : Countdown → List Nat
  | ⟨awaited, due⟩ =>
    if due.isEmpty then [] else due.toList ++ inOrder a (a.leave due.toList awaited)
termination_by c => c.awaited.total + c.due.size
decreasing_by
  next h =>
  have := a.leave_measure due.toList awaited
  have : 0 < due.size := Array.size_pos_iff.2 fun he => h (by simp [he])
  omega

/-- States on a cycle, or behind one, are left out. -/
def topologicalOrder (a : Automaton W) : Except Fault (List Nat) :=
  return inOrder a ⟨← a.arrivals ⟨[0], .zero a.size⟩, #[0]⟩

end LogAutomata.Automaton
