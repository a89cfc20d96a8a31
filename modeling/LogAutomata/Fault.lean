import LogAutomata.Label

/-!
# Faults

Everything that can go wrong, as a cause. The wording is in
`LogAutomata.Text.Fault`.
-/

namespace LogAutomata

inductive Fault
  /-- A link between these states would carry an undefined weight. -/
  | undefinedWeight (src dest : Profile)
  /-- A link was asked for at a state of another automaton. -/
  | notOwned (state : Profile)
  /-- An operation met a state that has no counterpart in its table. -/
  | unmapped (operation : String) (state : Profile)
  /-- The states with these ids form a cycle. -/
  | cycle (ids : List (Option Int))
  /-- A link claims to leave the state at this index, which has no node yet. -/
  | noNode (index : Int)
  /-- A number names no position of a list. -/
  | outOfRange
  /-- A number has more bits than a position can have. -/
  | indexTooLarge
  /-- Sub-automata were given as a value of this type and not as a mapping. -/
  | notAMapping (type : String)
  /-- No working drawing program was found. -/
  | noDrawingProgram
  /-- A path holds the character that ends paths. -/
  | unwritableName
  /-- No automaton has this name. -/
  | unbound (name : String)
  /-- There are walks of every length, so a sweep over all walks never ends. -/
  | endless
  deriving DecidableEq

-- ---------------------------------------------------------------------------
-- Checks in a row
-- ---------------------------------------------------------------------------

theorem mem_of_mapM_eq_ok {ε α β : Type} {f : α → Except ε β} {xs : List α} {ys : List β}
    (h : xs.mapM f = .ok ys) {y : β} (hy : y ∈ ys) : ∃ x ∈ xs, f x = .ok y := by
  induction xs generalizing ys with
  | nil => cases h; cases hy
  | cons x xs ih =>
    rw [List.mapM_cons] at h
    cases hx : f x with
    | error => simp [hx, bind, Except.bind] at h
    | ok z =>
      cases hxs : xs.mapM f with
      | error => simp [hx, hxs, bind, Except.bind] at h
      | ok zs =>
        simp only [hx, hxs, bind, Except.bind, pure, Except.pure, Except.ok.injEq] at h
        subst h
        rcases List.mem_cons.1 hy with rfl | hy
        · exact ⟨x, by simp, hx⟩
        · obtain ⟨w, hw, e⟩ := ih hxs hy
          exact ⟨w, by simp [hw], e⟩

end LogAutomata
