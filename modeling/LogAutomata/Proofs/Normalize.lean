import LogAutomata.Proofs.Embed
import LogAutomata.Proofs.Paths

/-!
# What normalization does

The states and the links stay as they are, and every weight loses what
`normalizer` finds for its state.
-/

namespace LogAutomata.Automaton

variable {W : Type} [LogWeight W]

def normalizedFrom (a : Automaton W) (i : Nat) : List (Nat × W) :=
  (a.arcsFrom i).map fun e => (e.1, e.2 - normalizer ((a.arcsFrom i).map Prod.snd))

theorem map_snd_normalizedFrom (a : Automaton W) (i : Nat) :
    (a.normalizedFrom i).map Prod.snd = ((a.arcsFrom i).map Prod.snd).map
      (· - normalizer ((a.arcsFrom i).map Prod.snd)) := by
  rw [normalizedFrom, List.map_map, List.map_map]
  rfl

theorem normalizedLinks_eq {a : Automaton W} (h : a.WellFormed) (i : Nat) :
    (a.states[i]?.map State.normalizedLinks).getD [] =
      (a.normalizedFrom i).map fun e => ⟨.inner i, .inner e.1, e.2⟩ := by
  have hl := h.linksFrom_eq i
  rw [linksFrom] at hl
  cases hs : a.states[i]? with
  | none =>
    rw [normalizedFrom, arcsFrom_eq_nil (Array.getElem?_eq_none_iff.1 hs)]
    rfl
  | some s =>
    rw [hs, Option.map_some, Option.getD_some] at hl
    rw [Option.map_some, Option.getD_some, State.normalizedLinks, hl, normalizedFrom]
    simp [Function.comp_def]

theorem flatMap_normalizedLinks {a : Automaton W} (h : a.WellFormed) :
    a.states.toList.flatMap State.normalizedLinks =
      (arcsOf (List.range a.size) a.normalizedFrom).map Arc.toLink := by
  rw [flatMap_states, arcsOf, List.map_flatMap]
  refine List.flatMap_congr fun i _ => ?_
  rw [normalizedLinks_eq h, List.map_map]
  rfl

theorem normalize_eq {a : Automaton W} (h : a.WellFormed) : a.normalize =
    (a.carry (a.remap {} empty).1 (a.remap {} empty).1 "normalize" (a.remap {} empty).2
      ((arcsOf (List.range a.size) a.normalizedFrom).map Arc.toLink)).map
        (a.remap {} empty).2.withArcs := by
  rw [normalize, flatMap_normalizedLinks h]
  rfl

theorem mem_normalizedFrom_lt {a : Automaton W} {i : Nat} {e : Nat × W}
    (he : e ∈ a.normalizedFrom i) : i < a.size ∧ e.1 < a.size := by
  obtain ⟨f, hf, rfl⟩ := List.mem_map.1 he
  exact ⟨src_lt_size hf, dest_lt_size (e := f) hf⟩

theorem normalize_ok {a : Automaton W} (h : a.WellFormed)
    (defined : ∀ i, ∀ e ∈ a.normalizedFrom i, isUndefined e.2 = false) :
    ∃ b, a.normalize = .ok b ∧ a.Rebuilds b a.normalizedFrom := by
  rw [normalize_eq h]
  refine rebuild_ok h List.nodup_range a.normalizedFrom (fun i e he => ?_) "normalize"
  obtain ⟨hi, hj⟩ := mem_normalizedFrom_lt he
  exact ⟨List.mem_range.2 hi, hi, hj, defined i e he⟩

theorem normalize_undefined {a : Automaton W} (h : a.WellFormed)
    (lost : ∃ i, ∃ e ∈ a.normalizedFrom i, isUndefined e.2 = true) :
    ∃ src dest, a.normalize = .error (.undefinedWeight src dest) := by
  obtain ⟨i, e, he, lost⟩ := lost
  rw [normalize_eq h]
  exact rebuild_undefined a (fun i _ e he => mem_normalizedFrom_lt he)
    ⟨i, List.mem_range.2 (mem_normalizedFrom_lt he).1, e, he, lost⟩ "normalize"

theorem normalize_cases {a : Automaton W} (h : a.WellFormed) :
    (∃ src dest, a.normalize = .error (.undefinedWeight src dest)) ∨
      ∃ b, a.normalize = .ok b ∧ a.Rebuilds b a.normalizedFrom := by
  by_cases lost : ∃ i, ∃ e ∈ a.normalizedFrom i, isUndefined e.2 = true
  · exact .inl (normalize_undefined h lost)
  · push Not at lost
    exact .inr (normalize_ok h fun i e he => eq_false_of_ne_true (lost i e he))

theorem rebuilds_of_normalize {a b : Automaton W} (h : a.WellFormed) (hb : a.normalize = .ok b) :
    a.Rebuilds b a.normalizedFrom := by
  rcases normalize_cases h with ⟨src, dest, refused⟩ | ⟨b', hb', hr⟩
  · cases hb.symm.trans refused
  · obtain rfl := Except.ok.inj (hb'.symm.trans hb)
    exact hr

theorem Rebuilds.successors_normalized {a b : Automaton W} (h : a.Rebuilds b a.normalizedFrom)
    (i : Nat) : b.successors i = a.successors i := by
  rw [successors_eq, successors_eq, h.arcsFrom, normalizedFrom, List.map_map]
  rfl

theorem Rebuilds.retraces_normalized {a b : Automaton W} (h : a.Rebuilds b a.normalizedFrom) :
    a.Retraces b := ⟨h.symbolAt, fun i _ => h.successors_normalized i⟩

end LogAutomata.Automaton
