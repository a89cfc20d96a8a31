import LogAutomata.Proofs.Coalesce
import LogAutomata.Proofs.Minimize
import LogAutomata.Proofs.Reduced
import LogAutomata.Proofs.Sums

/-!
# Rearranged automata

A renaming says that two automata differ in the positions and ids of interior states and
in the order of links, and in nothing else. What is done to each row of links on its own
keeps the renaming if it does not depend on the order of the row.
-/

namespace LogAutomata.Automaton

variable {W : Type} {a a' b b' : Automaton W}

-- ---------------------------------------------------------------------------
-- What a renaming keeps
-- ---------------------------------------------------------------------------

namespace Renaming

namespace KeepsArcs
variable {r : Renaming a b} (h : r.KeepsArcs)
include h

theorem mapsArcs : r.MapsArcs := by
  intro i j w hi hj
  rw [← (h i hi).mem_iff]
  constructor
  · exact fun hw => List.mem_map.2 ⟨(j, w), hw, rfl⟩
  · intro hw
    obtain ⟨e, he, hk⟩ := List.mem_map.1 hw
    obtain ⟨hd, rfl⟩ := Prod.mk.inj hk
    obtain rfl := (r.image_inj (dest_lt_size he) hj).1 hd
    exact he

theorem weights_perm {i : Nat} (hi : i < a.size) :
    ((a.arcsFrom i).map Prod.snd).Perm ((b.arcsFrom (r.image i)).map Prod.snd) := by
  have := (h i hi).map Prod.snd
  rwa [List.map_map] at this

theorem weighted {P : W → Prop} (hw : a.Weighted P) : b.Weighted P := by
  intro k e he
  have hk := src_lt_size he
  rw [← r.image_back k hk, ← (h _ (r.back_lt_size k hk)).mem_iff] at he
  obtain ⟨f, hf, rfl⟩ := List.mem_map.1 he
  exact hw _ f hf

theorem arcs_perm : (a.arcs.map (Arc.move r.image)).Perm b.arcs := by
  have rows : a.arcs.map (Arc.move r.image) = (List.range a.size).flatMap fun i =>
      ((a.arcsFrom i).map fun e => (r.image e.1, e.2)).map fun e => ⟨r.image i, e.1, e.2⟩ := by
    rw [arcs, arcsOf, List.map_flatMap]
    refine List.flatMap_congr fun i _ => ?_
    rw [List.map_map, List.map_map]
    rfl
  have positions : ((List.range a.size).map r.image).Perm (List.range b.size) := by
    refine (List.perm_ext_iff_of_nodup (List.nodup_range.map_on fun i hi j hj => ?_)
      List.nodup_range).2 fun k => ?_
    · exact (r.image_inj (List.mem_range.1 hi) (List.mem_range.1 hj)).1
    · simp only [List.mem_map, List.mem_range]
      constructor
      · rintro ⟨i, hi, rfl⟩
        exact r.lt_size i hi
      · exact fun hk => ⟨r.back k, r.back_lt_size k hk, r.image_back k hk⟩
  rw [rows]
  refine (List.Perm.flatMap_left _ fun i hi => (h i (List.mem_range.1 hi)).map _).trans ?_
  refine .trans (.of_eq ?_) (positions.flatMap_right _)
  rw [List.flatMap_map]

end KeepsArcs

def rebuild [LogWeight W] {row row' : Nat → List (Nat × W)} (r : Renaming a a')
    (h : a.Rebuilds b row) (h' : a'.Rebuilds b' row') : Renaming b b' where
  image := r.image
  back := r.back
  lt_size i hi := h'.size_eq ▸ r.lt_size i (h.size_eq ▸ hi)
  back_lt_size k hk := h.size_eq ▸ r.back_lt_size k (h'.size_eq ▸ hk)
  back_image i hi := r.back_image i (h.size_eq ▸ hi)
  image_back k hk := r.image_back k (h'.size_eq ▸ hk)
  init := r.init
  final := r.final
  symbolAt i hi := by rw [h'.symbolAt, h.symbolAt, r.symbolAt i (h.size_eq ▸ hi)]

theorem keepsArcs_rebuild [LogWeight W] {row row' : Nat → List (Nat × W)} {r : Renaming a a'}
    (h : a.Rebuilds b row) (h' : a'.Rebuilds b' row')
    (rows : ∀ i, i < a.size → ((row i).map fun e => (r.image e.1, e.2)).Perm (row' (r.image i))) :
    (r.rebuild h h').KeepsArcs := by
  intro i hi
  rw [h.arcsFrom, h'.arcsFrom]
  exact rows i (h.size_eq ▸ hi)

end Renaming

-- ---------------------------------------------------------------------------
-- Rows
-- ---------------------------------------------------------------------------

def Agree (R : Automaton W → Automaton W → Prop) (x y : Except Fault (Automaton W)) : Prop :=
  ∃ b b', x = .ok b ∧ y = .ok b' ∧ R b b'

variable [LogWeight W] [@Std.Commutative W logAdd] [@Std.Associative W logAdd]

namespace Renaming.KeepsArcs
variable {r : Renaming a a'} (h : r.KeepsArcs)
include h

omit [LogWeight W] [@Std.Commutative W logAdd] [@Std.Associative W logAdd] in
theorem entriesAt_perm {i j : Nat} (hi : i < a.size) (hj : j < a.size) :
    (entriesAt (a.arcsFrom i) j).Perm (entriesAt (a'.arcsFrom (r.image i)) (r.image j)) := by
  have := ((h i hi).filter fun e => e.1 = r.image j).map Prod.snd
  rw [List.filter_map, List.map_map] at this
  refine .trans (.of_eq (congrArg (List.map Prod.snd) (List.filter_congr fun e he => ?_))) this
  exact decide_eq_decide.2 (r.image_inj (dest_lt_size he) hj).symm

theorem coalesced {i : Nat} (hi : i < a.size) :
    ((a.coalescedFrom i).map fun e => (r.image e.1, e.2)).Perm (a'.coalescedFrom (r.image i)) := by
  refine r.row_perm ((a.nodup_coalescedFrom i).of_map _) ((a'.nodup_coalescedFrom _).of_map _)
    (fun _ => dest_lt_size_coalescedFrom) (fun _ => dest_lt_size_coalescedFrom) fun j w hj => ?_
  have hp := h.entriesAt_perm hi hj
  rw [mem_coalescedFrom_iff, mem_coalescedFrom_iff, logSum_perm hp, ne_eq, ne_eq,
    ← List.length_eq_zero_iff, hp.length_eq, List.length_eq_zero_iff]

theorem normalizer_eq {i : Nat} (hi : i < a.size) :
    normalizer ((a.arcsFrom i).map Prod.snd) =
      normalizer ((a'.arcsFrom (r.image i)).map Prod.snd) := by
  rw [normalizer, normalizer, logSum_perm (h.weights_perm hi)]

theorem normalized {i : Nat} (hi : i < a.size) :
    ((a.normalizedFrom i).map fun e => (r.image e.1, e.2)).Perm
      (a'.normalizedFrom (r.image i)) := by
  have := (h i hi).map fun e =>
    (e.1, e.2 - normalizer ((a'.arcsFrom (r.image i)).map Prod.snd))
  rw [normalizedFrom, normalizedFrom, h.normalizer_eq hi, List.map_map]
  rwa [List.map_map] at this

end Renaming.KeepsArcs

theorem coalesce_isomorphic [DefinedSums W] (ha : a.WellFormed) (ha' : a'.WellFormed)
    (h : a.Isomorphic a') : Agree Isomorphic a.coalesce a'.coalesce := by
  obtain ⟨r, hr⟩ := h
  obtain ⟨b, hb, h⟩ := coalesce_ok ha
  obtain ⟨b', hb', h'⟩ := coalesce_ok ha'
  exact ⟨b, b', hb, hb', r.rebuild h h',
    Renaming.keepsArcs_rebuild h h' fun _ hi => hr.coalesced hi⟩

theorem normalize_isomorphic {a a' : Automaton ExactWeight} (ha : a.WellFormed)
    (ha' : a'.WellFormed) (hw : a.Weighted ExactWeight.Proper) (h : a.Isomorphic a') :
    Agree Isomorphic a.normalize a'.normalize := by
  obtain ⟨r, hr⟩ := h
  obtain ⟨b, hb, h⟩ := normalize_proper ha hw
  obtain ⟨b', hb', h'⟩ := normalize_proper ha' (hr.weighted hw)
  exact ⟨b, b', hb, hb', r.rebuild h h',
    Renaming.keepsArcs_rebuild h h' fun _ hi => hr.normalized hi⟩

end LogAutomata.Automaton
