import LogAutomata.Proofs.Embed
import LogAutomata.Proofs.Ledger

/-!
# What coalescing does

The tally of all links, read for the links of one state, is the tally of those links. So
the states stay as they are, and each has one link to each of its targets, with the
log-sum of the weights, in the place of the first link to that target.
-/

namespace LogAutomata

-- ---------------------------------------------------------------------------
-- Rows
-- ---------------------------------------------------------------------------

section
variable {α β γ : Type} [DecidableEq α]

/-- The entries whose key begins with `i`, by the rest of the key. -/
def rowOf (i : α) (es : List ((α × β) × γ)) : List (β × γ) :=
  (es.filter fun e => e.1.1 = i).map fun e => (e.1.2, e.2)

theorem rowOf_cons (i : α) (e : (α × β) × γ) (es : List ((α × β) × γ)) :
    rowOf i (e :: es) = if e.1.1 = i then (e.1.2, e.2) :: rowOf i es else rowOf i es := by
  by_cases hi : e.1.1 = i <;> simp [rowOf, hi]

theorem rowOf_concat (i : α) (es : List ((α × β) × γ)) (e : (α × β) × γ) :
    rowOf i (es ++ [e]) = rowOf i es ++ if e.1.1 = i then [(e.1.2, e.2)] else [] := by
  by_cases hi : e.1.1 = i <;> simp [rowOf, hi]

theorem mem_rowOf_iff {i : α} {es : List ((α × β) × γ)} {e : β × γ} :
    e ∈ rowOf i es ↔ ((i, e.1), e.2) ∈ es := by
  induction es with
  | nil => simp [rowOf]
  | cons x es ih =>
    obtain ⟨⟨j, k⟩, v⟩ := x
    obtain ⟨k', v'⟩ := e
    rw [rowOf_cons]
    by_cases hi : j = i
    · simp [hi, ih]
    · simp [hi, ih, Ne.symm hi]

variable [DecidableEq β]

theorem rowOf_alterEntries (i : α) (key : α × β) (f : Option γ → γ)
    (es : List ((α × β) × γ)) : rowOf i (Ledger.alterEntries key f es) =
      if key.1 = i then Ledger.alterEntries key.2 f (rowOf i es) else rowOf i es := by
  induction es with
  | nil => by_cases hi : key.1 = i <;> simp [rowOf, Ledger.alterEntries, hi]
  | cons e es ih =>
    obtain ⟨k, v⟩ := e
    by_cases hk : k = key
    · subst hk
      by_cases hi : k.1 = i <;> simp [Ledger.alterEntries, rowOf_cons, hi]
    · rw [Ledger.alterEntries, if_neg hk, rowOf_cons, rowOf_cons, ih]
      by_cases hi : key.1 = i
      · by_cases hj : k.1 = i
        · have hne : ¬k.2 = key.2 := fun he => hk (Prod.ext (hj.trans hi.symm) he)
          simp [hi, hj, hne, Ledger.alterEntries]
        · simp [hi, hj]
      · simp [hi]

theorem rowOf_tally [LogWeight γ] (i : α) (es : List ((α × β) × γ)) :
    rowOf i (tally es).toList = (tally (rowOf i es)).toList := by
  induction es using List.reverseRecOn with
  | nil => rfl
  | append_singleton es e ih =>
    rw [tally_concat, Ledger.toList_alter, rowOf_alterEntries, ih, rowOf_concat]
    by_cases hi : e.1.1 = i
    · rw [if_pos hi, if_pos hi, tally_concat, Ledger.toList_alter]
    · rw [if_neg hi, if_neg hi, List.append_nil]

end

-- ---------------------------------------------------------------------------
-- Coalescing
-- ---------------------------------------------------------------------------

def Arc.entry {W : Type} (r : Arc W) : (Nat × Nat) × W := ((r.src, r.dest), r.weight)

def Arc.ofEntry {W : Type} (e : (Nat × Nat) × W) : Arc W := ⟨e.1.1, e.1.2, e.2⟩

namespace Automaton

variable {W : Type}

theorem rowOf_arcs (a : Automaton W) (i : Nat) :
    rowOf i (a.arcs.map Arc.entry) = a.arcsFrom i := by
  rw [← filter_src_arcs, rowOf, List.filter_map, List.map_map]
  rfl

variable [LogWeight W]

def coalescedFrom (a : Automaton W) (i : Nat) : List (Nat × W) := (tally (a.arcsFrom i)).toList

theorem nodup_coalescedFrom (a : Automaton W) (i : Nat) :
    ((a.coalescedFrom i).map Prod.fst).Nodup := nodup_keys_tally (a.arcsFrom i)

theorem mem_coalescedFrom_iff {a : Automaton W} {i j : Nat} {w : W} :
    (j, w) ∈ a.coalescedFrom i ↔
      entriesAt (a.arcsFrom i) j ≠ [] ∧ w = logSum (entriesAt (a.arcsFrom i) j) := mem_tally_iff

theorem dest_lt_size_coalescedFrom {a : Automaton W} {i : Nat} {e : Nat × W}
    (he : e ∈ a.coalescedFrom i) : e.1 < a.size := by
  obtain ⟨w, hw⟩ := exists_of_mem_tally he
  exact dest_lt_size (e := (e.1, w)) hw

theorem fits_coalescedFrom [DefinedSums W] {a : Automaton W} (ha : a.WellFormed) {i : Nat}
    {e : Nat × W} (he : e ∈ a.coalescedFrom i) : a.Fits ⟨i, e.1, e.2⟩ := by
  obtain ⟨v, hv⟩ := exists_of_mem_tally he
  exact ⟨src_lt_size hv, dest_lt_size_coalescedFrom he,
    defined_of_mem_tally (fun e he => ha.weight_defined he) he⟩

theorem entries_ok {a : Automaton W} (ha : a.WellFormed) :
    (a.links.mapM fun l => do
      let src ← a.owned "coalesce" l.src
      let dest ← a.owned "coalesce" l.dest
      return ((src, dest), l.weight)) = .ok (a.arcs.map Arc.entry) := by
  rw [ha.links_eq, mapM_map]
  refine mapM_ok fun r hr => ?_
  have hs : a.owned "coalesce" (.inner r.src) = .ok r.src :=
    owned_eq_ok_iff.2 ⟨rfl, (ha.fits hr).src⟩
  have hd : a.owned "coalesce" (.inner r.dest) = .ok r.dest :=
    owned_eq_ok_iff.2 ⟨rfl, (ha.fits hr).dest⟩
  simp only [Arc.toLink, hs, hd, ok_bind]
  rfl

theorem mapM_arc?_ok {target : Automaton W} {es : List ((Nat × Nat) × W)}
    (fits : ∀ e ∈ es, target.Fits (Arc.ofEntry e)) :
    es.mapM (fun e => target.arc? (.inner e.1.1) (.inner e.1.2) e.2) =
      .ok (es.map Arc.ofEntry) :=
  mapM_ok fun e he => arc?_eq_ok_iff.2 ⟨rfl, rfl, rfl, fits e he⟩

theorem coalesce_ok [DefinedSums W] {a : Automaton W} (ha : a.WellFormed) :
    ∃ b, a.coalesce = .ok b ∧ a.Rebuilds b a.coalescedFrom := by
  have row : ∀ i, rowOf i (tally (a.arcs.map Arc.entry)).toList = a.coalescedFrom i := by
    intro i
    rw [rowOf_tally, rowOf_arcs, coalescedFrom]
  have fits : ∀ r ∈ (tally (a.arcs.map Arc.entry)).toList.map Arc.ofEntry, a.Fits r := by
    intro r hr
    obtain ⟨e, he, rfl⟩ := List.mem_map.1 hr
    have := mem_rowOf_iff (e := (e.1.2, e.2)).2 he
    rw [row] at this
    exact fits_coalescedFrom ha this
  have h := rebuilds_withArcs ha fits
  refine ⟨_, ?_, h.wellFormed, h.size_eq, h.symbolAt, fun i => ?_⟩
  · have size := h.size_eq
    rw [size_withArcs] at size
    have joined := mapM_arc?_ok fun e (he : e ∈ (tally (a.arcs.map Arc.entry)).toList) => by
      obtain ⟨h1, h2, h3⟩ := fits _ (List.mem_map_of_mem he)
      exact Fits.mk (size ▸ h1) (size ▸ h2) h3
    rw [coalesce, entries_ok ha]
    exact congrArg (Except.map (a.remap {} empty).2.withArcs) joined
  · rw [h.arcsFrom, ← row, rowOf, List.filter_map, List.map_map]
    rfl

end Automaton

end LogAutomata
