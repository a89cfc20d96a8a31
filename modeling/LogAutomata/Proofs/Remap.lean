import LogAutomata.Proofs.Arcs
import LogAutomata.Proofs.Checks

/-!
# What remapping does

If all states are kept, the copies stand behind the states of the target, in
their order, and links are carried along the table without a fault.
-/

namespace LogAutomata

def Table.Sends (t : Table) (n : Nat) (image : Nat → Nat) : Prop :=
  ∀ i, i < n → t[i]? = some (some (.inner (image i)))

def relocate (init final base : Nat) : Nat → Nat
  | 0 => init
  | 1 => final
  | i + 2 => base + i

theorem relocate_two (i : Nat) : relocate 0 1 2 i = i := by
  rcases i with _ | _ | i
  · rfl
  · rfl
  · exact Nat.add_comm 2 i

namespace Automaton

variable {W : Type}

-- ---------------------------------------------------------------------------
-- Copies
-- ---------------------------------------------------------------------------

section
variable {r : Remap} (hk : ∀ s, r.keep s = true)
include hk

theorem foldl_copyState_table (ss : List (State W)) (table : Table) (target : Automaton W) :
    (ss.foldl (copyState r) (table, target)).1.toList =
      table.toList ++ (List.range' target.size ss.length).map fun i => some (.inner i) := by
  induction ss generalizing table target with
  | nil => simp
  | cons s ss ih =>
    rw [List.foldl_cons, copyState, if_pos (hk s.symbol), ih]
    simp [List.range'_succ]

theorem foldl_copyState_size (ss : List (State W)) (table : Table) (target : Automaton W) :
    (ss.foldl (copyState r) (table, target)).2.size = target.size + ss.length := by
  induction ss generalizing table target with
  | nil => rfl
  | cons s ss ih =>
    rw [List.foldl_cons, copyState, if_pos (hk s.symbol), ih, size_addState, List.length_cons]
    exact Nat.add_right_comm _ _ _

theorem foldl_copyState_symbolAt (ss : List (State W)) (table : Table) (target : Automaton W)
    (i : Nat) :
    (ss.foldl (copyState r) (table, target)).2.symbolAt i =
      if i < target.size then target.symbolAt i
      else (ss[i - target.size]?.map (·.symbol)).getD .nil := by
  induction ss generalizing table target with
  | nil =>
    split
    · rfl
    · next h =>
      have := Nat.le_of_not_lt h
      simp only [size] at this
      simp [symbolAt, Array.getElem?_eq_none this]
  | cons s ss ih =>
    rw [List.foldl_cons, copyState, if_pos (hk s.symbol), ih, size_addState, symbolAt_addState]
    rcases Nat.lt_trichotomy i target.size with h | rfl | h
    · simp [h, Nat.ne_of_lt h, Nat.lt_succ_of_lt h]
    · simp
    · have h1 : ¬i < target.size := Nat.lt_asymm h
      have h2 : ¬i < target.size + 1 := Nat.not_lt.2 h
      have h3 : i - target.size = (i - (target.size + 1)) + 1 := by omega
      rw [if_neg h2, if_neg h1, h3, List.getElem?_cons_succ]

end

theorem foldl_copyState_linksFrom (r : Remap) (ss : List (State W)) (table : Table)
    (target : Automaton W) (i : Nat) :
    (ss.foldl (copyState r) (table, target)).2.linksFrom i = target.linksFrom i := by
  induction ss generalizing table target with
  | nil => rfl
  | cons s ss ih =>
    rw [List.foldl_cons, copyState]
    split
    · rw [ih, linksFrom_addState]
    · exact ih _ _

-- ---------------------------------------------------------------------------
-- The table and the target
-- ---------------------------------------------------------------------------

theorem length_interior (a : Automaton W) : a.interior.length = a.size - 2 := by
  simp [interior, size]

theorem symbolAt_of_interior {a : Automaton W} {i : Nat} {s : State W}
    (h : a.interior[i]? = some s) : a.symbolAt (i + 2) = s.symbol := by
  have at_i : a.states[i + 2]? = some s := by simpa [interior, Nat.add_comm 2 i] using h
  simp [symbolAt, at_i]

theorem symbols_interior (a : Automaton W) : a.interior.map (·.symbol) =
    (List.range (a.size - 2)).map fun i => a.symbolAt (i + 2) := by
  refine List.ext_getElem? fun i => ?_
  by_cases hi : i < a.size - 2
  · have : i < a.interior.length := by rwa [length_interior]
    have hs := List.getElem?_eq_getElem this
    simp [hi, hs, symbolAt_of_interior hs]
  · have : a.interior.length ≤ i := by rw [length_interior]; omega
    simp [hi, List.getElem?_eq_none this]

@[simp]
theorem remap_linksFrom (a : Automaton W) (r : Remap) (target : Automaton W) (i : Nat) :
    (a.remap r target).2.linksFrom i = target.linksFrom i :=
  foldl_copyState_linksFrom r _ _ _ i

section
variable {r : Remap} (hk : ∀ s, r.keep s = true)
include hk

theorem remap_size (a : Automaton W) (target : Automaton W) :
    (a.remap r target).2.size = target.size + (a.size - 2) := by
  rw [remap, foldl_copyState_size hk, length_interior]

theorem remap_symbolAt_of_lt (a : Automaton W) {target : Automaton W} {i : Nat}
    (h : i < target.size) : (a.remap r target).2.symbolAt i = target.symbolAt i := by
  rw [remap, foldl_copyState_symbolAt hk, if_pos h]

theorem remap_symbolAt_add (a : Automaton W) (target : Automaton W) (i : Nat) :
    (a.remap r target).2.symbolAt (target.size + i) = a.symbolAt (i + 2) := by
  rw [remap, foldl_copyState_symbolAt hk, if_neg (Nat.not_lt.2 (Nat.le_add_right _ _))]
  simp [interior, symbolAt, Nat.add_comm 2 i]

theorem remap_sends (a : Automaton W) (target : Automaton W) {init final : Nat}
    (hi : r.init = .inner init) (hf : r.final = .inner final) :
    (a.remap r target).1.Sends a.size (relocate init final target.size) := by
  intro i h
  rw [remap, ← Array.getElem?_toList, foldl_copyState_table hk, hi, hf]
  rcases i with _ | _ | i
  · rfl
  · rfl
  · have hi : i < a.interior.length := by
      rw [length_interior]
      omega
    simp [hi, relocate]

end

theorem relocate_lt_size (a : Automaton W) {target : Automaton W} {init final : Nat}
    (hi : init < target.size) (hf : final < target.size) {i : Nat} (h : i < a.size) :
    relocate init final target.size i < target.size + (a.size - 2) := by
  rcases i with _ | _ | i
  · exact Nat.lt_add_right _ hi
  · exact Nat.lt_add_right _ hf
  · simp only [relocate]
    omega

-- ---------------------------------------------------------------------------
-- Links
-- ---------------------------------------------------------------------------

theorem mapped_inner {a : Automaton W} {table : Table} {i k : Nat} (h : i < a.size)
    (ht : table[i]? = some (some (.inner k))) (operation : String) :
    a.mapped table operation (.inner i) = .ok (.inner k) := by
  have ho : a.owned operation (.inner i) = .ok i := owned_eq_ok_iff.2 ⟨rfl, h⟩
  rw [mapped, ho, ok_bind, ht]
  rfl

theorem mapped_ok {a : Automaton W} {table : Table} {image : Nat → Nat}
    (ht : table.Sends a.size image) (operation : String) {i : Nat} (h : i < a.size) :
    a.mapped table operation (.inner i) = .ok (.inner (image i)) :=
  mapped_inner h (ht i h) operation

theorem member_eq_ok_iff {a : Automaton W} {e : Endpoint} {i : Nat} :
    a.member e = .ok i ↔ e = .inner i ∧ i < a.size := by
  rw [← position?_eq_some_iff, member]
  cases a.position? e <;> simp

variable [LogWeight W]

/-- The arc lies inside the automaton and has a weight that a link may have. -/
structure Fits (a : Automaton W) (r : Arc W) : Prop where
  src : r.src < a.size
  dest : r.dest < a.size
  defined : isUndefined r.weight = false

theorem arc?_eq_ok_iff {a : Automaton W} {e f : Endpoint} {w : W} {r : Arc W} :
    a.arc? e f w = .ok r ↔ e = .inner r.src ∧ f = .inner r.dest ∧ w = r.weight ∧ a.Fits r := by
  rw [arc?]
  cases hw : isUndefined w with
  | true =>
    constructor
    · exact fun h => nomatch h
    · rintro ⟨-, -, rfl, h⟩
      rw [h.defined] at hw
      cases hw
  | false =>
    simp only [Bool.false_eq_true, if_false, pure_eq_ok, bind_ok, member_eq_ok_iff,
      Except.ok.injEq]
    constructor
    · rintro ⟨i, ⟨rfl, hi⟩, j, ⟨rfl, hj⟩, rfl⟩
      exact ⟨rfl, rfl, rfl, hi, hj, hw⟩
    · rintro ⟨rfl, rfl, rfl, h⟩
      exact ⟨r.src, ⟨rfl, h.src⟩, r.dest, ⟨rfl, h.dest⟩, rfl⟩

theorem fits_of_carry {a target : Automaton W} {starts arrivals : Table} {operation : String}
    {ls : List (Link W)} {arcs : List (Arc W)}
    (h : a.carry starts arrivals operation target ls = .ok arcs) :
    ∀ r ∈ arcs, target.Fits r := by
  intro r hr
  obtain ⟨l, -, hl⟩ := mem_of_mapM_eq_ok h hr
  simp only [bind_ok] at hl
  obtain ⟨src, -, dest, -, hl⟩ := hl
  exact (arc?_eq_ok_iff.1 hl).2.2.2

theorem carry_ok {a target : Automaton W} {starts arrivals : Table} {f g : Nat → Nat}
    (hs : starts.Sends a.size f) (hd : arrivals.Sends a.size g) (operation : String)
    {arcs : List (Arc W)} (inside : ∀ r ∈ arcs, r.src < a.size ∧ r.dest < a.size)
    (fits : ∀ r ∈ arcs, target.Fits ⟨f r.src, g r.dest, r.weight⟩) :
    a.carry starts arrivals operation target (arcs.map Arc.toLink) =
      .ok (arcs.map fun r => ⟨f r.src, g r.dest, r.weight⟩) := by
  rw [carry, mapM_map]
  refine mapM_ok fun r hr => ?_
  obtain ⟨h1, h2⟩ := inside r hr
  simp only [Arc.toLink, mapped_ok hs operation h1, mapped_ok hd operation h2, ok_bind]
  exact arc?_eq_ok_iff.2 ⟨rfl, rfl, rfl, fits r hr⟩

end Automaton

end LogAutomata
