import LogAutomata.Proofs.WellFormed

/-!
# Copies of some states

If a remapping does not keep all states, the copies of those that are kept close
ranks: each stands behind as many copies as kept states come before its model.
-/

namespace LogAutomata

-- ---------------------------------------------------------------------------
-- Ranks in a list
-- ---------------------------------------------------------------------------

section
variable {α : Type} {p : α → Bool} {xs : List α} {i j n : Nat} {x : α}

theorem getElem?_filter_countP (hx : xs[i]? = some x) (hp : p x = true) :
    (xs.filter p)[(xs.take i).countP p]? = some x := by
  induction xs generalizing i with
  | nil => simp at hx
  | cons y ys ih =>
    cases i with
    | zero =>
      obtain rfl : y = x := by simpa using hx
      simp [hp]
    | succ i =>
      have := ih (i := i) (by simpa using hx)
      by_cases hy : p y = true
      · simpa [hy] using this
      · simpa [hy] using this

theorem countP_take_lt (hx : xs[i]? = some x) (hp : p x = true) (h : i < j) :
    (xs.take i).countP p < (xs.take j).countP p := by
  have next : (xs.take (i + 1)).countP p = (xs.take i).countP p + 1 := by
    simp [List.take_add_one, hx, hp]
  have : (xs.take (i + 1)).Sublist (xs.take j) := (List.take_sublist_take_left h)
  have := this.countP_le (p := p)
  omega

theorem exists_of_lt_countP (h : n < xs.countP p) :
    ∃ i x, xs[i]? = some x ∧ p x = true ∧ (xs.take i).countP p = n := by
  induction xs generalizing n with
  | nil => simp at h
  | cons y ys ih =>
    by_cases hy : p y = true
    · cases n with
      | zero => exact ⟨0, y, by simp [hy]⟩
      | succ n =>
        obtain ⟨i, x, hx, hp, hn⟩ := ih (n := n) (by simpa [hy] using h)
        exact ⟨i + 1, x, by simpa using hx, hp, by simp [hy, hn]⟩
    · obtain ⟨i, x, hx, hp, hn⟩ := ih (n := n) (by simpa [hy] using h)
      exact ⟨i + 1, x, by simpa using hx, hp, by simp [hy, hn]⟩

end

namespace Automaton

variable {W : Type}

-- ---------------------------------------------------------------------------
-- The copies
-- ---------------------------------------------------------------------------

section
variable (r : Remap) (ss : List (State W)) (table : Table) (target : Automaton W)

theorem symbols_foldl_copyState :
    (ss.foldl (copyState r) (table, target)).2.states.toList.map (·.symbol) =
      target.states.toList.map (·.symbol) ++
        (ss.filter fun s => r.keep s.symbol).map (·.symbol) := by
  induction ss generalizing table target with
  | nil => simp
  | cons s ss ih =>
    rw [List.foldl_cons, copyState]
    by_cases hs : r.keep s.symbol = true
    · simp [hs, ih, addState]
    · simp [hs, ih]

theorem table_foldl_copyState_of_lt {i : Nat} (hi : i < table.size) :
    (ss.foldl (copyState r) (table, target)).1[i]? = table[i]? := by
  induction ss generalizing table target with
  | nil => rfl
  | cons s ss ih =>
    have pushed : ∀ e, (table.push e)[i]? = table[i]? := fun e => by
      rw [Array.getElem?_push, if_neg (Nat.ne_of_lt hi)]
    rw [List.foldl_cons, copyState]
    split
    · rw [ih _ _ (by simp; omega), pushed]
    · rw [ih _ _ (by simp; omega), pushed]

theorem table_foldl_copyState {i : Nat} {s : State W} (hs : ss[i]? = some s)
    (keep : r.keep s.symbol = true) :
    (ss.foldl (copyState r) (table, target)).1[table.size + i]? =
      some (some (.inner (target.size + (ss.take i).countP fun s => r.keep s.symbol))) := by
  induction ss generalizing table target i with
  | nil => simp at hs
  | cons t ss ih =>
    cases i with
    | zero =>
      obtain rfl : t = s := by simpa using hs
      rw [List.foldl_cons, copyState, if_pos keep, table_foldl_copyState_of_lt _ _ _ _ (by simp)]
      simp
    | succ i =>
      have hs : ss[i]? = some s := by simpa using hs
      rw [List.foldl_cons, copyState, Nat.add_comm i, ← Nat.add_assoc]
      by_cases ht : r.keep t.symbol = true
      · rw [if_pos ht]
        have := ih (table.push (some (.inner target.size)))
          (target.addState (if r.keepIds then some t.id else none) t.symbol) hs
        rw [Array.size_push, size_addState] at this
        rw [this]
        simp [ht, Nat.add_comm 1, Nat.add_assoc]
      · rw [if_neg ht]
        have := ih (table.push none) target hs
        rw [Array.size_push] at this
        rw [this]
        simp [ht, Nat.add_comm]

end

-- ---------------------------------------------------------------------------
-- Where the kept states go
-- ---------------------------------------------------------------------------

def keptImage (a : Automaton W) (keep : Symbol → Bool) : Nat → Nat
  | 0 => 0
  | 1 => 1
  | i + 2 => 2 + (a.interior.take i).countP fun s => keep s.symbol

/-- The sentinels are kept, and the interior states that are to be. -/
def Keeps (a : Automaton W) (keep : Symbol → Bool) (i : Nat) : Prop :=
  i < 2 ∨ i < a.size ∧ keep (a.symbolAt i) = true

section
variable {a : Automaton W} {keep : Symbol → Bool} {i j : Nat}

theorem Keeps.exists_state (h : a.Keeps keep (i + 2)) :
    ∃ s, a.interior[i]? = some s ∧ keep s.symbol = true ∧ s.symbol = a.symbolAt (i + 2) := by
  obtain h | ⟨hlt, hk⟩ := h
  · omega
  · have : i < a.interior.length := by
      rw [length_interior]
      omega
    have same := symbolAt_of_interior (List.getElem?_eq_getElem this)
    exact ⟨a.interior[i], List.getElem?_eq_getElem this, same ▸ hk, same.symm⟩

theorem keptImage_inj (hi : a.Keeps keep i) (hj : a.Keeps keep j)
    (h : a.keptImage keep i = a.keptImage keep j) : i = j := by
  rcases i with _ | _ | i <;> rcases j with _ | _ | j <;> simp only [keptImage] at h <;> try omega
  obtain ⟨s, hs, ks, -⟩ := hi.exists_state
  obtain ⟨t, ht, kt, -⟩ := hj.exists_state
  rcases Nat.lt_trichotomy i j with hlt | rfl | hlt
  · have := countP_take_lt (p := fun s => keep s.symbol) hs ks hlt
    omega
  · rfl
  · have := countP_take_lt (p := fun s => keep s.symbol) ht kt hlt
    omega

theorem remap_table (h : a.Keeps keep i) :
    (a.remap { keep } empty).1[i]? = some (some (.inner (a.keptImage keep i))) := by
  rcases i with _ | _ | i
  · exact table_foldl_copyState_of_lt _ _ _ _ Nat.two_pos
  · exact table_foldl_copyState_of_lt _ _ _ _ Nat.one_lt_two
  · obtain ⟨s, hs, ks, -⟩ := h.exists_state
    have := table_foldl_copyState { keep } a.interior
      #[some (.inner 0), some (.inner 1)] (empty : Automaton W) hs ks
    rwa [Nat.add_comm] at this

theorem symbols_remap (a : Automaton W) (keep : Symbol → Bool) :
    (a.remap { keep } empty).2.states.toList.map (·.symbol) =
      .nil :: .nil :: (a.interior.filter fun s => keep s.symbol).map (·.symbol) :=
  symbols_foldl_copyState { keep } a.interior _ _

theorem size_remap (a : Automaton W) (keep : Symbol → Bool) :
    (a.remap { keep } empty).2.size = 2 + a.interior.countP fun s => keep s.symbol := by
  have := congrArg List.length (symbols_remap a keep)
  simp only [List.length_map, Array.length_toList, List.length_cons] at this
  rw [size, this, List.countP_eq_length_filter]
  omega

theorem symbolAt_eq_symbols (a : Automaton W) (i : Nat) :
    a.symbolAt i = ((a.states.toList.map (·.symbol))[i]?).getD .nil := by
  simp [symbolAt]

theorem symbolAt_remap (h : a.Keeps keep (i + 2)) :
    (a.remap { keep } empty).2.symbolAt (a.keptImage keep (i + 2)) = a.symbolAt (i + 2) := by
  obtain ⟨s, hs, ks, same⟩ := h.exists_state
  rw [symbolAt_eq_symbols, symbols_remap, keptImage, Nat.add_comm 2, List.getElem?_cons_succ,
    List.getElem?_cons_succ, List.getElem?_map, getElem?_filter_countP hs ks, ← same]
  rfl

theorem keptImage_lt_size (h : a.Keeps keep i) :
    a.keptImage keep i < (a.remap { keep } empty).2.size := by
  rw [size_remap]
  rcases i with _ | _ | i
  · exact Nat.add_pos_left Nat.two_pos _
  · exact Nat.lt_add_right _ Nat.one_lt_two
  · obtain ⟨s, hs, ks, -⟩ := h.exists_state
    have below := countP_take_lt (p := fun s => keep s.symbol) hs ks
      (List.getElem?_eq_some_iff.1 hs).1
    rw [List.take_length] at below
    exact Nat.add_lt_add_left below 2

theorem exists_keptImage_eq {k : Nat} (h2 : 2 ≤ k) (hk : k < (a.remap { keep } empty).2.size) :
    ∃ i, 2 ≤ i ∧ a.Keeps keep i ∧ a.keptImage keep i = k := by
  rw [size_remap] at hk
  have behind : k - 2 < a.interior.countP fun s => keep s.symbol := by omega
  obtain ⟨i, s, hs, ks, hn⟩ := exists_of_lt_countP behind
  have hlt := (List.getElem?_eq_some_iff.1 hs).1
  rw [length_interior] at hlt
  refine ⟨i + 2, Nat.le_add_left 2 i, .inr ⟨by omega, by rwa [symbolAt_of_interior hs]⟩, ?_⟩
  rw [keptImage, hn]
  omega

end

end Automaton

end LogAutomata
