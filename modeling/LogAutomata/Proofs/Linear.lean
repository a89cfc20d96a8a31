import LogAutomata.Proofs.Embed

/-!
# Chains

`linear` makes a state for each label, a link from each stop to the next, and
nothing else.
-/

namespace LogAutomata.Automaton

variable {W : Type}

def symbolOf (emissions : List (Option Label × Option Int)) (label : Option Label) : Symbol :=
  ⟨(emissions.reverse.lookup label).join, label⟩

/-- The arcs from `i` through `n` states in a row, the first of them at `base`, to Final. -/
def chainArcs (w : W) : Nat → Nat → Nat → List (Arc W)
  | i, _, 0 => [⟨i, 1, w⟩]
  | i, base, n + 1 => ⟨i, base, w⟩ :: chainArcs w base (base + 1) n

-- ---------------------------------------------------------------------------
-- States
-- ---------------------------------------------------------------------------

section
variable (emissions : List (Option Label × Option Int)) (labels : List (Option Label))

def addStates (a : Automaton W) : Automaton W :=
  labels.foldl (fun a label => a.addState none (symbolOf emissions label)) a

theorem size_addStates (a : Automaton W) :
    (addStates emissions labels a).size = a.size + labels.length := by
  unfold addStates
  induction labels generalizing a with
  | nil => rfl
  | cons label labels ih =>
    rw [List.foldl_cons, ih, size_addState, List.length_cons]
    omega

theorem linksFrom_addStates (a : Automaton W) (i : Nat) :
    (addStates emissions labels a).linksFrom i = a.linksFrom i := by
  unfold addStates
  induction labels generalizing a with
  | nil => rfl
  | cons label labels ih => rw [List.foldl_cons, ih, linksFrom_addState]

theorem symbolAt_addStates_of_lt {a : Automaton W} {i : Nat} (hi : i < a.size) :
    (addStates emissions labels a).symbolAt i = a.symbolAt i := by
  unfold addStates
  induction labels generalizing a with
  | nil => rfl
  | cons label labels ih =>
    rw [List.foldl_cons, ih (by rw [size_addState]; exact Nat.lt_succ_of_lt hi), symbolAt_addState,
      if_neg (Nat.ne_of_lt hi)]

theorem symbolAt_addStates {a : Automaton W} {k : Nat} (hk : k < labels.length) :
    (addStates emissions labels a).symbolAt (a.size + k) = symbolOf emissions labels[k] := by
  induction labels generalizing a k with
  | nil => cases hk
  | cons label labels ih =>
    change (addStates emissions labels (a.addState none (symbolOf emissions label))).symbolAt _ = _
    cases k with
    | zero =>
      rw [Nat.add_zero, symbolAt_addStates_of_lt emissions labels
        (by rw [size_addState]; exact Nat.lt_succ_self _), symbolAt_addState, if_pos rfl]
      rfl
    | succ k =>
      have := @ih (a.addState none (symbolOf emissions label)) k (Nat.lt_of_succ_lt_succ hk)
      rw [size_addState, Nat.succ_add_eq_add_succ] at this
      exact this

end

-- ---------------------------------------------------------------------------
-- Links
-- ---------------------------------------------------------------------------

section
variable (w : W)

theorem chainArcs_eq (i base n : Nat) : chainArcs w i base n =
    ((i :: List.range' base n ++ [1]).zip (List.range' base n ++ [1])).map
      fun p : Nat × Nat => ⟨p.1, p.2, w⟩ := by
  induction n generalizing i base with
  | zero => rfl
  | succ n ih =>
    rw [chainArcs, ih, List.range'_succ]
    rfl

theorem map_src_chainArcs (i base n : Nat) :
    (chainArcs w i base n).map Arc.src = i :: List.range' base n := by
  induction n generalizing i base with
  | zero => rfl
  | succ n ih => rw [chainArcs, List.map_cons, ih, List.range'_succ]

theorem map_dest_chainArcs (i base n : Nat) :
    (chainArcs w i base n).map Arc.dest = List.range' base n ++ [1] := by
  induction n generalizing i base with
  | zero => rfl
  | succ n ih => rw [chainArcs, List.map_cons, ih, List.range'_succ, List.cons_append]

theorem map_weight_chainArcs (i base n : Nat) :
    (chainArcs w i base n).map Arc.weight = List.replicate (n + 1) w := by
  induction n generalizing i base with
  | zero => rfl
  | succ n ih =>
    rw [chainArcs, List.map_cons, ih]
    rfl

theorem map_move_chainArcs {f : Nat → Nat} (h1 : f 1 = 1) {i base base' n : Nat}
    (hf : ∀ k, k < n → f (base + k) = base' + k) :
    (chainArcs w i base n).map (Arc.move f) = chainArcs w (f i) base' n := by
  induction n generalizing i base base' with
  | zero =>
    rw [chainArcs, chainArcs, List.map_singleton, Arc.move, h1]
  | succ n ih =>
    have hb : f base = base' := hf 0 (Nat.succ_pos n)
    have rest : ∀ k, k < n → f (base + 1 + k) = base' + 1 + k := by
      intro k hk
      have := hf (k + 1) (Nat.succ_lt_succ hk)
      rwa [← Nat.add_assoc, ← Nat.add_assoc, Nat.add_right_comm base,
        Nat.add_right_comm base'] at this
    rw [chainArcs, chainArcs, List.map_cons, ih rest, Arc.move, hb]

theorem dest_of_mem_chainArcs {i base n : Nat} {r : Arc W} (hr : r ∈ chainArcs w i base n) :
    r.dest = 1 ∨ r.src = i ∧ r.dest = base ∨ base ≤ r.src ∧ r.dest = r.src + 1 := by
  induction n generalizing i base with
  | zero =>
    rw [chainArcs, List.mem_singleton] at hr
    subst hr
    exact .inl rfl
  | succ n ih =>
    rcases List.mem_cons.1 hr with rfl | hr
    · exact .inr (.inl ⟨rfl, rfl⟩)
    · have := ih hr
      omega

end

variable [LogWeight W]

/-- The automaton is one chain that spells these symbols, with one weight on all links. -/
structure IsChain (a : Automaton W) (w : W) (ss : List Symbol) : Prop where
  wellFormed : a.WellFormed
  size_eq : a.size = 2 + ss.length
  symbolAt : ∀ k, (h : k < ss.length) → a.symbolAt (2 + k) = ss[k]
  arcs_perm : a.arcs.Perm (chainArcs w 0 2 ss.length)

theorem linear_ok {w : W} (hw : isUndefined w = false) (labels : List (Option Label))
    (emissions : List (Option Label × Option Int)) :
    ∃ a, linear labels emissions w = .ok a ∧ a.IsChain w (labels.map (symbolOf emissions)) := by
  let chain := addStates emissions labels (empty : Automaton W)
  let rs := chainArcs w 0 2 labels.length
  have size : chain.size = 2 + labels.length := size_addStates emissions labels _
  have inside : ∀ r ∈ rs, r.src < chain.size ∧ r.dest < chain.size := by
    intro r hr
    have hs := List.mem_map_of_mem (f := Arc.src) hr
    have hd := List.mem_map_of_mem (f := Arc.dest) hr
    rw [map_src_chainArcs, List.mem_cons, List.mem_range'_1] at hs
    rw [map_dest_chainArcs, List.mem_append, List.mem_range'_1, List.mem_singleton] at hd
    omega
  have arcs : ((0 :: List.range' 2 labels.length ++ [1]).zip
      (List.range' 2 labels.length ++ [1])).mapM
        (fun p : Nat × Nat => chain.arc? (.inner p.1) (.inner p.2) w) = .ok rs := by
    have hrs : rs = _ := chainArcs_eq w 0 2 labels.length
    rw [hrs]
    refine mapM_ok fun p hp => arc?_eq_ok_iff.2 ⟨rfl, rfl, rfl, ?_⟩
    have hm : (⟨p.1, p.2, w⟩ : Arc W) ∈ rs := by
      rw [hrs]
      exact List.mem_map_of_mem hp
    obtain ⟨h1, h2⟩ := inside _ hm
    exact ⟨h1, h2, hw⟩
  have made : linear labels emissions w = .ok (chain.withArcs rs) := by
    change (((0 :: List.range' 2 labels.length ++ [1]).zip
      (List.range' 2 labels.length ++ [1])).mapM
        (fun p : Nat × Nat => chain.arc? (.inner p.1) (.inner p.2) w) >>= fun arcs =>
          pure (chain.withArcs arcs)) = _
    rw [arcs, ok_bind, pure_eq_ok]
  refine ⟨_, made, .of_grows .empty (grows_of_linear made), ?_, fun k hk => ?_, ?_⟩
  · rw [size_withArcs, size, List.length_map]
  · rw [List.length_map] at hk
    rw [symbolAt_withArcs, List.getElem_map]
    exact symbolAt_addStates emissions labels (a := empty) hk
  · rw [List.length_map]
    have none : chain.arcs = [] := arcs_eq_nil fun i => by rw [linksFrom_addStates, linksFrom_empty]
    have := arcs_withArcs_perm inside
    rwa [none, List.nil_append] at this

end LogAutomata.Automaton
