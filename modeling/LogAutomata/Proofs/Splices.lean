import LogAutomata.Proofs.Union

/-!
# What a concatenation is made of

A concatenation is made of copies in a row. Where one of them ends the next one begins, and
they have no other state in common. The states at which they meet have no symbol.
-/

namespace LogAutomata.Automaton

variable {W : Type} [LogWeight W]

/-- `c` is made of `n` copies, of which each leads from one joint to the next. Two of them
have the same state only as Final of the one and Init of the other. -/
structure Splices (c : Automaton W) (part : Nat → Part W) (joint : Nat → Nat) (n : Nat) : Prop where
  wellFormed : c.WellFormed
  madeOf : c.MadeOf part
  none : ∀ k, n ≤ k → part k = .none
  start : joint 0 = 0
  spans : ∀ k, k < n → c.Spans (part k) (joint k) (joint (k + 1))
  meet : ∀ k l i j, k < n → l < n → i < (part k).model.size → j < (part l).model.size →
    (part k).source i = (part l).source j →
      k = l ∧ i = j ∨ i = 1 ∧ j = 0 ∧ l = k + 1 ∨ i = 0 ∧ j = 1 ∧ k = l + 1

theorem splices_empty : (empty : Automaton W).Splices (fun _ => .none) (fun _ => 0) 0 where
  wellFormed := .empty
  madeOf := unites_empty.madeOf
  none _ _ := rfl
  start := rfl
  spans _ hk := absurd hk (Nat.not_lt_zero _)
  meet _ _ _ _ hk := absurd hk (Nat.not_lt_zero _)

namespace Splices

variable {t u a : Automaton W} {part : Nat → Part W} {joint : Nat → Nat} {n : Nat}
  (h : t.Splices part joint n)
include h

theorem joint_cases {k : Nat} (hk : k ≤ n) :
    joint k = 0 ∨ ∃ l, l < n ∧ joint k = (part l).source 1 := by
  cases k with
  | zero => exact .inl h.start
  | succ l => exact .inr ⟨l, hk, (h.spans l hk).final.symm⟩

theorem joint_lt_size {k : Nat} (hk : k ≤ n) : joint k < t.size := by
  rcases h.joint_cases hk with h0 | ⟨l, hl, h1⟩
  · have := h.wellFormed.two_le_size
    omega
  · exact h1 ▸ (h.spans l hl).lt_size 1 (h.spans l hl).model.two_le_size

theorem symbolAt_joint {k : Nat} (hk : k ≤ n) : t.symbolAt (joint k) = .nil := by
  rcases h.joint_cases hk with h0 | ⟨l, hl, h1⟩
  · rw [h0, h.wellFormed.symbolAt_zero]
  · have hp := h.spans l hl
    rw [h1, hp.symbolAt 1 hp.model.two_le_size, hp.model.symbolAt_one]

theorem addState : (t.addState Option.none .nil).Splices part joint n where
  wellFormed := h.wellFormed.addState _ _
  madeOf := h.madeOf.congr fun y => by simp only [arcAt, h.wellFormed.arcsFrom_addState]
  none := h.none
  start := h.start
  spans k hk := (h.spans k hk).mono (by simp) fun i hi => by
    rw [symbolAt_addState, if_neg (Nat.ne_of_lt hi)]
  meet := h.meet

/-- A copy from the last joint on to a state that no copy has touches the others only where the
last of them ends. -/
theorem meet_next {final : Nat}
    (unused : ∀ k, k < n → ∀ i, i < (part k).model.size → (part k).source i ≠ final)
    {i l j : Nat} (hl : l < n) (hj : j < (part l).model.size)
    (he : (a.copyInto t (joint n) final).source i = (part l).source j) :
    i = 0 ∧ j = 1 ∧ n = l + 1 := by
  rcases i with _ | _ | i
  · have he : joint n = (part l).source j := he
    obtain ⟨m, rfl⟩ : ∃ m, n = m + 1 := Nat.exists_eq_succ_of_ne_zero (by omega)
    have hm := h.spans m (Nat.lt_succ_self m)
    rw [← hm.final] at he
    have := h.meet m l 1 j (Nat.lt_succ_self m) hl hm.model.two_le_size hj he
    omega
  · exact absurd he.symm (unused l hl j hj)
  · have he : t.size + i = (part l).source j := he
    have := (h.spans l hl).lt_size j hj
    omega

theorem push (ha : a.WellFormed) {final : Nat} (hf : final < t.size)
    (silent : t.symbolAt final = .nil) (hne : joint n ≠ final)
    (unused : ∀ k, k < n → ∀ i, i < (part k).model.size → (part k).source i ≠ final)
    (hu : a.Extends t u (a.arcs.map (Arc.move (relocate (joint n) final t.size)))) :
    u.Splices (Function.update part n (a.copyInto t (joint n) final))
      (Function.update joint (n + 1) final) (n + 1) := by
  have hn := h.joint_lt_size (Nat.le_refl n)
  have self : Function.update part n (a.copyInto t (joint n) final) n =
      a.copyInto t (joint n) final := Function.update_self ..
  have kept : ∀ k, k < n → Function.update part n (a.copyInto t (joint n) final) k = part k :=
    fun k hk => Function.update_of_ne (Nat.ne_of_lt hk) ..
  have old : ∀ k, k ≤ n → Function.update joint (n + 1) final k = joint k := fun k hk =>
    Function.update_of_ne (Nat.ne_of_lt (Nat.lt_succ_of_le hk)) ..
  constructor
  case wellFormed => exact hu.wellFormed
  case madeOf =>
    refine h.madeOf.update (fun x => ?_) (hu.adds hn hf hne)
    rw [h.none n (Nat.le_refl n)]
    exact arcAt_empty x
  case none =>
    intro k hk
    rw [Function.update_of_ne (by omega), h.none k (by omega)]
  case start => rw [old 0 (Nat.zero_le n), h.start]
  case spans =>
    intro k hk
    rcases Nat.lt_succ_iff_lt_or_eq.1 hk with hk | rfl
    · rw [kept k hk, old k (Nat.le_of_lt hk), old (k + 1) hk]
      exact (h.spans k hk).extend hu
    · rw [self, old k (Nat.le_refl k), Function.update_self]
      exact hu.spans_copyInto h.wellFormed ha hn hf (h.symbolAt_joint (Nat.le_refl k)) silent
  case meet =>
    intro k l i j hk hl hi hj he
    rcases Nat.lt_succ_iff_lt_or_eq.1 hk with hk | rfl <;>
      rcases Nat.lt_succ_iff_lt_or_eq.1 hl with hl | rfl
    · rw [kept k hk] at hi he
      rw [kept l hl] at hj he
      exact h.meet k l i j hk hl hi hj he
    · rw [kept k hk] at hi he
      rw [self] at he
      have := h.meet_next unused hk hi he.symm
      omega
    · rw [kept l hl] at hj he
      rw [self] at he
      have := h.meet_next unused hl hj he
      omega
    · rw [self] at he
      exact .inl ⟨rfl, relocate_inj hn hf hne he⟩

theorem embed_ok (ha : a.WellFormed) {final : Nat} (hf : final < t.size)
    (silent : t.symbolAt final = .nil) (hne : joint n ≠ final)
    (unused : ∀ k, k < n → ∀ i, i < (part k).model.size → (part k).source i ≠ final) :
    ∃ u, a.embed "concat" { init := .inner (joint n), final := .inner final } t = .ok u ∧
      u.Splices (Function.update part n (a.copyInto t (joint n) final))
        (Function.update joint (n + 1) final) (n + 1) := by
  obtain ⟨u, hu, hx⟩ := embed_between ha h.wellFormed (h.joint_lt_size (Nat.le_refl n)) hf "concat"
  exact ⟨u, hu, h.push ha hf silent hne unused hx⟩

theorem close_ok (ha : a.WellFormed) (pending : ∀ k, k ≤ n → joint k ≠ 1) :
    ∃ u, a.embed "concat" { init := .inner (joint n) } t = .ok u ∧
      u.Splices (Function.update part n (a.copyInto t (joint n) 1))
        (Function.update joint (n + 1) 1) (n + 1) := by
  refine h.embed_ok ha h.wellFormed.two_le_size h.wellFormed.symbolAt_one
    (pending n (Nat.le_refl n)) fun k hk i _ => ?_
  have hp := h.spans k hk
  rcases i with _ | _ | i
  · exact hp.init ▸ pending k (Nat.le_of_lt hk)
  · exact hp.final ▸ pending (k + 1) hk
  · exact Nat.ne_of_gt (hp.two_le _ (Nat.le_add_left 2 i))

theorem splice_ok (ha : a.WellFormed) :
    ∃ u, a.embed "concat" { init := .inner (joint n), final := .inner t.size }
        (t.addState Option.none .nil) = .ok u ∧
      u.Splices (Function.update part n (a.copyInto (t.addState Option.none .nil) (joint n) t.size))
        (Function.update joint (n + 1) t.size) (n + 1) := by
  refine h.addState.embed_ok ha (by simp) (by rw [symbolAt_addState, if_pos rfl])
    (Nat.ne_of_lt (h.joint_lt_size (Nat.le_refl n))) fun k hk i hi => ?_
  exact Nat.ne_of_lt ((h.spans k hk).lt_size i hi)

end Splices

/-- No step of a concatenation fails, and the parts are its inputs in their order. -/
theorem concatFrom_ok {as : List (Automaton W)} (ha : ∀ a ∈ as, a.WellFormed) (hne : as ≠ [])
    {t : Automaton W} {part : Nat → Part W} {joint : Nat → Nat} {n : Nat}
    (h : t.Splices part joint n) (pending : ∀ k, k ≤ n → joint k ≠ 1) :
    ∃ c part' joint', concatFrom (.inner (joint n)) as t = .ok c ∧
      c.Splices part' joint' (n + as.length) ∧ joint' (n + as.length) = 1 ∧
      (∀ k, k < n → part' k = part k) ∧ ∀ k a, as[k]? = some a → (part' (n + k)).model = a := by
  induction as generalizing t part joint n with
  | nil => exact absurd rfl hne
  | cons a as ih =>
    obtain ⟨first, rest⟩ := List.forall_mem_cons.1 ha
    cases as with
    | nil =>
      obtain ⟨u, hu, hs⟩ := h.close_ok first pending
      refine ⟨u, _, _, hu, hs, Function.update_self .., fun k hk => ?_, fun k b hb => ?_⟩
      · exact Function.update_of_ne (Nat.ne_of_lt hk) ..
      · cases k with
        | zero =>
          rw [Nat.add_zero, Function.update_self]
          exact Option.some.inj hb
        | succ k => cases hb
    | cons b as =>
      obtain ⟨u, hu, hs⟩ := h.splice_ok first
      have exit : Function.update joint (n + 1) t.size (n + 1) = t.size := Function.update_self ..
      have waiting : ∀ k, k ≤ n + 1 → Function.update joint (n + 1) t.size k ≠ 1 := by
        intro k hk
        rcases Nat.lt_or_eq_of_le hk with hk | rfl
        · rw [Function.update_of_ne (Nat.ne_of_lt hk)]
          exact pending k (Nat.le_of_lt_succ hk)
        · have := h.wellFormed.two_le_size
          omega
      obtain ⟨c, part', joint', hc, hcs, last, old, new⟩ :=
        ih rest (List.cons_ne_nil b as) hs waiting
      have length : n + (a :: b :: as).length = n + 1 + (b :: as).length := by
        simp only [List.length_cons]
        omega
      rw [exit] at hc
      refine ⟨c, part', joint', ?_, length ▸ hcs, length ▸ last, fun k hk => ?_, fun k d hd => ?_⟩
      · simp only [concatFrom, hu, ok_bind, hc]
      · rw [old k (Nat.lt_succ_of_lt hk), Function.update_of_ne (Nat.ne_of_lt hk)]
      · cases k with
        | zero =>
          rw [Nat.add_zero, old n (Nat.lt_succ_self n), Function.update_self]
          exact Option.some.inj hd
        | succ k =>
          rw [← new k d hd, Nat.add_right_comm, Nat.add_assoc]

theorem concat_ok {as : List (Automaton W)} (ha : ∀ a ∈ as, a.WellFormed) (hne : as ≠ []) :
    ∃ c part joint, concat as = .ok c ∧ c.Splices part joint as.length ∧ joint as.length = 1 ∧
      Numbers as part := by
  obtain ⟨c, part, joint, hc, h, last, -, model⟩ :=
    concatFrom_ok ha hne splices_empty fun _ _ => Nat.zero_ne_one
  rw [Nat.zero_add] at h last
  exact ⟨c, part, joint, hc, h, last, ⟨by simpa using model, h.none⟩⟩

end LogAutomata.Automaton
