import LogAutomata.Proofs.Parts

/-!
# What a union is made of

A union is made of copies that share nothing but the sentinels. Every link of it is one
of an input, and what an input spells and weighs its copy does too.
-/

namespace LogAutomata.Automaton

variable {W : Type} [LogWeight W]

-- ---------------------------------------------------------------------------
-- Copies that share the sentinels
-- ---------------------------------------------------------------------------

structure SharesSentinels (u : Automaton W) (p : Part W) : Prop where
  model : p.model.WellFormed
  target_eq : p.target = p.source
  init : p.source 0 = 0
  final : p.source 1 = 1
  two_le : ∀ i, 2 ≤ i → 2 ≤ p.source i
  lt_size : ∀ i, i < p.model.size → p.source i < u.size
  symbolAt : ∀ i, i < p.model.size → u.symbolAt (p.source i) = p.model.symbolAt i

/-- `u` is made of copies that have nothing else in common. -/
structure Unites (u : Automaton W) (part : Nat → Part W) : Prop where
  wellFormed : u.WellFormed
  madeOf : u.MadeOf part
  shares : ∀ k, u.SharesSentinels (part k)
  apart : ∀ k l i j, 2 ≤ i → i < (part k).model.size → 2 ≤ j → j < (part l).model.size →
    (part k).source i = (part l).source j → k = l ∧ i = j

/-- The numbered parts are the inputs, and behind them there are none. -/
structure Numbers (as : List (Automaton W)) (part : Nat → Part W) : Prop where
  model : ∀ k a, as[k]? = some a → (part k).model = a
  none : ∀ k, as.length ≤ k → part k = .none

theorem unites_empty : (empty : Automaton W).Unites fun _ => .none where
  wellFormed := .empty
  madeOf :=
    { arcAt := fun _ x e hx => by
        rw [Part.none, arcAt_empty] at hx
        cases hx
      onto := fun y e hy => by
        rw [arcAt_empty] at hy
        cases hy
      apart := fun _ _ x _ e _ hx => by
        rw [Part.none, arcAt_empty] at hx
        cases hx }
  shares _ := ⟨.empty, rfl, rfl, rfl, fun _ h => h, fun _ h => h, fun _ _ => rfl⟩
  apart _ _ _ _ hi hlt := absurd hlt (Nat.not_lt.2 hi)

section
variable {t u a : Automaton W}

theorem SharesSentinels.source_sentinel {p : Part W} (h : u.SharesSentinels p) {i : Nat}
    (hi : i < 2) : p.source i = i := by
  rcases i with _ | _ | i
  · exact h.init
  · exact h.final
  · omega

theorem sharesSentinels_iff {p : Part W} : u.SharesSentinels p ↔ u.Spans p 0 1 := by
  constructor
  · rintro ⟨model, target_eq, init, final, two_le, lt_size, symbolAt⟩
    exact ⟨model, target_eq, init, final, two_le, lt_size, symbolAt⟩
  · rintro ⟨model, target_eq, init, final, two_le, lt_size, symbolAt⟩
    exact ⟨model, target_eq, init, final, two_le, lt_size, symbolAt⟩

theorem SharesSentinels.extend {p : Part W} {rs : List (Arc W)} (h : t.SharesSentinels p)
    (hu : a.Extends t u rs) : u.SharesSentinels p :=
  sharesSentinels_iff.2 ((sharesSentinels_iff.1 h).extend hu)

theorem Extends.sharesSentinels_copyInto (ht : t.WellFormed) (ha : a.WellFormed) {rs : List (Arc W)}
    (hu : a.Extends t u rs) : u.SharesSentinels (a.copyInto t 0 1) := by
  have two := ht.two_le_size
  exact sharesSentinels_iff.2 (hu.spans_copyInto ht ha (by omega) (by omega) ht.symbolAt_zero
    ht.symbolAt_one)

theorem Unites.update {part : Nat → Part W} (h : t.Unites part) (ha : a.WellFormed) {k : Nat}
    (free : part k = .none)
    (hu : a.Extends t u (a.arcs.map (Arc.move (relocate 0 1 t.size)))) :
    u.Unites (Function.update part k (a.copyInto t 0 1)) := by
  have h2 := h.wellFormed.two_le_size
  have self : Function.update part k (a.copyInto t 0 1) k = a.copyInto t 0 1 :=
    Function.update_self ..
  have kept : ∀ l, l ≠ k → Function.update part k (a.copyInto t 0 1) l = part l := fun l hl =>
    Function.update_of_ne hl ..
  -- the new interior states are behind all old ones
  have behind : ∀ l i j, i < (part l).model.size → 2 ≤ j →
      (part l).source i ≠ (a.copyInto t 0 1).source j := by
    intro l i j hi hj he
    have hlt := (h.shares l).lt_size i hi
    have hj : (a.copyInto t 0 1).source j = t.size + (j - 2) := relocate_of_two_le hj
    omega
  refine ⟨hu.wellFormed, h.madeOf.update (fun x => ?_) (hu.adds (by omega) (by omega) (by omega)),
    (Function.forall_update_iff part fun _ p => u.SharesSentinels p).2
      ⟨hu.sharesSentinels_copyInto h.wellFormed ha, fun l _ => (h.shares l).extend hu⟩,
    fun l m i j hi hil hj hjm he => ?_⟩
  · rw [free]
    exact arcAt_empty x
  · by_cases hl : l = k
    · by_cases hm : m = k
      · rw [hl, self, hm, self] at he
        exact ⟨hl.trans hm.symm, relocate_inj (by omega) (by omega) (by omega) he⟩
      · rw [kept m hm] at hjm he
        rw [hl, self] at he
        exact absurd he.symm (behind m j i hjm hi)
    · rw [kept l hl] at hil he
      by_cases hm : m = k
      · rw [hm, self] at he
        exact absurd he (behind l i j hil hj)
      · rw [kept m hm] at hjm he
        exact h.apart l m i j hi hil hj hjm he

end

/-- No step of a union fails, and the parts are its inputs in their order. -/
theorem union_ok {as : List (Automaton W)} (ha : ∀ a ∈ as, a.WellFormed) :
    ∃ u part, union as = .ok u ∧ u.Unites part ∧
      Numbers as part := by
  suffices hs : ∀ (n : Nat) (t : Automaton W) (part : Nat → Part W), t.Unites part →
      (∀ k, n ≤ k → part k = .none) → ∃ u part',
        as.foldlM (fun target a => a.embed "union" {} target) t = .ok u ∧ u.Unites part' ∧
          (∀ k, k < n → part' k = part k) ∧
          (∀ k a, as[k]? = some a → (part' (n + k)).model = a) ∧
          ∀ k, n + as.length ≤ k → part' k = .none by
    obtain ⟨u, part, hu, h, -, hm, hf⟩ := hs 0 empty _ unites_empty fun _ _ => rfl
    exact ⟨u, part, hu, h, ⟨by simpa using hm, by simpa using hf⟩⟩
  induction as with
  | nil =>
    intro n t part h hf
    exact ⟨t, part, rfl, h, fun _ _ => rfl, by simp, hf⟩
  | cons a as ih =>
    intro n t part h hf
    obtain ⟨ha, has⟩ := List.forall_mem_cons.1 ha
    have h2 := h.wellFormed.two_le_size
    obtain ⟨v, hv, hx⟩ := embed_between ha h.wellFormed (i := 0) (f := 1) (by omega) (by omega)
      "union"
    obtain ⟨u, part', hu, hU, hold, hnew, hfree⟩ := ih has (n + 1) v _
      (h.update ha (hf n (Nat.le_refl n)) hx) fun k hk => by
        rw [Function.update_of_ne (by omega), hf k (by omega)]
    refine ⟨u, part', ?_, hU, fun k hk => ?_, fun k b hb => ?_, fun k hk => ?_⟩
    · rw [List.foldlM_cons, hv, ok_bind, hu]
    · rw [hold k (by omega), Function.update_of_ne (by omega)]
    · cases k with
      | zero =>
        rw [Nat.add_zero, hold n (by omega), Function.update_self]
        exact Option.some.inj hb
      | succ k =>
        rw [← hnew k b hb, Nat.add_right_comm, Nat.add_assoc]
    · refine hfree k ?_
      rw [List.length_cons] at hk
      omega

-- ---------------------------------------------------------------------------
-- Walks
-- ---------------------------------------------------------------------------

namespace Unites

variable {u : Automaton W} {part : Nat → Part W} (h : u.Unites part)
include h

theorem source_lt_two_iff {k i : Nat} : (part k).source i < 2 ↔ i < 2 := by
  have hp := h.shares k
  refine ⟨fun hlt => Nat.lt_of_not_le fun hi => Nat.not_lt.2 (hp.two_le i hi) hlt, fun hi => ?_⟩
  rwa [hp.source_sentinel hi]

theorem spelling_map {k i j : Nat} {xs : List Place} (hx : (part k).model.IsWalk i xs j) :
    u.spelling (xs.map (part k).place) = (part k).model.spelling xs := by
  have hp := h.shares k
  have inside : ∀ m ∈ (part k).model.entered xs, m < (part k).model.size :=
    fun m hm => hx.path.lt_size hm
  rw [spelling, spelling, h.madeOf.entered_map h.wellFormed hp.model hx, hp.target_eq,
    List.filter_map, List.map_map]
  have same : ((fun i => !isSentinel i) ∘ (part k).source) = fun i => !isSentinel i := by
    funext i
    simp only [Function.comp, isSentinel, h.source_lt_two_iff]
  rw [same]
  exact List.map_congr_left fun m hm => hp.symbolAt m (inside m (List.mem_of_mem_filter hm))

theorem weights_map {k i j : Nat} {xs : List Place} (hx : (part k).model.IsWalk i xs j) :
    u.weights (xs.map (part k).place) = (part k).model.weights xs :=
  h.madeOf.weights_map h.wellFormed (h.shares k).model hx

theorem exists_arrival_place {y : Place} {j : Nat} (hy : u.arrival y = some j) :
    ∃ k x m, (part k).model.arrival x = some m ∧ x.state < (part k).model.size ∧
      m < (part k).model.size ∧ (part k).place x = y ∧ (part k).source m = j := by
  obtain ⟨k, x, m, hx, hs, hm, hp, rfl⟩ :=
    h.madeOf.exists_arrival h.wellFormed (fun k => (h.shares k).model) hy
  exact ⟨k, x, m, hx, hs, hm, hp, by rw [(h.shares k).target_eq]⟩

end Unites

end LogAutomata.Automaton
