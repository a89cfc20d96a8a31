import LogAutomata.Proofs.PrefixGraph
import LogAutomata.Proofs.WellFormed
import Mathlib.Data.List.Nodup

/-!
# Replaying a prefix graph

The root becomes Init, a final node becomes Final and any other node a state of
its own with the symbol of its key. Each entry of a ledger becomes one link.
-/

namespace LogAutomata

variable {W : Type}

namespace Automaton

def Suits (b : Automaton W) (key : NodeKey) (p : Nat) : Prop :=
  if key.final then p = 1 else 2 ≤ p ∧ p < b.size ∧ b.symbolAt p = key.symbol

structure Placed (nodes : List (Node W)) (b : Automaton W) (places : Array Nat) : Prop where
  size_eq : places.size = nodes.length
  two_le_size : 2 ≤ b.size
  linksFrom : ∀ i, b.linksFrom i = []
  init : places[0]? = some 0
  suits : ∀ k n key, 0 < k → nodes[k]? = some n → n.key = some key →
    ∃ p, places[k]? = some p ∧ b.Suits key p
  onto : ∀ p, 2 ≤ p → p < b.size → ∃ k, 0 < k ∧ places[k]? = some p
  bound : ∀ (k p : Nat), places[k]? = some p → p < b.size
  unique : ∀ (k m p : Nat), 2 ≤ p → places[k]? = some p → places[m]? = some p → k = m

theorem Suits.addState {b : Automaton W} {key : NodeKey} {p : Nat} (h : b.Suits key p)
    (id : Option Int) (s : Symbol) : (b.addState id s).Suits key p := by
  unfold Suits at h ⊢
  split
  · next hf => rwa [if_pos hf] at h
  · next hf =>
    rw [if_neg hf] at h
    obtain ⟨h1, h2, h3⟩ := h
    rw [size_addState, symbolAt_addState, if_neg (Nat.ne_of_lt h2)]
    exact ⟨h1, Nat.lt_succ_of_lt h2, h3⟩

theorem placed_root (root : Node W) : Placed [root] (.empty : Automaton W) #[0] where
  size_eq := rfl
  two_le_size := Nat.le_refl 2
  linksFrom := linksFrom_empty
  init := rfl
  suits k n key hk hn := by
    rw [List.getElem?_eq_none hk] at hn
    cases hn
  onto p hp hp' := absurd hp' (Nat.not_lt.2 hp)
  bound k p hp := by
    rcases k with _ | k
    · cases hp
      exact Nat.two_pos
    · cases hp
  unique k m p hp hk := by
    rcases k with _ | k
    · cases hk
      cases hp
    · cases hk

section
variable {nodes : List (Node W)} {b : Automaton W} {places : Array Nat}

theorem getElem?_concat_cases {α : Type} {xs : List α} {x y : α} {k : Nat}
    (h : (xs ++ [x])[k]? = some y) : xs[k]? = some y ∨ k = xs.length ∧ y = x := by
  rw [List.getElem?_append] at h
  split at h
  · exact .inl h
  · next hk =>
    obtain ⟨hk', hy⟩ := List.getElem?_eq_some_iff.1 h
    rw [List.length_singleton] at hk'
    refine .inr ⟨by omega, ?_⟩
    rw [← hy]
    simp

theorem getElem?_push_cases {x p k : Nat} (h : (places.push x)[k]? = some p) :
    places[k]? = some p ∨ k = places.size ∧ p = x := by
  rw [← Array.getElem?_toList, Array.toList_push] at h
  have := getElem?_concat_cases h
  rwa [Array.getElem?_toList] at this

theorem getElem?_push_of_some {x p k : Nat} (h : places[k]? = some p) :
    (places.push x)[k]? = some p := by
  have hk := (Array.getElem?_eq_some_iff.1 h).1
  rw [Array.getElem?_push_lt hk, ← h, Array.getElem?_eq_getElem hk]

theorem Placed.final (h : Placed nodes b places) {n : Node W} {s : Symbol}
    (hn : n.key = some ⟨s, true⟩) : Placed (nodes ++ [n]) b (places.push 1) where
  size_eq := by rw [Array.size_push, h.size_eq, List.length_append, List.length_singleton]
  two_le_size := h.two_le_size
  linksFrom := h.linksFrom
  init := getElem?_push_of_some h.init
  suits k m key hk hm hkey := by
    rcases getElem?_concat_cases hm with hm | ⟨rfl, rfl⟩
    · obtain ⟨p, hp, hs⟩ := h.suits k m key hk hm hkey
      exact ⟨p, getElem?_push_of_some hp, hs⟩
    · obtain rfl := Option.some.inj (hn.symm.trans hkey)
      exact ⟨1, by rw [← h.size_eq, Array.getElem?_push_size], rfl⟩
  onto p hp hp' := by
    obtain ⟨k, hk, hkp⟩ := h.onto p hp hp'
    exact ⟨k, hk, getElem?_push_of_some hkp⟩
  bound k p hp := by
    rcases getElem?_push_cases hp with hp | ⟨-, rfl⟩
    · exact h.bound k p hp
    · exact h.two_le_size
  unique k m p hp hk hm := by
    rcases getElem?_push_cases hk with hk | ⟨-, rfl⟩
    · rcases getElem?_push_cases hm with hm | ⟨-, rfl⟩
      · exact h.unique k m p hp hk hm
      · exact absurd hp (by decide)
    · exact absurd hp (by decide)

theorem Placed.interior (h : Placed nodes b places) {n : Node W} {s : Symbol}
    (hn : n.key = some ⟨s, false⟩) :
    Placed (nodes ++ [n]) (b.addState none s) (places.push b.size) where
  size_eq := by rw [Array.size_push, h.size_eq, List.length_append, List.length_singleton]
  two_le_size := by
    rw [size_addState]
    exact Nat.le_succ_of_le h.two_le_size
  linksFrom i := by rw [linksFrom_addState, h.linksFrom]
  init := getElem?_push_of_some h.init
  suits k m key hk hm hkey := by
    rcases getElem?_concat_cases hm with hm | ⟨rfl, rfl⟩
    · obtain ⟨p, hp, hs⟩ := h.suits k m key hk hm hkey
      exact ⟨p, getElem?_push_of_some hp, hs.addState none s⟩
    · obtain rfl := Option.some.inj (hn.symm.trans hkey)
      refine ⟨b.size, by rw [← h.size_eq, Array.getElem?_push_size], h.two_le_size, ?_, ?_⟩
      · rw [size_addState]
        exact Nat.lt_succ_self _
      · rw [symbolAt_addState, if_pos rfl]
  onto p hp hp' := by
    rw [size_addState] at hp'
    rcases Nat.lt_succ_iff_lt_or_eq.1 hp' with hlt | rfl
    · obtain ⟨k, hk, hkp⟩ := h.onto p hp hlt
      exact ⟨k, hk, getElem?_push_of_some hkp⟩
    · refine ⟨places.size, ?_, Array.getElem?_push_size⟩
      exact (Array.getElem?_eq_some_iff.1 h.init).1
  bound k p hp := by
    rw [size_addState]
    rcases getElem?_push_cases hp with hp | ⟨-, rfl⟩
    · exact Nat.lt_succ_of_lt (h.bound k p hp)
    · exact Nat.lt_succ_self _
  unique k m p hp hk hm := by
    rcases getElem?_push_cases hk with hk | ⟨rfl, rfl⟩
    · rcases getElem?_push_cases hm with hm | ⟨rfl, rfl⟩
      · exact h.unique k m p hp hk hm
      · exact absurd (h.bound k _ hk) (Nat.lt_irrefl _)
    · rcases getElem?_push_cases hm with hm | ⟨rfl, -⟩
      · exact absurd (h.bound m _ hm) (Nat.lt_irrefl _)
      · rfl

end

theorem placeNode_interior {placed : Automaton W × Array Nat} {n : Node W} {s : Symbol}
    (hn : n.key = some ⟨s, false⟩) :
    placeNode placed n = (placed.1.addState none s, placed.2.push placed.1.size) := by
  simp only [placeNode, hn]

theorem placeNode_final {placed : Automaton W × Array Nat} {n : Node W} {s : Symbol}
    (hn : n.key = some ⟨s, true⟩) : placeNode placed n = (placed.1, placed.2.push 1) := by
  simp only [placeNode, hn]

theorem placeNodes_placed (root : Node W) {rest : List (Node W)}
    (keyed : ∀ n ∈ rest, ∃ key, n.key = some key) :
    Placed (root :: rest) (placeNodes (root :: rest)).1 (placeNodes (root :: rest)).2 := by
  induction rest using List.reverseRecOn with
  | nil => exact placed_root root
  | append_singleton rest n ih =>
    have ih := ih fun m hm => keyed m (List.mem_append_left _ hm)
    obtain ⟨⟨s, final⟩, hn⟩ := keyed n (List.mem_append_right _ (List.mem_singleton.2 rfl))
    have step : placeNodes (root :: (rest ++ [n])) = placeNode (placeNodes (root :: rest)) n := by
      change List.foldl _ _ (rest ++ [n]) = _
      rw [List.foldl_append]
      rfl
    rw [step, ← List.cons_append]
    cases final with
    | false =>
      rw [placeNode_interior hn]
      exact ih.interior hn
    | true =>
      rw [placeNode_final hn]
      exact ih.final hn

end Automaton

namespace PrefixGraph

-- ---------------------------------------------------------------------------
-- Links
-- ---------------------------------------------------------------------------

/-- Every node but the root has a key, only one is final, and ledgers name nodes. -/
structure Sound [LogWeight W] (g : PrefixGraph W) : Prop where
  rooted : 0 < g.size
  keyed : ∀ k o, 0 < k → g.outline k = some o → ∃ key, o.1 = some key
  final : ∀ k m o o' s s', g.outline k = some (some ⟨s, true⟩, o) →
    g.outline m = some (some ⟨s', true⟩, o') → k = m
  keys : ∀ k, (g.ledger k).keys.Nodup
  parents : ∀ k, ∀ e ∈ (g.ledger k).toList, ∃ p < g.size, e.1 = (p : Int)
  defined : ∀ k, ∀ e ∈ (g.ledger k).toList, isUndefined e.2 = false

/-- `b` is what the graph becomes if its nodes go to these places. -/
structure Replays [LogWeight W] (g : PrefixGraph W) (b : Automaton W) (place : Nat → Nat) :
    Prop where
  wellFormed : b.WellFormed
  init : place 0 = 0
  suits : ∀ k key o, 0 < k → g.outline k = some (some key, o) → b.Suits key (place k)
  onto : ∀ p, 2 ≤ p → p < b.size → ∃ k, 0 < k ∧ k < g.size ∧ place k = p
  inj : ∀ k m, k < g.size → m < g.size → place k = place m → k = m
  nodup : ∀ i, (b.successors i).Nodup
  mem_arcsFrom_iff : ∀ i j w, (j, w) ∈ b.arcsFrom i ↔
    ∃ k p : Nat, 0 < k ∧ ((p : Int), w) ∈ (g.ledger k).toList ∧ place p = i ∧ place k = j
  places : ∀ k, k < g.size → (Automaton.placeNodes g.nodes.toList).2[k]? = some (place k)

def arcsInto (place : Nat → Nat) (x : Node W × Nat) : List (Arc W) :=
  x.1.weights.toList.map fun e => ⟨place e.1.toNat, x.2, e.2⟩

theorem mem_tail_iff {α : Type} {xs : List α} {x : α} :
    x ∈ xs.tail ↔ ∃ k, 0 < k ∧ xs[k]? = some x := by
  rw [List.mem_iff_getElem?]
  constructor
  · rintro ⟨k, hk⟩
    exact ⟨k + 1, Nat.succ_pos k, by rwa [List.getElem?_tail] at hk⟩
  · rintro ⟨k, h0, hk⟩
    obtain ⟨k, rfl⟩ := Nat.exists_eq_succ_of_ne_zero (Nat.ne_of_gt h0)
    exact ⟨k, by rwa [List.getElem?_tail]⟩

theorem placed_of_keyed {g : PrefixGraph W} (rooted : 0 < g.size)
    (keyed : ∀ k o, 0 < k → g.outline k = some o → ∃ key, o.1 = some key) :
    Automaton.Placed g.nodes.toList (Automaton.placeNodes g.nodes.toList).1
      (Automaton.placeNodes g.nodes.toList).2 := by
  cases hn : g.nodes.toList with
  | nil =>
    rw [size, ← Array.length_toList, hn] at rooted
    cases rooted
  | cons root rest =>
    refine Automaton.placeNodes_placed root fun n hm => ?_
    obtain ⟨k, hk⟩ := List.mem_iff_getElem?.1 hm
    have hk : g.nodes[k + 1]? = some n := by
      rwa [← Array.getElem?_toList, hn, List.getElem?_cons_succ]
    exact keyed (k + 1) (n.key, n.parents) (Nat.succ_pos k) (by rw [outline, hk]; rfl)

variable [LogWeight W] {g : PrefixGraph W}

/-- The places of the nodes in `b`: every node has one of its own, and every interior state
is one. -/
structure Settles [LogWeight W] (g : PrefixGraph W) (b : Automaton W) (places : Array Nat)
    (place : Nat → Nat) : Prop where
  size_eq : places.size = g.size
  get : ∀ k, k < g.size → places[k]? = some (place k)
  init : place 0 = 0
  suits : ∀ k key o, 0 < k → g.outline k = some (some key, o) → b.Suits key (place k)
  bound : ∀ k, k < g.size → place k < b.size
  onto : ∀ p, 2 ≤ p → p < b.size → ∃ k, 0 < k ∧ k < g.size ∧ place k = p
  inj : ∀ k m, k < g.size → m < g.size → place k = place m → k = m

/-- The sentinels are the places of the root and of the final node alone. -/
theorem Sound.place_cases (hg : g.Sound) {b : Automaton W} {place : Nat → Nat}
    (init : place 0 = 0)
    (suits : ∀ k key o, 0 < k → g.outline k = some (some key, o) → b.Suits key (place k)) {k : Nat}
    (hk : k < g.size) : (k = 0 ∧ place k = 0) ∨
      (∃ s o, g.outline k = some (some ⟨s, true⟩, o) ∧ place k = 1) ∨ 2 ≤ place k := by
  rcases Nat.eq_zero_or_pos k with rfl | h0
  · exact .inl ⟨rfl, init⟩
  obtain ⟨⟨key, o⟩, ho⟩ := exists_outline hk
  obtain ⟨⟨s, final⟩, rfl⟩ := hg.keyed k _ h0 ho
  have hs := suits k _ _ h0 ho
  cases final with
  | true => exact .inr (.inl ⟨s, o, ho, hs⟩)
  | false => exact .inr (.inr hs.1)

theorem Sound.place_injective (hg : g.Sound) {b : Automaton W} {place : Nat → Nat}
    (init : place 0 = 0)
    (suits : ∀ k key o, 0 < k → g.outline k = some (some key, o) → b.Suits key (place k))
    (unique : ∀ k m, k < g.size → m < g.size → 2 ≤ place k → place k = place m → k = m) :
    ∀ k m, k < g.size → m < g.size → place k = place m → k = m := by
  intro k m hk hm he
  rcases hg.place_cases init suits hk with ⟨rfl, hk0⟩ | ⟨s, o, ho, hk1⟩ | hk2
  · rcases hg.place_cases init suits hm with ⟨rfl, -⟩ | ⟨-, -, -, hm1⟩ | hm2
    · rfl
    · omega
    · omega
  · rcases hg.place_cases init suits hm with ⟨-, hm0⟩ | ⟨s', o', ho', -⟩ | hm2
    · omega
    · exact hg.final k m o o' s s' ho ho'
    · omega
  · exact unique k m hk hm hk2 he

theorem Sound.exists_places (hg : g.Sound) {b : Automaton W} {places : Array Nat}
    (h : Automaton.Placed g.nodes.toList b places) : ∃ place, g.Settles b places place := by
  have size_eq : places.size = g.size := h.size_eq
  have get : ∀ k, k < g.size → places[k]? = some (places[k]?.getD 0) := by
    intro k hk
    rw [Array.getElem?_eq_getElem (size_eq ▸ hk)]
    rfl
  have init : places[0]?.getD 0 = 0 := by
    rw [h.init]
    rfl
  have suits : ∀ k key o, 0 < k → g.outline k = some (some key, o) →
      b.Suits key (places[k]?.getD 0) := by
    intro k key o h0 ho
    obtain ⟨n, hn, he⟩ := Option.map_eq_some_iff.1 ho
    obtain ⟨p, hp, hs⟩ := h.suits k n key h0 (by rwa [Array.getElem?_toList]) (Prod.mk.inj he).1
    rwa [hp]
  refine ⟨fun k => places[k]?.getD 0, size_eq, get, init, suits,
    fun k hk => h.bound k _ (get k hk), fun p hp hp' => ?_,
    hg.place_injective init suits fun k m hk hm h2 he => ?_⟩
  · obtain ⟨k, hk, hkp⟩ := h.onto p hp hp'
    refine ⟨k, hk, size_eq ▸ (Array.getElem?_eq_some_iff.1 hkp).1, ?_⟩
    rw [hkp]
    rfl
  · exact h.unique k m _ h2 (get k hk) (he ▸ get m hm)

omit [LogWeight W] in
theorem mem_zip_tail_iff {places : Array Nat} {place : Nat → Nat}
    (get : ∀ k, k < g.size → places[k]? = some (place k)) {n : Node W} {p : Nat} :
    (n, p) ∈ (g.nodes.toList.zip places.toList).tail ↔
      ∃ k, 0 < k ∧ g.nodes[k]? = some n ∧ place k = p := by
  rw [mem_tail_iff]
  refine exists_congr fun k => and_congr_right fun _ => ?_
  rw [List.getElem?_zip_eq_some, Array.getElem?_toList, Array.getElem?_toList]
  refine and_congr_right fun hn => ?_
  rw [get k (Array.getElem?_eq_some_iff.1 hn).1, Option.some.injEq]

def replayedArcs (g : PrefixGraph W) (places : Array Nat) (place : Nat → Nat) : List (Arc W) :=
  (g.nodes.toList.zip places.toList).tail.flatMap (arcsInto place)

section
variable {b : Automaton W} {places : Array Nat} {place : Nat → Nat} (hg : g.Sound)
  (hs : g.Settles b places place)
include hg hs

theorem mem_replayedArcs_iff {r : Arc W} :
    r ∈ g.replayedArcs places place ↔ ∃ k p : Nat, 0 < k ∧ k < g.size ∧ p < g.size ∧
      ((p : Int), r.weight) ∈ (g.ledger k).toList ∧ place p = r.src ∧ place k = r.dest := by
  rw [replayedArcs, List.mem_flatMap]
  constructor
  · rintro ⟨⟨n, p⟩, hx, hr⟩
    obtain ⟨k, h0, hk, rfl⟩ := (mem_zip_tail_iff hs.get).1 hx
    obtain ⟨⟨q, w⟩, he, rfl⟩ := List.mem_map.1 hr
    have hl : g.ledger k = n.weights := by
      rw [ledger, hk]
      rfl
    rw [← hl] at he
    obtain ⟨p, hp, rfl⟩ := hg.parents k _ he
    exact ⟨k, p, h0, (Array.getElem?_eq_some_iff.1 hk).1, hp, he, rfl, rfl⟩
  · rintro ⟨k, p, h0, hk, -, he, hsrc, hdest⟩
    have hn := Array.getElem?_eq_getElem hk
    refine ⟨(g.nodes[k], place k), (mem_zip_tail_iff hs.get).2 ⟨k, h0, hn, rfl⟩, ?_⟩
    refine List.mem_map.2 ⟨((p : Int), r.weight), ?_, ?_⟩
    · rwa [ledger, hn] at he
    · obtain ⟨src, dest, w⟩ := r
      cases hsrc
      cases hdest
      rfl

theorem nodup_replayedArcs :
    ((g.replayedArcs places place).map fun r => (r.src, r.dest)).Nodup := by
  have distinct : ((g.nodes.toList.zip places.toList).tail.map Prod.snd).Nodup := by
    rw [List.map_tail, List.map_snd_zip (Nat.le_of_eq hs.size_eq)]
    refine (List.nodup_iff_getElem?_ne_getElem?.2 fun k m hkm hm he => ?_).sublist
      (List.tail_sublist _)
    rw [Array.length_toList, hs.size_eq] at hm
    have hk := Nat.lt_trans hkm hm
    rw [Array.getElem?_toList, Array.getElem?_toList, hs.get k hk, hs.get m hm,
      Option.some.injEq] at he
    exact Nat.ne_of_lt hkm (hs.inj k m hk hm he)
  rw [replayedArcs, List.map_flatMap, List.nodup_flatMap]
  constructor
  · rintro ⟨n, p⟩ hx
    obtain ⟨k, -, hk, -⟩ := (mem_zip_tail_iff hs.get).1 hx
    have hl : g.ledger k = n.weights := by
      rw [ledger, hk]
      rfl
    have keys := hg.keys k
    have parents := hg.parents k
    rw [hl] at keys parents
    rw [arcsInto, List.map_map]
    refine (List.nodup_map_iff_inj_on (List.Nodup.of_map _ keys)).2 fun e he f hf hef => ?_
    obtain ⟨q, hq, hqe⟩ := parents e he
    obtain ⟨q', hq', hqf⟩ := parents f hf
    have hsrc : place e.1.toNat = place f.1.toNat := (Prod.mk.inj hef).1
    rw [hqe, hqf, Int.toNat_natCast, Int.toNat_natCast] at hsrc
    refine List.inj_on_of_nodup_map keys he hf ?_
    rw [hqe, hqf, hs.inj q q' hq hq' hsrc]
  · refine (List.pairwise_map.1 distinct).imp ?_
    rintro ⟨n, p⟩ ⟨n', p'⟩ hne x hx hx'
    rw [List.mem_map] at hx hx'
    obtain ⟨r, hr, rfl⟩ := hx
    obtain ⟨r', hr', he⟩ := hx'
    obtain ⟨e, -, rfl⟩ := List.mem_map.1 hr
    obtain ⟨e', -, rfl⟩ := List.mem_map.1 hr'
    exact hne (Prod.mk.inj he).2.symm

theorem fits_of_mem_replayedArcs {r : Arc W} (hr : r ∈ g.replayedArcs places place) : b.Fits r := by
  obtain ⟨k, p, h0, hk, hp, he, hsrc, hdest⟩ := (mem_replayedArcs_iff hg hs).1 hr
  exact ⟨hsrc ▸ hs.bound p hp, hdest ▸ hs.bound k hk, hg.defined k _ he⟩

theorem enter_ok {x : Node W × Nat} (hx : x ∈ (g.nodes.toList.zip places.toList).tail) :
    b.enter places x = .ok (arcsInto place x) := by
  refine mapM_ok fun e he => ?_
  have hm : (⟨place e.1.toNat, x.2, e.2⟩ : Arc W) ∈ g.replayedArcs places place :=
    List.mem_flatMap.2 ⟨_, hx, List.mem_map.2 ⟨_, he, rfl⟩⟩
  obtain ⟨k, -, hk, -⟩ := (mem_zip_tail_iff hs.get).1 hx
  obtain ⟨q, hq, hqe⟩ := hg.parents k e (by rw [ledger, hk]; exact he)
  rw [hqe, Int.toNat_natCast] at hm
  simp only [hqe, resolve_natCast (hs.size_eq ▸ hq), Option.bind_some, hs.get q hq,
    Int.toNat_natCast]
  exact Automaton.arc?_eq_ok_iff.2 ⟨rfl, rfl, rfl, fits_of_mem_replayedArcs hg hs hm⟩

theorem mem_filter_replayedArcs_iff {i j : Nat} {w : W} :
    (j, w) ∈ ((g.replayedArcs places place).filter (·.src == i)).map (fun r => (r.dest, r.weight)) ↔
      ∃ k p : Nat, 0 < k ∧ ((p : Int), w) ∈ (g.ledger k).toList ∧ place p = i ∧ place k = j := by
  rw [List.mem_map]
  constructor
  · rintro ⟨r, hr, he⟩
    obtain ⟨hr, hi⟩ := List.mem_filter.1 hr
    obtain ⟨rfl, rfl⟩ := Prod.mk.inj he
    obtain ⟨k, p, h0, -, -, he, hsrc, hdest⟩ := (mem_replayedArcs_iff hg hs).1 hr
    exact ⟨k, p, h0, he, hsrc.trans (beq_iff_eq.1 hi), hdest⟩
  · rintro ⟨k, p, h0, he, rfl, rfl⟩
    have hk : k < g.size := by
      refine Nat.lt_of_not_le fun hk => ?_
      rw [ledger, Array.getElem?_eq_none hk] at he
      cases he
    obtain ⟨q, hq, hqe⟩ := hg.parents k _ he
    obtain rfl := Int.ofNat_inj.1 hqe
    refine ⟨⟨place p, place k, w⟩, List.mem_filter.2 ⟨?_, beq_self_eq_true _⟩, rfl⟩
    exact (mem_replayedArcs_iff hg hs).2 ⟨k, p, h0, hk, hq, he, rfl, rfl⟩

end

omit [LogWeight W] in
theorem nodup_dests {rs : List (Arc W)} (h : (rs.map fun r => (r.src, r.dest)).Nodup) (i : Nat) :
    ((rs.filter (·.src == i)).map Arc.dest).Nodup := by
  have hn := h.sublist ((List.filter_sublist (p := (·.src == i))).map _)
  have same : (rs.filter (·.src == i)).map (fun r => (r.src, r.dest)) =
      ((rs.filter (·.src == i)).map Arc.dest).map (i, ·) := by
    rw [List.map_map]
    refine List.map_congr_left fun r hr => ?_
    rw [beq_iff_eq.1 (List.mem_filter.1 hr).2]
    rfl
  rw [same] at hn
  exact hn.of_map _

theorem replay_ok (hg : g.Sound) : ∃ b place, g.replay = .ok b ∧ g.Replays b place := by
  cases hpl : Automaton.placeNodes g.nodes.toList with
  | mk target places =>
  have hp := placed_of_keyed hg.rooted hg.keyed
  have wf := Automaton.WellFormed.empty.of_grows (Automaton.grows_placeNodes g.nodes.toList)
  rw [hpl] at hp wf
  obtain ⟨place, hs⟩ := hg.exists_places hp
  have fits : ∀ r ∈ g.replayedArcs places place, target.Fits r :=
    fun r hr => fits_of_mem_replayedArcs hg hs hr
  have rows : (g.nodes.toList.zip places.toList).tail.mapM (target.enter places) =
      .ok ((g.nodes.toList.zip places.toList).tail.map (arcsInto place)) :=
    mapM_ok fun x hx => enter_ok hg hs hx
  have arcsFrom : ∀ i, (target.withArcs (g.replayedArcs places place)).arcsFrom i =
      ((g.replayedArcs places place).filter (·.src == i)).map fun r => (r.dest, r.weight) := by
    intro i
    rw [Automaton.arcsFrom_withArcs fun r hr => ⟨(fits r hr).src, (fits r hr).dest⟩,
      Automaton.arcsFrom, hp.linksFrom]
    rfl
  refine ⟨target.withArcs (g.replayedArcs places place), place, ?_, wf.withArcs fits, hs.init,
    fun k key o h0 ho => ?_, fun p hp hp' => ?_, hs.inj, fun i => ?_, fun i j w => ?_,
    fun k hk => ?_⟩
  · rw [replay, hpl]
    exact congrArg (· >>= fun arcs => pure (target.withArcs arcs.flatten)) rows
  · have suits := hs.suits k key o h0 ho
    unfold Automaton.Suits at suits ⊢
    rwa [Automaton.size_withArcs, Automaton.symbolAt_withArcs]
  · rw [Automaton.size_withArcs] at hp'
    exact hs.onto p hp hp'
  · rw [Automaton.successors_eq, arcsFrom, List.map_map]
    exact nodup_dests (nodup_replayedArcs hg hs) i
  · rw [arcsFrom]
    exact mem_filter_replayedArcs_iff hg hs
  · rw [hpl]
    exact hs.get k hk

end PrefixGraph

end LogAutomata
