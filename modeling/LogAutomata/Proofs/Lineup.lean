import LogAutomata.Proofs.Isomorphism
import LogAutomata.Proofs.Nested

/-!
# Automata in a row

What a concatenation is made of, whatever the order of its states and links: its inputs stand
in a row, each Final but the last is the Init of the next one, and nothing else is shared or
added. This tells a concatenation up to isomorphism. A concatenation of concatenations has the
inputs of all of them in a row, and a transposed one the transposed inputs in reverse.
-/

namespace LogAutomata.Automaton

variable {W : Type}

-- ---------------------------------------------------------------------------
-- Places in a row
-- ---------------------------------------------------------------------------

def HasState (as : List (Automaton W)) (k i : Nat) : Prop := ∃ a, as[k]? = some a ∧ i < a.size

/-- The state at `i` of the `k`-th automaton in a row is the one at `j` of the `l`-th. -/
def SameState (k i l j : Nat) : Prop :=
  k = l ∧ i = j ∨ i = 1 ∧ j = 0 ∧ l = k + 1 ∨ i = 0 ∧ j = 1 ∧ k = l + 1

def arcsInRow (as : List (Automaton W)) (place : Nat → Nat → Nat) : List (Arc W) :=
  (as.mapIdx fun k a => a.arcs.map (Arc.move (place k))).flatten

variable {a b c d x y : Automaton W} {as bs : List (Automaton W)} {f g : Nat → Nat → Nat}

theorem HasState.lt_length {k i : Nat} (h : HasState as k i) : k < as.length := by
  obtain ⟨a, ha, -⟩ := h
  exact (List.getElem?_eq_some_iff.1 ha).1

theorem HasState.append {k i : Nat} (h : HasState (as ++ bs) k i) :
    HasState as k i ∨ ∃ l, HasState bs l i ∧ k = l + as.length := by
  obtain ⟨a, ha, hi⟩ := h
  rcases Nat.lt_or_ge k as.length with hk | hk
  · rw [List.getElem?_append_left hk] at ha
    exact .inl ⟨a, ha, hi⟩
  · rw [List.getElem?_append_right hk] at ha
    exact .inr ⟨k - as.length, ⟨a, ha, hi⟩, (Nat.sub_add_cancel hk).symm⟩

theorem HasState.append_left {k i : Nat} (h : HasState as k i) : HasState (as ++ bs) k i := by
  obtain ⟨a, ha, hi⟩ := h
  exact ⟨a, by rw [List.getElem?_append_left (List.getElem?_eq_some_iff.1 ha).1, ha], hi⟩

theorem HasState.append_right {l i : Nat} (h : HasState bs l i) :
    HasState (as ++ bs) (l + as.length) i := by
  obtain ⟨b, hb, hi⟩ := h
  refine ⟨b, ?_, hi⟩
  rw [List.getElem?_append_right (Nat.le_add_left _ _), Nat.add_sub_cancel, hb]

theorem sameState_comm {k i l j : Nat} : SameState k i l j ↔ SameState l j k i := by
  unfold SameState
  omega

theorem arcsInRow_congr (h : ∀ k i, HasState as k i → f k i = g k i) :
    arcsInRow as f = arcsInRow as g := by
  refine congrArg List.flatten (List.mapIdx_eq_mapIdx_iff.2 fun k hk => ?_)
  refine List.map_congr_left fun r hr => ?_
  have hr := mem_arcs_iff.1 hr
  have stands : ∀ i, i < as[k].size → f k i = g k i := fun i hi =>
    h k i ⟨_, List.getElem?_eq_getElem hk, hi⟩
  rw [Arc.move, Arc.move, stands _ (src_lt_size hr), stands _ (dest_lt_size hr)]

theorem map_move_arcsInRow (h : Nat → Nat) :
    (arcsInRow as f).map (Arc.move h) = arcsInRow as fun k i => h (f k i) := by
  have rows : (as.mapIdx fun k a => a.arcs.map (Arc.move (f k))).map (List.map (Arc.move h)) =
      as.mapIdx fun k a => a.arcs.map (Arc.move fun i => h (f k i)) := by
    refine List.ext_getElem? fun k => ?_
    rw [List.getElem?_map, List.getElem?_mapIdx, List.getElem?_mapIdx, Option.map_map]
    exact congrArg (Option.map · as[k]?) (funext fun a => List.map_map)
  rw [arcsInRow, List.map_flatten, rows]
  rfl

theorem arcsInRow_append :
    arcsInRow (as ++ bs) f = arcsInRow as f ++ arcsInRow bs fun k => f (k + as.length) := by
  rw [arcsInRow, List.mapIdx_append, List.flatten_append]
  rfl

theorem arcsInRow_reverse :
    (arcsInRow as.reverse f).Perm (arcsInRow as fun k => f (as.length - 1 - k)) := by
  rw [arcsInRow, List.mapIdx_reverse]
  exact (List.reverse_perm _).flatten

theorem arcsInRow_cons :
    arcsInRow (a :: as) f = a.arcs.map (Arc.move (f 0)) ++ arcsInRow as fun k => f (k + 1) := by
  rw [arcsInRow, List.mapIdx_cons, List.flatten_cons]
  rfl

variable [LogWeight W]

/-- `c` is made of these automata in a row. The state at `i` of the `k`-th stands at `place k i`. -/
structure LinesUp (c : Automaton W) (as : List (Automaton W)) (place : Nat → Nat → Nat) : Prop where
  wellFormed : c.WellFormed
  models : ∀ a ∈ as, a.WellFormed
  arcs : c.arcs.Perm (arcsInRow as place)
  lt_size : ∀ k i, HasState as k i → place k i < c.size
  onto : ∀ j, j < c.size → ∃ k i, HasState as k i ∧ place k i = j
  symbolAt : ∀ k a i, as[k]? = some a → i < a.size → c.symbolAt (place k i) = a.symbolAt i
  init : place 0 0 = 0
  final : place (as.length - 1) 1 = 1
  meet : ∀ k i l j, HasState as k i → HasState as l j → (place k i = place l j ↔ SameState k i l j)

namespace LinesUp

section
variable (h : c.LinesUp as f)
include h

theorem hasState_of_lt_two {k i : Nat} (hk : k < as.length) (hi : i < 2) : HasState as k i :=
  ⟨as[k], List.getElem?_eq_getElem hk,
    Nat.lt_of_lt_of_le hi (h.models _ (List.getElem_mem hk)).two_le_size⟩

theorem length_pos : 0 < as.length := by
  obtain ⟨k, i, hk, -⟩ := h.onto 0 (Nat.lt_of_lt_of_le Nat.two_pos h.wellFormed.two_le_size)
  exact Nat.lt_of_le_of_lt (Nat.zero_le k) hk.lt_length

theorem hasState_init : HasState as 0 0 := h.hasState_of_lt_two h.length_pos Nat.two_pos

theorem hasState_final : HasState as (as.length - 1) 1 :=
  h.hasState_of_lt_two (Nat.sub_one_lt_of_lt h.length_pos) Nat.one_lt_two

theorem eq_zero_iff {k i : Nat} (hk : HasState as k i) : f k i = 0 ↔ k = 0 ∧ i = 0 := by
  have := h.meet k i 0 0 hk h.hasState_init
  rw [h.init] at this
  rw [this, SameState]
  omega

theorem eq_one_iff {k i : Nat} (hk : HasState as k i) :
    f k i = 1 ↔ k = as.length - 1 ∧ i = 1 := by
  have hlt := hk.lt_length
  have := h.meet k i _ 1 hk h.hasState_final
  rw [h.final] at this
  rw [this, SameState]
  omega

/-- Each automaton but the last ends where the next one begins, at an interior state. -/
theorem joint {k : Nat} (hk : k + 1 < as.length) : f k 1 = f (k + 1) 0 ∧ 2 ≤ f k 1 := by
  have this := h.hasState_of_lt_two (Nat.lt_of_succ_lt hk) Nat.one_lt_two
  have next := h.hasState_of_lt_two hk Nat.two_pos
  have not_init := h.eq_zero_iff this
  have not_final := h.eq_one_iff this
  exact ⟨(h.meet k 1 (k + 1) 0 this next).2 (.inr (.inl ⟨rfl, rfl, rfl⟩)), by omega⟩

end

-- ---------------------------------------------------------------------------
-- What is told by the row
-- ---------------------------------------------------------------------------

theorem pairs (h : c.LinesUp as f) (h' : d.LinesUp as g) :
    c.Pairs d fun i j => ∃ k m, HasState as k m ∧ f k m = i ∧ g k m = j where
  total i hi := by
    obtain ⟨k, m, hk, rfl⟩ := h.onto i hi
    exact ⟨g k m, h'.lt_size k m hk, k, m, hk, rfl, rfl⟩
  onto j hj := by
    obtain ⟨k, m, hk, rfl⟩ := h'.onto j hj
    exact ⟨f k m, h.lt_size k m hk, k, m, hk, rfl, rfl⟩
  one_to_one := by
    rintro _ _ _ _ ⟨k, m, hk, rfl, rfl⟩ ⟨l, n, hl, rfl, rfl⟩
    rw [h.meet k m l n hk hl, h'.meet k m l n hk hl]
  init := ⟨0, 0, h.hasState_init, h.init, h'.init⟩
  final := ⟨as.length - 1, 1, h.hasState_final, h.final, h'.final⟩
  symbolAt := by
    rintro _ _ ⟨k, m, ⟨a, ha, hm⟩, rfl, rfl⟩
    rw [h.symbolAt k a m ha hm, h'.symbolAt k a m ha hm]

/-- Automata that are made of the same row differ in positions and in the order of links only. -/
theorem exists_renaming (h : c.LinesUp as f) (h' : d.LinesUp as g) :
    ∃ r : Renaming c d, r.KeepsArcs ∧ ∀ k i, HasState as k i → r.image (f k i) = g k i := by
  obtain ⟨r, hr⟩ := (h.pairs h').exists_renaming h.wellFormed.two_le_size
  have image : ∀ k i, HasState as k i → r.image (f k i) = g k i := fun k i hk =>
    hr _ _ (h.lt_size k i hk) ⟨k, i, hk, rfl, rfl⟩
  refine ⟨r, r.keepsArcs_of_perm ?_, image⟩
  have moved := h.arcs.map (Arc.move r.image)
  rw [map_move_arcsInRow, arcsInRow_congr image] at moved
  exact moved.trans h'.arcs.symm

end LinesUp

-- ---------------------------------------------------------------------------
-- Concatenations
-- ---------------------------------------------------------------------------

/-- `c` is made of a copy of `x` that ends at the state at 2 and one of `y` that begins there. -/
structure Chains (x y c : Automaton W) : Prop where
  wellFormed : c.WellFormed
  size_eq : c.size = x.size + 1 + (y.size - 2)
  arcs : c.arcs.Perm (x.arcs.map (Arc.move (relocate 0 2 3)) ++
    y.arcs.map (Arc.move (relocate 2 1 (x.size + 1))))
  symbolAt_left : ∀ i, i < x.size → c.symbolAt (relocate 0 2 3 i) = x.symbolAt i
  symbolAt_right : ∀ i, i < y.size → c.symbolAt (relocate 2 1 (x.size + 1) i) = y.symbolAt i

theorem concat_pair (hx : x.WellFormed) (hy : y.WellFormed) :
    ∃ c, concat [x, y] = .ok c ∧ Chains x y c := by
  have start := WellFormed.empty.addState (W := W) none .nil
  obtain ⟨s, hs, left⟩ := embed_between hx start (i := 0) (f := 2) (Nat.succ_pos 2)
    (Nat.lt_succ_self 2) "concat"
  have two := hx.two_le_size
  have size : s.size = x.size + 1 := by
    rw [left.size_eq, size_addState, size_empty]
    omega
  obtain ⟨c, hc, right⟩ := embed_between hy left.wellFormed (i := 2) (f := 1) (by omega)
    (by omega) "concat"
  have first := left.spans_copyInto start hx (Nat.succ_pos 2) (Nat.lt_succ_self 2) rfl rfl
  have meets : s.symbolAt 2 = .nil := left.symbolAt_of_lt 2 (Nat.lt_succ_self 2)
  have second := right.spans_copyInto left.wellFormed hy (by omega) (by omega) meets
    left.wellFormed.symbolAt_one
  refine ⟨c, ?_, right.wellFormed, ?_, ?_, (first.extend right).symbolAt, ?_⟩
  · simp only [concat, concatFrom]
    exact bind_ok.2 ⟨s, hs, hc⟩
  · rw [right.size_eq, size]
  · have none : ((empty : Automaton W).addState Option.none .nil).arcs = [] :=
      arcs_eq_nil fun i => by rw [linksFrom_addState, linksFrom_empty]
    have two_copies := right.arcs_perm.trans (left.arcs_perm.append_right _)
    rwa [none, size] at two_copies
  · rw [← size]
    exact second.symbolAt

def inTurn (n : Nat) (f g : Nat → Nat → Nat) (k : Nat) : Nat → Nat :=
  if k < n then f k else g (k - n)

theorem inTurn_of_lt {n k : Nat} (h : k < n) : inTurn n f g k = f k := if_pos h

theorem inTurn_add (n k : Nat) : inTurn n f g (k + n) = g k := by
  rw [inTurn, if_neg (Nat.not_lt.2 (Nat.le_add_left n k)), Nat.add_sub_cancel]

theorem relocate_eq_iff {n u v : Nat} (hu : u < n) :
    relocate 0 2 3 u = relocate 2 1 (n + 1) v ↔ u = 1 ∧ v = 0 := by
  rcases u with _ | _ | u <;> rcases v with _ | _ | v <;> simp [relocate] <;> omega

theorem exists_relocate {n m j : Nat} (hn : 2 ≤ n) (hm : 2 ≤ m) (hj : j < n + 1 + (m - 2)) :
    (∃ u, u < n ∧ relocate 0 2 3 u = j) ∨ ∃ v, v < m ∧ relocate 2 1 (n + 1) v = j := by
  rcases Nat.lt_or_ge j 3 with h | h
  · obtain rfl | rfl | rfl : j = 0 ∨ j = 1 ∨ j = 2 := by omega
    · exact .inl ⟨0, by omega, rfl⟩
    · exact .inr ⟨1, by omega, rfl⟩
    · exact .inl ⟨1, by omega, rfl⟩
  · rcases Nat.lt_or_ge j (n + 1) with h' | h'
    · exact .inl ⟨j - 3 + 2, by omega, by rw [relocate]; omega⟩
    · exact .inr ⟨j - (n + 1) + 2, by omega, by rw [relocate]; omega⟩

theorem relocate_left_lt {n m u : Nat} (hn : 2 ≤ n) (hu : u < n) :
    relocate 0 2 3 u < n + 1 + (m - 2) := by
  rcases u with _ | _ | u <;> simp only [relocate] <;> omega

theorem relocate_right_lt {n m v : Nat} (hn : 2 ≤ n) (hv : v < m) :
    relocate 2 1 (n + 1) v < n + 1 + (m - 2) := by
  rcases v with _ | _ | v <;> simp only [relocate] <;> omega

theorem Chains.linesUp (h : Chains x y c) (hx : x.LinesUp as f) (hy : y.LinesUp bs g) :
    c.LinesUp (as ++ bs) (inTurn as.length (fun k i => relocate 0 2 3 (f k i))
      fun k i => relocate 2 1 (x.size + 1) (g k i)) := by
  have two := hx.wellFormed.two_le_size
  have two' := hy.wellFormed.two_le_size
  constructor
  case wellFormed => exact h.wellFormed
  case models => exact List.forall_mem_append.2 ⟨hx.models, hy.models⟩
  case arcs =>
    refine h.arcs.trans (((hx.arcs.map _).append (hy.arcs.map _)).trans (.of_eq ?_))
    rw [map_move_arcsInRow, map_move_arcsInRow, arcsInRow_append]
    refine congrArg₂ _ (arcsInRow_congr fun k i hk => ?_) (arcsInRow_congr fun k i _ => ?_)
    · rw [inTurn_of_lt hk.lt_length]
    · rw [inTurn_add]
  case lt_size =>
    intro k i hk
    rw [h.size_eq]
    rcases hk.append with hk | ⟨l, hl, rfl⟩
    · rw [inTurn_of_lt hk.lt_length]
      exact relocate_left_lt two (hx.lt_size k i hk)
    · rw [inTurn_add]
      exact relocate_right_lt two (hy.lt_size l i hl)
  case onto =>
    intro j hj
    rw [h.size_eq] at hj
    rcases exists_relocate two two' hj with ⟨u, hu, rfl⟩ | ⟨v, hv, rfl⟩
    · obtain ⟨k, i, hk, rfl⟩ := hx.onto u hu
      exact ⟨k, i, hk.append_left, by rw [inTurn_of_lt hk.lt_length]⟩
    · obtain ⟨l, i, hl, rfl⟩ := hy.onto v hv
      exact ⟨l + as.length, i, hl.append_right, by rw [inTurn_add]⟩
  case symbolAt =>
    intro k a i ha hi
    rcases Nat.lt_or_ge k as.length with hk | hk
    · rw [List.getElem?_append_left hk] at ha
      rw [inTurn_of_lt hk, h.symbolAt_left _ (hx.lt_size k i ⟨a, ha, hi⟩), hx.symbolAt k a i ha hi]
    · obtain ⟨l, rfl⟩ := Nat.exists_eq_add_of_le' hk
      rw [List.getElem?_append_right hk, Nat.add_sub_cancel] at ha
      rw [inTurn_add, h.symbolAt_right _ (hy.lt_size l i ⟨a, ha, hi⟩), hy.symbolAt l a i ha hi]
  case init => rw [inTurn_of_lt hx.length_pos, hx.init, relocate]
  case final =>
    have last : (as ++ bs).length - 1 = bs.length - 1 + as.length := by
      have := hy.length_pos
      rw [List.length_append]
      omega
    rw [last, inTurn_add, hy.final, relocate]
  case meet =>
    -- a state of the first row and one of the second can only be where the rows meet
    have across : ∀ k i l j, HasState as k i → HasState bs l j →
        (relocate 0 2 3 (f k i) = relocate 2 1 (x.size + 1) (g l j) ↔
          SameState k i (l + as.length) j) := by
      intro k i l j hk hl
      rw [relocate_eq_iff (hx.lt_size k i hk), hx.eq_one_iff hk, hy.eq_zero_iff hl, SameState]
      have := hk.lt_length
      omega
    intro k i l j hki hlj
    rcases hki.append with hk | ⟨k, hk, rfl⟩ <;> rcases hlj.append with hl | ⟨l, hl, rfl⟩
    · rw [inTurn_of_lt hk.lt_length, inTurn_of_lt hl.lt_length, ← hx.meet k i l j hk hl]
      exact ⟨relocate_inj (by decide) (by decide) (by decide), congrArg _⟩
    · rw [inTurn_of_lt hk.lt_length, inTurn_add]
      exact across k i l j hk hl
    · rw [inTurn_of_lt hl.lt_length, inTurn_add, eq_comm, sameState_comm]
      exact across l j k i hl hk
    · have : SameState (k + as.length) i (l + as.length) j ↔ SameState k i l j := by
        unfold SameState
        omega
      rw [inTurn_add, inTurn_add, this, ← hy.meet k i l j hk hl]
      exact ⟨relocate_inj (by omega) (by omega) (by decide), congrArg _⟩

theorem linesUp_single (ha : a.WellFormed) (hc : c.WellFormed) (size_eq : c.size = a.size)
    (symbolAt : ∀ i, i < a.size → c.symbolAt i = a.symbolAt i) (arcs : c.arcs.Perm a.arcs) :
    c.LinesUp [a] fun _ => id := by
  have only : ∀ {k i}, HasState [a] k i → k = 0 ∧ i < a.size := by
    rintro k i ⟨b, hb, hi⟩
    obtain rfl : k = 0 := by simpa using (List.getElem?_eq_some_iff.1 hb).1
    cases hb
    exact ⟨rfl, hi⟩
  constructor
  case wellFormed => exact hc
  case models => exact List.forall_mem_singleton.2 ha
  case arcs =>
    refine arcs.trans (.of_eq ?_)
    rw [arcsInRow_cons, map_move_id (f := id) fun _ => rfl]
    exact (List.append_nil _).symm
  case lt_size => exact fun k i hk => size_eq ▸ (only hk).2
  case onto => exact fun j hj => ⟨0, j, ⟨a, rfl, size_eq ▸ hj⟩, rfl⟩
  case symbolAt =>
    intro k b i hb hi
    obtain ⟨rfl, -⟩ := only ⟨b, hb, hi⟩
    cases hb
    exact symbolAt i hi
  case init => rfl
  case final => rfl
  case meet =>
    intro k i l j hk hl
    obtain ⟨rfl, -⟩ := only hk
    obtain ⟨rfl, -⟩ := only hl
    have : SameState 0 i 0 j ↔ i = j := by
      unfold SameState
      omega
    rw [this]
    exact .rfl

theorem concat_singleton (ha : a.WellFormed) :
    ∃ c, concat [a] = .ok c ∧ c.LinesUp [a] fun _ => id := by
  obtain ⟨c, hc, copied⟩ := embed_between ha .empty (i := 0) (f := 1) Nat.two_pos Nat.one_lt_two
    "concat"
  have two := ha.two_le_size
  have spans := copied.spans_copyInto .empty ha Nat.two_pos Nat.one_lt_two rfl rfl
  refine ⟨c, hc, linesUp_single ha copied.wellFormed ?_ (fun i hi => ?_)
    ?_⟩
  · rw [copied.size_eq, size_empty]
    omega
  · have := spans.symbolAt i hi
    change c.symbolAt (relocate 0 1 2 i) = _ at this
    rwa [relocate_two] at this
  · have none : (empty : Automaton W).arcs = [] := arcs_eq_nil linksFrom_empty
    have copy := copied.arcs_perm
    rwa [none, size_empty, map_move_id relocate_two] at copy

-- ---------------------------------------------------------------------------
-- The splice states
-- ---------------------------------------------------------------------------

/-- Where `concatFrom` puts the splice states, if the target has this size. -/
def splices : List (Automaton W) → Nat → List Nat
  | a :: b :: as, size => size :: splices (b :: as) (size + (a.size - 1))
  | _, _ => []

omit [LogWeight W] in
theorem length_splices (as : List (Automaton W)) (n : Nat) :
    (splices as n).length = as.length - 1 := by
  induction as generalizing n with
  | nil => rfl
  | cons a as ih =>
    cases as with
    | nil => rfl
    | cons b as => simp [splices, ih]

omit [LogWeight W] in
theorem splices_add (as : List (Automaton W)) (n m : Nat) :
    splices as (n + m) = (splices as n).map (· + m) := by
  induction as generalizing n with
  | nil => rfl
  | cons a as ih =>
    cases as with
    | nil => rfl
    | cons b as => rw [splices, splices, List.map_cons, ← ih, Nat.add_right_comm]

/-- A concatenation is made of its inputs in a row, and where they meet are its splice states. -/
theorem linesUp_concat (hne : as ≠ []) (ha : ∀ a ∈ as, a.WellFormed) :
    ∃ c place, concat as = .ok c ∧ c.LinesUp as place ∧
      ∀ k, k + 1 < as.length → (splices as 2)[k]? = some (place k 1) := by
  induction as with
  | nil => exact absurd rfl hne
  | cons a as ih =>
    obtain ⟨first, rest⟩ := List.forall_mem_cons.1 ha
    cases as with
    | nil =>
      obtain ⟨c, hc, h⟩ := concat_singleton first
      exact ⟨c, _, hc, h, fun k hk => absurd hk (by simp)⟩
    | cons b as =>
      have hne := List.cons_ne_nil b as
      obtain ⟨d, place, hd, h, met⟩ := ih hne rest
      obtain ⟨c, hc, chains⟩ := concat_pair first h.wellFormed
      rw [concat_cons hne rest hd] at hc
      have alone := linesUp_single first first rfl (fun _ _ => rfl) (.refl _)
      refine ⟨c, _, hc, chains.linesUp alone h, fun k hk => ?_⟩
      cases k with
      | zero => rfl
      | succ k =>
        have hk : k + 1 < (b :: as).length := Nat.lt_of_succ_lt_succ hk
        obtain ⟨-, splice⟩ := h.joint hk
        have two := first.two_le_size
        rw [splices, List.getElem?_cons_succ, splices_add, List.getElem?_map, met k hk]
        change _ = some (inTurn 1 _ _ (k + 1) 1)
        rw [inTurn_add, relocate_of_two_le splice, Option.map_some]
        exact congrArg _ (by omega)

theorem LinesUp.isNil_splice {f : Nat → Nat → Nat} (h : c.LinesUp as f)
    (met : ∀ k, k + 1 < as.length → (splices as 2)[k]? = some (f k 1)) :
    ∀ s ∈ splices as 2, s < c.size ∧ c.isNil s = true := by
  intro s hs
  obtain ⟨k, hk⟩ := List.getElem?_of_mem hs
  have hlt := (List.getElem?_eq_some_iff.1 hk).1
  rw [length_splices] at hlt
  have hk1 : k + 1 < as.length := by omega
  obtain rfl := Option.some.inj (hk.symm.trans (met k hk1))
  have last := h.hasState_of_lt_two (Nat.lt_of_succ_lt hk1) Nat.one_lt_two
  refine ⟨h.lt_size k 1 last, ?_⟩
  obtain ⟨a, ha, h1⟩ := last
  have nil : c.symbolAt (f k 1) = .nil :=
    (h.symbolAt k a 1 ha h1).trans (h.models a (List.mem_of_getElem? ha)).symbolAt_one
  have inner : ¬f k 1 < 2 := Nat.not_lt.2 (h.joint hk1).2
  have silent : Symbol.nil.isNil = true := rfl
  simp [isNil, isSentinel, inner, nil, silent]

end LogAutomata.Automaton
