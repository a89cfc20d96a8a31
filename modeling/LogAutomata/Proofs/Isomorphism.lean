import LogAutomata.Proofs.Transpose

/-!
# Renamings

Renamings can be turned around, put in a row and carried over to transposed
automata. If no two links run between the same two states, a renaming keeps the
arcs as soon as it maps them to arcs and no others.
-/

namespace LogAutomata.Automaton

variable {W : Type} {a b c : Automaton W}

def Single (a : Automaton W) : Prop := ∀ i, (a.successors i).Nodup

theorem Single.nodup_arcsFrom (h : a.Single) (i : Nat) : (a.arcsFrom i).Nodup := by
  have := h i
  rw [successors_eq] at this
  exact this.of_map _

theorem Single.weight_unique (h : a.Single) {i j : Nat} {v w : W} (hv : (j, v) ∈ a.arcsFrom i)
    (hw : (j, w) ∈ a.arcsFrom i) : v = w := by
  have hn := h i
  rw [successors_eq] at hn
  exact (Prod.mk.inj (List.inj_on_of_nodup_map hn hv hw rfl)).2

theorem Single.nodup_ends (h : a.Single) : (a.arcs.map fun r => (r.src, r.dest)).Nodup := by
  rw [arcs, arcsOf, List.map_flatMap, List.nodup_flatMap]
  refine ⟨fun i _ => ?_, ?_⟩
  · have := h i
    rw [successors_eq] at this
    rw [List.map_map]
    refine this.of_map _ |>.map_on fun e he f hf hef => ?_
    exact List.inj_on_of_nodup_map this he hf (Prod.mk.inj hef).2
  · refine List.nodup_range.imp fun {i j} hij p hp hp' => hij ?_
    obtain ⟨r, hr, rfl⟩ := List.mem_map.1 hp
    obtain ⟨e, -, rfl⟩ := List.mem_map.1 hr
    obtain ⟨s, hs, he⟩ := List.mem_map.1 hp'
    obtain ⟨f, -, rfl⟩ := List.mem_map.1 hs
    exact (Prod.mk.inj he).1.symm

theorem Single.nodup_arcs (h : a.Single) : a.arcs.Nodup := h.nodup_ends.of_map _

theorem Transposes.single (h : a.Transposes b) (ha : a.Single) : b.Single := by
  intro i
  have hi : i = mirror (mirror i) := (mirror_mirror i).symm
  rw [hi, successors_eq, h.arcsFrom, List.map_map]
  refine (ha.nodup_arcs.filter _).map_on fun r hr s hs he => ?_
  obtain ⟨hr, hri⟩ := List.mem_filter.1 hr
  obtain ⟨hs, hsi⟩ := List.mem_filter.1 hs
  have hsrc : r.src = s.src := mirror_inj.1 he
  have hdest : r.dest = s.dest := (beq_iff_eq.1 hri).trans (beq_iff_eq.1 hsi).symm
  have hr := mem_arcs_iff.1 hr
  have hs := mem_arcs_iff.1 hs
  rw [hsrc, hdest] at hr
  have hw := ha.weight_unique hr hs
  obtain ⟨src, dest, w⟩ := r
  cases hsrc
  cases hdest
  cases hw
  rfl

theorem Single.walk_unique [LogWeight W] (h : a.Single) (ha : a.WellFormed) {i j k : Nat}
    {ps qs : List Place} (hp : a.IsWalk i ps j) (hq : a.IsWalk i qs k)
    (he : a.entered ps = a.entered qs) : ps = qs := by
  have arrives : ∀ {i n m}, a.arrival ⟨i, n⟩ = some m → (a.successors i)[n]? = some m := by
    intro i n m hm
    rwa [ha.arrival_eq, ← List.getElem?_map, ← successors_eq] at hm
  induction hp generalizing qs with
  | nil i =>
    have := length_entered hq
    rw [← he] at this
    exact (List.eq_nil_of_length_eq_zero this.symm).symm
  | @cons i j k n rest hn _ ih =>
    cases hq with
    | nil => simp [entered, List.filterMap_cons_some hn] at he
    | @cons _ j' _ n' rest' hn' hq =>
      rw [entered, entered, List.filterMap_cons_some hn, List.filterMap_cons_some hn'] at he
      obtain ⟨rfl, ht⟩ := List.cons.inj he
      have hlt := (List.getElem?_eq_some_iff.1 (arrives hn)).1
      obtain rfl := (List.getElem?_inj hlt (h i)).1 ((arrives hn).trans (arrives hn').symm)
      rw [ih hq ht]

structure Mirrors (a b : Automaton W) : Prop where
  size_eq : b.size = a.size
  symbolAt : ∀ i, 2 ≤ i → b.symbolAt i = a.symbolAt i
  mem_arcsFrom_iff : ∀ i j w, (mirror j, w) ∈ b.arcsFrom (mirror i) ↔ (i, w) ∈ a.arcsFrom j

theorem Transposes.mirrors (h : a.Transposes b) : a.Mirrors b :=
  ⟨h.size_eq, h.symbolAt, fun _ _ _ => h.mem_arcsFrom_iff⟩

theorem Mirrors.symm (h : a.Mirrors b) : b.Mirrors a where
  size_eq := h.size_eq.symm
  symbolAt i hi := (h.symbolAt i hi).symm
  mem_arcsFrom_iff i j w := by
    rw [← h.mem_arcsFrom_iff, mirror_mirror, mirror_mirror]

theorem Mirrors.mem_successors_iff (h : a.Mirrors b) {i j : Nat} :
    mirror j ∈ b.successors (mirror i) ↔ i ∈ a.successors j := by
  rw [Automaton.mem_successors_iff, Automaton.mem_successors_iff]
  exact exists_congr fun w => h.mem_arcsFrom_iff i j w

namespace Renaming

theorem image_inj (r : Renaming a b) {i j : Nat} (hi : i < a.size) (hj : j < a.size) :
    r.image i = r.image j ↔ i = j :=
  ⟨fun h => by rw [← r.back_image i hi, h, r.back_image j hj], congrArg _⟩

theorem two_le_image (r : Renaming a b) {i : Nat} (hi : i < a.size) (h2 : 2 ≤ i) :
    2 ≤ r.image i := by
  have h0 : r.image i ≠ 0 := fun he => by
    have := (r.image_inj hi (Nat.lt_of_le_of_lt (Nat.zero_le i) hi)).1 (he.trans r.init.symm)
    omega
  have h1 : r.image i ≠ 1 := fun he => by
    have := (r.image_inj hi (Nat.lt_trans h2 hi)).1
      (he.trans r.final.symm)
    omega
  omega

def ofSizeEq (size_eq : b.size = a.size) (symbolAt : ∀ i, b.symbolAt i = a.symbolAt i) :
    Renaming a b where
  image := id
  back := id
  lt_size _ hi := size_eq.symm ▸ hi
  back_lt_size _ hj := size_eq ▸ hj
  back_image _ _ := rfl
  image_back _ _ := rfl
  init := rfl
  final := rfl
  symbolAt i _ := symbolAt i

def symm (r : Renaming a b) (ha : 2 ≤ a.size) : Renaming b a where
  image := r.back
  back := r.image
  lt_size := r.back_lt_size
  back_lt_size := r.lt_size
  back_image := r.image_back
  image_back := r.back_image
  init := by
    have := r.back_image 0 (Nat.lt_of_lt_of_le Nat.two_pos ha)
    rwa [r.init] at this
  final := by
    have := r.back_image 1 ha
    rwa [r.final] at this
  symbolAt j hj := by
    rw [← r.symbolAt (r.back j) (r.back_lt_size j hj), r.image_back j hj]

def trans (r : Renaming a b) (s : Renaming b c) : Renaming a c where
  image i := s.image (r.image i)
  back k := r.back (s.back k)
  lt_size i hi := s.lt_size _ (r.lt_size i hi)
  back_lt_size k hk := r.back_lt_size _ (s.back_lt_size k hk)
  back_image i hi := by rw [s.back_image _ (r.lt_size i hi), r.back_image i hi]
  image_back k hk := by rw [r.image_back _ (s.back_lt_size k hk), s.image_back k hk]
  init := by rw [r.init, s.init]
  final := by rw [r.final, s.final]
  symbolAt i hi := by rw [s.symbolAt _ (r.lt_size i hi), r.symbolAt i hi]

theorem size_eq (r : Renaming a b) : b.size = a.size := by
  have hab : (Finset.range a.size).card ≤ (Finset.range b.size).card :=
    Finset.card_le_card_of_injOn r.image
      (fun i hi => Finset.mem_coe.2 (Finset.mem_range.2 (r.lt_size i (Finset.mem_range.1 hi))))
      fun i hi j hj => (r.image_inj (Finset.mem_range.1 hi) (Finset.mem_range.1 hj)).1
  have hba : (Finset.range b.size).card ≤ (Finset.range a.size).card :=
    Finset.card_le_card_of_injOn r.back
      (fun i hi => Finset.mem_coe.2 (Finset.mem_range.2 (r.back_lt_size i (Finset.mem_range.1 hi))))
      fun i hi j hj he => by
        rw [← r.image_back i (Finset.mem_range.1 hi), he, r.image_back j (Finset.mem_range.1 hj)]
  rw [Finset.card_range, Finset.card_range] at hab hba
  exact Nat.le_antisymm hba hab

-- ---------------------------------------------------------------------------
-- Arcs
-- ---------------------------------------------------------------------------

def MapsArcs (r : Renaming a b) : Prop := ∀ i j w, i < a.size → j < a.size →
  ((j, w) ∈ a.arcsFrom i ↔ (r.image j, w) ∈ b.arcsFrom (r.image i))

theorem MapsArcs.trans {r : Renaming a b} {s : Renaming b c} (hr : r.MapsArcs) (hs : s.MapsArcs) :
    (r.trans s).MapsArcs := fun i j w hi hj =>
  (hr i j w hi hj).trans (hs _ _ w (r.lt_size i hi) (r.lt_size j hj))

theorem MapsArcs.symm {r : Renaming a b} (hr : r.MapsArcs) (ha : 2 ≤ a.size) :
    (r.symm ha).MapsArcs := by
  intro i j w hi hj
  have := hr (r.back i) (r.back j) w (r.back_lt_size i hi) (r.back_lt_size j hj)
  rw [r.image_back i hi, r.image_back j hj] at this
  exact this.symm

theorem MapsArcs.mem_successors_iff {r : Renaming a b} (hr : r.MapsArcs) {i j : Nat}
    (hi : i < a.size) (hj : j < a.size) :
    j ∈ a.successors i ↔ r.image j ∈ b.successors (r.image i) := by
  rw [Automaton.mem_successors_iff, Automaton.mem_successors_iff]
  exact exists_congr fun w => hr i j w hi hj

/-- Rows without repetition are one row renamed if they have the same entries. -/
theorem row_perm (r : Renaming a b) {es fs : List (Nat × W)} (hes : es.Nodup) (hfs : fs.Nodup)
    (lt : ∀ e ∈ es, e.1 < a.size) (lt' : ∀ e ∈ fs, e.1 < b.size)
    (mem : ∀ j w, j < a.size → ((j, w) ∈ es ↔ (r.image j, w) ∈ fs)) :
    (es.map fun e => (r.image e.1, e.2)).Perm fs := by
  have hn : (es.map fun e => (r.image e.1, e.2)).Nodup := by
    refine hes.map_on fun e he f hf hef => ?_
    obtain ⟨h1, h2⟩ := Prod.mk.inj hef
    exact Prod.ext ((r.image_inj (lt e he) (lt f hf)).1 h1) h2
  refine (List.perm_ext_iff_of_nodup hn hfs).2 fun ⟨k, w⟩ => ?_
  rw [List.mem_map]
  constructor
  · rintro ⟨⟨j, v⟩, he, hk⟩
    obtain ⟨rfl, rfl⟩ := Prod.mk.inj hk
    exact (mem j v (lt _ he)).1 he
  · intro hk
    have hkb : k < b.size := lt' _ hk
    refine ⟨(r.back k, w), (mem _ w (r.back_lt_size k hkb)).2 ?_, ?_⟩
    · rwa [r.image_back k hkb]
    · rw [r.image_back k hkb]

theorem MapsArcs.keepsArcs {r : Renaming a b} (hr : r.MapsArcs) (ha : a.Single) (hb : b.Single) :
    r.KeepsArcs := fun i hi =>
  r.row_perm (ha.nodup_arcsFrom i) (hb.nodup_arcsFrom _) (fun _ he => dest_lt_size he)
    (fun _ he => dest_lt_size he) fun j w hj => hr i j w hi hj

theorem keepsArcs_of_perm (r : Renaming a b) (h : (a.arcs.map (Arc.move r.image)).Perm b.arcs) :
    r.KeepsArcs := by
  intro i hi
  have row := out_perm h (r.image i)
  rw [out_move fun s hs => (r.image_inj (src_lt_size (mem_arcs_iff.1 hs)) hi).1, out_arcs,
    out_arcs] at row
  exact row

def transpose [LogWeight W] {a' b' : Automaton W} (r : Renaming a b) (ha : a.Mirrors a')
    (hb : b.Mirrors b') (wa : a'.WellFormed) (wb : b'.WellFormed) : Renaming a' b' where
  image i := mirror (r.image (mirror i))
  back j := mirror (r.back (mirror j))
  lt_size i hi := by
    have h2 := wb.two_le_size
    have h2' := wa.two_le_size
    rw [mirror_lt h2, hb.size_eq]
    exact r.lt_size _ (ha.size_eq ▸ (mirror_lt h2').2 hi)
  back_lt_size j hj := by
    have h2 := wb.two_le_size
    have h2' := wa.two_le_size
    rw [mirror_lt h2', ha.size_eq]
    exact r.back_lt_size _ (hb.size_eq ▸ (mirror_lt h2).2 hj)
  back_image i hi := by
    have h2 := wa.two_le_size
    rw [mirror_mirror, r.back_image _ (ha.size_eq ▸ (mirror_lt h2).2 hi), mirror_mirror]
  image_back j hj := by
    have h2 := wb.two_le_size
    rw [mirror_mirror, r.image_back _ (hb.size_eq ▸ (mirror_lt h2).2 hj), mirror_mirror]
  init := by rw [mirror_zero, r.final, mirror_one]
  final := by rw [mirror_one, r.init, mirror_zero]
  symbolAt i hi := by
    rcases i with _ | _ | i
    · rw [mirror_zero, r.final, mirror_one, wb.symbolAt_zero, wa.symbolAt_zero]
    · rw [mirror_one, r.init, mirror_zero, wb.symbolAt_one, wa.symbolAt_one]
    · have h2 : 2 ≤ i + 2 := Nat.le_add_left 2 i
      change b'.symbolAt (mirror (r.image (mirror (i + 2)))) = a'.symbolAt (i + 2)
      rw [ha.size_eq] at hi
      have him := r.two_le_image hi h2
      rw [mirror_of_le h2, mirror_of_le him, hb.symbolAt _ him, ha.symbolAt _ h2, r.symbolAt _ hi]

theorem MapsArcs.transpose [LogWeight W] {a' b' : Automaton W} {r : Renaming a b}
    (hr : r.MapsArcs) (ha : a.Mirrors a') (hb : b.Mirrors b') (wa : a'.WellFormed)
    (wb : b'.WellFormed) : (r.transpose ha hb wa wb).MapsArcs := by
  intro i j w hi hj
  have h2 := wa.two_le_size
  have := hr (mirror j) (mirror i) w (ha.size_eq ▸ (mirror_lt h2).2 hj)
    (ha.size_eq ▸ (mirror_lt h2).2 hi)
  rw [← ha.mem_arcsFrom_iff, ← hb.mem_arcsFrom_iff, mirror_mirror, mirror_mirror] at this
  exact this

end Renaming

-- ---------------------------------------------------------------------------
-- Pairs of positions
-- ---------------------------------------------------------------------------

/-- The relation pairs off the positions of two automata, and the symbols go with them. -/
structure Pairs (a b : Automaton W) (R : Nat → Nat → Prop) : Prop where
  total : ∀ i, i < a.size → ∃ j, j < b.size ∧ R i j
  onto : ∀ j, j < b.size → ∃ i, i < a.size ∧ R i j
  one_to_one : ∀ i j i' j', R i j → R i' j' → (i = i' ↔ j = j')
  init : R 0 0
  final : R 1 1
  symbolAt : ∀ i j, R i j → b.symbolAt j = a.symbolAt i

theorem Pairs.exists_renaming {a b : Automaton W} {R : Nat → Nat → Prop} (h : a.Pairs b R)
    (ha : 2 ≤ a.size) : ∃ r : Renaming a b, ∀ i j, i < a.size → R i j → r.image i = j := by
  obtain ⟨total, onto, one_to_one, init, final, symbolAt⟩ := h
  choose! image himage using total
  choose! back hback using onto
  have image_eq : ∀ i j, i < a.size → R i j → image i = j := fun i j hi hij =>
    (one_to_one _ _ _ _ (himage i hi).2 hij).1 rfl
  refine ⟨⟨image, back, fun i hi => (himage i hi).1, fun j hj => (hback j hj).1, fun i hi => ?_,
    fun j hj => ?_, image_eq 0 0 (Nat.lt_of_lt_of_le Nat.two_pos ha) init, image_eq 1 1 ha final,
    fun i hi => symbolAt _ _ (himage i hi).2⟩, image_eq⟩
  · obtain ⟨hlt, hi⟩ := himage i hi
    exact (one_to_one _ _ _ _ (hback _ hlt).2 hi).2 rfl
  · obtain ⟨hlt, hj⟩ := hback j hj
    exact image_eq _ _ hlt hj

end LogAutomata.Automaton
