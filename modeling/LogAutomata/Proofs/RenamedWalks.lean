import LogAutomata.Proofs.Equivariance
import LogAutomata.Proofs.NilStates

/-!
# Walks of rearranged automata

If a renaming keeps the weighted links, as many as there are, then places of links
correspond one to one, and with them walks and legs. So leaving nil states out of
rearranged automata makes rearranged automata.
-/

namespace LogAutomata.Automaton

variable {W : Type} {a b : Automaton W}

-- ---------------------------------------------------------------------------
-- Places
-- ---------------------------------------------------------------------------

open Classical in
noncomputable def numberIn {α : Type} {xs ys : List α} (h : xs.Perm ys) (n : Nat) : Nat :=
  if hn : n < xs.length then h.idxBij ⟨n, hn⟩ else n

theorem getElem?_numberIn {α : Type} {xs ys : List α} (h : xs.Perm ys) {n : Nat} {x : α}
    (hx : xs[n]? = some x) : ys[numberIn h n]? = some x ∧ numberIn h.symm (numberIn h n) = n := by
  classical
  obtain ⟨hn, rfl⟩ := List.getElem?_eq_some_iff.1 hx
  have number : numberIn h n = h.idxBij ⟨n, hn⟩ := dif_pos hn
  have lt : (h.idxBij ⟨n, hn⟩ : Nat) < ys.length := (h.idxBij ⟨n, hn⟩).isLt
  have back := h.idxBij_rightInverse_idxBij_symm ⟨n, hn⟩
  rw [number]
  refine ⟨List.getElem?_eq_some_iff.2 ⟨lt, h.getElem_idxBij_eq_getElem ⟨n, hn⟩⟩, ?_⟩
  rw [numberIn, dif_pos lt]
  exact congrArg Fin.val back

structure Renaming.Places (r : Renaming a b) where
  image : Place → Place
  back : Place → Place
  state_image : ∀ x, (image x).state = r.image x.state
  state_back : ∀ y, (back y).state = r.back y.state
  arcAt_image : ∀ x e, a.arcAt x = some e → b.arcAt (image x) = some (r.image e.1, e.2)
  arcAt_back : ∀ y e, b.arcAt y = some e → a.arcAt (back y) = some (r.back e.1, e.2)
  back_image : ∀ x e, a.arcAt x = some e → back (image x) = x
  image_back : ∀ y e, b.arcAt y = some e → image (back y) = y

theorem Renaming.KeepsArcs.exists_places {r : Renaming a b} (h : r.KeepsArcs) :
    Nonempty r.Places := by
  have rows : ∀ i, i < a.size → ∃ f g : Nat → Nat,
      (∀ n e, (a.arcsFrom i)[n]? = some e →
        (b.arcsFrom (r.image i))[f n]? = some (r.image e.1, e.2) ∧ g (f n) = n) ∧
      ∀ n e, (b.arcsFrom (r.image i))[n]? = some e →
        (a.arcsFrom i)[g n]? = some (r.back e.1, e.2) ∧ f (g n) = n := by
    intro i hi
    refine ⟨numberIn (h i hi), numberIn (h i hi).symm, fun n e he => ?_, fun n e he => ?_⟩
    · exact getElem?_numberIn (h i hi) (by rw [List.getElem?_map, he]; rfl)
    · obtain ⟨hg, hfg⟩ := getElem?_numberIn (h i hi).symm he
      rw [List.getElem?_map, Option.map_eq_some_iff] at hg
      obtain ⟨d, hd, rfl⟩ := hg
      refine ⟨?_, hfg⟩
      rw [hd, r.back_image d.1 (dest_lt_size (List.mem_of_getElem? hd))]
  choose! f g hf hg using rows
  refine ⟨⟨fun x => ⟨r.image x.state, f x.state x.number⟩,
    fun y => ⟨r.back y.state, g (r.back y.state) y.number⟩, fun _ => rfl, fun _ => rfl,
    fun x e he => ?_, fun y e he => ?_, fun x e he => ?_, fun y e he => ?_⟩⟩
  · exact (hf _ (state_lt_size he) _ _ he).1
  · have hlt := state_lt_size he
    refine (hg _ (r.back_lt_size _ hlt) _ _ ?_).1
    rwa [r.image_back _ hlt]
  · have hlt := state_lt_size he
    simp only [r.back_image _ hlt, (hf _ hlt _ _ he).2]
  · have hlt := state_lt_size he
    have := (hg _ (r.back_lt_size _ hlt) y.number e (by rwa [r.image_back _ hlt])).2
    simp only [r.image_back _ hlt, this]

theorem Renaming.isNil_image (r : Renaming a b) {i : Nat} (hi : i < a.size) :
    b.isNil (r.image i) = a.isNil i := by
  rcases i with _ | _ | i
  · rw [r.init]
    rfl
  · rw [r.final]
    rfl
  · have h2 := r.two_le_image hi (Nat.le_add_left 2 i)
    have inner : ∀ {k}, 2 ≤ k → isSentinel k = false := fun h => decide_eq_false (Nat.not_lt.2 h)
    rw [isNil, isNil, inner h2, inner (Nat.le_add_left 2 i), r.symbolAt _ hi]

namespace Renaming.Places
variable {r : Renaming a b}

def symm (p : r.Places) (ha : 2 ≤ a.size) : (r.symm ha).Places where
  image := p.back
  back := p.image
  state_image := p.state_back
  state_back := p.state_image
  arcAt_image := p.arcAt_back
  arcAt_back := p.arcAt_image
  back_image := p.image_back
  image_back := p.back_image

-- ---------------------------------------------------------------------------
-- Walks
-- ---------------------------------------------------------------------------

variable [LogWeight W] (p : r.Places) (ha : a.WellFormed) (hb : b.WellFormed)
include ha hb

theorem arrival_image {x : Place} {j : Nat} (h : a.arrival x = some j) :
    b.arrival (p.image x) = some (r.image j) := by
  obtain ⟨e, he, rfl⟩ := ha.arrival_iff_arcAt.1 h
  exact hb.arrival_iff_arcAt.2 ⟨_, p.arcAt_image x e he, rfl⟩

theorem isWalk_map {i j : Nat} {ps : List Place} (h : a.IsWalk i ps j) :
    b.IsWalk (r.image i) (ps.map p.image) (r.image j) := by
  induction h with
  | nil i => exact .nil _
  | cons hx _ ih =>
    exact isWalk_cons_iff.2 ⟨p.state_image _, _, p.arrival_image ha hb hx, ih⟩

theorem entered_map {i j : Nat} {ps : List Place} (h : a.IsWalk i ps j) :
    b.entered (ps.map p.image) = (a.entered ps).map r.image := by
  induction h with
  | nil i => rfl
  | cons hx _ ih =>
    rw [List.map_cons, entered_cons hx, entered_cons (p.arrival_image ha hb hx), ih, List.map_cons]

theorem weights_map {i j : Nat} {ps : List Place} (h : a.IsWalk i ps j) :
    b.weights (ps.map p.image) = a.weights ps := by
  induction h with
  | nil i => rfl
  | @cons i j k n rest hx _ ih =>
    obtain ⟨e, he, -⟩ := ha.arrival_iff_arcAt.1 hx
    have ha' : (a.linkAt ⟨i, n⟩).map Link.weight = some e.2 := by rw [ha.weight_eq_map, he]; rfl
    have hb' : (b.linkAt (p.image ⟨i, n⟩)).map Link.weight = some e.2 := by
      rw [hb.weight_eq_map, p.arcAt_image _ e he]
      rfl
    unfold weights at ih ⊢
    simp only [List.map_cons, List.filterMap_cons, ha', hb', ih]

theorem walkWeight_map {i j : Nat} {ps : List Place} (h : a.IsWalk i ps j) :
    b.walkWeight (ps.map p.image) = a.walkWeight ps := by
  rw [walkWeight, walkWeight, p.weights_map ha hb h]

omit hb in
theorem map_back {i j : Nat} {ps : List Place} (h : a.IsWalk i ps j) :
    (ps.map p.image).map p.back = ps := by
  induction h with
  | nil i => rfl
  | cons hx _ ih =>
    obtain ⟨e, he, -⟩ := ha.arrival_iff_arcAt.1 hx
    rw [List.map_cons, List.map_cons, ih, p.back_image _ e he]

-- ---------------------------------------------------------------------------
-- Legs
-- ---------------------------------------------------------------------------

def trip (p : r.Places) (t : Trip) : Trip := ⟨r.image t.root, t.places.map p.image⟩

theorem tip_trip {t : Trip} (h : a.IsWalk t.root t.places (a.tip t)) :
    b.tip (p.trip t) = r.image (a.tip t) := (p.isWalk_map ha hb h).tip_eq

theorem underWay_trip {t : Trip} (h : a.UnderWay t) : b.UnderWay (p.trip t) := by
  have entered := p.entered_map ha hb h.walk
  have lt : ∀ {j}, j ∈ a.entered t.places → j < a.size := h.walk.path.lt_size
  refine ⟨?_, fun j hj => ?_, ?_⟩
  · rw [p.tip_trip ha hb h.walk]
    exact p.isWalk_map ha hb h.walk
  · rw [trip, entered] at hj
    obtain ⟨i, hi, rfl⟩ := List.mem_map.1 hj
    rw [r.isNil_image (lt hi), h.nils i hi]
  · rw [trip, entered]
    exact h.nodup.map_on fun i hi j hj => (r.image_inj (lt hi) (lt hj)).1

theorem leg_trip {t : Trip} (h : a.Leg t) (hr : t.root < a.size) : b.Leg (p.trip t) := by
  have tip := p.tip_trip ha hb h.walk
  refine ⟨?_, ?_, ?_⟩
  · obtain ⟨ps, x, hp, way⟩ := h.exists_last
    refine ⟨ps.map p.image, p.image x, ?_, p.underWay_trip ha hb way⟩
    rw [trip, hp, List.map_append, List.map_singleton]
  · rw [tip]
    exact p.isWalk_map ha hb h.walk
  · rw [tip, r.isNil_image (Reaches.lt_size ⟨_, h.walk⟩ hr), h.kept]

omit hb in
theorem trip_symm_trip {t : Trip} (h : a.IsWalk t.root t.places (a.tip t)) (hr : t.root < a.size) :
    (p.symm ha.two_le_size).trip (p.trip t) = t :=
  Trip.ext (r.back_image _ hr) (p.map_back ha h)

end Renaming.Places

-- ---------------------------------------------------------------------------
-- Without nil states
-- ---------------------------------------------------------------------------

theorem Renaming.keeps_image_iff (r : Renaming a b) {i : Nat} (hi : i < a.size) :
    b.Keeps audible (r.image i) ↔ a.Keeps audible i := by
  rw [keeps_audible_iff (r.lt_size i hi), keeps_audible_iff hi, r.isNil_image hi]

def Renaming.KeptPlaces (r : Renaming a b) (k m : Nat) : Prop := ∃ i, i < a.size ∧
  a.Keeps audible i ∧ a.keptImage audible i = k ∧ b.keptImage audible (r.image i) = m

namespace Skips
variable [LogWeight W] {a' b' : Automaton W} {ls ls' : List Trip} (h : a.Skips b ls)
  (h' : a'.Skips b' ls') {r : Renaming a a'} (keeps : r.KeepsArcs) (p : r.Places)
  (ha : a.WellFormed) (ha' : a'.WellFormed)
include h h' keeps p ha ha'

/-- The legs of the one are those of the other along corresponding places. -/
theorem legs_perm : (ls.map p.trip).Perm ls' := by
  have h0 : 0 < a.size := Nat.lt_of_lt_of_le Nat.two_pos ha.two_le_size
  have links := keeps.mapsArcs.mapsLinks
  have root_lt : ∀ {l}, l ∈ ls → l.root < a.size := fun hl =>
    ((h.mem_legs_iff ha).1 hl).2.2.lt_size h0
  have back : ∀ {l}, l ∈ ls → (p.symm ha.two_le_size).trip (p.trip l) = l := fun hl =>
    p.trip_symm_trip ha (h.legs.leg _ hl).walk (root_lt hl)
  have hn : (ls.map p.trip).Nodup := h.legs.nodup.map_on fun l hl m hm he => by
    rw [← back hl, he, back hm]
  refine (List.perm_ext_iff_of_nodup hn h'.legs.nodup).2 fun l' => ?_
  rw [List.mem_map, h'.mem_legs_iff ha']
  constructor
  · rintro ⟨l, hl, rfl⟩
    obtain ⟨leg, kept, reaches⟩ := (h.mem_legs_iff ha).1 hl
    refine ⟨p.leg_trip ha ha' leg (root_lt hl), ?_, ?_⟩
    · exact (r.isNil_image (root_lt hl)).trans kept
    · exact (links.init_reaches_iff ha.two_le_size (root_lt hl)).2 reaches
  · rintro ⟨leg, kept, reaches⟩
    have hlt : l'.root < a'.size :=
      reaches.lt_size (Nat.lt_of_lt_of_le Nat.two_pos ha'.two_le_size)
    refine ⟨(p.symm ha.two_le_size).trip l', (h.mem_legs_iff ha).2 ⟨?_, ?_, ?_⟩, ?_⟩
    · exact (p.symm ha.two_le_size).leg_trip ha' ha leg hlt
    · exact ((r.symm ha.two_le_size).isNil_image hlt).trans kept
    · exact ((links.symm ha.two_le_size).init_reaches_iff ha'.two_le_size hlt).2 reaches
    · exact (p.symm ha.two_le_size).trip_symm_trip ha' leg.walk hlt

omit keeps p in
theorem pairs_keptPlaces (r : Renaming a a') : b.Pairs b' r.KeptPlaces := by
  have two := ha.two_le_size
  refine ⟨fun k hk => ?total, fun m hm => ?onto, ?one_to_one, ?init, ?final, ?symbols⟩
  case total =>
    obtain ⟨i, hi, ki, rfl⟩ := h.exists_model ha hk
    exact ⟨_, h'.lt_size _ ((r.keeps_image_iff hi).2 ki), i, hi, ki, rfl, rfl⟩
  case onto =>
    obtain ⟨i', hi', ki', rfl⟩ := h'.exists_model ha' hm
    have hi := r.back_lt_size i' hi'
    have ki := (r.keeps_image_iff hi).1 (by rwa [r.image_back i' hi'])
    exact ⟨_, h.lt_size _ ki, _, hi, ki, rfl, by rw [r.image_back i' hi']⟩
  case one_to_one =>
    rintro k m k' m' ⟨i, hi, ki, rfl, rfl⟩ ⟨j, hj, kj, rfl, rfl⟩
    have same : a.keptImage audible i = a.keptImage audible j ↔ i = j :=
      ⟨keptImage_inj ki kj, fun he => he ▸ rfl⟩
    have same' : a'.keptImage audible (r.image i) = a'.keptImage audible (r.image j) ↔
        r.image i = r.image j :=
      ⟨keptImage_inj ((r.keeps_image_iff hi).2 ki) ((r.keeps_image_iff hj).2 kj), fun he => he ▸ rfl⟩
    rw [same, same', r.image_inj hi hj]
  case init =>
    exact ⟨0, Nat.lt_of_lt_of_le Nat.two_pos two, .inl Nat.two_pos, rfl, by rw [r.init]; rfl⟩
  case final => exact ⟨1, two, .inl Nat.one_lt_two, rfl, by rw [r.final]; rfl⟩
  case symbols =>
    rintro k m ⟨i, hi, ki, rfl, rfl⟩
    rcases i with _ | _ | i
    · rw [r.init]
      exact h'.wellFormed.symbolAt_zero.trans h.wellFormed.symbolAt_zero.symm
    · rw [r.final]
      exact h'.wellFormed.symbolAt_one.trans h.wellFormed.symbolAt_one.symm
    · have h2 := Nat.le_add_left 2 i
      rw [h.symbolAt _ h2 ki, h'.symbolAt _ (r.two_le_image hi h2) ((r.keeps_image_iff hi).2 ki),
        r.symbolAt _ hi]

omit keeps p in
theorem exists_renaming (r : Renaming a a') : ∃ s : Renaming b b', ∀ i, i < a.size →
    a.Keeps audible i → s.image (a.keptImage audible i) = a'.keptImage audible (r.image i) := by
  obtain ⟨s, hs⟩ := (h.pairs_keptPlaces h' ha ha' r).exists_renaming h.wellFormed.two_le_size
  exact ⟨s, fun i hi ki => hs _ _ (h.lt_size i ki) ⟨i, hi, ki, rfl, rfl⟩⟩

theorem filter_root_perm {i : Nat} (hi : i < a.size) (ki : a.Keeps audible i) :
    ((ls.filter fun l => a.keptImage audible l.root == a.keptImage audible i).map p.trip).Perm
      (ls'.filter fun l => a'.keptImage audible l.root == a'.keptImage audible (r.image i)) := by
  have moved := (h.legs_perm h' keeps p ha ha').filter fun l =>
    a'.keptImage audible l.root == a'.keptImage audible (r.image i)
  rw [List.filter_map] at moved
  refine .trans (.of_eq (congrArg (List.map p.trip) (List.filter_congr fun l hl => ?_))) moved
  obtain ⟨-, kept, reaches⟩ := (h.mem_legs_iff ha).1 hl
  have hl := reaches.lt_size (Nat.lt_of_lt_of_le Nat.two_pos ha.two_le_size)
  have kl := (keeps_audible_iff hl).2 kept
  rw [Bool.eq_iff_iff, beq_iff_eq, Function.comp, beq_iff_eq]
  constructor
  · intro he
    rw [← keptImage_inj kl ki he]
    rfl
  · intro he
    have := keptImage_inj ((r.keeps_image_iff hl).2 kl) ((r.keeps_image_iff hi).2 ki) he
    rw [(r.image_inj hl hi).1 this]

theorem keepsArcs {s : Renaming b b'} (hs : ∀ i, i < a.size → a.Keeps audible i →
    s.image (a.keptImage audible i) = a'.keptImage audible (r.image i)) : s.KeepsArcs := by
  intro k hk
  obtain ⟨i, hi, ki, rfl⟩ := h.exists_model ha hk
  rw [hs i hi ki, h.arcsFrom, h'.arcsFrom, List.map_map]
  refine .trans (.of_eq ?_) ((h.filter_root_perm h' keeps p ha ha' hi ki).map _)
  rw [List.map_map]
  refine List.map_congr_left fun l hl => ?_
  obtain ⟨leg, -, reaches⟩ := (h.mem_legs_iff ha).1 (List.mem_of_mem_filter hl)
  have h0 : 0 < a.size := Nat.lt_of_lt_of_le Nat.two_pos ha.two_le_size
  have tip := hs _ ((reaches.trans ⟨_, leg.walk⟩).lt_size h0) leg.keeps_tip
  refine Prod.ext ?_ (p.walkWeight_map ha ha' leg.walk).symm
  exact tip.trans (congrArg _ (p.tip_trip ha ha' leg.walk).symm)

end Skips

theorem removeNilStates_isomorphic {a a' : Automaton ExactWeight} (ha : a.WellFormed)
    (ha' : a'.WellFormed) (hw : a.Weighted ExactWeight.Proper) (h : a.Isomorphic a') :
    Agree Isomorphic a.removeNilStates a'.removeNilStates := by
  obtain ⟨r, keeps⟩ := h
  obtain ⟨p⟩ := keeps.exists_places
  obtain ⟨b, ls, hb, h⟩ := removeNilStates_ok ha fun _ _ _ => hw.walkWeight_defined ha
  obtain ⟨b', ls', hb', h'⟩ :=
    removeNilStates_ok ha' fun _ _ _ => (keeps.weighted hw).walkWeight_defined ha'
  obtain ⟨s, hs⟩ := h.exists_renaming h' ha ha' r
  exact ⟨b, b', hb, hb', s, h.keepsArcs h' keeps p ha ha' hs⟩

end LogAutomata.Automaton
