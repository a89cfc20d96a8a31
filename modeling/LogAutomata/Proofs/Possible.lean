import LogAutomata.Proofs.Open

/-!
# Sequences that stay possible

A sequence is possible if one of its walks has a finite weight. Minimization keeps
it possible if no state of the walk has an impossible last visit, and it makes
nothing possible out of nothing. Beyond that it can do both: a possible sequence
gets lost behind a last visit that is impossible, and where states with open and
with closed links are merged, their open links can meet.
-/

namespace LogAutomata.Automaton

open ExactWeight (Proper)

variable {a b : Automaton ExactWeight}

/-- Some walk from Init to Final that is not impossible spells this sequence. -/
def CanSpell (a : Automaton ExactWeight) (s : List Symbol) : Prop :=
  ∃ ps, a.IsWalk 0 ps 1 ∧ a.walkWeight ps ≠ .impossible ∧ a.spelling ps = s

theorem CanSpell.spells {s : List Symbol} (h : a.CanSpell s) : a.Spells s := by
  obtain ⟨ps, hp, -, hs⟩ := h
  exact ⟨ps, hp, hs⟩

theorem IsWalk.reaches_mem {i k : Nat} {ps : List Place} (h : a.IsWalk i ps k) :
    ∀ p ∈ ps, a.Reaches i p.state ∧ a.Reaches p.state k := by
  induction h with
  | nil => simp
  | @cons i j k n ps hp hw ih =>
    refine List.forall_mem_cons.2 ⟨⟨.refl a i, ⟨_, .cons hp hw⟩⟩, fun p hm => ?_⟩
    have first := reaches_of_mem_successors (mem_successors_of_arrival hp)
    exact ⟨first.trans (ih p hm).1, (ih p hm).2⟩

theorem weights_subset {p : Place} {ps : List Place} (hp : p ∈ ps) :
    a.weights [p] ⊆ a.weights ps := ((List.singleton_sublist.2 hp).filterMap _).subset

theorem offsetAt_eq_last (a : Automaton ExactWeight) (i : Nat) : a.offsetAt i =
    (((a.visits a.size).filter (·.2 = i)).getLast?.map fun v => a.walkWeight v.1).getD 0 := by
  rw [offsetAt, get?_offsetsOf]

section
variable (ha : a.WellFormed) (hw : a.Weighted Proper)
include ha hw

theorem Weighted.walkWeight_ne_iff {i j : Nat} {ps : List Place} (hp : a.IsWalk i ps j) :
    a.walkWeight ps ≠ .impossible ↔ ∀ w ∈ a.weights ps, w.Finite := by
  rw [← (hw.proper_walk ha hp).finite_iff, finite_walkWeight_iff]

theorem Weighted.finite_offsetAt_iff (hc : a.Acyclic) {i : Nat} (hi : a.Reaches 0 i) :
    (a.offsetAt i).Finite ↔ a.offsetAt i ≠ .impossible :=
  (hw.offsetAt ExactWeight.proper_zero (fun _ _ => Proper.add) ha hc hi).finite_iff

end

-- ---------------------------------------------------------------------------
-- Walks through open links
-- ---------------------------------------------------------------------------

namespace Covers

variable {ready r : Nat → Nat → Prop} (h : a.Covers b ready r) (hb : b.WellFormed)
include h hb

omit hb in
theorem spell_singleton {i k : Nat} (hk : r i k) : b.spell [k] = a.spell [i] := by
  have h0 := h.init i k hk
  have h1 := h.final i k hk
  rcases Nat.lt_or_ge i 2 with hi | hi
  · rw [spell_cons_sentinel hi, spell_cons_sentinel (by omega)]
    rfl
  · rw [spell_cons_interior hi, spell_cons_interior (by omega), h.symbolAt i k hi hk]
    rfl

/-- A walk to Final through ready links is matched by one through open links. -/
theorem exists_walk {i k : Nat} {ps : List Place} (hp : a.IsWalk i ps 1) (hi : a.Reaches 0 i)
    (hk : r i k) (hr : ∀ p ∈ ps, ∀ j, a.arrival p = some j → ready p.state j) :
    ∃ qs, b.IsWalk k qs 1 ∧ b.spelling qs = a.spelling ps ∧ ∀ w ∈ b.weights qs, w.Finite := by
  induction ps generalizing i k with
  | nil =>
    obtain rfl := isWalk_nil_iff.1 hp
    exact ⟨[], isWalk_nil_iff.2 ((h.final 1 k hk).2 rfl), rfl, by simp [weights]⟩
  | cons p ps ih =>
    obtain ⟨rfl, j, hj, hp⟩ := isWalk_cons_iff.1 hp
    obtain ⟨ready, hr⟩ := List.forall_mem_cons.1 hr
    have hrj := hi.step (mem_successors_of_arrival hj)
    obtain ⟨m, hm, -⟩ := h.exists_stands j hrj ⟨ps, hp⟩
    obtain ⟨n, hn, hf⟩ := ((h.open_iff k m).2 ⟨_, j, hk, hm, ready j hj⟩).exists_place hb
    obtain ⟨qs, hq, hs, hfin⟩ := ih hp hrj hm hr
    have enter : b.spelling [⟨k, n⟩] = a.spelling [p] := by
      change b.spell (b.entered _) = a.spell (a.entered _)
      rw [entered, entered, List.filterMap_cons_some hn, List.filterMap_cons_some hj]
      exact h.spell_singleton hm
    refine ⟨⟨k, n⟩ :: qs, .cons hn hq, ?_, ?_⟩
    · rw [← List.singleton_append, spelling_append, enter, hs, ← spelling_append]
      rfl
    · rw [← List.singleton_append, weights_append]
      exact List.forall_mem_append.2 ⟨hf, hfin⟩

theorem exists_ready_final {s : List Symbol} (hw : b.Weighted Proper) (hs : b.CanSpell s) :
    ∃ i, ready i 1 := by
  obtain ⟨ps, hp, hne, -⟩ := hs
  have hf := (hw.walkWeight_ne_iff hb hp).1 hne
  rcases List.eq_nil_or_concat ps with rfl | ⟨qs, q, rfl⟩
  · exact absurd (isWalk_nil_iff.1 hp) Nat.zero_ne_one
  · rw [List.concat_eq_append] at hp hf
    rw [weights_append, List.forall_mem_append] at hf
    obtain ⟨i, j, -, hj, hr⟩ :=
      (h.open_iff _ _).1 (open_of_place hb (isWalk_concat_iff.1 hp).2 hf.2)
    exact ⟨i, (h.final j 1 hj).1 rfl ▸ hr⟩

end Covers

-- ---------------------------------------------------------------------------
-- Minimization
-- ---------------------------------------------------------------------------

/-- The links of the minimized automaton that can be taken stand for the ready ones. -/
theorem minimize_covers (ha : a.WellFormed) (hc : a.Acyclic) (hw : a.Weighted Proper)
    (checked : Bool) : ∃ b stands, a.minimize checked = .ok b ∧ b.WellFormed ∧ b.Weighted Proper ∧
      (∀ s, b.Spells s ↔ a.Spells s) ∧ a.Covers b a.Ready stands := by
  obtain ⟨c, l, t, m, y, p, q, b, hb, -, -, ⟨ry, spells, r, hr⟩, -, hnorm⟩ :=
    minimize_ok ha hc hw (P := fun c => (∀ s, c.Spells s ↔ a.Spells s) ∧
        ∃ r, a.Covers c a.Ready r)
      (fun x hpush _ => ⟨hpush.retraces_pushed.spells_iff, _, hpush.covers_pushed⟩)
      (fun c l t m b p q hP rc hround => ⟨fun s => (hround.spells_iff rc.acyclic s).trans (hP.1 s),
        hP.2.elim fun _ hr => ⟨_, hr.comp (hround.covers rc.proper)⟩⟩) checked
  exact ⟨b, r, hb, hnorm.wellFormed, hnorm.weighted_normalized ry.proper,
    fun s => (hnorm.retraces_normalized.spells_iff s).trans (spells s),
    hr.normalize hnorm ry.proper⟩

section
variable (ha : a.WellFormed) (hc : a.Acyclic) (hw : a.Weighted Proper)
include ha hc hw

theorem Ready.exists_canSpell {i : Nat} (h : a.Ready i 1) : ∃ s, a.CanSpell s := by
  obtain ⟨hi, ho, hopen⟩ := h
  obtain ⟨n, hn, hf⟩ := hopen.exists_place ha
  obtain ⟨-, ps, hp, he⟩ := offsetAt_eq ha hc hi
  have walk : a.IsWalk 0 (ps ++ [⟨i, n⟩]) 1 := isWalk_concat_iff.2 ⟨hp, hn⟩
  refine ⟨_, _, walk, (hw.walkWeight_ne_iff ha walk).2 ?_, rfl⟩
  rw [he, finite_walkWeight_iff] at ho
  rw [weights_append]
  exact List.forall_mem_append.2 ⟨ho, hf⟩

theorem finite_offsetAt (all : ∀ ps, a.IsWalk 0 ps 1 → a.walkWeight ps ≠ .impossible) {i : Nat}
    (hi : a.Reaches 0 i) (hf : a.Reaches i 1) : (a.offsetAt i).Finite := by
  obtain ⟨-, ps, hp, he⟩ := offsetAt_eq ha hc hi
  obtain ⟨qs, hq⟩ := hf
  have whole := (hw.walkWeight_ne_iff ha (hp.append hq)).1 (all _ (hp.append hq))
  rw [weights_append, List.forall_mem_append] at whole
  rw [he, finite_walkWeight_iff]
  exact whole.1

end

/-- A possible walk keeps its sequence possible if the last visits of its states are possible.
Something is possible afterwards only if something was before, and nothing changes where every
walk is possible. -/
theorem minimize_canSpell (ha : a.Built) (hc : a.Acyclic)
    (hw : ∀ l ∈ a.links, l.weight.Proper) (checked : Bool) :
    ∃ b, a.minimize checked = .ok b ∧ (∃ stands, a.Covers b a.Ready stands) ∧
      (∀ ps, a.IsWalk 0 ps 1 → a.walkWeight ps ≠ .impossible →
        (∀ p ∈ ps, a.offsetAt p.state ≠ .impossible) → b.CanSpell (a.spelling ps)) ∧
      ((∃ s, b.CanSpell s) → ∃ s, a.CanSpell s) ∧
      ((∀ ps, a.IsWalk 0 ps 1 → a.walkWeight ps ≠ .impossible) →
        ∀ s, b.CanSpell s ↔ a.CanSpell s) := by
  have wf := ha.wellFormed
  have pw := wf.weighted hw
  obtain ⟨b, stands, hb, wb, wp, spells, h⟩ := minimize_covers wf hc pw checked
  have keeps : ∀ ps, a.IsWalk 0 ps 1 → a.walkWeight ps ≠ .impossible →
      (∀ p ∈ ps, a.offsetAt p.state ≠ .impossible) → b.CanSpell (a.spelling ps) := by
    intro ps hp hne ho
    have hf := (pw.walkWeight_ne_iff wf hp).1 hne
    obtain ⟨k, hk, -⟩ := h.exists_stands 0 (.refl a 0) ⟨ps, hp⟩
    obtain rfl := (h.init 0 k hk).2 rfl
    obtain ⟨qs, hq, hs, hfin⟩ := h.exists_walk wb hp (.refl a 0) hk fun p hm j hj => by
      have hr := (hp.reaches_mem p hm).1
      exact ⟨hr, (pw.finite_offsetAt_iff wf hc hr).2 (ho p hm),
        open_of_place wf hj fun w hw => hf w (weights_subset hm hw)⟩
    exact ⟨qs, hq, (wp.walkWeight_ne_iff wb hq).2 hfin, hs⟩
  refine ⟨b, hb, ⟨stands, h⟩, keeps, ?_, fun all s => ⟨fun hs => ?_, fun hs => ?_⟩⟩
  · rintro ⟨s, hs⟩
    obtain ⟨i, hi⟩ := h.exists_ready_final wb wp hs
    exact hi.exists_canSpell wf hc pw
  · obtain ⟨ps, hp, rfl⟩ := (spells s).1 hs.spells
    exact ⟨ps, hp, all ps hp, rfl⟩
  · obtain ⟨ps, hp, hne, rfl⟩ := hs
    refine keeps ps hp hne fun p hm => ?_
    have hr := hp.reaches_mem p hm
    exact (pw.finite_offsetAt_iff wf hc hr.1).1 (finite_offsetAt wf hc pw all hr.1 hr.2)

theorem minimize_diamond_canSpell : ∃ b, (diamond (.finite 0) .impossible).minimize true = .ok b ∧
    b.CanSpell [⟨none, some (.text "a")⟩] := by
  have walk : (diamond (.finite 0) .impossible).IsWalk 0 [⟨0, 0⟩, ⟨2, 0⟩] 1 :=
    .cons (j := 2) rfl (.cons (j := 1) rfl (.nil 1))
  obtain ⟨b, hb, -, keeps, -⟩ := minimize_canSpell (diamond_built rfl rfl) (diamond_acyclic rfl rfl)
    (diamond_weights (v := .finite 0) (w := .impossible) rfl rfl trivial trivial) true
  refine ⟨b, hb, keeps _ walk nofun fun p hp => ?_⟩
  simp only [List.mem_cons, List.not_mem_nil, or_false] at hp
  rcases hp with rfl | rfl
  · rw [offsetAt_eq_last]
    exact nofun
  · rw [offsetAt_eq_last]
    exact nofun

-- ---------------------------------------------------------------------------
-- A sequence lost
-- ---------------------------------------------------------------------------

theorem Open.exists_arc {i j : Nat} (h : a.Open i j) : ∃ w, ⟨i, j, w⟩ ∈ a.arcs ∧ w.Finite := by
  obtain ⟨w, hw, hf⟩ := h
  exact ⟨w, mem_arcs_iff.2 hw, hf⟩

def shadowedArcs : List (Arc ExactWeight) :=
  [⟨0, 3, .finite 0⟩, ⟨0, 2, .impossible⟩, ⟨2, 3, .finite 0⟩, ⟨3, 1, .finite 0⟩]

def shadowed : Automaton ExactWeight :=
  (((empty : Automaton ExactWeight).addState none (letter "b")).addState none
    (letter "c")).withArcs shadowedArcs

theorem arcs_shadowed : shadowed.arcs = shadowedArcs := rfl

theorem shadowedArcs_proper : ∀ r ∈ shadowedArcs, r.weight.Proper := by
  simp [shadowedArcs, Proper]

theorem shadowed_built : shadowed.Built :=
  (Built.empty.addState none (letter "b")).addState none (letter "c") |>.withProperArcs
    (by decide) shadowedArcs_proper

theorem shadowed_acyclic : shadowed.Acyclic :=
  acyclic_of_arcs (fun i => if i = 1 then 4 else i) (by decide)

theorem shadowed_proper : ∀ l ∈ shadowed.links, l.weight.Proper :=
  shadowed_built.wellFormed.forall_links shadowedArcs_proper

theorem shadowed_canSpell : shadowed.CanSpell [letter "c"] :=
  ⟨[⟨0, 0⟩, ⟨3, 0⟩], .cons (j := 3) rfl (.cons (j := 1) rfl (.nil 1)), nofun, rfl⟩

/-- The last visit of the state at 3 is the impossible one. -/
theorem minimize_shadowed : ∃ b, shadowed.minimize true = .ok b ∧ ¬b.CanSpell [letter "c"] := by
  have wf := shadowed_built.wellFormed
  obtain ⟨b, stands, hb, wb, wp, -, h⟩ :=
    minimize_covers wf shadowed_acyclic (wf.weighted shadowed_proper) true
  refine ⟨b, hb, fun hs => ?_⟩
  obtain ⟨i, -, ho, hopen⟩ := h.exists_ready_final wb wp hs
  obtain ⟨w, hm, -⟩ := hopen.exists_arc
  obtain ⟨rfl, -⟩ : i = 3 ∧ w = .finite 0 := by simpa [arcs_shadowed, shadowedArcs] using hm
  rw [offsetAt_eq_last] at ho
  exact ho

-- ---------------------------------------------------------------------------
-- A sequence found
-- ---------------------------------------------------------------------------

def crossedArcs : List (Arc ExactWeight) :=
  [⟨0, 2, .finite 0⟩, ⟨0, 3, .impossible⟩, ⟨0, 4, .finite 0⟩, ⟨2, 3, .finite 0⟩,
    ⟨2, 4, .finite 0⟩, ⟨3, 1, .finite 0⟩]

/-- Two states with one symbol: the link from Init to the one is closed, and from the other
no link leads to Final. -/
def crossed : Automaton ExactWeight :=
  ((((empty : Automaton ExactWeight).addState none (letter "p")).addState none
    (letter "x")).addState none (letter "x")).withArcs crossedArcs

theorem arcs_crossed : crossed.arcs = crossedArcs := rfl

theorem crossedArcs_proper : ∀ r ∈ crossedArcs, r.weight.Proper := by
  simp [crossedArcs, Proper]

theorem crossed_built : crossed.Built :=
  ((Built.empty.addState none (letter "p")).addState none (letter "x")).addState none
    (letter "x") |>.withProperArcs (by decide) crossedArcs_proper

theorem crossed_acyclic : crossed.Acyclic :=
  acyclic_of_arcs (fun i => if i = 1 then 5 else i) (by decide)

theorem crossed_proper : ∀ l ∈ crossed.links, l.weight.Proper :=
  crossed_built.wellFormed.forall_links crossedArcs_proper

theorem not_canSpell_crossed : ¬crossed.CanSpell [letter "x"] := by
  have wf := crossed_built.wellFormed
  rintro ⟨ps, hp, hne, hs⟩
  have hf := ((wf.weighted crossed_proper).walkWeight_ne_iff wf hp).1 hne
  cases ps with
  | nil => exact absurd (isWalk_nil_iff.1 hp) Nat.zero_ne_one
  | cons p ps =>
    obtain ⟨hp0, j, hj, hp⟩ := isWalk_cons_iff.1 hp
    obtain ⟨w, hm, hfin⟩ := (open_of_place wf hj fun w hw =>
      hf w (weights_subset List.mem_cons_self hw)).exists_arc
    rw [hp0] at hm
    have hcase : (j = 2 ∧ w = .finite 0) ∨ (j = 3 ∧ w = .impossible) ∨ j = 4 ∧ w = .finite 0 := by
      simpa [arcs_crossed, crossedArcs] using hm
    rcases hcase with ⟨rfl, -⟩ | ⟨rfl, rfl⟩ | ⟨rfl, -⟩
    · have first : crossed.spelling [p] = [letter "p"] := by
        change crossed.spell (crossed.entered [p]) = _
        rw [entered, List.filterMap_cons_some hj]
        rfl
      rw [← List.singleton_append, spelling_append, first] at hs
      exact absurd (List.cons.inj hs).1 (by decide)
    · exact hfin
    · have stuck : crossed.successors 4 = [] := rfl
      cases hp with
      | cons hm => simpa [stuck] using mem_successors_of_arrival hm

/-- A state with this symbol is entered from Init through an open link, and from one that is
entered from the same states an open link leads to Final. -/
def Meets (a : Automaton ExactWeight) (s : Symbol) : Prop :=
  ∃ i j, (2 ≤ i ∧ a.symbolAt i = s) ∧ (2 ≤ j ∧ a.symbolAt j = s) ∧
    (∀ n, i ∈ a.successors n ↔ j ∈ a.successors n) ∧ a.Open 0 i ∧ a.Open j 1

theorem Round.exists_open {l t m : Automaton ExactWeight} {p q : Nat → Nat} {s : Symbol}
    (h : Round a l t m b p q) (hw : a.Weighted Proper) (hs : a.Meets s) :
    ∃ k, 2 ≤ k ∧ b.symbolAt k = s ∧ b.Open 0 k ∧ b.Open k 1 := by
  obtain ⟨i, j, ⟨hi2, hi⟩, ⟨hj2, hj⟩, entered, h0, h1⟩ := hs
  have cover := h.covers hw
  have ri := reaches_of_mem_successors h0.mem_successors
  have rj := reaches_of_mem_successors ((entered 0).1 h0.mem_successors)
  have f1 := reaches_of_mem_successors h1.mem_successors
  -- the first merge makes them one
  have merged : p i = p j := by
    refine (h.left.eq_iff i j (by omega) (by omega) ri rj).2
      ⟨hi.trans hj.symm, by omega, fun k => ?_⟩
    simp only [entered]
  obtain ⟨k, hk, -⟩ := cover.exists_stands j rj f1
  obtain ⟨k0, hk0, -⟩ := cover.exists_stands 0 (.refl a 0) (rj.trans f1)
  obtain ⟨k1, hk1, -⟩ := cover.exists_stands 1 (rj.trans f1) (.refl a 1)
  obtain rfl := (cover.init 0 k0 hk0).2 rfl
  obtain rfl := (cover.final 1 k1 hk1).2 rfl
  have hki : roundStands a t p q i k := ⟨ri, merged ▸ hk.2⟩
  have c0 := cover.init j k hk
  have c1 := cover.final j k hk
  exact ⟨k, by omega, (cover.symbolAt j k hj2 hk).trans hj,
    (cover.open_iff 0 k).2 ⟨0, i, hk0, hki, h0⟩,
    (cover.open_iff k 1).2 ⟨j, 1, hk, hk1, h1⟩⟩

theorem canSpell_of_open (ha : a.WellFormed) (hw : a.Weighted Proper) {k : Nat} (hk : 2 ≤ k)
    (h0 : a.Open 0 k) (h1 : a.Open k 1) : a.CanSpell [a.symbolAt k] := by
  obtain ⟨n, hn, fn⟩ := h0.exists_place ha
  obtain ⟨m, hm, fm⟩ := h1.exists_place ha
  have walk : a.IsWalk 0 [⟨0, n⟩, ⟨k, m⟩] 1 := .cons hn (.cons hm (.nil 1))
  refine ⟨_, walk, (hw.walkWeight_ne_iff ha walk).2 ?_, ?_⟩
  · rw [← List.singleton_append, weights_append]
    exact List.forall_mem_append.2 ⟨fn, fm⟩
  · have entered : a.entered [⟨0, n⟩, ⟨k, m⟩] = [k, 1] := by simp [entered, hn, hm]
    change a.spell (a.entered _) = _
    rw [entered, spell_cons_interior hk, spell_cons_sentinel Nat.one_lt_two]
    rfl

theorem Open.of_mem_arcs {i j : Nat} {w : ExactWeight} (h : ⟨i, j, w⟩ ∈ a.arcs) (hf : w.Finite) :
    a.Open i j := ⟨w, (mem_arcs_iff (r := ⟨i, j, w⟩)).1 h, hf⟩

theorem pushed_crossed_meets (h : crossed.Rebuilds a crossed.pushedFrom) :
    a.Meets (letter "x") := by
  have open04 : crossed.Open 0 4 := .of_mem_arcs (w := .finite 0)
    (by simp [arcs_crossed, crossedArcs]) trivial
  have open31 : crossed.Open 3 1 := .of_mem_arcs (w := .finite 0)
    (by simp [arcs_crossed, crossedArcs]) trivial
  have offset0 : (crossed.offsetAt 0).Finite := by
    rw [offsetAt_eq_last]
    trivial
  have offset3 : (crossed.offsetAt 3).Finite := by
    rw [offsetAt_eq_last]
    trivial
  have reached3 : crossed.Reaches 0 3 := reaches_of_mem_successors (by decide)
  refine ⟨4, 3, ⟨by decide, h.symbolAt 4⟩, ⟨by decide, h.symbolAt 3⟩, fun n => ?_,
    h.open_pushed_iff.2 ⟨.refl _ 0, offset0, open04⟩,
    h.open_pushed_iff.2 ⟨reached3, offset3, open31⟩⟩
  by_cases hn : crossed.Reaches 0 n
  · rw [h.retraces_pushed.successors n hn]
    simp [mem_successors_iff_mem_arcs, arcs_crossed, crossedArcs, exists_or]
  · rw [successors_eq, h.arcsFrom, pushedFrom_of_not_reaches hn]
    simp

/-- The two states become one, which has both open links. -/
theorem minimize_crossed : ∃ b, crossed.minimize true = .ok b ∧ b.CanSpell [letter "x"] := by
  have wf := crossed_built.wellFormed
  have round : ∀ c l t m b p q, c.Meets (letter "x") → c.Roundable → Round c l t m b p q →
      b.Meets (letter "x") := by
    intro c l t m b p q hP rc h
    obtain ⟨k, hk, hs, h0, h1⟩ := h.exists_open rc.proper hP
    exact ⟨k, k, ⟨hk, hs⟩, ⟨hk, hs⟩, fun _ => .rfl, h0, h1⟩
  obtain ⟨c, l, t, m, y, p, q, b, hb, ⟨rc, meets⟩, last, ⟨ry, -⟩, -, norm⟩ :=
    minimize_ok wf crossed_acyclic (wf.weighted crossed_proper)
      (fun _ h _ => pushed_crossed_meets h) round true
  obtain ⟨k, hk, hs, h0, h1⟩ := last.exists_open rc.proper meets
  refine ⟨b, hb, ?_⟩
  rw [← hs, ← norm.symbolAt k]
  exact canSpell_of_open norm.wellFormed (norm.weighted_normalized ry.proper) hk
    ((norm.open_normalized_iff ry.proper).2 h0) ((norm.open_normalized_iff ry.proper).2 h1)

/-- Minimization loses a possible sequence and makes an impossible one possible. -/
theorem minimize_shadowed_crossed :
    (shadowed.Built ∧ shadowed.Acyclic ∧ (∀ l ∈ shadowed.links, l.weight.Proper) ∧
      ∃ b, shadowed.minimize true = .ok b ∧
        shadowed.CanSpell [letter "c"] ∧ ¬b.CanSpell [letter "c"]) ∧
    crossed.Built ∧ crossed.Acyclic ∧ (∀ l ∈ crossed.links, l.weight.Proper) ∧
      ∃ b, crossed.minimize true = .ok b ∧
        ¬crossed.CanSpell [letter "x"] ∧ b.CanSpell [letter "x"] := by
  obtain ⟨b, hb, hlost⟩ := minimize_shadowed
  obtain ⟨c, hc, hfound⟩ := minimize_crossed
  exact ⟨⟨shadowed_built, shadowed_acyclic, shadowed_proper, b, hb, shadowed_canSpell, hlost⟩,
    crossed_built, crossed_acyclic, crossed_proper, c, hc, not_canSpell_crossed, hfound⟩

end LogAutomata.Automaton
