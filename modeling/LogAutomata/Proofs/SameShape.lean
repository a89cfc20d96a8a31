import LogAutomata.Proofs.Equivariance
import LogAutomata.Proofs.Termination

/-!
# Minimizing rearranged automata

Pushing weights gives the links of rearranged automata weights that depend on their order,
but keeps the same links. From then on every merge and every transposition keeps a renaming
of links, the rounds settle together, and the minimized automata have the same shape.
-/

namespace LogAutomata.Automaton

-- ---------------------------------------------------------------------------
-- One round
-- ---------------------------------------------------------------------------

section
variable {W : Type} [LogWeight W] {a a' b b' : Automaton W}

theorem Round.exists_mapsLinks {l t m l' t' m' : Automaton W} {p q p' q' : Nat → Nat}
    (h : Round a l t m b p q) (h' : Round a' l' t' m' b' p' q') (ha : 2 ≤ a.size) (hc : a.Acyclic)
    {r : Renaming a a'} (links : r.MapsLinks) : ∃ s : Renaming b b', s.MapsLinks := by
  obtain ⟨left, hl⟩ := h.left.exists_renaming_images h'.left links ha hc h.wellFormed_left
    h'.wellFormed_left
  have turn := (h.left.mapsLinks_images h'.left links ha hl).transpose h.turn.mirrors
    h'.turn.mirrors h.wellFormed_turn h'.wellFormed_turn
  have ht := h.wellFormed_turn.two_le_size
  obtain ⟨right, hr⟩ := h.right.exists_renaming_images h'.right turn ht h.acyclic_turn
    h.wellFormed_right h'.wellFormed_right
  exact ⟨_, (h.right.mapsLinks_images h'.right turn ht hr).transpose h.back.mirrors
    h'.back.mirrors h.wellFormed h'.wellFormed⟩

theorem Rebuilds.successors_pushed {x : Automaton W} (h : a.Rebuilds x a.pushedFrom) {i j : Nat} :
    j ∈ x.successors i ↔ a.Reaches 0 i ∧ j ∈ a.successors i := by
  by_cases hi : a.Reaches 0 i
  · simp [h.retraces_pushed.successors i hi, hi]
  · simp [successors_eq, h.arcsFrom, pushedFrom_of_not_reaches hi, hi]

theorem Renaming.MapsLinks.pushed {x x' : Automaton W} {r : Renaming a a'} (links : r.MapsLinks)
    (ha : 2 ≤ a.size) (h : a.Rebuilds x a.pushedFrom) (h' : a'.Rebuilds x' a'.pushedFrom) :
    (r.rebuild h h').MapsLinks := by
  intro i j hi hj
  rw [h.size_eq] at hi hj
  rw [h.successors_pushed, h'.successors_pushed]
  exact and_congr (links.init_reaches_iff ha hi).symm (links i j hi hj)

end

-- ---------------------------------------------------------------------------
-- All rounds
-- ---------------------------------------------------------------------------

variable {a a' b b' : Automaton ExactWeight}

theorem Roundable.round_eq (h : a.Roundable) (hb : a.mergeRound = .ok b) :
    ∃ l t m p q, Round a l t m b p q ∧ b.Roundable := by
  obtain ⟨l, t, m, b', p, q, hb', hr, rb⟩ := h.round
  obtain rfl := Except.ok.inj (hb'.symm.trans hb)
  exact ⟨l, t, m, p, q, hr, rb⟩

theorem SettlesIn.settled {n : Nat} (h : a.SettlesIn n b) (ra : a.Roundable) :
    b.Roundable ∧ b.Single := by
  obtain ⟨c, rc, hb, rb, -⟩ := h.last_round (fun _ => Roundable.next) ra
  obtain ⟨l, t, m, p, q, hr, -⟩ := rc.round_eq hb
  exact ⟨rb, hr.back.single hr.right.nodup⟩

/-- Rounds on renamed automata settle in renamed automata. -/
theorem SettlesIn.exists_mapsLinks {n n' : Nat} (h : a.SettlesIn n b) (h' : a'.SettlesIn n' b')
    (ra : a.Roundable) (ra' : a'.Roundable) {r : Renaming a a'} (links : r.MapsLinks) :
    ∃ s : Renaming b b', s.MapsLinks := by
  induction h generalizing a' n' with
  | last hb hsize =>
    obtain ⟨l, t, m, p, q, hr, -⟩ := ra.round_eq hb
    cases h' with
    | last hb' hsize' =>
      obtain ⟨l', t', m', p', q', hr', -⟩ := ra'.round_eq hb'
      exact hr.exists_mapsLinks hr' ra.wellFormed.two_le_size ra.acyclic links
    | more hb' hsize' _ =>
      obtain ⟨l', t', m', p', q', hr', -⟩ := ra'.round_eq hb'
      obtain ⟨s, -⟩ := hr.exists_mapsLinks hr' ra.wellFormed.two_le_size ra.acyclic links
      exact absurd (s.size_eq.trans (hsize.trans r.size_eq.symm)) hsize'
  | more hb hsize _ ih =>
    obtain ⟨l, t, m, p, q, hr, rb⟩ := ra.round_eq hb
    cases h' with
    | last hb' hsize' =>
      obtain ⟨l', t', m', p', q', hr', -⟩ := ra'.round_eq hb'
      obtain ⟨s, -⟩ := hr.exists_mapsLinks hr' ra.wellFormed.two_le_size ra.acyclic links
      exact absurd (s.size_eq.symm.trans (hsize'.trans r.size_eq)) hsize
    | more hb' hsize' rest' =>
      obtain ⟨l', t', m', p', q', hr', rb'⟩ := ra'.round_eq hb'
      obtain ⟨s, hs⟩ := hr.exists_mapsLinks hr' ra.wellFormed.two_le_size ra.acyclic links
      exact ih rest' rb rb' hs

theorem Roundable.pushed {x : Automaton ExactWeight} (ra : a.Roundable)
    (hx : a.pushWeights = .ok x) : a.Rebuilds x a.pushedFrom ∧ x.Roundable := by
  obtain ⟨x', hx', h, hw⟩ := pushWeights_proper ra.wellFormed ra.acyclic ra.proper
  obtain rfl := Except.ok.inj (hx'.symm.trans hx)
  exact ⟨h, ⟨h.wellFormed, h.retraces_pushed.acyclic ra.acyclic⟩, hw⟩

theorem Rebuilds.single_normalized (h : a.Rebuilds b a.normalizedFrom) (ha : a.Single) :
    b.Single := by
  intro i
  rw [h.successors_normalized]
  exact ha i

theorem minimize_sameShape (ra : a.Roundable) (ra' : a'.Roundable) (h : a.Isomorphic a')
    (checked : Bool) : Agree SameShape (a.minimize checked) (a'.minimize checked) := by
  obtain ⟨r, keeps⟩ := h
  obtain ⟨x, n, y, b, hx, hy, hs, -, hb, -⟩ := minimize_returns ra
  obtain ⟨x', n', y', b', hx', hy', hs', -, hb', -⟩ := minimize_returns ra'
  obtain ⟨push, rx⟩ := ra.pushed hx
  obtain ⟨push', rx'⟩ := ra'.pushed hx'
  have links := keeps.mapsArcs.mapsLinks.pushed ra.wellFormed.two_le_size push push'
  obtain ⟨s, settled⟩ := hs.exists_mapsLinks hs' rx rx' links
  obtain ⟨ry, single⟩ := hs.settled rx
  obtain ⟨ry', single'⟩ := hs'.settled rx'
  have norm := rebuilds_of_normalize ry.wellFormed hb
  have norm' := rebuilds_of_normalize ry'.wellFormed hb'
  have kept : (s.rebuild norm norm').MapsLinks := by
    intro i j hi hj
    rw [norm.successors_normalized, norm'.successors_normalized]
    exact settled i j (norm.size_eq ▸ hi) (norm.size_eq ▸ hj)
  exact ⟨b, b', (minimize_eq ra.wellFormed ra.acyclic hx hy checked).trans hb,
    (minimize_eq ra'.wellFormed ra'.acyclic hx' hy' checked).trans hb', _,
    kept.keepsLinks (norm.single_normalized single) (norm'.single_normalized single')⟩

end LogAutomata.Automaton
