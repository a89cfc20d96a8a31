import LogAutomata.Automaton.PushWeights
import LogAutomata.Proofs.Paths
import LogAutomata.Proofs.Refusals

/-!
# Links that lead out

A link leads out if it arrives at a state that the automaton does not own. Whatever follows
the links from Init on has gone through a closed set of states when it ends, so it has seen
every such link of a state that Init reaches. The sweep of all walks need not end; it gets
there before it has to give up, unless there is a cycle.
-/

namespace LogAutomata.Automaton

variable {W : Type} {a : Automaton W}

def Leaks (a : Automaton W) (i : Nat) : Prop := ∃ l ∈ a.linksFrom i, a.owns l.dest = false

/-- Some state that Init reaches has such a link. -/
def LeadsOut (a : Automaton W) : Prop := ∃ i, a.Reaches 0 i ∧ a.Leaks i

theorem Leaks.lt_size {i : Nat} (h : a.Leaks i) : i < a.size := by
  obtain ⟨l, hl, -⟩ := h
  by_contra hi
  rw [linksFrom_eq_nil (Nat.le_of_not_lt hi)] at hl
  cases hl

theorem Reaches.of_closed {P : Nat → Prop} (closed : ∀ i, P i → ∀ j ∈ a.successors i, P j)
    {i k : Nat} (hi : P i) (h : a.Reaches i k) : P k := by
  obtain ⟨js, hp⟩ := reaches_iff_path.1 h
  induction hp with
  | nil => exact hi
  | cons hj hp ih => exact ih (closed _ hi _ hj) hp.reaches

theorem not_leadsOut_of_closed {P : Nat → Prop} (h0 : P 0)
    (closed : ∀ i, P i → ∀ j ∈ a.successors i, P j) (tight : ∀ i, P i → ¬a.Leaks i) :
    ¬a.LeadsOut := by
  rintro ⟨i, hi, leak⟩
  exact tight i (hi.of_closed closed h0) leak

-- ---------------------------------------------------------------------------
-- Pushing
-- ---------------------------------------------------------------------------

variable [LogWeight W]

theorem lengthen_refuses (walks : List (Nat × W)) :
    Refuses "push_weights" (∃ e ∈ walks, a.Leaks e.1) (a.lengthen walks) fun longer =>
      ∀ e ∈ walks, ∀ j ∈ a.successors e.1, ∃ f ∈ longer, f.1 = j := by
  have step : ∀ x ∈ walks.flatMap fun e => (a.linksFrom e.1).map fun l =>
      (l.dest, e.2 + l.weight), Refuses "push_weights" (a.owns x.1 = false)
      (do return (← a.owned "push_weights" x.1, x.2)) fun f => x.1 = .inner f.1 := fun x _ =>
    (a.owned_refuses "push_weights" x.1).map _ fun i hi => hi.2
  refine ((Refuses.mapM step).mono fun longer h e he j hj => ?_).congr ?_
  · obtain ⟨l, hl, hp⟩ := List.mem_filterMap.1 hj
    have next : (l.dest, e.2 + l.weight) ∈ walks.flatMap fun e =>
        (a.linksFrom e.1).map fun l => (l.dest, e.2 + l.weight) :=
      List.mem_flatMap.2 ⟨e, he, List.mem_map_of_mem hl⟩
    obtain ⟨f, hf, hd⟩ := exists_of_forall₂ h next
    refine ⟨f, hf, ?_⟩
    rw [(position?_eq_some_iff.1 hp).1] at hd
    exact (Endpoint.inner.inj hd).symm
  · constructor
    · rintro ⟨x, hx, out⟩
      obtain ⟨e, he, hx⟩ := List.mem_flatMap.1 hx
      obtain ⟨l, hl, rfl⟩ := List.mem_map.1 hx
      exact ⟨e, he, l, hl, out⟩
    · rintro ⟨e, he, l, hl, out⟩
      exact ⟨_, List.mem_flatMap.2 ⟨e, he, List.mem_map_of_mem hl⟩, out⟩

theorem sweep_succ {walks : List (Nat × W)} {e : Nat × W} (he : e ∈ walks) (rounds : Nat)
    (offsets : Ledger Nat W) : a.sweep (rounds + 1) walks offsets =
      a.lengthen walks >>= fun longer => a.sweep rounds longer
        (walks.foldl (fun l e => l.alter e.1 fun _ => e.2) offsets) := by
  cases walks with
  | nil => cases he
  | cons w walks =>
    rw [sweep]
    exact List.cons_ne_nil _ _

/-- The sweep follows every path, link by link, and stops at its end or before. -/
theorem sweep_unmapped {rounds : Nat} {walks : List (Nat × W)} {offsets : Ledger Nat W}
    {e : Nat × W} (he : e ∈ walks) {js : List Nat} {k : Nat} (hp : a.Path e.1 js k)
    (hk : a.Leaks k) (hr : js.length < rounds) :
    Unmapped "push_weights" (a.sweep rounds walks offsets) := by
  induction js generalizing rounds walks offsets e with
  | nil =>
    obtain ⟨rounds, rfl⟩ := Nat.exists_eq_add_one_of_ne_zero (Nat.ne_zero_of_lt hr)
    rw [sweep_succ he]
    exact ((lengthen_refuses walks).refused ⟨e, he, path_nil_iff.1 hp ▸ hk⟩).bind _
  | cons j js ih =>
    obtain ⟨rounds, rfl⟩ := Nat.exists_eq_add_one_of_ne_zero (Nat.ne_zero_of_lt hr)
    rw [sweep_succ he]
    by_cases leak : ∃ e ∈ walks, a.Leaks e.1
    · exact ((lengthen_refuses walks).refused leak).bind _
    · obtain ⟨hj, hp⟩ := path_cons_iff.1 hp
      obtain ⟨longer, hl, next⟩ := (lengthen_refuses walks).passed leak
      obtain ⟨f, hf, rfl⟩ := next e he j hj
      rw [hl]
      exact ih hf hp (Nat.lt_of_succ_lt_succ hr)

theorem pushWeights_unmapped (hc : a.Acyclic) (h : a.LeadsOut) :
    Unmapped "push_weights" a.pushWeights := by
  obtain ⟨i, hi, leak⟩ := h
  obtain ⟨js, hp⟩ := reaches_iff_path.1 hi
  have short : js.length < a.size :=
    hc.path_length_lt (Nat.zero_lt_of_lt leak.lt_size) (.refl a 0) hp
  exact (sweep_unmapped (e := (0, 0)) List.mem_cons_self hp leak short).bind _

end LogAutomata.Automaton
