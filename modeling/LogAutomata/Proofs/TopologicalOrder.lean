import LogAutomata.Automaton.TopologicalOrder
import LogAutomata.Proofs.LeadsOut
import Mathlib.Data.List.Perm.Basic

/-!
# The topological order is one

The first pass finds exactly the states that Init reaches and counts the links
between them, unless one of these states has a link that leads out. The second pass lists a state when all of its predecessors have
been listed. So a state other than Init is listed exactly if all predecessors
that Init reaches are, and then behind them; without a reachable cycle all
states that Init reaches are listed.
-/

namespace LogAutomata

open scoped List

structure Counters.Counts (counts : Counters) (n : Nat) (f : Nat → Nat) : Prop where
  getElem? : ∀ v, v < n → counts[v]? = some (f v)

namespace Counters.Counts

variable {counts : Counters} {n : Nat} {f : Nat → Nat}

theorem increase (h : counts.Counts n f) (u : Nat) :
    (counts.increase u).Counts n fun v => [u].count v + f v where
  getElem? v hv := by
    rw [Counters.getElem?_increase, h.getElem? v hv]
    by_cases huv : u = v
    · simp [huv, Nat.add_comm]
    · simp [huv]

theorem decrease {u : Nat} {vs : List Nat} (h : counts.Counts n fun v => (u :: vs).count v + f v) :
    (counts.decrease u).Counts n fun v => vs.count v + f v where
  getElem? v hv := by
    rw [Counters.getElem?_decrease, h.getElem? v hv]
    by_cases huv : u = v
    · subst huv
      rw [if_pos rfl, List.count_cons_self, Option.map_some, Nat.add_right_comm,
        Nat.add_sub_cancel]
    · simp [huv]

end Counters.Counts

namespace Automaton

variable {W : Type} {a : Automaton W}

-- ---------------------------------------------------------------------------
-- Arrivals
-- ---------------------------------------------------------------------------

theorem Discovery.seen_visit (d : Discovery) (u : Nat) :
    (d.visit u).seen = d.seen.increase u := by
  unfold visit
  split <;> rfl

theorem Discovery.foldl_visit {n : Nat} {vs : List Nat} (hv : ∀ v ∈ vs, v < n) {d : Discovery}
    {f : Nat → Nat} (hd : d.seen.Counts n f) :
    (vs.foldl visit d).seen.Counts n (fun v => vs.count v + f v) ∧
      ∃ found, (vs.foldl visit d).pending = found ++ d.pending ∧ found.Nodup ∧
        ∀ v, v ∈ found ↔ v ∈ vs ∧ v ≠ 0 ∧ f v = 0 := by
  induction vs generalizing d f with
  | nil => exact ⟨⟨by simpa using hd.getElem?⟩, [], rfl, .nil, by simp⟩
  | cons u vs ih =>
    have hu := hd.getElem? u (hv u (by simp))
    obtain ⟨h1, found, h2, h3, h4⟩ :=
      ih (fun v h => hv v (by simp [h])) (d.seen_visit u ▸ hd.increase u)
    refine ⟨⟨fun v h => ?_⟩, ?_⟩
    · rw [List.foldl_cons, h1.getElem? v h, ← List.singleton_append (l := vs), List.count_append]
      congr 1
      omega
    · rw [List.foldl_cons]
      by_cases hnew : f u = 0 ∧ u ≠ 0
      · refine ⟨found ++ [u], ?_, ?_, fun v => ?_⟩
        · rw [h2, visit, if_pos ⟨by rw [hu, hnew.1], hnew.2⟩]
          simp
        · refine List.nodup_append.2 ⟨h3, by simp, fun v h w hw huv => ?_⟩
          rw [List.mem_singleton.1 hw] at huv
          have := ((h4 v).1 h).2.2
          simp [huv] at this
        · rw [List.mem_append, h4, List.mem_singleton, List.mem_cons]
          by_cases huv : v = u
          · simp [huv, hnew]
          · simp [huv, Ne.symm huv]
      · refine ⟨found, ?_, h3, fun v => ?_⟩
        · rw [h2, visit, if_neg fun h => hnew ⟨by simpa [hu] using h.1, h.2⟩]
        · rw [h4, List.mem_cons]
          by_cases huv : v = u
          · subst huv
            simp only [List.count_singleton_self]
            exact ⟨fun h => absurd h.2.2 (by omega), fun h => absurd ⟨h.2.2, h.2.1⟩ hnew⟩
          · simp [huv, Ne.symm huv]

structure Found (a : Automaton W) (found : List Nat) : Prop where
  nodup : found.Nodup
  mem_iff : ∀ v, v ∈ found ↔ a.Reaches 0 v

/-- What the first pass knows when the links of the states in `explored` have
been seen. -/
structure Exploring (a : Automaton W) (explored : List Nat) (d : Discovery) : Prop where
  seen : d.seen.Counts a.size fun v => (explored.flatMap a.successors).count v
  nodup : (explored ++ d.pending).Nodup
  mem_iff : ∀ v, v ∈ explored ++ d.pending ↔ v = 0 ∨ v ∈ explored.flatMap a.successors
  reached : ∀ v ∈ explored ++ d.pending, a.Reaches 0 v

theorem exploring_start (a : Automaton W) : a.Exploring [] ⟨[0], .zero a.size⟩ where
  seen := ⟨fun v h => by simp [Counters.zero, h]⟩
  nodup := by simp
  mem_iff := by simp
  reached v hv := by
    obtain rfl : v = 0 := by simpa using hv
    exact .refl a 0

theorem Exploring.step {explored pending : List Nat} {u : Nat} {seen : Counters}
    (h : a.Exploring explored ⟨u :: pending, seen⟩) :
    a.Exploring (u :: explored) ((a.successors u).foldl Discovery.visit ⟨pending, seen⟩) := by
  obtain ⟨h1, found, h2, h3, h4⟩ := Discovery.foldl_visit (d := ⟨pending, seen⟩)
    (fun v hv => (lt_size_of_mem_successors hv).2) h.seen
  have perm : ((u :: explored) ++ (found ++ pending)).Perm (found ++ (explored ++ u :: pending)) :=
    calc (u :: explored) ++ (found ++ pending)
      _ ~ (found ++ pending) ++ (u :: explored) := List.perm_append_comm
      _ = found ++ (pending ++ (u :: explored)) := by rw [List.append_assoc]
      _ ~ found ++ ((u :: explored) ++ pending) := List.perm_append_comm.append_left _
      _ ~ found ++ (explored ++ u :: pending) := List.perm_middle.symm.append_left _
  refine ⟨⟨fun v hv => ?_⟩, ?_, fun v => ?_, fun v hv => ?_⟩
  · rw [h1.getElem? v hv, List.flatMap_cons, List.count_append]
  · rw [h2, perm.nodup_iff]
    refine List.nodup_append.2 ⟨h3, h.nodup, fun v hf w hw hvw => ?_⟩
    obtain ⟨-, h0, hc⟩ := (h4 v).1 hf
    rcases (h.mem_iff w).1 hw with hw | hw
    · exact h0 (hvw.trans hw)
    · exact List.count_eq_zero.1 hc (hvw ▸ hw)
  · rw [h2, perm.mem_iff, List.mem_append, h4, h.mem_iff, List.flatMap_cons, List.mem_append,
      List.count_eq_zero]
    tauto
  · rw [h2, perm.mem_iff] at hv
    rcases List.mem_append.1 hv with hv | hv
    · exact (h.reached u (by simp)).step ((h4 v).1 hv).1
    · exact h.reached v hv

theorem Exploring.done {explored : List Nat} {seen : Counters}
    (h : a.Exploring explored ⟨[], seen⟩) : a.Found explored := by
  have nodup := h.nodup
  have mem_iff := h.mem_iff
  have reached := h.reached
  simp only [List.append_nil] at nodup mem_iff reached
  refine ⟨nodup, fun v => ⟨reached v, fun hv => ?_⟩⟩
  obtain ⟨js, hp⟩ := reaches_iff_path.1 hv
  induction js using List.reverseRecOn generalizing v with
  | nil =>
    rw [← path_nil_iff.1 hp]
    exact (mem_iff 0).2 (.inl rfl)
  | append_singleton js w ih =>
    obtain ⟨rfl, u, hu, hw⟩ := path_concat_iff.1 hp
    exact (mem_iff w).2 (.inr (List.mem_flatMap.2 ⟨u, ih u hu.reaches hu, hw⟩))

theorem forM_owned_refuses (a : Automaton W) (operation : String) (ls : List (Link W)) :
    Refuses operation (∃ l ∈ ls, a.owns l.dest = false)
      (ls.forM fun l => discard (a.owned operation l.dest)) fun _ => True := by
  induction ls with
  | nil => exact (Refuses.of_ok rfl trivial).congr (by simp)
  | cons l ls ih =>
    have first : Refuses operation (a.owns l.dest = false)
        (discard (a.owned operation l.dest)) fun _ => True :=
      (a.owned_refuses operation l.dest).map _ fun _ _ => trivial
    exact (first.bind fun _ _ => ih).congr (by simp)

/-- The first pass gets to every link of the states that Init reaches. -/
theorem arrivals_refuses {explored : List Nat} {d : Discovery} (h : a.Exploring explored d)
    (tight : ∀ i ∈ explored, ¬a.Leaks i) :
    Refuses "topological_order" a.LeadsOut (a.arrivals d) fun seen => ∃ found, a.Found found ∧
      seen.Counts a.size fun v => (found.flatMap a.successors).count v := by
  induction d using arrivals.induct a generalizing explored with
  | case1 seen =>
    have returned : a.arrivals ⟨[], seen⟩ = .ok seen := by
      rw [arrivals]
      rfl
    refine (Refuses.of_ok returned ⟨explored, h.done, h.seen⟩).congr (iff_of_false id ?_)
    rintro ⟨i, hi, leak⟩
    exact tight i ((h.done.mem_iff i).2 hi) leak
  | case2 u pending seen ih =>
    rw [arrivals]
    have links := a.forM_owned_refuses "topological_order" (a.linksFrom u)
    by_cases leak : a.Leaks u
    · have reached := h.reached u (by simp)
      exact ⟨fun _ => (links.refused leak).bind _, fun hn => absurd ⟨u, reached, leak⟩ hn⟩
    · obtain ⟨_, he, -⟩ := links.passed leak
      rw [he]
      exact ih h.step (List.forall_mem_cons.2 ⟨leak, tight⟩)

-- ---------------------------------------------------------------------------
-- Departures
-- ---------------------------------------------------------------------------

theorem Countdown.awaited_arrive (c : Countdown) (u : Nat) :
    (c.arrive u).awaited = c.awaited.decrease u := by
  unfold arrive
  split <;> rfl

theorem Countdown.foldl_arrive {n : Nat} {vs : List Nat} (hv : ∀ v ∈ vs, v < n) (c : Countdown)
    (f : Nat → Nat) (hc : c.awaited.Counts n fun v => vs.count v + f v) :
    (vs.foldl arrive c).awaited.Counts n f ∧
      ∃ news, (vs.foldl arrive c).due.toList = c.due.toList ++ news ∧ news.Nodup ∧
        ∀ v, v ∈ news ↔ v ∈ vs ∧ v ≠ 0 ∧ f v = 0 := by
  induction vs generalizing c with
  | nil => exact ⟨⟨by simpa using hc.getElem?⟩, [], by simp⟩
  | cons u vs ih =>
    have hu := hc.getElem? u (hv u (by simp))
    obtain ⟨h1, news, h2, h3, h4⟩ :=
      ih (fun v h => hv v (by simp [h])) _ (c.awaited_arrive u ▸ hc.decrease)
    refine ⟨h1, ?_⟩
    rw [List.foldl_cons]
    by_cases hnew : u ∉ vs ∧ f u = 0 ∧ u ≠ 0
    · obtain ⟨hm, hf, h0⟩ := hnew
      refine ⟨u :: news, ?_, ?_, fun v => ?_⟩
      · rw [h2, arrive, if_pos ⟨by simp [hu, hf, List.count_eq_zero.2 hm], h0⟩]
        simp
      · exact List.nodup_cons.2 ⟨fun h => hm ((h4 u).1 h).1, h3⟩
      · rw [List.mem_cons, h4, List.mem_cons]
        by_cases huv : v = u
        · simp [huv, hf, h0]
        · simp [huv]
    · refine ⟨news, ?_, h3, fun v => ?_⟩
      · rw [h2, arrive, if_neg]
        rintro ⟨h, h0⟩
        refine hnew ⟨fun hm => ?_, ?_, h0⟩
        · have := List.count_pos_iff.2 hm
          simp [hu] at h
          omega
        · simp [hu] at h
          omega
      · rw [h4, List.mem_cons]
        by_cases huv : v = u
        · subst huv
          tauto
        · simp [huv]

theorem leave_eq (a : Automaton W) (us : List Nat) (awaited : Counters) :
    a.leave us awaited = (us.flatMap a.successors).foldl Countdown.arrive ⟨awaited, #[]⟩ := by
  rw [leave, List.foldl_flatMap]

/-- A state of the list other than Init has all of its predecessors in `done` or
in front of it. -/
def Follows (a : Automaton W) : List Nat → List Nat → Prop
  | _, [] => True
  | done, v :: rest =>
    (v ≠ 0 → ∀ p, a.Reaches 0 p → v ∈ a.successors p → p ∈ done) ∧ Follows a (done ++ [v]) rest

theorem follows_append {done us vs : List Nat} :
    a.Follows done (us ++ vs) ↔ a.Follows done us ∧ a.Follows (done ++ us) vs := by
  induction us generalizing done with
  | nil => simp [Follows]
  | cons u us ih => simp [Follows, ih, and_assoc]

theorem follows_of_forall {done vs : List Nat}
    (h : ∀ v ∈ vs, ∀ p, a.Reaches 0 p → v ∈ a.successors p → p ∈ done) : a.Follows done vs := by
  induction vs generalizing done with
  | nil => trivial
  | cons v vs ih =>
    refine ⟨fun _ => h v (by simp), ih fun w hw p hp hs => ?_⟩
    exact List.mem_append_left _ (h w (by simp [hw]) p hp hs)

/-- The list has Init first, then every state that Init reaches if it has all
the predecessors of that state in front. -/
structure Sorted (a : Automaton W) (order : List Nat) : Prop where
  starts : order.head? = some 0
  nodup : order.Nodup
  reached : ∀ v ∈ order, a.Reaches 0 v
  closed : ∀ v, v ≠ 0 → a.Reaches 0 v →
    (∀ p, a.Reaches 0 p → v ∈ a.successors p → p ∈ order) → v ∈ order
  follows : a.Follows [] order

structure Departing (a : Automaton W) (found done : List Nat) (c : Countdown) : Prop where
  starts : (done ++ c.due.toList).head? = some 0
  nodup : (done ++ c.due.toList).Nodup
  follows : a.Follows [] (done ++ c.due.toList)
  mem_iff : ∀ v, v ≠ 0 → (v ∈ done ++ c.due.toList ↔
    a.Reaches 0 v ∧ ∀ p, a.Reaches 0 p → v ∈ a.successors p → p ∈ done)
  awaited : c.awaited.Counts a.size fun v =>
    ((found.filter (· ∉ done)).flatMap a.successors).count v

theorem Departing.reached {found done : List Nat} {c : Countdown}
    (h : a.Departing found done c) {v : Nat} (hv : v ∈ done ++ c.due.toList) :
    a.Reaches 0 v := by
  by_cases h0 : v = 0
  · subst h0
    exact .refl a 0
  · exact ((h.mem_iff v h0).1 hv).1

theorem departing_start {found : List Nat} {seen : Counters}
    (hs : seen.Counts a.size fun v => (found.flatMap a.successors).count v) :
    a.Departing found [] ⟨seen, #[0]⟩ where
  starts := rfl
  nodup := by simp
  follows := ⟨fun h => absurd rfl h, trivial⟩
  mem_iff v hv := by
    refine ⟨fun h => absurd (by simpa using h) hv, fun ⟨hr, hp⟩ => ?_⟩
    rcases hr.eq_or_step with h | ⟨p, h, hs⟩
    · exact absurd h.symm hv
    · exact absurd (hp p h hs) List.not_mem_nil
  awaited := by simpa using hs

theorem Departing.perm {found done : List Nat} {c : Countdown} (hf : a.Found found)
    (h : a.Departing found done c) : (found.filter (· ∉ done)).Perm
      (c.due.toList ++ found.filter (· ∉ done ++ c.due.toList)) := by
  have nodup := List.nodup_append.1 h.nodup
  refine (List.perm_ext_iff_of_nodup (hf.nodup.filter _) ?_).2 fun v => ?_
  · refine List.nodup_append.2 ⟨nodup.2.1, hf.nodup.filter _, ?_⟩
    rintro v hv w hw rfl
    simp [Array.mem_toList_iff.1 hv] at hw
  · simp only [List.mem_filter, List.mem_append, decide_eq_true_eq, not_or]
    constructor
    · intro hv
      by_cases hd : v ∈ c.due.toList
      · exact .inl hd
      · exact .inr ⟨hv.1, hv.2, hd⟩
    · rintro (hv | hv)
      · refine ⟨(hf.mem_iff v).2 (h.reached (List.mem_append_right _ hv)), fun hd => ?_⟩
        exact nodup.2.2 v hd v hv rfl
      · exact ⟨hv.1, hv.2.1⟩

theorem Departing.leave_due {found done : List Nat} {c : Countdown} (hf : a.Found found)
    (h : a.Departing found done c) :
    ((a.leave c.due.toList c.awaited).awaited.Counts a.size fun v =>
        ((found.filter (· ∉ done ++ c.due.toList)).flatMap a.successors).count v) ∧
      (a.leave c.due.toList c.awaited).due.toList.Nodup ∧
      ∀ v, v ∈ (a.leave c.due.toList c.awaited).due.toList ↔
        (∃ u ∈ c.due.toList, v ∈ a.successors u) ∧ v ≠ 0 ∧
          ∀ p, a.Reaches 0 p → v ∈ a.successors p → p ∈ done ++ c.due.toList := by
  have inside : ∀ v ∈ c.due.toList.flatMap a.successors, v < a.size := by
    intro v hv
    obtain ⟨u, -, hv⟩ := List.mem_flatMap.1 hv
    exact (lt_size_of_mem_successors hv).2
  obtain ⟨h1, news, h2, h3, h4⟩ := Countdown.foldl_arrive inside ⟨c.awaited, #[]⟩
    (fun v => ((found.filter (· ∉ done ++ c.due.toList)).flatMap a.successors).count v)
    ⟨fun v hv => by
      rw [h.awaited.getElem? v hv, ((h.perm hf).flatMap_right _).count_eq, List.flatMap_append,
        List.count_append]⟩
  rw [leave_eq, h2, List.nil_append]
  refine ⟨h1, h3, fun v => ?_⟩
  rw [h4, List.mem_flatMap, List.count_eq_zero]
  refine and_congr_right fun _ => and_congr_right fun _ => ?_
  simp only [List.mem_flatMap, List.mem_filter, hf.mem_iff, decide_eq_true_eq, not_exists, not_and]
  exact ⟨fun h p hp hs => by_contra fun hn => h p ⟨hp, hn⟩ hs, fun h p hp hs => hp.2 (h p hp.1 hs)⟩

theorem Departing.step {found done : List Nat} {c : Countdown} (hf : a.Found found)
    (h : a.Departing found done c) :
    a.Departing found (done ++ c.due.toList) (a.leave c.due.toList c.awaited) := by
  obtain ⟨awaited, nodup, news⟩ := h.leave_due hf
  have reached : ∀ v ∈ c.due.toList, a.Reaches 0 v :=
    fun v hv => h.reached (List.mem_append_right _ hv)
  refine ⟨?_, ?_, ?_, fun v hv => ?_, awaited⟩
  · rw [List.head?_append, h.starts]
    rfl
  · refine List.nodup_append.2 ⟨h.nodup, nodup, ?_⟩
    rintro v hv w hw rfl
    obtain ⟨⟨u, hu, hs⟩, h0, -⟩ := (news v).1 hw
    have hd := ((h.mem_iff v h0).1 hv).2 u (reached u hu) hs
    exact (List.nodup_append.1 h.nodup).2.2 u hd u hu rfl
  · refine follows_append.2 ⟨h.follows, follows_of_forall fun v hv => ?_⟩
    rw [List.nil_append]
    exact ((news v).1 hv).2.2
  · rw [List.mem_append, news]
    constructor
    · rintro (hm | ⟨⟨u, hu, hs⟩, -, hp⟩)
      · obtain ⟨hr, hp⟩ := (h.mem_iff v hv).1 hm
        exact ⟨hr, fun p hp' hs => List.mem_append_left _ (hp p hp' hs)⟩
      · exact ⟨(reached u hu).step hs, hp⟩
    · rintro ⟨hr, hp⟩
      by_cases hd : ∀ p, a.Reaches 0 p → v ∈ a.successors p → p ∈ done
      · exact .inl ((h.mem_iff v hv).2 ⟨hr, hd⟩)
      · push Not at hd
        obtain ⟨p, hp', hs, hn⟩ := hd
        have hu := (List.mem_append.1 (hp p hp' hs)).resolve_left hn
        exact .inr ⟨⟨p, hu, hs⟩, hv, hp⟩

theorem Departing.inOrder {found done : List Nat} {c : Countdown} (hf : a.Found found)
    (h : a.Departing found done c) : a.Sorted (done ++ a.inOrder c) := by
  induction c using inOrder.induct a generalizing done with
  | case1 awaited due hd =>
    obtain rfl : due = #[] := Array.isEmpty_iff.1 hd
    have starts := h.starts
    have nodup := h.nodup
    have follows := h.follows
    have mem_iff := h.mem_iff
    have reached : ∀ v ∈ done, a.Reaches 0 v := fun v hv => h.reached (by simpa using hv)
    simp only [List.append_nil] at starts nodup follows mem_iff
    rw [Automaton.inOrder, if_pos hd, List.append_nil]
    exact ⟨starts, nodup, reached, fun v h0 hr hp => (mem_iff v h0).2 ⟨hr, hp⟩, follows⟩
  | case2 awaited due hd ih =>
    rw [Automaton.inOrder, if_neg hd, ← List.append_assoc]
    exact ih (h.step hf)

theorem topologicalOrder_refuses :
    Refuses "topological_order" a.LeadsOut a.topologicalOrder a.Sorted := by
  refine (arrivals_refuses a.exploring_start (by simp)).map _ fun seen h => ?_
  obtain ⟨found, hf, hs⟩ := h
  exact (departing_start hs).inOrder hf

theorem topologicalOrder_ok (owned : ∀ i, ∀ l ∈ a.linksFrom i, a.owns l.dest) :
    ∃ order, a.topologicalOrder = .ok order ∧ a.Sorted order := by
  refine topologicalOrder_refuses.passed ?_
  rintro ⟨i, -, l, hl, out⟩
  rw [owned i l hl] at out
  cases out

theorem Sorted.mem_iff (ha : a.Acyclic) {order : List Nat} (h : a.Sorted order) (v : Nat) :
    v ∈ order ↔ a.Reaches 0 v := by
  refine ⟨h.reached v, fun hv => ?_⟩
  refine ha.forward (P := (· ∈ order)) (fun i hi ih => ?_) hv
  by_cases h0 : i = 0
  · subst h0
    exact List.mem_of_mem_head? h.starts
  · exact h.closed i h0 hi ih

end Automaton

end LogAutomata
