import LogAutomata.Proofs.Remap

/-!
# Refusals

A link put down unchecked may have an end that its automaton does not own, and an
operation that meets it stops there. `Refuses` says of a row of checks that it stops for
such a reason and for no other one. A weight may be undefined as well; then it matters
which of the two comes first.
-/

namespace LogAutomata

variable {α β γ : Type} {operation : String} {bad bad' : Prop}

def Unmapped (operation : String) (x : Except Fault α) : Prop :=
  ∃ s, x = .error (.unmapped operation s)

/-- The operation meets a state without counterpart exactly if there is something bad.
Otherwise it succeeds, with such a result. -/
structure Refuses (operation : String) (bad : Prop) (x : Except Fault α) (P : α → Prop) : Prop where
  refused : bad → Unmapped operation x
  passed : ¬bad → ∃ y, x = .ok y ∧ P y

theorem Unmapped.bind {x : Except Fault α} (h : Unmapped operation x) (f : α → Except Fault β) :
    Unmapped operation (x >>= f) := by
  obtain ⟨s, rfl⟩ := h
  exact ⟨s, rfl⟩

theorem unmapped_map_iff {x : Except Fault α} (f : α → β) :
    Unmapped operation (x.map f) ↔ Unmapped operation x := by
  cases x with
  | error e => simp [Unmapped, Except.map]
  | ok y => simp [Unmapped, Except.map]

theorem not_unmapped_ok (y : α) : ¬Unmapped operation (.ok y) := by
  rintro ⟨s, h⟩
  cases h

namespace Refuses
variable {x : Except Fault α} {P : α → Prop}

theorem unmapped_iff (h : Refuses operation bad x P) : Unmapped operation x ↔ bad := by
  refine ⟨fun hx => ?_, h.refused⟩
  by_contra hb
  obtain ⟨y, rfl, -⟩ := h.passed hb
  exact not_unmapped_ok y hx

theorem of_ok {y : α} (hx : x = .ok y) (hy : P y) : Refuses operation False x P :=
  ⟨False.elim, fun _ => ⟨y, hx, hy⟩⟩

theorem congr (h : Refuses operation bad x P) (hb : bad ↔ bad') : Refuses operation bad' x P :=
  ⟨fun h' => h.refused (hb.2 h'), fun h' => h.passed fun hbad => h' (hb.1 hbad)⟩

theorem mono {Q : α → Prop} (h : Refuses operation bad x P) (hPQ : ∀ y, P y → Q y) :
    Refuses operation bad x Q :=
  ⟨h.refused, fun hb => (h.passed hb).imp fun y hy => ⟨hy.1, hPQ y hy.2⟩⟩

theorem bind {f : α → Except Fault β} {Q : β → Prop} (h : Refuses operation bad x P)
    (hf : ∀ y, P y → Refuses operation bad' (f y) Q) :
    Refuses operation (bad ∨ bad') (x >>= f) Q := by
  by_cases hb : bad
  · exact ⟨fun _ => (h.refused hb).bind f, fun hn => absurd (.inl hb) hn⟩
  · obtain ⟨y, rfl, hy⟩ := h.passed hb
    exact (hf y hy).congr (or_iff_right hb).symm

theorem andThen {f : α → Except Fault β} {Q : β → Prop} (h : Refuses operation bad x P)
    (hf : ∀ y, P y → ∃ z, f y = .ok z ∧ Q z) : Refuses operation bad (x >>= f) Q := by
  refine ⟨fun hb => (h.refused hb).bind f, fun hb => ?_⟩
  obtain ⟨y, rfl, hy⟩ := h.passed hb
  exact hf y hy

theorem map {Q : β → Prop} (h : Refuses operation bad x P) (f : α → β) (hf : ∀ y, P y → Q (f y)) :
    Refuses operation bad (x.map f) Q := by
  refine ⟨fun hb => (unmapped_map_iff f).2 (h.refused hb), fun hb => ?_⟩
  obtain ⟨y, rfl, hy⟩ := h.passed hb
  exact ⟨f y, rfl, hf y hy⟩

theorem exists_mem_cons {a : α} {as : List α} {p : α → Prop} :
    (p a ∨ ∃ b ∈ as, p b) ↔ ∃ b ∈ a :: as, p b := by simp

/-- A row of checks stops at the first bad member. Otherwise there is a result for each. -/
theorem mapM {f : α → Except Fault β} {bad : α → Prop} {Q : α → β → Prop} {xs : List α}
    (h : ∀ x ∈ xs, Refuses operation (bad x) (f x) (Q x)) :
    Refuses operation (∃ x ∈ xs, bad x) (xs.mapM f) (List.Forall₂ Q xs) := by
  induction xs with
  | nil => exact (of_ok rfl .nil).congr (by simp)
  | cons x xs ih =>
    rw [List.mapM_cons]
    have rest := ih fun y hy => h y (List.mem_cons_of_mem _ hy)
    refine ((h x List.mem_cons_self).bind fun y hy => rest.map (y :: ·) fun ys hys => ?_).congr
      exists_mem_cons
    exact .cons hy hys

theorem foldlM {f : β → α → Except Fault β} {bad : α → Prop} {P : Nat → β → Prop} {xs : List α}
    (h : ∀ x ∈ xs, ∀ n y, P n y → Refuses operation (bad x) (f y x) (P (n + 1))) {n : Nat} {y : β}
    (hy : P n y) : Refuses operation (∃ x ∈ xs, bad x) (xs.foldlM f y) (P (n + xs.length)) := by
  induction xs generalizing n y with
  | nil => exact (of_ok rfl hy).congr (by simp)
  | cons x xs ih =>
    rw [List.foldlM_cons, List.length_cons, Nat.add_comm xs.length 1, ← Nat.add_assoc]
    refine ((h x List.mem_cons_self n y hy).bind fun z hz => ?_).congr exists_mem_cons
    exact ih (fun w hw => h w (List.mem_cons_of_mem _ hw)) hz

end Refuses

theorem exists_of_forall₂ {R : α → β → Prop} {xs : List α} {ys : List β} (h : List.Forall₂ R xs ys)
    {x : α} (hx : x ∈ xs) : ∃ y ∈ ys, R x y := by
  induction h with
  | nil => cases hx
  | cons hr _ ih =>
    rcases List.mem_cons.1 hx with rfl | hx
    · exact ⟨_, List.mem_cons_self, hr⟩
    · obtain ⟨y, hy, hr⟩ := ih hx
      exact ⟨y, List.mem_cons_of_mem _ hy, hr⟩

-- ---------------------------------------------------------------------------
-- What comes first
-- ---------------------------------------------------------------------------

section
variable {bad fine : α → Prop} {x : α} {xs : List α}

def ComesFirst (bad fine : α → Prop) (xs : List α) : Prop :=
  ∃ pre x post, xs = pre ++ x :: post ∧ bad x ∧ ∀ y ∈ pre, fine y

theorem comesFirst_cons :
    ComesFirst bad fine (x :: xs) ↔ bad x ∨ fine x ∧ ComesFirst bad fine xs := by
  constructor
  · rintro ⟨_ | ⟨y, pre⟩, z, post, h, hz, hpre⟩
    · obtain ⟨rfl, rfl⟩ := List.cons.inj h
      exact .inl hz
    · obtain ⟨rfl, rfl⟩ := List.cons.inj h
      obtain ⟨hx, hpre⟩ := List.forall_mem_cons.1 hpre
      exact .inr ⟨hx, pre, z, post, rfl, hz, hpre⟩
  · rintro (hx | ⟨hx, pre, z, post, rfl, hz, hpre⟩)
    · exact ⟨[], x, xs, rfl, hx, by simp⟩
    · exact ⟨x :: pre, z, post, rfl, hz, List.forall_mem_cons.2 ⟨hx, hpre⟩⟩

theorem not_comesFirst_nil : ¬ComesFirst bad fine [] := by
  rintro ⟨pre, x, post, h, -⟩
  simp at h

theorem comesFirst_iff_exists (h : ∀ x ∈ xs, fine x) :
    ComesFirst bad fine xs ↔ ∃ x ∈ xs, bad x := by
  induction xs with
  | nil => exact iff_of_false not_comesFirst_nil (by simp)
  | cons x xs ih =>
    obtain ⟨hx, hxs⟩ := List.forall_mem_cons.1 h
    rw [comesFirst_cons, ih hxs, ← Refuses.exists_mem_cons]
    exact or_congr_right (and_iff_right hx)

theorem comesFirst_congr {bad' fine' : β → Prop} {ys : List β}
    (h : List.Forall₂ (fun x y => (bad x ↔ bad' y) ∧ (fine x ↔ fine' y)) xs ys) :
    ComesFirst bad fine xs ↔ ComesFirst bad' fine' ys := by
  induction h with
  | nil => exact iff_of_false not_comesFirst_nil not_comesFirst_nil
  | cons hx _ ih => rw [comesFirst_cons, comesFirst_cons, hx.1, hx.2, ih]

end

namespace Automaton

variable {W : Type}

-- ---------------------------------------------------------------------------
-- Ends
-- ---------------------------------------------------------------------------

def Foreign (a : Automaton W) (l : Link W) : Prop := a.owns l.src = false ∨ a.owns l.dest = false

def HoldsForeign (a : Automaton W) : Prop := ∃ l ∈ a.links, a.Foreign l

theorem owns_eq_true_iff {a : Automaton W} {e : Endpoint} :
    a.owns e = true ↔ ∃ i, i < a.size ∧ e = .inner i := by
  rw [owns, Option.isSome_iff_exists]
  refine exists_congr fun i => ?_
  rw [position?_eq_some_iff, and_comm]

theorem owned_refuses (a : Automaton W) (operation : String) (e : Endpoint) :
    Refuses operation (a.owns e = false) (a.owned operation e)
      fun i => i < a.size ∧ e = .inner i where
  refused h := by
    rw [owns, Option.isSome_eq_false_iff, Option.isNone_iff_eq_none] at h
    exact ⟨a.profile e, by rw [owned, h]⟩
  passed h := by
    obtain ⟨i, hi, rfl⟩ := owns_eq_true_iff.1 (Bool.not_eq_false _ ▸ h)
    exact ⟨i, owned_eq_ok_iff.2 ⟨rfl, hi⟩, hi, rfl⟩

def Lands (target : Automaton W) (t : Table) (n : Nat) : Prop :=
  ∀ i, i < n → ∃ k, k < target.size ∧ t[i]? = some (some (.inner k))

theorem lands_sentinels : (empty : Automaton W).Lands #[some (.inner 0), some (.inner 1)] 2 := by
  intro i hi
  rcases i with _ | _ | i
  · exact ⟨0, Nat.two_pos, rfl⟩
  · exact ⟨1, Nat.one_lt_two, rfl⟩
  · omega

namespace Lands

variable {target grown : Automaton W} {t : Table} {m n k : Nat} (h : target.Lands t n)
include h

theorem anti (hm : m ≤ n) : target.Lands t m := fun i hi => h i (Nat.lt_of_lt_of_le hi hm)

theorem mono (hg : target.size ≤ grown.size) : grown.Lands t n := fun i hi =>
  (h i hi).imp fun _ hk => ⟨Nat.lt_of_lt_of_le hk.1 hg, hk.2⟩

theorem push (hn : t.size = n) (hk : k < target.size) :
    target.Lands (t.push (some (.inner k))) (n + 1) := by
  intro i hi
  rcases Nat.lt_succ_iff_lt_or_eq.1 hi with hi | rfl
  · obtain ⟨m, hm, ht⟩ := h i hi
    exact ⟨m, hm, by rw [Array.getElem?_push_lt (hn ▸ hi), ← ht, Array.getElem?_eq_getElem (hn ▸ hi)]⟩
  · exact ⟨k, hk, by simp [← hn]⟩

end Lands

theorem mapped_refuses {a target : Automaton W} {t : Table} (h : target.Lands t a.size)
    (operation : String) (e : Endpoint) : Refuses operation (a.owns e = false)
      (a.mapped t operation e) fun f => ∃ k, k < target.size ∧ f = .inner k := by
  refine (a.owned_refuses operation e).andThen fun i hi => ?_
  obtain ⟨k, hk, ht⟩ := h i hi.1
  refine ⟨.inner k, ?_, k, hk, rfl⟩
  rw [ht]
  rfl

theorem lands_of_sends {target : Automaton W} {t : Table} {n : Nat} {f : Nat → Nat}
    (h : t.Sends n f) (inside : ∀ i, i < n → f i < target.size) : target.Lands t n :=
  fun i hi => ⟨f i, inside i hi, h i hi⟩

theorem lands_remap {r : Remap} (keeps : ∀ s, r.keep s = true) (a : Automaton W)
    {target : Automaton W} {init final : Nat} (hi : r.init = .inner init)
    (hf : r.final = .inner final) (hinit : init < target.size) (hfinal : final < target.size) :
    (a.remap r target).2.Lands (a.remap r target).1 a.size :=
  lands_of_sends (remap_sends keeps a target hi hf) fun i h => by
    rw [remap_size keeps]
    exact relocate_lt_size a hinit hfinal h

-- ---------------------------------------------------------------------------
-- Carried links
-- ---------------------------------------------------------------------------

variable [LogWeight W] {a target : Automaton W} {starts arrivals : Table}

theorem arc?_inside {s d : Nat} (hs : s < target.size) (hd : d < target.size) (w : W) :
    target.arc? (.inner s) (.inner d) w = if isUndefined w
      then .error (.undefinedWeight (target.profile (.inner s)) (target.profile (.inner d)))
      else .ok ⟨s, d, w⟩ := by
  cases hw : isUndefined w with
  | false => exact arc?_eq_ok_iff.2 ⟨rfl, rfl, rfl, hs, hd, hw⟩
  | true => simp only [arc?, hw, if_true]; rfl

def carryLink (a : Automaton W) (starts arrivals : Table) (operation : String)
    (target : Automaton W) (l : Link W) : Except Fault (Arc W) := do
  let src ← a.mapped starts operation l.src
  let dest ← a.mapped arrivals operation l.dest
  target.arc? src dest l.weight

section
variable (hs : target.Lands starts a.size) (hd : target.Lands arrivals a.size)
include hs hd

/-- A link is refused for its ends before its weight is looked at. -/
theorem carryLink_cases (operation : String) (l : Link W) :
    a.Foreign l ∧ Unmapped operation (a.carryLink starts arrivals operation target l) ∨
      ¬a.Foreign l ∧ ∃ s d, s < target.size ∧ d < target.size ∧
        a.carryLink starts arrivals operation target l =
          target.arc? (.inner s) (.inner d) l.weight := by
  have src := mapped_refuses hs operation l.src
  have dest := mapped_refuses hd operation l.dest
  unfold carryLink
  by_cases h1 : a.owns l.src = false
  · exact .inl ⟨.inl h1, (src.refused h1).bind _⟩
  · obtain ⟨_, he, s, hs, rfl⟩ := src.passed h1
    rw [he, ok_bind]
    by_cases h2 : a.owns l.dest = false
    · exact .inl ⟨.inr h2, (dest.refused h2).bind _⟩
    · obtain ⟨_, he, d, hd, rfl⟩ := dest.passed h2
      rw [he, ok_bind]
      exact .inr ⟨not_or.2 ⟨h1, h2⟩, s, d, hs, hd, rfl⟩

theorem carryLink_refuses {l : Link W} (hw : isUndefined l.weight = false) :
    Refuses operation (a.Foreign l) (a.carryLink starts arrivals operation target l)
      fun _ => True := by
  rcases carryLink_cases hs hd operation l with ⟨hf, hu⟩ | ⟨hf, s, d, hs, hd, he⟩
  · exact ⟨fun _ => hu, fun h => absurd hf h⟩
  · refine ⟨fun h => absurd h hf, fun _ => ⟨⟨s, d, l.weight⟩, ?_, trivial⟩⟩
    rw [he, arc?_inside hs hd, hw]
    rfl

theorem carry_refuses {ls : List (Link W)} (hw : ∀ l ∈ ls, isUndefined l.weight = false) :
    Refuses operation (∃ l ∈ ls, a.Foreign l) (a.carry starts arrivals operation target ls)
      fun _ => True :=
  (Refuses.mapM fun l hl => carryLink_refuses hs hd (hw l hl)).mono fun _ _ => trivial

/-- If weights may be undefined, what counts is what comes first. -/
theorem carry_unmapped_iff {ls : List (Link W)} :
    Unmapped operation (a.carry starts arrivals operation target ls) ↔
      ComesFirst a.Foreign (fun l => isUndefined l.weight = false) ls := by
  change Unmapped operation (ls.mapM (a.carryLink starts arrivals operation target)) ↔ _
  induction ls with
  | nil => exact iff_of_false (not_unmapped_ok _) not_comesFirst_nil
  | cons l ls ih =>
    rw [List.mapM_cons, comesFirst_cons]
    rcases carryLink_cases hs hd operation l with ⟨hf, hu⟩ | ⟨hf, s, d, hs, hd, he⟩
    · exact iff_of_true (hu.bind _) (.inl hf)
    · rw [he, arc?_inside hs hd]
      cases hw : isUndefined l.weight with
      | true =>
        refine iff_of_false ?_ (by simp [hf])
        rintro ⟨s, h⟩
        cases h
      | false =>
        rw [or_iff_right hf, and_iff_right rfl]
        exact (unmapped_map_iff _).trans ih

theorem carry_undefined {ls : List (Link W)} (inside : ∀ l ∈ ls, ¬a.Foreign l)
    (h : ∃ l ∈ ls, isUndefined l.weight = true) : ∃ src dest,
      a.carry starts arrivals operation target ls = .error (.undefinedWeight src dest) := by
  change ∃ src dest, ls.mapM (a.carryLink starts arrivals operation target) = _
  induction ls with
  | nil => simp at h
  | cons l ls ih =>
    obtain ⟨here, rest⟩ := List.forall_mem_cons.1 inside
    rw [List.mapM_cons]
    rcases carryLink_cases hs hd operation l with ⟨hf, -⟩ | ⟨-, s, d, hs, hd, he⟩
    · exact absurd hf here
    · rw [he, arc?_inside hs hd]
      cases hw : isUndefined l.weight with
      | true => exact ⟨_, _, rfl⟩
      | false =>
        obtain ⟨src, dest, hr⟩ := ih rest (by simpa [hw] using h)
        exact ⟨src, dest, by rw [hr]; rfl⟩

end

end Automaton

end LogAutomata
