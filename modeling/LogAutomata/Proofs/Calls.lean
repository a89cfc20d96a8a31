import LogAutomata.PrefixGraph.Call
import LogAutomata.Proofs.PrefixGraph

/-!
# Runs of calls

A number that a prefix graph has once given stands for one key and one set of parents, and no
other number does: a new node is made only for an outline that no node has, and no call changes
an outline. What links have been added to a node, and from which parents, is in its ledger.
-/

namespace LogAutomata.PrefixGraph

variable {W : Type}

-- ---------------------------------------------------------------------------
-- What a run asks and gets
-- ---------------------------------------------------------------------------

def Call.Fits (g : PrefixGraph W) : Call W → Prop
  | .node _ _ => True
  | .add _ into _ _ => 0 ≤ into ∧ into < g.size

def Call.entryFor (n : Nat) : Call W → Option (Int × W)
  | .node _ _ => none
  | .add parent into weight _ => if into = n then some (parent, weight) else none

/-- The weights that a run adds to the node `n` under this parent, in call order. -/
def weightsAdded (calls : List (Call W)) (n : Nat) (parent : Int) : List W :=
  entriesAt (calls.filterMap (Call.entryFor n)) parent

def numberOf : Except Fault (Reply W) × Nat → Option Nat
  | (.ok (.number n), _) => some n
  | _ => none

def numbers (replies : List (Except Fault (Reply W) × Nat)) : List Nat := replies.filterMap numberOf

variable [LogWeight W]

def Fitting (g : PrefixGraph W) : List (Call W) → Prop
  | [] => True
  | c :: calls => c.Fits g ∧ (g.perform c).1.Fitting calls

instance (g : PrefixGraph W) : ∀ c : Call W, Decidable (c.Fits g)
  | .node _ _ => inferInstanceAs (Decidable True)
  | .add _ into _ _ => inferInstanceAs (Decidable (0 ≤ into ∧ into < g.size))

instance decidableFitting :
    ∀ (g : PrefixGraph W) (calls : List (Call W)), Decidable (g.Fitting calls)
  | _, [] => inferInstanceAs (Decidable True)
  | g, c :: calls =>
    have := decidableFitting (g.perform c).1 calls
    inferInstanceAs (Decidable (c.Fits g ∧ (g.perform c).1.Fitting calls))

theorem performAll_append (g : PrefixGraph W) (calls later : List (Call W)) :
    g.performAll (calls ++ later) =
      (((g.performAll calls).1.performAll later).1,
        (g.performAll calls).2 ++ ((g.performAll calls).1.performAll later).2) := by
  induction calls generalizing g with
  | nil => rfl
  | cons c calls ih => simp only [List.cons_append, performAll, ih]

theorem fitting_append {g : PrefixGraph W} {calls later : List (Call W)} :
    g.Fitting (calls ++ later) ↔ g.Fitting calls ∧ (g.performAll calls).1.Fitting later := by
  induction calls generalizing g with
  | nil => simp [Fitting, performAll]
  | cons c calls ih => simp only [List.cons_append, Fitting, performAll, ih, and_assoc]

-- ---------------------------------------------------------------------------
-- One call
-- ---------------------------------------------------------------------------

omit [LogWeight W] in
theorem size_node {g : PrefixGraph W} (h : g.InStep) (key : NodeKey) (parents : List Int) :
    (g.node key parents).2.size = max g.size ((g.node key parents).1 + 1) := by
  cases hf : g.table.get? (.ofList parents, key) with
  | some n =>
    have hn : n < g.size := lt_size_of_outline ((h key (.ofList parents) n).1 hf)
    simp only [node, hf]
    omega
  | none => simp [node, hf, size]

/-- A link that fits goes through. It changes neither the table nor any outline, and no ledger
but one. -/
theorem Call.Fits.add_ok {g : PrefixGraph W} {parent into : Int} {weight : W} {member : Int}
    (h : (Call.add parent into weight member).Fits g) :
    ∃ n : Nat, into = n ∧ n < g.size ∧ ∃ g', g.add parent into weight member = .ok g' ∧
      g'.size = g.size ∧ g'.table = g.table ∧ (∀ k, g'.outline k = g.outline k) ∧
      ∀ k, g'.ledger k = if k = n then record (g.ledger k) [(parent, weight)] else g.ledger k := by
  obtain ⟨h0, hs⟩ := h
  obtain ⟨n, rfl⟩ := Int.eq_ofNat_of_zero_le h0
  have hn : n < g.size := Int.ofNat_lt.1 hs
  exact ⟨n, rfl, hn, PrefixGraph.add_ok hn parent weight member⟩

theorem InStep.perform {g : PrefixGraph W} (h : g.InStep) {c : Call W} (fits : c.Fits g) :
    (g.perform c).1.InStep := by
  cases c with
  | node key parents => exact h.node key parents
  | add parent into weight member =>
    obtain ⟨n, -, -, g', hg, -, table, outline, -⟩ := fits.add_ok
    simp only [PrefixGraph.perform, hg]
    exact h.congr table outline

theorem outline_perform {g : PrefixGraph W} (h : g.InStep) {c : Call W} (fits : c.Fits g) {k : Nat}
    {o : Option NodeKey × IntSet} (ho : g.outline k = some o) :
    (g.perform c).1.outline k = some o := by
  cases c with
  | node key parents => exact (node_grows h key parents).kept ho
  | add parent into weight member =>
    obtain ⟨n, -, -, g', hg, -, -, outline, -⟩ := fits.add_ok
    simp only [perform, hg, outline, ho]

theorem outline_performAll {g : PrefixGraph W} (h : g.InStep) {calls : List (Call W)}
    (fits : g.Fitting calls) {k : Nat} {o : Option NodeKey × IntSet} (ho : g.outline k = some o) :
    (g.performAll calls).1.outline k = some o := by
  induction calls generalizing g with
  | nil => exact ho
  | cons c calls ih => exact ih (h.perform fits.1) fits.2 (outline_perform h fits.1 ho)

-- ---------------------------------------------------------------------------
-- All calls
-- ---------------------------------------------------------------------------

theorem eraseDups_concat (ns : List Nat) (n : Nat) :
    (ns ++ [n]).eraseDups = if n ∈ ns then ns.eraseDups else ns.eraseDups ++ [n] := by
  rw [List.eraseDups_append]
  by_cases h : n ∈ ns <;> simp [List.removeAll, List.eraseDups_cons, h]

structure Traced (calls : List (Call W)) (g : PrefixGraph W)
    (replies : List (Except Fault (Reply W) × Nat)) : Prop where
  inStep : g.InStep
  root : g.outline 0 = some (none, .empty)
  distinct : g.Distinct
  length_eq : replies.length = calls.length
  succeeds : ∀ r ∈ replies, ∃ reply, r.1 = .ok reply
  named : ∀ key parents r, (.node key parents, r) ∈ calls.zip replies →
    ∃ n, numberOf r = some n ∧ g.outline n = some (some key, .ofList parents)
  first_uses : (numbers replies).eraseDups = List.range' 1 (g.size - 1)
  ledger : ∀ n, g.ledger n = tally (calls.filterMap (Call.entryFor n))
  members : ∀ n x, x ∈ g.members n ↔ ∃ parent weight, Call.add parent n weight x ∈ calls

theorem traced_root : Traced [] (root : PrefixGraph W) [] where
  inStep := inStep_root
  root := rfl
  distinct k m o hk hm := by
    have h1 : k < 1 := lt_size_of_outline hk
    have h2 : m < 1 := lt_size_of_outline hm
    omega
  length_eq := rfl
  succeeds := by simp
  named := by simp
  first_uses := by simp [numbers, root, size]
  ledger n := by rcases n with _ | n <;> rfl
  members n x := by
    rcases n with _ | n <;> simp [PrefixGraph.members, root, IntSet.empty, IntSet.mem_def]

section
variable {calls : List (Call W)} {g : PrefixGraph W}
  {replies : List (Except Fault (Reply W) × Nat)} (h : Traced calls g replies)
include h

theorem Traced.mem_zip_concat_iff {c c' : Call W} {r r' : Except Fault (Reply W) × Nat} :
    (c, r) ∈ (calls ++ [c']).zip (replies ++ [r']) ↔
      (c, r) ∈ calls.zip replies ∨ c = c' ∧ r = r' := by
  rw [List.zip_append h.length_eq.symm, List.mem_append]
  simp

/-- The root is no answer, so a number that is known has been given before. -/
theorem Traced.mem_numbers_iff {n : Nat} : n ∈ numbers replies ↔ 0 < n ∧ n < g.size := by
  rw [← List.mem_eraseDups, h.first_uses, List.mem_range'_1]
  omega

theorem Traced.node (key : NodeKey) (parents : List Int) (len : Nat) :
    Traced (calls ++ [.node key parents]) (g.node key parents).2
      (replies ++ [(.ok (.number (g.node key parents).1), len)]) := by
  have grows := node_grows h.inStep key parents
  constructor
  case inStep => exact h.inStep.node key parents
  case root => exact grows.kept h.root
  case distinct => exact grows.distinct h.distinct
  case length_eq => simp [h.length_eq]
  case succeeds =>
    intro r hr
    rcases List.mem_append.1 hr with hr | hr
    · exact h.succeeds r hr
    · rw [List.mem_singleton.1 hr]
      exact ⟨_, rfl⟩
  case named =>
    intro key' parents' r hr
    rcases h.mem_zip_concat_iff.1 hr with hr | ⟨hc, rfl⟩
    · obtain ⟨n, hn, ho⟩ := h.named key' parents' r hr
      exact ⟨n, hn, grows.kept ho⟩
    · cases hc
      exact ⟨_, rfl, grows.self⟩
  case first_uses =>
    have last : numbers (replies ++ [(.ok (.number (g.node key parents).1), len)]) =
        numbers replies ++ [(g.node key parents).1] := List.filterMap_append
    rw [last, eraseDups_concat, h.first_uses, size_node h.inStep]
    rcases grows.old_or_new with old | ⟨new, -⟩
    · have inside := lt_size_of_outline old
      have positive : (g.node key parents).1 ≠ 0 := by
        intro h0
        rw [h0, h.root] at old
        cases old
      rw [if_pos (h.mem_numbers_iff.2 ⟨Nat.pos_of_ne_zero positive, inside⟩),
        Nat.max_eq_left inside]
    · have rooted : 0 < g.size := lt_size_of_outline h.root
      have next : max g.size (g.size + 1) - 1 = (g.size - 1) + 1 := by omega
      have number : 1 + 1 * (g.size - 1) = g.size := by omega
      rw [new, if_neg fun hm => Nat.lt_irrefl _ (h.mem_numbers_iff.1 hm).2, next,
        List.range'_concat, number]
  case ledger =>
    intro n
    rw [ledger_node, h.ledger, List.filterMap_append]
    exact congrArg tally (List.append_nil _).symm
  case members =>
    intro n x
    rw [members_node, h.members]
    simp

theorem Traced.add {parent into : Int} {weight : W} {member : Int}
    (fits : (Call.add parent into weight member).Fits g) :
    ∃ g', g.add parent into weight member = .ok g' ∧ ∀ table len,
      Traced (calls ++ [.add parent into weight member]) g'
        (replies ++ [(.ok (.weights table), len)]) := by
  obtain ⟨n, rfl, hn, g', hg, size, same, outline, ledger⟩ := fits.add_ok
  refine ⟨g', hg, fun table len => ?_⟩
  constructor
  case inStep => exact h.inStep.congr same outline
  case root => rw [outline, h.root]
  case distinct =>
    intro k m o hk hm
    rw [outline] at hk hm
    exact h.distinct k m o hk hm
  case length_eq => simp [h.length_eq]
  case succeeds =>
    intro r hr
    rcases List.mem_append.1 hr with hr | hr
    · exact h.succeeds r hr
    · rw [List.mem_singleton.1 hr]
      exact ⟨_, rfl⟩
  case named =>
    intro key parents r hr
    rcases h.mem_zip_concat_iff.1 hr with hr | ⟨hc, -⟩
    · obtain ⟨m, hm, ho⟩ := h.named key parents r hr
      exact ⟨m, hm, (outline m).trans ho⟩
    · cases hc
  case first_uses =>
    have none : numbers (replies ++ [(.ok (.weights table), len)]) = numbers replies :=
      List.filterMap_append.trans (List.append_nil _)
    rw [none, size, h.first_uses]
  case ledger =>
    intro k
    rw [ledger, h.ledger, List.filterMap_append]
    by_cases hk : k = n
    · rw [if_pos hk, record_tally]
      simp [Call.entryFor, hk]
    · have other : (n : Int) ≠ k := fun he => hk (Int.ofNat_inj.1 he).symm
      rw [if_neg hk]
      simp [Call.entryFor, other]
  case members =>
    intro k x
    rw [mem_members_add hn hg, h.members]
    simp only [List.mem_append, List.mem_singleton, Call.add.injEq, Int.ofNat_inj]
    grind

end

theorem traced_performAll {calls : List (Call W)} (h : (root : PrefixGraph W).Fitting calls) :
    Traced calls (root.performAll calls).1 (root.performAll calls).2 := by
  induction calls using List.reverseRecOn with
  | nil => exact traced_root
  | append_singleton calls c ih =>
    obtain ⟨before, fits, -⟩ := fitting_append.1 h
    have ih := ih before
    rw [performAll_append]
    cases c with
    | node key parents => exact ih.node key parents _
    | add parent into weight member =>
      obtain ⟨g', hg, step⟩ := ih.add fits
      simp only [performAll, perform, hg]
      exact step _ _

/-- A run of calls, with the graph and the replies that it leaves behind. -/
structure Interns (calls : List (Call W)) (g : PrefixGraph W)
    (replies : List (Except Fault (Reply W) × Nat)) : Prop where
  length_eq : replies.length = calls.length
  succeeds : ∀ r ∈ replies, ∃ reply, r.1 = .ok reply
  /-- A number is the number of a node with the key and the parents that were named. -/
  named : ∀ key parents r, (.node key parents, r) ∈ calls.zip replies →
    ∃ n, numberOf r = some n ∧ g.outline n = some (some key, .ofList parents)
  number_eq_iff : ∀ key parents r key' parents' r', (.node key parents, r) ∈ calls.zip replies →
    (.node key' parents', r') ∈ calls.zip replies →
      (numberOf r = numberOf r' ↔ key = key' ∧ ∀ x, x ∈ parents ↔ x ∈ parents')
  /-- In the order in which they are first given, the numbers are 1, 2, 3 and so on. -/
  first_uses : (numbers replies).eraseDups = List.range' 1 (g.size - 1)
  /-- Whatever node there is after some calls keeps its key and its parents. -/
  kept : ∀ earlier later, calls = earlier ++ later → ∀ n o,
    (root.performAll earlier).1.outline n = some o → g.outline n = some o
  weight : ∀ n parent, (g.ledger n).get? parent =
    if weightsAdded calls n parent = [] then none else some (logSum (weightsAdded calls n parent))
  members : ∀ n x, x ∈ g.members n ↔ ∃ parent weight, Call.add parent n weight x ∈ calls

theorem Traced.number_eq_iff {calls : List (Call W)} {g : PrefixGraph W}
    {replies : List (Except Fault (Reply W) × Nat)} (h : Traced calls g replies)
    {key key' : NodeKey} {parents parents' : List Int} {r r' : Except Fault (Reply W) × Nat}
    (hr : (.node key parents, r) ∈ calls.zip replies)
    (hr' : (.node key' parents', r') ∈ calls.zip replies) :
    numberOf r = numberOf r' ↔ key = key' ∧ ∀ x, x ∈ parents ↔ x ∈ parents' := by
  obtain ⟨n, hn, ho⟩ := h.named key parents r hr
  obtain ⟨m, hm, ho'⟩ := h.named key' parents' r' hr'
  rw [hn, hm, Option.some.injEq, ← IntSet.ofList_eq_ofList_iff]
  constructor
  · rintro rfl
    simpa using ho.symm.trans ho'
  · rintro ⟨rfl, he⟩
    exact h.distinct n m _ ho (he ▸ ho')

theorem performAll_interns {calls : List (Call W)} (h : (root : PrefixGraph W).Fitting calls) :
    Interns calls (root.performAll calls).1 (root.performAll calls).2 := by
  have traced := traced_performAll h
  refine ⟨traced.length_eq, traced.succeeds, traced.named,
    fun _ _ _ _ _ _ hr hr' => traced.number_eq_iff hr hr', traced.first_uses, ?_,
    fun n parent => ?_, traced.members⟩
  · rintro earlier later rfl n o ho
    obtain ⟨before, after⟩ := fitting_append.1 h
    rw [performAll_append]
    exact outline_performAll (traced_performAll before).inStep after ho
  · rw [traced.ledger, get?_tally]
    rfl

/-- Keys that look alike, and the same parents in different order. -/
def lookalikes : List (Call Float) :=
  [.node ⟨⟨none, none⟩, false⟩ [0], .node ⟨⟨none, some (.tuple [])⟩, false⟩ [0, 0],
    .add 0 1 0 2, .node ⟨⟨none, none⟩, false⟩ [0, 0],
    .node ⟨⟨none, some (.text "1")⟩, false⟩ [2, 1], .add 2 3 0 4, .add 1 3 0 4,
    .node ⟨⟨none, some (.number 1)⟩, false⟩ [1, 2],
    .node ⟨⟨none, some (.text "1")⟩, false⟩ [1, 2, 1], .add 2 3 0 5, .node ⟨⟨none, none⟩, true⟩ [0]]

theorem performAll_interns_lookalikes :
    numbers (root.performAll lookalikes).2 = [1, 2, 1, 3, 4, 3, 5] ∧
      Interns lookalikes (root.performAll lookalikes).1 (root.performAll lookalikes).2 :=
  ⟨by decide +kernel, performAll_interns (by decide +kernel)⟩

end LogAutomata.PrefixGraph
