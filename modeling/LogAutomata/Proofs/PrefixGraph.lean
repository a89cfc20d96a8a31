import LogAutomata.PrefixGraph.Basic
import LogAutomata.Proofs.Checks
import LogAutomata.Proofs.Ledger

/-!
# What a prefix graph knows

The outline of a node is its key and its parents. As long as the table is in step with
the nodes, `node` answers with a node of the outline it is asked for and makes one only
if there was none; it leaves the table in step, and `add` keeps the table and all
outlines. The ledger of a node is the tally of the links that were added to it.
-/

namespace LogAutomata

theorem resolve_natCast {length n : Nat} (h : n < length) : resolve length n = some n := by
  have h0 : ¬(n : Int) < 0 := by omega
  have h1 : (0 : Int) ≤ n ∧ (n : Int) < length := by omega
  simp [resolve, h0, h1]

theorem position_natCast {length n : Nat} (h : n < length) : position length n = .ok n := by
  rw [position, resolve_natCast h]

namespace PrefixGraph

variable {W : Type}

def outline (g : PrefixGraph W) (k : Nat) : Option (Option NodeKey × IntSet) :=
  g.nodes[k]?.map fun n => (n.key, n.parents)

def ledger (g : PrefixGraph W) (k : Nat) : Ledger Int W := (g.nodes[k]?.map Node.weights).getD #[]

def members (g : PrefixGraph W) (k : Nat) : IntSet := (g.nodes[k]?.map Node.members).getD .empty

theorem outline_eq_none_iff {g : PrefixGraph W} {k : Nat} : g.outline k = none ↔ g.size ≤ k := by
  rw [outline, Option.map_eq_none_iff, Array.getElem?_eq_none_iff]
  rfl

theorem lt_size_of_outline {g : PrefixGraph W} {k : Nat} {o : Option NodeKey × IntSet}
    (h : g.outline k = some o) : k < g.size := by
  refine Nat.lt_of_not_le fun hk => ?_
  rw [outline_eq_none_iff.2 hk] at h
  cases h

theorem exists_outline {g : PrefixGraph W} {k : Nat} (h : k < g.size) :
    ∃ o, g.outline k = some o := by
  refine Option.ne_none_iff_exists'.1 fun hn => ?_
  exact Nat.not_le.2 h (outline_eq_none_iff.1 hn)

/-- The graph `g'` is `g`, perhaps with one more node, and has this node at `n`. -/
structure Grows (g g' : PrefixGraph W) (n : Nat) (key : NodeKey) (parents : IntSet) : Prop where
  self : g'.outline n = some (some key, parents)
  of_ne : ∀ k, k ≠ n → g'.outline k = g.outline k
  old_or_new : g.outline n = some (some key, parents) ∨
    n = g.size ∧ ∀ k, g.outline k ≠ some (some key, parents)

section
variable {g g' : PrefixGraph W} {n : Nat} {key : NodeKey} {parents : IntSet}

theorem Grows.kept (h : g.Grows g' n key parents) {k : Nat} {o : Option NodeKey × IntSet}
    (ho : g.outline k = some o) : g'.outline k = some o := by
  by_cases hk : k = n
  · subst hk
    rcases h.old_or_new with he | ⟨he, -⟩
    · rw [h.self, ← he, ho]
    · exact absurd (lt_size_of_outline ho) (Nat.not_lt.2 (Nat.le_of_eq he.symm))
  · rw [h.of_ne k hk, ho]

theorem Grows.lt_size (h : g.Grows g' n key parents) {k : Nat} (hk : k < g'.size) :
    k = n ∨ k < g.size := by
  obtain ⟨o, ho⟩ := exists_outline hk
  by_cases hn : k = n
  · exact .inl hn
  · rw [h.of_ne k hn] at ho
    exact .inr (lt_size_of_outline ho)

def Distinct (g : PrefixGraph W) : Prop :=
  ∀ k m o, g.outline k = some o → g.outline m = some o → k = m

theorem Grows.distinct (h : g.Grows g' n key parents) (hd : g.Distinct) : g'.Distinct := by
  -- a node other than `n` that has the new outline had it before
  have new : ∀ k, g'.outline k = some (some key, parents) → k = n := by
    intro k hk
    by_cases hn : k = n
    · exact hn
    · rw [h.of_ne k hn] at hk
      rcases h.old_or_new with he | ⟨-, hno⟩
      · exact hd k n _ hk he
      · exact absurd hk (hno k)
  intro k m o hk hm
  by_cases hkn : k = n
  · subst hkn
    obtain rfl := Option.some.inj (hk.symm.trans h.self)
    exact (new m hm).symm
  · by_cases hmn : m = n
    · subst hmn
      obtain rfl := Option.some.inj (hm.symm.trans h.self)
      exact new k hk
    · rw [h.of_ne k hkn] at hk
      rw [h.of_ne m hmn] at hm
      exact hd k m o hk hm

end

/-- What the table has under parents and a key is the node with this outline. -/
def InStep (g : PrefixGraph W) : Prop :=
  ∀ key parents n, g.table.get? (parents, key) = some n ↔ g.outline n = some (some key, parents)

theorem inStep_root : (root : PrefixGraph W).InStep := by
  intro key parents n
  refine iff_of_false nofun fun ho => ?_
  obtain rfl : n = 0 := Nat.lt_one_iff.1 (lt_size_of_outline ho)
  cases ho

theorem InStep.congr {g g' : PrefixGraph W} (h : g.InStep) (table : g'.table = g.table)
    (outline : ∀ k, g'.outline k = g.outline k) : g'.InStep := by
  intro key parents n
  rw [table, outline]
  exact h key parents n

/-- A number that is found stands for this node, and otherwise there is no such node yet. -/
theorem node_grows {g : PrefixGraph W} (h : g.InStep) (key : NodeKey) (parents : List Int) :
    g.Grows (g.node key parents).2 (g.node key parents).1 key (.ofList parents) := by
  cases hf : g.table.get? (.ofList parents, key) with
  | some n =>
    have he : g.node key parents = (n, g) := by simp only [node, hf]
    have ho := (h key (.ofList parents) n).1 hf
    rw [he]
    exact ⟨ho, fun _ _ => rfl, .inl ho⟩
  | none =>
    have hnew : ∀ k, g.outline k ≠ some (some key, .ofList parents) := by
      intro k hk
      cases hf.symm.trans ((h key (.ofList parents) k).2 hk)
    simp only [node, hf]
    refine ⟨?_, fun k hk => ?_, .inr ⟨rfl, hnew⟩⟩
    · simp [outline, size]
    · have : k ≠ g.nodes.size := hk
      simp [outline, Array.getElem?_push, this]

/-- A node that is made is entered into the table with the number that it has. -/
theorem InStep.node {g : PrefixGraph W} (h : g.InStep) (key : NodeKey) (parents : List Int) :
    (g.node key parents).2.InStep := by
  have grows := node_grows h key parents
  cases hf : g.table.get? (.ofList parents, key) with
  | some n =>
    simp only [PrefixGraph.node, hf]
    exact h
  | none =>
    simp only [PrefixGraph.node, hf] at grows ⊢
    intro key' parents' n
    rw [Ledger.get?_push]
    by_cases same : (IntSet.ofList parents, key) = (parents', key')
    · cases same
      rw [hf, if_pos rfl, Option.none_or, Option.some.injEq]
      refine ⟨fun he => he ▸ grows.self, fun ho => ?_⟩
      by_contra hn
      rw [grows.of_ne n (Ne.symm hn)] at ho
      cases hf.symm.trans ((h _ _ n).2 ho)
    · rw [if_neg same, Option.or_none, h key' parents' n]
      refine ⟨grows.kept, fun ho => ?_⟩
      rcases eq_or_ne n g.size with rfl | hn
      · cases grows.self.symm.trans ho
        exact absurd rfl same
      · rwa [grows.of_ne n hn] at ho

/-- What is known of a node, and is the same of a fresh one and of one that is not there, stays. -/
theorem getD_map_node {β : Type} (g : PrefixGraph W) (key : NodeKey) (parents : List Int)
    (f : Node W → β) (k : Nat) :
    ((g.node key parents).2.nodes[k]?.map f).getD (f ⟨some key, .ofList parents, .empty, #[]⟩) =
      (g.nodes[k]?.map f).getD (f ⟨some key, .ofList parents, .empty, #[]⟩) := by
  cases hf : g.table.get? (.ofList parents, key) with
  | some n => simp only [node, hf]
  | none =>
    by_cases hk : k = g.nodes.size
    · simp [node, hf, hk]
    · simp [node, hf, Array.getElem?_push, hk]

theorem ledger_node (g : PrefixGraph W) (key : NodeKey) (parents : List Int) (k : Nat) :
    (g.node key parents).2.ledger k = g.ledger k := g.getD_map_node key parents Node.weights k

theorem members_node (g : PrefixGraph W) (key : NodeKey) (parents : List Int) (k : Nat) :
    (g.node key parents).2.members k = g.members k := g.getD_map_node key parents Node.members k

variable [LogWeight W]

def record (l : Ledger Int W) (es : List (Int × W)) : Ledger Int W :=
  es.foldl (fun l e => l.alter e.1 fun old => logAdd (old.getD impossible) e.2) l

theorem record_tally (es fs : List (Int × W)) : record (tally es) fs = tally (es ++ fs) :=
  List.foldl_append.symm

theorem add_ok {g : PrefixGraph W} {n : Nat} (hn : n < g.size) (parent : Int) (w : W)
    (member : Int) : ∃ g', g.add parent n w member = .ok g' ∧ g'.size = g.size ∧
      g'.table = g.table ∧ (∀ k, g'.outline k = g.outline k) ∧
      ∀ k, g'.ledger k = if k = n then record (g.ledger k) [(parent, w)] else g.ledger k := by
  refine ⟨{ g with nodes := g.nodes.modify n (Node.fold · parent w member) }, ?_, ?_, rfl,
    fun k => ?_, fun k => ?_⟩
  · rw [add, position_natCast hn]
    rfl
  · simp [size]
  · simp only [outline, Array.getElem?_modify]
    split
    · rw [Option.map_map]
      rfl
    · rfl
  · simp only [ledger, Array.getElem?_modify, eq_comm (a := k)]
    split
    · next hk =>
      subst hk
      have := Array.getElem?_eq_getElem hn
      rw [this]
      rfl
    · rfl

theorem mem_members_add {g g' : PrefixGraph W} {parent : Int} {n : Nat} {w : W} {member : Int}
    (hn : n < g.size) (h : g.add parent n w member = .ok g') (k : Nat) (x : Int) :
    x ∈ g'.members k ↔ x ∈ g.members k ∨ k = n ∧ x = member := by
  rw [add, position_natCast hn] at h
  cases h
  simp only [members, Array.getElem?_modify, eq_comm (a := k)]
  split
  · next hk =>
    subst hk
    simp [Array.getElem?_eq_getElem (show n < g.nodes.size from hn), Node.fold, or_comm]
  · next hk => simp [hk]

theorem mem_members_foldlM_add {g g' : PrefixGraph W} {n : Nat} (hn : n < g.size) {member : Int}
    {es : List (Int × Link W)}
    (h : es.foldlM (fun g (parent, l) => g.add parent n l.weight member) g = .ok g') (k : Nat)
    (x : Int) : x ∈ g'.members k ↔ x ∈ g.members k ∨ k = n ∧ x = member ∧ es ≠ [] := by
  induction es generalizing g with
  | nil =>
    cases h
    simp
  | cons e es ih =>
    obtain ⟨g1, h1, h⟩ := bind_ok.1 (List.foldlM_cons.symm.trans h)
    obtain ⟨g1', h1', hs, -⟩ := add_ok hn e.1 e.2.weight member
    obtain rfl := Except.ok.inj (h1'.symm.trans h1)
    rw [ih (hs ▸ hn) h, mem_members_add hn h1]
    grind

theorem foldlM_add_ok {g : PrefixGraph W} {n : Nat} (hn : n < g.size) (member : Int)
    (es : List (Int × Link W)) :
    ∃ g', es.foldlM (fun g (parent, l) => g.add parent n l.weight member) g = .ok g' ∧
      g'.table = g.table ∧ (∀ k, g'.outline k = g.outline k) ∧
      ∀ k, g'.ledger k =
        if k = n then record (g.ledger k) (es.map fun e => (e.1, e.2.weight)) else g.ledger k := by
  induction es generalizing g with
  | nil =>
    refine ⟨g, rfl, rfl, fun _ => rfl, fun k => ?_⟩
    split <;> rfl
  | cons e es ih =>
    obtain ⟨g1, h1, hs, ht, ho, hl⟩ := add_ok hn e.1 e.2.weight member
    obtain ⟨g2, h2, ht', ho', hl'⟩ := ih (hs ▸ hn)
    refine ⟨g2, ?_, ht'.trans ht, fun k => (ho' k).trans (ho k), fun k => ?_⟩
    · rw [List.foldlM_cons]
      change (g.add e.1 n e.2.weight member >>= _) = _
      rw [h1]
      exact h2
    · rw [hl', hl]
      split <;> rfl

end PrefixGraph

end LogAutomata
