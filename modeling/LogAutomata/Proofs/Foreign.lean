import LogAutomata.Automaton.Compose
import LogAutomata.Automaton.Join
import LogAutomata.Proofs.Coalesce
import LogAutomata.Proofs.Mass
import LogAutomata.Proofs.Refusals

/-!
# Operations that visit every link

An operation that visits every link stops at one whose ends its automaton does not own,
and if no weight is undefined it stops at nothing else. Automata need not be well formed
for this, since a link that is put down unchecked may name any state.
-/

namespace LogAutomata.Automaton

variable {W : Type} {a target : Automaton W} {operation : String}

-- ---------------------------------------------------------------------------
-- Copies
-- ---------------------------------------------------------------------------

def Defined [LogWeight W] (a : Automaton W) : Prop := ∀ l ∈ a.links, isUndefined l.weight = false

variable [LogWeight W]

theorem copied_refuses {r : Remap} (keeps : ∀ s, r.keep s = true) {init final : Nat}
    (hi : r.init = .inner init) (hf : r.final = .inner final) (hinit : init < target.size)
    (hfinal : final < target.size) {ls : List (Link W)}
    (hw : ∀ l ∈ ls, isUndefined l.weight = false) : Refuses operation (∃ l ∈ ls, a.Foreign l)
      ((a.carry (a.remap r target).1 (a.remap r target).1 operation (a.remap r target).2 ls).map
        (a.remap r target).2.withArcs) fun b => target.size ≤ b.size := by
  have lands := lands_remap keeps a hi hf hinit hfinal
  refine (carry_refuses lands lands hw).map _ fun rs _ => ?_
  rw [size_withArcs, remap_size keeps]
  exact Nat.le_add_right _ _

theorem embed_refuses (ha : a.Defined) {r : Remap} (keeps : ∀ s, r.keep s = true)
    {init final : Nat} (hi : r.init = .inner init) (hf : r.final = .inner final)
    (hinit : init < target.size) (hfinal : final < target.size) :
    Refuses operation a.HoldsForeign (a.embed operation r target)
      fun b => target.size ≤ b.size := copied_refuses keeps hi hf hinit hfinal ha

theorem copy_refuses (ha : a.Defined) : Refuses "copy" a.HoldsForeign a.copy fun _ => True :=
  (embed_refuses ha (fun _ => rfl) rfl rfl Nat.two_pos Nat.one_lt_two).mono fun _ _ => trivial

theorem transpose_refuses (ha : a.Defined) :
    Refuses "transpose" a.HoldsForeign a.transpose fun _ => True := by
  have reversed : (∃ l ∈ a.links.map Link.reverse, a.Foreign l) ↔ a.HoldsForeign := by
    simp only [List.mem_map, exists_exists_and_eq_and]
    exact exists_congr fun l => and_congr_right fun _ => or_comm
  refine ((copied_refuses (fun _ => rfl) rfl rfl Nat.one_lt_two Nat.two_pos ?_).congr
    reversed).mono fun _ _ => trivial
  exact List.forall_mem_map.2 ha

theorem union_refuses {as : List (Automaton W)} (h : ∀ a ∈ as, a.Defined) :
    Refuses "union" (∃ a ∈ as, a.HoldsForeign) (union as) fun _ => True := by
  refine (Refuses.foldlM (P := fun _ b => 2 ≤ b.size) (n := 0) (fun a ha _ b hb => ?_)
    (Nat.le_refl 2)).mono fun _ _ => trivial
  exact (embed_refuses (h a ha) (fun _ => rfl) rfl rfl (Nat.lt_of_lt_of_le Nat.two_pos hb)
    hb).mono fun _ => Nat.le_trans hb

theorem concatFrom_refuses {as : List (Automaton W)} (h : ∀ a ∈ as, a.Defined) {entry : Nat}
    (two : 2 ≤ target.size) (he : entry < target.size) :
    Refuses "concat" (∃ a ∈ as, a.HoldsForeign) (concatFrom (.inner entry) as target)
      fun _ => True := by
  induction as generalizing entry target with
  | nil => exact (Refuses.of_ok rfl trivial).congr (by simp)
  | cons a rest ih =>
    have first := h a List.mem_cons_self
    cases rest with
    | nil =>
      refine ((embed_refuses first (fun _ => rfl) rfl rfl he two).mono fun _ _ => trivial).congr ?_
      simp
    | cons b rest =>
      have grown : target.size < (target.addState none .nil).size := by
        rw [size_addState]
        exact Nat.lt_succ_self _
      refine ((embed_refuses first (fun _ => rfl) rfl rfl (Nat.lt_trans he grown)
        grown).bind fun c hc => ?_).congr Refuses.exists_mem_cons
      exact ih (fun d hd => h d (List.mem_cons_of_mem _ hd))
        (Nat.le_trans two (Nat.le_trans (Nat.le_of_lt grown) hc)) (Nat.lt_of_lt_of_le grown hc)

theorem concat_refuses {as : List (Automaton W)} (h : ∀ a ∈ as, a.Defined) :
    Refuses "concat" (∃ a ∈ as, a.HoldsForeign) (concat as) fun _ => True :=
  concatFrom_refuses h (Nat.le_refl 2) Nat.two_pos

-- ---------------------------------------------------------------------------
-- Coalescing
-- ---------------------------------------------------------------------------

theorem coalesce_refuses [DefinedSums W] (ha : a.Defined) :
    Refuses "coalesce" a.HoldsForeign a.coalesce fun _ => True := by
  have ends : ∀ l ∈ a.links, Refuses "coalesce" (a.Foreign l) (do
      let src ← a.owned "coalesce" l.src
      let dest ← a.owned "coalesce" l.dest
      return ((src, dest), l.weight)) fun e =>
        e.1.1 < a.size ∧ e.1.2 < a.size ∧ isUndefined e.2 = false := fun l hl =>
    (a.owned_refuses "coalesce" l.src).bind fun s hs =>
      (a.owned_refuses "coalesce" l.dest).map _ fun d hd => ⟨hs.1, hd.1, ha l hl⟩
  refine (Refuses.mapM ends).andThen fun es hes => ?_
  have inside : ∀ e ∈ es, e.1.1 < a.size ∧ e.1.2 < a.size ∧ isUndefined e.2 = false := by
    intro e he
    obtain ⟨l, -, h⟩ := exists_of_forall₂ hes.flip he
    exact h
  have size : a.size ≤ (a.remap {} empty).2.size := by
    rw [remap_size fun _ => rfl, size_empty]
    omega
  have joined := mapM_arc?_ok fun e (he : e ∈ (tally es).toList) => by
    obtain ⟨w, hw⟩ := exists_of_mem_tally he
    obtain ⟨hs, hd, -⟩ := inside _ hw
    have defined := defined_of_mem_tally (fun e he => (inside e he).2.2) he
    exact Fits.mk (r := Arc.ofEntry e) (Nat.lt_of_lt_of_le hs size) (Nat.lt_of_lt_of_le hd size)
      defined
  exact ⟨_, congrArg (Except.map _) joined, trivial⟩

-- ---------------------------------------------------------------------------
-- Composition
-- ---------------------------------------------------------------------------

def Inserts (host : Automaton W) (units : List (Option Label × Automaton W))
    (unit : Automaton W) : Prop :=
  ∃ s ∈ host.interior, s.symbol.label.bind (unitFor units) = some unit

/-- There is a way in and a way out for as many states. -/
structure Connects (n : Nat) (asm : Assembly W) : Prop where
  two_le_size : 2 ≤ asm.target.size
  size_exits : asm.exits.size = n
  size_entries : asm.entries.size = n
  exits : asm.target.Lands asm.exits n
  entries : asm.target.Lands asm.entries n

omit [LogWeight W] in
theorem Connects.push {n : Nat} {asm : Assembly W} (h : Connects n asm)
    (grown : asm.target.size ≤ target.size) {exit entry : Nat} (hx : exit < target.size)
    (he : entry < target.size) : Connects (n + 1)
      ⟨target, asm.exits.push (some (.inner exit)), asm.entries.push (some (.inner entry))⟩ where
  two_le_size := Nat.le_trans h.two_le_size grown
  size_exits := by rw [Array.size_push, h.size_exits]
  size_entries := by rw [Array.size_push, h.size_entries]
  exits := (h.exits.mono grown).push h.size_exits hx
  entries := (h.entries.mono grown).push h.size_entries he

section
variable {host : Automaton W} {units : List (Option Label × Automaton W)}

theorem place_refuses {s : State W}
    (defined : ∀ unit, s.symbol.label.bind (unitFor units) = some unit → unit.Defined) {n : Nat}
    {asm : Assembly W} (h : Connects n asm) : Refuses "compose"
      (∃ unit, s.symbol.label.bind (unitFor units) = some unit ∧ unit.HoldsForeign)
      (asm.place units s) (Connects (n + 1)) := by
  unfold Assembly.place
  cases hu : s.symbol.label.bind (unitFor units) with
  | none =>
    refine (Refuses.of_ok rfl (h.push ?_ ?_ ?_)).congr (by simp)
    all_goals simp
  | some unit =>
    refine ((embed_refuses (defined unit hu) (fun _ => rfl) rfl rfl ?_ ?_).map _
      fun b hb => h.push ?_ ?_ ?_).congr (by simp)
    all_goals
      simp only [size_addState] at *
      omega

theorem compose_refuses (hh : host.Defined) (hu : ∀ u ∈ units, u.2.Defined) :
    Refuses "compose" (host.HoldsForeign ∨ ∃ unit, host.Inserts units unit ∧ unit.HoldsForeign)
      (host.compose units) fun _ => True := by
  have start : Connects 2 (⟨empty, #[some (.inner 0), some (.inner 1)],
      #[some (.inner 0), some (.inner 1)]⟩ : Assembly W) :=
    ⟨Nat.le_refl 2, rfl, rfl, lands_sentinels, lands_sentinels⟩
  have units : ∀ s ∈ host.interior, ∀ unit, s.symbol.label.bind (unitFor units) = some unit →
      unit.Defined := by
    intro s hs unit h
    obtain ⟨l, hl⟩ := exists_pair_of_unitFor h
    exact hu _ hl
  have placed := Refuses.foldlM (fun s hs n asm => place_refuses (units s hs)) start
  have all : host.size ≤ 2 + host.interior.length := by
    rw [length_interior]
    omega
  have carried : ∀ asm, Connects (2 + host.interior.length) asm → Refuses "compose" host.HoldsForeign
      ((host.carry asm.exits asm.entries "compose" asm.target host.links).map asm.target.withArcs)
      fun _ => True := fun asm h =>
    (carry_refuses (h.exits.anti all) (h.entries.anti all) hh).map _ fun _ _ => trivial
  refine (placed.bind carried).congr (or_comm.trans (or_congr_right ⟨?_, ?_⟩))
  · rintro ⟨s, hs, unit, hu, hf⟩
    exact ⟨unit, ⟨s, hs, hu⟩, hf⟩
  · rintro ⟨unit, ⟨s, hs, hu⟩, hf⟩
    exact ⟨s, hs, unit, hu, hf⟩

end

-- ---------------------------------------------------------------------------
-- Normalization
-- ---------------------------------------------------------------------------

/-- Among defined weights these are the ones without a share in their total. -/
def Unshared (I : W → Prop) : Prop :=
  ∀ ws : List W, (∀ w ∈ ws, isUndefined w = false) →
    ∀ w ∈ ws, (isUndefined (w - normalizer ws) = false ↔ ¬I w)

theorem unshared_infinite : Unshared (· = ExactWeight.infinite) :=
  fun _ h _ hw => ExactWeight.defined_sub_normalizer_iff h hw

section
variable {I : W → Prop} (unshared : Unshared I) (ha : a.Defined)
include unshared ha

theorem normalizedLinks_forall₂ {s : State W} (hs : s ∈ a.states.toList) :
    List.Forall₂ (fun l m => (a.Foreign l ↔ a.Foreign m) ∧
      (¬I l.weight ↔ isUndefined m.weight = false)) s.links.toList s.normalizedLinks := by
  rw [State.normalizedLinks, List.forall₂_map_right_iff, List.forall₂_same]
  refine fun l hl => ⟨Iff.rfl, (unshared _ ?_ _ (List.mem_map_of_mem hl)).symm⟩
  refine List.forall_mem_map.2 fun m hm => ha m ?_
  exact List.mem_flatMap.2 ⟨s, hs, hm⟩

theorem normalize_unmapped_iff : Unmapped "normalize" a.normalize ↔
    ComesFirst a.Foreign (fun l => ¬I l.weight) a.links := by
  have lands : (a.remap {} empty).2.Lands (a.remap {} empty).1 a.size :=
    lands_remap (fun _ => rfl) a rfl rfl Nat.two_pos Nat.one_lt_two
  refine (unmapped_map_iff _).trans ((carry_unmapped_iff lands lands).trans ?_)
  refine (comesFirst_congr (List.rel_flatMap ?_ fun _ _ h => h)).symm
  exact List.forall₂_same.2 fun s hs => normalizedLinks_forall₂ unshared ha hs

end

end LogAutomata.Automaton
