import LogAutomata.Proofs.Numbering
import LogAutomata.Proofs.Parts

/-!
# Copies of copies

States and links are copied in their order, so a copy of an automaton that was put together
from copies is what one gets if all of these are put down there one after the other. Where ids
are fresh this holds of the ids too. A union in a union can therefore be taken apart into its
inputs, and so can a concatenation that comes last in another one.
-/

namespace LogAutomata

theorem relocate_relocate {init final base i f b : Nat} (hb : 2 ≤ b) (k : Nat) :
    relocate init final base (relocate i f b k) =
      relocate (relocate init final base i) (relocate init final base f) (base + (b - 2)) k := by
  rcases k with _ | _ | k
  · rfl
  · rfl
  · change relocate init final base (b + k) = base + (b - 2) + k
    rw [Automaton.relocate_of_two_le (Nat.le_add_right_of_le hb)]
    omega

theorem map_move_relocate {W : Type} {init final base i f b : Nat} (hb : 2 ≤ b)
    (rs : List (Arc W)) :
    (rs.map (Arc.move (relocate i f b))).map (Arc.move (relocate init final base)) =
      rs.map (Arc.move (relocate (relocate init final base i) (relocate init final base f)
        (base + (b - 2)))) := by
  rw [List.map_map]
  refine List.map_congr_left fun r _ => ?_
  simp only [Function.comp, Arc.move, relocate_relocate hb]

namespace Automaton

variable {W : Type} [LogWeight W]

-- ---------------------------------------------------------------------------
-- A copy of a copy
-- ---------------------------------------------------------------------------

variable {a b t g target : Automaton W} {init final i f : Nat} {operation : String}

/-- Whether the copy of `a` in `t` is copied with `t` or put down behind it, makes no difference. -/
theorem embed_embed (ha : a.WellFormed) (ht : t.WellFormed) (wf : target.WellFormed)
    (fresh : target.Numbered) (hi : i < t.size) (hf : f < t.size) (hinit : init < target.size)
    (hfinal : final < target.size) (hne : init ≠ final)
    (hg : a.embed operation { init := .inner i, final := .inner f } t = .ok g) :
    g.embed operation { init := .inner init, final := .inner final } target =
      t.embed operation { init := .inner init, final := .inner final } target >>=
        a.embed operation { init := .inner (relocate init final target.size i),
                            final := .inner (relocate init final target.size f) } := by
  have grown := extends_of_embed ha ht hi hf hg
  obtain ⟨u, hu, whole⟩ := embed_between grown.wellFormed wf hinit hfinal operation
  obtain ⟨s, hs, base⟩ := embed_between ht wf hinit hfinal operation
  have inside : ∀ k, k < t.size → relocate init final target.size k < s.size := fun k hk =>
    base.size_eq ▸ relocate_lt_size t hinit hfinal hk
  obtain ⟨v, hv, apart⟩ := embed_between ha base.wellFormed (inside i hi) (inside f hf) operation
  rw [hu, hs, ok_bind, hv]
  have two := ht.two_le_size
  refine congrArg _ ((fresh.embed rfl hu).ext ((fresh.embed rfl hs).embed rfl hv)
    whole.wellFormed apart.wellFormed ?size (fun k _ => ?symbol) fun k => ?row)
  case size =>
    rw [whole.size_eq, grown.size_eq, apart.size_eq, base.size_eq]
    omega
  case symbol =>
    -- the state was in the target, or it is a copy from `t` or from `a`
    rw [whole.symbolAt_eq, grown.symbolAt_eq, apart.symbolAt_eq, base.symbolAt_eq, base.size_eq]
    rcases Nat.lt_or_ge k target.size with hk | hk
    · rw [if_pos hk, if_pos (Nat.lt_add_right _ hk), if_pos hk]
    · have hk' := Nat.not_lt.2 hk
      by_cases hm : k - target.size + 2 < t.size
      · rw [if_neg hk', if_pos hm, if_pos (by omega), if_neg hk']
      · rw [if_neg hk', if_neg hm, if_neg (by omega)]
        exact congrArg _ (by omega)
  case row =>
    have carried := out_move_congr (fun k l => relocate_inj hinit hfinal hne) grown.out_arcs k
    rw [List.map_append, out_append, map_move_relocate two, ← base.size_eq] at carried
    rw [whole.arcsFrom, apart.arcsFrom, base.arcsFrom, List.append_assoc]
    exact congrArg _ carried

theorem embed_empty (target : Automaton W) (operation : String) (r : Remap) :
    empty.embed operation r target = .ok target := rfl

theorem embed_addState (ht : t.WellFormed) (wf : target.WellFormed) (fresh : target.Numbered)
    (hinit : init < target.size) (hfinal : final < target.size) (hne : init ≠ final)
    (hg : t.embed operation { init := .inner init, final := .inner final } target = .ok g) :
    (t.addState none .nil).embed operation { init := .inner init, final := .inner final } target =
      .ok (g.addState none .nil) := by
  have plain := extends_of_embed ht wf hinit hfinal hg
  obtain ⟨u, hu, whole⟩ := embed_between (ht.addState none .nil) wf hinit hfinal operation
  rw [hu]
  have two := ht.two_le_size
  refine congrArg _ ((fresh.embed rfl hu).ext ((fresh.embed rfl hg).addState .nil)
    whole.wellFormed (plain.wellFormed.addState none .nil) ?size (fun k _ => ?symbol) fun k => ?row)
  case size =>
    rw [whole.size_eq, size_addState, size_addState, plain.size_eq]
    omega
  case symbol =>
    rw [whole.symbolAt_eq, symbolAt_addState, symbolAt_addState, plain.symbolAt_eq, plain.size_eq]
    rcases Nat.lt_or_ge k target.size with hk | hk
    · rw [if_pos hk, if_neg (by omega), if_pos hk]
    · have last : k - target.size + 2 = t.size ↔ k = target.size + (t.size - 2) := by omega
      have hk := Nat.not_lt.2 hk
      rw [if_neg hk, if_neg hk]
      simp only [last]
  case row =>
    rw [whole.arcsFrom, plain.wellFormed.arcsFrom_addState, plain.arcsFrom]
    refine congrArg _ (out_move_congr (fun k l => relocate_inj hinit hfinal hne) (fun k => ?_) k)
    rw [out_arcs, out_arcs, ht.arcsFrom_addState]

-- ---------------------------------------------------------------------------
-- A union in a union
-- ---------------------------------------------------------------------------

theorem embed_foldlM {as : List (Automaton W)} (ha : ∀ a ∈ as, a.WellFormed)
    (ht : t.WellFormed) (wf : target.WellFormed) (fresh : target.Numbered)
    (hg : as.foldlM (fun s a => a.embed "union" {} s) t = .ok g) :
    g.embed "union" {} target =
      t.embed "union" {} target >>= as.foldlM fun s a => a.embed "union" {} s := by
  have two := ht.two_le_size
  have two' := wf.two_le_size
  induction as generalizing t with
  | nil =>
    cases hg
    exact (bind_pure _).symm
  | cons a as ih =>
    obtain ⟨first, rest⟩ := List.forall_mem_cons.1 ha
    rw [List.foldlM_cons, bind_ok] at hg
    obtain ⟨s, hs, hg⟩ := hg
    have grown := ht.of_grows (Grows.refl.embed hs)
    rw [ih rest grown hg grown.two_le_size, embed_embed first ht wf fresh (by omega) (by omega)
      (by omega) (by omega) Nat.zero_ne_one hs, bind_assoc]
    rfl

-- ---------------------------------------------------------------------------
-- A concatenation at the end of a concatenation
-- ---------------------------------------------------------------------------

theorem concatFrom_singleton (entry : Endpoint) (a : Automaton W) :
    concatFrom entry [a] = a.embed "concat" { init := entry } := rfl

theorem embed_concatFrom {as : List (Automaton W)} (hne : as ≠ []) (ha : ∀ a ∈ as, a.WellFormed)
    (ht : t.WellFormed) (hi : i < t.size) (wf : target.WellFormed) (fresh : target.Numbered)
    (hinit : init < target.size) (hone : init ≠ 1)
    (hg : concatFrom (.inner i) as t = .ok g) :
    g.embed "concat" { init := .inner init } target =
      t.embed "concat" { init := .inner init } target >>=
        concatFrom (.inner (relocate init 1 target.size i)) as := by
  have two' := wf.two_le_size
  induction as generalizing t i with
  | nil => exact absurd rfl hne
  | cons a as ih =>
    obtain ⟨first, rest⟩ := List.forall_mem_cons.1 ha
    cases as with
    | nil =>
      rw [concatFrom_singleton] at hg ⊢
      exact embed_embed (f := 1) first ht wf fresh hi ht.two_le_size hinit two' hone hg
    | cons b as =>
      simp only [concatFrom, bind_ok] at hg
      obtain ⟨s, hs, hg⟩ := hg
      have two := ht.two_le_size
      have waits := ht.addState none .nil
      have splice : t.size < (t.addState none .nil).size := by
        rw [size_addState]
        exact Nat.lt_succ_self _
      obtain ⟨u, hu, copied⟩ := embed_between ht wf hinit two' "concat"
      have size : relocate init 1 target.size t.size = u.size := by
        rw [relocate_of_two_le two, copied.size_eq]
      have grown : (t.addState none .nil).Grows s := Grows.refl.embed hs
      rw [ih (List.cons_ne_nil b as) rest (waits.of_grows grown) (splice.trans_le grown.size_le) hg,
        embed_embed first waits wf fresh (Nat.lt_trans hi splice) splice hinit two' hone hs,
        embed_addState ht wf fresh hinit two' hone hu, hu, ok_bind, ok_bind, size]
      rfl

/-- The n-ary concatenation is the one that is nested on the right. -/
theorem concat_cons {as : List (Automaton W)} (hne : as ≠ []) (ha : ∀ b ∈ as, b.WellFormed)
    (hc : concat as = .ok b) : concat [a, b] = concat (a :: as) := by
  obtain ⟨d, as, rfl⟩ := List.exists_cons_of_ne_nil hne
  simp only [concat, concatFrom]
  cases hs : a.embed "concat" { final := .inner (empty : Automaton W).size }
      (empty.addState none .nil) with
  | error e => rfl
  | ok s =>
    have start := WellFormed.empty.addState (W := W) none .nil
    have grown : ((empty : Automaton W).addState none .nil).Grows s := Grows.refl.embed hs
    have splice : (empty : Automaton W).size < s.size := grown.size_le
    exact embed_concatFrom hne ha .empty Nat.two_pos (start.of_grows grown)
      ((Numbered.empty.addState .nil).embed rfl hs) splice (Nat.succ_ne_self 1) hc

end Automaton

end LogAutomata
