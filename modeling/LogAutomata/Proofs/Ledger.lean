import LogAutomata.Automaton.Coalesce
import Mathlib.Data.List.Induction
import Mathlib.Data.List.Nodup

/-!
# What a ledger holds

A ledger without repeated keys holds an entry exactly if it answers with its
value. A tally answers with the log-sum of the weights under the key.
-/

namespace LogAutomata

namespace Ledger

variable {κ α : Type} [DecidableEq κ]

theorem mem_keys_of_get? {l : Ledger κ α} {k : κ} {v : α} (h : l.get? k = some v) :
    (k, v) ∈ l.toList := by
  rw [get?_eq_find?] at h
  obtain ⟨⟨k', v'⟩, he, rfl⟩ := Option.map_eq_some_iff.1 h
  have hk : k' = k := by simpa using List.find?_some he
  exact hk ▸ List.mem_of_find?_eq_some he

theorem mem_of_mem_alter {l : Ledger κ α} {key : κ} {f : Option α → α} {e : κ × α}
    (h : e ∈ (l.alter key f).toList) : e ∈ l.toList ∨ ∃ old, e = (key, f old) := by
  rw [toList_alter] at h
  generalize l.toList = es at h ⊢
  induction es with
  | nil => exact .inr ⟨none, List.mem_singleton.1 h⟩
  | cons x es ih =>
    unfold alterEntries at h
    split at h
    · next hk =>
      rcases List.mem_cons.1 h with rfl | h
      · exact .inr ⟨some x.2, by rw [← hk]⟩
      · exact .inl (List.mem_cons_of_mem _ h)
    · rcases List.mem_cons.1 h with rfl | h
      · exact .inl List.mem_cons_self
      · exact (ih h).imp_left (List.mem_cons_of_mem _)

theorem mem_toList_iff {l : Ledger κ α} (h : l.keys.Nodup) {k : κ} {v : α} :
    (k, v) ∈ l.toList ↔ l.get? k = some v := by
  refine ⟨fun hm => ?_, mem_keys_of_get?⟩
  rw [get?_eq_find?]
  unfold keys at h
  generalize l.toList = es at h hm ⊢
  induction es with
  | nil => cases hm
  | cons e es ih =>
    rw [List.map_cons, List.nodup_cons] at h
    rcases List.mem_cons.1 hm with rfl | hm
    · simp
    · have hne : e.1 ≠ k := fun he => h.1 (he ▸ List.mem_map_of_mem hm)
      rw [List.find?_cons_of_neg (by simpa using hne)]
      exact ih h.2 hm

theorem mem_keys_iff {l : Ledger κ α} {k : κ} : k ∈ l.keys ↔ ∃ v, l.get? k = some v := by
  constructor
  · intro h
    obtain ⟨⟨k', v⟩, hm, rfl⟩ := List.mem_map.1 h
    cases hf : l.get? k' with
    | some v => exact ⟨v, rfl⟩
    | none =>
      rw [get?_eq_find?, Option.map_eq_none_iff, List.find?_eq_none] at hf
      simpa using hf _ hm
  · rintro ⟨v, h⟩
    exact List.mem_map_of_mem (mem_keys_of_get? h)

theorem alterEntries_of_not_mem {es : List (κ × α)} {key : κ} (f : Option α → α)
    (h : key ∉ es.map Prod.fst) : alterEntries key f es = es ++ [(key, f none)] := by
  induction es with
  | nil => rfl
  | cons e es ih =>
    simp only [List.map_cons, List.mem_cons, not_or] at h
    rw [alterEntries, if_neg (Ne.symm h.1), ih h.2]
    rfl

end Ledger

variable {κ W : Type} [DecidableEq κ]

theorem filter_fst_eq_singleton {es : List (κ × W)} (h : (es.map Prod.fst).Nodup) {e : κ × W}
    (he : e ∈ es) : (es.filter fun x => x.1 = e.1) = [e] := by
  refine List.perm_singleton.1 ((List.perm_ext_iff_of_nodup (h.of_map _ |>.filter _)
    (List.nodup_singleton e)).2 fun x => ?_)
  rw [List.mem_filter, decide_eq_true_iff, List.mem_singleton]
  constructor
  · rintro ⟨hx, hxe⟩
    exact List.inj_on_of_nodup_map h hx he hxe
  · rintro rfl
    exact ⟨he, rfl⟩

def entriesAt (es : List (κ × W)) (k : κ) : List W := (es.filter (·.1 = k)).map Prod.snd

theorem mem_entriesAt_iff {es : List (κ × W)} {k : κ} {w : W} :
    w ∈ entriesAt es k ↔ (k, w) ∈ es := by
  unfold entriesAt
  constructor
  · intro h
    obtain ⟨⟨k', w'⟩, hm, rfl⟩ := List.mem_map.1 h
    simp_all
  · intro h
    exact List.mem_map.2 ⟨(k, w), List.mem_filter.2 ⟨h, by simp⟩, rfl⟩

theorem entriesAt_concat (es : List (κ × W)) (e : κ × W) (k : κ) :
    entriesAt (es ++ [e]) k = entriesAt es k ++ if e.1 = k then [e.2] else [] := by
  rw [entriesAt, entriesAt, List.filter_append, List.map_append]
  congr 1
  by_cases h : e.1 = k <;> simp [h]

variable [LogWeight W]

theorem logSum_concat (ws : List W) (w : W) : logSum (ws ++ [w]) = logAdd (logSum ws) w := by
  rw [logSum, List.foldl_append]
  rfl

/-- Log-sums do not leave the range in which weights are meaningful. -/
class DefinedSums (W : Type) [LogWeight W] : Prop where
  impossible : isUndefined (impossible : W) = false
  logAdd : ∀ v w : W, isUndefined v = false → isUndefined w = false →
    isUndefined (logAdd v w) = false

theorem logSum_defined [DefinedSums W] {ws : List W} (h : ∀ w ∈ ws, isUndefined w = false) :
    isUndefined (logSum ws) = false := by
  induction ws using List.reverseRecOn with
  | nil => exact DefinedSums.impossible
  | append_singleton ws w ih =>
    rw [logSum_concat]
    exact DefinedSums.logAdd _ _ (ih fun v hv => h v (by simp [hv])) (h w (by simp))

theorem tally_concat (es : List (κ × W)) (e : κ × W) :
    tally (es ++ [e]) = (tally es).alter e.1 fun old => logAdd (old.getD impossible) e.2 := by
  rw [tally, List.foldl_append]
  rfl

theorem nodup_keys_tally (es : List (κ × W)) : (tally es).keys.Nodup := by
  induction es using List.reverseRecOn with
  | nil => exact List.nodup_nil
  | append_singleton es e ih =>
    rw [tally_concat]
    exact Ledger.nodup_keys_alter _ _ ih

theorem get?_tally (es : List (κ × W)) (k : κ) :
    (tally es).get? k = if entriesAt es k = [] then none else some (logSum (entriesAt es k)) := by
  induction es using List.reverseRecOn with
  | nil => rfl
  | append_singleton es e ih =>
    rw [tally_concat, entriesAt_concat]
    by_cases h : e.1 = k
    · subst h
      rw [Ledger.get?_alter_self, ih, if_pos rfl, if_neg (List.append_ne_nil_of_right_ne_nil _
        (List.cons_ne_nil _ _)), logSum_concat]
      by_cases he : entriesAt es e.1 = []
      · rw [if_pos he, he]
        rfl
      · rw [if_neg he]
        rfl
    · rw [Ledger.get?_alter_of_ne _ _ h, ih, if_neg h, List.append_nil]

theorem mem_tally_iff {es : List (κ × W)} {k : κ} {w : W} :
    (k, w) ∈ (tally es).toList ↔ entriesAt es k ≠ [] ∧ w = logSum (entriesAt es k) := by
  rw [Ledger.mem_toList_iff (nodup_keys_tally es), get?_tally]
  split
  · next h => simp [h]
  · next h =>
    rw [Option.some.injEq]
    exact ⟨fun he => ⟨h, he.symm⟩, fun he => he.2.symm⟩

theorem entriesAt_tally (es : List (κ × W)) (k : κ) : entriesAt (tally es).toList k =
    if entriesAt es k = [] then [] else [logSum (entriesAt es k)] := by
  split
  · next none =>
    refine List.eq_nil_iff_forall_not_mem.2 fun w hw => ?_
    exact (mem_tally_iff.1 (mem_entriesAt_iff.1 hw)).1 none
  · next some =>
    have entry : (k, logSum (entriesAt es k)) ∈ (tally es).toList := mem_tally_iff.2 ⟨some, rfl⟩
    exact congrArg (List.map Prod.snd) (filter_fst_eq_singleton (nodup_keys_tally es) entry)

/-- Where no key is repeated there is nothing to tally, as long as weights stay as they are
beside the impossible one. -/
theorem toList_tally_of_nodup {es : List (κ × W)} (h : (es.map Prod.fst).Nodup)
    (neutral : ∀ w : W, logAdd impossible w = w) : (tally es).toList = es := by
  induction es using List.reverseRecOn with
  | nil => rfl
  | append_singleton es e ih =>
    rw [List.map_append, List.nodup_append] at h
    obtain ⟨rest, -, apart⟩ := h
    have new : e.1 ∉ es.map Prod.fst := fun hm => apart e.1 hm e.1 (List.mem_singleton_self _) rfl
    rw [tally_concat, Ledger.toList_alter, ih rest, Ledger.alterEntries_of_not_mem _ new,
      Option.getD_none, neutral]

theorem exists_of_mem_tally {es : List (κ × W)} {e : κ × W} (h : e ∈ (tally es).toList) :
    ∃ w, (e.1, w) ∈ es := by
  obtain ⟨w, hw⟩ := List.exists_mem_of_ne_nil _ (mem_tally_iff.1 h).1
  exact ⟨w, mem_entriesAt_iff.1 hw⟩

theorem defined_of_mem_tally [DefinedSums W] {es : List (κ × W)}
    (defined : ∀ e ∈ es, isUndefined e.2 = false) {e : κ × W} (h : e ∈ (tally es).toList) :
    isUndefined e.2 = false := by
  rw [(mem_tally_iff.1 h).2]
  exact logSum_defined fun w hw => defined _ (mem_entriesAt_iff.1 hw)

end LogAutomata
