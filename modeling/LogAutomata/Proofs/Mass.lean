import LogAutomata.Automaton.Normalize
import LogAutomata.ExactWeight
import LogAutomata.Proofs.Ledger

/-!
# Weights as masses

Exponentiated, an exact weight is a number: zero if it is impossible and positive
if it is finite. Sums of weights are products of masses, log-sums are sums of
masses, and a proper weight is known by its mass.
-/

namespace LogAutomata.ExactWeight

/-- The exponentiated weight. Only proper weights have one. -/
noncomputable def mass : ExactWeight → ℝ
  | finite x => Real.exp x
  | _ => 0

@[simp] theorem mass_finite (x : ℝ) : (finite x).mass = Real.exp x := rfl
@[simp] theorem mass_impossible : impossible.mass = 0 := rfl
@[simp] theorem mass_zero : (0 : ExactWeight).mass = 1 := Real.exp_zero

theorem Finite.proper {w : ExactWeight} (h : w.Finite) : w.Proper := by
  cases w with
  | finite x => trivial
  | _ => cases h

theorem Proper.defined {w : ExactWeight} (h : w.Proper) : LogAutomata.isUndefined w = false := by
  cases w with
  | impossible => rfl
  | finite x => rfl
  | _ => cases h

theorem proper_iff {w : ExactWeight} :
    w.Proper ↔ LogAutomata.isUndefined w = false ∧ w ≠ infinite := by
  cases w with
  | impossible => exact ⟨fun _ => ⟨rfl, nofun⟩, fun _ => trivial⟩
  | finite x => exact ⟨fun _ => ⟨rfl, nofun⟩, fun _ => trivial⟩
  | infinite => exact ⟨False.elim, fun h => h.2 rfl⟩
  | undefined => exact ⟨False.elim, fun h => nomatch h.1⟩

theorem finite_iff {w : ExactWeight} : w.Finite ↔ w.Proper ∧ 0 < w.mass := by
  cases w with
  | finite x => exact ⟨fun _ => ⟨trivial, Real.exp_pos x⟩, fun _ => trivial⟩
  | impossible => exact ⟨False.elim, fun h => lt_irrefl 0 h.2⟩
  | infinite => exact ⟨False.elim, And.left⟩
  | undefined => exact ⟨False.elim, And.left⟩

theorem mass_nonneg (w : ExactWeight) : 0 ≤ w.mass := by
  cases w with
  | finite x => exact (Real.exp_pos x).le
  | _ => exact le_refl 0

theorem Proper.eq_of_mass {v w : ExactWeight} (hv : v.Proper) (hw : w.Proper)
    (h : v.mass = w.mass) : v = w := by
  cases v with
  | impossible =>
    cases w with
    | impossible => rfl
    | finite y => exact absurd h (Real.exp_pos y).ne
    | _ => cases hw
  | finite x =>
    cases w with
    | impossible => exact absurd h (Real.exp_pos x).ne'
    | finite y => rw [Real.exp_injective h]
    | _ => cases hw
  | _ => cases hv

theorem Proper.eq_finite {w : ExactWeight} (h : w.Proper) (hm : 0 < w.mass) :
    w = finite (Real.log w.mass) :=
  h.eq_of_mass trivial (Real.exp_log hm).symm

-- ---------------------------------------------------------------------------
-- Arithmetic
-- ---------------------------------------------------------------------------

theorem Proper.add {v w : ExactWeight} (hv : v.Proper) (hw : w.Proper) : (v + w).Proper := by
  change (ExactWeight.add v w).Proper
  cases v with
  | impossible => cases w with
    | impossible | finite y => trivial
    | _ => cases hw
  | finite x => cases w with
    | impossible | finite y => trivial
    | _ => cases hw
  | _ => cases hv

theorem mass_add {v w : ExactWeight} (hv : v.Proper) (hw : w.Proper) :
    (v + w).mass = v.mass * w.mass := by
  change (ExactWeight.add v w).mass = _
  cases v with
  | impossible => cases w with
    | impossible | finite y => exact (zero_mul _).symm
    | _ => cases hw
  | finite x => cases w with
    | impossible => exact (mul_zero _).symm
    | finite y => exact Real.exp_add x y
    | _ => cases hw
  | _ => cases hv

theorem Finite.add {v w : ExactWeight} (hv : v.Finite) (hw : w.Finite) : (v + w).Finite := by
  refine finite_iff.2 ⟨hv.proper.add hw.proper, ?_⟩
  rw [mass_add hv.proper hw.proper]
  exact mul_pos (finite_iff.1 hv).2 (finite_iff.1 hw).2

theorem Proper.logAdd {v w : ExactWeight} (hv : v.Proper) (hw : w.Proper) :
    (LogAutomata.logAdd v w).Proper := by
  change (ExactWeight.logAdd v w).Proper
  cases v with
  | impossible => cases w with
    | impossible | finite y => trivial
    | _ => cases hw
  | finite x => cases w with
    | impossible | finite y => trivial
    | _ => cases hw
  | _ => cases hv

theorem mass_logAdd {v w : ExactWeight} (hv : v.Proper) (hw : w.Proper) :
    (LogAutomata.logAdd v w).mass = v.mass + w.mass := by
  change (ExactWeight.logAdd v w).mass = _
  cases v with
  | impossible => cases w with
    | impossible | finite y => exact (zero_add _).symm
    | _ => cases hw
  | finite x => cases w with
    | impossible => exact (add_zero _).symm
    | finite y => exact Real.exp_log (add_pos (Real.exp_pos x) (Real.exp_pos y))
    | _ => cases hw
  | _ => cases hv

theorem Proper.sub_finite {w : ExactWeight} (hw : w.Proper) (x : ℝ) : (w - finite x).Proper := by
  change (ExactWeight.add w (finite (-x))).Proper
  exact hw.add trivial

theorem mass_sub_finite {w : ExactWeight} (hw : w.Proper) (x : ℝ) :
    (w - finite x).mass = w.mass / Real.exp x := by
  have hx : (finite (-x)).Proper := trivial
  change (w + finite (-x)).mass = _
  rw [mass_add hw hx, mass_finite, Real.exp_neg, div_eq_mul_inv]

instance : DefinedSums ExactWeight where
  impossible := rfl
  logAdd v w hv hw := by
    cases v with
    | undefined => cases hv
    | _ => cases w with
      | undefined => cases hw
      | _ => rfl

-- ---------------------------------------------------------------------------
-- Log-sums
-- ---------------------------------------------------------------------------

theorem proper_logSum {ws : List ExactWeight} (h : ∀ w ∈ ws, w.Proper) : (logSum ws).Proper := by
  induction ws using List.reverseRecOn with
  | nil => trivial
  | append_singleton ws w ih =>
    rw [logSum_concat]
    exact (ih fun v hv => h v (by simp [hv])).logAdd (h w (by simp))

theorem mass_logSum {ws : List ExactWeight} (h : ∀ w ∈ ws, w.Proper) :
    (logSum ws).mass = (ws.map mass).sum := by
  induction ws using List.reverseRecOn with
  | nil => rfl
  | append_singleton ws w ih =>
    have hws : ∀ v ∈ ws, v.Proper := fun v hv => h v (by simp [hv])
    rw [logSum_concat, mass_logAdd (proper_logSum hws) (h w (by simp)), ih hws]
    simp

theorem mass_le_sum {ws : List ExactWeight} {w : ExactWeight} (h : w ∈ ws) :
    w.mass ≤ (ws.map mass).sum :=
  List.single_le_sum (by simp only [List.mem_map]; rintro _ ⟨v, -, rfl⟩; exact v.mass_nonneg) _
    (List.mem_map_of_mem h)

theorem sum_mass_pos {ws : List ExactWeight} {w : ExactWeight} (h : w ∈ ws) (hw : w.Finite) :
    0 < (ws.map mass).sum := lt_of_lt_of_le (finite_iff.1 hw).2 (mass_le_sum h)

theorem finite_logSum {ws : List ExactWeight} (h : ∀ w ∈ ws, w.Finite) (hne : ws ≠ []) :
    (logSum ws).Finite := by
  have proper : ∀ w ∈ ws, w.Proper := fun w hw => (h w hw).proper
  obtain ⟨w, hw⟩ := List.exists_mem_of_ne_nil ws hne
  refine finite_iff.2 ⟨proper_logSum proper, ?_⟩
  rw [mass_logSum proper]
  exact sum_mass_pos hw (h w hw)

theorem logSum_of_infinite {ws : List ExactWeight}
    (h : ∀ w ∈ ws, LogAutomata.isUndefined w = false) (hm : infinite ∈ ws) :
    logSum ws = infinite := by
  induction ws using List.reverseRecOn with
  | nil => cases hm
  | append_singleton ws w ih =>
    have hws : ∀ v ∈ ws, LogAutomata.isUndefined v = false := fun v hv => h v (by simp [hv])
    have hw := h w (by simp)
    rw [logSum_concat]
    change ExactWeight.logAdd (logSum ws) w = infinite
    rcases List.mem_append.1 hm with hm | hm
    · rw [ih hws hm]
      cases w with
      | undefined => cases hw
      | _ => rfl
    · obtain rfl := List.mem_singleton.1 hm
      have hd := logSum_defined hws
      cases hs : logSum ws with
      | undefined =>
        rw [hs] at hd
        cases hd
      | _ => rfl

-- ---------------------------------------------------------------------------
-- Normalization
-- ---------------------------------------------------------------------------

/-- What normalization takes off is always finite. -/
theorem normalizer_eq {ws : List ExactWeight} (h : ∀ w ∈ ws, w.Proper) :
    ∃ x, normalizer ws = finite x ∧ ((ws.map mass).sum ≠ 0 → Real.exp x = (ws.map mass).sum) := by
  have hp := proper_logSum h
  have hm := mass_logSum h
  unfold normalizer
  cases hs : logSum ws with
  | impossible =>
    rw [hs] at hm
    exact ⟨0, rfl, fun hne => absurd hm.symm hne⟩
  | finite x =>
    rw [hs] at hm
    exact ⟨x, rfl, fun _ => hm⟩
  | infinite => rw [hs] at hp; cases hp
  | undefined => rw [hs] at hp; cases hp

theorem proper_sub_normalizer {ws : List ExactWeight} (h : ∀ w ∈ ws, w.Proper) {w : ExactWeight}
    (hw : w ∈ ws) : (w - normalizer ws).Proper := by
  obtain ⟨x, hx, -⟩ := normalizer_eq h
  rw [hx]
  exact (h w hw).sub_finite x

/-- An infinite weight is the only one that normalization makes undefined. -/
theorem defined_sub_normalizer_iff {ws : List ExactWeight}
    (h : ∀ w ∈ ws, LogAutomata.isUndefined w = false) {w : ExactWeight} (hw : w ∈ ws) :
    LogAutomata.isUndefined (w - normalizer ws) = false ↔ w ≠ infinite := by
  by_cases hm : infinite ∈ ws
  · have total : normalizer ws = infinite := by
      rw [normalizer, logSum_of_infinite h hm]
      rfl
    rw [total]
    cases w with
    | impossible => exact iff_of_true rfl nofun
    | finite x => exact iff_of_true rfl nofun
    | infinite => exact iff_of_false nofun fun hne => hne rfl
    | undefined => cases h _ hw
  · have proper : ∀ v ∈ ws, v.Proper := fun v hv =>
      proper_iff.2 ⟨h v hv, fun he => hm (he ▸ hv)⟩
    exact iff_of_true (proper_sub_normalizer proper hw).defined (proper_iff.1 (proper w hw)).2

theorem mass_sub_normalizer {ws : List ExactWeight} (h : ∀ w ∈ ws, w.Proper) {w : ExactWeight}
    (hw : w ∈ ws) : (w - normalizer ws).mass = w.mass / (ws.map mass).sum := by
  obtain ⟨x, hx, he⟩ := normalizer_eq h
  rw [hx, mass_sub_finite (h w hw)]
  by_cases hs : (ws.map mass).sum = 0
  · have : w.mass = 0 := le_antisymm (hs ▸ mass_le_sum hw) w.mass_nonneg
    rw [this, zero_div, zero_div]
  · rw [he hs]

theorem sum_mass_normalized {ws : List ExactWeight} (h : ∀ w ∈ ws, w.Proper) :
    ((ws.map (· - normalizer ws)).map mass).sum = (ws.map mass).sum / (ws.map mass).sum := by
  rw [List.map_map, div_eq_mul_inv, ← List.sum_map_mul_right]
  refine congrArg List.sum (List.map_congr_left fun w hw => ?_)
  rw [← div_eq_mul_inv]
  exact mass_sub_normalizer h hw

end LogAutomata.ExactWeight
