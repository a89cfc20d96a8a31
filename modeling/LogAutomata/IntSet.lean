/-!
# Finite sets of integers

A set is the strictly ascending list of its members, so two sets with the same
members are equal.
-/

namespace LogAutomata

structure IntSet where
  toList : List Int
  ascending : toList.Pairwise (· < ·) := by simp
  deriving DecidableEq

namespace IntSet

instance : Membership Int IntSet := ⟨fun s x => x ∈ s.toList⟩

theorem mem_def {x : Int} {s : IntSet} : x ∈ s ↔ x ∈ s.toList := Iff.rfl

instance (x : Int) (s : IntSet) : Decidable (x ∈ s) := decidable_of_iff _ mem_def.symm

def empty : IntSet := { toList := [] }

def place (x : Int) : List Int → List Int
  | [] => [x]
  | y :: ys => if x < y then x :: y :: ys else if x = y then y :: ys else y :: place x ys

theorem mem_place {x y : Int} {ys : List Int} : y ∈ place x ys ↔ y = x ∨ y ∈ ys := by
  induction ys with
  | nil => simp [place]
  | cons z zs ih => grind [place]

theorem ascending_place {x : Int} {ys : List Int} (h : ys.Pairwise (· < ·)) :
    (place x ys).Pairwise (· < ·) := by
  induction ys with
  | nil => simp [place]
  | cons z zs ih =>
    have hz := List.pairwise_cons.1 h
    have ih := ih hz.2
    simp only [place]
    split
    · next hx => exact List.pairwise_cons.2 ⟨by grind, h⟩
    · split
      · exact h
      · refine List.pairwise_cons.2 ⟨fun w hw => ?_, ih⟩
        rcases mem_place.1 hw with rfl | hw
        · omega
        · exact hz.1 w hw

def insert (s : IntSet) (x : Int) : IntSet := ⟨place x s.toList, ascending_place s.ascending⟩

def ofList (xs : List Int) : IntSet := xs.foldl insert empty

@[simp]
theorem mem_insert {s : IntSet} {x y : Int} : y ∈ s.insert x ↔ y = x ∨ y ∈ s := mem_place

theorem mem_foldl_insert {xs : List Int} {s : IntSet} {y : Int} :
    y ∈ xs.foldl insert s ↔ y ∈ s ∨ y ∈ xs := by
  induction xs generalizing s with
  | nil => simp
  | cons x xs ih => simp only [List.foldl_cons, ih, mem_insert, List.mem_cons]; grind

@[simp]
theorem mem_ofList {xs : List Int} {y : Int} : y ∈ ofList xs ↔ y ∈ xs := by
  rw [ofList, mem_foldl_insert]
  simp [mem_def, empty]

theorem eq_of_ascending {xs ys : List Int} (hx : xs.Pairwise (· < ·))
    (hy : ys.Pairwise (· < ·)) (h : ∀ x, x ∈ xs ↔ x ∈ ys) : xs = ys := by
  induction xs generalizing ys with
  | nil => exact (List.eq_nil_iff_forall_not_mem.2 fun y hy => List.not_mem_nil ((h y).2 hy)).symm
  | cons x xs ih =>
    cases ys with
    | nil => exact absurd ((h x).1 List.mem_cons_self) List.not_mem_nil
    | cons y ys =>
      have hx := List.pairwise_cons.1 hx
      have hy := List.pairwise_cons.1 hy
      obtain rfl : x = y := by
        have h1 := (h x).1 (by simp)
        have h2 := (h y).2 (by simp)
        rcases List.mem_cons.1 h1 with h1 | h1
        · exact h1
        · rcases List.mem_cons.1 h2 with h2 | h2
          · exact h2.symm
          · have := hy.1 x h1
            have := hx.1 y h2
            omega
      congr 1
      refine ih hx.2 hy.2 fun z => ⟨fun hz => ?_, fun hz => ?_⟩
      · rcases List.mem_cons.1 ((h z).1 (List.mem_cons_of_mem _ hz)) with rfl | hz'
        · exact absurd (hx.1 z hz) (Int.lt_irrefl z)
        · exact hz'
      · rcases List.mem_cons.1 ((h z).2 (List.mem_cons_of_mem _ hz)) with rfl | hz'
        · exact absurd (hy.1 z hz) (Int.lt_irrefl z)
        · exact hz'

theorem ext {s t : IntSet} (h : ∀ x, x ∈ s ↔ x ∈ t) : s = t := by
  obtain ⟨xs, hx⟩ := s
  obtain ⟨ys, hy⟩ := t
  obtain rfl : xs = ys := eq_of_ascending hx hy h
  rfl

theorem ofList_eq_ofList_iff {xs ys : List Int} :
    ofList xs = ofList ys ↔ ∀ x, x ∈ xs ↔ x ∈ ys := by
  refine ⟨fun h x => ?_, fun h => ext fun x => by simpa using h x⟩
  rw [← mem_ofList, h, mem_ofList]

end IntSet

end LogAutomata
