/-!
# Ledgers

Values under keys, in the order in which the keys first arrived. A later
entry under a known key changes the value and keeps the place.
-/

namespace LogAutomata

abbrev Ledger (κ α : Type) := Array (κ × α)

namespace Ledger

variable {κ α : Type} [DecidableEq κ]

def keys (l : Ledger κ α) : List κ := l.toList.map Prod.fst

@[specialize]
def get? (l : Ledger κ α) (key : κ) : Option α := (l.find? (·.1 = key)).map Prod.snd

@[specialize]
def alter (key : κ) (f : Option α → α) (l : Ledger κ α) : Ledger κ α :=
  match l.findIdx? (·.1 = key) with
  | some i => l.modify i fun (k, v) => (k, f (some v))
  | none => l.push (key, f none)

def alterEntries (key : κ) (f : Option α → α) : List (κ × α) → List (κ × α)
  | [] => [(key, f none)]
  | (k, v) :: rest =>
    if k = key then (k, f (some v)) :: rest else (k, v) :: alterEntries key f rest

theorem toList_alter (key : κ) (f : Option α → α) (l : Ledger κ α) :
    (alter key f l).toList = alterEntries key f l.toList := by
  obtain ⟨es⟩ := l
  have h : (alter key f ⟨es⟩).toList =
      match es.findIdx? (·.1 = key) with
      | some i => es.modify i fun (k, v) => (k, f (some v))
      | none => es ++ [(key, f none)] := by
    unfold alter
    rw [List.findIdx?_toArray]
    split <;> simp
  rw [h]
  clear h
  induction es with
  | nil => rfl
  | cons e rest ih =>
    obtain ⟨k, v⟩ := e
    by_cases hk : k = key
    · simp [alterEntries, List.findIdx?_cons, hk]
    · rw [alterEntries, if_neg hk, ← ih]
      simp only [List.findIdx?_cons, hk, decide_false]
      cases rest.findIdx? (·.1 = key) <;> simp

theorem get?_eq_find? (l : Ledger κ α) (key : κ) :
    get? l key = (l.toList.find? (·.1 = key)).map Prod.snd := by
  simp [get?]

@[simp]
theorem get?_empty (key : κ) : get? (#[] : Ledger κ α) key = none := rfl

/-- An entry at the end counts if there is none under its key. -/
theorem get?_push (l : Ledger κ α) (key other : κ) (v : α) :
    get? (l.push (key, v)) other = (get? l other).or (if key = other then some v else none) := by
  rw [get?_eq_find?, get?_eq_find?, Array.toList_push, List.find?_append, Option.map_or]
  by_cases h : key = other <;> simp [h]

@[simp]
theorem get?_alter_self (l : Ledger κ α) (key : κ) (f : Option α → α) :
    get? (alter key f l) key = some (f (get? l key)) := by
  rw [get?_eq_find?, get?_eq_find?, toList_alter]
  induction l.toList with
  | nil => simp [alterEntries]
  | cons e rest ih => by_cases h : e.1 = key <;> simp [alterEntries, h, ih]

theorem get?_alter_of_ne {key other : κ} (l : Ledger κ α) (f : Option α → α)
    (h : key ≠ other) : get? (alter key f l) other = get? l other := by
  rw [get?_eq_find?, get?_eq_find?, toList_alter]
  induction l.toList with
  | nil => simp [alterEntries, h]
  | cons e rest ih =>
    by_cases he : e.1 = key
    · simp [alterEntries, he, h]
    · by_cases ho : e.1 = other <;> simp [alterEntries, he, ho, ih, Ne.symm h]

theorem keys_alter (l : Ledger κ α) (key : κ) (f : Option α → α) :
    keys (alter key f l) = if key ∈ keys l then keys l else keys l ++ [key] := by
  unfold keys
  rw [toList_alter]
  induction l.toList with
  | nil => simp [alterEntries]
  | cons e rest ih =>
    by_cases he : e.1 = key
    · simp [alterEntries, he]
    · have hne : key ≠ e.1 := fun h => he h.symm
      by_cases hm : key ∈ rest.map Prod.fst <;> simp_all [alterEntries]

theorem nodup_keys_alter {l : Ledger κ α} (key : κ) (f : Option α → α)
    (h : (keys l).Nodup) : (keys (alter key f l)).Nodup := by
  rw [keys_alter]
  split
  · exact h
  · next hk =>
    refine List.nodup_append.2 ⟨h, by simp, fun k hk' j hj => ?_⟩
    rw [List.mem_singleton.1 hj]
    rintro rfl
    exact hk hk'

end Ledger

end LogAutomata
