/-!
# Labels, symbols and profiles

What a state shows of itself: an optional label, an optional emission index
and an optional id. Labels are compared by kind and content, so the number `1` and the
text `"1"` differ, and so do an empty tuple and a missing label.
-/

namespace LogAutomata

/-- The name of the unit that a state stands for. A tuple may have gaps. -/
inductive Label
  | text (content : String)
  | number (value : Int)
  | tuple (parts : List (Option Label))

mutual
def Label.same : Label → Label → Bool
  | .text s, .text t => s == t
  | .number m, .number n => m == n
  | .tuple ps, .tuple qs => Label.sameParts ps qs
  | _, _ => false
def Label.sameParts : List (Option Label) → List (Option Label) → Bool
  | [], [] => true
  | none :: ps, none :: qs => Label.sameParts ps qs
  | some p :: ps, some q :: qs => Label.same p q && Label.sameParts ps qs
  | _, _ => false
end

mutual
theorem Label.same_iff : ∀ {p q : Label}, p.same q = true ↔ p = q
  | .text _, .text _ | .number _, .number _ => by simp [Label.same]
  | .tuple ps, .tuple qs => by simp [Label.same, @Label.sameParts_iff ps]
  | .text _, .number _ | .text _, .tuple _ | .number _, .text _
  | .number _, .tuple _ | .tuple _, .text _ | .tuple _, .number _ => by simp [Label.same]
theorem Label.sameParts_iff :
    ∀ {ps qs : List (Option Label)}, Label.sameParts ps qs = true ↔ ps = qs
  | [], [] => by simp [Label.sameParts]
  | none :: ps, none :: _ => by simp [Label.sameParts, @Label.sameParts_iff ps]
  | some p :: ps, some _ :: _ => by
    simp [Label.sameParts, @Label.same_iff p, @Label.sameParts_iff ps]
  | [], _ :: _ | _ :: _, [] | none :: _, some _ :: _ | some _ :: _, none :: _ => by
    simp [Label.sameParts]
end

instance : DecidableEq Label := fun p q => decidable_of_iff (p.same q = true) Label.same_iff

/-- What entering a state adds to a sequence. The emission index points into a
table of emission probabilities that is kept elsewhere; `0` is a real index. -/
structure Symbol where
  emission : Option Int := none
  label : Option Label := none
  deriving DecidableEq

def Symbol.nil : Symbol := {}

def Symbol.isEmitting (s : Symbol) : Bool := s.emission.isSome
def Symbol.isLabeled (s : Symbol) : Bool := s.label.isSome
def Symbol.isNil (s : Symbol) : Bool := !(s.isEmitting || s.isLabeled)

/-- What can be told of a state without its links. The id is the caller's own
numbering: it may be any integer and may repeat. Every state of an automaton has
one; a state that belongs to none may go without. -/
structure Profile where
  id : Option Int := none
  symbol : Symbol := .nil
  deriving DecidableEq

end LogAutomata
