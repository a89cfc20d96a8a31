import LogAutomata.Automaton.Basic

/-!
# Isomorphism

Two automata are isomorphic if they differ only in ids, in the positions of
interior states and in the order of links.
-/

namespace LogAutomata.Automaton

variable {W : Type}

def arcsFrom (a : Automaton W) (i : Nat) : List (Nat × W) :=
  (a.linksFrom i).filterMap fun l => (a.position? l.dest).map fun j => (j, l.weight)

/-- A bijection of the positions of two automata that keeps the sentinels in
their places and keeps symbols. -/
structure Renaming (a b : Automaton W) where
  image : Nat → Nat
  back : Nat → Nat
  lt_size : ∀ i, i < a.size → image i < b.size
  back_lt_size : ∀ j, j < b.size → back j < a.size
  back_image : ∀ i, i < a.size → back (image i) = i
  image_back : ∀ j, j < b.size → image (back j) = j
  init : image 0 = 0
  final : image 1 = 1
  symbolAt : ∀ i, i < a.size → b.symbolAt (image i) = a.symbolAt i

/-- The renaming keeps the weighted links, as many as there are. -/
def Renaming.KeepsArcs {a b : Automaton W} (r : Renaming a b) : Prop :=
  ∀ i, i < a.size → ((a.arcsFrom i).map fun e => (r.image e.1, e.2)).Perm (b.arcsFrom (r.image i))

def Renaming.KeepsLinks {a b : Automaton W} (r : Renaming a b) : Prop :=
  ∀ i, i < a.size →
    ((a.arcsFrom i).map fun e => r.image e.1).Perm ((b.arcsFrom (r.image i)).map Prod.fst)

def Isomorphic (a b : Automaton W) : Prop := ∃ r : Renaming a b, r.KeepsArcs

def SameShape (a b : Automaton W) : Prop := ∃ r : Renaming a b, r.KeepsLinks

end LogAutomata.Automaton
