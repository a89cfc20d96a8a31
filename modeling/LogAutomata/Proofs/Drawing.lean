import LogAutomata.Automaton.Built
import LogAutomata.Proofs.Quotation

/-!
# Drawings that can be read

Each statement of a drawing stands on a line, and of its texts only the label says more than a
plain name. Sentinels and links have plain labels too. A state shows its id, its label and its
emission index, so its caption ends with the text of a label only if the state does not emit. If
that text ends in an odd number of backslashes, the quotes stay open; nothing else can go wrong.
-/

namespace LogAutomata

open Dot (Quiet)

-- ---------------------------------------------------------------------------
-- Numbers
-- ---------------------------------------------------------------------------

theorem quiet_digits {s : List Char} (h : ∀ c ∈ s, c.isDigit = true) : Quiet s :=
  Dot.quiet_of_forall Char.isDigit rfl rfl rfl h

theorem quiet_toDigits (n : Nat) : Quiet (Nat.toDigits 10 n) :=
  quiet_digits fun _ hc => Nat.isDigit_of_mem_toDigits (by decide) (by decide) hc

theorem quiet_zeros (n : Nat) : Quiet (List.replicate n '0') :=
  quiet_digits fun _ hc => by rw [List.eq_of_mem_replicate hc]; rfl

theorem quiet_nat (n : Nat) : Quiet (toString n).toList := by
  rw [Nat.toString_eq_ofList_toDigits, String.toList_ofList]
  exact quiet_toDigits n

theorem quiet_int (n : Int) : Quiet (toString n).toList := by
  have minus : Quiet "-".toList := by decide
  rw [Int.toString_eq_repr, Int.repr_eq_if]
  split
  · exact quiet_nat n.toNat
  · rw [String.toList_append]
    exact minus.append (quiet_nat _)

theorem Decimal.quiet_positional (d : Decimal) :
    Quiet d.positional.1 ∧ Quiet d.positional.2 := by
  have digits := quiet_toDigits d.digits
  rw [Decimal.positional]
  split
  · exact ⟨digits.append (quiet_zeros _), fun _ hc => absurd hc List.not_mem_nil⟩
  · have padded := (quiet_zeros ((-d.power).toNat + 1 - (Nat.toDigits 10 d.digits).length)).append
      digits
    simp only [List.splitAt_eq]
    exact ⟨fun c hc => padded c (List.mem_of_mem_take hc),
      fun c hc => padded c (List.mem_of_mem_drop hc)⟩

theorem quiet_signed (negative : Bool) {body : List Char} (h : Quiet body) :
    Quiet (Text.signed negative body).toList := by
  have minus : Quiet ['-'] := by decide
  rw [Text.signed, String.toList_ofList]
  cases negative with
  | true => exact minus.append h
  | false => exact h

theorem quiet_fixed (places : Nat) (x : Double) : Quiet (Text.fixed places x).toList := by
  have point : Quiet ['.'] := by decide
  have nan : Quiet Text.undefined.toList := by decide
  cases x with
  | undefined => exact nan
  | infinite negative => exact quiet_signed negative (by decide)
  | finite negative m q =>
    obtain ⟨whole, rest⟩ := (Decimal.fixed places m q).quiet_positional
    refine quiet_signed _ ?_
    split
    · exact whole
    · exact whole.append (point.append rest)

theorem quiet_trimPlaces {text : String} (h : Quiet text.toList) :
    Quiet (Automaton.trimPlaces text).toList := by
  rw [Automaton.trimPlaces]
  split
  · rw [String.toList_ofList]
    intro c hc
    have kept := (List.dropWhile_suffix _).subset (List.mem_reverse.1 hc)
    exact h c (List.mem_reverse.1 ((List.dropWhile_suffix _).subset kept))
  · exact h

-- ---------------------------------------------------------------------------
-- Captions
-- ---------------------------------------------------------------------------

def EndsRagged (text : String) : Prop :=
  (text.toList.reverse.takeWhile (· == '\\')).length % 2 = 1

theorem endsOdd_iff_endsRagged {text : String} :
    Dot.endsOdd false text.toList = true ↔ EndsRagged text := Dot.endsOdd_iff text.toList

theorem endsRagged_append {sep : String} {c : Char} (hsep : sep.toList = [c]) (hc : c ≠ '\\')
    (s t : String) : EndsRagged (s ++ (sep ++ t)) ↔ EndsRagged t := by
  rw [← endsOdd_iff_endsRagged, ← endsOdd_iff_endsRagged, String.toList_append,
    String.toList_append, hsep, Dot.endsOdd_append, List.singleton_append, Dot.endsOdd,
    beq_false_of_ne hc, Bool.false_and]

theorem not_endsRagged_of_quiet {s : String} (h : Quiet s.toList) : ¬EndsRagged s := by
  rw [← endsOdd_iff_endsRagged, h.endsOdd_eq_false]
  simp

theorem exists_quoted_tuple (ps : List (Option Label)) :
    ∃ front, (Label.tuple ps).quoted.toList = front ++ [')'] := by
  have close : ")".toList = [')'] := by decide
  have single : ",)".toList = [','] ++ [')'] := by decide
  rcases ps with _ | ⟨p, _ | ⟨q, ps⟩⟩
  · exact ⟨['('], by decide⟩
  · rw [Label.quoted, String.toList_append, single, ← List.append_assoc]
    exact ⟨_, rfl⟩
  · have several : (Label.tuple (p :: q :: ps)).quoted =
        "(" ++ ", ".intercalate (Label.quotedParts (p :: q :: ps)) ++ ")" := by
      simp [Label.quoted]
    rw [several, String.toList_append, close]
    exact ⟨_, rfl⟩

theorem endsRagged_plain_iff (label : Label) :
    EndsRagged label.plain ↔ ∃ t, label = .text t ∧ EndsRagged t := by
  cases label with
  | text t => simp [Label.plain]
  | number n =>
    refine iff_of_false (not_endsRagged_of_quiet (quiet_int n)) ?_
    rintro ⟨t, ht, -⟩
    cases ht
  | tuple ps =>
    obtain ⟨front, he⟩ := exists_quoted_tuple ps
    refine iff_of_false ?_ ?_
    · have plain : (Label.tuple ps).plain = (Label.tuple ps).quoted := rfl
      rw [← endsOdd_iff_endsRagged, plain, he, Dot.endsOdd_concat]
      simp
    · rintro ⟨t, ht, -⟩
      cases ht

def State.Ragged {W : Type} (s : State W) : Prop :=
  s.symbol.emission = none ∧ ∃ t, s.symbol.label = some (.text t) ∧ EndsRagged t

theorem endsRagged_caption_iff {W : Type} (s : State W) :
    EndsRagged (Automaton.caption s) ↔ s.Ragged := by
  have colon : ":".toList = [':'] := by decide
  have slash : "/".toList = ['/'] := by decide
  rw [Automaton.caption, State.Ragged]
  cases s.symbol.emission with
  | some emission =>
    refine iff_of_false ?_ fun h => ?_
    · rw [Option.map_some, Option.getD_some, endsRagged_append slash (by decide)]
      exact not_endsRagged_of_quiet (quiet_int emission)
    · cases h.1
  | none =>
    rw [Option.map_none, Option.getD_none, String.append_empty, and_iff_right rfl]
    cases s.symbol.label with
    | none =>
      rw [Option.map_none, Option.getD_none, String.append_empty]
      refine iff_of_false (not_endsRagged_of_quiet (quiet_int s.id)) ?_
      rintro ⟨t, ht, -⟩
      cases ht
    | some label =>
      rw [Option.map_some, Option.getD_some, endsRagged_append colon (by decide),
        endsRagged_plain_iff]
      simp only [Option.some.injEq]

-- ---------------------------------------------------------------------------
-- Statements
-- ---------------------------------------------------------------------------

namespace Dot

def Statement.label : Statement → String
  | .node _ label _ _ => label
  | .edge _ _ label => label

def Statement.line (s : Statement) : List Char := '\t' :: s.render.toList

/-- No line feed cuts the line of the statement, and it is the label alone that decides if the
reader gets out of quotes. -/
def Statement.Readable (s : Statement) : Prop := Unbroken .outside s.line ∧
  (Position.outside.after s.line = .outside ↔ Closes s.label.toList)

theorem readable_of_framed {s : Statement} {pre post : List Char} (hpre : Quiet pre)
    (hpost : Quiet post) (he : s.line = pre ++ identifier s.label.toList ++ post) :
    s.Readable := by
  rw [Statement.Readable, he]
  exact read_framed hpre hpost _

theorem readable_edge (src dest : Int) (label : String) :
    (Statement.edge src dest label).Readable := by
  have tab : Quiet ['\t'] := by decide
  have arrow : Quiet " -> ".toList := by decide
  have bracket : Quiet (" [" ++ "label" ++ "=").toList := by decide
  have post : Quiet "]".toList := by decide
  refine readable_of_framed (tab.append ((((quiet_int src).append arrow).append
    (quiet_int dest)).append bracket)) post ?_
  simp [Statement.line, Statement.render, Statement.label, setting, String.toList_append,
    String.toList_ofList]

/-- Shape and style are plain names. -/
theorem readable_node (i : Int) (label : String) {shape style : String}
    (hshape : Quiet (identifier shape.toList)) (hstyle : Quiet (identifier style.toList)) :
    (Statement.node i label shape style).Readable := by
  have tab : Quiet ['\t'] := by decide
  have bracket : Quiet (" [" ++ "label" ++ "=").toList := by decide
  have shaped : Quiet (" " ++ "shape" ++ "=").toList := by decide
  have styled : Quiet (" " ++ "style" ++ "=").toList := by decide
  have post : Quiet "]".toList := by decide
  refine readable_of_framed (tab.append ((quiet_int i).append bracket))
    (shaped.append (hshape.append (styled.append (hstyle.append post)))) ?_
  simp [Statement.line, Statement.render, Statement.label, setting, String.toList_append,
    String.toList_ofList]

theorem readable_init : (Statement.node 0 "init" "circle" "filled, bold").Readable := by
  have after : Position.outside.after
      (Statement.node 0 "init" "circle" "filled, bold").line = .outside := by decide +kernel
  refine ⟨unbroken_of_not_mem (by decide +kernel), iff_of_true after ?_⟩
  exact (closes_iff _).2 (by decide)

end Dot

namespace Automaton

variable {W : Type}

theorem readable_nodeStatement (i : Nat) (s : State W) : (nodeStatement i s).Readable := by
  have circle : Quiet (Dot.identifier "circle".toList) := by decide +kernel
  have doubled : Quiet (Dot.identifier "doublecircle".toList) := by decide +kernel
  have filled : Quiet (Dot.identifier "filled".toList) := by decide +kernel
  rcases i with _ | _ | i
  · exact Dot.readable_init
  · exact Dot.readable_node 1 "final" doubled filled
  · exact Dot.readable_node _ _ circle filled

theorem closes_of_quiet {s : String} (h : Quiet s.toList) : Dot.Closes s.toList :=
  (Dot.closes_iff _).2 h.endsOdd_eq_false

theorem closes_nodeStatement_iff (i : Nat) (s : State W) :
    Dot.Closes (nodeStatement i s).label.toList ↔ i < 2 ∨ ¬s.Ragged := by
  have init : Quiet "init".toList := by decide
  have final : Quiet "final".toList := by decide
  rcases i with _ | _ | i
  · exact iff_of_true (closes_of_quiet init) (.inl Nat.two_pos)
  · exact iff_of_true (closes_of_quiet final) (.inl Nat.one_lt_two)
  · have interior : ¬i + 1 + 1 < 2 := by omega
    change Dot.Closes (caption s).toList ↔ _
    rw [or_iff_right interior, ← endsRagged_caption_iff, ← endsOdd_iff_endsRagged, Dot.closes_iff,
      Bool.not_eq_true]

theorem closes_edgeStatement (showWeights : Bool) (l : Link Float) :
    Dot.Closes (edgeStatement showWeights l).label.toList := by
  have blank : Quiet "".toList := by decide
  refine closes_of_quiet ?_
  cases showWeights with
  | true => exact quiet_trimPlaces (quiet_fixed 2 _)
  | false => exact blank

-- ---------------------------------------------------------------------------
-- Drawings
-- ---------------------------------------------------------------------------

def heading (margin : Option Nat) : List (List Char) :=
  ["digraph FSM \x7b".toList,
    ("\tgraph [" ++ (margin.map fun m => "margin=" ++ toString m ++ " ").getD "" ++
      "rankdir=LR]").toList,
    "\trankdir=LR size=\"8,5\"".toList]

/-- The lines of a drawing: after the heading one for each state and one for each link. -/
def drawnLines [WeightText W] (a : Automaton W) (margin : Option Nat) (showWeights : Bool) :
    List (List Char) :=
  heading margin ++ ((a.states.toList.mapIdx fun i s => (nodeStatement i s).line) ++
    ((a.links.map fun l => (edgeStatement showWeights l).line) ++ ["\x7d".toList]))

theorem draw_eq [WeightText W] (a : Automaton W) (margin : Option Nat) (showWeights : Bool) :
    (a.draw margin showWeights).toList =
      (a.drawnLines margin showWeights).flatMap (· ++ ['\n']) := by
  have first : "digraph FSM \x7b\n".toList = "digraph FSM \x7b".toList ++ ['\n'] := by decide
  have settings : "rankdir=LR]\n".toList = "rankdir=LR]".toList ++ ['\n'] := by decide
  have size : "\trankdir=LR size=\"8,5\"\n".toList =
      "\trankdir=LR size=\"8,5\"".toList ++ ['\n'] := by decide
  have last : "\x7d\n".toList = "\x7d".toList ++ ['\n'] := by decide
  have body : (String.join ((a.statements showWeights).map fun s =>
      "\t" ++ s.render ++ "\n")).toList =
      ((a.statements showWeights).map Dot.Statement.line).flatMap (· ++ ['\n']) := by
    rw [String.toList_join, List.flatMap_map, List.flatMap_map]
    congr 1
    funext s
    simp [Dot.Statement.line, String.toList_append]
  unfold draw drawnLines heading
  have split : (a.statements showWeights).map Dot.Statement.line =
      (a.states.toList.mapIdx fun i s => (nodeStatement i s).line) ++
        a.links.map fun l => (edgeStatement showWeights l).line := by
    simp [statements, List.mapIdx_eq_zipIdx_map, Function.comp_def]
  rw [split] at body
  generalize String.join ((a.statements showWeights).map fun s => "\t" ++ s.render ++ "\n") =
    joined at body ⊢
  simp only [String.toList_append, body, first, settings, size, last, List.flatMap_append,
    List.flatMap_cons, List.flatMap_nil, List.append_assoc, List.append_nil]

theorem read_heading (margin : Option Nat) : ∀ s ∈ heading margin,
    Dot.Unbroken .outside s ∧ Dot.Position.outside.after s = .outside := by
  have graph : Quiet "digraph FSM \x7b".toList := by decide
  have opened : Quiet "\tgraph [".toList := by decide
  have closed : Quiet "rankdir=LR]".toList := by decide
  have set : Quiet ((margin.map fun m => "margin=" ++ toString m ++ " ").getD "").toList := by
    have front : Quiet "margin=".toList := by decide
    have blank : Quiet " ".toList := by decide
    have none : Quiet "".toList := by decide
    cases margin with
    | none => exact none
    | some m =>
      rw [Option.map_some, Option.getD_some, String.toList_append, String.toList_append]
      exact (front.append (quiet_nat m)).append blank
  have settings : Quiet ("\tgraph [" ++ (margin.map fun m => "margin=" ++ toString m ++ " ").getD ""
      ++ "rankdir=LR]").toList := by
    rw [String.toList_append, String.toList_append]
    exact (opened.append set).append closed
  have size : '\n' ∉ "\trankdir=LR size=\"8,5\"".toList ∧
      Dot.Position.outside.after "\trankdir=LR size=\"8,5\"".toList = .outside := by decide
  intro s hs
  rcases List.mem_cons.1 hs with rfl | hs
  · exact ⟨graph.unbroken _, graph.after_outside⟩
  rcases List.mem_cons.1 hs with rfl | hs
  · exact ⟨settings.unbroken _, settings.after_outside⟩
  obtain rfl := List.mem_singleton.1 hs
  exact ⟨Dot.unbroken_of_not_mem size.1, size.2⟩

theorem read_drawnLines (a : Automaton Float) (margin : Option Nat) (showWeights : Bool)
    {line : List Char} (h : line ∈ a.drawnLines margin showWeights) :
    Dot.Unbroken .outside line ∧ (Dot.Position.outside.after line = .outside ∨
      ∃ s ∈ a.interior, s.Ragged) := by
  have last : Quiet "\x7d".toList := by decide
  rcases List.mem_append.1 h with h | h
  · exact (read_heading margin line h).imp_right .inl
  rcases List.mem_append.1 h with h | h
  · obtain ⟨i, hi, rfl⟩ := List.mem_mapIdx.1 h
    obtain ⟨unbroken, after⟩ := readable_nodeStatement i a.states.toList[i]
    refine ⟨unbroken, or_iff_not_imp_right.2 fun none => ?_⟩
    rw [after, closes_nodeStatement_iff]
    refine or_iff_not_imp_left.2 fun two => fun ragged => none ⟨_, ?_, ragged⟩
    exact List.mem_drop_iff_getElem.2 ⟨i - 2, by omega, by congr; omega⟩
  rcases List.mem_append.1 h with h | h
  · obtain ⟨l, -, rfl⟩ := List.mem_map.1 h
    obtain ⟨unbroken, after⟩ := Dot.readable_edge l.src.index l.dest.index _
    exact ⟨unbroken, .inl (after.2 (closes_edgeStatement showWeights l))⟩
  · obtain rfl := List.mem_singleton.1 h
    exact ⟨last.unbroken _, .inl last.after_outside⟩

theorem exists_drawnLine [WeightText W] {a : Automaton W} {s : State W} (hs : s ∈ a.interior)
    (margin : Option Nat) (showWeights : Bool) :
    ∃ i, ¬i < 2 ∧ (nodeStatement i s).line ∈ a.drawnLines margin showWeights := by
  obtain ⟨i, hi, rfl⟩ := List.mem_drop_iff_getElem.1 hs
  refine ⟨2 + i, by omega, List.mem_append_right _ (List.mem_append_left _ ?_)⟩
  exact List.mem_mapIdx.2 ⟨2 + i, by omega, by congr⟩

/-- The lines of a drawing are read back exactly if no caption of an interior state is ragged.
Only the quotes of such a caption do not end with it. -/
theorem lines_draw (a : Automaton Float) (margin : Option Nat) (showWeights : Bool) :
    (Dot.lines (a.draw margin showWeights).toList = some (a.drawnLines margin showWeights) ↔
      ∀ s ∈ a.interior, ¬s.Ragged) ∧
    (∀ i s, a.states[i]? = some s →
      (Dot.Closes (nodeStatement i s).label.toList ↔ i < 2 ∨ ¬s.Ragged)) ∧
    ∀ l ∈ a.links, Dot.Closes (edgeStatement showWeights l).label.toList := by
  refine ⟨?_, fun i s _ => closes_nodeStatement_iff i s,
    fun l _ => closes_edgeStatement showWeights l⟩
  have unbroken : ∀ line ∈ a.drawnLines margin showWeights, Dot.Unbroken .outside line :=
    fun line h => (read_drawnLines a margin showWeights h).1
  rw [draw_eq, Dot.lines_eq_some_iff unbroken]
  constructor
  · intro h s hs
    obtain ⟨i, hi, hline⟩ := exists_drawnLine hs margin showWeights
    have closes := (readable_nodeStatement i s).2.1 (h _ hline)
    exact ((closes_nodeStatement_iff i s).1 closes).resolve_left hi
  · intro h line hline
    refine (read_drawnLines a margin showWeights hline).2.resolve_right ?_
    rintro ⟨s, hs, ragged⟩
    exact h s hs ragged

def slanted : Automaton Float := empty.addState none ⟨none, some (.text "a\\")⟩

theorem lines_draw_slanted :
    slanted.Built ∧ Dot.lines (slanted.draw none true).toList = none := by
  refine ⟨.addState none _ .empty, ?_⟩
  rw [draw_eq]
  decide +kernel

end Automaton

end LogAutomata
