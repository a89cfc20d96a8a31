import LogAutomata.Text.Lines
import Mathlib.Data.List.Induction
import Mathlib.Data.List.TakeWhile

/-!
# Quoted texts

A text is quoted by escaping its quotes. A reader of what comes out stands inside quotes all
the way, so the quote that is put behind it ends it, unless an odd number of backslashes comes
right before: then the reader takes this quote for an escaped one and goes on.
-/

namespace LogAutomata.Dot

-- ---------------------------------------------------------------------------
-- Backslashes at the end
-- ---------------------------------------------------------------------------

/-- Whether an odd number of backslashes ends a text. `odd` tells of the ones before it. -/
def endsOdd : Bool → List Char → Bool
  | odd, [] => odd
  | odd, c :: cs => endsOdd (c == '\\' && !odd) cs

theorem endsOdd_append (odd : Bool) (s t : List Char) :
    endsOdd odd (s ++ t) = endsOdd (endsOdd odd s) t := by
  induction s generalizing odd with
  | nil => rfl
  | cons c s ih => exact ih _

theorem endsOdd_concat (odd : Bool) (s : List Char) (c : Char) :
    endsOdd odd (s ++ [c]) = (c == '\\' && !endsOdd odd s) := endsOdd_append odd s [c]

/-- The backslashes at the end are those that come first from behind. -/
theorem endsOdd_iff (s : List Char) :
    endsOdd false s = true ↔ (s.reverse.takeWhile (· == '\\')).length % 2 = 1 := by
  induction s using List.reverseRecOn with
  | nil => simp [endsOdd]
  | append_singleton s c ih =>
    rw [endsOdd_concat, List.reverse_concat]
    by_cases hc : c = '\\'
    · subst hc
      have flip : endsOdd false s = false ↔ (s.reverse.takeWhile (· == '\\')).length % 2 = 0 := by
        rw [← Bool.not_eq_true, ih]
        omega
      simp only [BEq.rfl, Bool.true_and, Bool.not_eq_true', flip, List.takeWhile_cons, if_true,
        List.length_cons]
      omega
    · simp [hc]

theorem mem_of_endsOdd {s : List Char} (h : endsOdd false s = true) : '\\' ∈ s := by
  induction s using List.reverseRecOn with
  | nil => cases h
  | append_singleton s c =>
    rw [endsOdd_concat, Bool.and_eq_true, beq_iff_eq] at h
    rw [h.1]
    exact List.mem_append_right _ List.mem_cons_self

-- ---------------------------------------------------------------------------
-- Reading
-- ---------------------------------------------------------------------------

def Unbroken : Position → List Char → Prop
  | _, [] => True
  | p, c :: cs => ¬(p = .outside ∧ c = '\n') ∧ Unbroken (p.next c) cs

theorem unbroken_append {p : Position} {s t : List Char} :
    Unbroken p (s ++ t) ↔ Unbroken p s ∧ Unbroken (p.after s) t := by
  induction s generalizing p with
  | nil => exact (and_iff_right trivial).symm
  | cons c s ih => exact (and_congr_right fun _ => ih).trans and_assoc.symm

theorem unbroken_of_not_mem {p : Position} {s : List Char} (h : '\n' ∉ s) : Unbroken p s := by
  induction s generalizing p with
  | nil => trivial
  | cons c s ih =>
    obtain ⟨hc, hs⟩ := not_or.1 (mt List.mem_cons.2 h)
    exact ⟨fun hn => hc hn.2.symm, ih hs⟩

theorem after_append (p : Position) (s t : List Char) :
    p.after (s ++ t) = (p.after s).after t := List.foldl_append

/-- The reader stands inside quotes at every character of the text. -/
def Inside : Position → List Char → Prop
  | _, [] => True
  | p, c :: cs => p ≠ .outside ∧ Inside (p.next c) cs

theorem Inside.unbroken {p : Position} {s : List Char} (h : Inside p s) : Unbroken p s := by
  induction s generalizing p with
  | nil => trivial
  | cons c s ih => exact ⟨fun hn => h.1 hn.1, ih h.2⟩

theorem linesFrom_append {p : Position} {s : List Char} (h : Unbroken p s) (line rest : List Char) :
    linesFrom p line (s ++ rest) = linesFrom (p.after s) (line ++ s) rest := by
  induction s generalizing p line with
  | nil => rw [List.nil_append, List.append_nil]; rfl
  | cons c s ih =>
    rw [List.cons_append, linesFrom, if_neg h.1, ih h.2, List.append_assoc, List.singleton_append]
    rfl

theorem prefix_of_linesFrom {p : Position} {line cs l : List Char} {ls : List (List Char)}
    (h : linesFrom p line cs = some (l :: ls)) : line <+: l := by
  fun_induction linesFrom p line cs with
  | case1 => cases h
  | case2 => cases h
  | case3 p line c cs cut =>
    obtain ⟨rest, -, he⟩ := Option.map_eq_some_iff.1 h
    obtain ⟨rfl, -⟩ := List.cons.inj he
    exact List.prefix_refl line
  | case4 p line c cs cut ih => exact (List.prefix_append line [c]).trans (ih h)

/-- Texts that are not broken are read back as lines if the reader is outside quotes at the end
of each. -/
theorem lines_eq_some_iff {ss : List (List Char)} (h : ∀ s ∈ ss, Unbroken .outside s) :
    lines (ss.flatMap (· ++ ['\n'])) = some ss ↔
      ∀ s ∈ ss, Position.outside.after s = .outside := by
  induction ss with
  | nil => simp [lines, linesFrom]
  | cons s ss ih =>
    obtain ⟨hs, hss⟩ := List.forall_mem_cons.1 h
    rw [List.forall_mem_cons, ← ih hss, lines, List.flatMap_cons, List.append_assoc,
      linesFrom_append hs, List.nil_append, List.singleton_append, linesFrom]
    split
    · next free => simp [lines, free.1]
    · next stuck =>
      have inside : Position.outside.after s ≠ .outside := fun he => stuck ⟨he, rfl⟩
      refine iff_of_false (fun he => ?_) fun he => inside he.1
      have longer := (prefix_of_linesFrom he).length_le
      rw [List.length_append] at longer
      exact Nat.not_succ_le_self _ longer

/-- A line feed inside quotes cuts nothing. -/
example : lines "a \"b\nc\"\nd\n".toList = some ["a \"b\nc\"".toList, "d".toList] := by decide

-- ---------------------------------------------------------------------------
-- Escaped texts
-- ---------------------------------------------------------------------------

theorem next_backslash (odd : Bool) : (Position.inside odd).next '\\' = .inside (!odd) := by
  cases odd <;> rfl

theorem next_of_ne {odd : Bool} {c : Char} (hc : c ≠ '\\') (hq : ¬(c = '"' ∧ odd = false)) :
    (Position.inside odd).next c = .inside false := by
  cases odd with
  | true => rfl
  | false =>
    rw [Position.next, if_neg fun he => hq ⟨he, rfl⟩]
    simp [hc]

/-- The reader stays inside quotes, and at the end after an odd number of backslashes or not. -/
theorem read_escapeQuotes (odd : Bool) (s : List Char) :
    Inside (.inside odd) (escapeQuotes odd s) ∧
      (Position.inside odd).after (escapeQuotes odd s) = .inside (endsOdd odd s) := by
  fun_induction escapeQuotes odd s with
  | case1 odd => exact ⟨trivial, rfl⟩
  | case2 odd cs ih =>
    rw [Inside, Position.after, List.foldl_cons, next_backslash]
    exact ⟨⟨by simp, ih.1⟩, ih.2⟩
  | case3 odd c cs hc hq ih =>
    obtain ⟨rfl, hodd⟩ := hq
    obtain rfl : odd = false := by simpa using hodd
    exact ⟨⟨by simp, by simp [Position.next], ih.1⟩, ih.2⟩
  | case4 odd c cs hc hq ih =>
    have next : (Position.inside odd).next c = .inside false := next_of_ne hc (by simpa using hq)
    rw [Inside, Position.after, List.foldl_cons, next, endsOdd, beq_false_of_ne hc]
    exact ⟨⟨by simp, ih.1⟩, ih.2⟩

-- ---------------------------------------------------------------------------
-- Plain texts
-- ---------------------------------------------------------------------------

/-- Nothing in the text concerns the reader. -/
def Quiet (s : List Char) : Prop := ∀ c ∈ s, c ≠ '"' ∧ c ≠ '\\' ∧ c ≠ '\n'

instance (s : List Char) : Decidable (Quiet s) := List.decidableBAll _ s

theorem quiet_of_forall {s : List Char} (f : Char → Bool) (quote : f '"' = false)
    (backslash : f '\\' = false) (feed : f '\n' = false) (h : ∀ c ∈ s, f c = true) : Quiet s := by
  intro c hc
  have := h c hc
  refine ⟨?_, ?_, ?_⟩ <;> rintro rfl <;> simp_all

namespace Quiet

variable {s t : List Char}

theorem append (hs : Quiet s) (ht : Quiet t) : Quiet (s ++ t) :=
  fun c hc => (List.mem_append.1 hc).elim (hs c) (ht c)

theorem unbroken (h : Quiet s) (p : Position) : Unbroken p s :=
  unbroken_of_not_mem fun hn => (h _ hn).2.2 rfl

theorem endsOdd_eq_false (h : Quiet s) : endsOdd false s = false := by
  rw [← Bool.not_eq_true]
  exact fun ho => (h _ (mem_of_endsOdd ho)).2.1 rfl

theorem after_outside (h : Quiet s) : Position.outside.after s = .outside := by
  induction s with
  | nil => rfl
  | cons c s ih =>
    obtain ⟨hc, hs⟩ := List.forall_mem_cons.1 h
    rw [Position.after, List.foldl_cons, Position.next, if_neg hc.1]
    exact ih hs

theorem after_inside (h : Quiet s) : (Position.inside false).after s = .inside false := by
  induction s with
  | nil => rfl
  | cons c s ih =>
    obtain ⟨hc, hs⟩ := List.forall_mem_cons.1 h
    rw [Position.after, List.foldl_cons, next_of_ne hc.2.1 fun he => hc.1 he.1]
    exact ih hs

end Quiet

theorem quiet_of_isName {s : List Char} (h : isName s = true) : Quiet s := by
  refine quiet_of_forall (fun c => isLetter c || c.isDigit) rfl rfl rfl fun c hc => ?_
  cases s with
  | nil => cases hc
  | cons d s =>
    rw [isName, Bool.and_eq_true, List.all_eq_true] at h
    rcases List.mem_cons.1 hc with rfl | hc
    · simp [h.1]
    · exact h.2 c hc

theorem quiet_of_isNumeral {s : List Char} (h : isNumeral s = true) : Quiet s := by
  refine quiet_of_forall (fun c => c == '-' || c == '.' || c.isDigit) rfl rfl rfl fun c hc => ?_
  have sign : c = '-' ∨ c ∈ if s.head? = some '-' then s.tail else s := by
    split
    · next first =>
      obtain ⟨rest, rfl⟩ := List.head?_eq_some_iff.1 first
      exact List.mem_cons.1 hc
    · exact .inr hc
  unfold isNumeral at h
  generalize (if s.head? = some '-' then s.tail else s) = body at h sign
  rcases sign with rfl | hc
  · rfl
  · rw [← List.takeWhile_append_dropWhile (p := Char.isDigit) (l := body)] at hc
    rcases List.mem_append.1 hc with hc | hc
    · simp [List.mem_takeWhile_imp hc]
    · cases places : body.dropWhile Char.isDigit with
      | nil =>
        rw [places] at hc
        cases hc
      | cons point digits =>
        simp only [places, Bool.and_eq_true, beq_iff_eq, List.all_eq_true] at h hc
        rcases List.mem_cons.1 hc with rfl | hc
        · simp [h.1.1]
        · simp [h.1.2 c hc]

theorem identifier_cases (s : List Char) :
    identifier s = s ∧ Quiet s ∨ identifier s = '"' :: (escapeQuotes false s ++ ['"']) := by
  rw [identifier]
  split
  · next bare =>
    rw [Bool.and_eq_true, Bool.or_eq_true] at bare
    exact .inl ⟨rfl, bare.1.elim quiet_of_isName quiet_of_isNumeral⟩
  · exact .inr rfl

-- ---------------------------------------------------------------------------
-- Where quotes end
-- ---------------------------------------------------------------------------

theorem unbroken_identifier (s : List Char) : Unbroken .outside (identifier s) := by
  rcases identifier_cases s with ⟨he, hs⟩ | he
  · rw [he]
    exact hs.unbroken _
  · obtain ⟨inside, after⟩ := read_escapeQuotes false s
    rw [he]
    refine ⟨by simp, unbroken_append.2 ⟨inside.unbroken, unbroken_of_not_mem (by simp)⟩⟩

/-- Behind a text the reader is outside quotes, unless the text has stopped their end. -/
theorem after_identifier (s : List Char) : Position.outside.after (identifier s) =
    if endsOdd false s then .inside false else .outside := by
  rcases identifier_cases s with ⟨he, hs⟩ | he
  · rw [he, hs.after_outside, hs.endsOdd_eq_false]
    rfl
  · have first : Position.outside.next '"' = .inside false := rfl
    rw [he, Position.after, List.foldl_cons, first]
    change Position.after _ _ = _
    rw [after_append, (read_escapeQuotes false s).2]
    cases endsOdd false s <;> rfl

def unquote : Position → List Char → Option (List Char × List Char)
  | .outside, rest => some ([], rest)
  | .inside _, [] => none
  | .inside odd, c :: cs => (unquote ((Position.inside odd).next c) cs).map (Prod.map (c :: ·) id)

/-- If the text is quoted, its quotes end with it, whatever follows. -/
def Closes (s : List Char) : Prop := ∀ body, identifier s = '"' :: body →
  ∀ rest, unquote (.inside false) (body ++ rest) = some (body, rest)

theorem unquote_append {p : Position} {s : List Char} (h : Inside p s) (rest : List Char) :
    unquote p (s ++ rest) = (unquote (p.after s) rest).map (Prod.map (s ++ ·) id) := by
  induction s generalizing p with
  | nil =>
    have same : Prod.map (([] : List Char) ++ ·) (id : List Char → List Char) = id := rfl
    rw [same, Option.map_id_fun]
    rfl
  | cons c s ih =>
    cases p with
    | outside => exact absurd rfl h.1
    | inside odd =>
      rw [List.cons_append, unquote, ih h.2, Option.map_map]
      rfl

theorem closes_iff (s : List Char) : Closes s ↔ endsOdd false s = false := by
  obtain ⟨inside, after⟩ := read_escapeQuotes false s
  have read : ∀ rest, unquote (.inside false) (escapeQuotes false s ++ ['"'] ++ rest) =
      (unquote (.inside (endsOdd false s)) ('"' :: rest)).map
        (Prod.map (escapeQuotes false s ++ ·) id) := by
    intro rest
    rw [List.append_assoc, unquote_append inside, after]
    rfl
  constructor
  · intro h
    rcases identifier_cases s with ⟨-, hs⟩ | he
    · exact hs.endsOdd_eq_false
    · have last := h _ he []
      rw [← Bool.not_eq_true]
      intro ho
      rw [read, ho] at last
      cases last
  · intro h body hbody rest
    rcases identifier_cases s with ⟨he, hs⟩ | he
    · refine absurd rfl (hs '"' ?_).1
      rw [← he, hbody]
      exact List.mem_cons_self
    · obtain rfl := (List.cons.inj (he.symm.trans hbody)).2
      rw [read, h]
      simp [unquote, Position.next]

/-- The quote behind two backslashes ends the quotes, the one behind three does not. -/
example : unquote (.inside false) "a\\\\\" b".toList = some ("a\\\\\"".toList, " b".toList) ∧
    unquote (.inside false) "a\\\\\\\" b".toList = none := by decide

/-- Between plain texts a text decides alone where the reader gets to. -/
theorem read_framed {pre post : List Char} (hpre : Quiet pre) (hpost : Quiet post) (s : List Char) :
    Unbroken .outside (pre ++ identifier s ++ post) ∧
      (Position.outside.after (pre ++ identifier s ++ post) = .outside ↔ Closes s) := by
  constructor
  · refine unbroken_append.2 ⟨unbroken_append.2 ⟨hpre.unbroken _, ?_⟩, hpost.unbroken _⟩
    rw [hpre.after_outside]
    exact unbroken_identifier s
  · rw [after_append, after_append, hpre.after_outside, after_identifier, closes_iff]
    cases endsOdd false s with
    | false => exact iff_of_true hpost.after_outside rfl
    | true =>
      rw [if_pos rfl, hpost.after_inside]
      simp

end LogAutomata.Dot
