import LogAutomata.Proofs.Numbering
import LogAutomata.Proofs.Programs

/-!
# Copies

A copy takes over the ids and counts on from them, so it is the automaton again, the next id
included. What an automaton answers to a request to grow depends on nothing but itself. So no
row of requests tells the copy from the original, whatever their names are and whatever else
there is beside them.
-/

namespace LogAutomata

variable {W : Type} [LogWeight W]

namespace Automaton

variable {a : Automaton W}

theorem Grows.copy_eq (h : empty.Grows a) : a.copy = .ok a := by
  have wf := WellFormed.empty.of_grows h
  obtain ⟨b, hb, he⟩ := embed_ok wf .empty (r := { keepIds := true }) (fun _ => rfl) rfl rfl
    Nat.two_pos Nat.one_lt_two "copy"
  have same : b = a := by
    refine (Grows.refl.embed hb).ext h (profiles_of_copy wf hb) fun i => ?_
    rw [he.arcsFrom, size_empty, map_move_id relocate_two, filter_src_arcs, arcsFrom,
      linksFrom_empty]
    rfl
  rw [← same]
  exact same ▸ hb

end Automaton

-- ---------------------------------------------------------------------------
-- What names hold
-- ---------------------------------------------------------------------------

theorem Ledger.get?_map_values {κ α : Type} [DecidableEq κ] (l : Ledger κ α) (f : α → α)
    (key : κ) : get? (l.map fun e => (e.1, f e.2)) key = (get? l key).map f := by
  rw [get?_eq_find?, get?_eq_find?, Array.toList_map, List.find?_map, Option.map_map,
    Option.map_map]
  rfl

namespace Workspace

variable {ws : Workspace W} {name : String} {a : Automaton W}

omit [LogWeight W] in
theorem automaton_eq_ok_iff :
    ws.automaton name = .ok a ↔ ∃ e, ws.entry name = .ok e ∧ e.automaton = a := by
  simp only [automaton, bind_ok, pure_ok]

omit [LogWeight W] in
theorem entry_update (ws : Workspace W) (number : Nat) (f : Automaton W → Automaton W)
    (name : String) : (ws.update number f).entry name = (ws.entry name).map fun e =>
      if e.number = number then { e with automaton := f e.automaton } else e := by
  have updated := Ledger.get?_map_values ws.entries
    (fun e => if e.number = number then { e with automaton := f e.automaton } else e) name
  unfold entry Workspace.update
  rw [updated]
  cases ws.entries.get? name <;> rfl

omit [LogWeight W] in
theorem entry_bind (ws : Workspace W) (name : String) (a : Automaton W) :
    (ws.bind name a).entry name = .ok ⟨ws.nextNumber, a⟩ := by
  rw [entry, bind, Ledger.get?_alter_self]
  rfl

omit [LogWeight W] in
theorem entry_bind_of_ne (ws : Workspace W) {name other : String} (h : name ≠ other)
    (a : Automaton W) : (ws.bind name a).entry other = ws.entry other := by
  unfold entry bind
  rw [Ledger.get?_alter_of_ne _ _ h]

/-- The automaton of this entry becomes `b`, and automata with other numbers stay. -/
structure Becomes (ws after : Workspace W) (name : String) (e : Entry W) (b : Automaton W) :
    Prop where
  self : after.entry name = .ok { e with automaton := b }
  others : ∀ name' e', ws.entry name' = .ok e' → e'.number ≠ e.number → after.entry name' = .ok e'

omit [LogWeight W] in
theorem Becomes.refl {e : Entry W} (he : ws.entry name = .ok e) :
    ws.Becomes ws name e e.automaton := ⟨he, fun _ _ he' _ => he'⟩

omit [LogWeight W] in
theorem Becomes.trans {ws' ws'' : Workspace W} {e : Entry W} {b c : Automaton W}
    (h : ws.Becomes ws' name e b) (h' : ws'.Becomes ws'' name { e with automaton := b } c) :
    ws.Becomes ws'' name e c :=
  ⟨h'.self, fun name' e' he' hn => h'.others name' e' (h.others name' e' he' hn) hn⟩

omit [LogWeight W] in
theorem becomes_update {e : Entry W} (he : ws.entry name = .ok e) (b : Automaton W) :
    ws.Becomes (ws.update e.number fun _ => b) name e b where
  self := by
    rw [entry_update, he]
    exact congrArg Except.ok (if_pos rfl)
  others name' e' he' hn := by
    rw [entry_update, he']
    exact congrArg Except.ok (if_neg hn)

-- ---------------------------------------------------------------------------
-- Requests to grow
-- ---------------------------------------------------------------------------

variable [WeightText W]

def askAll (ws : Workspace W) (name : String) :
    List (Request W) → List (Except Fault Answer) × Workspace W
  | [] => ([], ws)
  | r :: rs =>
    let (after, answer) := ws.run (.ask name r)
    let (answers, last) := after.askAll name rs
    (answer :: answers, last)

end Workspace

def Automaton.linkStates [WeightText W] (a : Automaton W) (src dest : Int) (weight : W) :
    Except Fault (Automaton W × Answer) := do
  let l : Link W := ⟨.inner (← position a.size src), .inner (← position a.size dest), weight⟩
  let grown ← a.link l.src l.dest weight
  return (grown, .linked (a.describeLink l) grown.arcCount)

/-- A state is added, or a link between two states that are named by their positions. -/
def Request.Grows : Request W → Prop
  | .addState .. => True
  | .link (.here _) (.here _) _ => True
  | _ => False

def Answer.added? : Except Fault Answer → Option (Nat × Option Int)
  | .ok (.added i p) => some (i, p.id)
  | _ => none

namespace Workspace

variable [WeightText W] {a : Automaton W}

theorem attempt_link {ws : Workspace W} {name : String} {e : Entry W} (he : ws.entry name = .ok e)
    (i j : Int) (w : W) : ws.attempt (.ask name (.link (.here i) (.here j) w)) =
      (e.automaton.linkStates i j w).map fun grown =>
        (ws.update e.number fun _ => grown.1, .ok grown.2) := by
  simp only [attempt, ask, he, ok_bind, resolveState, Entry.stateAt, Automaton.linkStates]
  cases position e.automaton.size i with
  | error f => rfl
  | ok s =>
    cases position e.automaton.size j with
    | error f => rfl
    | ok d =>
      simp only [ok_bind, pure_eq_ok, e.endpoint_handle_inner]
      cases e.automaton.link (.inner s) (.inner d) w <;> rfl

/-- The answer, and the automaton after it, are told by the automaton. -/
theorem exists_response (a : Automaton W) {r : Request W} (hr : r.Grows) :
    ∃ answer b, ∀ (ws : Workspace W) (name : String) (e : Entry W), ws.entry name = .ok e →
      e.automaton = a → (ws.run (.ask name r)).2 = answer ∧
        ws.Becomes (ws.run (.ask name r)).1 name e b := by
  cases r with
  | addState id symbol =>
    refine ⟨.ok (.added a.size ((a.addState id symbol).profile (.inner a.size))),
      a.addState id symbol, ?_⟩
    rintro ws name e he rfl
    have asked : ws.run (.ask name (.addState id symbol)) =
        (ws.update e.number fun _ => e.automaton.addState id symbol, .ok (.added e.automaton.size
          ((e.automaton.addState id symbol).profile (.inner e.automaton.size)))) := by
      simp only [run, attempt, ask, he, ok_bind, pure_eq_ok]
    rw [asked]
    exact ⟨rfl, becomes_update he _⟩
  | link src dest weight =>
    cases src with
    | here i =>
      cases dest with
      | here j =>
        cases made : a.linkStates i j weight with
        | ok grown =>
          refine ⟨.ok grown.2, grown.1, ?_⟩
          rintro ws name e he rfl
          rw [run, attempt_link he, made]
          exact ⟨rfl, becomes_update he _⟩
        | error f =>
          refine ⟨.error f, a, ?_⟩
          rintro ws name e he rfl
          rw [run, attempt_link he, made]
          exact ⟨rfl, .refl he⟩
      | _ => exact hr.elim
    | _ => exact hr.elim
  | _ => exact hr.elim

theorem exists_responses (a : Automaton W) {rs : List (Request W)} (hr : ∀ r ∈ rs, r.Grows) :
    ∃ answers b, ∀ (ws : Workspace W) (name : String) (e : Entry W), ws.entry name = .ok e →
      e.automaton = a → (ws.askAll name rs).1 = answers ∧
        ws.Becomes (ws.askAll name rs).2 name e b := by
  induction rs generalizing a with
  | nil =>
    refine ⟨[], a, ?_⟩
    rintro ws name e he rfl
    exact ⟨rfl, .refl he⟩
  | cons r rs ih =>
    obtain ⟨hr, hrs⟩ := List.forall_mem_cons.1 hr
    obtain ⟨answer, b, first⟩ := exists_response a hr
    obtain ⟨answers, c, rest⟩ := ih b hrs
    refine ⟨answer :: answers, c, fun ws name e he ha => ?_⟩
    obtain ⟨asked, becomes⟩ := first ws name e he ha
    obtain ⟨askedAll, becomes'⟩ := rest _ name _ becomes.self rfl
    exact ⟨by rw [← asked, ← askedAll]; rfl, becomes.trans becomes'⟩

/-- Whatever is asked of a copy, it answers as the original does, and both come to be the same.
Side by side in one workspace, what is asked of either of them leaves the other as it is. -/
theorem copy_answers_alike {a : Automaton W} (h : a.Built) : ∃ b, a.copy = .ok b ∧
    ∀ rs : List (Request W), (∀ r ∈ rs, r.Grows) →
      (∀ (ws ws' : Workspace W) (name name' : String),
        ws.automaton name = .ok a → ws'.automaton name' = .ok b →
          (ws'.askAll name' rs).1 = (ws.askAll name rs).1 ∧
          ∃ c, (ws.askAll name rs).2.automaton name = .ok c ∧
            (ws'.askAll name' rs).2.automaton name' = .ok c) ∧
      ∀ (ws : Workspace W) (name name' : String) (e e' : Entry W),
        ws.entry name = .ok e → e.automaton = a → ws.entry name' = .ok e' → e'.automaton = b →
          e.number ≠ e'.number → (ws.askAll name rs).2.entry name' = .ok e' ∧
            (ws.askAll name' rs).2.entry name = .ok e := by
  refine ⟨a, h.grows.copy_eq, fun rs hr => ?_⟩
  obtain ⟨answers, c, responses⟩ := exists_responses a hr
  constructor
  · intro ws ws' name name' original copied
    obtain ⟨e, he, ha⟩ := automaton_eq_ok_iff.1 original
    obtain ⟨e', he', hb⟩ := automaton_eq_ok_iff.1 copied
    obtain ⟨first, after⟩ := responses ws name e he ha
    obtain ⟨first', after'⟩ := responses ws' name' e' he' hb
    exact ⟨first'.trans first.symm, c, automaton_eq_ok_iff.2 ⟨_, after.self, rfl⟩,
      automaton_eq_ok_iff.2 ⟨_, after'.self, rfl⟩⟩
  · intro ws name name' e e' he ha he' hb hn
    obtain ⟨-, after⟩ := responses ws name e he ha
    obtain ⟨-, after'⟩ := responses ws name' e' he' hb
    exact ⟨after.others name' e' he' (Ne.symm hn), after'.others name e he hn⟩

-- ---------------------------------------------------------------------------
-- Ids out of order
-- ---------------------------------------------------------------------------

def scattered : Automaton Float :=
  (((Automaton.empty.addState (some 5) ⟨none, some (.text "a")⟩).addState (some (-3)) .nil).addState
    (some 5) ⟨some 0, none⟩).withArcs [⟨0, 2, 0⟩, ⟨2, 1, 0⟩, ⟨1, 3, 0⟩]

/-- States with ids and without, and links of which two are refused. -/
def probes : List (Request Float) :=
  [.addState none .nil,
    .link (.here 0) (.here (-1)) 0,
    .link (.here 0) (.here 9) 0,
    .link (.here 2) (.here 1) (0 / 0),
    .addState (some (-7)) .nil,
    .addState none .nil]

theorem scattered_built : scattered.Built := by
  refine Automaton.Built.withArcs (.addState _ _ (.addState _ _ (.addState _ _ .empty))) ?_
  have defined : isUndefined (0 : Float) = false := by decide +kernel
  intro r hr
  simp only [List.mem_cons, List.not_mem_nil, or_false] at hr
  rcases hr with rfl | rfl | rfl <;> exact ⟨by decide, by decide, defined⟩

theorem probes_grow : ∀ r ∈ probes, r.Grows := by
  simp [probes, Request.Grows]

def holding : Workspace Float := ({} : Workspace Float).bind "f" scattered

theorem copy_answers_alike_scattered : ∃ b, scattered.copy = .ok b ∧
    ((holding.bind "g" b).askAll "g" probes).1 = (holding.askAll "f" probes).1 ∧
    (holding.askAll "f" probes).1.map Answer.added? =
      [some (5, some 6), none, none, none, some (6, some (-7)), some (7, some 7)] ∧
    ((holding.bind "g" b).askAll "f" probes).2.entry "g" = .ok ⟨1, b⟩ ∧
    ((holding.bind "g" b).askAll "g" probes).2.entry "f" = .ok ⟨0, scattered⟩ := by
  obtain ⟨b, hb, alike⟩ := copy_answers_alike scattered_built
  obtain ⟨same, apart⟩ := alike probes probes_grow
  have original : holding.entry "f" = .ok ⟨0, scattered⟩ := entry_bind {} "f" scattered
  have copied : (holding.bind "g" b).entry "g" = .ok ⟨1, b⟩ := entry_bind holding "g" b
  have beside : (holding.bind "g" b).entry "f" = .ok ⟨0, scattered⟩ :=
    (entry_bind_of_ne holding (by decide) b).trans original
  have answers := (same holding _ "f" "g" (automaton_eq_ok_iff.2 ⟨_, original, rfl⟩)
    (automaton_eq_ok_iff.2 ⟨_, copied, rfl⟩)).1
  obtain ⟨asked, asked'⟩ := apart _ "f" "g" _ _ beside rfl copied rfl Nat.zero_ne_one
  exact ⟨b, hb, answers, by decide +kernel, asked, asked'⟩

end Workspace

end LogAutomata
