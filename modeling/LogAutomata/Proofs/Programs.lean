import LogAutomata.Proofs.Ledger
import LogAutomata.Proofs.PrefixGraph
import LogAutomata.Proofs.WellFormed
import LogAutomata.Workspace.Run

/-!
# Programs

A program is a row of commands on a workspace that starts out empty. What a recipe makes is
well formed, whatever the automata are that it is made from, and the other commands let
automata only grow, unless they put a link down unchecked. So every automaton that a program
holds is well formed, also after commands that have failed.
-/

namespace LogAutomata

variable {W : Type}

-- ---------------------------------------------------------------------------
-- Positions and ids
-- ---------------------------------------------------------------------------

namespace Automaton

variable {a : Automaton W}

variable [LogWeight W]

theorem WellFormed.id_lt (h : a.WellFormed) {i : Nat} (hi : i < a.size) {id : Int}
    (hid : (a.profile (.inner i)).id = some id) : id < a.nextId := by
  have one := h.one_le_nextId
  rcases i with _ | _ | i
  · rw [h.init.profile_eq] at hid
    cases hid
    omega
  · rw [h.final.profile_eq] at hid
    cases hid
    omega
  · have known : a.states[i + 2]? = some a.states[i + 2] := Array.getElem?_eq_getElem hi
    have inner : a.states[i + 2] ∈ a.interior := by
      simp only [interior, List.mem_iff_getElem?]
      exact ⟨i, by simp [Nat.add_comm 2 i, known]⟩
    simp only [profile, known, Option.map_some, Option.getD_some, State.profile,
      Option.some.injEq] at hid
    exact hid ▸ h.id_lt_nextId _ inner

theorem WellFormed.id_addState_ne (h : a.WellFormed) (symbol : Symbol) {i : Nat}
    (hi : i < a.size) : ((a.addState none symbol).profile (.inner a.size)).id ≠
      (a.profile (.inner i)).id := by
  simp only [profile_addState, if_true, Option.getD_none]
  exact fun he => Int.lt_irrefl _ (h.id_lt hi he.symm)

end Automaton

theorem Entry.stateAt_natCast (e : Entry W) {i : Nat} (hi : i < e.automaton.size) :
    e.stateAt i = .ok (e.handle (.inner i)) := by
  simp [stateAt, position_natCast hi]

-- ---------------------------------------------------------------------------
-- Commands
-- ---------------------------------------------------------------------------

/-- Only `attach` puts a link down unchecked. -/
def Request.Checked : Request W → Prop
  | .attach .. => False
  | _ => True

def Command.Checked : Command W → Prop
  | .make .. => True
  | .ask _ request => request.Checked

section
variable [LogWeight W]

theorem Operation.grows {a b : Automaton W} (operation : Operation)
    (h : operation.apply a = .ok b) : Automaton.empty.Grows b := by
  cases operation with
  | spawn =>
    cases h
    exact .refl
  | copy => exact Automaton.Grows.refl.embed h
  | transpose => exact Automaton.grows_of_transpose h
  | normalize => exact Automaton.grows_of_normalize h
  | coalesce => exact Automaton.grows_of_coalesce h
  | minimize checked => exact Automaton.grows_of_minimize h
  | removeNilStates => exact Automaton.grows_of_removeNilStates h
  | pushWeights => exact Automaton.grows_of_pushWeights h
  | leftMerge => exact Automaton.grows_of_leftMerge h

namespace Workspace

variable {ws : Workspace W}

theorem make_grows {recipe : Recipe W} {a : Automaton W} (h : ws.make recipe = .ok a) :
    Automaton.empty.Grows a := by
  cases recipe with
  | new =>
    cases h
    exact .refl
  | linear labels emissions weight => exact Automaton.grows_of_linear h
  | derive operation name =>
    obtain ⟨b, -, h⟩ := bind_ok.1 h
    exact operation.grows h
  | union names =>
    obtain ⟨as, -, h⟩ := bind_ok.1 h
    exact Automaton.grows_of_union h
  | concat names =>
    obtain ⟨as, -, h⟩ := bind_ok.1 h
    exact Automaton.Grows.refl.concatFrom h
  | compose host units =>
    obtain ⟨b, -, h⟩ := bind_ok.1 h
    obtain ⟨us, -, h⟩ := bind_ok.1 h
    exact Automaton.grows_of_compose h
  | composeWith host type =>
    obtain ⟨-, -, h⟩ := bind_ok.1 h
    cases h

def WellFormed (ws : Workspace W) : Prop := ∀ x ∈ ws.entries.toList, x.2.automaton.WellFormed

namespace WellFormed

theorem empty : ({} : Workspace W).WellFormed := by
  simp [WellFormed]

variable (h : ws.WellFormed)
include h

theorem entry {name : String} {e : Entry W} (he : ws.entry name = .ok e) :
    e.automaton.WellFormed := by
  unfold Workspace.entry at he
  split at he
  · next e' hg =>
    cases he
    exact h _ (Ledger.mem_keys_of_get? hg)
  · cases he

theorem bind (name : String) {a : Automaton W} (ha : a.WellFormed) :
    (ws.bind name a).WellFormed := by
  intro x hx
  rcases Ledger.mem_of_mem_alter hx with hx | ⟨old, rfl⟩
  · exact h x hx
  · exact ha

theorem update (number : Nat) {f : Automaton W → Automaton W}
    (hf : ∀ a, a.WellFormed → (f a).WellFormed) : (ws.update number f).WellFormed := by
  intro x hx
  simp only [Workspace.update, Array.toList_map, List.mem_map] at hx
  obtain ⟨y, hy, rfl⟩ := hx
  split
  · exact hf _ (h y hy)
  · exact h y hy

variable [WeightText W]

theorem remap {e : Entry W} {r : RemapRequest} {ws' : Workspace W} {answer : Except Fault Answer}
    (hr : ws.remap e r = .ok (ws', answer)) : ws'.WellFormed := by
  obtain ⟨target, ht, hr⟩ := bind_ok.1 hr
  obtain ⟨init, -, hr⟩ := bind_ok.1 hr
  obtain ⟨final, -, hr⟩ := bind_ok.1 hr
  cases hr
  exact h.update _ fun _ _ => (h.entry ht).remap _ _

theorem ask {name : String} {request : Request W} (checked : request.Checked)
    {ws' : Workspace W} {answer : Except Fault Answer}
    (ha : ws.ask name request = .ok (ws', answer)) : ws'.WellFormed := by
  obtain ⟨e, he, ha⟩ := bind_ok.1 ha
  cases request with
  | addState id symbol =>
    cases ha
    exact h.update _ fun _ _ => (h.entry he).addState id symbol
  | link src dest weight =>
    obtain ⟨s, -, ha⟩ := bind_ok.1 ha
    obtain ⟨d, -, ha⟩ := bind_ok.1 ha
    obtain ⟨grown, hg, ha⟩ := bind_ok.1 ha
    cases ha
    exact h.update _ fun _ _ => (h.entry he).of_grows (Automaton.Grows.refl.link hg)
  | attach => exact checked.elim
  | remap r => exact h.remap ha
  | display | dump | count =>
    cases ha
    exact h
  | isAcyclic | findCycle | checkAcyclic | topologicalOrder | describe =>
    obtain ⟨_, -, ha⟩ := bind_ok.1 ha
    cases ha
    exact h
  | draw showWeights available =>
    cases available <;> cases ha
    exact h
  | drawFile filename format showWeights available =>
    simp only at ha
    split at ha
    · cases ha
    · split at ha <;> cases ha
      exact h

theorem run {c : Command W} (hc : c.Checked) : (ws.run c).1.WellFormed := by
  unfold Workspace.run
  split
  · next outcome ho =>
    cases c with
    | make name recipe detail =>
      obtain ⟨a, ha, ho⟩ := bind_ok.1 ho
      cases ho
      exact h.bind name (.of_grows .empty (make_grows ha))
    | ask name request => exact h.ask hc ho
  · exact h

end WellFormed

-- ---------------------------------------------------------------------------
-- Commands in a row
-- ---------------------------------------------------------------------------

variable [WeightText W]

/-- The workspace after these commands, whether or not each of them has succeeded. -/
def runAll (ws : Workspace W) (cs : List (Command W)) : Workspace W :=
  cs.foldl (fun ws c => (ws.run c).1) ws

theorem WellFormed.runAll (h : ws.WellFormed) {cs : List (Command W)} (hc : ∀ c ∈ cs, c.Checked) :
    (ws.runAll cs).WellFormed := by
  induction cs generalizing ws with
  | nil => exact h
  | cons c cs ih =>
    obtain ⟨hc, hcs⟩ := List.forall_mem_cons.1 hc
    exact ih (h.run hc) hcs

/-- After any commands that check their links, an automaton with a name is well formed, its
states are found at their positions, and the next unnumbered state gets an id of its own. -/
theorem entry_wellFormed {cs : List (Command W)} (hc : ∀ c ∈ cs, c.Checked) {name : String}
    {e : Entry W} (he : (runAll {} cs).entry name = .ok e) :
    e.automaton.WellFormed ∧
      (∀ i < e.automaton.size, ∃ h, e.stateAt i = .ok h ∧ h.index = i ∧ e.endpoint h = .inner i) ∧
      ∀ symbol, ∀ i < e.automaton.size,
        ((e.automaton.addState none symbol).profile (.inner e.automaton.size)).id ≠
          (e.automaton.profile (.inner i)).id := by
  have wf := (WellFormed.empty.runAll hc).entry he
  exact ⟨wf, fun i hi => ⟨_, e.stateAt_natCast hi, rfl, e.endpoint_handle_inner i⟩,
    fun symbol _ hi => wf.id_addState_ne symbol hi⟩

-- ---------------------------------------------------------------------------
-- A program with refused commands
-- ---------------------------------------------------------------------------

/-- A negative and a repeated id are taken as they are. An undefined weight, a state of
another automaton and an unknown name are refused. -/
def refusals : List (Command Float) :=
  [.make "f" .new .brief,
    .ask "f" (.addState (some (-7)) ⟨none, some (.text "a")⟩),
    .ask "f" (.addState none .nil),
    .ask "f" (.addState (some 1) .nil),
    .ask "f" (.link (.here 0) (.here 2) 0),
    .ask "f" (.link (.here 2) (.here 1) 0),
    .ask "f" (.link (.here 2) (.here 1) (0 / 0)),
    .make "g" (.derive .transpose "f") .brief,
    .ask "g" (.link (.here 0) (.of "f" 2) 0),
    .make "h" (.union ["f", "e"]) .brief,
    .make "h" (.concat ["f", "g"]) .brief]

theorem refusals_checked : ∀ c ∈ refusals, c.Checked := by
  simp [refusals, Command.Checked, Request.Checked]

theorem entry_wellFormed_refusals : ∃ e, (runAll {} refusals).entry "g" = .ok e ∧
    e.automaton.states.toList.map State.id = [-1, -2, -7, 1, 1] ∧
    e.automaton.WellFormed ∧
      (∀ i < e.automaton.size, ∃ h, e.stateAt i = .ok h ∧ h.index = i ∧ e.endpoint h = .inner i) ∧
      ∀ symbol, ∀ i < e.automaton.size,
        ((e.automaton.addState none symbol).profile (.inner e.automaton.size)).id ≠
          (e.automaton.profile (.inner i)).id := by
  have ids : ((runAll {} refusals).entry "g").toOption.map
      (fun e => e.automaton.states.toList.map State.id) = some [-1, -2, -7, 1, 1] := by
    decide +kernel
  cases he : (runAll {} refusals).entry "g" with
  | error f =>
    rw [he] at ids
    cases ids
  | ok e =>
    rw [he] at ids
    exact ⟨e, rfl, Option.some.inj ids, entry_wellFormed refusals_checked he⟩

end Workspace

end

end LogAutomata
