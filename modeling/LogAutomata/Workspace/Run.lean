import LogAutomata.Automaton.Coalesce
import LogAutomata.Automaton.Compose
import LogAutomata.Automaton.Join
import LogAutomata.Automaton.Minimize
import LogAutomata.Automaton.NilStates
import LogAutomata.Text.Drawing
import LogAutomata.Text.Dump
import LogAutomata.Text.Fault
import LogAutomata.Workspace.Command

/-!
# Running commands

A command that fails binds no name.
-/

namespace LogAutomata

variable {W : Type}

-- ---------------------------------------------------------------------------
-- Showing
-- ---------------------------------------------------------------------------

section Display

variable [WeightText W]

def Precision.render : Precision → W → String
  | .exact, w => WeightText.shortest w
  | .rounded, w => WeightText.fixed 9 w

def Link.row (precision : Precision) (holder : Nat) (l : Link W) : LinkRow where
  dest := l.dest.view
  weight := precision.render l.weight
  src := if l.src = .inner holder then none else some l.src.view

def Entry.rows (e : Entry W) (precision : Precision) : List StateRow :=
  e.automaton.states.toList.mapIdx fun i s => ⟨s.profile, s.links.toList.map (Link.row precision i)⟩

def Entry.display (e : Entry W) : Detail → Answer
  | .full precision => .rows (e.rows precision)
  | .brief => .counts e.automaton.size e.automaton.arcCount

/-- A state as it stands beside `e`. Its links are those that it has at home. -/
def Workspace.report (ws : Workspace W) (e : Entry W) (h : Handle) : StateReport :=
  let home := (ws.entries.toList.map Prod.snd).find? fun other => some other.number == h.home
  let symbol := h.profile.symbol
  { text := h.profile.describe
    owned := e.automaton.owns (e.endpoint h)
    init := h.index == 0
    final := h.index == 1
    emitting := symbol.isEmitting
    labeled := symbol.isLabeled
    targets := (home.map fun o =>
      (o.automaton.targets h.index.toNat).map fun p => (e.endpoint (o.handle p)).view).getD []
    links := (home.map fun o =>
      (o.automaton.linksFrom h.index.toNat).map o.automaton.describeLink).getD [] }

end Display

-- ---------------------------------------------------------------------------
-- Making
-- ---------------------------------------------------------------------------

section Run

variable [LogWeight W]

def Operation.apply (a : Automaton W) : Operation → Except Fault (Automaton W)
  | .spawn => return .empty
  | .copy => a.copy
  | .transpose => a.transpose
  | .normalize => a.normalize
  | .coalesce => a.coalesce
  | .minimize checked => a.minimize checked
  | .removeNilStates => a.removeNilStates
  | .pushWeights => a.pushWeights
  | .leftMerge => a.leftMerge

def Workspace.automaton (ws : Workspace W) (name : String) : Except Fault (Automaton W) :=
  return (← ws.entry name).automaton

def Workspace.make (ws : Workspace W) : Recipe W → Except Fault (Automaton W)
  | .new => return .empty
  | .linear labels emissions weight => Automaton.linear labels emissions weight
  | .derive operation name => do operation.apply (← ws.automaton name)
  | .union names => do Automaton.union (← names.mapM ws.automaton)
  | .concat names => do Automaton.concat (← names.mapM ws.automaton)
  | .compose host units => do
    let a ← ws.automaton host
    a.compose (← units.mapM fun (label, name) => return (label, ← ws.automaton name))
  | .composeWith host type => do
    discard (ws.automaton host)
    throw (.notAMapping type)

variable [WeightText W]

-- ---------------------------------------------------------------------------
-- Asking
-- ---------------------------------------------------------------------------

/-- The outcome of looking a state up. A state without a counterpart is an
answer; a reference that names no state is a fault of the command. -/
def Workspace.lookup (ws : Workspace W) (e : Entry W) (table : Table) (operation : String)
    (ref : StateRef) : Except Fault (Except Fault StateView) := do
  let h ← ws.resolveState e ref
  return (e.automaton.mapped table operation (e.endpoint h)).map Endpoint.view

/-- The states are copied even if a look-up then fails. -/
def Workspace.remap (ws : Workspace W) (e : Entry W) (r : RemapRequest) :
    Except Fault (Workspace W × Except Fault Answer) := do
  let target ← ws.entry r.target
  let init ← r.init.mapM (ws.resolveState target)
  let final ← r.final.mapM (ws.resolveState target)
  let (table, grown) := e.automaton.remap
    { init := (init.map target.endpoint).getD (.inner 0)
      final := (final.map target.endpoint).getD (.inner 1)
      keepIds := r.keepIds
      keep := (r.filter.map Filter.keep).getD fun _ => true } target.automaton
  let ws := ws.update target.number fun _ => grown
  let target := { target with automaton := grown }
  let e := if e.number = target.number then target else e
  let entries := table.toList.mapIdx fun i image => image.map fun p => (i, p.view)
  return (ws, do
    let lookups ← r.lookups.mapM (ws.lookup e table r.operation)
    return .remapped (entries.filterMap id) lookups (target.rows .exact))

def Workspace.attach (ws : Workspace W) (src dest holder : Handle) (weight : W) : Workspace W :=
  match holder.home with
  | none => ws
  | some number =>
    let l : Link W := ⟨src.endpoint number, dest.endpoint number, weight⟩
    ws.update number fun a => a.attach holder.index.toNat l

def Workspace.ask (ws : Workspace W) (name : String) (request : Request W) :
    Except Fault (Workspace W × Except Fault Answer) := do
  let e ← ws.entry name
  let a := e.automaton
  match request with
  | .addState id symbol =>
    let grown := a.addState id symbol
    return (ws.update e.number fun _ => grown,
      .ok (.added a.size (grown.profile (.inner a.size))))
  | .link src dest weight =>
    let src ← ws.resolveState e src
    let dest ← ws.resolveState e dest
    let l : Link W := ⟨e.endpoint src, e.endpoint dest, weight⟩
    let grown ← a.link l.src l.dest weight
    return (ws.update e.number fun _ => grown, .ok (.linked (a.describeLink l) grown.arcCount))
  | .attach src dest holder weight =>
    let src ← ws.resolveState e src
    let dest ← ws.resolveState e dest
    let holder ← (holder.map (ws.resolveState e)).getD (.ok src)
    let ws := ws.attach src dest holder weight
    let text := a.describeLink ⟨e.endpoint src, e.endpoint dest, weight⟩
    return (ws, .ok (.linked text (← ws.automaton name).arcCount))
  | .display detail => return (ws, .ok (e.display detail))
  | .dump => return (ws, .ok (.text a.dump))
  | .count => return (ws, .ok (.counts a.size a.arcCount))
  | .isAcyclic => return (ws, .ok (.acyclic (← a.isAcyclic)))
  | .findCycle => return (ws, .ok (.cycle (← a.findCycle)))
  | .checkAcyclic => a.checkAcyclic; return (ws, .ok .passed)
  | .topologicalOrder => return (ws, .ok (.order (← a.topologicalOrder)))
  | .describe state => return (ws, .ok (.state (ws.report e (← ws.resolveState e state))))
  | .remap r => ws.remap e r
  | .draw showWeights available =>
    if !available then throw .noDrawingProgram
    return (ws, .ok (.drawing (a.draw none showWeights)))
  | .drawFile filename format showWeights available =>
    if !available then throw .noDrawingProgram
    if filename.contains '\x00' then throw .unwritableName
    return (ws, .ok (.file (.named filename format (a.draw (some 0) showWeights))))

def Workspace.attempt (ws : Workspace W) :
    Command W → Except Fault (Workspace W × Except Fault Answer)
  | .make name recipe detail => do
    let a ← ws.make recipe
    return (ws.bind name a, .ok ((⟨ws.nextNumber, a⟩ : Entry W).display detail))
  | .ask name request => ws.ask name request

def Workspace.run (ws : Workspace W) (c : Command W) : Workspace W × Except Fault Answer :=
  match ws.attempt c with
  | .ok outcome => outcome
  | .error f => (ws, .error f)

end Run

end LogAutomata
