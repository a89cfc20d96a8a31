import LogAutomata.Automaton.Built
import LogAutomata.Automaton.Isomorphism
import LogAutomata.Automaton.Lemmas
import LogAutomata.Automaton.Walk
import LogAutomata.ExactWeight
import LogAutomata.PrefixGraph.Call
import LogAutomata.Proofs.Blocks
import LogAutomata.Proofs.Coalesce
import LogAutomata.Proofs.Coalesced
import LogAutomata.Proofs.Compose
import LogAutomata.Proofs.Concat
import LogAutomata.Proofs.Condensed
import LogAutomata.Proofs.Copies
import LogAutomata.Proofs.Elide
import LogAutomata.Proofs.Equivariance
import LogAutomata.Proofs.Idempotence
import LogAutomata.Proofs.Independence
import LogAutomata.Proofs.Kept
import LogAutomata.Proofs.LastVisits
import LogAutomata.Proofs.LeadsOut
import LogAutomata.Proofs.LeftOut
import LogAutomata.Proofs.Legs
import LogAutomata.Proofs.Members
import LogAutomata.Proofs.Nesting
import LogAutomata.Proofs.NilStates
import LogAutomata.Proofs.Normalized
import LogAutomata.Proofs.Open
import LogAutomata.Proofs.Ownership
import LogAutomata.Proofs.Parts
import LogAutomata.Proofs.Possible
import LogAutomata.Proofs.Programs
import LogAutomata.Proofs.Rearrangement
import LogAutomata.Proofs.RenamedWalks
import LogAutomata.Proofs.Reversal
import LogAutomata.Proofs.SameShape
import LogAutomata.Proofs.Sums
import LogAutomata.Proofs.Termination
import LogAutomata.Proofs.TotalMass
import LogAutomata.Proofs.TransposedJoins
import LogAutomata.Proofs.Trips
import LogAutomata.Proofs.Turns
import LogAutomata.Proofs.Uniform
import LogAutomata.Proofs.Union
import LogAutomata.Proofs.UnionWalks
import LogAutomata.Proofs.WellFormed
import LogAutomata.Text.Lines
import LogAutomata.Workspace.Run
import LogAutomata.Proofs.Calls
import LogAutomata.Proofs.Nodes
import LogAutomata.Proofs.Overlooked
import LogAutomata.Proofs.Quotation
import LogAutomata.Proofs.Drawing
