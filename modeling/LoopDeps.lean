import LoopDeps.Console.FileSystem
import LoopDeps.Main
import LoopDeps.Proofs.Run.Outcomes
import LoopDeps.Proofs.Run.Numbering
import LoopDeps.Proofs.Graph.CarriedInputs
import LoopDeps.Proofs.Graph.Guarding
import LoopDeps.Proofs.Graph.Relaying
import LoopDeps.Proofs.Flow.Nesting
import LoopDeps.Proofs.Graph.Marking
import LoopDeps.Proofs.Output.Fields
import LoopDeps.Proofs.Output.Rows
import LoopDeps.Proofs.Output.Determining
import LoopDeps.Proofs.Output.Statements
import LoopDeps.Proofs.Graph.Balancing
import LoopDeps.Proofs.Output.Agreeing
import LoopDeps.Proofs.Graph.Naming
import LoopDeps.Proofs.Run.Filing
import LoopDeps.Proofs.Run.Refusing
import LoopDeps.Proofs.Run.Shifting
import LoopDeps.Proofs.Text.Faithful
import LoopDeps.Proofs.Text.RoundTrip
import LoopDeps.Proofs.Text.Comparing
import LoopDeps.Proofs.Text.Scanning
import LoopDeps.Proofs.Text.Accepting
import LoopDeps.Proofs.Text.Items
import LoopDeps.Proofs.Text.Joining
import LoopDeps.Proofs.Text.Layout
import LoopDeps.Proofs.Flow.Opposing
import LoopDeps.Proofs.Graph.Exchanging
import LoopDeps.Proofs.Graph.Recursing
import LoopDeps.Proofs.Graph.Remarking
import LoopDeps.Proofs.Graph.Drafting
import LoopDeps.Proofs.Graph.Reaching
import LoopDeps.Proofs.Graph.Siding
import LoopDeps.Proofs.Graph.Renaming
import LoopDeps.Proofs.Console.Ending
import LoopDeps.Proofs.Console.Rescaling
import LoopDeps.Proofs.Output.Outlining
import LoopDeps.Proofs.IR.Mirroring
import LoopDeps.Proofs.Graph.Stranding
import LoopDeps.Proofs.Text.Clashing
