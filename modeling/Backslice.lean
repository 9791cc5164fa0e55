import Backslice.FactTable
import Backslice.Main
import Backslice.Proofs.Access
import Backslice.Proofs.Access.Reads
import Backslice.Proofs.Access.Writes
import Backslice.Proofs.Command.Arguments
import Backslice.Proofs.Command.Run
import Backslice.Proofs.Command.Workspace
import Backslice.Proofs.Dependence.Faults
import Backslice.Proofs.Dot
import Backslice.Proofs.Flow.Components
import Backslice.Proofs.Flow.Definitions
import Backslice.Proofs.Flow.History
import Backslice.Proofs.Flow.PostDominators
import Backslice.Proofs.Flow.Postorder
import Backslice.Proofs.Flow.Shape
import Backslice.Proofs.Flow.Sites
import Backslice.Proofs.Lines
import Backslice.Proofs.Naming
import Backslice.Proofs.Scoping.Frames
import Backslice.Proofs.Scoping.Lexical
import Backslice.Proofs.Scoping.Names
import Backslice.Proofs.Scoping.Nesting
import Backslice.Proofs.Settings
import Backslice.Proofs.Shape
import Backslice.Proofs.Slice.Artifact
import Backslice.Proofs.Slice.Narrow
import Backslice.Proofs.Slice.NonInterference
import Backslice.Proofs.Slice.Reachability
import Backslice.Proofs.Slice.Seeds
import Backslice.Proofs.Slice.Total
import Backslice.Proofs.Structure
import Backslice.Session
