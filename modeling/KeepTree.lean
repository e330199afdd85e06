import KeepTree.Command.Directory
import KeepTree.Inspection
import KeepTree.Json.Words
import KeepTree.Main
import KeepTree.Proofs.Durable.Texts
import KeepTree.Proofs.Evaluation.Caching
import KeepTree.Proofs.Evaluation.Captures
import KeepTree.Proofs.Evaluation.Supers
import KeepTree.Proofs.Keeping.Chains
import KeepTree.Proofs.Keeping.Loops
import KeepTree.Proofs.Keeping.Qualified
import KeepTree.Proofs.Keeping.Replicas
import KeepTree.Proofs.Namespace.FullNames
import KeepTree.Proofs.Namespace.Inheritance
import KeepTree.Proofs.Namespace.Resolution
import KeepTree.Proofs.Recycling.Workspaces
import KeepTree.Proofs.Workspace.Refinement
import KeepTree.Proofs.Workspace.Roots
