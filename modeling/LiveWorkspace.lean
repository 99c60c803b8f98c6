import LiveWorkspace.Text.Encoding
import LiveWorkspace.Text.LineIndex
import LiveWorkspace.Text.Utf8
import LiveWorkspace.Path
import LiveWorkspace.Uri
import LiveWorkspace.Document.Kind
import LiveWorkspace.Workspace.Config
import LiveWorkspace.Session.Settings
import LiveWorkspace.Session.Opening
import LiveWorkspace.Session.Documents
import LiveWorkspace.Session.Loops
import LiveWorkspace.Text.Quoted
import LiveWorkspace.Proofs.Session.Placement
import LiveWorkspace.Proofs.Session.Addressing
import LiveWorkspace.Proofs.Session.EditorText
import LiveWorkspace.Proofs.Disk.Plain
import LiveWorkspace.Proofs.Replica.Effects
import LiveWorkspace.Proofs.Replica.Faithful
import LiveWorkspace.Proofs.Text.Utf8
import LiveWorkspace.Proofs.Text.Changes
import LiveWorkspace.Proofs.Text.Outdated
import LiveWorkspace.Proofs.Workspace.Agreement
import LiveWorkspace.Proofs.Workspace.Awaited
import LiveWorkspace.Proofs.Workspace.Handlers
import LiveWorkspace.Proofs.Workspace.Queue
import LiveWorkspace.Proofs.Workspace.Runs
import LiveWorkspace.Proofs.Workspace.Registry
import LiveWorkspace.Proofs.Session.Seclusion
import LiveWorkspace.Proofs.Workspace.Display
import LiveWorkspace.Proofs.Document.EditLists
import LiveWorkspace.Proofs.Workspace.CompilerMarkers
import LiveWorkspace.Proofs.Workspace.Configured
import LiveWorkspace.Proofs.Workspace.Renaming
import LiveWorkspace.Proofs.Watch.Convergence
import LiveWorkspace.Proofs.Path.Order
import LiveWorkspace.Proofs.Replica.Deliveries
import LiveWorkspace.Proofs.Replica.Moves
import LiveWorkspace.Proofs.Workspace.Ledgers
import LiveWorkspace.Proofs.Session.Copies
import LiveWorkspace.Proofs.Session.DeepestRoot
import LiveWorkspace.Proofs.Session.UnknownDocuments
import LiveWorkspace.Proofs.Uri.Spellings
import LiveWorkspace.Proofs.Replica.Series
import LiveWorkspace.Proofs.Workspace.Errands
import LiveWorkspace.Proofs.Workspace.Recurring
