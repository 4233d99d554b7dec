import DynamicUi.Main
import DynamicUi.Proofs.Blueprint.Layout
import DynamicUi.Proofs.Blueprint.Numbering
import DynamicUi.Proofs.Call.Timing
import DynamicUi.Proofs.Desktop.Reopening
import DynamicUi.Proofs.Desktop.Screens
import DynamicUi.Proofs.Diagnostics.Scopes
import DynamicUi.Proofs.Diagnostics.TraceParent
import DynamicUi.Proofs.LocalTool.Checklist
import DynamicUi.Proofs.LocalTool.Compute
import DynamicUi.Proofs.LocalTool.Targets
import DynamicUi.Proofs.Render.Coverage
import DynamicUi.Proofs.Render.Forecast
import DynamicUi.Proofs.Render.Shape
import DynamicUi.Proofs.Render.Virtualized
import DynamicUi.Proofs.Script.Balance
import DynamicUi.Proofs.Spec.Checks
import DynamicUi.Proofs.Spec.Naming
import DynamicUi.Proofs.Spec.Replacement
import DynamicUi.Proofs.Store.Nesting
import DynamicUi.Proofs.Window.Containment
import DynamicUi.Proofs.Window.Dirty
import DynamicUi.Proofs.Window.ExactlyOnce
import DynamicUi.Proofs.Window.Freshness
import DynamicUi.Proofs.Window.Mounting
import DynamicUi.Proofs.Window.Refusal
