import RuleSteering.Catalog
import RuleSteering.Json.Format
import RuleSteering.Proofs.Gate.History
import RuleSteering.Proofs.Gate.Sets
import RuleSteering.Proofs.Gate.Memory
import RuleSteering.Proofs.Steered.History
import RuleSteering.Proofs.Steered.Remembering
import RuleSteering.Proofs.Properties.RoundTrip
import RuleSteering.Proofs.Properties.Cut
import RuleSteering.Proofs.Override.RoundTrip
import RuleSteering.Proofs.Snapshot.Lookup
import RuleSteering.Proofs.Steered.LoadOrder
import RuleSteering.Proofs.Steered.Loaded
import RuleSteering.Proofs.Steered.Restored
import RuleSteering.Proofs.Steered.Stored
import RuleSteering.Proofs.Steered.Commit
import RuleSteering.Proofs.Steered.Saved
import RuleSteering.Proofs.Steered.Survivors
import RuleSteering.Proofs.Sequence
import RuleSteering.Proofs.Inquiry
import RuleSteering.Proofs.Steered.Lifecycle
import RuleSteering.Proofs.Steered.Purge
import RuleSteering.Proofs.Steered.Nested
import RuleSteering.Proofs.Steered.Merge
import RuleSteering.Proofs.Override.Value
import RuleSteering.Proofs.Steered.Overlay
import RuleSteering.Proofs.Adjustments.Effective
import RuleSteering.Proofs.Adjustments.Stages
import RuleSteering.Proofs.Steered.Ungrouped
import RuleSteering.Proofs.Gate.Separation
import RuleSteering.Proofs.Text.Unescape
import RuleSteering.Proofs.Steered.RowEffect
import RuleSteering.Proofs.Properties.Append
import RuleSteering.Proofs.Properties.Separator
import RuleSteering.Proofs.Steered.Emptiness
import RuleSteering.Proofs.Steered.CostTables
import RuleSteering.Proofs.Properties.Written
import RuleSteering.Proofs.Catalog
import RuleSteering.Proofs.Json.Form
import RuleSteering.Proofs.Json.Lossless
