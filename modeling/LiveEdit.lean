import LiveEdit.Tree.View
import LiveEdit.Proofs.OrderedIndex.Refinement
import LiveEdit.Proofs.Document.Accounting
import LiveEdit.Proofs.Document.Members
import LiveEdit.Proofs.Document.Removing
import LiveEdit.Proofs.Document.Modifiers
import LiveEdit.Proofs.Document.Siblings
import LiveEdit.Proofs.Parse.Extents
import LiveEdit.Proofs.Parse.Reporting
import LiveEdit.Proofs.Document.Coherence
import LiveEdit.Proofs.Document.Releasing
import LiveEdit.Proofs.Document.Succession
import LiveEdit.Proofs.Outline.Recording
import LiveEdit.Proofs.Text.Runs
import LiveEdit.Proofs.Text.Margins
import LiveEdit.Proofs.Text.Excerpts
import LiveEdit.Proofs.Registry.Simulation
