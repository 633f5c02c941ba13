import TracedIndex.Binary64.Display
import TracedIndex.Outline
import TracedIndex.Proofs.Explorer.Integers
import TracedIndex.Proofs.Explorer.Payload
import TracedIndex.Proofs.Format.RoundTrip
import TracedIndex.Proofs.Tree.Chain
import TracedIndex.Proofs.Tree.Replay
import TracedIndex.Proofs.Tree.Snapshot
import TracedIndex.Proofs.Tree.Soundness
import TracedIndex.Proofs.Tree.Walks
import TracedIndex.Proofs.Subtree.Separators
import TracedIndex.Proofs.Tree.Separators
import TracedIndex.Proofs.Subtree.Cascade
import TracedIndex.Proofs.Tree.Cascade
import TracedIndex.Proofs.Subtree.Effect
import TracedIndex.Proofs.Tree.Effect
import TracedIndex.Proofs.Binary64.TotalOrder
import TracedIndex.Proofs.Binary64.Value
import TracedIndex.Proofs.Explorer.Keys
import TracedIndex.Proofs.Subtree.Slots
import TracedIndex.Proofs.Tree.Slots
import TracedIndex.Proofs.Subtree.Ascending
import TracedIndex.Proofs.Subtree.Relabel
import TracedIndex.Proofs.Tree.Ascending
import TracedIndex.Proofs.Format.Presentation
import TracedIndex.Proofs.Format.KeyText
import TracedIndex.Proofs.Subtree.Traversal
import TracedIndex.Proofs.Format.Truncated
import TracedIndex.Proofs.Format.Flaws
