import TracedIndex.Snapshot
import TracedIndex.Tree.Scan
import TracedIndex.Tree.Search

/-!
# Queries on a snapshot

A renderer that holds only a snapshot can answer the queries of the tree. From a branch it goes to
the child at the position given by the number of leading separators up to the key.

* `Subtree.route` gives the subtrees passed on the way to a leaf;
* `Snapshot.search` answers a point search, `Snapshot.scan` a range scan.
-/

namespace TracedIndex

variable {K : Type} [Ord K]

namespace Subtree

mutual

/-- The subtrees passed on the way to the leaf that `key` belongs to. -/
def route (key : K) : Subtree K → Option (List (Subtree K))
  | .leaf id keys next => some [.leaf id keys next]
  | .branch id keys children =>
    (routeAt key (keys.takeWhile fun s => (compare s key).isLE).length children).map
      (.branch id keys children :: ·)

/-- The subtrees passed from the subtree at position `slot` of a list on. -/
def routeAt (key : K) (slot : Nat) : List (Subtree K) → Option (List (Subtree K))
  | [] => none
  | child :: children =>
    match slot with
    | 0 => route key child
    | slot + 1 => routeAt key slot children

end

end Subtree

namespace Snapshot

/-- Looks `key` up in the leaf that it belongs to. -/
def search (s : Snapshot K) (key : K) : Option Search := do
  let passed ← s.root.route key
  let leaf ← passed.getLast?
  some ⟨leaf.keys.any fun k => compare k key == .eq, passed.map Subtree.id⟩

/-- The keys above `above` and up to `upTo`, from the leaf that `above` belongs to on. -/
def scan (s : Snapshot K) (above upTo : K) : Option (List K) := do
  let passed ← s.root.route above
  let leaf ← passed.getLast?
  let leaves := s.root.leaves.dropWhile fun l => l.id != leaf.id
  some ((Subtree.keysOf leaves).filter fun k => (compare above k).isLT && (compare k upTo).isLE)

end Snapshot

end TracedIndex
