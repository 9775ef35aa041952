import Beryl.Draft.Build.Runs
import Beryl.Machinery.Metering

/-!
# Draft/Build/MapTree — the coordinate map as a tree of runs

The runs of a coordinate map are kept in a tree whose nodes hold 8 to 16 entries, fewer at the root.
`insertMap` and `deleteLeaf` descend to a leaf, rewrite its runs, and close the frames on the way
back: a leaf grown too large is split, one grown too small is joined with a sibling.  A node is
paired with the descriptor that names it; identities and digests of records are left out.  An
operation may load 43 nodes and emit 45, and is metered.
-/

namespace Beryl.Draft

open Fallible Metering

/-! ## Nodes -/

/-- An entry of a node: a run, or the descriptor of a child with the entries of the child. -/
def MapEntry : ℕ → Type
  | 0 => Run
  | h + 1 => Measure × List (MapEntry h)

/-- The run of an entry of a leaf. -/
def MapEntry.run (entry : MapEntry 0) : Run := entry

/-- A run as an entry of a leaf. -/
def MapEntry.ofRun (run : Run) : MapEntry 0 := run

/-- The measure of the descriptor of a child. -/
def MapEntry.descriptor {h : ℕ} (entry : MapEntry (h + 1)) : Measure :=
  (show Measure × List (MapEntry h) from entry).1

/-- The entries of a child. -/
def MapEntry.entries {h : ℕ} (entry : MapEntry (h + 1)) : List (MapEntry h) :=
  (show Measure × List (MapEntry h) from entry).2

/-- A descriptor with the node it names. -/
def MapEntry.node {h : ℕ} (measure : Measure) (entries : List (MapEntry h)) : MapEntry (h + 1) :=
  (measure, entries)

/-- The measure an entry adds to its node. -/
def entryMeasure : (h : ℕ) → MapEntry h → Measure
  | 0, entry => entry.run.measure
  | _ + 1, entry => entry.descriptor

/-- The check of an entry: a run has units, a descriptor is `valid`. -/
def entryValid : (h : ℕ) → MapEntry h → Bool
  | 0, entry => entry.run.length ≠ 0
  | h + 1, entry => h + 1 ≤ 22 ∧ entry.descriptor.valid true = true

/-- `Entries::measure`, of the entries of a node of height `h + 1`. -/
def nodeMeasure {h : ℕ} (entries : List (MapEntry h)) : Prepared Measure :=
  entries.foldlM (fun sum entry => do
    ensure (entryValid h entry = true) .invalidRoot
    sum.add (entryMeasure h entry)) ⟨0, 0⟩

/-- `Node::shape`, of a node of height `h + 1`. -/
def nodeShape (h count : ℕ) (root : Bool) : Bool :=
  h + 1 ≤ 22 ∧ (if root then (if h = 0 then 1 else 2) else 8) ≤ count ∧ count ≤ 16

/-- `invalid()`. -/
abbrev invalid : DraftPiecePrepareError := .invalidRoot

/-- A step of an operation on the map, with `acquired` and `emitted` of its `MappingContext`. -/
abbrev Mapped (α : Type) := Metered DraftPiecePrepareError α

/-- `MappingContext::load`. -/
def loadMap {h : ℕ} (link : MapEntry (h + 1)) (root : Bool) : Mapped (List (MapEntry h)) :=
  reading 43 .invalidRoot do
  ensure (entryValid (h + 1) link = true) .invalidRoot
  ensure (nodeShape h link.entries.length root = true) .invalidRoot
  let measure ← nodeMeasure link.entries
  ensure (measure = link.descriptor) .invalidRoot
  return link.entries

/-- `MappingContext::emit`; what `encode_value` checks again is checked here. -/
def emitMap {h : ℕ} (entries : List (MapEntry h)) (root : Bool) : Mapped (MapEntry (h + 1)) :=
  writing 45 .invalidRoot do
  ensure (nodeShape h entries.length root = true) .invalidRoot
  let measure ← nodeMeasure entries
  let link := MapEntry.node measure entries
  ensure (entryValid (h + 1) link = true) .invalidRoot
  return link

/-- `emit_region`. -/
def emitRegion {h : ℕ} (entries : List (MapEntry h)) (root : Bool) :
    Mapped (List (MapEntry (h + 1))) :=
  if entries.length ≤ 16 then do
    let node ← emitMap entries root
    return [node]
  else do
    ensure (entries.length ≤ 32) invalid
    let left ← emitMap (entries.take (entries.length / 2)) false
    let right ← emitMap (entries.drop (entries.length / 2)) false
    return [left, right]

/-! ## Roots and source cuts -/

/-- `MapRoot`. -/
inductive MapRoot
  | empty
  | identity (n : ℕ)
  | stored (h : ℕ) (link : MapEntry (h + 1))

/-- `MapRoot::measure`. -/
def MapRoot.measure : MapRoot → Measure
  | empty => ⟨0, 0⟩
  | identity n => ⟨n, n⟩
  | stored _ link => link.descriptor

/-- `MapRoot::valid`. -/
def MapRoot.valid : MapRoot → Bool
  | empty => true
  | identity n => 0 < n ∧ n ≤ maxUnits
  | stored h link => entryValid (h + 1) link

/-- The loop of `source_cut` over the children of a node. -/
def cutChildren {h : ℕ} : ℕ → ℕ → List (MapEntry (h + 1)) → Option (MapEntry (h + 1)) × ℕ × ℕ
  | x, target, [] => (none, x, target)
  | x, target, child :: children =>
    if x < child.descriptor.source then (some child, x, target)
    else cutChildren (x - child.descriptor.source) (target + child.descriptor.target) children

/-- The descent of `source_cut`. -/
def cutTree (requireCopy : Bool) : (h : ℕ) → MapEntry (h + 1) → Bool → ℕ → ℕ → Mapped ℕ
  | 0, link, root, x, target => do
    let runs ← loadMap link root
    cutRuns requireCopy x target (runs.map (·.run))
  | h + 1, link, root, x, target => do
    let children ← loadMap link root
    match cutChildren x target children with
    | (some child, x, target) => cutTree requireCopy h child false x target
    | (none, x, target) => if x = 0 ∧ requireCopy = false then pure target else throw .invalidRoot

/-- `MappingContext::source_cut`. -/
def sourceCut (root : MapRoot) (source : ℕ) (requireCopy : Bool) : Prepared ℕ := do
  ensure (root.valid = true ∧ source ≤ root.measure.source
    ∧ ¬ (requireCopy = true ∧ source = root.measure.source)) .invalidRoot
  match root with
  | .empty => return 0
  | .identity _ => return source
  | .stored h link => once (cutTree requireCopy h link true source 0)

/-! ## Descending to a leaf -/

/-- `Frame`: the children of a node and the index of the one taken. -/
structure MapFrame (h : ℕ) where
  children : List (MapEntry (h + 1))
  index : ℕ

/-- The frames from a node of height `h + 1` down to a leaf, the highest first. -/
def MapPath : ℕ → Type
  | 0 => Unit
  | h + 1 => MapFrame h × MapPath h

/-- A place in the map: the frames above a leaf, its runs, and the units of the draft before it. -/
structure MapPlace where
  height : ℕ
  path : MapPath height
  runs : List Run
  start : ℕ

/-- The loop of `descend` over the children of a node. -/
def selectMapChild {h : ℕ} (target : ℕ) (insertion : Bool) :
    ℕ → ℕ → List (MapEntry (h + 1)) → Prepared (ℕ × MapEntry (h + 1) × ℕ)
  | _, _, [] => .error invalid
  | index, start, child :: children =>
    let stop := start + child.descriptor.target
    if (insertion = true ∧ target ≤ stop) ∨ (insertion = false ∧ target < stop) then
      .ok (index, child, start)
    else selectMapChild target insertion (index + 1) stop children

/-- The loop of `descend`. -/
def descendTree (target : ℕ) (insertion : Bool) : (h : ℕ) → MapEntry (h + 1) → Bool → ℕ →
    Mapped (MapPath h × List Run × ℕ)
  | 0, link, root, start => do
    let runs ← loadMap link root
    return ((), runs.map (·.run), start)
  | h + 1, link, root, start => do
    let children ← loadMap link root
    let (index, child, start) ← selectMapChild target insertion 0 start children
    let (path, runs, start) ← descendTree target insertion h child false start
    return ((⟨children, index⟩, path), runs, start)

/-- `descend`. -/
def descendMap (root : MapRoot) (target : ℕ) (insertion : Bool) : Mapped MapPlace := do
  ensure (root.valid = true ∧ target ≤ root.measure.target
    ∧ ¬ (insertion = false ∧ target = root.measure.target)) invalid
  match root with
  | .empty => return ⟨0, (), [], 0⟩
  | .identity n => return ⟨0, (), [.copy n], 0⟩
  | .stored h link =>
    let (path, runs, start) ← descendTree target insertion h link true 0
    return ⟨h, path, runs, start⟩

/-! ## Closing the frames -/

/-- One turn of the loop of `normalize`: entries that are too few take in a sibling, and the node of
the frame gets its child, or its two children, back. -/
def closeFrame {h : ℕ} (frame : MapFrame h) (entries : List (MapEntry h)) :
    Mapped (List (MapEntry (h + 1))) :=
  if entries.length < 8 then do
    let siblingIndex := if 0 < frame.index then frame.index - 1 else frame.index + 1
    let sibling ← required invalid frame.children[siblingIndex]?
    let others ← loadMap sibling false
    if siblingIndex < frame.index then
      let replacement ← emitRegion (others ++ entries) false
      return frame.children.take (frame.index - 1) ++ replacement
        ++ frame.children.drop (frame.index + 1)
    else
      let replacement ← emitRegion (entries ++ others) false
      return frame.children.take frame.index ++ replacement ++ frame.children.drop (frame.index + 2)
  else do
    let replacement ← emitRegion entries false
    return frame.children.take frame.index ++ replacement ++ frame.children.drop (frame.index + 1)

/-- The loop of `normalize`, from the leaf up. -/
def closeFrames : (h : ℕ) → MapPath h → List Run → Mapped (List (MapEntry h))
  | 0, _, runs => pure (runs.map MapEntry.ofRun)
  | h + 1, path, runs => do
    let entries ← closeFrames h (show MapFrame h × MapPath h from path).2 runs
    closeFrame (show MapFrame h × MapPath h from path).1 entries

/-- Entries under a new root; entries that are too many get a root above their two nodes. -/
def growRoot {h : ℕ} (entries : List (MapEntry h)) : Mapped MapRoot := do
  match ← emitRegion entries true with
  | [root] => return .stored h root
  | roots => do
    let root ← emitMap roots true
    return .stored (h + 1) root

/-- The end of `normalize`: no entries are the empty map, a single child is the root. -/
def closeRoot : (h : ℕ) → List (MapEntry h) → Mapped MapRoot
  | _, [] => pure .empty
  | h + 1, [child] => pure (.stored h child)
  | _, entries => growRoot entries

/-- `normalize`. -/
def normalize (place : MapPlace) (runs : List Run) : Mapped MapRoot := do
  let entries ← closeFrames place.height place.path runs
  closeRoot place.height entries

/-- `MappingContext::insert`. -/
def insertWithin (root : MapRoot) (at' length : ℕ) : Mapped MapRoot := do
  ensure (length ≠ 0 ∧ root.measure.target + length ≤ maxUnits) invalid
  let place ← descendMap root at' true
  let remaining ← checkedSub invalid at' place.start
  let output ← insertRuns length remaining place.runs
  let result ← normalize place output
  ensure (result.measure = ⟨root.measure.source, root.measure.target + length⟩) invalid
  return result

/-- `MappingContext::delete_leaf`. -/
def deleteWithin (root : MapRoot) (a stop : ℕ) : Mapped (MapRoot × ℕ) := do
  ensure (a < stop ∧ stop ≤ root.measure.target) invalid
  let place ← descendMap root (stop - 1) false
  let nextEnd := max a place.start
  ensure (nextEnd < stop) invalid
  let output := deleteRuns a stop place.start place.runs
  ensure (output.length ≤ 18) invalid
  let result ← normalize place output
  ensure (result.measure = ⟨root.measure.source, root.measure.target - (stop - nextEnd)⟩) invalid
  return (result, nextEnd)

/-- `MappingContext::insert` in the `MappingContext` of its own that `map_operation` gives it. -/
def insertMap (root : MapRoot) (at' length : ℕ) : Prepared MapRoot :=
  once (insertWithin root at' length)

/-- `MappingContext::delete_leaf`, likewise. -/
def deleteLeaf (root : MapRoot) (a stop : ℕ) : Prepared (MapRoot × ℕ) :=
  once (deleteWithin root a stop)

end Beryl.Draft
