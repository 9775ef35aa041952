import Beryl.Draft.Admission.Group
import Beryl.Machinery.Search
import Mathlib.Algebra.BigOperators.Group.List.Basic

/-!
# Draft/Admission/Tree — the search trees of an admission

An admission keeps two search trees: one over its sources, in the order of their groups, and one
over its targets.  Both are trees of immutable records whose leaves all lie at one depth.  An
internal record holds a link to each child with the number of leaves below it and the keys of the
first and the last of them.  As in `Draft/Sequence/Tree` a link is paired with the record it
addresses, by identity and digest in the source.

What a tree *is* is the list of its leaves (`leaves`).  `Proper.summary` reads a link off that list,
**`exists_internal` builds a node over any row of proper children whose leaves are in order**, and
`authenticatePath_ok` says that every path of a proper tree can be read.
-/

namespace Beryl.Admission

open Fallible List

/-- `DRAFT_MARKER_ADMISSION_MAX_ASSOCIATIONS`. -/
abbrev maxAssociations : ℕ := 65536

/-- `DRAFT_MARKER_ADMISSION_TREE_MAX_HEIGHT`. -/
abbrev treeMaxHeight : ℕ := 64

/-- `DRAFT_MARKER_ADMISSION_TREE_FANOUT`. -/
abbrev treeFanout : ℕ := 128

/-! ## Records -/

/-- `DraftMarkerAdmissionChildV1`: how many leaves lie below a link, and between which keys. -/
structure Child (K : Type) where
  count : ℕ
  first : K
  last : K
  deriving DecidableEq

/-- The record a link addresses: a leaf at height one, the linked children of an internal node at
height `h + 2`. -/
def Tree (K V : Type) : ℕ → Type
  | 0 => V
  | h + 1 => List (Child K × Tree K V h)

/-- A link, with the record it addresses. -/
abbrev Linked (K V : Type) (h : ℕ) : Type := Child K × Tree K V h

/-- Links next to each other. -/
abbrev Links (K V : Type) (h : ℕ) : Type := List (Linked K V h)

variable {K V : Type} {h : ℕ}

/-- The payload of a leaf record. -/
def Tree.leaf (tree : Tree K V 0) : V := tree

/-- The linked children of an internal record. -/
def Tree.children (tree : Tree K V (h + 1)) : Links K V h := tree

/-- A leaf record. -/
def Tree.ofLeaf (leaf : V) : Tree K V 0 := leaf

/-- An internal record. -/
def Tree.node (children : Links K V h) : Tree K V (h + 1) := children

@[simp] theorem Tree.children_node (children : Links K V h) :
    (Tree.node children).children = children := rfl

/-- **The leaves of a tree, in order.** -/
def leaves : (h : ℕ) → Tree K V h → List V
  | 0, tree => [tree.leaf]
  | h + 1, tree => tree.children.flatMap fun c => leaves h c.2

/-- The leaves below a row of links. -/
def leavesOf (children : Links K V h) : List V := children.flatMap fun c => leaves h c.2

@[simp] theorem leavesOf_nil : leavesOf ([] : Links K V h) = [] := rfl

@[simp] theorem leavesOf_cons (c : Linked K V h) (cs : Links K V h) :
    leavesOf (c :: cs) = leaves h c.2 ++ leavesOf cs := flatMap_cons

@[simp] theorem leavesOf_append (cs ds : Links K V h) :
    leavesOf (cs ++ ds) = leavesOf cs ++ leavesOf ds := flatMap_append

@[simp] theorem leaves_zero (tree : Tree K V 0) : leaves 0 tree = [tree.leaf] := rfl

@[simp] theorem leaves_succ (tree : Tree K V (h + 1)) :
    leaves (h + 1) tree = leavesOf tree.children := rfl

section

variable [LinearOrder K] [Leaf K V]

/-- `DraftMarkerAdmissionNodeV1::count`. -/
def nodeCount : (h : ℕ) → Tree K V h → Checked ℕ
  | 0, _ => .ok 1
  | _ + 1, tree =>
    tree.children.foldlM (fun sum c => checkedAdd .arithmeticOverflow sum c.1.count) 0

/-- `DraftMarkerAdmissionNodeV1::envelope`. -/
def envelope : (h : ℕ) → Tree K V h → Checked (K × K)
  | 0, tree => .ok (Leaf.key tree.leaf, Leaf.key tree.leaf)
  | _ + 1, tree => do
    let first ← required .nodeFanout tree.children.head?
    let last ← required .nodeFanout tree.children.getLast?
    return (first.1.first, last.1.last)

/-- `child`: the link to a record. -/
def child (h : ℕ) (tree : Tree K V h) : Checked (Child K) := do
  let count ← nodeCount h tree
  let (first, last) ← envelope h tree
  return ⟨count, first, last⟩

/-- `envelopes_disjoint`, with a preceding child if there is one. -/
def disjointFrom : Option (Child K) → Child K → Prop
  | none, _ => True
  | some left, right => left.first ≤ left.last ∧ right.first ≤ right.last ∧ left.last < right.first

instance (previous : Option (Child K)) (c : Child K) : Decidable (disjointFrom previous c) := by
  cases previous <;> unfold disjointFrom <;> infer_instance

/-- `validate_children`. -/
def validateChildren : Option (Child K) → List (Child K) → Checked Unit
  | _, [] => .ok ()
  | previous, c :: cs => do
    ensure (c.count ≠ 0 ∧ c.count ≤ maxAssociations) .invalidCount
    ensure (c.first ≤ c.last) .invalidEnvelope
    ensure (disjointFrom previous c) .invalidEnvelope
    validateChildren (some c) cs

/-- `DraftMarkerAdmissionNodeV1::validate`, without the digest. -/
def validate : (h : ℕ) → Tree K V h → Checked Unit
  | 0, tree => Leaf.validate tree.leaf
  | h + 1, tree => do
    ensure (h + 2 ≤ treeMaxHeight) .treeHeight
    ensure (tree.children ≠ [] ∧ tree.children.length ≤ treeFanout) .nodeFanout
    validateChildren none (tree.children.map Prod.fst)
    let count ← nodeCount (h + 1) tree
    ensure (count ≤ maxAssociations) .invalidCount

/-- `DraftMarkerAdmissionNodeV1::internal`, with the link to the new record. -/
def internal (children : Links K V h) : Checked (Linked K V (h + 1)) := do
  ensure (h + 2 ≤ treeMaxHeight) .treeHeight
  ensure (children ≠ [] ∧ children.length ≤ treeFanout) .nodeFanout
  validateChildren none (children.map Prod.fst)
  validate (h + 1) (Tree.node children)
  let link ← child (h + 1) (Tree.node children)
  return (link, Tree.node children)

/-- `source_leaf` and `target_leaf`, with the link to the new record. -/
def linkLeaf (leaf : V) : Checked (Linked K V 0) := do
  validate 0 (Tree.ofLeaf leaf)
  let link ← child 0 (Tree.ofLeaf leaf)
  return (link, Tree.ofLeaf leaf)

/-- The check of `required_node` on a record that has been found. -/
def requiredNode : (h : ℕ) → Tree K V h → Prepared Unit
  | 0, _ => .ok ()
  | h + 1, tree => do
    ensure (h < 64) (.schema .treeHeight)
    ensure (h + 2 ≤ 18 ∧ ∀ c ∈ tree.children, 2 ^ h ≤ c.1.count) (.schema .invalidCount)

/-- What `authenticate_path` checks of the child it descends to. -/
def authenticate (expected : Linked K V h) : Prepared Unit := do
  requiredNode h expected.2
  (validate h expected.2).mapError .schema
  let link ← (child h expected.2).mapError .schema
  ensure (link = expected.1) .pathAuthentication

/-- The number of children `authenticated_child` asks of an internal record. -/
def canonicalFanout : (h : ℕ) → Tree K V h → Prop
  | 0, _ => True
  | _ + 1, tree => 2 ≤ tree.children.length ∧ tree.children.length ≤ treeFanout

instance : (h : ℕ) → (tree : Tree K V h) → Decidable (canonicalFanout h tree)
  | 0, _ => .isTrue trivial
  | _ + 1, tree => inferInstanceAs (Decidable (2 ≤ tree.children.length ∧ _))

/-- `authenticated_child`. -/
def authenticatedChild (expected : Linked K V h) : Prepared Unit := do
  authenticate expected
  ensure (canonicalFanout h expected.2) (.schema .nodeFanout)

end

/-! ## Proper trees -/

section

variable [LinearOrder K] [Leaf K V]
  {children : Links K V h} {xs : List V} {c : Linked K V h} {x : V}

/-- Leaves in strictly increasing order of their keys. -/
def Sorted (xs : List V) : Prop := xs.Pairwise fun x y => (Leaf.key x : K) < Leaf.key y

theorem sorted_append {ys : List V} : Sorted (xs ++ ys) ↔ Sorted xs ∧ Sorted ys
    ∧ ∀ x ∈ xs, ∀ y ∈ ys, (Leaf.key x : K) < Leaf.key y := pairwise_append

/-- Every link below is the one its record yields, every leaf is valid, and every internal record
has between two and 128 children. -/
def Proper : (h : ℕ) → Linked K V h → Prop
  | 0, c => child 0 c.2 = .ok c.1 ∧ validate 0 c.2 = .ok ()
  | h + 1, c => child (h + 1) c.2 = .ok c.1 ∧ canonicalFanout (h + 1) c.2
      ∧ ∀ d ∈ c.2.children, Proper h d

/-- A link, read off the leaves below it. -/
structure Summarizes (link : Child K) (xs : List V) : Prop where
  count : link.count = xs.length
  first : ∃ x ∈ xs.head?, link.first = Leaf.key x
  last : ∃ x ∈ xs.getLast?, link.last = Leaf.key x

theorem Proper.link : ∀ {h} {c : Linked K V h}, Proper h c → child h c.2 = .ok c.1
  | 0, _, hc => hc.1
  | _ + 1, _, hc => hc.1

theorem Proper.child_mem {c : Linked K V (h + 1)} (hc : Proper (h + 1) c) {d : Linked K V h}
    (hd : d ∈ c.2.children) : Proper h d := hc.2.2 d hd

theorem Proper.fanout {c : Linked K V (h + 1)} (hc : Proper (h + 1) c) :
    2 ≤ c.2.children.length ∧ c.2.children.length ≤ treeFanout := hc.2.1

theorem Proper.canonicalFanout : ∀ {h} {c : Linked K V h}, Proper h c → canonicalFanout h c.2
  | 0, _, _ => trivial
  | _ + 1, _, hc => hc.2.1

omit [LinearOrder K] [Leaf K V] in
theorem foldlM_count_eq_ok {sum total : ℕ} :
    children.foldlM (fun sum c => checkedAdd SchemaError.arithmeticOverflow sum c.1.count) sum
        = .ok total → total = sum + (children.map fun c => c.1.count).sum := by
  induction children generalizing sum with
  | nil => intro hsum; cases hsum; simp
  | cons c cs ih =>
    intro hsum
    rw [foldlM_cons, bind_eq_ok] at hsum
    obtain ⟨mid, hmid, hrest⟩ := hsum
    obtain ⟨rfl, -⟩ := checkedAdd_eq_ok.mp hmid
    rw [ih hrest, map_cons, sum_cons, add_assoc]

omit [LinearOrder K] [Leaf K V] in
theorem exists_foldlM_count {sum : ℕ}
    (hlt : sum + (children.map fun c => c.1.count).sum < u64Size) :
    children.foldlM (fun sum c => checkedAdd SchemaError.arithmeticOverflow sum c.1.count) sum
      = .ok (sum + (children.map fun c => c.1.count).sum) := by
  induction children generalizing sum with
  | nil => simp
  | cons c cs ih =>
    rw [map_cons, sum_cons, ← add_assoc] at hlt ⊢
    rw [foldlM_cons, checkedAdd_bind (by omega), ih hlt]

omit [LinearOrder K] in
theorem sum_count (hs : ∀ c ∈ children, Summarizes c.1 (leaves h c.2)) :
    (children.map fun c => c.1.count).sum = (leavesOf children).length := by
  induction children with
  | nil => rfl
  | cons c cs ih =>
    rw [map_cons, sum_cons, leavesOf_cons, length_append,
      ih fun d hd => hs d (.tail _ hd), (hs c mem_cons_self).count]

omit [LinearOrder K] [Leaf K V] in
/-- The ends of a row of links are the ends of its leaves. -/
theorem head?_leavesOf (hc : children.head? = some c) (hx : x ∈ (leaves h c.2).head?) :
    x ∈ (leavesOf children).head? := by
  cases children with
  | nil => simp at hc
  | cons d ds =>
    cases hc
    rw [leavesOf_cons, head?_append, Option.mem_def.mp hx]
    rfl

omit [LinearOrder K] [Leaf K V] in
theorem getLast?_leavesOf (hc : children.getLast? = some c) (hx : x ∈ (leaves h c.2).getLast?) :
    x ∈ (leavesOf children).getLast? := by
  obtain ⟨front, rfl⟩ := getLast?_eq_some_iff.mp hc
  rw [leavesOf_append, leavesOf_cons, leavesOf_nil, append_nil, getLast?_append,
    Option.mem_def.mp hx]
  rfl

/-- **Every link of a proper tree summarizes the leaves below it.** -/
theorem Proper.summary : ∀ {h} {c : Linked K V h}, Proper h c → Summarizes c.1 (leaves h c.2)
  | 0, (link, tree), hc => by
    have hlink : (⟨1, Leaf.key tree.leaf, Leaf.key tree.leaf⟩ : Child K) = link :=
      Except.ok.inj hc.1
    subst hlink
    exact ⟨rfl, ⟨_, rfl, rfl⟩, ⟨_, rfl, rfl⟩⟩
  | h + 1, (link, tree), hc => by
    have hs : ∀ d ∈ tree.children, Summarizes d.1 (leaves h d.2) := fun d hd =>
      (hc.child_mem hd).summary
    have hlink := hc.link
    simp only [child, nodeCount, envelope, bind_eq_ok, required_eq_ok, pure_eq_ok_iff] at hlink
    obtain ⟨count, hcount, ⟨first, last⟩, ⟨f, hf, l, hl, heq⟩, rfl⟩ := hlink
    cases heq
    obtain ⟨x, hx, hxf⟩ := (hs f (mem_of_mem_head? hf)).first
    obtain ⟨y, hy, hyl⟩ := (hs l (mem_of_getLast? hl)).last
    refine ⟨?_, ⟨x, head?_leavesOf hf hx, hxf⟩, ⟨y, getLast?_leavesOf hl hy, hyl⟩⟩
    rw [foldlM_count_eq_ok hcount, zero_add, sum_count hs]
    rfl

variable {link : Child K}

section

variable (hs : Summarizes link xs)
include hs

theorem Summarizes.first_le (hsort : Sorted xs) (hx : x ∈ xs) : link.first ≤ Leaf.key x := by
  obtain ⟨y, hy, heq⟩ := hs.first
  cases xs with
  | nil => cases hx
  | cons z zs =>
    cases hy
    rcases mem_cons.mp hx with rfl | hx
    · exact heq.le
    · exact heq.trans_le (rel_of_pairwise_cons hsort hx).le

theorem Summarizes.le_last (hsort : Sorted xs) (hx : x ∈ xs) : (Leaf.key x : K) ≤ link.last := by
  obtain ⟨y, hy, heq⟩ := hs.last
  obtain ⟨front, rfl⟩ := getLast?_eq_some_iff.mp hy
  rcases mem_append.mp hx with hx | hx
  · exact ((sorted_append.mp hsort).2.2 x hx y (by simp)).le.trans_eq heq.symm
  · rw [mem_singleton.mp hx]
    exact heq.ge

omit [LinearOrder K] in
theorem Summarizes.exists_first : ∃ x ∈ xs, link.first = Leaf.key x := by
  obtain ⟨x, hx, heq⟩ := hs.first
  exact ⟨x, mem_of_mem_head? hx, heq⟩

omit [LinearOrder K] in
theorem Summarizes.exists_last : ∃ x ∈ xs, link.last = Leaf.key x := by
  obtain ⟨x, hx, heq⟩ := hs.last
  exact ⟨x, mem_of_getLast? hx, heq⟩

theorem Summarizes.first_le_last (hsort : Sorted xs) : link.first ≤ link.last := by
  obtain ⟨x, hx, heq⟩ := hs.exists_last
  exact heq ▸ hs.first_le hsort hx

end

omit [LinearOrder K] [Leaf K V] in
theorem length_mul_le_leavesOf {n : ℕ} : ∀ {children : Links K V h},
    (∀ c ∈ children, n ≤ (leaves h c.2).length) → children.length * n ≤ (leavesOf children).length
  | [], _ => by simp
  | c :: cs, hle => by
    have hrest := length_mul_le_leavesOf fun d hd => hle d (.tail _ hd)
    have hc := hle c mem_cons_self
    rw [leavesOf_cons, length_append, length_cons, Nat.add_mul, Nat.one_mul]
    omega

/-- A tree whose internal records have at least two children has enough leaves for its height. -/
theorem Proper.two_pow_le : ∀ {h} {c : Linked K V h}, Proper h c → 2 ^ h ≤ (leaves h c.2).length
  | 0, _, _ => le_rfl
  | h + 1, (link, tree), hc => by
    have hsum := length_mul_le_leavesOf fun d hd => (hc.child_mem hd).two_pow_le
    have htwo : 2 * 2 ^ h ≤ tree.children.length * 2 ^ h := Nat.mul_le_mul_right _ hc.fanout.1
    rw [leaves_succ, Nat.pow_succ, Nat.mul_comm]
    exact htwo.trans hsum

theorem Proper.ne_nil (hc : Proper h c) : leaves h c.2 ≠ [] := by
  have h1 := hc.two_pow_le
  have h2 : 0 < 2 ^ h := Nat.two_pow_pos h
  exact length_pos_iff.mp (by omega)

/-- A tree within the limit on associations stays far below the limit on heights. -/
theorem Proper.height_le (hc : Proper h c) (hmax : (leaves h c.2).length ≤ maxAssociations) :
    h ≤ 16 :=
  (Nat.pow_le_pow_iff_right (by decide)).mp (hc.two_pow_le.trans hmax : 2 ^ h ≤ 2 ^ 16)

/-! ## Sound links and rows -/

/-- A proper link whose leaves are in order and within the limit. -/
structure Sound (h : ℕ) (c : Linked K V h) : Prop where
  proper : Proper h c
  sorted : Sorted (leaves h c.2)
  room : (leaves h c.2).length ≤ maxAssociations

/-- A row of proper links whose leaves are in order and within the limit. -/
structure SoundRow (children : Links K V h) : Prop where
  proper : ∀ c ∈ children, Proper h c
  sorted : Sorted (leavesOf children)
  room : (leavesOf children).length ≤ maxAssociations

theorem SoundRow.append {as bs : Links K V h} (hrow : SoundRow (as ++ bs)) :
    SoundRow as ∧ SoundRow bs := by
  obtain ⟨hp, hsort, hroom⟩ := hrow
  rw [leavesOf_append] at hsort hroom
  rw [length_append] at hroom
  obtain ⟨hleft, hright, -⟩ := sorted_append.mp hsort
  exact ⟨⟨fun c hc => hp c (mem_append_left _ hc), hleft, by omega⟩,
    ⟨fun c hc => hp c (mem_append_right _ hc), hright, by omega⟩⟩

omit [LinearOrder K] [Leaf K V] in
theorem leavesOf_singleton (c : Linked K V h) : leavesOf [c] = leaves h c.2 := by simp

theorem SoundRow.mem (hrow : SoundRow children) (hc : c ∈ children) : Sound h c := by
  obtain ⟨pre, post, rfl⟩ := append_of_mem hc
  obtain ⟨hp, hsort, hroom⟩ : SoundRow [c] := hrow.append.2.append.1
  rw [leavesOf_singleton] at hsort hroom
  exact ⟨hp c (by simp), hsort, hroom⟩

theorem SoundRow.over {h' : ℕ} {nodes : List (Linked K V h')} (hrow : SoundRow children)
    (hp : ∀ n ∈ nodes, Proper h' n) (hl : leavesOf nodes = leavesOf children) : SoundRow nodes :=
  ⟨hp, hl ▸ hrow.sorted, hl ▸ hrow.room⟩

theorem Sound.row {c : Linked K V (h + 1)} (hc : Sound (h + 1) c) : SoundRow c.2.children :=
  ⟨fun _ => hc.proper.child_mem, hc.sorted, hc.room⟩

/-! ## Building a record -/

theorem validateChildren_ok : ∀ {previous : Option (Linked K V h)} {children : Links K V h},
    SoundRow (previous.toList ++ children) →
    validateChildren (previous.map Prod.fst) (children.map Prod.fst) = .ok ()
  | _, [], _ => rfl
  | previous, c :: cs, hrow => by
    have hc : Sound h c := hrow.mem (by simp)
    have hs := hc.proper.summary
    have hself := hs.first_le_last hc.sorted
    have hcount : c.1.count ≠ 0 ∧ c.1.count ≤ maxAssociations :=
      hs.count ▸ ⟨(length_pos_iff.mpr hc.proper.ne_nil).ne', hc.room⟩
    have hdisjoint : disjointFrom (previous.map Prod.fst) c.1 := by
      cases previous with
      | none => trivial
      | some p =>
        have hp : Sound h p := hrow.mem (by simp)
        obtain ⟨x, hx, hxeq⟩ := hp.proper.summary.exists_last
        obtain ⟨y, hy, hyeq⟩ := hs.exists_first
        refine ⟨hp.proper.summary.first_le_last hp.sorted, hself, ?_⟩
        rw [hxeq, hyeq]
        exact (sorted_append.mp hrow.sorted).2.2 x hx y (by simp [hy])
    have hrest : validateChildren (some c.1) (cs.map Prod.fst) = .ok () :=
      @validateChildren_ok (some c) cs hrow.append.2
    rw [map_cons, validateChildren, ensure_true hcount, ensure_true hself,
      ensure_bind hdisjoint, ok_bind, ok_bind, hrest]

theorem SoundRow.nodeCount (hrow : SoundRow children) :
    nodeCount (h + 1) (Tree.node children) = .ok (leavesOf children).length := by
  have hsum := sum_count fun d hd => (hrow.proper d hd).summary
  have hlt : 0 + (children.map fun c => c.1.count).sum < u64Size := by
    rw [zero_add, hsum]
    exact lt_of_le_of_lt hrow.room (by decide)
  rw [Admission.nodeCount, Tree.children_node, exists_foldlM_count hlt, zero_add, hsum]

/-- **A record can be built over every sound row** of two children to 128. -/
theorem exists_internal (hrow : SoundRow children)
    (hfan : 2 ≤ children.length ∧ children.length ≤ treeFanout) :
    ∃ node : Linked K V (h + 1), internal children = .ok node ∧ Sound (h + 1) node
      ∧ leaves (h + 1) node.2 = leavesOf children := by
  have hne : children ≠ [] := length_pos_iff.mp (by omega)
  have hfirst := head?_eq_some_head hne
  have hlast := getLast?_eq_some_getLast hne
  generalize children.head hne = first at hfirst
  generalize children.getLast hne = last at hlast
  have hlink : child (h + 1) (.node children)
      = .ok ⟨(leavesOf children).length, first.1.first, last.1.last⟩ := by
    simp only [child, hrow.nodeCount, envelope, Tree.children_node, hfirst, hlast, required_some,
      ok_bind, pure_eq_ok]
  have hproper : Proper (h + 1) ((⟨(leavesOf children).length, first.1.first, last.1.last⟩,
      Tree.node children) : Linked K V (h + 1)) := ⟨hlink, hfan, hrow.proper⟩
  have hht : h + 2 ≤ treeMaxHeight := by
    have := hproper.height_le hrow.room
    exact le_trans (by omega) (show 17 ≤ treeMaxHeight by decide)
  have hch : validateChildren none (children.map Prod.fst) = .ok () :=
    @validateChildren_ok K V h _ _ none children hrow
  have hvalid : validate (h + 1) (.node children) = .ok () := by
    simp only [validate, bind_eq_ok, ensure_eq_ok]
    exact ⟨(), hht, (), ⟨hne, hfan.2⟩, (), hch, _, hrow.nodeCount, hrow.room⟩
  refine ⟨_, ?_, ⟨hproper, hrow.sorted, hrow.room⟩, rfl⟩
  simp only [internal, bind_eq_ok, ensure_eq_ok]
  exact ⟨(), hht, (), ⟨hne, hfan.2⟩, (), hch, (), hvalid, _, hlink, rfl⟩

theorem linkLeaf_ok {leaf : V} (hv : Leaf.validate leaf = .ok ()) :
    ∃ node, linkLeaf leaf = .ok node ∧ Proper 0 node ∧ leaves 0 node.2 = [leaf] :=
  ⟨(⟨1, Leaf.key leaf, Leaf.key leaf⟩, .ofLeaf leaf), bind_eq_ok.mpr ⟨(), hv, rfl⟩, ⟨rfl, hv⟩, rfl⟩

/-! ## Reading a record -/

theorem Sound.validate : ∀ {h} {c : Linked K V h}, Sound h c → validate h c.2 = .ok ()
  | 0, _, hc => hc.proper.2
  | h + 1, c, hc => by
    obtain ⟨node, hnode, -, -⟩ := exists_internal hc.row hc.proper.fanout
    simp only [internal, bind_eq_ok] at hnode
    obtain ⟨_, -, _, -, _, -, _, hvalid, -⟩ := hnode
    exact hvalid

theorem Sound.requiredNode : ∀ {h} {c : Linked K V h}, Sound h c → requiredNode h c.2 = .ok ()
  | 0, _, _ => rfl
  | h + 1, c, hc => by
    have hht := hc.proper.height_le hc.room
    have hcounts : h + 2 ≤ 18 ∧ ∀ d ∈ c.2.children, 2 ^ h ≤ d.1.count := by
      refine ⟨by omega, fun d hd => ?_⟩
      have hp := hc.proper.child_mem hd
      exact hp.summary.count ▸ hp.two_pow_le
    rw [Admission.requiredNode, ensure_bind (show h < 64 by omega), ensure_true hcounts]

theorem Sound.authenticate (hc : Sound h c) : authenticate c = .ok () := by
  rw [Admission.authenticate, hc.requiredNode, ok_bind, hc.validate, mapError_ok, ok_bind,
    hc.proper.link, mapError_ok, ok_bind, ensure_true rfl]

theorem Sound.authenticatedChild (hc : Sound h c) : authenticatedChild c = .ok () := by
  rw [Admission.authenticatedChild, hc.authenticate, ok_bind, ensure_true hc.proper.canonicalFanout]

end

end Beryl.Admission
