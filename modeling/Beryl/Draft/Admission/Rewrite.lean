import Beryl.Draft.Admission.Insert

/-!
# Draft/Admission/Rewrite — replacing or removing one leaf

`rewriteTree` hands the leaf of a key to its caller and puts what it gets back into its place, which
may be nothing.  A record that loses its last child vanishes with it; one that is left with a single
child is *underfull* and shares that child with a neighbour; at the root an only child becomes the
root.

**Rewriting a leaf of a proper tree always succeeds and changes that leaf only**
(`exists_rewriteTree`).
-/

namespace Beryl.Admission

open Fallible List

variable {K V : Type} {h : ℕ} [LinearOrder K] [Leaf K V]

/-! ## One level -/

/-- `RewrittenSubtree`: what has become of a subtree of height `h`. -/
inductive Rewritten (K V : Type) : ℕ → Type
  | empty {h : ℕ} : Rewritten K V h
  | canonical {h : ℕ} (node : Linked K V h) : Rewritten K V h
  | underfull {h : ℕ} (children : Links K V h) : Rewritten K V (h + 1)

/-- Whether a subtree has been left with an only child. -/
def Rewritten.isUnderfull : Rewritten K V h → Bool
  | underfull _ => true
  | _ => false

/-- The children of a record after one of them has been rewritten.  The child of an underfull one
joins those of its left neighbour or, if it has none, those of its right neighbour. -/
def nextChildren (children : Links K V h) (index : ℕ) : Rewritten K V h → Prepared (Links K V h)
  | .empty => .ok (children.eraseIdx index)
  | .canonical node => .ok (children.set index node)
  | .underfull below => do
    ensure (below.length = 1) .pathAuthentication
    let siblingIndex := if 0 < index then index - 1 else 1
    let sibling ← required .pathAuthentication children[siblingIndex]?
    authenticatedChild sibling
    let combined := if siblingIndex < index then sibling.2.children ++ below
      else below ++ sibling.2.children
    let repaired ← (makeInternalLevel combined).mapError .schema
    return children.take (min siblingIndex index) ++ repaired
      ++ children.drop (max siblingIndex index + 1)

/-- The record over the remaining children, below the root. -/
def closeLevel : Links K V h → Prepared (Rewritten K V (h + 1))
  | [] => .ok .empty
  | [only] => .ok (.underfull [only])
  | next => do
    let replacement ← (makeInternalLevel next).mapError .schema
    let node ← required .pathAuthentication replacement.head?
    return .canonical node

/-- The loop of `rewrite_tree`, below the root. -/
def rewriteAlong (leaf : Rewritten K V 0) : (h : ℕ) → Path K V h → Prepared (Rewritten K V h)
  | 0, _ => .ok leaf
  | h + 1, (children, index, below) => do
    let rewritten ← rewriteAlong leaf h below
    ensure (¬ (rewritten.isUnderfull = true ∧ children.length = 1)) (.schema .nodeFanout)
    let next ← nextChildren children index rewritten
    closeLevel next

/-- The record over the remaining children, at the root.  The check of an only child is skipped in
the source for a record that has just been written; such a record passes it. -/
def closeRoot : Links K V h → Prepared (Root K V)
  | [] => .ok none
  | [only] => do
    authenticatedChild only
    (rootFrom only).mapError .schema
  | next => do
    let replacement ← (makeInternalLevel next).mapError .schema
    let node ← required .pathAuthentication replacement.head?
    (rootFrom node).mapError .schema

/-- The last round of the loop, at the root. -/
def rewriteTop (children : Links K V h) (index : ℕ) (rewritten : Rewritten K V h) :
    Prepared (Root K V) :=
  match rewritten, children with
  | .underfull [only], [_] => do
    authenticatedChild only
    (rootFrom only).mapError .schema
  | rewritten, children => do
    let next ← nextChildren children index rewritten
    closeRoot next

/-- The new root. -/
def rewriteRoot (leaf : Rewritten K V 0) : (h : ℕ) → Path K V h → Prepared (Root K V)
  | 0, _ =>
    match leaf with
    | .empty => .ok none
    | .canonical node => (rootFrom node).mapError .schema
  | h + 1, (children, index, below) => do
    let rewritten ← rewriteAlong leaf h below
    rewriteTop children index rewritten

/-- The new leaf, if there is one. -/
def rewriteLeaf : Option V → Prepared (Rewritten K V 0)
  | none => .ok .empty
  | some leaf => do
    let node ← (linkLeaf leaf).mapError .schema
    return .canonical node

/-- `rewrite_tree`. -/
def rewriteTree (root : Root K V) (key : K) (replacement : V → Checked (Option V)) :
    Prepared (Root K V) := do
  let path ← authenticateRoot root key
  match path with
  | none => .error .missingNode
  | some ⟨h, path⟩ =>
    ensure (Leaf.key (pathLeaf h path) = key) .missingNode
    let template ← (replacement (pathLeaf h path)).mapError .schema
    let leaf ← rewriteLeaf template
    rewriteRoot leaf h path

/-! ## What a level keeps -/

variable {ys : List V} {c : Linked K V h} {next : Links K V h}

/-- What has become of a subtree has the leaves `ys`. -/
def Rewritten.Over : {h : ℕ} → Rewritten K V h → List V → Prop
  | _, empty, ys => ys = []
  | h, canonical node, ys => Proper h node ∧ leaves h node.2 = ys
  | _, underfull children, ys => ∃ c, children = [c] ∧ Proper _ c ∧ leaves _ c.2 = ys

/-- A row of proper links below the limits. -/
structure Row (children : Links K V h) (ys : List V) : Prop where
  proper : ∀ c ∈ children, Proper h c
  fanout : children.length ≤ treeFanout
  leaves_eq : leavesOf children = ys

theorem SoundRow.middle {as bs : List V} (hp : ∀ d ∈ next, Proper h d)
    (hsort : Sorted (as ++ leavesOf next ++ bs))
    (hmax : (as ++ leavesOf next ++ bs).length ≤ maxAssociations) : SoundRow next := by
  rw [length_append, length_append] at hmax
  exact ⟨hp, (sorted_append.mp (sorted_append.mp hsort).1).2.1, by omega⟩

/-- The only child of an underfull record joins a neighbour's children. -/
theorem exists_repair {sibling : Linked K V (h + 1)} {combined : Links K V h}
    (hs : Sound (h + 1) sibling) (hlen : combined.length = sibling.2.children.length + 1)
    (hrow : SoundRow combined) : authenticatedChild sibling = .ok () ∧
      ∃ nodes, makeInternalLevel combined = .ok nodes ∧ (∀ n ∈ nodes, Proper (h + 1) n)
        ∧ leavesOf nodes = leavesOf combined ∧ nodes.length ≤ 2 := by
  have hfan := hs.proper.fanout
  obtain ⟨nodes, hn, hns, hnl, hcount⟩ := exists_makeInternalLevel hrow (by omega) (by omega)
  exact ⟨hs.authenticatedChild, nodes, hn, hns.proper, hnl, by rw [hcount]; split <;> omega⟩

/-- **The children of a record after one of them has been rewritten** have the leaves before, with
the rewritten ones in their place. -/
theorem exists_nextChildren {pre post : Links K V h} {rewritten : Rewritten K V h}
    (hrow : SoundRow (pre ++ c :: post))
    (hfan : 2 ≤ (pre ++ c :: post).length ∧ (pre ++ c :: post).length ≤ treeFanout)
    (hover : rewritten.Over ys) (hsort : Sorted (leavesOf pre ++ ys ++ leavesOf post))
    (hmax : (leavesOf pre ++ ys ++ leavesOf post).length ≤ maxAssociations) :
    ∃ next, nextChildren (pre ++ c :: post) pre.length rewritten = .ok next
      ∧ Row next (leavesOf pre ++ ys ++ leavesOf post) := by
  have hp := hrow.proper
  cases rewritten with
  | empty =>
    obtain rfl : ys = [] := hover
    refine ⟨pre ++ post, ?_, fun d hd => hp d ?_, ?_, ?_⟩
    · simp [nextChildren, eraseIdx_append_of_length_le]
    · rcases mem_append.mp hd with hd | hd <;> simp [hd]
    · simp only [length_append, length_cons] at hfan ⊢; omega
    · rw [leavesOf_append, append_nil]
  | canonical node =>
    obtain ⟨hnode, rfl⟩ := hover
    have hall := forall_mem_middle hp (forall_mem_singleton.mpr hnode)
    rw [append_assoc, singleton_append] at hall
    refine ⟨pre ++ node :: post, ?_, hall, ?_, leavesOf_split ..⟩
    · simp [nextChildren]
    · simpa using hfan.2
  | @underfull h below =>
    obtain ⟨g, rfl, hg, rfl⟩ := hover
    rcases eq_nil_or_concat' pre with rfl | ⟨pre, sibling, rfl⟩
    · -- there is no left neighbour: the right one takes the child in
      obtain ⟨sibling, post, rfl⟩ := exists_cons_of_ne_nil (show post ≠ [] by
        rintro rfl; simp at hfan)
      have hs : Sound (h + 1) sibling := hrow.mem (by simp)
      have hsplit : leavesOf ([] : List (Linked K V (h + 1))) ++ leaves h g.2
          ++ leavesOf (sibling :: post)
            = [] ++ leavesOf (g :: sibling.2.children) ++ leavesOf post := by
        simp
      rw [hsplit] at hsort hmax ⊢
      obtain ⟨hauth, nodes, hn, hnp, hnl, hlen⟩ := exists_repair hs rfl
        (.middle (forall_mem_cons.mpr ⟨hg, fun _ => hs.proper.child_mem⟩) hsort hmax)
      refine ⟨nodes ++ post, ?_, fun d hd => ?_, ?_, by rw [leavesOf_append, hnl, nil_append]⟩
      · simp only [nextChildren, nil_append, length_nil, lt_irrefl, if_false, getElem?_cons_succ,
          getElem?_cons_zero, required_some, ok_bind, hauth, Nat.not_lt_zero,
          ensure_true length_singleton, singleton_append, hn, mapError_ok]
        simp
      · rcases mem_append.mp hd with hd | hd
        · exact hnp d hd
        · exact hp d (by simp [hd])
      · simp only [length_append, length_nil, length_cons] at hfan ⊢; omega
    · have hs : Sound (h + 1) sibling := hrow.mem (by simp)
      have hsplit : leavesOf (pre ++ [sibling]) ++ leaves h g.2 ++ leavesOf post
          = leavesOf pre ++ leavesOf (sibling.2.children ++ [g]) ++ leavesOf post := by
        simp
      rw [hsplit] at hsort hmax ⊢
      obtain ⟨hauth, nodes, hn, hnp, hnl, hlen⟩ := exists_repair hs length_append
        (.middle (forall_mem_append.mpr ⟨fun _ => hs.proper.child_mem,
          forall_mem_singleton.mpr hg⟩) hsort hmax)
      have hbefore : pre ++ [sibling] ++ c :: post = pre ++ sibling :: c :: post := by simp
      rw [hbefore] at hp hfan ⊢
      refine ⟨pre ++ nodes ++ post, ?_, fun d hd => ?_, ?_, by
        rw [leavesOf_append, leavesOf_append, hnl]⟩
      · have hget : (pre ++ sibling :: c :: post)[pre.length]? = some sibling := by simp
        have hdrop : (pre ++ sibling :: c :: post).drop (pre.length + 1 + 1) = post := by
          rw [show pre ++ sibling :: c :: post = (pre ++ [sibling, c]) ++ post by simp]
          exact drop_left' (by simp)
        simp only [nextChildren, length_append, length_cons, length_nil, zero_add,
          Nat.succ_pos, if_true, Nat.add_sub_cancel, hget, required_some, ok_bind, hauth,
          Nat.lt_succ_self, ensure_true trivial, hn, mapError_ok]
        simp [hdrop]
      · simp only [mem_append] at hd
        rcases hd with (hd | hd) | hd
        · exact hp d (by simp [hd])
        · exact hnp d hd
        · exact hp d (by simp [hd])
      · simp only [length_append, length_cons] at hfan ⊢; omega

section

variable (hrow : Row next ys) (hsort : Sorted ys) (hmax : ys.length ≤ maxAssociations)
include hrow hsort hmax

theorem Row.sound : SoundRow next :=
  ⟨hrow.proper, hrow.leaves_eq ▸ hsort, hrow.leaves_eq ▸ hmax⟩

theorem exists_replacement (htwo : 2 ≤ next.length) :
    ∃ node, makeInternalLevel next = .ok [node] ∧ Sound (h + 1) node
      ∧ leaves (h + 1) node.2 = ys := by
  obtain ⟨nodes, hn, hns, hnl, hcount⟩ := exists_makeInternalLevel (hrow.sound hsort hmax) htwo
    (Nat.le_succ_of_le hrow.fanout)
  rw [if_neg (not_lt.mpr hrow.fanout)] at hcount
  obtain ⟨node, rfl⟩ := length_eq_one_iff.mp hcount
  exact ⟨node, hn, hns.mem (mem_singleton_self node), by
    rw [← leavesOf_singleton, hnl, hrow.leaves_eq]⟩

theorem exists_closeLevel : ∃ rewritten, closeLevel next = .ok rewritten ∧ rewritten.Over ys := by
  match next, hrow with
  | [], hrow => exact ⟨.empty, rfl, hrow.leaves_eq.symm⟩
  | [only], hrow =>
    exact ⟨.underfull [only], rfl, only, rfl, hrow.proper only (by simp),
      leavesOf_singleton only ▸ hrow.leaves_eq⟩
  | c :: d :: next, hrow =>
    obtain ⟨node, hn, hns, hnl⟩ := exists_replacement hrow hsort hmax (by simp)
    refine ⟨.canonical node, ?_, hns.proper, hnl⟩
    rw [closeLevel, hn, mapError_ok, ok_bind]
    · rfl
    · simp
    · simp

theorem exists_closeRoot : ∃ root, closeRoot next = .ok root ∧ Holds root ys := by
  match next, hrow with
  | [], hrow =>
    obtain rfl := hrow.leaves_eq
    exact ⟨none, rfl, holds_none⟩
  | [only], hrow =>
    have hs := (hrow.sound hsort hmax).mem (mem_singleton_self only)
    obtain ⟨root, hroot, hholds⟩ := hs.rootFrom
    refine ⟨root, ?_, hrow.leaves_eq ▸ leavesOf_singleton only ▸ hholds⟩
    rw [closeRoot, hs.authenticatedChild, ok_bind, hroot, mapError_ok]
  | c :: d :: next, hrow =>
    obtain ⟨node, hn, hns, rfl⟩ := exists_replacement hrow hsort hmax (by simp)
    obtain ⟨root, hroot, hholds⟩ := hns.rootFrom
    refine ⟨root, ?_, hholds⟩
    rw [closeRoot, hn, mapError_ok, ok_bind, head?_cons, required_bind, hroot, mapError_ok]
    · simp
    · simp

end

/-! ## Whole paths -/

variable {x : V} {key : K} {root : Root K V} {xs : List V}

/-- The leaves `xs` hold the leaf at the end of a path, and putting `ys` into its place gives what
`Q` says. -/
def Rewrites (path : Path K V h) (xs : List V) (Q : Rewritten K V 0 → List V → Prop) : Prop :=
  ∃ as bs, xs = as ++ pathLeaf h path :: bs ∧ ∀ (leaf : Rewritten K V 0) (ys : List V),
    leaf.Over ys → ys.length ≤ 1 → Sorted (as ++ ys ++ bs) → Q leaf (as ++ ys ++ bs)

/-- What rewriting a child gives for the record above it, where `hclose` says what is made of that
record's children. -/
theorem Rewrites.above {c : Linked K V (h + 1)} {path : Path K V (h + 1)}
    {Q : Rewritten K V 0 → List V → Prop} (hc : Sound (h + 1) c) (hl : Leads key (h + 1) c.2 path)
    (hbelow : ∀ {d} {below : Path K V h}, Sound h d → Leads key h d.2 below →
      Rewrites below (leaves h d.2) fun leaf ys =>
        ∃ rewritten, rewriteAlong leaf h below = .ok rewritten ∧ rewritten.Over ys)
    (hclose : ∀ {children index below leaf rewritten next ys}, path = (children, index, below) →
      2 ≤ children.length → rewriteAlong leaf h below = .ok rewritten →
      nextChildren children index rewritten = .ok next → Row next ys → Sorted ys →
      ys.length ≤ maxAssociations → Q leaf ys) : Rewrites path (leaves (h + 1) c.2) Q := by
  obtain ⟨pre, d, post, below, hsplit, rfl, -, -, hlow⟩ := hl
  have hrow := hsplit ▸ hc.row
  have hfan := hsplit ▸ hc.proper.fanout
  have hmax := hc.room
  rw [leaves_succ, hsplit, leavesOf_split] at hmax ⊢
  obtain ⟨as, bs, heq, hall⟩ := hbelow (hrow.mem (by simp)) hlow
  refine ⟨leavesOf pre ++ as, bs ++ leavesOf post, ?_, fun leaf ys hover hone hsort => ?_⟩
  · rw [heq]; simp [pathLeaf]
  · have hregroup : leavesOf pre ++ as ++ ys ++ (bs ++ leavesOf post)
        = leavesOf pre ++ (as ++ ys ++ bs) ++ leavesOf post := by simp
    rw [hregroup] at hsort ⊢
    obtain ⟨rewritten, hr, hrover⟩ := hall leaf ys hover hone
      (sorted_append.mp (sorted_append.mp hsort).1).2.1
    have hmax' : (leavesOf pre ++ (as ++ ys ++ bs) ++ leavesOf post).length ≤ maxAssociations := by
      simp only [heq, length_append, length_cons] at hmax ⊢; omega
    obtain ⟨next, hnext, hrow⟩ := exists_nextChildren hrow hfan hrover hsort hmax'
    exact hclose rfl hfan.1 hr hnext hrow hsort hmax'

/-- **Rewriting along a path changes the leaf at its end only.** -/
theorem exists_rewriteAlong : ∀ {h} {c : Linked K V h} {path},
    Sound h c → Leads key h c.2 path → Rewrites path (leaves h c.2) fun leaf ys =>
      ∃ rewritten, rewriteAlong leaf h path = .ok rewritten ∧ rewritten.Over ys
  | 0, c, path, _, hl => by
    obtain rfl : path = c.2.leaf := hl
    exact ⟨[], [], rfl, fun leaf ys hover _ _ => ⟨leaf, rfl, by simpa using hover⟩⟩
  | h + 1, c, path, hc, hl => by
    refine .above hc hl exists_rewriteAlong
      fun {children _ _ _ rewritten _ _} hpath htwo hr hnext hrow hsort hmax => ?_
    obtain ⟨top, htop, htopover⟩ := exists_closeLevel hrow hsort hmax
    refine ⟨top, ?_, htopover⟩
    have hwide : ¬ (rewritten.isUnderfull = true ∧ children.length = 1) := by
      rintro ⟨-, hlen⟩; omega
    rw [hpath, rewriteAlong, hr, ok_bind, ensure_bind hwide, hnext, ok_bind, htop]

/-- Only a root with a single child is treated apart. -/
theorem rewriteTop_eq {children : Links K V h} (htwo : 2 ≤ children.length) (index : ℕ)
    (rewritten : Rewritten K V h) :
    rewriteTop children index rewritten = nextChildren children index rewritten >>= closeRoot := by
  match children, htwo with
  | a :: b :: rest, _ =>
    cases rewritten with
    | empty | canonical node => rfl
    | underfull below => rcases below with _ | ⟨_, _ | ⟨_, _⟩⟩ <;> rfl

theorem exists_rewriteRoot : ∀ {h} {c : Linked K V h} {path},
    Sound h c → Leads key h c.2 path → Rewrites path (leaves h c.2) fun leaf ys =>
      ∃ root, rewriteRoot leaf h path = .ok root ∧ Holds root ys
  | 0, c, path, _, hl => by
    obtain rfl : path = c.2.leaf := hl
    refine ⟨[], [], rfl, fun leaf ys hover hone hsort => ?_⟩
    rw [nil_append, append_nil] at hsort ⊢
    cases leaf with
    | empty =>
      obtain rfl : ys = [] := hover
      exact ⟨none, rfl, holds_none⟩
    | canonical node =>
      obtain ⟨hnode, rfl⟩ := hover
      obtain ⟨root, hroot, hholds⟩ := Sound.rootFrom
        ⟨hnode, hsort, le_trans hone (show 1 ≤ maxAssociations by decide)⟩
      refine ⟨root, ?_, hholds⟩
      change (rootFrom node).mapError IndexError.schema = .ok root
      rw [hroot, mapError_ok]
  | h + 1, c, path, hc, hl => by
    refine .above hc hl exists_rewriteAlong fun hpath htwo hr hnext hrow hsort hmax => ?_
    obtain ⟨root, hroot, hholds⟩ := exists_closeRoot hrow hsort hmax
    exact ⟨root, by rw [hpath, rewriteRoot, hr, ok_bind, rewriteTop_eq htwo, hnext, ok_bind, hroot],
      hholds⟩

/-- Taking a leaf out, or putting another with its key into its place, keeps the order. -/
theorem Sorted.replace {as bs : List V} (hs : Sorted (as ++ x :: bs)) (hone : ys.length ≤ 1)
    (hkey : ∀ y ∈ ys, (Leaf.key y : K) = Leaf.key x) : Sorted (as ++ ys ++ bs) := by
  obtain ⟨ha, hxb, hab⟩ := sorted_append.mp hs
  obtain ⟨hx, hb⟩ := pairwise_cons.mp hxb
  match ys, hone with
  | [], _ =>
    rw [append_nil]
    exact sorted_append.mpr ⟨ha, hb, fun a hma b hmb => hab a hma b (.tail _ hmb)⟩
  | [y], _ =>
    have hy : (Leaf.key y : K) = Leaf.key x := hkey y (by simp)
    rw [append_assoc, singleton_append]
    refine sorted_append.mpr ⟨ha, pairwise_cons.mpr ⟨fun b hmb => ?_, hb⟩,
      fun a hma b hmb => ?_⟩
    · rw [hy]; exact hx b hmb
    · rcases mem_cons.mp hmb with rfl | hmb
      · rw [hy]; exact hab a hma x (by simp)
      · exact hab a hma b (.tail _ hmb)

/-- **Rewriting a leaf of a proper tree always succeeds and changes that leaf only.** -/
theorem exists_rewriteTree (hr : Holds root xs) (hx : x ∈ xs)
    {replacement : V → Checked (Option V)} {template : Option V}
    (hrep : replacement x = .ok template)
    (hvalid : ∀ y ∈ template, Leaf.validate y = .ok () ∧ (Leaf.key y : K) = Leaf.key x) :
    ∃ root' as bs, xs = as ++ x :: bs ∧ rewriteTree root (Leaf.key x) replacement = .ok root'
      ∧ Holds root' (as ++ template.toList ++ bs) := by
  cases root with
  | none =>
    obtain rfl : xs = [] := hr.sound
    cases hx
  | some r =>
    obtain ⟨path, hpath, hleads⟩ := hr.authenticateRoot (Leaf.key x)
    obtain ⟨-, rfl, link, hs⟩ := hr.record
    have hleaf := hleads.eq_of_mem hs x hx rfl
    obtain ⟨as, bs, hsplit, hall⟩ := exists_rewriteRoot hs hleads
    dsimp only at hsplit
    rw [hleaf] at hsplit
    have hnew : ∃ leaf : Rewritten K V 0, rewriteLeaf template = .ok leaf
        ∧ leaf.Over template.toList := by
      cases template with
      | none => exact ⟨.empty, rfl, rfl⟩
      | some y =>
        obtain ⟨node, hnode, hnodep, hnodel⟩ := linkLeaf_ok (hvalid y rfl).1
        exact ⟨.canonical node, by rw [rewriteLeaf, hnode, mapError_ok, ok_bind]; rfl, hnodep,
          hnodel⟩
    obtain ⟨leaf, hleafeq, hover⟩ := hnew
    have hone : template.toList.length ≤ 1 := by cases template <;> simp
    have hsort' : Sorted (as ++ template.toList ++ bs) :=
      (hsplit ▸ hs.sorted).replace hone fun y hy => (hvalid y (by simpa using hy)).2
    obtain ⟨root, hroot, hholds⟩ := hall leaf _ hover hone hsort'
    refine ⟨root, as, bs, hsplit, ?_, hholds⟩
    rw [rewriteTree, hpath, ok_bind]
    dsimp only
    rw [hleaf, ensure_bind rfl, hrep, mapError_ok, ok_bind, hleafeq, ok_bind, hroot]

/-! ## The least leaf -/

/-- The loop of `least_leaf`. -/
def leastBelow : (h : ℕ) → Bool → Tree K V h → Prepared V
  | 0, _, tree => .ok tree.leaf
  | h + 1, isRoot, tree => do
    ensure (isRoot ∨ 2 ≤ tree.children.length) (.schema .nodeFanout)
    let expected ← required .pathAuthentication tree.children.head?
    requiredNode h expected.2
    let link ← (child h expected.2).mapError .schema
    ensure (link = expected.1) .pathAuthentication
    leastBelow h false expected.2

/-- `least_leaf`. -/
def leastLeaf (root : Root K V) : Prepared V := do
  (validateProfileRoot root).mapError .schema
  let root ← required .missingNode root
  requiredNode root.height root.node
  let count ← (nodeCount root.height root.node).mapError .schema
  ensure (count = root.count) .pathAuthentication
  leastBelow root.height true root.node

theorem leastBelow_ok : ∀ {h} {c} isRoot, Sound h c →
    (leaves h c.2).head? = some x → leastBelow h isRoot c.2 = .ok x
  | 0, c, _, _, hx => congrArg Except.ok (Option.some.inj hx)
  | h + 1, c, isRoot, hc, hx => by
    have hfan := hc.proper.fanout.1
    match hcs : c.2.children with
    | [] => simp [hcs] at hfan
    | d :: ds =>
      have hd : Sound h d := hc.row.mem (hcs ▸ by simp)
      rw [leaves_succ, hcs, leavesOf_cons, head?_append_of_ne_nil _ hd.proper.ne_nil] at hx
      have hbelow := leastBelow_ok false hd hx
      have htwo : isRoot ∨ 2 ≤ (d :: ds).length := .inr (hcs ▸ hfan)
      rw [leastBelow, hcs, ensure_bind htwo, head?_cons, required_bind, hd.requiredNode, ok_bind,
        hd.proper.link, mapError_ok, ok_bind, ensure_bind rfl, hbelow]

/-- **The least leaf is the first one.** -/
theorem Holds.leastLeaf (hr : Holds root (x :: xs)) : leastLeaf root = .ok x := by
  have hroot := hr.validateProfileRoot
  cases root with
  | none => exact absurd hr.sound (by simp)
  | some r =>
    obtain ⟨hcount, hlvs, link, hs⟩ := hr.record
    rw [← hlvs] at hcount
    have hleast := leastBelow_ok true hs (by rw [hlvs]; rfl)
    simp only [Admission.leastLeaf, hroot, mapError_ok, ok_bind, required_some, hs.requiredNode,
      hs.proper.nodeCount, ensure_true hcount.symm, hleast]

end Beryl.Admission
