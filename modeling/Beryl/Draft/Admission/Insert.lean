import Beryl.Draft.Admission.Tree

/-!
# Draft/Admission/Insert — paths, and the insertion of a leaf

Both edits of an admission tree first read the path to a key and then write new records from the
leaf up.  An insertion puts the new leaf beside the one the path ends at; a record that grows past
128 children is cut in half, and a root that is cut gets a new root above it.

**A leaf with a fresh key can be inserted into every proper tree, and the leaves afterwards are the
leaves before with the new one in its place** (`exists_editTree`): a permutation of the two that is
in order again.
-/

namespace Beryl.Admission

open Fallible Search List

variable {K V : Type} {h : ℕ} [LinearOrder K] [Leaf K V]

/-! ## Paths -/

variable {xs ys : List V} {children : Links K V h}

/-- The steps of `AuthenticatedPath`: at each internal record its children and the index of the one
the path goes on to, and at the end a leaf. -/
def Path (K V : Type) : ℕ → Type
  | 0 => V
  | h + 1 => Links K V h × ℕ × Path K V h

/-- The leaf a path ends at. -/
def pathLeaf : (h : ℕ) → Path K V h → V
  | 0, leaf => leaf
  | h + 1, (_, _, below) => pathLeaf h below

/-- `select_child`: the first child that reaches up to the key, or the last one. -/
def selectChild (children : Links K V h) (key : K) : Prepared (ℕ × Linked K V h) :=
  match position (fun c => decide (key ≤ c.1.last)) children 0 with
  | some found => .ok found
  | none => (required .pathAuthentication children.getLast?).map fun c => (children.length - 1, c)

/-- The loop of `authenticate_path`. -/
def authenticatePath (key : K) : (h : ℕ) → Bool → Tree K V h → Prepared (Path K V h)
  | 0, _, tree => .ok tree.leaf
  | h + 1, isRoot, tree => do
    ensure ((isRoot ∨ 2 ≤ tree.children.length) ∧ tree.children ≠ []
      ∧ tree.children.length ≤ treeFanout) (.schema .nodeFanout)
    let (index, expected) ← selectChild tree.children key
    authenticate expected
    let below ← authenticatePath key h false expected.2
    return (tree.children, index, below)

/-- The path of a tree that a key leads along. -/
def Leads (key : K) : (h : ℕ) → Tree K V h → Path K V h → Prop
  | 0, tree, path => path = tree.leaf
  | h + 1, tree, path => ∃ pre c post below, tree.children = pre ++ c :: post
      ∧ path = (pre ++ c :: post, pre.length, below) ∧ (∀ d ∈ pre, d.1.last < key)
      ∧ (key ≤ c.1.last ∨ post = []) ∧ Leads key h c.2 below

omit [Leaf K V] in
theorem selectChild_ok (hne : children ≠ []) (key : K) :
    ∃ pre c post, children = pre ++ c :: post ∧ selectChild children key = .ok (pre.length, c)
      ∧ (∀ d ∈ pre, d.1.last < key) ∧ (key ≤ c.1.last ∨ post = []) := by
  unfold selectChild
  cases hpos : position (fun c => decide (key ≤ c.1.last)) children 0 with
  | some found =>
    obtain ⟨index, c⟩ := found
    obtain ⟨pre, post, rfl, rfl, hc, hpre⟩ := position_eq_some hpos
    refine ⟨pre, c, post, rfl, ?_, fun d hd => ?_, .inl (of_decide_eq_true hc)⟩
    · rw [zero_add]
    · exact not_le.mp (of_decide_eq_false (hpre d hd))
  | none =>
    have hall := position_eq_none.mp hpos
    obtain ⟨pre, c, rfl⟩ := (eq_nil_or_concat' children).resolve_left hne
    refine ⟨pre, c, [], rfl, ?_, fun d hd => ?_, .inr rfl⟩
    · simp [Except.map]
    · exact not_le.mp (of_decide_eq_false (hall d (mem_append_left _ hd)))

omit [LinearOrder K] [Leaf K V] in
theorem leavesOf_split (pre : Links K V h) (c : Linked K V h) (post : Links K V h) :
    leavesOf (pre ++ c :: post) = leavesOf pre ++ leaves h c.2 ++ leavesOf post := by
  rw [leavesOf_append, leavesOf_cons, append_assoc]

variable {c : Linked K V h} {x : V}

theorem Sound.selectChild {c : Linked K V (h + 1)} (hc : Sound (h + 1) c) (key : K) :
    ∃ index d, selectChild c.2.children key = .ok (index, d) ∧ Sound h d
      ∧ ∀ {below}, Leads key h d.2 below → Leads key (h + 1) c.2 (c.2.children, index, below) := by
  have hne : c.2.children ≠ [] := length_pos_iff.mp (by have := hc.proper.fanout.1; omega)
  obtain ⟨pre, d, post, hsplit, hsel, hpre, hlast⟩ := selectChild_ok hne key
  exact ⟨_, d, hsel, hc.row.mem (hsplit ▸ by simp),
    fun hl => ⟨pre, d, post, _, hsplit, by rw [hsplit], hpre, hlast, hl⟩⟩

/-- **Every path of a sound tree can be read.** -/
theorem authenticatePath_ok (key : K) : ∀ {h} {c : Linked K V h} (isRoot : Bool), Sound h c →
    ∃ path, authenticatePath key h isRoot c.2 = .ok path ∧ Leads key h c.2 path
  | 0, c, _, _ => ⟨c.2.leaf, rfl, rfl⟩
  | h + 1, c, isRoot, hc => by
    obtain ⟨index, d, hsel, hd, hleads⟩ := hc.selectChild key
    obtain ⟨below, hbelow, hl⟩ := authenticatePath_ok key false hd
    refine ⟨_, ?_, hleads hl⟩
    have hfan := hc.proper.fanout
    have hshape : (isRoot ∨ 2 ≤ c.2.children.length) ∧ c.2.children ≠ []
        ∧ c.2.children.length ≤ treeFanout :=
      ⟨.inr hfan.1, length_pos_iff.mp (by omega), hfan.2⟩
    exact bind_eq_ok.mpr ⟨(), ensure_true hshape, bind_eq_ok.mpr ⟨_, hsel, bind_eq_ok.mpr
      ⟨(), hd.authenticate, bind_eq_ok.mpr ⟨below, hbelow, rfl⟩⟩⟩⟩

/-! ### Where a key lies -/

section

variable {key : K} {pre post : Links K V h} {c : Linked K V h}

variable (hrow : SoundRow (pre ++ c :: post))
include hrow

/-- What lies before the selected child lies before the key… -/
theorem lt_of_mem_before (hpre : ∀ d ∈ pre, d.1.last < key) (hx : x ∈ leavesOf pre) :
    Leaf.key x < key := by
  obtain ⟨d, hd, hxd⟩ := mem_flatMap.mp hx
  have hsound := hrow.mem (mem_append_left _ hd)
  exact (hsound.proper.summary.le_last hsound.sorted hxd).trans_lt (hpre d hd)

/-- …and what lies behind it, behind the key. -/
theorem lt_of_mem_after (hlast : key ≤ c.1.last ∨ post = []) (hx : x ∈ leavesOf post) :
    key < Leaf.key x := by
  rcases hlast with hlast | rfl
  · obtain ⟨y, hy, heq⟩ := (hrow.proper c (by simp)).summary.exists_last
    have hsort := hrow.sorted
    rw [leavesOf_split] at hsort
    exact (hlast.trans_eq heq).trans_lt
      ((sorted_append.mp hsort).2.2 y (mem_append_right _ hy) x hx)
  · cases hx

end

/-- The path of a key that a leaf has leads to that leaf. -/
theorem Leads.eq_of_mem {key : K} : ∀ {h} {c} {path : Path K V h},
    Leads key h c.2 path → Sound h c → ∀ x ∈ leaves h c.2, Leaf.key x = key → pathLeaf h path = x
  | 0, c, path, hl, _, x, hx, _ => by
    rw [leaves_zero, mem_singleton] at hx
    exact (show path = c.2.leaf from hl).trans hx.symm
  | h + 1, c, path, hl, hc, x, hx, hkey => by
    obtain ⟨pre, d, post, below, hsplit, rfl, hpre, hlast, hbelow⟩ := hl
    have hrow := hsplit ▸ hc.row
    rw [leaves_succ, hsplit, leavesOf_split, mem_append, mem_append] at hx
    rcases hx with (hx | hx) | hx
    · exact absurd hkey (lt_of_mem_before hrow hpre hx).ne
    · exact hbelow.eq_of_mem (hrow.mem (by simp)) x hx hkey
    · exact absurd hkey (lt_of_mem_after hrow hlast hx).ne'

omit [Leaf K V] in
theorem Leads.pathLeaf_mem {key : K} : ∀ {h} {tree} {path : Path K V h},
    Leads key h tree path → pathLeaf h path ∈ leaves h tree
  | 0, tree, path, hl => mem_singleton.mpr hl
  | h + 1, tree, path, hl => by
    obtain ⟨pre, d, post, below, hsplit, rfl, -, -, hbelow⟩ := hl
    exact mem_flatMap.mpr ⟨d, hsplit ▸ by simp, hbelow.pathLeaf_mem⟩

/-! ## New records -/

/-- `make_internal_level`: one record over a row of children, or two over its halves. -/
def makeInternalLevel (children : Links K V h) : Checked (List (Linked K V (h + 1))) :=
  if treeFanout < children.length then do
    let left ← internal (children.take (children.length / 2))
    let right ← internal (children.drop (children.length / 2))
    return [left, right]
  else do
    let node ← internal children
    return [node]

theorem exists_makeInternalLevel (hrow : SoundRow children)
    (htwo : 2 ≤ children.length) (hfan : children.length ≤ treeFanout + 1) :
    ∃ nodes, makeInternalLevel children = .ok nodes ∧ SoundRow nodes
      ∧ leavesOf nodes = leavesOf children
      ∧ nodes.length = if treeFanout < children.length then 2 else 1 := by
  have hfan : children.length ≤ 129 := hfan
  unfold makeInternalLevel
  by_cases hlen : treeFanout < children.length
  · have hlen' : 128 < children.length := hlen
    rw [if_pos hlen, if_pos hlen]
    have hsplit := take_append_drop (children.length / 2) children
    generalize hk : children.length / 2 = k at hsplit ⊢
    obtain ⟨hleft, hright⟩ := SoundRow.append (hsplit.symm ▸ hrow)
    obtain ⟨left, hl, hls, hll⟩ := exists_internal hleft
      (show 2 ≤ (children.take k).length ∧ (children.take k).length ≤ 128 by
        rw [length_take]; omega)
    obtain ⟨right, hr, hrs, hrl⟩ := exists_internal hright
      (show 2 ≤ (children.drop k).length ∧ (children.drop k).length ≤ 128 by
        rw [length_drop]; omega)
    have hlvs : leavesOf [left, right] = leavesOf children := by
      rw [leavesOf_cons, leavesOf_singleton, hll, hrl, ← leavesOf_append, hsplit]
    refine ⟨[left, right], by rw [hl, ok_bind, hr]; rfl, hrow.over ?_ hlvs, hlvs, rfl⟩
    simpa using ⟨hls.proper, hrs.proper⟩
  · rw [if_neg hlen, if_neg hlen]
    obtain ⟨node, hn, hns, hnl⟩ := exists_internal hrow ⟨htwo, not_lt.mp hlen⟩
    have hlvs := (leavesOf_singleton node).trans hnl
    exact ⟨[node], by rw [hn]; rfl, hrow.over (by simpa using hns.proper) hlvs, hlvs, rfl⟩

/-- `sort_children`. -/
def sortChildren (children : Links K V h) : Prepared (Links K V h) :=
  let sorted := children.mergeSort fun a b => decide (a.1.first ≤ b.1.first)
  if sorted.IsChain fun a b => a.1.first < b.1.first then .ok sorted
  else .error (.schema .invalidEnvelope)

omit [LinearOrder K] [Leaf K V] in
theorem leavesOf_zero (children : List (Linked K V 0)) :
    leavesOf children = children.map fun c => c.2.leaf :=
  (map_eq_flatMap ..).symm

theorem Proper.first_eq {c : Linked K V 0} (hc : Proper 0 c) : c.1.first = Leaf.key c.2.leaf := by
  obtain ⟨x, hx, heq⟩ := hc.summary.first
  cases hx
  exact heq

/-- **A row of leaves with distinct keys is put in order.** -/
theorem sortChildren_ok {children : List (Linked K V 0)} (hp : ∀ c ∈ children, Proper 0 c)
    (hkeys : (leavesOf children).Pairwise fun x y => (Leaf.key x : K) ≠ Leaf.key y) :
    ∃ sorted, sortChildren children = .ok sorted ∧ sorted.Perm children
      ∧ Sorted (leavesOf sorted) := by
  have hperm := mergeSort_perm children fun a b => decide (a.1.first ≤ b.1.first)
  have hle := @pairwise_mergeSort _ (fun a b : Linked K V 0 => decide (a.1.first ≤ b.1.first))
    (fun a b c hab hbc => decide_eq_true (le_trans (of_decide_eq_true hab) (of_decide_eq_true hbc)))
    (fun a b => by simpa using le_total a.1.first b.1.first) children
  unfold sortChildren
  generalize children.mergeSort (fun a b => decide (a.1.first ≤ b.1.first)) = sorted at hperm hle ⊢
  have hmem : ∀ c ∈ sorted, Proper 0 c := fun c hc => hp c (hperm.mem_iff.mp hc)
  have hne : sorted.Pairwise fun a b => (Leaf.key a.2.leaf : K) ≠ Leaf.key b.2.leaf := by
    rw [leavesOf_zero, pairwise_map] at hkeys
    exact (hperm.pairwise_iff fun hab => hab.symm).mpr hkeys
  have hlt : sorted.Pairwise fun a b => a.1.first < b.1.first := by
    refine (hle.and hne).imp_of_mem fun ha hb hab => ?_
    refine lt_of_le_of_ne (of_decide_eq_true hab.1) ?_
    rw [(hmem _ ha).first_eq, (hmem _ hb).first_eq]
    exact hab.2
  refine ⟨sorted, if_pos hlt.isChain, hperm, ?_⟩
  rw [leavesOf_zero, Sorted, pairwise_map]
  refine hlt.imp_of_mem fun ha hb hab => ?_
  rw [← (hmem _ ha).first_eq, ← (hmem _ hb).first_eq]
  exact hab

/-! ## Insertion along a path -/

variable {leaf : V}

/-- The loop of `edit_tree`: the records that replace the one a path starts at. -/
def insertAlong (leaf : Linked K V 0) :
    (h : ℕ) → Path K V (h + 1) → Prepared (List (Linked K V (h + 1)))
  | 0, (children, _, _) => do
    let next ← sortChildren (children ++ [leaf])
    (makeInternalLevel next).mapError .schema
  | h + 1, (children, index, below) => do
    let replacements ← insertAlong leaf h below
    let next := children.take index ++ replacements ++ children.drop (index + 1)
    (makeInternalLevel next).mapError .schema

/-- The leaves of a tree with one more leaf. -/
structure Inserted (leaf : V) (xs ys : List V) : Prop where
  perm : ys.Perm (leaf :: xs)
  sorted : Sorted ys

/-- A leaf inserted in the middle, between what lies before its key and what lies behind. -/
theorem Inserted.between {pre post : List V} (hi : Inserted leaf xs ys)
    (hsort : Sorted (pre ++ xs ++ post)) (hpre : ∀ x ∈ pre, (Leaf.key x : K) < Leaf.key leaf)
    (hpost : ∀ x ∈ post, (Leaf.key leaf : K) < Leaf.key x) :
    Inserted leaf (pre ++ xs ++ post) (pre ++ ys ++ post) := by
  obtain ⟨hleft, hright, hacross⟩ := sorted_append.mp hsort
  obtain ⟨hpres, -, hin⟩ := sorted_append.mp hleft
  refine ⟨?_, sorted_append.mpr ⟨sorted_append.mpr ⟨hpres, hi.sorted, fun x hx y hy => ?_⟩, hright,
    fun x hx y hy => ?_⟩⟩
  · have hmid : (pre ++ ys ++ post).Perm (pre ++ (leaf :: xs) ++ post) :=
      (hi.perm.append_left pre).append_right post
    refine hmid.trans ?_
    simp only [append_assoc, cons_append]
    exact perm_middle
  · rcases mem_cons.mp (hi.perm.mem_iff.mp hy) with rfl | hy
    · exact hpre x hx
    · exact hin x hx y hy
  · rcases mem_append.mp hx with hx | hx
    · exact hacross x (mem_append_left _ hx) y hy
    · rcases mem_cons.mp (hi.perm.mem_iff.mp hx) with rfl | hx
      · exact hpost y hy
      · exact hacross x (mem_append_right _ hx) y hy

theorem Inserted.length (hi : Inserted leaf xs ys) : ys.length = xs.length + 1 := hi.perm.length_eq

/-- A fresh leaf beside a row of leaves is put in its place. -/
theorem exists_sortChildren {leaf : Linked K V 0} (hleaf : Proper 0 leaf)
    {children : List (Linked K V 0)} (hrow : SoundRow children)
    (hmax : (leavesOf children).length < maxAssociations)
    (hfresh : ∀ x ∈ leavesOf children, Leaf.key x ≠ (Leaf.key leaf.2.leaf : K)) :
    ∃ next, sortChildren (children ++ [leaf]) = .ok next ∧ SoundRow next
      ∧ next.length = children.length + 1
      ∧ Inserted leaf.2.leaf (leavesOf children) (leavesOf next) := by
  have hp : ∀ e ∈ children ++ [leaf], Proper 0 e :=
    forall_mem_append.mpr ⟨hrow.proper, forall_mem_singleton.mpr hleaf⟩
  have hlast : leavesOf (children ++ [leaf]) = leavesOf children ++ [leaf.2.leaf] := by
    rw [leavesOf_append]; rfl
  have hkeys : (leavesOf (children ++ [leaf])).Pairwise fun x y =>
      (Leaf.key x : K) ≠ Leaf.key y := by
    rw [hlast, pairwise_append]
    refine ⟨hrow.sorted.imp fun hlt => hlt.ne, pairwise_singleton .., fun x hx y hy => ?_⟩
    rw [mem_singleton.mp hy]
    exact hfresh x hx
  obtain ⟨next, hnext, hperm, hnexts⟩ := sortChildren_ok hp hkeys
  have hlvs : (leavesOf next).Perm (leavesOf (children ++ [leaf])) := hperm.flatMap_right _
  rw [hlast] at hlvs
  have hi : Inserted leaf.2.leaf (leavesOf children) (leavesOf next) :=
    ⟨hlvs.trans (perm_append_singleton ..), hnexts⟩
  refine ⟨next, hnext, ⟨fun e he => hp e (hperm.mem_iff.mp he), hnexts, hi.length ▸ hmax⟩, ?_, hi⟩
  rw [hperm.length_eq, length_append, length_singleton]

/-- **Inserting along the path of a fresh key leaves one record or two, over the leaves before and
the new one.** -/
theorem exists_insertAlong {leaf : Linked K V 0} (hleaf : Proper 0 leaf) :
    ∀ {h} {c} {path}, Sound (h + 1) c → (leaves (h + 1) c.2).length < maxAssociations →
      Leads (Leaf.key leaf.2.leaf) (h + 1) c.2 path →
      (∀ x ∈ leaves (h + 1) c.2, Leaf.key x ≠ (Leaf.key leaf.2.leaf : K)) →
      ∃ nodes, insertAlong leaf h path = .ok nodes ∧ SoundRow nodes
        ∧ Inserted leaf.2.leaf (leaves (h + 1) c.2) (leavesOf nodes)
        ∧ (nodes.length = 1 ∨ nodes.length = 2)
  | 0, c, path, hc, hmax, hl, hfresh => by
    obtain ⟨pre, d, post, below, hsplit, rfl, -, -, -⟩ := hl
    rw [← hsplit]
    obtain ⟨next, hnext, hrow, hlen, hi⟩ := exists_sortChildren hleaf hc.row hmax hfresh
    have hfan := hc.proper.fanout
    obtain ⟨nodes, hn, hns, hnl, hcount⟩ := exists_makeInternalLevel hrow (by omega) (by omega)
    refine ⟨nodes, ?_, hns, hnl ▸ hi, ?_⟩
    · rw [insertAlong, hnext, ok_bind, hn, mapError_ok]
    · rw [hcount]; split <;> simp
  | h + 1, c, path, hc, hmax, hl, hfresh => by
    obtain ⟨pre, d, post, below, hsplit, rfl, hpre, hlast, hbelow⟩ := hl
    have hrow := hsplit ▸ hc.row
    have hfan := hsplit ▸ hc.proper.fanout
    rw [leaves_succ, hsplit, leavesOf_split] at hmax hfresh ⊢
    have hdmax : (leaves (h + 1) d.2).length < maxAssociations := by
      simp only [length_append] at hmax; omega
    obtain ⟨nodes, hn, hns, hni, hcount⟩ := exists_insertAlong hleaf (hrow.mem (by simp)) hdmax
      hbelow fun x hx => hfresh x (mem_append_left _ (mem_append_right _ hx))
    have hi := hni.between (leavesOf_split pre d post ▸ hrow.sorted)
      (fun _ => lt_of_mem_before hrow hpre) fun _ => lt_of_mem_after hrow hlast
    have hnext : leavesOf (pre ++ nodes ++ post)
        = leavesOf pre ++ leavesOf nodes ++ leavesOf post := by
      rw [leavesOf_append, leavesOf_append]
    have hlen : (pre ++ nodes ++ post).length + 1 = (pre ++ d :: post).length + nodes.length := by
      simp only [length_append, length_cons]; omega
    obtain ⟨tops, ht, hts, htl, htcount⟩ := exists_makeInternalLevel
      ⟨forall_mem_middle hrow.proper hns.proper, hnext ▸ hi.sorted, by
        rw [hnext, hi.length]; exact hmax⟩ (by omega) (by omega)
    refine ⟨tops, ?_, hts, htl ▸ hnext ▸ hi, ?_⟩
    · have htake : (pre ++ d :: post).take pre.length = pre := by simp
      have hdrop : (pre ++ d :: post).drop (pre.length + 1) = post := by simp
      rw [insertAlong, hn, ok_bind, htake, hdrop]
      dsimp only
      rw [ht, mapError_ok]
    · rw [htcount]; split <;> simp

/-! ## Roots -/

/-- `DraftMarkerAdmissionRootV1` of a tree that is not empty. -/
structure Rooted (K V : Type) where
  height : ℕ
  count : ℕ
  node : Tree K V height

/-- `DraftMarkerAdmissionRootV1`. -/
abbrev Root (K V : Type) := Option (Rooted K V)

/-- `validate_shape`. -/
def validateShape : Root K V → Checked Unit
  | none => .ok ()
  | some root =>
    ensure (root.height + 1 ≤ treeMaxHeight ∧ 0 < root.count ∧ root.count ≤ maxAssociations)
      .invalidRoot

/-- `validate_profile_root`. -/
def validateProfileRoot : Root K V → Checked Unit
  | none => .ok ()
  | some root => do
    validateShape (some root)
    ensure (root.height + 1 ≤ 18 ∧ root.count ≤ maxAssociations) .invalidCount
    ensure (1 ≤ root.height → 2 ^ (root.height - 1) ≤ root.count) .invalidCount

/-- `root_from_child` and `root_from_node`. -/
def rootFrom (node : Linked K V h) : Checked (Root K V) := do
  ensure (h + 1 ≤ treeMaxHeight ∧ 0 < node.1.count ∧ node.1.count ≤ maxAssociations) .invalidRoot
  return some ⟨h, node.1.count, node.2⟩

/-- **A root holds the leaves `xs`.** -/
structure Holds (root : Root K V) (xs : List V) : Prop where
  sorted : Sorted xs
  length_le : xs.length ≤ maxAssociations
  sound : match root with
    | none => xs = []
    | some r => r.count = xs.length ∧ leaves r.height r.node = xs
      ∧ ∃ link, Proper r.height (link, r.node)

theorem holds_none : Holds (none : Root K V) [] := ⟨List.Pairwise.nil, Nat.zero_le _, rfl⟩

variable {r : Rooted K V}

theorem Holds.record (hr : Holds (some r) xs) :
    r.count = xs.length ∧ leaves r.height r.node = xs ∧ ∃ link, Sound r.height (link, r.node) := by
  obtain ⟨hsort, hmax, hcount, rfl, link, hp⟩ := hr
  exact ⟨hcount, rfl, link, hp, hsort, hmax⟩

theorem Sound.rootFrom {node : Linked K V h} (hn : Sound h node) :
    ∃ root, rootFrom node = .ok root ∧ Holds root (leaves h node.2) := by
  have hcount := hn.proper.summary.count
  have hht := hn.proper.height_le hn.room
  have hshape : h + 1 ≤ treeMaxHeight ∧ 0 < node.1.count ∧ node.1.count ≤ maxAssociations :=
    ⟨le_trans (by omega) (show 17 ≤ treeMaxHeight by decide),
      hcount ▸ length_pos_iff.mpr hn.proper.ne_nil, hcount ▸ hn.room⟩
  exact ⟨_, bind_eq_ok.mpr ⟨(), ensure_true hshape, rfl⟩, hn.sorted, hn.room, hcount, rfl, _,
    hn.proper⟩

/-- `authenticate_path`: the path of a key from a root. -/
def authenticateRoot (root : Root K V) (key : K) : Prepared (Option (Σ h, Path K V h)) := do
  (validateProfileRoot root).mapError .schema
  match root with
  | none => return none
  | some root =>
    requiredNode root.height root.node
    (validate root.height root.node).mapError .schema
    let count ← (nodeCount root.height root.node).mapError .schema
    ensure (count = root.count) .pathAuthentication
    let path ← authenticatePath key root.height true root.node
    return some ⟨root.height, path⟩

variable {root : Root K V}

theorem Holds.validateShape (hr : Holds root xs) : validateShape root = .ok () := by
  cases root with
  | none => rfl
  | some r =>
    obtain ⟨hcount, rfl, link, hs⟩ := hr.record
    have hht := hs.proper.height_le hs.room
    exact ensure_true ⟨le_trans (by omega) (show 17 ≤ treeMaxHeight by decide),
      hcount ▸ length_pos_iff.mpr hs.proper.ne_nil, hcount ▸ hs.room⟩

theorem Holds.validateProfileRoot (hr : Holds root xs) : validateProfileRoot root = .ok () := by
  cases root with
  | none => rfl
  | some r =>
    obtain ⟨hcount, rfl, link, hs⟩ := hr.record
    have hht := hs.proper.height_le hs.room
    have hhalf : 1 ≤ r.height → 2 ^ (r.height - 1) ≤ r.count := fun _ =>
      (Nat.pow_le_pow_right (by decide) (Nat.sub_le _ 1)).trans (hcount ▸ hs.proper.two_pow_le)
    exact bind_eq_ok.mpr ⟨(), hr.validateShape, bind_eq_ok.mpr
      ⟨(), ensure_true ⟨by omega, hcount ▸ hs.room⟩, ensure_true hhalf⟩⟩

theorem Proper.nodeCount (hc : Proper h c) : nodeCount h c.2 = .ok (leaves h c.2).length := by
  have hlink := hc.link
  rw [child, bind_eq_ok] at hlink
  obtain ⟨count, hn, hrest⟩ := hlink
  obtain ⟨_, -, heq⟩ := bind_eq_ok.mp hrest
  rw [hn, ← hc.summary.count, ← Except.ok.inj heq]

/-- The path of every key can be read from a sound root. -/
theorem Holds.authenticateRoot (hr : Holds (some r) xs) (key : K) :
    ∃ path, authenticateRoot (some r) key = .ok (some ⟨r.height, path⟩)
      ∧ Leads key r.height r.node path := by
  obtain ⟨hcount, rfl, link, hs⟩ := hr.record
  obtain ⟨path, hpath, hleads⟩ := authenticatePath_ok key true hs
  refine ⟨path, ?_, hleads⟩
  simp only [Admission.authenticateRoot, hr.validateProfileRoot, hs.requiredNode, hs.validate,
    hs.proper.nodeCount, mapError_ok, ok_bind, ensure_true hcount.symm, hpath]
  rfl

/-! ## The insertion -/

/-- The end of `edit_tree`: the new leaf beside the only leaf, or among the records of the path. -/
def graft (maximumHeight : ℕ) (leaf : Linked K V 0) : (h : ℕ) → Path K V h → Prepared (Root K V)
  | 0, path => do
    let old : Tree K V 0 := Tree.ofLeaf (pathLeaf 0 path)
    let link ← (child 0 old).mapError .schema
    let children ← sortChildren [(link, old), leaf]
    let node ← (internal children).mapError .schema
    (rootFrom node).mapError .schema
  | h + 1, path => do
    let replacements ← insertAlong leaf h path
    match replacements with
    | [only] => (rootFrom only).mapError .schema
    | [left, right] =>
      ensure (h + 2 < maximumHeight) (.schema .treeHeight)
      let node ← (internal [left, right]).mapError .schema
      (rootFrom node).mapError .schema
    | _ => .error .pathAuthentication

/-- `edit_tree`: insert a leaf, which must not be there. -/
def editTree (duplicate : IndexError) (maximumHeight : ℕ) (root : Root K V) (leaf : V) :
    Prepared (Root K V) := do
  let path ← authenticateRoot root (Leaf.key leaf)
  match path with
  | none =>
    let new ← (linkLeaf leaf).mapError .schema
    (rootFrom new).mapError .schema
  | some ⟨h, path⟩ =>
    ensure (Leaf.key (pathLeaf h path) ≠ Leaf.key leaf) duplicate
    let new ← (linkLeaf leaf).mapError .schema
    graft maximumHeight new h path

theorem exists_graft {leaf : Linked K V 0} (hleaf : Proper 0 leaf) : ∀ {h} {c} {path}, Sound h c →
      (leaves h c.2).length < maxAssociations → Leads (Leaf.key leaf.2.leaf) h c.2 path →
      (∀ x ∈ leaves h c.2, Leaf.key x ≠ (Leaf.key leaf.2.leaf : K)) →
      ∃ root ys, graft treeMaxHeight leaf h path = .ok root ∧ Holds root ys
        ∧ Inserted leaf.2.leaf (leaves h c.2) ys
  | 0, c, path, hc, hmax, hl, hfresh => by
    have hold : Tree.ofLeaf (pathLeaf 0 path) = c.2 := hl
    rw [← leavesOf_singleton] at hmax hfresh ⊢
    obtain ⟨next, hnext, hrow, hlen, hi⟩ := exists_sortChildren hleaf
      ⟨by simpa using hc.proper, by simpa using hc.sorted, hmax.le⟩ hmax hfresh
    obtain ⟨node, hn, hns, hnl⟩ := exists_internal hrow
      (hlen ▸ show 2 ≤ 2 ∧ 2 ≤ treeFanout by decide)
    obtain ⟨root, hroot, hholds⟩ := hns.rootFrom
    rw [singleton_append] at hnext
    refine ⟨root, _, ?_, hholds, hnl ▸ hi⟩
    simp only [graft, hold, hc.proper.link, hnext, hn, hroot, mapError_ok, ok_bind]
  | h + 1, c, path, hc, hmax, hl, hfresh => by
    obtain ⟨nodes, hn, hns, hi, hlen⟩ := exists_insertAlong hleaf hc hmax hl hfresh
    rcases hlen with hlen | hlen
    · obtain ⟨only, rfl⟩ := length_eq_one_iff.mp hlen
      obtain ⟨root, hroot, hholds⟩ := (hns.mem (mem_singleton_self only)).rootFrom
      refine ⟨root, _, ?_, hholds, leavesOf_singleton only ▸ hi⟩
      rw [graft, hn, ok_bind]
      dsimp only
      rw [hroot, mapError_ok]
    · obtain ⟨left, right, rfl⟩ := length_eq_two.mp hlen
      have hht := hc.proper.height_le hc.room
      obtain ⟨node, hnode, hnodes, hnodel⟩ := exists_internal hns
        (show 2 ≤ 2 ∧ 2 ≤ treeFanout by decide)
      obtain ⟨root, hroot, hholds⟩ := hnodes.rootFrom
      refine ⟨root, _, ?_, hholds, hnodel ▸ hi⟩
      have hroom : h + 2 < treeMaxHeight := show h + 2 < 64 by omega
      rw [graft, hn, ok_bind]
      dsimp only
      rw [ensure_bind hroom, hnode, mapError_ok, ok_bind, hroot, mapError_ok]

/-- **A leaf with a fresh key is inserted**, as long as there is room for one more. -/
theorem exists_editTree (hr : Holds root xs) (hv : Leaf.validate leaf = .ok ())
    (hfresh : ∀ x ∈ xs, Leaf.key x ≠ (Leaf.key leaf : K)) (hmax : xs.length < maxAssociations)
    (duplicate : IndexError) :
    ∃ root' ys, editTree duplicate treeMaxHeight root leaf = .ok root' ∧ Holds root' ys
      ∧ Inserted leaf xs ys := by
  obtain ⟨new, hnew, hnewp, hnewl⟩ := linkLeaf_ok hv
  have hleaf : new.2.leaf = leaf := singleton_inj.mp hnewl
  cases root with
  | none =>
    obtain rfl : xs = [] := hr.sound
    have hsound : Sound 0 new := ⟨hnewp, pairwise_singleton .., show 1 ≤ maxAssociations by decide⟩
    obtain ⟨root, hroot, hholds⟩ := hsound.rootFrom
    refine ⟨root, _, ?_, hholds, ?_, hsound.sorted⟩
    · simp only [editTree, authenticateRoot, validateProfileRoot, mapError_ok, ok_bind, pure_eq_ok,
        hnew, hroot]
    · rw [hnewl]
  | some r =>
    obtain ⟨path, hpath, hleads⟩ := hr.authenticateRoot (Leaf.key leaf)
    obtain ⟨-, rfl, link, hs⟩ := hr.record
    subst hleaf
    obtain ⟨root, ys, hroot, hholds, hi⟩ := exists_graft hnewp hs hmax hleads hfresh
    refine ⟨root, ys, ?_, hholds, hi⟩
    have hne := hfresh _ hleads.pathLeaf_mem
    rw [editTree, hpath, ok_bind]
    dsimp only
    rw [ensure_bind hne, hnew, mapError_ok, ok_bind, hroot]

/-! ## Lookups -/

/-- The loop of `point_target_leaf_with`. -/
def pointLeaf (target : K) : (h : ℕ) → Bool → Tree K V h → Prepared (Option V)
  | 0, _, tree => .ok (if Leaf.key tree.leaf = target then some tree.leaf else none)
  | h + 1, isRoot, tree => do
    ensure (isRoot ∨ 2 ≤ tree.children.length) (.schema .nodeFanout)
    ensure (∀ c ∈ tree.children, 2 ^ h ≤ c.1.count) (.schema .invalidCount)
    let (_, expected) ← selectChild tree.children target
    (validate h expected.2).mapError .schema
    let link ← (child h expected.2).mapError .schema
    ensure (link = expected.1) .pathAuthentication
    pointLeaf target h false expected.2

/-- `point_target_leaf`. -/
def pointTargetLeaf (root : Root K V) (target : K) : Prepared (Option V) := do
  (validateProfileRoot root).mapError .schema
  match root with
  | none => return none
  | some root =>
    (validate root.height root.node).mapError .schema
    let count ← (nodeCount root.height root.node).mapError .schema
    ensure (count = root.count) .pathAuthentication
    pointLeaf target root.height true root.node

/-- A lookup follows the path of the key it looks for. -/
theorem pointLeaf_ok (target : K) : ∀ {h} {c : Linked K V h} (isRoot : Bool), Sound h c →
    ∃ path, Leads target h c.2 path ∧ pointLeaf target h isRoot c.2
      = .ok (if Leaf.key (pathLeaf h path) = target then some (pathLeaf h path) else none)
  | 0, c, _, _ => ⟨c.2.leaf, rfl, rfl⟩
  | h + 1, c, isRoot, hc => by
    obtain ⟨index, d, hsel, hd, hleads⟩ := hc.selectChild target
    obtain ⟨below, hl, hbelow⟩ := pointLeaf_ok target false hd
    refine ⟨_, hleads hl, ?_⟩
    have hcounts : ∀ e ∈ c.2.children, 2 ^ h ≤ e.1.count := fun e he =>
      (hc.proper.child_mem he).summary.count ▸ (hc.proper.child_mem he).two_pow_le
    rw [pointLeaf, ensure_bind (.inr hc.proper.fanout.1), ensure_bind hcounts, hsel, ok_bind]
    dsimp only
    rw [hd.validate, mapError_ok, ok_bind, hd.proper.link, mapError_ok, ok_bind, ensure_bind rfl,
      hbelow]
    rfl

/-- **A lookup finds the leaf of the key, if there is one.** -/
theorem Holds.pointTargetLeaf (hr : Holds root xs) (target : K) :
    pointTargetLeaf root target = .ok (xs.find? fun x => decide (Leaf.key x = target)) := by
  have hroot := hr.validateProfileRoot
  cases root with
  | none =>
    obtain rfl : xs = [] := hr.sound
    simp only [Admission.pointTargetLeaf, hroot, mapError_ok, ok_bind]
    rfl
  | some r =>
    obtain ⟨hcount, rfl, link, hs⟩ := hr.record
    obtain ⟨path, hleads, hpoint⟩ := pointLeaf_ok target true hs
    simp only [Admission.pointTargetLeaf, hroot, hs.validate, hs.proper.nodeCount, mapError_ok,
      ok_bind, ensure_true hcount.symm, hpoint]
    congr 1
    split
    · -- the leaf at the end of the path has the key, and no other leaf has
      rename_i hkey
      cases hfind : (leaves r.height r.node).find? fun x => decide (Leaf.key x = target) with
      | none =>
        have := find?_eq_none.mp hfind _ hleads.pathLeaf_mem
        exact absurd (decide_eq_true hkey) this
      | some x =>
        have hxk : decide (Leaf.key x = target) = true := by simpa using find?_some hfind
        rw [hleads.eq_of_mem hs x (mem_of_find?_eq_some hfind) (of_decide_eq_true hxk)]
    · rename_i hkey
      refine (find?_eq_none.mpr fun x hx hxk => hkey ?_).symm
      rw [hleads.eq_of_mem hs x hx (of_decide_eq_true hxk)]
      exact of_decide_eq_true hxk

theorem Sorted.eq_of_key_eq (hs : Sorted xs) {y : V} (hx : x ∈ xs) (hy : y ∈ xs)
    (hkey : (Leaf.key x : K) = Leaf.key y) : x = y := by
  obtain ⟨as, bs, rfl⟩ := append_of_mem hx
  obtain ⟨-, hxb, hab⟩ := sorted_append.mp hs
  rcases mem_append.mp hy with hy | hy
  · exact absurd hkey.symm (hab y hy x (by simp)).ne
  · rcases mem_cons.mp hy with rfl | hy
    · rfl
    · exact absurd hkey (rel_of_pairwise_cons hxb hy).ne

theorem Holds.pointTargetLeaf_of_mem (hr : Holds root xs) (hx : x ∈ xs) :
    Admission.pointTargetLeaf root (Leaf.key x) = .ok (some x) := by
  rw [hr.pointTargetLeaf]
  congr 1
  cases hfind : xs.find? fun y => decide ((Leaf.key y : K) = Leaf.key x) with
  | none => exact absurd (decide_eq_true rfl) (find?_eq_none.mp hfind x hx)
  | some y =>
    have hkey : decide ((Leaf.key y : K) = Leaf.key x) = true := by simpa using find?_some hfind
    rw [hr.sorted.eq_of_key_eq (mem_of_find?_eq_some hfind) hx (of_decide_eq_true hkey)]

end Beryl.Admission
