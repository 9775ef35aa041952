import Beryl.Draft.Admission.Assignment

/-!
# Draft/Admission/Finite — the trees of an admission as finite maps

A tree that has grown from the empty root by insertions of new keys and by replacements and removals
of present ones is a finite map: every lookup answers what was put in and not taken out, and no edit
that is due fails.  Its records keep two children or more, so 65536 leaves lie at most sixteen
levels below the root, and none of the limits on heights and counts is ever met.

An edit keeps the links of the records it replaced, for the replay of its command: those of the path
and one neighbour for each record that was left underfull.  **An assignment keeps at most 52 of
them** (`admission_trees_finite`).
-/

namespace Beryl.Admission

open Fallible List Association

variable {K V : Type} [LinearOrder K] [Leaf K V] {h : ℕ} {root root' : Root K V} {xs ys : List V}
  {x leaf : V} {key : K} {new : Linked K V 0}

/-! ## The records an edit replaces -/

/-- The links of the records of a path, from the root down. -/
def pathLinks : (h : ℕ) → Path K V h → Checked (List (Child K))
  | 0, path => (child 0 (Tree.ofLeaf (pathLeaf 0 path))).map ([·])
  | h + 1, (children, _, below) => do
    let link ← child (h + 1) (Tree.node children)
    let links ← pathLinks h below
    return link :: links

/-- The link of the neighbour that an underfull record is joined with. -/
def siblingLink (children : Links K V h) (index : ℕ) (rewritten : Rewritten K V h) :
    List (Child K) :=
  if rewritten.isUnderfull = true ∧ children.length ≠ 1 then
    (children[if 0 < index then index - 1 else 1]?.map Prod.fst).toList
  else []

/-- The links of all such neighbours, from the leaf up. -/
def siblingLinks (leaf : Rewritten K V 0) : (h : ℕ) → Path K V h → Prepared (List (Child K))
  | 0, _ => .ok []
  | h + 1, (children, index, below) => do
    let links ← siblingLinks leaf h below
    let rewritten ← rewriteAlong leaf h below
    return links ++ siblingLink children index rewritten

/-- The `predecessor` of the edit `rewrite_tree` makes. -/
def predecessor (root : Root K V) (key : K) (replacement : V → Checked (Option V)) :
    Prepared (List (Child K)) := do
  let path ← authenticateRoot root key
  match path with
  | none => .error .missingNode
  | some ⟨h, path⟩ =>
    ensure (Leaf.key (pathLeaf h path) = key) .missingNode
    let links ← (pathLinks h path).mapError .schema
    let template ← (replacement (pathLeaf h path)).mapError .schema
    let leaf ← rewriteLeaf template
    let siblings ← siblingLinks leaf h path
    return links ++ siblings

/-- `retained_predecessor_nodes` of an assignment. -/
def retainedPredecessorNodes (state : Assigning) :
    Prepared (List (Child SourceKey ⊕ Child SyndicDraftMarkerId)) := do
  let leaf ← leastLeaf state.index.sourceRoot
  let assigned ← (assignedLabel state.continuation leaf.sourceKey.group).mapError .schema
  let source ← predecessor state.index.sourceRoot leaf.sourceKey fun _ => .ok none
  let target ← predecessor state.index.targetRoot leaf.sourceKey.targetMarkerId
    (assignTarget leaf assigned)
  return source.map .inl ++ target.map .inr

omit [LinearOrder K] in
theorem length_pathLinks : ∀ {h : ℕ} {path : Path K V h} {links : List (Child K)},
    pathLinks h path = .ok links → links.length = h + 1
  | 0, path, links, hl => by
    obtain ⟨link, -, rfl⟩ := map_eq_ok.mp hl
    rfl
  | h + 1, (children, index, below), links, hl => by
    simp only [pathLinks, bind_eq_ok, pure_eq_ok_iff] at hl
    obtain ⟨link, -, rest, hrest, rfl⟩ := hl
    rw [length_cons, length_pathLinks hrest]

omit [LinearOrder K] [Leaf K V] in
theorem length_siblingLink (children : Links K V h) (index : ℕ)
    (rewritten : Rewritten K V h) : (siblingLink children index rewritten).length ≤ 1 := by
  unfold siblingLink
  split
  · exact Option.length_toList_le
  · exact Nat.zero_le _

/-- One neighbour for each record of the path, at the most. -/
theorem length_siblingLinks {new : Rewritten K V 0} : ∀ {h} {path}
    {links : List (Child K)}, siblingLinks new h path = .ok links → links.length ≤ h
  | 0, path, links, hl => by
    cases hl
    rfl
  | h + 1, (children, index, below), links, hl => by
    simp only [siblingLinks, bind_eq_ok, pure_eq_ok_iff] at hl
    obtain ⟨found, hfound, rewritten, hr, rfl⟩ := hl
    have hle := length_siblingLinks hfound
    have hone := length_siblingLink children index rewritten
    rw [length_append]
    omega

/-- A new leaf in the place of another leaves no record underfull. -/
theorem rewriteAlong_canonical : ∀ {h} {c} {path} {r}, Proper h c → Leads key h c.2 path →
    rewriteAlong (.canonical new) h path = .ok r → ∃ node, r = .canonical node
  | 0, c, path, r, _, _, hr => ⟨new, (Except.ok.inj hr).symm⟩
  | h + 1, c, path, r, hc, hlead, hr => by
    obtain ⟨pre, d, post, below, hsplit, rfl, -, -, hbelow⟩ := hlead
    simp only [rewriteAlong, bind_eq_ok] at hr
    obtain ⟨rewritten, hrewritten, _, -, next, hnext, hclose⟩ := hr
    obtain ⟨node, rfl⟩ := rewriteAlong_canonical (hc.child_mem (hsplit ▸ by simp)) hbelow hrewritten
    cases hnext
    have htwo : 2 ≤ ((pre ++ d :: post).set pre.length node).length := by
      rw [length_set]
      exact hsplit ▸ hc.fanout.1
    rcases hcs : (pre ++ d :: post).set pre.length node with _ | ⟨first, _ | ⟨second, rest⟩⟩
    · simp [hcs] at htwo
    · simp [hcs] at htwo
    · rw [hcs] at hclose
      simp only [closeLevel, bind_eq_ok] at hclose
      obtain ⟨_, -, top, -, heq⟩ := hclose
      exact ⟨top, (Except.ok.inj heq).symm⟩

theorem siblingLinks_canonical : ∀ {h} {c} {path}
    {links : List (Child K)}, Proper h c → Leads key h c.2 path →
    siblingLinks (.canonical new) h path = .ok links → links = []
  | 0, c, path, links, _, _, hl => (Except.ok.inj hl).symm
  | h + 1, c, path, links, hc, hlead, hl => by
    obtain ⟨pre, d, post, below, hsplit, rfl, -, -, hbelow⟩ := hlead
    have hd : Proper h d := hc.child_mem (hsplit ▸ by simp)
    simp only [siblingLinks, bind_eq_ok, pure_eq_ok_iff] at hl
    obtain ⟨found, hfound, rewritten, hr, rfl⟩ := hl
    obtain ⟨node, rfl⟩ := rewriteAlong_canonical hd hbelow hr
    rw [siblingLinks_canonical hd hbelow hfound]
    simp [siblingLink, Rewritten.isUnderfull]

/-- **What a rewritten leaf retains**: 33 links at the most, and 17 if the leaf is replaced. -/
theorem Holds.predecessor_le (hr : Holds root xs) {replacement : V → Checked (Option V)}
    {links : List (Child K)} (hl : predecessor root key replacement = .ok links) :
    links.length ≤ 33 ∧ ((∀ x, replacement x ≠ .ok none) → links.length ≤ 17) := by
  cases root with
  | none =>
    have hmissing : predecessor none key replacement = .error .missingNode := rfl
    rw [hmissing] at hl
    cases hl
  | some r =>
    obtain ⟨path, hpath, hleads⟩ := hr.authenticateRoot key
    obtain ⟨-, rfl, link, hs⟩ := hr.record
    have hht := hs.proper.height_le hs.room
    rw [predecessor, hpath, ok_bind] at hl
    simp only [bind_eq_ok, mapError_eq_ok, pure_eq_ok_iff] at hl
    obtain ⟨_, -, down, hdown, template, htmpl, new, hnew, up, hup, rfl⟩ := hl
    have h1 := length_pathLinks hdown
    have h2 := length_siblingLinks hup
    rw [length_append]
    refine ⟨by omega, fun hsome => ?_⟩
    cases template with
    | none => exact absurd htmpl (hsome _)
    | some y =>
      obtain ⟨node, -, hnode⟩ := bind_eq_ok.mp hnew
      cases hnode
      rw [siblingLinks_canonical hs.proper hleads hup, h1, length_nil]
      omega

/-! ## Finite maps -/

/-- The records of a tree: two children to 128, with disjoint envelopes in order, each linked with
the number of its leaves and the keys of the first and the last of them. -/
def Canonical : (h : ℕ) → Tree K V h → Prop
  | 0, _ => True
  | h + 1, tree => (2 ≤ tree.children.length ∧ tree.children.length ≤ treeFanout)
      ∧ (tree.children.Pairwise fun c d => c.1.last < d.1.first)
      ∧ ∀ c ∈ tree.children, c.1.first ≤ c.1.last ∧ Summarizes c.1 (leaves h c.2) ∧ Canonical h c.2

/-- **A root under which the leaves `xs` are found, and can be edited.** -/
structure FiniteMap (root : Root K V) (xs : List V) : Prop where
  canonical : ∀ r ∈ root, Canonical r.height r.node ∧ r.height ≤ 16 ∧ r.count = xs.length
  profile : validateProfileRoot root = .ok ()
  exact : ∀ key, ∃ path, authenticateRoot root key = .ok path
    ∧ ((∃ p ∈ path, Leaf.key (pathLeaf p.1 p.2) = key) ↔ ∃ x ∈ xs, Leaf.key x = key)
  lookup : ∀ key, ∃ found, pointTargetLeaf root key = .ok found
    ∧ ∀ x, found = some x ↔ x ∈ xs ∧ Leaf.key x = key
  least : ∀ x ∈ xs, (∀ y ∈ xs, (Leaf.key x : K) ≤ Leaf.key y) → leastLeaf root = .ok x
  rejects : ∀ x ∈ xs, ∀ leaf duplicate, (Leaf.key leaf : K) = Leaf.key x →
    editTree duplicate treeMaxHeight root leaf = .error duplicate
  inserts : ∀ leaf duplicate, Leaf.validate leaf = .ok () →
    (∀ x ∈ xs, Leaf.key x ≠ (Leaf.key leaf : K)) →
    xs.length < maxAssociations → ∃ root', editTree duplicate treeMaxHeight root leaf = .ok root'
  rewrites : ∀ x ∈ xs, ∀ replacement template, replacement x = .ok template →
    (∀ y ∈ template, Leaf.validate y = .ok () ∧ (Leaf.key y : K) = Leaf.key x) →
    ∃ root', rewriteTree root (Leaf.key x) replacement = .ok root'

theorem Sound.canonical : ∀ {h} {c : Linked K V h}, Sound h c → Canonical h c.2
  | 0, _, _ => trivial
  | h + 1, c, hc => by
    have hacross := (pairwise_flatMap.mp hc.sorted).2
    refine ⟨hc.proper.fanout, hacross.imp_of_mem fun ha hb hab => ?_, fun d hd => ?_⟩
    · obtain ⟨x, hx, hxl⟩ := (hc.proper.child_mem ha).summary.exists_last
      obtain ⟨y, hy, hyf⟩ := (hc.proper.child_mem hb).summary.exists_first
      rw [hxl, hyf]
      exact hab x hx y hy
    · have hs := hc.row.mem hd
      exact ⟨hs.proper.summary.first_le_last hs.sorted, hs.proper.summary, hs.canonical⟩

theorem exact_of_holds (hr : Holds root xs) (key : K) : ∃ path, authenticateRoot root key = .ok path
    ∧ ((∃ p ∈ path, Leaf.key (pathLeaf p.1 p.2) = key) ↔ ∃ x ∈ xs, Leaf.key x = key) := by
  cases root with
  | none =>
    obtain rfl : xs = [] := hr.sound
    exact ⟨none, rfl, by simp⟩
  | some r =>
    obtain ⟨path, hpath, hleads⟩ := hr.authenticateRoot key
    obtain ⟨-, rfl, link, hs⟩ := hr.record
    refine ⟨_, hpath, ?_, ?_⟩
    · rintro ⟨p, hmem, hkey⟩
      cases hmem
      exact ⟨_, hleads.pathLeaf_mem, hkey⟩
    · rintro ⟨x, hx, hkey⟩
      exact ⟨_, rfl, by rw [hleads.eq_of_mem hs x hx hkey, hkey]⟩

/-- **What a root holds is a finite map.** -/
theorem Holds.finiteMap (hr : Holds root ys) (hperm : ys.Perm xs) : FiniteMap root xs where
  canonical r hmem := by
    obtain rfl := Option.mem_def.mp hmem
    obtain ⟨hcount, -, link, hs⟩ := hr.record
    exact ⟨hs.canonical, hs.proper.height_le hs.room, hcount.trans hperm.length_eq⟩
  profile := hr.validateProfileRoot
  exact key := by simpa only [hperm.mem_iff] using exact_of_holds hr key
  lookup key := by
    refine ⟨_, hr.pointTargetLeaf key, fun x => ⟨fun hfound => ?_, ?_⟩⟩
    · exact ⟨hperm.mem_iff.mp (mem_of_find?_eq_some hfound), by
        simpa using find?_some hfound⟩
    · rintro ⟨hx, rfl⟩
      have hfound := hr.pointTargetLeaf_of_mem (hperm.mem_iff.mpr hx)
      rw [hr.pointTargetLeaf] at hfound
      exact Except.ok.inj hfound
  least x hx hle := by
    obtain ⟨y, zs, rfl⟩ := exists_cons_of_ne_nil (ne_nil_of_mem (hperm.mem_iff.mpr hx))
    rcases mem_cons.mp (hperm.mem_iff.mpr hx) with rfl | hzs
    · exact hr.leastLeaf
    · exact absurd (hle y (hperm.mem_iff.mp (by simp)))
        (not_le.mpr (rel_of_pairwise_cons hr.sorted hzs))
  rejects x hx leaf duplicate hkey := by
    obtain ⟨path, hpath, hexact⟩ := exact_of_holds hr (Leaf.key leaf)
    obtain ⟨⟨h, path⟩, rfl, hleaf⟩ := hexact.mpr ⟨x, hperm.mem_iff.mpr hx, hkey.symm⟩
    rw [editTree, hpath, ok_bind]
    dsimp only at hleaf ⊢
    rw [ensure, if_neg (not_not.mpr hleaf), error_bind]
  inserts leaf duplicate hvalid hfresh hroom := by
    obtain ⟨root', ys', hedit, -⟩ := exists_editTree hr hvalid
      (fun y hy => hfresh y (hperm.mem_iff.mp hy)) (hperm.length_eq ▸ hroom) duplicate
    exact ⟨root', hedit⟩
  rewrites x hx replacement template hrep hvalid := by
    obtain ⟨root', -, -, -, hedit, -⟩ := exists_rewriteTree hr (hperm.mem_iff.mpr hx) hrep hvalid
    exact ⟨root', hedit⟩

/-! ## Runs of edits -/

/-- **The trees that edits lead to**, with the leaves put in and not taken out. -/
inductive Reached : Root K V → List V → Prop
  | empty : Reached none []
  | insert {root root' : Root K V} {xs : List V} {leaf : V} {duplicate : IndexError}
      (before : Reached root xs) (valid : Leaf.validate leaf = .ok ())
      (fresh : ∀ x ∈ xs, Leaf.key x ≠ (Leaf.key leaf : K)) (room : xs.length < maxAssociations)
      (edit : editTree duplicate treeMaxHeight root leaf = .ok root') : Reached root' (leaf :: xs)
  | rewrite {root root' : Root K V} {as bs : List V} {x : V} {template : Option V}
      {replacement : V → Checked (Option V)} (before : Reached root (as ++ x :: bs))
      (replaced : replacement x = .ok template)
      (valid : ∀ y ∈ template, Leaf.validate y = .ok () ∧ (Leaf.key y : K) = Leaf.key x)
      (edit : rewriteTree root (Leaf.key x) replacement = .ok root') :
      Reached root' (as ++ template.toList ++ bs)

theorem Reached.holds (hr : Reached root xs) : ∃ ys, ys.Perm xs ∧ Holds root ys := by
  induction hr with
  | empty => exact ⟨[], .rfl, holds_none⟩
  | @insert root root' xs leaf duplicate _ valid fresh room edit ih =>
    obtain ⟨ys, hperm, hholds⟩ := ih
    obtain ⟨_, zs, hedit, hholds', hins⟩ := exists_editTree hholds valid
      (fun y hy => fresh y (hperm.mem_iff.mp hy)) (hperm.length_eq ▸ room) duplicate
    cases hedit.symm.trans edit
    exact ⟨zs, hins.perm.trans (hperm.cons leaf), hholds'⟩
  | @rewrite root root' as bs x template replacement _ replaced valid edit ih =>
    obtain ⟨ys, hperm, hholds⟩ := ih
    obtain ⟨_, as', bs', rfl, hedit, hholds'⟩ := exists_rewriteTree hholds
      (hperm.mem_iff.mpr (by simp)) replaced valid
    cases hedit.symm.trans edit
    have hrest : (as' ++ bs').Perm (as ++ bs) :=
      (perm_middle.symm.trans (hperm.trans perm_middle)).cons_inv
    have hmiddle : ∀ us vs : List V,
        (us ++ template.toList ++ vs).Perm (template.toList ++ (us ++ vs)) :=
      fun us vs => by
        rw [← append_assoc]
        exact perm_append_comm.append_right vs
    exact ⟨_, (hmiddle as' bs').trans ((hrest.append_left _).trans (hmiddle as bs).symm), hholds'⟩

/-- **The trees of an admission are finite maps that never trip their own limits**, and an
assignment retains 52 records at the most. -/
theorem admission_trees_finite {source : Root SourceKey SourceLeaf} {xs : List SourceLeaf}
    {target : Root SyndicDraftMarkerId TargetLeaf} {ys : List TargetLeaf} (hs : Reached source xs)
    (ht : Reached target ys) : FiniteMap source xs ∧ FiniteMap target ys
      ∧ ∀ continuation nodes, retainedPredecessorNodes ⟨⟨source, target⟩, continuation⟩ =
        .ok nodes → nodes.length ≤ 52 := by
  obtain ⟨xs', hxs, hs⟩ := hs.holds
  obtain ⟨ys', hys, ht⟩ := ht.holds
  refine ⟨hs.finiteMap hxs, ht.finiteMap hys, fun continuation nodes hnodes => ?_⟩
  simp only [retainedPredecessorNodes, bind_eq_ok, pure_eq_ok_iff] at hnodes
  obtain ⟨leaf, -, assigned, -, down, hdown, up, hup, rfl⟩ := hnodes
  have h1 := (hs.predecessor_le hdown).1
  have h2 := (ht.predecessor_le hup).2 fun x => by
    simp [assignTarget, bind_eq_ok]
  simp only [length_append, length_map]
  omega

/-! ## Images of one asset -/

/-- Leaves with distinct keys are all inserted. -/
theorem exists_reached : ∀ {xs : List V}, (∀ x ∈ xs, Leaf.validate x = .ok ()) →
    (xs.Pairwise fun x y => Leaf.key y ≠ (Leaf.key x : K)) → xs.length ≤ maxAssociations →
    ∃ root : Root K V, Reached root xs
  | [], _, _, _ => ⟨none, .empty⟩
  | x :: xs, hvalid, hdistinct, hroom => by
    obtain ⟨hx, hxs⟩ := forall_mem_cons.mp hvalid
    obtain ⟨hfresh, hrest⟩ := pairwise_cons.mp hdistinct
    obtain ⟨root, hr⟩ := exists_reached hxs hrest (Nat.le_of_lt hroom)
    obtain ⟨ys, hperm, hholds⟩ := hr.holds
    obtain ⟨root', -, hedit, -⟩ := exists_editTree hholds hx
      (fun y hy => hfresh y (hperm.mem_iff.mp hy)) (hperm.length_eq ▸ hroom) .duplicateSource
    exact ⟨root', hr.insert hx hfresh hroom hedit⟩

/-- More leaves than a record has room for are spread over several. -/
theorem Reached.two_le_height (hr : Reached root xs) (hmany : treeFanout < xs.length) :
    ∃ r ∈ root, 2 ≤ r.height := by
  obtain ⟨ys, hperm, hholds⟩ := hr.holds
  rw [← hperm.length_eq] at hmany
  cases root with
  | none =>
    obtain rfl : ys = [] := hholds.sound
    exact absurd hmany (Nat.not_lt_zero _)
  | some r =>
    obtain ⟨_ | _ | height, count, node⟩ := r
    all_goals obtain ⟨-, rfl, link, hs⟩ := hholds.record
    · exact absurd hmany (show ¬ 128 < 1 by decide)
    · rw [leaves_succ, leavesOf_zero, length_map] at hmany
      exact absurd hmany (not_lt.mpr hs.proper.fanout.2)
    · exact ⟨_, rfl, Nat.le_add_left 2 height⟩

namespace ManyImages

/-- An asset of one byte. -/
def asset : AssetId := ⟨.sha256V1, replicate 32 0, 1, rfl, Nat.one_pos, by decide⟩

/-- Its evidence: the kind of evidence, and the asset. -/
def evidence : Evidence :=
  ⟨2 :: 1 :: (replicate 32 0 ++ Beryl.Wire.leBytes 8 1), by decide, by decide⟩

/-- A marker that shows it. -/
def association (id : ℕ) : Association := ⟨.freshAsset asset, id, evidence, asset, by decide⟩

/-- The leaves of markers in the source tree. -/
def sources (ids : List ℕ) : List SourceLeaf := ids.map fun id => (association id).sourceLeaf

/-- The leaves of markers in the target tree. -/
def targets (ids : List ℕ) : List TargetLeaf := ids.map fun id => (association id).targetLeaf ⟨1, 1⟩

/-- 129 images are spread over several records in either tree, and one of them is taken out. -/
theorem admission_trees_finite_split : ∃ source target target',
    (∃ r ∈ source, 2 ≤ r.height) ∧ (∃ r ∈ target, 2 ≤ r.height)
      ∧ FiniteMap source (sources (range 129)) ∧ FiniteMap target (targets (range 129))
      ∧ rewriteTree target 64 (fun _ => .ok none) = .ok target'
      ∧ FiniteMap target' (targets (range 64 ++ range' 65 64)) := by
  obtain ⟨source, hs⟩ : ∃ root, Reached root (sources (range 129)) := by
    refine exists_reached ?_ ?_ (by simp [sources, maxAssociations])
    · exact forall_mem_map.mpr fun id _ => validate_sourceLeaf _
    · refine pairwise_map.mpr (nodup_range.imp fun hne heq => hne ?_)
      exact (congrArg SourceKey.targetMarkerId heq).symm
  obtain ⟨target, ht⟩ : ∃ root, Reached root (targets (range 129)) := by
    refine exists_reached ?_ ?_ (by simp [targets, maxAssociations])
    · exact forall_mem_map.mpr fun id _ => validate_targetLeaf _ _
    · exact pairwise_map.mpr (nodup_range.imp fun hne heq => hne heq.symm)
  obtain ⟨hsource, htarget, -⟩ := admission_trees_finite hs ht
  have hcut : targets (range 129) = targets (range 64) ++ (association 64).targetLeaf ⟨1, 1⟩
      :: targets (range' 65 64) := by
    rw [show range 129 = range 64 ++ 64 :: range' 65 64 by decide, targets, map_append, map_cons]
    rfl
  obtain ⟨target', hremove⟩ := htarget.rewrites ((association 64).targetLeaf ⟨1, 1⟩)
    (hcut ▸ by simp) (fun _ => .ok none) none rfl (by simp)
  obtain ⟨-, htarget', -⟩ := admission_trees_finite hs (.rewrite (hcut ▸ ht) rfl (by simp) hremove)
  refine ⟨source, target, target', hs.two_le_height ?_, ht.two_le_height ?_, hsource, htarget,
    hremove, ?_⟩
  · simp [sources]
  · simp [targets]
  · simpa [targets] using htarget'

end ManyImages

end Beryl.Admission
