import Beryl.Draft.Sequence.Units

/-!
# Draft/Sequence/Node — when a new node can be built

`newSequenceNode` refuses a node that is too tall, too wide, too large for its counters, or that
puts two markers out of order.  Over well-formed children the last two are properties of the leaves
below: **a node of a legal shape is built when its leaves are `Admissible`** — in order, and with
totals that fit (`newSequenceNode_meets`).
-/

namespace Beryl.Draft

open Fallible List

/-! ## Lines -/

/-- The newlines of a run of leaves. -/
def newlineTotal (leaves : Leaves) : ℕ :=
  (leaves.map fun x => newlines x.bytes).sum

@[simp] theorem newlineTotal_nil : newlineTotal [] = 0 := rfl
@[simp] theorem newlineTotal_cons (x : DraftPieceLeafValue) (xs : Leaves) :
    newlineTotal (x :: xs) = newlines x.bytes + newlineTotal xs := by simp [newlineTotal]
@[simp] theorem newlineTotal_append (xs ys : Leaves) :
    newlineTotal (xs ++ ys) = newlineTotal xs + newlineTotal ys := by simp [newlineTotal]

theorem newlineTotal_le (leaves : Leaves) : newlineTotal leaves ≤ textLength leaves := by
  induction leaves with
  | nil => simp
  | cons x xs ih =>
    have : newlines x.bytes ≤ x.bytes.length := count_le_length
    simp only [newlineTotal_cons, textLength_cons]
    omega

/-- **Everything a link says about the leaves below it**, lines included. -/
structure Tallies (link : DraftPieceChild) (leaves : Leaves) : Prop
    extends Summarizes link leaves where
  newlines : link.newlineCount = newlineTotal leaves
  lines : link.logicalLineCount = if textLength leaves = 0 then 0 else newlineTotal leaves + 1
  occupied : ∀ x ∈ leaves, x.Occupied

/-- **Leaves whose totals fit the counters of a link.** -/
structure Fits (leaves : Leaves) : Prop where
  bytes : textLength leaves < u64Size
  lines : newlineTotal leaves + 1 < u64Size
  pieces : leaves.length < u64Size

/-- **Leaves a tree can be built over**: markers in order, and totals that fit. -/
structure Admissible (leaves : Leaves) : Prop where
  ordered : Ordered (unitsOf leaves)
  fits : Fits leaves

theorem Fits.part {a b c : Leaves} (h : Fits (a ++ b ++ c)) : Fits b := by
  obtain ⟨h1, h2, h3⟩ := h
  simp only [textLength_append, newlineTotal_append, length_append] at h1 h2 h3
  exact ⟨by omega, by omega, by omega⟩

theorem Admissible.part {a b c leaves : Leaves} (h : Admissible leaves)
    (hl : a ++ b ++ c = leaves) : Admissible b := by
  subst hl
  refine ⟨?_, h.fits.part⟩
  have hord := h.ordered
  rw [unitsOf_append, unitsOf_append] at hord
  exact hord.left.right

/-! ## The aggregation loop, on leaves -/

variable {leaves done : Leaves} {link : DraftPieceChild} {x : DraftPieceLeafValue}

/-- The key of the last leaf of a run, when it is a marker. -/
def lastMarkerKey (leaves : Leaves) : Option DraftCompositeSearchKey :=
  leaves.getLast?.bind fun x => markerKey? (endKey x (textLength leaves))

/-- The running totals of the loop, read off the leaves it has passed. -/
structure Totals (acc : ChildAggregate) (done : Leaves) : Prop where
  text : acc.text = textLength done
  newlines : acc.newlines = newlineTotal done
  pieces : acc.pieces = done.length
  markers : acc.markers = markerTotal done
  last : acc.previousLastMarker = lastMarkerKey done

theorem totals_nil : Totals {} [] := ⟨rfl, rfl, rfl, rfl, rfl⟩

/-- The joint between two children is checked on the leaves that meet. -/
theorem markersMeetInOrder_iff {xs : Leaves} :
    markersMeetInOrder (lastMarkerKey done) (startKey x (textLength done))
      ↔ Joins done (x :: xs) := by
  rcases done.eq_nil_or_concat' with rfl | ⟨done, y, rfl⟩
  · cases x <;> simp [lastMarkerKey, markersMeetInOrder, Joins]
  · cases y with
    | text t => cases x <;> simp [lastMarkerKey, markersMeetInOrder, Joins, endKey, markerKey?]
    | marker m =>
      cases x with
      | text t => simp [lastMarkerKey, markersMeetInOrder, Joins, startKey]
      | marker n =>
        have hlast : lastMarkerKey (done ++ [.marker m])
            = some (.marker (textLength (done ++ [.marker m])) m.orderKey m.markerId) := by
          simp [lastMarkerKey, endKey, markerKey?]
        rw [hlast]
        simp [markersMeetInOrder, Joins, startKey, sameMarkerOrderSlot]
        omega

theorem lastMarkerKey_append (h : Summarizes link leaves) :
    lastMarkerKey (done ++ leaves) = markerKey? (link.last.shift (textLength done)) := by
  obtain ⟨xs, x, rfl, hlast⟩ := h.last
  rw [lastMarkerKey, hlast, endKey_shift, ← append_assoc, getLast?_append]
  simp [add_comm]

/-! ## The shape of a link -/

/-- A run of markers in order starts at a key no later than the one it ends at. -/
theorem orderKey_lt_of_ordered {n : DraftPieceMarker} : ∀ {m} xs, (∀ x ∈ xs, x.Occupied) →
      textLength xs = 0 → Ordered (.marker m :: unitsOf (xs ++ [.marker n])) →
      m.orderKey < n.orderKey
  | m, [], _, _, h => by simpa [Ordered] using h
  | m, .text t :: xs, hocc, hlen, _ => by
    simp_all
  | m, .marker k :: xs, hocc, hlen, h => by
    have h : Ordered (.marker m :: .marker k :: unitsOf (xs ++ [.marker n])) := by simpa using h
    obtain ⟨hmk, htail⟩ := isChain_cons_cons.mp h
    have hkn := orderKey_lt_of_ordered xs (fun x hx => hocc x (by simp [hx])) (by simpa using hlen)
      htail
    exact lt_trans hmk hkn

theorem markerTotal_eq_length : ∀ xs, (∀ x ∈ xs, x.Occupied) →
    textLength xs = 0 → markerTotal xs = xs.length
  | [], _, _ => rfl
  | .text t :: xs, hocc, hlen => by
    simp_all
  | .marker m :: xs, hocc, hlen => by
    have := markerTotal_eq_length xs (fun x hx => hocc x (by simp [hx])) (by simpa using hlen)
    simp [this, add_comm]

/-- **A link over ordered leaves has the shape its parent asks for.** -/
theorem Tallies.shape (h : Tallies link leaves) (hord : Ordered (unitsOf leaves))
    (hfits : Fits leaves) : childShape link := by
  have hnl := newlineTotal_le leaves
  obtain ⟨x, xs, hx, hfirst⟩ := h.first
  obtain ⟨ys, y, hy, hlast⟩ := h.last
  refine ⟨?_, ?_, ?_, ?_, ?_, ?_, ?_⟩
  · rw [h.pieces, hx]; simp
  · rw [h.markers, h.pieces]; exact markerTotal_le_length leaves
  · rw [hfirst, anchor_startKey]
  · rw [hlast, anchor_endKey, h.bytes]
  · rw [hfirst, hlast]
    by_cases h0 : textLength leaves = 0
    · -- without text the run consists of markers, and their keys rise
      cases x with
      | text t => cases y <;> simp [startKey, endKey, h0]
      | marker m =>
        cases y with
        | text t => simp [startKey, endKey]
        | marker n =>
          cases ys with
          | nil =>
            obtain ⟨rfl, rfl⟩ : m = n ∧ xs = [] := by simpa [hx] using hy
            simp [startKey, endKey, h0]
          | cons z ys =>
            obtain ⟨rfl, hxs⟩ : .marker m = z ∧ xs = ys ++ [.marker n] := by simpa [hx] using hy
            rw [hx, hxs] at hord
            have := orderKey_lt_of_ordered ys
              (fun z hz => h.occupied z (by rw [hx, hxs]; simp [hz]))
              (by rw [hx, hxs] at h0; simpa using h0) hord
            simp [startKey, endKey, h0, this]
    · cases x <;> cases y <;> simp [startKey, endKey]
      omega
  · rintro ⟨hb, hm⟩
    rw [h.bytes] at hb
    rw [h.markers, h.pieces, markerTotal_eq_length leaves h.occupied hb] at hm
    exact hm rfl
  · rw [isCanonical, h.bytes, h.newlines, h.lines]
    split
    · omega
    · exact ⟨hfits.lines, rfl⟩

/-! ## Nodes -/

/-- **One round of the loop passes the leaves of one child**, and checks their joint. -/
theorem aggregateChild_meets {acc : ChildAggregate} {child : DraftPieceChild}
    (hacc : Totals acc done) (hc : Tallies child leaves) (hord : Ordered (unitsOf leaves)) :
    Meets (aggregateChild acc child) (Joins done leaves ∧ Fits (done ++ leaves))
      fun acc' => Totals acc' (done ++ leaves) ∧ Joins done leaves := by
  have hmeet : markersMeetInOrder acc.previousLastMarker (child.first.shift acc.text)
      ↔ Joins done leaves := by
    obtain ⟨x, xs, rfl, hx⟩ := hc.first
    rw [hx, startKey_shift, zero_add, hacc.text, hacc.last]
    exact markersMeetInOrder_iff
  constructor
  · intro acc' h
    simp only [aggregateChild, bind_eq_ok, ensure_eq_ok, pure_eq_ok, checkedAdd_eq_ok,
      Except.ok.injEq] at h
    obtain ⟨-, -, first, hfirst, -, hmeets, last, hlast, _, ⟨rfl, -⟩, _, ⟨rfl, -⟩, _, ⟨rfl, -⟩, _,
      ⟨rfl, -⟩, rfl⟩ := h
    obtain ⟨rfl, -⟩ := checkedOffsetKey_eq_ok hfirst
    obtain ⟨rfl, -⟩ := checkedOffsetKey_eq_ok hlast
    refine ⟨⟨?_, ?_, ?_, ?_, ?_⟩, hmeet.mp hmeets⟩
    · simp [hacc.text, hc.bytes]
    · simp [hacc.newlines, hc.newlines]
    · simp [hacc.pieces, hc.pieces]
    · simp [hacc.markers, hc.markers]
    · rw [lastMarkerKey_append hc.toSummarizes, hacc.text]
  · rintro ⟨hjoin, hfits⟩
    have hshape := hc.shape hord (.part (c := []) (by simpa using hfits))
    have hcount := markerTotal_le_length (done ++ leaves)
    obtain ⟨hbytes, hlines, hpcs⟩ := hfits
    obtain ⟨-, -, hfirst, hlast, -, -, -⟩ := id hshape
    simp only [textLength_append, newlineTotal_append, length_append, markerTotal_append,
      ← hacc.text, ← hacc.newlines, ← hacc.pieces, ← hacc.markers, ← hc.bytes, ← hc.newlines,
      ← hc.pieces, ← hc.markers] at hbytes hlines hpcs hcount
    rw [aggregateChild, ensure_bind hshape, checkedOffsetKey_of_lt (by omega), ok_bind,
      ensure_bind (hmeet.mpr hjoin), checkedOffsetKey_of_lt (by omega), ok_bind,
      checkedAdd_bind hbytes, checkedAdd_bind (by omega),
      checkedAdd_bind hpcs, checkedAdd_of_lt (by omega)]
    exact ⟨_, rfl⟩

variable {h : ℕ} {children : Links h} {ref : SequenceRef (h + 1)}

/-- Linked children that count their leaves and keep them in order. -/
def Sound {h : ℕ} (children : Links h) : Prop :=
  ∀ c ∈ children, Tallies c.1 (flatten h c.2) ∧ Ordered (unitsOf (flatten h c.2))

theorem Sound.occupied (hs : Sound children) : ∀ x ∈ leavesOf children, x.Occupied := fun x hx => by
  obtain ⟨c, hc, hxc⟩ := mem_flatMap.mp hx
  exact (hs c hc).1.occupied x hxc

/-- **The loop over linked children passes their leaves**, and every joint is in order. -/
theorem foldlM_aggregateChild_meets : ∀ {children : Links h} {acc}
      {done}, Totals acc done → (∀ x ∈ done, x.Occupied) → Sound children →
      Meets ((children.map Prod.fst).foldlM aggregateChild acc)
        (Admissible (done ++ leavesOf children)) fun acc' =>
          Totals acc' (done ++ leavesOf children)
            ∧ (Ordered (unitsOf done) → Ordered (unitsOf (done ++ leavesOf children)))
  | [], _, _, hacc, _, _ => meets_ok (by simpa using hacc)
  | c :: cs, acc, done, hacc, hocc, hcs => by
    obtain ⟨hc, hcord⟩ := hcs c (by simp)
    have hcs' : Sound cs := fun d hd => hcs d (by simp [hd])
    have hocc' : ∀ x ∈ done ++ flatten h c.2, x.Occupied := fun x hx =>
      (mem_append.mp hx).elim (hocc x) (hc.occupied x)
    rw [map_cons, foldlM_cons, leavesOf_cons, ← append_assoc]
    have hfirst : Admissible (done ++ flatten h c.2 ++ leavesOf cs) →
        Joins done (flatten h c.2) ∧ Fits (done ++ flatten h c.2) := fun ha => by
      have hpart := ha.part (a := []) rfl
      exact ⟨((ordered_unitsOf_append hocc hc.occupied).mp hpart.ordered).2.2, hpart.fits⟩
    refine ((aggregateChild_meets hacc hc hcord).mono hfirst fun _ => id).bind fun mid hmid => ?_
    refine (foldlM_aggregateChild_meets hmid.1 hocc' hcs').mono id fun acc' hacc' => ?_
    exact ⟨hacc'.1, fun hd =>
      hacc'.2 ((ordered_unitsOf_append hocc hc.occupied).mpr ⟨hd, hcord, hmid.2⟩)⟩

/-- **The aggregate of linked children** counts their leaves. -/
theorem aggregateChildren_meets (hs : Sound children) :
    Meets (aggregateChildren (children.map Prod.fst)) (Admissible (leavesOf children)) fun r =>
      Totals r.1 (leavesOf children) ∧ r.2 = (if textLength (leavesOf children) = 0 then 0
          else newlineTotal (leavesOf children) + 1)
        ∧ newlineTotal (leavesOf children) + 1 < u64Size
        ∧ Ordered (unitsOf (leavesOf children)) := by
  refine (foldlM_aggregateChild_meets totals_nil (by simp) hs).bind fun acc hacc => ?_
  obtain ⟨htot, hord⟩ := hacc
  rw [nil_append] at htot hord ⊢
  have hnl := newlineTotal_le (leavesOf children)
  rw [← htot.text, ← htot.newlines] at hnl ⊢
  split
  · have hzero : acc.newlines = 0 := by omega
    rw [ensure_true hzero, hzero]
    exact meets_ok ⟨htot, rfl, by decide, hord .nil⟩
  · constructor
    · intro r hr
      simp only [bind_eq_ok, checkedAdd_eq_ok, pure_eq_ok_iff] at hr
      obtain ⟨-, ⟨rfl, hlines⟩, rfl⟩ := hr
      exact ⟨htot, rfl, hlines, hord .nil⟩
    · intro ha
      rw [checkedAdd_of_lt (by rw [htot.newlines]; exact ha.fits.lines)]
      exact ⟨_, rfl⟩

theorem childForNode_tallies (hs : Sound children) (hsum : Summarizes link (leavesOf children))
    (hok : childForNode (children.map Prod.fst) = .ok link) :
    (Tallies link (leavesOf children) ∧ Ordered (unitsOf (leavesOf children)))
      ∧ newlineTotal (leavesOf children) + 1 < u64Size := by
  simp only [childForNode, bind_eq_ok, required_eq_ok, pure_eq_ok] at hok
  obtain ⟨r, hr, head, -, last, -, hlink⟩ := hok
  obtain ⟨htot, hlines, hroom, hord⟩ := (aggregateChildren_meets hs).sound hr
  cases hlink
  exact ⟨⟨⟨hsum, htot.newlines, hlines, hs.occupied⟩, hord⟩, hroom⟩

/-- **A well-formed tree counts its leaves, and keeps their markers in order.** -/
theorem WellFormed.tallies : ∀ {h} {link} {tree},
    WellFormed h link tree → Tallies link (flatten h tree) ∧ Ordered (unitsOf (flatten h tree))
  | 0, _, tree, hw => by
    obtain ⟨rfl, hocc⟩ := hw
    refine ⟨⟨childForLeaf_summarizes _, ?_, ?_, by simpa using hocc⟩,
      by simpa using ordered_units _⟩
    all_goals cases h : tree.leaf <;> simp [childForLeaf, newlines, h]
  | h + 1, link, tree, hw => (childForNode_tallies
      (fun c hc => (hw.2 c hc).2.tallies) hw.summary hw.1).1

theorem WellFormed.ordered {tree : SequenceTree h} (hw : WellFormed h link tree) :
    Ordered (unitsOf (flatten h tree)) := hw.tallies.2

theorem WellFormed.fits {tree : SequenceTree (h + 1)} (hw : WellFormed (h + 1) link tree) :
    Fits (flatten (h + 1) tree) :=
  ⟨hw.summary.bytes ▸ hw.bounded.1,
    (childForNode_tallies (fun c hc => (hw.2 c hc).2.tallies) hw.summary hw.1).2,
    hw.summary.pieces ▸ hw.bounded.2⟩

/-! ## Building a node -/

/-- **A document with room for every counter of its tree.** -/
def Roomy (document : List DraftUnit) : Prop := document.length + 1 < u64Size

theorem Roomy.fits (h : Roomy (unitsOf leaves)) (hocc : ∀ x ∈ leaves, x.Occupied) :
    Fits leaves := by
  have hlen := length_le_unitsOf hocc
  have hnl := newlineTotal_le leaves
  rw [Roomy] at h
  rw [length_unitsOf] at h hlen
  exact ⟨by omega, by omega, by omega⟩

/-- The key loop never overflows over children that end where their text does. -/
theorem exists_lastKeyOf : ∀ children key
    (offset : ℕ), (∀ c ∈ children, c.last.anchor = c.logicalUtf8Bytes) →
      offset + (children.map (·.logicalUtf8Bytes)).sum < u64Size →
      ∃ last, lastKeyOf key offset children = .ok last
  | [], key, _, _, _ => ⟨key, rfl⟩
  | c :: cs, key, offset, hlast, hsum => by
    rw [map_cons, sum_cons] at hsum
    obtain ⟨last, hrest⟩ := exists_lastKeyOf cs (c.last.shift offset) (offset + c.logicalUtf8Bytes)
      (fun d hd => hlast d (by simp [hd])) (by omega)
    refine ⟨last, ?_⟩
    rw [lastKeyOf, checkedOffsetKey_of_lt (by rw [hlast c (by simp)]; omega), ok_bind,
      checkedAdd_bind (by omega), hrest]

/-- **Leaves a tree can be built over have a link.** -/
theorem exists_childForNode (hs : Sound children) (hne : children ≠ [])
    (ha : Admissible (leavesOf children)) :
    ∃ link, childForNode (children.map Prod.fst) = .ok link := by
  obtain ⟨r, hr⟩ := (aggregateChildren_meets hs).total ha
  obtain ⟨c, cs, rfl⟩ := exists_cons_of_ne_nil hne
  have hbytes : ((List.map Prod.fst (c :: cs)).map (·.logicalUtf8Bytes)).sum
      = textLength (leavesOf (c :: cs)) := by
    rw [map_map]
    exact (sum_map_links fun d hd => (hs d hd).1.toSummarizes).1
  obtain ⟨last, hlast⟩ := exists_lastKeyOf (List.map Prod.fst (c :: cs)) c.1.first 0
    (by
      intro d hd
      obtain ⟨e, he, rfl⟩ := mem_map.mp hd
      obtain ⟨ys, y, -, hy⟩ := (hs e he).1.last
      rw [hy, anchor_endKey, (hs e he).1.bytes])
    (by rw [hbytes, zero_add]; exact ha.fits.bytes)
  rw [map_cons] at hr hlast
  exact ⟨_, by
    rw [map_cons, childForNode, hr, ok_bind]
    simp only [head?_cons, required_some, ok_bind, hlast, pure_eq_ok]
    rfl⟩

/-- `new_sequence_leaf`. -/
def newSequenceLeaf (value : DraftPieceLeafValue) : SequenceRef 0 :=
  ⟨childForLeaf value, value, true⟩

/-- `new_sequence_node`, for children of height `h`. -/
def newSequenceNode {h : ℕ} (children : Links h) : Prepared (SequenceRef (h + 1)) := do
  ensure (h + 1 ≤ draftPieceMaxHeight ∧ children ≠ []
    ∧ children.length ≤ draftPieceMaxChildren) treeLimit
  let link ← (childForNode (children.map Prod.fst)).mapError .rejected
  return ⟨link, children, true⟩

/-- A link with its tree may stand below a node. -/
def Standing {h : ℕ} (c : Link h) : Prop :=
  Filled 2 h c.2 ∧ WellFormed h c.1 c.2

theorem newSequenceLeaf_standing (hx : x.Occupied) :
    Standing (h := 0) ((newSequenceLeaf x).link, (newSequenceLeaf x).tree) := ⟨trivial, rfl, hx⟩

/-- **A new node over some children.** -/
structure NodeOver {h : ℕ} (ref : SequenceRef (h + 1)) (children : Links h) : Prop where
  wellFormed : WellFormed (h + 1) ref.link ref.tree
  children_eq : ref.tree.children = children
  selected : ref.selectedRoot = true
  width : children.length ≤ draftPieceMaxChildren
  height : h + 1 ≤ draftPieceMaxHeight

theorem NodeOver.flatten_eq (hn : NodeOver ref children) :
    flatten (h + 1) ref.tree = leavesOf children := by rw [flatten_succ, hn.children_eq]

theorem NodeOver.filled (hn : NodeOver ref children) {least : ℕ}
    (hle : least ≤ children.length) : Filled least (h + 1) ref.tree := by
  rw [Filled, hn.children_eq]
  exact ⟨hle, hn.width⟩

/-- **A node is built over children of a legal shape whose leaves are admissible.** -/
theorem newSequenceNode_meets (hs : ∀ c ∈ children, Standing c) :
    Meets (newSequenceNode children) ((h + 1 ≤ draftPieceMaxHeight ∧ children ≠ []
      ∧ children.length ≤ draftPieceMaxChildren) ∧ Admissible (leavesOf children))
      fun ref => NodeOver ref children := by
  constructor
  · intro ref hok
    simp only [newSequenceNode, bind_eq_ok, ensure_eq_ok, mapError_eq_ok, pure_eq_ok_iff] at hok
    obtain ⟨-, ⟨hh, hne, hlen⟩, link, hlink, rfl⟩ := hok
    exact ⟨⟨hlink, fun c hc => hs c hc⟩, rfl, rfl, hlen, hh⟩
  · rintro ⟨hshape, ha⟩
    obtain ⟨link, hlink⟩ := exists_childForNode (fun c hc => (hs c hc).2.tallies)
      hshape.2.1 ha
    exact ⟨_, by rw [newSequenceNode, ensure_true hshape, hlink]; rfl⟩

/-! ## Height -/

/-- **A filled tree of height `h` has at least `2 ^ h` leaves.** -/
theorem two_pow_le_length : ∀ {h} {c}, Standing c → 2 ^ h ≤ (flatten h c.2).length
  | 0, c, _ => by simp
  | h + 1, c, ⟨hf, hw⟩ => by
    have hall : ∀ d ∈ c.2.children, 2 ^ h ≤ (flatten h d.2).length := fun d hd =>
      two_pow_le_length (hw.2 d hd)
    have hlen : 2 ≤ c.2.children.length := hf.1
    rw [flatten_succ]
    match hch : c.2.children, hlen, hall with
    | a :: b :: rest, _, hall =>
      have h1 := hall a (by simp)
      have h2 := hall b (by simp)
      simp only [leavesOf_cons, length_append]
      rw [pow_succ]
      omega

end Beryl.Draft
