import Beryl.Draft.Build.MapSound
import Beryl.Draft.Build.Places

/-!
# Draft/Build/Ledger — the draft and its map, in step

`Ledger document edits roots map` says that the working roots spell the document after the edits,
and that the map tells where each of its units comes from.  A quantum of deletion takes the last
slice of a range out of both; a quantum of insertion writes one chunk into both.  **What a splice
does to the draft it does to the last edit of the ledger** (`Ledger.remove`, `Ledger.insert`).
-/

namespace Beryl.Draft

open Fallible Replace List

/-- Edits of a draft. -/
abbrev Edits := List (Edit DraftUnit)

/-! ## Slices and chunks of the sequence -/

variable {sequence : WorkingSequence} {start stop boundary : Boundary} {u v : ℕ} {splice : Splice}
  {chunk : Utf8}

/-- The splice of the last slice of a range. -/
def SliceAt (leaves : Leaves) (start stop : Boundary) (u v : ℕ) (splice : Splice) : Prop :=
  ∃ slice l t r last, start < stop ∧ tailSlice start stop = .ok slice
    ∧ LastSlice leaves start stop u v slice l t r last
    ∧ splice = sliceSplice (unitsOf l).length slice.first last

variable {leaves : Leaves} {slice : TailSlice} {h : ℕ}

theorem exists_sliceAt (hocc : ∀ x ∈ leaves, x.Occupied)
    (hs : PlacedAt leaves start u) (ht : PlacedAt leaves stop v) (huv : u < v)
    (hbytes : ∀ i, u ≤ i → i < v → ∃ b, (unitsOf leaves)[i]? = some (.byte b)) :
    ∃ splice, SliceAt leaves start stop u v splice := by
  obtain ⟨hlt, slice, l, t, r, last, htail, hlast⟩ := exists_tailSlice hocc hs ht huv hbytes
  exact ⟨_, slice, l, t, r, last, hlt, htail, hlast, rfl⟩

theorem SliceAt.bounds (h : SliceAt leaves start stop u v splice) :
    splice.kind = .textDelete ∧ u ≤ splice.a ∧ 0 < splice.removed
      ∧ splice.a + splice.removed = v ∧ splice.inserted = 0 := by
  obtain ⟨slice, l, t, r, last, -, -, hlast, rfl⟩ := h
  have h1 := hlast.first_lt
  have h2 := hlast.stop_eq
  refine ⟨rfl, hlast.start_le, ?_, ?_, rfl⟩ <;> simp only [sliceSplice] <;> omega

/-- Proof and removal pick the same leaf. -/
theorem deletionRank_eq (htail : tailSlice start stop = .ok slice) :
    deletionRank stop = .ok slice.rank := by
  unfold tailSlice at htail
  unfold deletionRank
  split at htail
  · rename_i h
    rw [if_pos h]
    split at htail <;> cases htail <;> rfl
  · rename_i h
    rw [if_neg h]
    simp only [bind_eq_ok, ensure_eq_ok, exists_const] at htail
    obtain ⟨rank, hrank, -, htail⟩ := htail
    rw [hrank]
    split at htail <;> cases htail <;> rfl

/-- **The proof of a deletion finds the last slice.** -/
theorem deletionProof_eq (hs : Rooted sequence)
    (hslice : SliceAt (workingLeaves sequence) start stop u v splice) :
    deletionProof sequence start stop = .ok splice := by
  obtain ⟨slice, l, t, r, last, hlt, htail, hlast, rfl⟩ := hslice
  have hmarks : UnitFact.Marks
      ⟨⟨l.length, 0⟩, (unitsOf l).length, textLength l, markerTotal l, some (.text t)⟩
      (workingLeaves sequence) := by
    rw [hlast.split]
    exact ⟨.between rfl, by simp, by simp, by simp⟩
  have hfact := atBoundary_of_marks hs hmarks
  simp only at hfact
  rw [deletionProof, ensure_bind hlt, deletionRank_eq htail, ok_bind, hlast.rank]
  simp only [hfact, ok_bind, required_some, ← hlast.first_eq, ← hlast.last_eq]
  rw [ensure_true ⟨hlast.first_lt, hlast.last_le, hlast.firstChar, hlast.lastChar⟩]
  rfl

/-- What is left of a document without its last slice. -/
theorem LastSlice.units {l r : Leaves} {t : Utf8} {last : ℕ}
    (h : LastSlice leaves start stop u v slice l t r last) :
    unitsOf (l ++ sliced t slice.first last ++ r)
        = cutOut ((unitsOf l).length + slice.first) v (unitsOf leaves)
      ∧ markerTotal (l ++ sliced t slice.first last ++ r) = markerTotal leaves := by
  have h1 := h.first_lt
  have h2 := h.last_le
  constructor
  · have hcut := cutOut_middle (a := (unitsOf l).length + slice.first)
      (b := (unitsOf l).length + last) (x := unitsOf l) (y := t.map DraftUnit.byte) (by omega)
      (by omega) (by simp; omega) (unitsOf r)
    rw [max_eq_left (by omega), Nat.add_sub_cancel_left, Nat.add_sub_cancel_left,
      append_assoc (unitsOf l) (t.map DraftUnit.byte)] at hcut
    rw [← h.stop_eq, h.split, unitsOf_append, unitsOf_append, unitsOf_sliced,
      unitsOf_append, unitsOf_cons, units_text, hcut, cutOut, map_take, map_drop]
  · rw [h.split]
    have : markerTotal (sliced t slice.first last) = 0 := by
      unfold sliced
      split <;> simp
    simp [this]

/-- A document less the end of a range of text, as long as text of the range is left. -/
theorem ordered_cutOut {document : List DraftUnit} {a : ℕ} (h : Ordered document) (hua : u < a)
    (hav : a ≤ v) (hbytes : ∀ i, u ≤ i → i < v → ∃ b, document[i]? = some (.byte b)) :
    Ordered (cutOut a v document) := by
  refine isChain_append.mpr ⟨h.take a, h.drop v, fun x hx y _ => ?_⟩
  obtain ⟨b, hb⟩ := hbytes (a - 1) (by omega) (by omega)
  rw [getLast?_take, if_neg (by omega), hb] at hx
  obtain rfl : .byte b = x := by simpa using hx
  exact keysRise_byte_left b y

/-- **The draft after a slice is removed.**  It can be removed when what is left is in order. -/
theorem removeSliceAt_meets (mapping : MappingStage) {ref : SequenceRef h}
    (hwork : Workable ref) (hslice : SliceAt (flatten h ref.tree) start stop u v splice) :
    Meets (removeTextSlice mapping ref start stop)
      (Allows mapping splice ∧ Ordered (cutOut splice.a v (unitsOf (flatten h ref.tree)))
        ∧ Fits (flatten h ref.tree)) fun result =>
      unitsOf (workingLeaves result.1) = cutOut splice.a v (unitsOf (flatten h ref.tree))
        ∧ markerTotal (workingLeaves result.1) = markerTotal (flatten h ref.tree)
        ∧ PlacedAt (workingLeaves result.1) result.2.1 u
        ∧ PlacedAt (workingLeaves result.1) result.2.2 splice.a
        ∧ (Fits (flatten h ref.tree) → Fits (workingLeaves result.1))
        ∧ ∀ k top, result.1 = some ⟨k, top⟩ → Workable top := by
  obtain ⟨slice, l, t, r, last, hlt, htail, hlast, rfl⟩ := hslice
  obtain ⟨hunits, hmks⟩ := hlast.units
  have hfits : Fits (flatten h ref.tree) → Fits (l ++ sliced t slice.first last ++ r) := fun hf =>
    (hlast.split ▸ hf : Fits (l ++ .text t :: r)).sliced hlast.first_lt
  refine (removeTextSlice_meets hwork hlt htail hlast).mono
    (fun hc => ⟨hc.1, hunits.symm ▸ hc.2.1, hfits hc.2.2⟩) fun result hres => ?_
  obtain ⟨hlvs, hends, hworks⟩ := hres
  rw [hlvs, hends]
  exact ⟨hunits, hmks, hlast.nextStart, hlast.nextEnd, hfits, hworks⟩

theorem CutsAt.length_left {left right : Leaves} (h : CutsAt leaves boundary left right) :
    left.length = boundary.rank + if boundary.inner ≠ 0 then 1 else 0 := by
  rcases h with ⟨h0, -, hlen⟩ | ⟨l, t, r, -, hlen, h0, -, -, rfl, -⟩
  · simp [h0, hlen]
  · simp [h0.ne', hlen]

/-- Bytes may stand anywhere. -/
theorem ordered_insert {a b : List DraftUnit} (h : Ordered (a ++ b)) (t : Utf8) :
    Ordered (a ++ t.map .byte ++ b) := by
  cases t with
  | nil => simpa using h
  | cons c t =>
    refine isChain_append.mpr ⟨isChain_append.mpr ⟨h.left, ordered_bytes _, ?_⟩, h.right, ?_⟩
    · rintro x - y hy
      obtain rfl : .byte c = y := by simpa using hy
      exact keysRise_byte_right x c
    · rintro x hx y -
      rw [getLast?_append_of_ne_nil _ (by simp)] at hx
      obtain ⟨d, -, rfl⟩ := mem_map.mp (mem_of_getLast? hx)
      exact keysRise_byte_left d y

/-- **The draft after a chunk is inserted.**  It can be inserted at every boundary, as long as there
is room. -/
theorem insertChunk_meets (mapping : MappingStage) (hs : Rooted sequence)
    (hplace : PlacedAt (workingLeaves sequence) boundary u) (hchunk : chunk ≠ []) :
    Meets (insertSequenceLeaf mapping sequence boundary (newSequenceLeaf (.text chunk)))
      (Allows mapping ⟨.textInsert, u, 0, chunk.length⟩
        ∧ (unitsOf (workingLeaves sequence)).length + chunk.length + 1 < u64Size) fun root =>
      unitsOf (workingLeaves (some root)) = (unitsOf (workingLeaves sequence)).take u
          ++ chunk.map .byte ++ (unitsOf (workingLeaves sequence)).drop u
        ∧ markerTotal (workingLeaves (some root)) = markerTotal (workingLeaves sequence)
        ∧ PlacedAt (workingLeaves (some root))
          ⟨boundary.rank + (if boundary.inner ≠ 0 then 1 else 0) + 1, 0⟩ (u + chunk.length)
        ∧ Workable root.2 := by
  obtain ⟨left, right, hcut, rfl⟩ := hplace.cuts
  have hunits : unitsOf (left ++ .text chunk :: right)
      = unitsOf left ++ chunk.map .byte ++ unitsOf right := by simp
  refine (insertSequenceLeaf_meets (x := .text chunk) hchunk hs hcut).mono (fun hc => ⟨?_, ?_, ?_⟩)
    fun root hroot => ?_
  · simpa [insertionSplice] using hc.1
  · rw [hunits]
    exact ordered_insert (hcut.units ▸ hs.ordered) chunk
  · obtain ⟨hleft, hright⟩ := hcut.occupied hs.occupied
    have hroom := hc.2
    rw [hcut.units] at hroom
    refine Roomy.fits ?_ (forall_mem_append.mpr ⟨hleft, forall_mem_cons.mpr ⟨hchunk, hright⟩⟩)
    rw [hunits, Roomy]
    simp only [length_append, length_map] at hroom ⊢
    omega
  · obtain ⟨hlvs, hwork⟩ := hroot
    rw [hlvs, hcut.units]
    refine ⟨by simp, ?_, ?_, hwork⟩
    · rcases hcut with ⟨-, hsplit, -⟩ | ⟨l, t, r, hsplit, -, -, -, -, rfl, rfl⟩
      · simp [hsplit]
      · simp [hsplit]
    · have hend : PlacedAt (left ++ .text chunk :: right)
          ⟨(left ++ [DraftPieceLeafValue.text chunk]).length, 0⟩
          (unitsOf (left ++ [DraftPieceLeafValue.text chunk])).length :=
        .between (r := right) (append_cons _ _ _)
      simpa [hcut.length_left] using hend

/-! ## Roots -/

/-- **Roots built over a sequence** that the marker trees agree with. -/
theorem buildRoots_meets {roots : BuildRoots}
    (hworks : ∀ k top, sequence = some ⟨k, top⟩ → Workable top) :
    Meets (buildRoots roots sequence) (Fits (workingLeaves sequence)
      ∧ roots.indexRecords = markerTotal (workingLeaves sequence)
      ∧ roots.orderMarkers = markerTotal (workingLeaves sequence)) fun roots' =>
      ∃ root, roots' = { roots with sequence := root }
        ∧ workingLeaves root = workingLeaves sequence ∧ Rooted root := by
  refine ((rootSequence_meets hworks).mono (·.1) fun _ => id).bind fun root hroot => ?_
  have hcount : sequenceMarkers root = markerTotal (workingLeaves sequence) := by
    rw [sequenceMarkers_eq hroot.2, hroot.1]
  exact (meets_ensure fun hc => ⟨hcount.trans hc.2.1.symm, hcount.trans hc.2.2.symm⟩).bind
    fun _ _ => meets_ok ⟨root, rfl, hroot⟩

/-! ## The ledger -/

/-- **The draft and its map after some edits of a document.** -/
structure Ledger (document : List DraftUnit) (edits : Edits) (roots : BuildRoots)
    (map : MapRoot) : Prop where
  apart : Apart document.length 0 edits
  rooted : Rooted roots.sequence
  units : unitsOf roots.leaves = replaceAll document edits
  index : roots.indexRecords = markerTotal roots.leaves
  order : roots.orderMarkers = markerTotal roots.leaves
  sound : map.Sound
  tags : tagsFrom 0 map.runs = origins document.length edits
  source : sourceOf map.runs = document.length

namespace Ledger

variable {document : List DraftUnit} {edits edits' : Edits} {roots : BuildRoots}
  {map target : MapRoot} (hl : Ledger document edits roots map)

section
include hl

theorem load : loadWorkingRoots roots = .ok roots.sequence :=
  loadWorkingRoots_eq hl.rooted hl.index hl.order

theorem ordered : Ordered (replaceAll document edits) := hl.units ▸ hl.rooted.ordered

/-- The ends of the map are the extents of the two documents. -/
theorem measure : map.measure = ⟨document.length, (replaceAll document edits).length⟩ := by
  rw [hl.sound.measure_eq, measureOf, hl.source, ← length_tagsFrom 0, hl.tags, length_origins]

theorem extent : sequenceExtent roots.sequence = (replaceAll document edits).length := by
  rw [hl.rooted.counts.2.1, ← hl.units]
  rfl

/-- **Behind the cursor, the map adds what the edits have added.** -/
theorem cut (hc : cursorAfter 0 edits ≤ u) (hu : u ≤ document.length) :
    sourceCut map u false = .ok (written document edits + (u - cursorAfter 0 edits)) := by
  obtain ⟨front, hfront, horigins⟩ := origins_eq document
  rw [sourceCut_eq false hl.sound (by rw [hl.source]; exact hu) (by simp), ← hfront]
  exact cutRuns_tail (hl.tags.trans horigins) (by rw [hl.source]; omega) hc (by omega)

theorem congr (happart : Apart document.length 0 edits')
    (hunits : replaceAll document edits' = replaceAll document edits)
    (htags : origins document.length edits' = origins document.length edits) :
    Ledger document edits' roots map :=
  { hl with apart := happart, units := hunits ▸ hl.units, tags := htags ▸ hl.tags }

variable (hworks : ∀ k top, sequence = some ⟨k, top⟩ → Workable top)
  (hmks : markerTotal (workingLeaves sequence) = markerTotal roots.leaves)
include hworks hmks

/-- **An edited sequence with an edited map.** -/
theorem install {roots' : BuildRoots}
    (hok : buildRoots roots sequence = .ok roots') (happart : Apart document.length 0 edits')
    (hunits : unitsOf (workingLeaves sequence) = replaceAll document edits')
    (hsound : target.Sound) (htags : tagsFrom 0 target.runs = origins document.length edits')
    (hsrc : sourceOf target.runs = document.length) :
    Ledger document edits' roots' target ∧ roots'.leaves = workingLeaves sequence := by
  obtain ⟨root, rfl, hlvs, hrooted⟩ := (buildRoots_meets hworks).sound hok
  refine ⟨⟨happart, hrooted, ?_, ?_, ?_, hsound, htags, hsrc⟩, hlvs⟩
  · exact (congrArg unitsOf hlvs).trans hunits
  · exact hl.index.trans (hmks.symm.trans (congrArg markerTotal hlvs.symm))
  · exact hl.order.trans (hmks.symm.trans (congrArg markerTotal hlvs.symm))

theorem exists_install (hfits : Fits (workingLeaves sequence)) :
    ∃ roots', buildRoots roots sequence = .ok roots' :=
  (buildRoots_meets hworks).total
    ⟨hfits, hl.index.trans hmks.symm, hl.order.trans hmks.symm⟩

end

/-! ## Splices -/

section

variable {s m e : ℕ} {inserted : List DraftUnit} {roots' : BuildRoots}

/-- **A slice less** of the draft and of the map is a slice less of the last range. -/
theorem remove (hl : Ledger document (edits ++ [⟨m, e, []⟩]) roots map)
    (hc : cursorAfter 0 edits ≤ s) {ref : SequenceRef h} (hseq : roots.sequence = some ⟨h, ref⟩)
    (hslice : SliceAt roots.leaves start stop (written document edits + (s - cursorAfter 0 edits))
      (written document edits + (m - cursorAfter 0 edits)) splice) (hsound : target.Sound)
    (hruns : RunsEdited map.runs target.runs (cutOut splice.a (splice.a + splice.removed)))
    {result : WorkingSequence × Boundary × Boundary}
    (hok : removeTextSlice (some (some splice)) ref start stop = .ok result)
    (hbuild : buildRoots roots result.1 = .ok roots') :
    ∃ m', s ≤ m' ∧ m' < m ∧ Ledger document (edits ++ [⟨m', e, []⟩]) roots' target
      ∧ PlacedAt roots'.leaves result.2.1 (written document edits + (s - cursorAfter 0 edits))
      ∧ PlacedAt roots'.leaves result.2.2
          (written document edits + (m' - cursorAfter 0 edits)) := by
  obtain ⟨happart, hcm, hme, he⟩ := hl.apart.last
  simp only at hcm hme he
  obtain ⟨-, h1, h2, h3, -⟩ := hslice.bounds
  have hroots : roots.leaves = flatten h ref.tree := by rw [BuildRoots.leaves, hseq]; rfl
  obtain ⟨m', hm', ha⟩ : ∃ m', cursorAfter 0 edits + (m' - cursorAfter 0 edits) = m'
      ∧ splice.a = written document edits + (m' - cursorAfter 0 edits) :=
    ⟨cursorAfter 0 edits + (splice.a - written document edits), by omega, by omega⟩
  have hend : splice.a + splice.removed = written document edits + (m - cursorAfter 0 edits) := h3
  obtain ⟨hunits, hmks, hstart, hstop, -, hworks⟩ :=
    (removeSliceAt_meets _ (hl.rooted h ref hseq).1 (hroots ▸ hslice)).sound hok
  have hdoc : unitsOf (workingLeaves result.1) = replaceAll document (edits ++ [⟨m', e, []⟩]) := by
    rw [hunits, ← hroots, hl.units, ha]
    exact replaceAll_remove (by omega) (by omega) (by omega)
  have htags : tagsFrom 0 target.runs = origins document.length (edits ++ [⟨m', e, []⟩]) := by
    rw [hruns.tags, hl.tags, hend, ha]
    exact origins_remove (by omega) (by omega) (by omega)
  have happart' : Apart document.length 0 (edits ++ [⟨m', e, []⟩]) :=
    happart.concat (by simp only; omega) he (by simp only; omega)
  obtain ⟨hled, hlvs⟩ := hl.install hworks
    (hmks.trans (congrArg markerTotal hroots.symm)) hbuild happart' hdoc hsound htags
    (hruns.source.trans hl.source)
  rw [hlvs]
  exact ⟨m', by omega, by omega, hled, hstart, ha ▸ hstop⟩

/-- **A chunk more** in the draft and in the map is a chunk more of what the last edit inserts. -/
theorem insert (hl : Ledger document (edits ++ [⟨s, e, inserted⟩]) roots map)
    (hplace : PlacedAt roots.leaves boundary (written document (edits ++ [⟨s, e, inserted⟩])))
    (hchunk : chunk ≠ []) (hsound : target.Sound) (hruns : RunsEdited map.runs target.runs
      (insertTags (written document (edits ++ [⟨s, e, inserted⟩])) chunk.length))
    {mapping : MappingStage} {root : Σ h, SequenceRef h}
    (hok : insertSequenceLeaf mapping roots.sequence boundary (newSequenceLeaf (.text chunk)) =
      .ok root)
    (hbuild : buildRoots roots (some root) = .ok roots') :
    Ledger document (edits ++ [⟨s, e, inserted ++ chunk.map .byte⟩]) roots' target
      ∧ PlacedAt roots'.leaves ⟨boundary.rank + (if boundary.inner ≠ 0 then 1 else 0) + 1, 0⟩
        (written document (edits ++ [⟨s, e, inserted ++ chunk.map .byte⟩])) := by
  obtain ⟨happart, hcm, hme, he⟩ := hl.apart.last
  simp only at hcm hme he
  obtain ⟨hunits, hmks, hend, hwork⟩ := (insertChunk_meets _ hl.rooted hplace hchunk).sound hok
  have hdoc : unitsOf (workingLeaves (some root))
      = replaceAll document (edits ++ [⟨s, e, inserted ++ chunk.map .byte⟩]) := by
    rw [hunits, ← replaceAll_insert, ← hl.units]
    rfl
  have htags : tagsFrom 0 target.runs
      = origins document.length (edits ++ [⟨s, e, inserted ++ chunk.map .byte⟩]) := by
    rw [hruns.tags, hl.tags, ← origins_insert, length_map]
    rfl
  have happart' : Apart document.length 0 (edits ++ [⟨s, e, inserted ++ chunk.map .byte⟩]) :=
    happart.concat hme he hcm
  obtain ⟨hled, hlvs⟩ := hl.install (by rintro k top ⟨⟩; exact hwork) hmks hbuild
    happart' hdoc hsound htags (hruns.source.trans hl.source)
  refine ⟨hled, ?_⟩
  rw [hlvs]
  have hwritten : written document (edits ++ [⟨s, e, inserted ++ chunk.map .byte⟩])
      = written document (edits ++ [⟨s, e, inserted⟩]) + chunk.length := by
    rw [written_concat _ _ (by simp only; omega), written_concat _ _ (by simp only; omega)]
    simp only [length_append, length_map]
    omega
  rw [hwritten]
  exact hend

end

end Ledger

end Beryl.Draft
