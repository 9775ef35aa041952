import Beryl.Draft.Sequence.Markers

/-!
# Draft/Read/Guided — descents that follow a test on links

Every keyed search of the draft tree has one shape: at each node take the first child whose link
passes a test, down to a leaf.  The test sees only the aggregates of the link, while the search is
after a leaf; `Guides` says how the two are related — the test is exact on the link of a leaf, and
never turns down a subtree that holds a leaf searched for.

It may still accept a subtree that holds none.  `Shadowed` is the case where that happens in front
of the leaf searched for: then the descent enters the wrong subtree and comes back empty
(`guidedCursor_shadowed`); otherwise it finds the first such leaf (`guidedCursor_found`).
-/

namespace Beryl.Draft

open Fallible Search List

/-! ## The search -/

/-- The scan of a node: the first child that passes, with its index, anchor and rank. -/
def selectChild (overflow : DraftPiecePrepareError)
    (accepts : ℕ → DraftPieceChild → Prepared Bool) {h : ℕ} :
    Links h → ℕ → ℕ → ℕ → Prepared (Option (ℕ × Link h × ℕ × ℕ))
  | [], _, _, _ => .ok none
  | child :: children, index, anchor, rank => do
    if ← accepts anchor child.1 then
      return some (index, child, anchor, rank)
    else
      let anchor ← checkedAdd overflow anchor child.1.logicalUtf8Bytes
      let rank ← checkedAdd overflow rank child.1.pieceCount
      selectChild overflow accepts children (index + 1) anchor rank

/-- The descent: one scan per level, a frame pushed for each node left behind. -/
def guidedCursor (overflow : DraftPiecePrepareError)
    (accepts : ℕ → DraftPieceChild → Prepared Bool) :
    (h : ℕ) → SequenceRef h → ℕ → ℕ → List CursorFrame → Prepared (Option SequenceCursor)
  | 0, ref, anchor, rank, frames =>
    .ok (some ⟨frames, ⟨rank, anchor, ref.link, ref.tree.leaf⟩⟩)
  | h + 1, ref, anchor, rank, frames => do
    let node ← loadSequenceNode ref
    match ← selectChild overflow accepts node 0 anchor rank with
    | none => return none
    | some (index, child, childAnchor, childRank) =>
      guidedCursor overflow accepts h ⟨child.1, child.2, false⟩ childAnchor childRank
        (⟨h, node, index, anchor, rank⟩ :: frames)

/-! ## What the test means -/

variable {A : ℕ → DraftPieceChild → Bool} {base : ℕ} {x : DraftPieceLeafValue}

/-- A leaf of the run, at its own anchor, satisfies `P`. -/
def HoldsIn (P : ℕ → DraftPieceLeafValue → Prop) (base : ℕ) (leaves : Leaves) :
    Prop := ∃ l x r, leaves = l ++ x :: r ∧ P (base + textLength l) x

variable {P : ℕ → DraftPieceLeafValue → Prop}

@[simp] theorem holdsIn_nil (base : ℕ) : ¬ HoldsIn P base [] := by
  rintro ⟨l, x, r, h, -⟩
  simp at h

theorem holdsIn_cons {xs : Leaves} :
    HoldsIn P base (x :: xs) ↔ P base x ∨ HoldsIn P (base + x.bytes.length) xs := by
  constructor
  · rintro ⟨l, y, r, h, hp⟩
    cases l with
    | nil =>
      simp only [nil_append, List.cons.injEq] at h
      exact .inl (by simpa [h.1] using hp)
    | cons z zs =>
      simp only [cons_append, List.cons.injEq] at h
      exact .inr ⟨zs, y, r, h.2, by simpa [h.1, add_assoc] using hp⟩
  · rintro (hp | ⟨l, y, r, rfl, hp⟩)
    · exact ⟨[], x, xs, rfl, by simpa using hp⟩
    · exact ⟨x :: l, y, r, rfl, by simpa [add_assoc] using hp⟩

theorem holdsIn_append {xs ys : Leaves} :
    HoldsIn P base (xs ++ ys) ↔ HoldsIn P base xs ∨ HoldsIn P (base + textLength xs) ys := by
  induction xs generalizing base with
  | nil => simp
  | cons x xs ih => simp [holdsIn_cons, ih, or_assoc, add_assoc]

theorem holdsIn_singleton : HoldsIn P base [x] ↔ P base x := by simp [holdsIn_cons]

/-- **How a test on links serves a search for leaves**: exact at a leaf, and never closed to a
subtree that holds what is searched for. -/
structure Guides (A : ℕ → DraftPieceChild → Bool) (P : ℕ → DraftPieceLeafValue → Prop) : Prop where
  leaf : ∀ base x, A base (childForLeaf x) = true ↔ P base x
  complete : ∀ base link leaves, Summarizes link leaves → (∀ x ∈ leaves, x.Occupied) →
    KeysSorted (markersFrom base leaves) → HoldsIn P base leaves → A base link = true

/-- The checked test computes `A` wherever the subtree ends inside a `u64`. -/
def Computes (accepts : ℕ → DraftPieceChild → Prepared Bool) (A : ℕ → DraftPieceChild → Bool) :
    Prop :=
  ∀ base link leaves, Summarizes link leaves → base + textLength leaves < u64Size →
    accepts base link = .ok (A base link)

/-- **A leaf searched for is shadowed**: on the way to the first one, at some node, an earlier child
that holds none passes the test. -/
def Shadowed (A : ℕ → DraftPieceChild → Bool) (P : ℕ → DraftPieceLeafValue → Prop) :
    (h : ℕ) → SequenceTree h → ℕ → Prop
  | 0, _, _ => False
  | h + 1, tree, base => ∃ l d r, tree.children = l ++ d :: r
      ∧ ¬ HoldsIn P base (leavesOf l)
      ∧ HoldsIn P (base + textLength (leavesOf l)) (flatten h d.2)
      ∧ ((∃ l₁ c l₂, l = l₁ ++ c :: l₂ ∧ A (base + textLength (leavesOf l₁)) c.1 = true)
        ∨ Shadowed A P h d.2 (base + textLength (leavesOf l)))

theorem Shadowed.holdsIn : ∀ {h} {tree} {base}, Shadowed A P h tree base →
      HoldsIn P base (flatten h tree)
  | h + 1, tree, base, ⟨l, d, r, hsplit, _, hd, _⟩ => by
    rw [flatten_succ, hsplit, leavesOf_append, leavesOf_cons]
    exact holdsIn_append.mpr (.inr (holdsIn_append.mpr (.inl hd)))

/-! ## The scan -/

variable {H : ℕ} {root : SequenceRef H} {accepts : ℕ → DraftPieceChild → Prepared Bool} {h : ℕ}

/-- The scan passes over children that are turned down. -/
theorem selectChild_pass (overflow : DraftPiecePrepareError) (hA : Computes accepts A)
    (rest : Links h) : ∀ {l} index anchor rank, (∀ d ∈ l, Summarizes d.1 (flatten h d.2)) →
      anchor + textLength (leavesOf l) < u64Size → rank + (leavesOf l).length < u64Size →
      (∀ l₁ d l₂, l = l₁ ++ d :: l₂ → ¬ A (anchor + textLength (leavesOf l₁)) d.1 = true) →
      selectChild overflow accepts (l ++ rest) index anchor rank
        = selectChild overflow accepts rest (index + l.length) (anchor + textLength (leavesOf l))
            (rank + (leavesOf l).length)
  | [], _, _, _, _, _, _, _ => by simp
  | d :: l, index, anchor, rank, hs, ha, hr, hl => by
    have hd := hs d (by simp)
    simp only [leavesOf_cons, textLength_append, length_append, ← hd.bytes, ← hd.pieces,
      ← add_assoc] at ha hr ⊢
    have hdfalse : A anchor d.1 = false := by simpa using hl [] d l rfl
    have hacc := hA anchor d.1 _ hd (by rw [← hd.bytes]; omega)
    rw [cons_append, selectChild, hacc, ok_bind, hdfalse, if_neg Bool.false_ne_true,
      checkedAdd_bind (by omega), checkedAdd_bind (by omega),
      selectChild_pass overflow hA rest (index + 1) _ _ (fun e he => hs e (mem_cons_of_mem _ he))
        ha hr fun l₁ e l₂ hle => by
          have := hl (d :: l₁) e l₂ (by rw [hle, cons_append])
          simpa [hd.bytes, add_assoc] using this,
      length_cons, add_right_comm, add_assoc index]

/-! ## The descent -/

section

theorem holdsIn_leavesOf : ∀ {base} {cs}, HoldsIn P base (leavesOf cs) ↔ ∃ l d r, cs = l ++ d :: r
      ∧ HoldsIn P (base + textLength (leavesOf l)) (flatten h d.2)
  | base, [] => by simp
  | base, c :: cs => by
    rw [leavesOf_cons, holdsIn_append, holdsIn_leavesOf]
    constructor
    · rintro (hc | ⟨l, d, r, rfl, hd⟩)
      · exact ⟨[], c, cs, rfl, by simpa using hc⟩
      · exact ⟨c :: l, d, r, rfl, by simpa [add_assoc] using hd⟩
    · rintro ⟨l, d, r, hsplit, hd⟩
      cases l with
      | nil =>
        simp only [nil_append, List.cons.injEq] at hsplit
        exact .inl (by simpa [hsplit.1] using hd)
      | cons e l =>
        simp only [cons_append, List.cons.injEq] at hsplit
        exact .inr ⟨l, d, r, hsplit.2, by simpa [hsplit.1, add_assoc] using hd⟩

section

variable (hroot : WellFormedRoot root) (overflow : DraftPiecePrepareError) (hA : Computes accepts A)
  {ref : SequenceRef (h + 1)} {frames : List CursorFrame}
include hroot hA

theorem CursorPath.guidedCursor_enter {b a : Leaves}
    (path : CursorPath root (h + 1) ref frames b a) {l r : Links h}
    {c : Link h} (split : ref.tree.children = l ++ c :: r)
    (hl : ∀ l₁ d l₂, l = l₁ ++ d :: l₂ → ¬ A (textLength b + textLength (leavesOf l₁)) d.1 = true)
    (hc : A (textLength b + textLength (leavesOf l)) c.1 = true) :
    guidedCursor overflow accepts (h + 1) ref (textLength b) b.length frames
      = guidedCursor overflow accepts h ⟨c.1, c.2, false⟩ (textLength (b ++ leavesOf l))
          (b ++ leavesOf l).length
          (⟨h, ref.tree.children, l.length, textLength b, b.length⟩ :: frames) := by
  obtain ⟨hw, hf⟩ := path.wellFormed hroot
  obtain ⟨hb1, hb2⟩ := path.bounded hroot
  have hs : ∀ d ∈ l ++ c :: r, Summarizes d.1 (flatten h d.2) := fun d hd =>
    (hw.child (split ▸ hd)).summary
  simp only [flatten_succ, split, leavesOf_append, leavesOf_cons, textLength_append,
    length_append] at hb1 hb2
  have hpass := selectChild_pass overflow hA (c :: r) 0 (textLength b) b.length
    (fun d hd => hs d (mem_append_left _ hd)) (by omega) (by omega) hl
  have hacc := hA (textLength b + textLength (leavesOf l)) c.1 _ (hs c (by simp)) (by omega)
  simp only [guidedCursor, loadSequenceNode_ok hw hf, ok_bind]
  simp [split, hpass, selectChild, hacc, hc]

theorem CursorPath.guidedCursor_stop {b a : Leaves} (path : CursorPath root (h + 1) ref frames b a)
    (hl : ∀ l c r, ref.tree.children = l ++ c :: r →
      ¬ A (textLength b + textLength (leavesOf l)) c.1 = true) :
    guidedCursor overflow accepts (h + 1) ref (textLength b) b.length frames = .ok none := by
  obtain ⟨hw, hf⟩ := path.wellFormed hroot
  obtain ⟨hb1, hb2⟩ := path.bounded hroot
  simp only [flatten_succ, textLength_append, length_append] at hb1 hb2
  have hpass := selectChild_pass overflow hA [] 0 _ _ (fun d hd => (hw.child hd).summary) hb1 hb2 hl
  rw [append_nil] at hpass
  simp only [guidedCursor, loadSequenceNode_ok hw hf, ok_bind, hpass]
  rfl

end

variable (hdoc : WellFormedDocument root) (overflow : DraftPiecePrepareError)
  (hA : Computes accepts A) (hG : Guides A P)
include hdoc hA hG

/-- **The descent finds the first leaf searched for, unless it is shadowed.** -/
theorem guidedCursor_found : ∀ {h} {ref} {frames} {b a}, CursorPath root h ref frames b a →
    HoldsIn P (textLength b) (flatten h ref.tree) → ¬ Shadowed A P h ref.tree (textLength b) →
    ∃ cursor l x r, guidedCursor overflow accepts h ref (textLength b) b.length frames
        = .ok (some cursor) ∧ flatten h ref.tree = l ++ x :: r ∧ P (textLength (b ++ l)) x
      ∧ ¬ HoldsIn P (textLength b) l ∧ CursorAt root cursor (b ++ l) x (r ++ a)
  | 0, ref, frames, b, a, path, hex, _ => by
    rw [flatten_zero, holdsIn_singleton] at hex
    exact ⟨_, [], ref.tree.leaf, [], rfl, by simp, by simpa using hex, by simp,
      ref, by simpa using path, rfl, by simp⟩
  | h + 1, ref, frames, b, a, path, hex, hsh => by
    obtain ⟨l, d, r, hsplit, hd, hfirst⟩ | hno := first_split
      (fun l d => HoldsIn P (textLength b + textLength (leavesOf l)) (flatten h d.2))
      ref.tree.children
    · have hl : ¬ HoldsIn P (textLength b) (leavesOf l) := by
        rw [holdsIn_leavesOf]
        rintro ⟨l₁, e, l₂, hle, he⟩
        exact hfirst l₁ e l₂ hle he
      have hclear : ∀ l₁ e l₂, l = l₁ ++ e :: l₂ →
          ¬ A (textLength b + textLength (leavesOf l₁)) e.1 = true := fun l₁ e l₂ hle hacc =>
        hsh ⟨l, d, r, hsplit, hl, hd, .inl ⟨l₁, e, l₂, hle, hacc⟩⟩
      have hpath := path.enter hsplit
      have hwell := (hpath.wellFormed hdoc.toWellFormedRoot).1
      have hacc : A (textLength b + textLength (leavesOf l)) d.1 = true := by
        rw [← textLength_append] at hd ⊢
        exact hG.complete _ _ _ hwell.summary hwell.occupied (hpath.keysSorted hdoc) hd
      have hrest : ¬ Shadowed A P h d.2 (textLength (b ++ leavesOf l)) := by
        rw [textLength_append]
        exact fun hs => hsh ⟨l, d, r, hsplit, hl, hd, .inr hs⟩
      obtain ⟨cursor, l', x, r', hcur, hfl, hx, hl', hat⟩ :=
        guidedCursor_found hpath (by rw [textLength_append]; exact hd) hrest
      refine ⟨cursor, leavesOf l ++ l', x, r' ++ leavesOf r, ?_, ?_, by simpa using hx, ?_,
        by simpa using hat⟩
      · rw [path.guidedCursor_enter hdoc.toWellFormedRoot overflow hA hsplit hclear hacc]
        exact hcur
      · rw [flatten_succ, hsplit]
        simp only [leavesOf_append, leavesOf_cons, append_assoc] at hfl ⊢
        rw [hfl]
        simp
      · rw [holdsIn_append, not_or]
        exact ⟨hl, by simpa using hl'⟩
    · rw [flatten_succ, holdsIn_leavesOf] at hex
      obtain ⟨l, d, r, hsplit, hd⟩ := hex
      exact absurd hd (hno l d r hsplit)

/-- Below a node without a leaf searched for, the descent comes back empty. -/
theorem guidedCursor_free : ∀ {h} {ref} {frames}
    {b a : Leaves}, CursorPath root (h + 1) ref frames b a →
    ¬ HoldsIn P (textLength b) (flatten (h + 1) ref.tree) →
    guidedCursor overflow accepts (h + 1) ref (textLength b) b.length frames = .ok none := by
  intro h
  induction h with
  | zero =>
    intro ref frames b a path hfree
    refine path.guidedCursor_stop hdoc.toWellFormedRoot overflow hA fun l c r hsplit hacc => ?_
    -- the link of a leaf is tested exactly
    have hlink := (path.wellFormed hdoc.toWellFormedRoot).1.child
      (show c ∈ ref.tree.children by rw [hsplit]; simp)
    rw [hlink.1, hG.leaf] at hacc
    refine hfree (holdsIn_leavesOf.mpr ⟨l, c, r, hsplit, ?_⟩)
    rw [flatten_zero, holdsIn_singleton]
    exact hacc
  | succ h ih =>
    intro ref frames b a path hfree
    obtain ⟨l, c, r, hsplit, hc, hfirst⟩ | hno := first_split
      (fun l c => A (textLength b + textLength (leavesOf l)) c.1 = true) ref.tree.children
    · rw [path.guidedCursor_enter hdoc.toWellFormedRoot overflow hA hsplit hfirst hc]
      refine ih (path.enter hsplit) fun hin => hfree ?_
      rw [flatten_succ, holdsIn_leavesOf]
      exact ⟨l, c, r, hsplit, by simpa using hin⟩
    · exact path.guidedCursor_stop hdoc.toWellFormedRoot overflow hA hno

/-- **A shadowed leaf is not found**: the descent enters a subtree that holds none. -/
theorem guidedCursor_shadowed : ∀ {h} {ref} {frames} {b a}, CursorPath root h ref frames b a →
    Shadowed A P h ref.tree (textLength b) →
    guidedCursor overflow accepts h ref (textLength b) b.length frames = .ok none
  | h + 1, ref, frames, b, a, path, ⟨l, d, r, hsplit, hl, hd, hsh⟩ => by
    obtain ⟨l₁, c, l₂, rfl, hc, hfirst⟩ | hno := first_split
      (fun l c => A (textLength b + textLength (leavesOf l)) c.1 = true) l
    · have hsplit' : ref.tree.children = l₁ ++ c :: (l₂ ++ d :: r) := by simp [hsplit]
      have hpath := path.enter hsplit'
      have hfree : ¬ HoldsIn P (textLength (b ++ leavesOf l₁)) (flatten h c.2) := fun hin =>
        hl (holdsIn_leavesOf.mpr ⟨l₁, c, l₂, rfl, by simpa using hin⟩)
      rw [path.guidedCursor_enter hdoc.toWellFormedRoot overflow hA hsplit' hfirst hc]
      cases h with
      | zero =>
        have hlink := (hpath.wellFormed hdoc.toWellFormedRoot).1
        simp only at hlink
        rw [hlink.1, hG.leaf] at hc
        exact absurd (holdsIn_singleton.mpr (by simpa using hc)) hfree
      | succ h => exact guidedCursor_free hdoc overflow hA hG hpath hfree
    · have hpath := path.enter hsplit
      have hwell := (hpath.wellFormed hdoc.toWellFormedRoot).1
      have hacc : A (textLength b + textLength (leavesOf l)) d.1 = true := by
        rw [← textLength_append] at hd ⊢
        exact hG.complete _ _ _ hwell.summary hwell.occupied (hpath.keysSorted hdoc) hd
      rw [path.guidedCursor_enter hdoc.toWellFormedRoot overflow hA hsplit hno hacc]
      refine guidedCursor_shadowed hpath ?_
      rw [textLength_append]
      rcases hsh with ⟨l₁, c, l₂, hle, hc⟩ | hsh
      · exact absurd hc (hno l₁ c l₂ hle)
      · exact hsh

end

/-! ## Searches that are never led astray -/

/-- A test that, of two subtrees, passes the earlier one in vain only if the later one is no
answer either. -/
def NeverShadows (A : ℕ → DraftPieceChild → Bool) (P : ℕ → DraftPieceLeafValue → Prop) : Prop :=
  ∀ base link leaves rest, Summarizes link leaves → (∀ x ∈ leaves ++ rest, x.Occupied) →
    KeysSorted (markersFrom base (leaves ++ rest)) → A base link = true →
    HoldsIn P (base + textLength leaves) rest → HoldsIn P base leaves

/-- **Such a test shadows nothing.** -/
theorem CursorPath.not_shadowed (hdoc : WellFormedDocument root) (hA : NeverShadows A P) :
    ∀ {h} {ref} {frames} {b a},
      CursorPath root h ref frames b a → ¬ Shadowed A P h ref.tree (textLength b)
  | 0, _, _, _, _, _, hsh => hsh
  | h + 1, ref, frames, b, a, path, ⟨l, d, r, hsplit, hl, hd, hsh⟩ => by
    obtain ⟨hw, -⟩ := path.wellFormed hdoc.toWellFormedRoot
    rcases hsh with ⟨l₁, c, l₂, rfl, hc⟩ | hsh
    · have hsplit' : ref.tree.children = l₁ ++ c :: (l₂ ++ d :: r) := by simp [hsplit]
      have hcw := hw.child (show c ∈ ref.tree.children by rw [hsplit']; simp)
      have hflat : flatten (h + 1) ref.tree = leavesOf l₁ ++ (flatten h c.2 ++
          (leavesOf l₂ ++ flatten h d.2)) ++ leavesOf r := by
        rw [flatten_succ, hsplit']
        simp
      have hk := path.keysSorted hdoc
      rw [hflat, markersFrom_append, markersFrom_append] at hk
      refine hl (holdsIn_leavesOf.mpr ⟨l₁, c, l₂, rfl, ?_⟩)
      refine hA _ _ _ (leavesOf l₂ ++ flatten h d.2) hcw.summary (fun x hx => ?_)
        hk.append.1.append.2.1 hc ?_
      · refine hw.occupied x ?_
        rw [hflat]
        simp only [mem_append] at hx ⊢
        tauto
      · rw [holdsIn_append]
        exact .inr (by simpa [add_assoc] using hd)
    · have hpath := path.enter hsplit
      refine hpath.not_shadowed hdoc hA ?_
      rw [textLength_append]
      exact hsh

/-- A test that looks at the last leaf alone, for a property that later leaves inherit, guides a
search and never leads it astray. -/
theorem guides_of_last
    (hlast : ∀ base link xs x, Summarizes link (xs ++ [x]) →
      (A base link = true ↔ P (base + textLength xs) x))
    (hmono : ∀ base xs x, (∀ y ∈ xs ++ [x], y.Occupied) → HoldsIn P base xs →
        P (base + textLength xs) x) :
    Guides A P ∧ NeverShadows A P := by
  refine ⟨⟨fun base x => ?_, fun base link leaves hs hocc _ hin => ?_⟩, ?_⟩
  · simpa using hlast base (childForLeaf x) [] x (childForLeaf_summarizes x)
  · obtain ⟨xs, x, rfl, -⟩ := hs.last
    refine (hlast base link xs x hs).mpr ?_
    rcases holdsIn_append.mp hin with hin | hin
    · exact hmono base xs x hocc hin
    · exact holdsIn_singleton.mp hin
  · intro base link leaves rest hs _ _ hacc _
    obtain ⟨xs, x, rfl, -⟩ := hs.last
    exact holdsIn_append.mpr (.inr (holdsIn_singleton.mpr ((hlast base link xs x hs).mp hacc)))

/-! ## What a search returns -/

/-- The place of the leaf `x` behind the leaves `l`. -/
def locatedAt (l : Leaves) (x : DraftPieceLeafValue) : LocatedLeaf :=
  ⟨l.length, textLength l, childForLeaf x, x⟩

theorem CursorAt.leaf_eq (hroot : WellFormedRoot root) {cursor : SequenceCursor}
    {b a : Leaves} (hc : CursorAt root cursor b x a) : cursor.leaf = locatedAt b x := by
  obtain ⟨ref, path, rfl, hleaf⟩ := hc
  have hlink : ref.link = childForLeaf ref.tree.leaf := (path.wellFormed hroot).1.1
  rw [hleaf, hlink, locatedAt]

/-- The place is that of the first leaf searched for. -/
def FirstAt (P : ℕ → DraftPieceLeafValue → Prop) (leaves l : Leaves)
    (x : DraftPieceLeafValue) (r : Leaves) : Prop :=
  leaves = l ++ x :: r ∧ P (textLength l) x ∧ ¬ HoldsIn P 0 l

/-- **A search from the root finds the first leaf searched for**, unless it is shadowed. -/
theorem guidedCursor_root (hdoc : WellFormedDocument root) (overflow : DraftPiecePrepareError)
    (hA : Computes accepts A) (hG : Guides A P) :
    (¬ HoldsIn P 0 (flatten H root.tree) ∧ guidedCursor overflow accepts H root 0 0 [] = .ok none)
    ∨ (Shadowed A P H root.tree 0 ∧ guidedCursor overflow accepts H root 0 0 [] = .ok none)
    ∨ (¬ Shadowed A P H root.tree 0 ∧ ∃ cursor l x r,
        guidedCursor overflow accepts H root 0 0 [] = .ok (some cursor)
        ∧ FirstAt P (flatten H root.tree) l x r ∧ CursorAt root cursor l x r) := by
  by_cases hex : HoldsIn P 0 (flatten H root.tree)
  · by_cases hsh : Shadowed A P H root.tree 0
    · exact .inr (.inl ⟨hsh, guidedCursor_shadowed hdoc overflow hA hG .start hsh⟩)
    · obtain ⟨cursor, l, x, r, hfound, hfl, hx, hl, hat⟩ :=
        guidedCursor_found hdoc overflow hA hG .start hex hsh
      refine .inr (.inr ⟨hsh, cursor, l, x, r, hfound, ⟨hfl, hx, hl⟩, by simpa using hat⟩)
  · refine .inl ⟨hex, ?_⟩
    obtain ⟨h, rfl⟩ : ∃ h, H = h + 1 := ⟨H - 1, by have := hdoc.height.1; omega⟩
    exact guidedCursor_free hdoc overflow hA hG .start hex

end Beryl.Draft
