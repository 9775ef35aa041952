import Beryl.Draft.Sequence.Remove

/-!
# Draft/Sequence/Slice — a range of text, removed from its end

`PlacedAt leaves b u` says that the boundary `b` stands in front of unit `u`.  Boundaries and units
are ordered alike (`PlacedAt.lt_iff`), so a range between two boundaries is a range of units, and
`removeTextSlice` takes the part of it that lies in its last leaf: **the units of the slice are
gone, and the boundaries it returns enclose what is left of the range** (`removeTextSlice_meets`).
-/

namespace Beryl.Draft

open Fallible Search List Boundary DraftPieceLeafValue

/-! ## Boundaries and units -/

/-- **A boundary stands in front of a unit.** -/
inductive PlacedAt (leaves : Leaves) : Boundary → ℕ → Prop
  | between {l r : Leaves} (hsplit : leaves = l ++ r) :
    PlacedAt leaves ⟨l.length, 0⟩ (unitsOf l).length
  | inside {l r : Leaves} {t : Utf8} {i : ℕ} (hsplit : leaves = l ++ .text t :: r)
      (h0 : 0 < i) (hlt : i < t.length) (hchar : isCharBoundary t i = true) :
    PlacedAt leaves ⟨l.length, i⟩ ((unitsOf l).length + i)

section

variable {leaves : Leaves} {b b' : Boundary} {u u' : ℕ}

theorem PlacedAt.cuts (h : PlacedAt leaves b u) :
    ∃ left right, CutsAt leaves b left right ∧ (unitsOf left).length = u := by
  cases h with
  | between hsplit => exact ⟨_, _, .inl ⟨rfl, hsplit, rfl⟩, rfl⟩
  | @inside l r t i hsplit h0 hlt hchar =>
    exact ⟨_, _, .inr ⟨l, t, r, hsplit, rfl, h0, hlt, hchar, rfl, rfl⟩, by
      simp [Nat.min_eq_left hlt.le]⟩

theorem PlacedAt.le_length (h : PlacedAt leaves b u) : u ≤ (unitsOf leaves).length := by
  obtain ⟨left, right, hcut, rfl⟩ := h.cuts
  rw [hcut.units, length_append]
  omega

/-- The units in front of the first `n` leaves. -/
def unitsBefore (leaves : Leaves) (n : ℕ) : ℕ := (unitsOf (leaves.take n)).length

theorem unitsBefore_mono {m n : ℕ} (h : m ≤ n) : unitsBefore leaves m ≤ unitsBefore leaves n := by
  unfold unitsBefore
  rw [← take_append_drop m (leaves.take n), unitsOf_append, length_append, take_take,
    Nat.min_eq_left h]
  omega

theorem unitsBefore_lt_succ (hocc : ∀ x ∈ leaves, x.Occupied) {n : ℕ} (hn : n < leaves.length) :
    unitsBefore leaves n < unitsBefore leaves (n + 1) := by
  have hx := (hocc leaves[n] (getElem_mem hn)).units_pos
  unfold unitsBefore
  rw [take_succ_eq_append_getElem hn, unitsOf_append, length_append]
  simpa using hx

/-- The unit a boundary stands at, counted from the first leaf. -/
theorem PlacedAt.eq_unitsBefore (h : PlacedAt leaves b u) :
    u = unitsBefore leaves b.rank + b.inner ∧ b.rank ≤ leaves.length
      ∧ (b.inner = 0 ∨ u < unitsBefore leaves (b.rank + 1)) := by
  cases h with
  | between hsplit => subst hsplit; simp [unitsBefore]
  | inside hsplit h0 hlt hchar =>
    subst hsplit
    refine ⟨by simp [unitsBefore], by simp, .inr ?_⟩
    rw [unitsBefore, take_append, take_of_length_le (Nat.le_succ _)]
    simpa using hlt

variable (hocc : ∀ x ∈ leaves, x.Occupied) (h : PlacedAt leaves b u)
include hocc h

/-- **Boundaries are ordered as the units they stand at.** -/
theorem PlacedAt.lt_iff (h' : PlacedAt leaves b' u') : b < b' ↔ u < u' := by
  obtain ⟨hu, hr, hin⟩ := h.eq_unitsBefore
  obtain ⟨hu', hr', hin'⟩ := h'.eq_unitsBefore
  -- the boundary of the smaller rank stands in front of the leaves of the larger one
  have key : ∀ {c c' : Boundary} {v v' : ℕ}, v = unitsBefore leaves c.rank + c.inner →
      v' = unitsBefore leaves c'.rank + c'.inner → c'.rank ≤ leaves.length →
      (c.inner = 0 ∨ v < unitsBefore leaves (c.rank + 1)) → c.rank < c'.rank → v < v' := by
    intro c c' v v' hv hv' hle hinner hlt
    have h1 := unitsBefore_lt_succ hocc (show c.rank < leaves.length by omega)
    have h2 : unitsBefore leaves (c.rank + 1) ≤ unitsBefore leaves c'.rank :=
      unitsBefore_mono (by omega)
    omega
  rw [Boundary.lt_iff]
  constructor
  · rintro (hlt | ⟨heq, hlt⟩)
    · exact key hu hu' hr' hin hlt
    · rw [heq] at hu
      omega
  · intro hlt
    rcases lt_trichotomy b.rank b'.rank with h1 | h1 | h1
    · exact .inl h1
    · rw [h1] at hu
      exact .inr ⟨h1, by omega⟩
    · have := key hu' hu hr hin' h1
      omega

theorem PlacedAt.eq_of_unit (h' : PlacedAt leaves b' u) : b = b' := by
  have h1 := (h.lt_iff hocc h').not.mpr (lt_irrefl u)
  have h2 := (h'.lt_iff hocc h).not.mpr (lt_irrefl u)
  rw [Boundary.lt_iff] at h1 h2
  obtain ⟨r, i⟩ := b
  obtain ⟨r', i'⟩ := b'
  simp only at h1 h2
  obtain ⟨rfl, rfl⟩ : r = r' ∧ i = i' := by omega
  rfl

omit hocc h

theorem PlacedAt.unit_eq (h : PlacedAt leaves b u) (h' : PlacedAt leaves b u') : u = u' := by
  rw [h.eq_unitsBefore.1, h'.eq_unitsBefore.1]

/-- A boundary at a text leaf stands in front of it or between two of its characters. -/
theorem PlacedAt.in_text {l r : Leaves} {t : Utf8} {i : ℕ}
    (h : PlacedAt (l ++ .text t :: r) ⟨l.length, i⟩ u) :
    u = (unitsOf l).length + i ∧ isCharBoundary t i = true ∧ (i = 0 ∨ i < t.length) := by
  have hu := h.eq_unitsBefore.1
  rw [unitsBefore, take_left] at hu
  refine ⟨hu, ?_⟩
  generalize hb : (⟨l.length, i⟩ : Boundary) = b at h
  cases h with
  | between =>
    obtain ⟨-, rfl⟩ := Boundary.mk.inj hb
    simp
  | inside hsplit h0 hlt hchar =>
    obtain ⟨hlen, rfl⟩ := Boundary.mk.inj hb
    obtain ⟨-, htail⟩ := append_inj hsplit hlen
    obtain ⟨rfl, -⟩ : t = _ ∧ _ := by simpa using htail
    exact ⟨hchar, .inr hlt⟩

/-- A boundary in front of the last leaves does not see them change. -/
theorem PlacedAt.of_append {l r r' : Leaves} (h : PlacedAt (l ++ r) b u)
    (hle : u ≤ (unitsOf l).length) (hr : ∀ x ∈ l ++ r, x.Occupied) : PlacedAt (l ++ r') b u := by
  have hend : PlacedAt (l ++ r) ⟨l.length, 0⟩ (unitsOf l).length := .between rfl
  have hrank : b.rank < l.length ∨ b = ⟨l.length, 0⟩ := by
    by_contra hcon
    have hlt : (⟨l.length, 0⟩ : Boundary) < b := by
      obtain ⟨rank, inner⟩ := b
      rw [Boundary.lt_iff]
      simp only [Boundary.mk.injEq, not_or] at hcon ⊢
      omega
    have := (hend.lt_iff hr h).mp hlt
    omega
  rcases hrank with hrank | rfl
  · cases h with
    | @between a c hsplit =>
      obtain ⟨mid, rfl, -⟩ := append_split hsplit.symm hrank.le
      exact .between (append_assoc a mid r')
    | @inside a c t i hsplit h0 hlt hchar =>
      obtain ⟨mid, rfl, hmid⟩ := append_split hsplit.symm hrank.le
      cases mid with
      | nil => simp at hrank
      | cons y mid =>
        cases hmid
        exact .inside (append_assoc a (.text t :: mid) r') h0 hlt hchar
  · rw [h.unit_eq hend]
    exact .between rfl

end

/-! ## The last slice of a range -/

/-- What is left of a text without the bytes from `first` to `last`. -/
def sliced (t : Utf8) (first last : ℕ) : Leaves :=
  if first = 0 ∧ last = t.length then [] else [.text (t.take first ++ t.drop last)]

theorem unitsOf_sliced (t : Utf8) (first last : ℕ) :
    unitsOf (sliced t first last) = (t.take first).map .byte ++ (t.drop last).map .byte := by
  unfold sliced
  split
  · rename_i h
    simp [h.1, h.2]
  · simp

variable {first last : ℕ}

theorem occupied_sliced {t : Utf8} (hlt : first < last) (hle : last ≤ t.length) :
    ∀ x ∈ sliced t first last, x.Occupied := by
  unfold sliced
  split
  · simp
  · rename_i h
    simp only [mem_singleton, forall_eq, occupied_text]
    intro hnil
    have := congrArg List.length hnil
    simp only [length_append, length_take, length_drop, length_nil] at this
    omega

theorem Fits.sliced {l r : Leaves} {t : Utf8}
    (h : Fits (l ++ .text t :: r)) (hlt : first < last) : Fits (l ++ sliced t first last ++ r) := by
  have hsub : List.Sublist (t.take first ++ t.drop last) t := by
    conv_rhs => rw [← take_append_drop first t]
    exact (List.Sublist.refl _).append (drop_sublist_drop_left t hlt.le)
  have hlen := hsub.length_le
  have hnl : newlines (t.take first ++ t.drop last) ≤ newlines t := hsub.count_le _
  obtain ⟨h1, h2, h3⟩ := h
  simp only [textLength_append, textLength_cons, newlineTotal_append, newlineTotal_cons,
    length_append, length_cons, bytes_text] at h1 h2 h3
  unfold Beryl.Draft.sliced
  constructor <;> split <;> simp only [textLength_append, textLength_cons, textLength_nil,
    newlineTotal_append, newlineTotal_cons, newlineTotal_nil, length_append, length_cons,
    length_nil, bytes_text] at * <;> omega

/-- A cut of a text leaf is the cut of what follows it. -/
theorem isCharBoundary_take_drop {t : Utf8} (h0 : 0 < first) (hlt : first < last)
    (hlast : last < t.length) (hchar : isCharBoundary t last = true) :
    isCharBoundary (t.take first ++ t.drop last) first = true := by
  have hget : (t.take first ++ t.drop last)[first]? = t[last]? := by
    rw [getElem?_append_right (by simp), length_take, Nat.min_eq_left (by omega),
      Nat.sub_self, getElem?_drop, add_zero]
  unfold isCharBoundary at hchar ⊢
  rw [hget, getElem?_eq_getElem hlast]
  rw [getElem?_eq_getElem hlast] at hchar
  simp only [decide_eq_true_eq] at hchar ⊢
  exact .inr (hchar.resolve_left (by omega))

theorem isCharBoundary_length (t : Utf8) : isCharBoundary t t.length = true := by
  simp [isCharBoundary]

/-- **The last slice of a range of text**, as a part of one leaf: where it lies, and where the ends
of the rest of the range stand once it is gone. -/
structure LastSlice (leaves : Leaves) (start stop : Boundary) (u v : ℕ)
    (slice : TailSlice) (l : Leaves) (t : Utf8) (r : Leaves) (last : ℕ) : Prop where
  split : leaves = l ++ .text t :: r
  rank : slice.rank = l.length
  first_eq : slice.first = if l.length = start.rank then start.inner else 0
  last_eq : last = if 0 < stop.inner then stop.inner else t.length
  getD_last : slice.last.getD t.length = last
  first_lt : slice.first < last
  last_le : last ≤ t.length
  firstChar : isCharBoundary t slice.first = true
  lastChar : isCharBoundary t last = true
  stop_eq : (unitsOf l).length + last = v
  start_le : u ≤ (unitsOf l).length + slice.first
  nextStart : PlacedAt (l ++ sliced t slice.first last ++ r) slice.nextStart u
  nextEnd : PlacedAt (l ++ sliced t slice.first last ++ r) slice.nextEnd
    ((unitsOf l).length + slice.first)

section

variable {leaves : Leaves} {start stop : Boundary} {u v : ℕ}

variable {mapping : MappingStage} {slice : TailSlice} {l r : Leaves} {t : Utf8} {last : ℕ}

/-- A boundary that is not behind a cut between leaves. -/
theorem PlacedAt.le_of_not_lt {x : DraftPieceLeafValue} (hs : PlacedAt (l ++ x :: r) start u)
    (hocc : ∀ y ∈ l ++ x :: r, y.Occupied) (hlt : ¬ (⟨l.length, 0⟩ : Boundary) < start) :
    u ≤ (unitsOf l).length := by
  have hmid : PlacedAt (l ++ x :: r) ⟨l.length, 0⟩ (unitsOf l).length := .between rfl
  rwa [hmid.lt_iff hocc hs, not_lt] at hlt

/-- Every range of text has a last slice. -/
theorem exists_tailSlice (hocc : ∀ x ∈ leaves, x.Occupied) (hs : PlacedAt leaves start u)
    (ht : PlacedAt leaves stop v) (huv : u < v)
    (hbytes : ∀ i, u ≤ i → i < v → ∃ b, (unitsOf leaves)[i]? = some (.byte b)) :
    start < stop ∧ ∃ slice l t r last, tailSlice start stop = .ok slice
      ∧ LastSlice leaves start stop u v slice l t r last := by
  have hlt : start < stop := (hs.lt_iff hocc ht).mpr huv
  refine ⟨hlt, ?_⟩
  rw [lt_iff] at hlt
  cases ht with
  | @inside l r t j hsplit h0 hj hchar =>
    subst hsplit
    by_cases hrank : start.rank = l.length
    · -- both ends in one text
      obtain ⟨rank, inner⟩ := start
      obtain rfl : rank = l.length := hrank
      obtain ⟨hu, hchar', -⟩ := hs.in_text
      have hij : inner < j := by simpa using hlt
      have hsl : sliced t inner j = [.text (t.take inner ++ t.drop j)] := by
        rw [sliced, if_neg (by omega)]
      have hnext : PlacedAt (l ++ sliced t inner j ++ r) ⟨l.length, inner⟩ u := by
        rw [hu, hsl]
        rcases Nat.eq_zero_or_pos inner with rfl | hpos
        · exact .between (append_assoc _ _ _)
        · refine .inside (append_assoc _ _ _) hpos ?_ (isCharBoundary_take_drop hpos hij hj hchar)
          rw [length_append, length_take, length_drop]
          omega
      refine ⟨⟨l.length, inner, some j, ⟨l.length, inner⟩, ⟨l.length, inner⟩⟩, l, t, r, j, ?_,
        ⟨rfl, rfl, by simp, by simp [h0], rfl, hij, hj.le, hchar', hchar, rfl, hu.le, hnext, ?_⟩⟩
      · simp [tailSlice, h0]
      · rw [← hu]
        exact hnext
    · have hule := hs.le_of_not_lt hocc (by rw [lt_iff]; simp only at hlt ⊢; omega)
      refine ⟨⟨l.length, 0, some j, start, ⟨l.length, 0⟩⟩, l, t, r, j, ?_,
        ⟨rfl, rfl, by simp [Ne.symm hrank], by simp [h0], rfl, h0, hj.le, by simp, hchar, rfl,
          by simpa using hule, ?_, ?_⟩⟩
      · simp [tailSlice, h0, Ne.symm hrank]
      · exact append_assoc l _ r ▸ hs.of_append hule hocc
      · exact .between (append_assoc ..)
  | @between left right hsplit =>
    subst hsplit
    obtain rfl | ⟨l, x, rfl⟩ := left.eq_nil_or_concat'
    · simp at huv
    have hx : x.Occupied := hocc x (by simp)
    -- the last unit of the range is a byte of the leaf in front of its end
    obtain ⟨t, rfl⟩ : ∃ t, x = .text t := by
      cases x with
      | text t => exact ⟨t, rfl⟩
      | marker m =>
        obtain ⟨b, hb⟩ := hbytes (unitsOf l).length (by simpa [Nat.lt_succ_iff] using huv) (by simp)
        simp at hb
    have hpos : 0 < t.length := by simpa using hx.units_pos
    have hlen : (unitsOf l).length + t.length
        = (unitsOf (l ++ [DraftPieceLeafValue.text t])).length := by simp
    simp only [length_append, length_singleton] at hlt ⊢
    have hens : ensure (start.rank ≤ l.length) DraftPiecePrepareError.invalidRoot = .ok () :=
      ensure_true (by omega)
    have happ : l ++ [DraftPieceLeafValue.text t] ++ right = l ++ .text t :: right := by simp
    rw [happ] at hs hocc
    by_cases hrank : start.rank = l.length ∧ 0 < start.inner
    · -- the range starts inside the leaf it ends behind
      obtain ⟨rank, inner⟩ := start
      obtain ⟨rfl, hin⟩ : rank = l.length ∧ 0 < inner := hrank
      obtain ⟨hu, hchar', hilt⟩ := hs.in_text
      have hilt : inner < t.length := hilt.resolve_left (by omega)
      have hsl : sliced t inner t.length = [.text (t.take inner)] := by
        rw [sliced, if_neg (by omega), drop_length, append_nil]
      have hnext : PlacedAt (l ++ sliced t inner t.length ++ right) ⟨l.length + 1, 0⟩
          ((unitsOf l).length + inner) := by
        have hcut : PlacedAt (l ++ sliced t inner t.length ++ right)
            ⟨(l ++ sliced t inner t.length).length, 0⟩
                (unitsOf (l ++ sliced t inner t.length)).length :=
          .between rfl
        simpa [hsl, Nat.min_eq_left hilt.le] using hcut
      refine ⟨⟨l.length, inner, none, ⟨l.length + 1, 0⟩, ⟨l.length + 1, 0⟩⟩, l, t, right, t.length,
        ?_, ⟨happ, rfl, by simp, by simp, rfl, hilt, le_rfl, hchar', isCharBoundary_length t, hlen,
          hu.le, by rw [hu]; exact hnext, hnext⟩⟩
      simp [tailSlice, checkedSub, ensure, hin]
    · -- the whole leaf goes
      have hule := hs.le_of_not_lt hocc (by rw [lt_iff]; simp only at hlt ⊢; omega)
      refine ⟨⟨l.length, 0, none, start, ⟨l.length, 0⟩⟩, l, t, right, t.length, ?_,
        ⟨happ, rfl, ?_, by simp, rfl, hpos, le_rfl, by simp, isCharBoundary_length t, hlen,
          by simpa using hule, ?_, ?_⟩⟩
      · have hrank' : ¬ (l.length = start.rank ∧ 0 < start.inner) := by omega
        simp [tailSlice, checkedSub, hens, hrank']
      · dsimp only
        split <;> omega
      · exact append_assoc l _ right ▸ hs.of_append hule hocc
      · exact .between (append_assoc ..)

/-- The splice a slice of a text announces. -/
def sliceSplice (before first last : ℕ) : Splice := ⟨.textDelete, before + first, last - first, 0⟩

theorem removeSlice_meets (hlast : LastSlice leaves start stop u v slice l t r last) :
    Meets (removeSlice mapping slice.first slice.last (.text t) (0 + (unitsOf l).length))
      (Allows mapping (sliceSplice (unitsOf l).length slice.first last)) fun value =>
        value.toList = sliced t slice.first last
          ∧ Allows mapping (sliceSplice (unitsOf l).length slice.first last) := by
  simp only [removeSlice, hlast.getD_last, zero_add, sliced, sliceSplice]
  refine (meets_ensure fun _ => ⟨hlast.first_lt, hlast.last_le, hlast.firstChar,
    hlast.lastChar⟩).bind fun _ _ => ?_
  split
  · rename_i hall
    rw [hall.1]
    exact verifySplice_meets.bind fun _ hallows => meets_ok ⟨rfl, hallows⟩
  · exact verifySplice_meets.bind fun _ hallows => meets_ok ⟨rfl, hallows⟩

/-- **The leaves after a slice is removed.**  It can be removed when what is left is in order. -/
theorem removeTextSlice_meets {h : ℕ} {ref : SequenceRef h} (hwork : Workable ref)
    (hlt : start < stop) (htail : tailSlice start stop = .ok slice)
    (hlast : LastSlice (flatten h ref.tree) start stop u v slice l t r last) :
    Meets (removeTextSlice mapping ref start stop)
      (Allows mapping (sliceSplice (unitsOf l).length slice.first last)
        ∧ Admissible (l ++ sliced t slice.first last ++ r)) fun result =>
      workingLeaves result.1 = l ++ sliced t slice.first last ++ r
        ∧ result.2 = (slice.nextStart, slice.nextEnd)
        ∧ ∀ h ref, result.1 = some ⟨h, ref⟩ → Workable ref := by
  rw [removeTextSlice, ensure_bind hlt, htail, ok_bind, hlast.rank]
  refine (editLeaf_meets (occupied_sliced hlast.first_lt hlast.last_le) hwork.wellFormed
    (by simpa [hwork.selected] using hwork.filled) hwork.height hlast.split
    ((removeSlice_meets hlast).mono (·.1) fun _ => id) (·.2)).bind fun edited hedited => ?_
  obtain ⟨sequence, hfinish, hlvs, hworks⟩ := finishEdit_eq_ok hedited.1.1 hwork.height
  rw [hfinish, ok_bind]
  exact meets_ok ⟨hlvs, rfl, hworks⟩

end

end Beryl.Draft
