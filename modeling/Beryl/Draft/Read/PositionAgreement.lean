import Beryl.Draft.Read.Position

/-!
# Draft/Read/PositionAgreement — what a position names, and who agrees

`Describes` is the meaning of a position: its offset is no cut inside a character, and its witness
fits the markers at the offset.  `Resolves` adds the boundary.  The searches of both resolvers come
down to three cases — the offset is the end of the document, it lies in a text leaf, or a marker
stands first at it (`firstAt_before`) — and in each case the answers are read off.
-/

namespace Beryl.Draft

open Fallible Search List DraftPieceLeafValue

/-! ## The meaning of a position -/

/-- The markers anchored at an offset. -/
def markersAt (leaves : Leaves) (offset : ℕ) : List DraftPieceMarkerAt :=
  (markersFrom 0 leaves).filter (·.anchor = offset)

/-- The offset cuts no character of the text leaf it lies in. -/
def OnCharBoundary (leaves : Leaves) (offset : ℕ) : Prop :=
  ∀ l t r, leaves = l ++ .text t :: r → textLength l ≤ offset → offset < textLength l + t.length →
    isCharBoundary t (offset - textLength l) = true

/-- **A position describes its document**: no marker at the offset, some markers to stand before or
after, or two neighbours to stand between. -/
def Describes (leaves : Leaves) (position : DraftCompositePosition) : Prop :=
  OnCharBoundary leaves position.utf8Offset ∧
    match position.gap with
    | .unambiguous => markersAt leaves position.utf8Offset = []
    | .beforeAll => markersAt leaves position.utf8Offset ≠ []
    | .afterAll => markersAt leaves position.utf8Offset ≠ []
    | .between leftOrderKey leftMarkerId rightOrderKey rightMarkerId =>
      ∃ u m n v, markersAt leaves position.utf8Offset = u ++ m :: n :: v
        ∧ m.marker.orderKey = leftOrderKey ∧ m.marker.markerId = leftMarkerId
        ∧ n.marker.orderKey = rightOrderKey ∧ n.marker.markerId = rightMarkerId

/-- The boundary of an offset without markers. -/
def TextPlace (leaves : Leaves) (offset : ℕ) (boundary : Boundary) : Prop :=
  (offset = textLength leaves ∧ boundary = ⟨leaves.length, 0⟩)
    ∨ ∃ l t r, leaves = l ++ .text t :: r ∧ textLength l ≤ offset
      ∧ offset < textLength l + t.length ∧ isCharBoundary t (offset - textLength l) = true
      ∧ boundary = ⟨l.length, offset - textLength l⟩

/-- **The boundary a position names.** -/
def Resolves (leaves : Leaves) (position : DraftCompositePosition) (boundary : Boundary) : Prop :=
  match position.gap with
  | .unambiguous => (∀ m ∈ markersFrom 0 leaves, m.anchor ≠ position.utf8Offset)
      ∧ TextPlace leaves position.utf8Offset boundary
  | .beforeAll => ∃ l m r, leaves = l ++ .marker m :: r ∧ textLength l = position.utf8Offset
      ∧ (∀ k ∈ markersFrom 0 l, k.anchor ≠ position.utf8Offset) ∧ boundary = ⟨l.length, 0⟩
  | .afterAll => ∃ l m r, leaves = l ++ .marker m :: r ∧ textLength l = position.utf8Offset
      ∧ (∀ k ∈ markersFrom (textLength l) r, k.anchor ≠ position.utf8Offset)
      ∧ boundary = ⟨l.length + 1, 0⟩
  | .between leftOrderKey leftMarkerId rightOrderKey rightMarkerId =>
    ∃ l m n r, leaves = l ++ .marker m :: .marker n :: r ∧ textLength l = position.utf8Offset
      ∧ m.orderKey = leftOrderKey ∧ m.markerId = leftMarkerId
      ∧ n.orderKey = rightOrderKey ∧ n.markerId = rightMarkerId ∧ boundary = ⟨l.length + 1, 0⟩

/-! ## The three cases of the search in front of the markers -/

/-- A marker of the list of markers is a leaf. -/
theorem markersFrom_eq_append_cons : ∀ {base} {leaves} {A B} {m},
    markersFrom base leaves = A ++ m :: B →
      ∃ l r, leaves = l ++ .marker m.marker :: r ∧ m.anchor = base + textLength l
        ∧ markersFrom base l = A ∧ markersFrom (base + textLength l) r = B
  | base, [], A, B, m, h => by simp at h
  | base, .text t :: xs, A, B, m, h => by
    have htail : markersFrom (base + t.length) xs = A ++ m :: B := h
    obtain ⟨l, r, rfl, hm, hA, hB⟩ := markersFrom_eq_append_cons htail
    exact ⟨.text t :: l, r, rfl, by simpa [add_assoc] using hm, hA,
      by simpa [add_assoc] using hB⟩
  | base, .marker n :: xs, [], B, m, h => by
    cases h
    exact ⟨[], xs, rfl, rfl, rfl, rfl⟩
  | base, .marker n :: xs, a :: A, B, m, h => by
    obtain ⟨rfl, htail : markersFrom base xs = A ++ m :: B⟩ := List.cons.inj h
    obtain ⟨l, r, rfl, hm, hA, hB⟩ := markersFrom_eq_append_cons htail
    exact ⟨.marker n :: l, r, rfl, by simpa using hm, by simpa using hA, by simpa using hB⟩

variable {H : ℕ} {root : SequenceRef H} {offset : ℕ} {leaves l r l' r' : Leaves}
  {boundary : Boundary} {x : DraftPieceLeafValue} {p : Option (Leaves × DraftPieceLeafValue)}
  {position : DraftCompositePosition}

theorem textLength_le_of_free {P : ℕ → DraftPieceLeafValue → Prop}
    (hP : ∀ base t, offset < base + t.length → P base (.text t)) (h : ¬ HoldsIn P 0 leaves) :
    textLength leaves ≤ offset := by
  induction leaves using List.reverseRecOn with
  | nil => simp
  | append_singleton xs y ih =>
    rw [holdsIn_append, holdsIn_singleton, not_or] at h
    have h1 := ih h.1
    cases y with
    | text t =>
      have h3 := mt (hP _ t) h.2
      simp only [textLength_append, textLength_cons, textLength_nil, bytes_text]
      omega
    | marker n => simpa using h1

theorem not_holdsIn_before (h : ¬ HoldsIn (PastBefore offset) 0 leaves) :
    textLength leaves ≤ offset ∧ ∀ m ∈ markersFrom 0 leaves, m.anchor < offset := by
  refine ⟨textLength_le_of_free (fun _ _ h => h) h, fun m hm => not_le.mp fun hle => h ?_⟩
  obtain ⟨A, B, hAB⟩ := append_of_mem hm
  obtain ⟨l, r, hsplit, hanchor, -⟩ := markersFrom_eq_append_cons hAB
  exact ⟨l, _, r, hsplit, hanchor ▸ hle⟩

theorem not_holdsIn_after (h : ¬ HoldsIn (PastAfter offset) 0 leaves) :
    textLength leaves ≤ offset :=
  textLength_le_of_free (fun _ _ h => h) h

/-- **In front of the markers of an offset** stands a text that the offset lies in, and no marker is
there, or the first marker there. -/
theorem firstAt_before (h : FirstAt (PastBefore offset) leaves l x r) :
    (∃ t, x = .text t ∧ textLength l ≤ offset ∧ offset < textLength l + t.length
        ∧ ∀ m ∈ markersFrom 0 leaves, m.anchor ≠ offset)
      ∨ ∃ m, x = .marker m ∧ textLength l = offset ∧ ∀ k ∈ markersFrom 0 l, k.anchor < offset := by
  obtain ⟨hsplit, hx, hl⟩ := h
  obtain ⟨h1, h2⟩ := not_holdsIn_before hl
  cases x with
  | text t =>
    have hx : offset < textLength l + t.length := hx
    refine .inl ⟨t, rfl, h1, hx, fun m hm => ?_⟩
    rw [hsplit, markersFrom_append, markersFrom_text, mem_append] at hm
    rcases hm with hm | hm
    · exact (h2 m hm).ne
    · have := (anchor_of_mem_markersFrom hm).1
      omega
  | marker m => exact .inr ⟨m, rfl, le_antisymm h1 hx, h2⟩

theorem cover_unique {t t' : Utf8}
    (h : l ++ .text t :: r = l' ++ .text t' :: r') (h1 : textLength l ≤ offset)
    (h2 : offset < textLength l + t.length) (h1' : textLength l' ≤ offset)
    (h2' : offset < textLength l' + t'.length) : l = l' ∧ t = t' := by
  rcases split_cases h with ⟨hl, ht, -⟩ | ⟨mid, rfl, -⟩ | ⟨mid, rfl, -⟩
  · exact ⟨hl, by simpa using ht⟩
  · simp only [textLength_append, textLength_cons, bytes_text] at h1'
    omega
  · simp only [textLength_append, textLength_cons, bytes_text] at h1
    omega

/-! ## What a position names, case by case -/

section

variable {m : DraftPieceMarker}

theorem resolves_end (hend : offset = textLength leaves)
    (hno : ∀ m ∈ markersFrom 0 leaves, m.anchor ≠ offset) :
    Resolves leaves ⟨offset, .unambiguous⟩ boundary ↔ boundary = ⟨leaves.length, 0⟩ := by
  refine ⟨fun ⟨_, h⟩ => ?_, fun h => ⟨hno, .inl ⟨hend, h⟩⟩⟩
  rcases h with ⟨-, h⟩ | ⟨l, t, r, rfl, -, hlt, -⟩
  · exact h
  · simp only [hend, textLength_append, textLength_cons, bytes_text] at hlt
    omega

theorem resolves_text {t : Utf8} (hsplit : leaves = l ++ .text t :: r)
    (h1 : textLength l ≤ offset) (h2 : offset < textLength l + t.length)
    (hno : ∀ m ∈ markersFrom 0 leaves, m.anchor ≠ offset) :
    Resolves leaves ⟨offset, .unambiguous⟩ boundary
      ↔ isCharBoundary t (offset - textLength l) = true
        ∧ boundary = ⟨l.length, offset - textLength l⟩ := by
  refine ⟨fun ⟨_, h⟩ => ?_, fun h => ⟨hno, .inr ⟨l, t, r, hsplit, h1, h2, h⟩⟩⟩
  rcases h with ⟨hend, -⟩ | ⟨l', t', r', hsplit', h1', h2', hb, heq⟩
  · simp only [hsplit, textLength_append, textLength_cons, bytes_text] at hend
    omega
  · obtain ⟨rfl, rfl⟩ := cover_unique (hsplit.symm.trans hsplit') h1 h2 h1' h2'
    exact ⟨hb, heq⟩

theorem mem_markersFrom_of_split {base : ℕ} (hsplit : leaves = l ++ .marker m :: r) :
    (⟨base + textLength l, m⟩ : DraftPieceMarkerAt) ∈ markersFrom base leaves := by
  rw [hsplit]
  simp

theorem not_resolves_of_no_marker {gap : DraftCompositeGapWitness} (hgap : gap ≠ .unambiguous)
    (hno : ∀ m ∈ markersFrom 0 leaves, m.anchor ≠ offset) :
    ¬ Resolves leaves ⟨offset, gap⟩ boundary := by
  intro h
  cases gap with
  | unambiguous => exact hgap rfl
  | between =>
    obtain ⟨l, m, n, r, hsplit, hl, -⟩ := h
    exact hno _ (mem_markersFrom_of_split hsplit) (by simpa using hl)
  | _ =>
    obtain ⟨l, m, r, hsplit, hl, -⟩ := h
    exact hno _ (mem_markersFrom_of_split hsplit) (by simpa using hl)

/-- Leaves without text end in a marker. -/
theorem concat_marker {xs : Leaves} (hocc : ∀ x ∈ xs, x.Occupied)
    (hne : xs ≠ []) (hzero : textLength xs = 0) :
    ∃ ys k, xs = ys ++ [.marker k] ∧ textLength ys = 0 := by
  obtain rfl | ⟨ys, y, rfl⟩ := xs.eq_nil_or_concat
  · exact absurd rfl hne
  · rw [concat_eq_append] at *
    simp only [textLength_append, textLength_cons, textLength_nil] at hzero
    cases y with
    | marker k => exact ⟨ys, k, rfl, by omega⟩
    | text t =>
      have ht : 0 < t.length := length_pos_iff.mpr (hocc (.text t) (by simp))
      simp only [bytes_text] at hzero
      omega

theorem key_unique {m' : DraftPieceMarker}
    (hk : KeysSorted (markersFrom 0 leaves)) (hsplit : leaves = l ++ .marker m :: r)
    (hsplit' : leaves = l' ++ .marker m' :: r')
    (hkey : markerKey ⟨textLength l, m⟩ = markerKey ⟨textLength l', m'⟩) : l = l' ∧ m = m' := by
  have hlt : ∀ {u v w} {a b},
      leaves = u ++ .marker a :: w → w = v ++ .marker b :: r' ∨ w = v ++ .marker b :: r →
      markerKey ⟨textLength u, a⟩ < markerKey ⟨textLength u + textLength v, b⟩ :=
    fun {u v w a b} hu hw => by
      rw [hu, markersFrom_append, markersFrom_marker] at hk
      refine (pairwise_cons.mp hk.append.2.1).1 _ ?_ |> fun h => by simpa using h
      rcases hw with rfl | rfl <;> simp
  rcases split_cases (hsplit.symm.trans hsplit') with ⟨hl, hm, -⟩ | ⟨mid, rfl, hr⟩ | ⟨mid, rfl, hr⟩
  · exact ⟨hl, by simpa using hm⟩
  · exact absurd hkey (by simpa using (hlt hsplit (.inl hr)).ne)
  · exact absurd hkey.symm (by simpa using (hlt hsplit' (.inr hr)).ne)

theorem markersAt_eq_nil : markersAt leaves offset = []
    ↔ ∀ m ∈ markersFrom 0 leaves, m.anchor ≠ offset := by
  simp [markersAt, filter_eq_nil_iff]

variable (hsplit : leaves = l ++ .marker m :: r) (hl : textLength l = offset)
include hsplit hl

theorem after_marker {t : Utf8} (hsplit' : leaves = l' ++ .text t :: r')
    (h1 : textLength l' ≤ offset) (h2 : offset < textLength l' + t.length) :
    l.length < l'.length ∧ textLength l' = offset := by
  rcases split_cases (hsplit.symm.trans hsplit') with ⟨-, h, -⟩ | ⟨mid, rfl, -⟩ | ⟨mid, rfl, -⟩
  · cases h
  · simp only [textLength_append, textLength_cons, length_append, length_cons] at h1 ⊢
    omega
  · simp only [textLength_append, textLength_cons, bytes_text] at hl
    omega

/-- A marker at the offset leaves no character to cut. -/
theorem onCharBoundary_of_marker : OnCharBoundary leaves offset := by
  intro l' t r' hsplit' h1 h2
  obtain ⟨-, hl'⟩ := after_marker hsplit hl hsplit' h1 h2
  simp [hl']

theorem markersAt_ne_nil_of_split : markersAt leaves offset ≠ [] := fun h =>
  markersAt_eq_nil.mp h _ (mem_markersFrom_of_split hsplit) (by simpa using hl)

theorem not_resolves_of_marker : ¬ Resolves leaves ⟨offset, .unambiguous⟩ boundary := fun h =>
  h.1 _ (mem_markersFrom_of_split hsplit) (by simpa using hl)

theorem resolves_beforeAll (hno : ∀ k ∈ markersFrom 0 l, k.anchor ≠ offset) :
    Resolves leaves ⟨offset, .beforeAll⟩ boundary ↔ boundary = ⟨l.length, 0⟩ := by
  refine ⟨?_, fun h => ⟨l, m, r, hsplit, hl, hno, h⟩⟩
  rintro ⟨l', m', r', hsplit', hl', hno', rfl⟩
  rcases split_cases (hsplit.symm.trans hsplit') with ⟨rfl, -⟩ | ⟨mid, hmid, -⟩ | ⟨mid, hmid, -⟩
  · rfl
  · exact absurd (by simpa using hl) (hno' _ (mem_markersFrom_of_split hmid))
  · exact absurd (by simpa using hl') (hno _ (mem_markersFrom_of_split hmid))

theorem resolves_afterAll_of_split (hno : ∀ k ∈ markersFrom (textLength l) r, k.anchor ≠ offset) :
    Resolves leaves ⟨offset, .afterAll⟩ boundary ↔ boundary = ⟨l.length + 1, 0⟩ := by
  refine ⟨?_, fun h => ⟨l, m, r, hsplit, hl, hno, h⟩⟩
  rintro ⟨l', m', r', hsplit', hl', hno', rfl⟩
  -- of two markers at the offset, the one in front has the other behind it
  have hzero : ∀ {k} {mid p},
      textLength p = offset → textLength (p ++ .marker k :: mid) = offset → textLength mid = 0 :=
    fun {k mid p} hp hq => by
      simp only [textLength_append, textLength_cons, bytes_marker, length_nil] at hq
      omega
  rcases split_cases (hsplit.symm.trans hsplit') with ⟨rfl, -⟩ | ⟨mid, rfl, hr⟩ | ⟨mid, rfl, hr⟩
  · rfl
  · refine absurd ?_ (hno _ (mem_markersFrom_of_split hr))
    have := hzero hl hl'
    simp only
    omega
  · refine absurd ?_ (hno' _ (mem_markersFrom_of_split hr))
    have := hzero hl' hl
    simp only at hl' ⊢
    omega

theorem resolves_afterAll {p q : Leaves} (hocc : ∀ x ∈ leaves, x.Occupied) (hpq : leaves = p ++ q)
    (hlen : l.length < p.length) (hp : textLength p = offset)
    (hq : ∀ k ∈ markersFrom offset q, k.anchor ≠ offset) :
    Resolves leaves ⟨offset, .afterAll⟩ boundary ↔ boundary = ⟨p.length, 0⟩ := by
  obtain ⟨mid, rfl⟩ : ∃ mid, p = l ++ .marker m :: mid := by
    have hpre : l ++ [.marker m] <+: leaves := ⟨r, by simp [hsplit]⟩
    have hp' : p <+: leaves := ⟨q, hpq.symm⟩
    obtain ⟨mid, hmid⟩ := prefix_of_prefix_length_le hpre hp' (by
      rw [length_append, length_singleton]; exact hlen)
    exact ⟨mid, by rw [← hmid]; simp⟩
  have hzero : textLength (.marker m :: mid) = 0 := by
    simp only [textLength_append] at hp
    omega
  obtain ⟨ys, k, hys, hyz⟩ := concat_marker
    (fun x hx => hocc x (by rw [hpq]; exact mem_append_left _ (mem_append_right _ hx)))
    (by simp) hzero
  have hly : textLength (l ++ ys) = offset := by rw [textLength_append]; omega
  have hsplit' : leaves = (l ++ ys) ++ .marker k :: q := by rw [hpq, hys]; simp
  rw [resolves_afterAll_of_split hsplit' hly (by rw [hly]; exact hq), hys]
  simp [add_assoc]

theorem resolves_between {n : DraftPieceMarker}
    (hk : KeysSorted (markersFrom 0 leaves)) (hsplit' : leaves = l' ++ .marker n :: r')
    (hl' : textLength l' = offset) :
    Resolves leaves ⟨offset, .between m.orderKey m.markerId n.orderKey n.markerId⟩ boundary
      ↔ l'.length = l.length + 1 ∧ boundary = ⟨l'.length, 0⟩ := by
  constructor
  · rintro ⟨u, a, b, v, hu, hul, ha1, ha2, hb1, hb2, rfl⟩
    obtain ⟨rfl, rfl⟩ := key_unique hk hsplit hu (by simp [markerKey, hl, hul, ha1, ha2])
    obtain ⟨rfl, rfl⟩ := key_unique hk hsplit' (show leaves = (l ++ [.marker m]) ++ .marker b :: v
      by simp [hu]) (by simp [markerKey, hl', hul, hb1, hb2])
    simp
  · rintro ⟨hlen, rfl⟩
    obtain ⟨v, rfl, rfl⟩ : ∃ v, r = .marker n :: v ∧ l' = l ++ [.marker m] := by
      rcases split_cases (hsplit.symm.trans hsplit') with ⟨rfl, -⟩ | ⟨mid, rfl, hr⟩ | ⟨mid, rfl, -⟩
      · simp at hlen
      · obtain rfl : mid = [] := by
          simp only [length_append, length_cons] at hlen
          exact length_eq_zero_iff.mp (by omega)
        exact ⟨r', by simpa using hr, rfl⟩
      · simp only [length_append, length_cons] at hlen
        omega
    exact ⟨l, m, n, v, hsplit, hl, rfl, rfl, rfl, rfl, by simp⟩

end

/-! ## What the searches of both resolvers find -/

/-- The leaf in front of the markers of an offset, with the leaves before it. -/
inductive BeforeCase (leaves : Leaves) (offset : ℕ) : Option (Leaves × DraftPieceLeafValue) → Prop
  | stop (hend : offset = textLength leaves)
      (hno : ∀ m ∈ markersFrom 0 leaves, m.anchor ≠ offset) : BeforeCase leaves offset none
  | text {l r : Leaves} {t : Utf8} (hsplit : leaves = l ++ .text t :: r)
      (h1 : textLength l ≤ offset) (h2 : offset < textLength l + t.length)
      (hno : ∀ m ∈ markersFrom 0 leaves, m.anchor ≠ offset) :
      BeforeCase leaves offset (some (l, .text t))
  | marker {l r : Leaves} {m : DraftPieceMarker}
      (hsplit : leaves = l ++ .marker m :: r) (hl : textLength l = offset)
      (hno : ∀ k ∈ markersFrom 0 l, k.anchor < offset) :
      BeforeCase leaves offset (some (l, .marker m))

/-- The text leaf behind the markers of an offset. -/
inductive AfterCase (leaves : Leaves) (offset : ℕ) : Option (Leaves × DraftPieceLeafValue) → Prop
  | stop (hend : offset = textLength leaves) : AfterCase leaves offset none
  | text {l r : Leaves} {t : Utf8} (hsplit : leaves = l ++ .text t :: r)
      (h1 : textLength l ≤ offset) (h2 : offset < textLength l + t.length) :
      AfterCase leaves offset (some (l, .text t))

/-- The marker of a key, if the document has it. -/
inductive KeyCase (leaves : Leaves) (offset orderKey markerId : ℕ) :
    Option (Leaves × DraftPieceLeafValue) → Prop
  | absent (hno : ¬ HoldsIn (HasKey (.marker offset orderKey markerId)) 0 leaves) :
      KeyCase leaves offset orderKey markerId none
  | found {l r : Leaves} {m : DraftPieceMarker}
      (hsplit : leaves = l ++ .marker m :: r) (hl : textLength l = offset)
      (ho : m.orderKey = orderKey) (hi : m.markerId = markerId) :
      KeyCase leaves offset orderKey markerId (some (l, .marker m))

theorem Finds.before (hp : Finds (PastBefore offset) leaves p) (hoff : offset ≤ textLength leaves) :
    BeforeCase leaves offset p := by
  cases hp with
  | absent hno =>
    obtain ⟨h1, h2⟩ := not_holdsIn_before hno
    exact .stop (le_antisymm hoff h1) fun m hm => (h2 m hm).ne
  | found h =>
    rcases firstAt_before h with ⟨t, rfl, h1, h2, hno⟩ | ⟨m, rfl, hl, hno⟩
    · exact .text h.1 h1 h2 hno
    · exact .marker h.1 hl hno

theorem Finds.after (hp : Finds (PastAfter offset) leaves p) (hoff : offset ≤ textLength leaves) :
    AfterCase leaves offset p := by
  cases hp with
  | absent hno => exact .stop (le_antisymm hoff (not_holdsIn_after hno))
  | found h =>
    obtain ⟨hsplit, hx, hl⟩ := h
    have h1 := not_holdsIn_after hl
    rename_i x
    cases x with
    | text t => exact .text hsplit h1 hx
    | marker m => exact absurd hx (not_lt.mpr h1)

theorem Finds.key {o i : ℕ}
    (hp : Finds (HasKey (.marker offset o i)) leaves p) : KeyCase leaves offset o i p := by
  cases hp with
  | absent hno => exact .absent hno
  | found h =>
    obtain ⟨hsplit, ⟨m, rfl, hkey⟩, -⟩ := h
    simp only [markerKey, DraftCompositeSearchKey.marker.injEq] at hkey
    exact .found hsplit hkey.1 hkey.2.1 hkey.2.2

@[simp] theorem factAt_leaf : (factAt (l, x)).leaf = x := rfl
@[simp] theorem factAt_rank : (factAt (l, x)).located.rank = l.length := rfl
@[simp] theorem factAt_anchor : (factAt (l, x)).located.anchor = textLength l := rfl

@[simp] theorem placeAt_link : (placeAt (l, x)).link = childForLeaf x := rfl
@[simp] theorem placeAt_leaf : (placeAt (l, x)).leaf = x := rfl
@[simp] theorem placeAt_rank : (placeAt (l, x)).rank = l.length := rfl
@[simp] theorem placeAt_anchor : (placeAt (l, x)).anchor = textLength l := rfl

/-- **The marker of a key is shadowed for `locate_search_key`**: at some node on the way to it, an
earlier child has markers and spans the key — it ends in text at the anchor of the marker. -/
def KeyShadowed (root : SequenceRef H) (key : DraftCompositeSearchKey) : Prop :=
  Shadowed (linkTest (keyTest key)) (HasKey key) H root.tree 0

theorem locateSearchKey_key (hdoc : WellFormedDocument root) (offset o i : ℕ) :
    (KeyShadowed root (.marker offset o i) ∧ locateSearchKey root (.marker offset o i) = .ok none)
      ∨ ¬ KeyShadowed root (.marker offset o i) ∧ ∃ p, KeyCase (flatten H root.tree) offset o i p
        ∧ locateSearchKey root (.marker offset o i) = .ok (p.map placeAt) := by
  rcases locateSearchKey_root hdoc (guides_keyTest offset o i) with h | ⟨hsh, p, hp, h⟩
  · exact .inl h
  · exact .inr ⟨hsh, p, hp.key, h⟩

/-! ## The resolvers -/

section

@[simp] theorem loadSequenceLeaf_childForLeaf (x : DraftPieceLeafValue) :
    loadSequenceLeaf (childForLeaf x) x = .ok x := if_pos rfl

/-- A text behind markers, or the end, is where the cut behind all of them is. -/
theorem AfterCase.names {q : Option (Leaves × DraftPieceLeafValue)}
    (hq : AfterCase leaves offset q) (hocc : ∀ x ∈ leaves, x.Occupied)
    {m : DraftPieceMarker} (hsplit : leaves = l ++ .marker m :: r) (hl : textLength l = offset) :
    l.length < q.elim leaves.length (·.1.length) ∧ (Resolves leaves ⟨offset, .afterAll⟩ boundary
        ↔ boundary = ⟨q.elim leaves.length (·.1.length), 0⟩)
      ∧ ∀ p ∈ q, textLength p.1 = offset := by
  cases hq with
  | stop hend =>
    have hlen : l.length < leaves.length := by rw [hsplit]; simp
    exact ⟨hlen, resolves_afterAll hsplit hl hocc (append_nil _).symm hlen hend.symm (by simp),
      nofun⟩
  | @text l' r' t hsplit' h1 h2 =>
    obtain ⟨hlen, hl'⟩ := after_marker hsplit hl hsplit' h1 h2
    refine ⟨hlen, resolves_afterAll hsplit hl hocc hsplit' hlen hl' fun k hk => ?_,
      by simpa using hl'⟩
    have := (anchor_of_mem_markersFrom (show k ∈ markersFrom (offset + t.length) r' from hk)).1
    omega

/-- A pair names the cut between its markers, if both are there and neighbours. -/
theorem KeyCase.names {lo li ro ri : ℕ} {left right : Option (Leaves × DraftPieceLeafValue)}
    (hk : KeysSorted (markersFrom 0 leaves)) (hleft : KeyCase leaves offset lo li left)
    (hright : KeyCase leaves offset ro ri right) :
    Resolves leaves ⟨offset, .between lo li ro ri⟩ boundary ↔ ∃ p ∈ left, ∃ q ∈ right,
      q.1.length = p.1.length + 1 ∧ boundary = ⟨q.1.length, 0⟩ := by
  cases hleft with
  | absent hno =>
    refine iff_of_false ?_ (by simp)
    rintro ⟨l, m, n, r, hsplit, hl, rfl, rfl, -⟩
    exact hno ⟨l, _, _, hsplit, m, rfl, by simp only at hl; simp [markerKey, hl]⟩
  | found hsplit hl ho hi =>
    subst ho hi
    cases hright with
    | absent hno =>
      refine iff_of_false ?_ (by simp)
      rintro ⟨l, m, n, r, hsplit, hl, -, -, rfl, rfl, -⟩
      exact hno ⟨l ++ [.marker m], _, r, by simp [hsplit], n, rfl, by
        simp only at hl; simp [markerKey, hl]⟩
    | found hsplit' hl' ho hi =>
      subst ho hi
      simp [resolves_between hsplit hl hk hsplit' hl']

section

variable {t : Utf8} (h1 : textLength l ≤ offset) (h2 : offset < textLength l + t.length)
include h1 h2

/-- What both resolvers make of an offset without markers, or of a text behind markers. -/
theorem textBoundary_text {tree : Option (SequenceRef H)} :
    textBoundary tree (some (factAt (l, .text t))) offset
      = if isCharBoundary t (offset - textLength l) = true
        then .ok (⟨l.length, offset - textLength l⟩, markerTotal l)
        else .error invalidUtf8Boundary := by
  have hle : offset - textLength l ≤ t.length := by omega
  have hne : ¬ offset - textLength l = t.length := by omega
  simp only [textBoundary, factAt, locatedAt, checkedSub_of_le h1, ok_bind, ensure, hle, true_and,
    hne, if_false]
  split <;> rfl

theorem resolveUnambiguous_text : resolveUnambiguous root offset (some (placeAt (l, .text t)))
      = if isCharBoundary t (offset - textLength l) = true
        then .ok ⟨l.length, offset - textLength l⟩ else .error invalidUtf8Boundary := by
  have hle : offset - textLength l ≤ t.length := by omega
  have hne : ¬ offset - textLength l = t.length := by omega
  simp only [resolveUnambiguous, placeAt_link, placeAt_leaf, loadSequenceLeaf_childForLeaf, ok_bind,
    placeAt_anchor, checkedSub_of_le h1, ensure, hle, true_and, hne, if_false]
  split <;> rfl

end

/-- **The pairs of markers one go refuses**: one of the two is shadowed. -/
def PairShadowed (root : SequenceRef H) (position : DraftCompositePosition) : Prop :=
  match position.gap with
  | .between leftOrderKey leftMarkerId rightOrderKey rightMarkerId =>
    KeyShadowed root (.marker position.utf8Offset leftOrderKey leftMarkerId)
      ∨ KeyShadowed root (.marker position.utf8Offset rightOrderKey rightMarkerId)
  | _ => False

variable (hdoc : WellFormedDocument root) (hoff : offset ≤ textLength (flatten H root.tree))
include hdoc hoff

/-- **Component by component, a position resolves to what it names.** -/
theorem resolveComponents_some (gap : DraftCompositeGapWitness) :
    resolveComponents (some root) ⟨offset, gap⟩ = .ok boundary
      ↔ Resolves (flatten H root.tree) ⟨offset, gap⟩ boundary := by
  have hs := hdoc.wellFormed.summary
  have hext : offset ≤ root.link.logicalUtf8Bytes := by rw [hs.bytes]; exact hoff
  obtain ⟨p, hp, hloc⟩ := locate_finds hdoc (.beforeMarkers offset) (guides_before offset)
  replace hp := hp.before hoff
  simp only [resolveComponents, resolve, extent_some, hext, iff_self, and_self, ensure_true,
    ok_bind]
  cases gap with
  | unambiguous =>
    simp only [componentKey, required_some, ok_bind, hloc]
    cases hp with
    | stop hend hno =>
      simp [resolves_end hend hno, textBoundary, hs.bytes, ← hend, hs.pieces, @eq_comm _ boundary]
    | text hsplit h1 h2 hno =>
      rw [resolves_text hsplit h1 h2 hno, Option.map_some, textBoundary_text h1 h2]
      split <;> simp [*, @eq_comm _ boundary]
    | marker hsplit hl hno => simp [textBoundary, not_resolves_of_marker hsplit hl]
  | beforeAll =>
    simp only [componentKey, required_some, ok_bind, hloc, firstMarkerFact]
    cases hp with
    | stop _ hno | text _ _ _ hno => simp [not_resolves_of_no_marker _ hno]
    | marker hsplit hl hno =>
      simp [ensure_true, hl, resolves_beforeAll hsplit hl fun k hk => (hno k hk).ne,
        @eq_comm _ boundary]
  | afterAll =>
    obtain ⟨q, hq, hafter⟩ := locate_finds hdoc (.afterMarkers offset) (guides_after offset)
    replace hq := hq.after hoff
    simp only [componentKey, required_some, ok_bind, hloc, hafter, firstMarkerFact]
    cases hp with
    | stop _ hno | text _ _ _ hno => simp [not_resolves_of_no_marker _ hno]
    | marker hsplit hl hno =>
      obtain ⟨hlen, hnames, hat⟩ := hq.names hdoc.wellFormed.occupied hsplit hl
      rw [hnames]
      cases hq with
      | stop hend =>
        have hlen : _ < (flatten H root.tree).length := hlen
        simp [ensure_true, hl, hlen, textBoundary, hs.bytes, ← hend, hs.pieces, @eq_comm _ boundary]
      | text _ h1 h2 => simp_all [ensure_true, textBoundary_text h1 h2, @eq_comm _ boundary]
  | between lo li ro ri =>
    obtain ⟨left, hleft, hlocl⟩ := locate_finds hdoc _
      ⟨guides_guardedKeyTest offset lo li, neverShadows_guarded offset lo li⟩
    obtain ⟨right, hright, hlocr⟩ := locate_finds hdoc _
      ⟨guides_guardedKeyTest offset ro ri, neverShadows_guarded offset ro ri⟩
    replace hleft := hleft.key
    replace hright := hright.key
    rw [hleft.names hdoc.keysSorted hright]
    simp only [componentKey, required_some, ok_bind, hlocl, hlocr]
    cases hleft with
    | absent hno => simp [keyedMarkerFact]
    | @found l _ m hsplit hl ho hi =>
      have hnext : l.length + 1 < u64Size := by
        have := hs.pieces ▸ hdoc.pieces
        rw [hsplit, length_append, length_cons] at this
        omega
      cases hright with
      | absent => simp_all [ensure, keyedMarkerFact]
      | @found l' =>
        by_cases hlen : l'.length = l.length + 1 <;>
          simp_all [ensure, keyedMarkerFact, increment, checkedAdd_of_lt hnext, @eq_comm _ boundary]

/-- **In one go, a position resolves to what it names, unless a marker of its pair is shadowed.** -/
theorem resolvePosition_some (gap : DraftCompositeGapWitness) :
    resolvePosition (some root) ⟨offset, gap⟩ = .ok boundary
      ↔ Resolves (flatten H root.tree) ⟨offset, gap⟩ boundary
        ∧ ¬ PairShadowed root ⟨offset, gap⟩ := by
  have hs := hdoc.wellFormed.summary
  have hext : offset ≤ root.link.logicalUtf8Bytes := by rw [hs.bytes]; exact hoff
  obtain ⟨p, hp, hloc⟩ := locateSearchKey_finds hdoc (guides_before offset)
  replace hp := hp.before hoff
  simp only [resolvePosition, hext, ensure_true, ok_bind, hloc]
  cases gap with
  | unambiguous =>
    simp only [PairShadowed, not_false_eq_true, and_true]
    cases hp with
    | stop hend hno =>
      simp [resolves_end hend hno, resolveUnambiguous, hs.bytes, ← hend, hs.pieces,
        @eq_comm _ boundary]
    | text hsplit h1 h2 hno =>
      rw [resolves_text hsplit h1 h2 hno, Option.map_some, resolveUnambiguous_text h1 h2]
      split <;> simp [*, @eq_comm _ boundary]
    | marker hsplit hl hno => simp [resolveUnambiguous, not_resolves_of_marker hsplit hl]
  | beforeAll =>
    simp only [PairShadowed, not_false_eq_true, and_true, resolveBeforeAll]
    cases hp with
    | stop _ hno | text _ _ _ hno => simp [not_resolves_of_no_marker _ hno]
    | marker hsplit hl hno =>
      simp [ensure_true, hl, resolves_beforeAll hsplit hl fun k hk => (hno k hk).ne,
        @eq_comm _ boundary]
  | afterAll =>
    obtain ⟨q, hq, hafter⟩ := locateSearchKey_finds hdoc (guides_after offset)
    replace hq := hq.after hoff
    simp only [PairShadowed, not_false_eq_true, and_true, resolveAfterAll, hafter, ok_bind]
    cases hp with
    | stop _ hno => simp [not_resolves_of_no_marker _ hno]
    | @text l r t hsplit h1 h2 hno =>
      cases hq with
      | stop hend =>
        simp only [hend, hsplit, textLength_append, textLength_cons, bytes_text] at h2
        omega
      | text hsplit' h1' h2' =>
        obtain ⟨rfl, rfl⟩ := cover_unique (hsplit.symm.trans hsplit') h1 h2 h1' h2'
        simp [ensure, not_resolves_of_no_marker _ hno]
    | marker hsplit hl hno =>
      obtain ⟨hlen, hnames, -⟩ := hq.names hdoc.wellFormed.occupied hsplit hl
      rw [hnames]
      cases q <;> simp_all [ensure_true, hs.pieces, placeAt, locatedAt, @eq_comm _ boundary]
  | between lo li ro ri =>
    simp only [PairShadowed, resolveBetween]
    rcases locateSearchKey_key hdoc offset ro ri with ⟨hshr, hlocr⟩ | ⟨hshr, right, hright, hlocr⟩
    · rcases locateSearchKey_key hdoc offset lo li with ⟨-, hlocl⟩ | ⟨-, left, -, hlocl⟩
      · simp [hlocl, hlocr, hshr]
      · cases left <;> simp [hlocl, hlocr, hshr]
    rcases locateSearchKey_key hdoc offset lo li with ⟨hshl, hlocl⟩ | ⟨hshl, left, hleft, hlocl⟩
    · simp [hlocl, hlocr, hshl]
    rw [hleft.names hdoc.keysSorted hright]
    cases hleft <;> cases hright <;>
      simp_all [bind_eq_ok, ensure_eq_ok, exactMarker, @eq_comm _ boundary]

end

/-! ## Naming a boundary is describing the document -/

/-- Neighbours at one anchor are neighbouring leaves. -/
theorem adjacent_leaves (hocc : ∀ x ∈ leaves, x.Occupied) {u v : Markers}
    {m n : DraftPieceMarkerAt} (h : markersAt leaves offset = u ++ m :: n :: v) :
    ∃ l r, leaves = l ++ .marker m.marker :: .marker n.marker :: r ∧ textLength l = offset := by
  have hanchor : ∀ k ∈ markersAt leaves offset, k.anchor = offset := fun k hk => by
    simpa using (mem_filter.mp hk).2
  have hm : m.anchor = offset := hanchor m (by rw [h]; simp)
  have hn : n.anchor = offset := hanchor n (by rw [h]; simp)
  obtain ⟨A, B, hAB, -, hB⟩ := filter_eq_append_iff.mp h
  obtain ⟨C, D, rfl, -, -, hD⟩ := filter_eq_cons_iff.mp hB
  obtain ⟨E, F, rfl, hE, -, -⟩ := filter_eq_cons_iff.mp hD
  -- between the two every anchor would be the offset
  obtain rfl : E = [] := by
    refine eq_nil_iff_forall_not_mem.mpr fun e he => ?_
    have hsort := pairwise_anchor_markersFrom 0 leaves
    rw [hAB] at hsort
    have h1 := (pairwise_append.mp (pairwise_append.mp hsort).2.1).2.1
    have hme := (pairwise_cons.mp h1).1 e (by simp [he])
    have hen := (pairwise_append.mp (pairwise_cons.mp h1).2).2.2 e he n (by simp)
    exact hE e he (by simpa using (by omega : e.anchor = offset))
  rw [← append_assoc] at hAB
  obtain ⟨l, r, hl, hml, -, hr⟩ := markersFrom_eq_append_cons hAB
  obtain ⟨l₂, r₂, rfl, hnl, hl₂, -⟩ := markersFrom_eq_append_cons (hr.trans rfl : _ = [] ++ n :: F)
  obtain rfl : l₂ = [] := by
    by_contra hne
    obtain ⟨ys, k, rfl, -⟩ := concat_marker (fun x hx => hocc x (by rw [hl]; simp [hx])) hne
      (by omega)
    simp at hl₂
  exact ⟨l, r₂, hl, by omega⟩

theorem describes_of_resolves
    (h : Resolves leaves position boundary) : Describes leaves position := by
  obtain ⟨offset, gap⟩ := position
  cases gap with
  | unambiguous =>
    obtain ⟨hno, hplace⟩ := h
    refine ⟨fun l t r hsplit h1 h2 => ?_, markersAt_eq_nil.mpr hno⟩
    rcases hplace with ⟨hend, -⟩ | ⟨l', t', r', hsplit', h1', h2', hb, -⟩
    · simp only [hsplit, textLength_append, textLength_cons, bytes_text] at hend h2
      omega
    · obtain ⟨rfl, rfl⟩ := cover_unique (hsplit.symm.trans hsplit') h1 h2 h1' h2'
      exact hb
  | between lo li ro ri =>
    obtain ⟨l, m, n, r, hsplit, hl, rfl, rfl, rfl, rfl, -⟩ := h
    refine ⟨onCharBoundary_of_marker hsplit hl,
      (markersFrom 0 l).filter (·.anchor = offset), ⟨offset, m⟩, ⟨offset, n⟩,
      (markersFrom offset r).filter (·.anchor = offset), ?_, rfl, rfl, rfl, rfl⟩
    simp only at hl
    simp [markersAt, hsplit, hl]
  | _ =>
    obtain ⟨l, m, r, hsplit, hl, -⟩ := h
    exact ⟨onCharBoundary_of_marker hsplit hl, markersAt_ne_nil_of_split hsplit hl⟩

/-- **Every position that describes its document names a boundary.** -/
theorem exists_resolves_iff (hdoc : WellFormedDocument root)
    (hoff : offset ≤ textLength (flatten H root.tree)) (gap : DraftCompositeGapWitness) :
    (∃ boundary, Resolves (flatten H root.tree) ⟨offset, gap⟩ boundary)
      ↔ Describes (flatten H root.tree) ⟨offset, gap⟩ := by
  refine ⟨fun ⟨_, h⟩ => describes_of_resolves h, fun ⟨hchar, hgap⟩ => ?_⟩
  have hocc := hdoc.wellFormed.occupied
  obtain ⟨p, hp, -⟩ := locate_finds hdoc (.beforeMarkers offset) (guides_before offset)
  replace hp := hp.before hoff
  cases gap with
  | unambiguous =>
    cases hp with
    | stop hend hno => exact ⟨_, (resolves_end hend hno).mpr rfl⟩
    | text hsplit h1 h2 hno =>
      exact ⟨_, (resolves_text hsplit h1 h2 hno).mpr ⟨hchar _ _ _ hsplit h1 h2, rfl⟩⟩
    | marker hsplit hl hno => exact absurd hgap (markersAt_ne_nil_of_split hsplit hl)
  | beforeAll =>
    cases hp with
    | stop _ hno | text _ _ _ hno => exact absurd (markersAt_eq_nil.mpr hno) hgap
    | marker hsplit hl hno =>
      exact ⟨_, (resolves_beforeAll hsplit hl fun k hk => (hno k hk).ne).mpr rfl⟩
  | afterAll =>
    obtain ⟨q, hq, -⟩ := locate_finds hdoc (.afterMarkers offset) (guides_after offset)
    replace hq := hq.after hoff
    cases hp with
    | stop _ hno | text _ _ _ hno => exact absurd (markersAt_eq_nil.mpr hno) hgap
    | marker hsplit hl hno => exact ⟨_, (hq.names hocc hsplit hl).2.1.mpr rfl⟩
  | between lo li ro ri =>
    obtain ⟨u, m, n, v, huv, rfl, rfl, rfl, rfl⟩ := hgap
    obtain ⟨l, r, hsplit, hl⟩ := adjacent_leaves hocc huv
    exact ⟨_, l, m.marker, n.marker, r, hsplit, hl, rfl, rfl, rfl, rfl, rfl⟩

/-! ## Agreement -/

/-- **The two resolvers agree on a position**, and accept it exactly when it describes the
document. -/
structure ResolversAgree (sequence : Option (SequenceRef H)) (position : DraftCompositePosition) :
    Prop where
  same : ∀ boundary, resolvePosition sequence position = .ok boundary
    ↔ resolveComponents sequence position = .ok boundary
  onePass : (∃ boundary, resolvePosition sequence position = .ok boundary)
    ↔ Describes (sequenceLeaves sequence) position
  components : (∃ boundary, resolveComponents sequence position = .ok boundary)
    ↔ Describes (sequenceLeaves sequence) position

/-- The empty draft has one position. -/
theorem resolversAgree_none (hoff : position.utf8Offset = 0) :
    ResolversAgree (none : Option (SequenceRef H)) position := by
  obtain ⟨offset, gap⟩ := position
  obtain rfl : offset = 0 := hoff
  have hchar : OnCharBoundary [] 0 := fun l t r h => by simp at h
  cases gap <;>
    constructor <;>
    simp [resolvePosition, resolveComponents, resolve, ensure, componentKey, textBoundary,
      firstMarkerFact, keyedMarkerFact, Describes, hchar, markersAt]

/-- **The resolvers agree on every position but the true pairs with a shadowed marker.** -/
theorem resolvers_agree_iff (sequence : Option (SequenceRef H)) (position : DraftCompositePosition)
    (hwf : WellFormedSequence sequence) (hoff : position.utf8Offset ≤ extent sequence) :
    ResolversAgree sequence position
      ↔ ¬ ∃ root ∈ sequence, Describes (flatten H root.tree) position
          ∧ PairShadowed root position := by
  cases sequence with
  | none => exact iff_of_true (resolversAgree_none (by simpa using hoff)) (by simp)
  | some root =>
    obtain ⟨offset, gap⟩ := position
    have hdoc := hwf root rfl
    have hoff : offset ≤ textLength (flatten H root.tree) := by
      rw [← hdoc.wellFormed.summary.bytes]
      exact hoff
    have hdesc := exists_resolves_iff hdoc hoff gap
    simp only [Option.mem_def, Option.some.injEq, exists_eq_left']
    constructor
    · rintro hagree ⟨h, hsh⟩
      obtain ⟨boundary, hb⟩ := hagree.onePass.mpr h
      exact ((resolvePosition_some hdoc hoff gap).mp hb).2 hsh
    · intro hclear
      have hone : ∀ boundary, resolvePosition (some root) ⟨offset, gap⟩ = .ok boundary
          ↔ Resolves (flatten H root.tree) ⟨offset, gap⟩ boundary := fun boundary => by
        rw [resolvePosition_some hdoc hoff gap, and_iff_left_iff_imp]
        exact fun h hsh => hclear ⟨hdesc.mp ⟨boundary, h⟩, hsh⟩
      refine ⟨fun boundary => ?_, ?_, ?_⟩
      · rw [hone, resolveComponents_some hdoc hoff gap]
      · simp only [hone, hdesc, sequenceLeaves_some]
      · simp only [resolveComponents_some hdoc hoff gap, hdesc, sequenceLeaves_some]

/-- A node that ends in text at offset one, and a pair of markers there in the next node. -/
def pairRoot : SequenceRef 2 where
  link := ⟨1, 0, 1, 4, 3, .marker 0 1 1, .marker 1 2 3⟩
  tree :=
    [(⟨1, 0, 1, 2, 1, .marker 0 1 1, .afterMarkers 1⟩,
        [(⟨0, 0, 0, 1, 1, .marker 0 1 1, .marker 0 1 1⟩, .marker ⟨1, 1, 1, 1⟩),
         (⟨1, 0, 1, 1, 0, .beforeMarkers 0, .afterMarkers 1⟩, .text [97])]),
     (⟨0, 0, 0, 2, 2, .marker 0 1 2, .marker 0 2 3⟩,
        [(⟨0, 0, 0, 1, 1, .marker 0 1 2, .marker 0 1 2⟩, .marker ⟨2, 2, 2, 1⟩),
         (⟨0, 0, 0, 1, 1, .marker 0 2 3, .marker 0 2 3⟩, .marker ⟨3, 3, 3, 2⟩)])]
  selectedRoot := true

theorem wellFormed_pairRoot : WellFormedDocument pairRoot := by decide +kernel

theorem resolvers_agree_start :
    ResolversAgree (some pairRoot) ⟨0, .beforeAll⟩
      ↔ ¬ ∃ root ∈ some pairRoot, Describes (flatten 2 root.tree) ⟨0, .beforeAll⟩
          ∧ PairShadowed root ⟨0, .beforeAll⟩ :=
  resolvers_agree_iff (some pairRoot) ⟨0, .beforeAll⟩
    (by rintro _ ⟨⟩; exact wellFormed_pairRoot) (by decide)

/-- **One go refuses a pair that the components accept.** -/
theorem resolvers_disagree_on_pair :
    WellFormedSequence (some pairRoot) ∧ 1 ≤ extent (some pairRoot)
      ∧ resolveComponents (some pairRoot) ⟨1, .between 1 2 2 3⟩ = .ok ⟨3, 0⟩
      ∧ resolvePosition (some pairRoot) ⟨1, .between 1 2 2 3⟩ = .error invalidGapWitness
      ∧ ¬ ResolversAgree (some pairRoot) ⟨1, .between 1 2 2 3⟩ := by
  have hcomp : resolveComponents (some pairRoot) ⟨1, .between 1 2 2 3⟩ = .ok ⟨3, 0⟩ := by
    decide +kernel
  have hone : resolvePosition (some pairRoot) ⟨1, .between 1 2 2 3⟩
      = .error invalidGapWitness := by decide +kernel
  refine ⟨by rintro _ ⟨⟩; exact wellFormed_pairRoot, by decide, hcomp, hone, fun h => ?_⟩
  cases hone.symm.trans ((h.same _).mpr hcomp)

end Beryl.Draft
