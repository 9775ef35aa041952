import Beryl.Home.Command
import Beryl.Machinery.Paging

/-!
# Home/Cursor — bounded reads of a record family

A point read looks up one record and a cursor read goes over a range of keys in either direction,
both within a number of bytes that the caller allows.  A cursor read is to hand out as many records
as fit, and to fail only if not even the first does.  **It does so exactly if no record behind a
page that is not full has a value that alone exceeds the bytes** (`readCursor_answers_iff`).
-/

namespace Beryl.Home

open Fallible Keyspace Paging Std List

/-- The codec of a record family, as far as the bounds of a read see it.  A decoded key or value is
charged the bytes of its encoding, unless the family says otherwise. -/
structure FamilyCodec (K V : Type) where
  domain : String
  family : String
  maxKeyBytes : ℕ
  maxValueBytes : ℕ
  keyBytes : K → ℕ
  valueBytes : V → ℕ
  decodedKeyBytes : K → ℕ := keyBytes
  decodedValueBytes : V → ℕ := valueBytes

/-- What a page may hold. -/
structure CursorReadLimits where
  maxItems : ℕ
  maxBytes : ℕ
  items_pos : 0 < maxItems
  bytes_pos : 0 < maxBytes

/-- Which way a read goes. -/
inductive CursorDirection
  | forward | reverse
deriving DecidableEq

/-- Records in the order of a read. -/
def CursorDirection.order {α : Type} : CursorDirection → List α → List α
  | forward, records => records
  | reverse, records => records.reverse

/-- An end of a range of keys, with its key or without it. -/
structure Bound (K : Type) where
  key : K
  included : Bool

/-- How the end must compare with a key inside. -/
def Bound.admits {K : Type} (bound : Bound K) (order : Ordering) : Bool :=
  if bound.included then order.isLE else order.isLT

theorem Bound.admits_lt {K : Type} (bound : Bound K) : bound.admits .lt = true := ite_self _

theorem Bound.isLE_of_admits {K : Type} {bound : Bound K} {order : Ordering}
    (h : bound.admits order = true) : order.isLE = true := by
  obtain ⟨key, - | -⟩ := bound
  · exact Ordering.isLE_of_eq_lt (Ordering.isLT_iff_eq_lt.mp h)
  · exact h

/-- A finite range of keys. -/
structure CursorRange (K : Type) where
  start : Bound K
  stop : Bound K

namespace CursorRange

variable {K : Type}

/-- The range with both ends. -/
def closed (start stop : K) : CursorRange K := ⟨⟨start, true⟩, ⟨stop, true⟩⟩

/-- The range without its start. -/
def after (start stop : K) : CursorRange K := ⟨⟨start, false⟩, ⟨stop, true⟩⟩

/-- A key of the range. -/
def contains [Ord K] (key : K) (range : CursorRange K) : Bool :=
  range.start.admits (compare range.start.key key) && range.stop.admits (compare key range.stop.key)

/-- The range behind a cursor, or the whole one. -/
def behind (first last : K) : Option K → CursorRange K
  | none => closed first last
  | some key => after key last

/-- What is left of a range beyond a key, in the direction of a read. -/
def beyond (range : CursorRange K) (key : K) : CursorDirection → CursorRange K
  | .forward => { range with start := ⟨key, false⟩ }
  | .reverse => { range with stop := ⟨key, false⟩ }

end CursorRange

/-- A page, with its sizes. -/
structure CursorPage (K V : Type) where
  records : List (K × V)
  storedBytes : ℕ
  decodedBytes : ℕ
  hasMore : Bool

section

variable {K V : Type} (codec : FamilyCodec K V)

/-- The caller's key fits. -/
def ensureCallerKeySize (key : K) : Fetched Unit :=
  ensure (0 < codec.keyBytes key ∧ codec.keyBytes key ≤ codec.maxKeyBytes)
    (.invalidKeySize codec.domain codec.family codec.maxKeyBytes (codec.keyBytes key))

/-- The stored key fits. -/
def ensureStoredKeySize (key : K) : Fetched Unit :=
  ensure (0 < codec.keyBytes key ∧ codec.keyBytes key ≤ codec.maxKeyBytes)
    (.invalidStoredKeySize codec.domain codec.family codec.maxKeyBytes (codec.keyBytes key))

/-- The stored value fits. -/
def ensureStoredValueSize (actual : ℕ) : Fetched Unit :=
  ensure (actual ≤ codec.maxValueBytes + recordVersionBytes)
    (.invalidStoredValueSize codec.domain codec.family (codec.maxValueBytes + recordVersionBytes)
      actual)

/-- The caller allows as much. -/
def ensureCallerByteBound (actual callerMaximum : ℕ) : Fetched Unit :=
  ensure (actual ≤ callerMaximum)
    (.boundExceeded codec.domain codec.family callerMaximum actual)

/-- The bytes stored for a value. -/
def storedValueLen (value : V) : ℕ := codec.valueBytes value + recordVersionBytes

variable [Ord K] (space : Keyspace K V)

/-- Reads one record. -/
def readPoint (key : K) (maxBytes : ℕ) : Fetched (Option V) := do
  ensureCallerKeySize codec key
  match space[key]? with
  | none => return none
  | some value => do
    ensureStoredValueSize codec (storedValueLen codec value)
    ensureCallerByteBound codec (storedValueLen codec value) maxBytes
    ensureCallerByteBound codec (codec.decodedValueBytes value) maxBytes
    return some value

variable (limits : CursorReadLimits)

/-- The page in front of a record that exceeds the bytes. -/
def CursorPage.beforeExcess (page : CursorPage K V) (actual : ℕ) :
    Fetched (CursorPage K V) :=
  if page.records = [] then
    .error (.boundExceeded codec.domain codec.family limits.maxBytes actual)
  else .ok { page with hasMore := true }

/-- Adds records to a page while they fit. -/
def collectRecords : List (K × V) → CursorPage K V → Fetched (CursorPage K V)
  | [], page => .ok page
  | (key, value) :: rest, page =>
    if page.records.length = limits.maxItems then .ok { page with hasMore := true }
    else do
      ensureStoredKeySize codec key
      ensureStoredValueSize codec (storedValueLen codec value)
      ensureCallerByteBound codec (storedValueLen codec value) limits.maxBytes
      let nextTotal := page.storedBytes + (codec.keyBytes key + storedValueLen codec value)
      if limits.maxBytes < nextTotal then page.beforeExcess codec limits nextTotal
      else
        let nextDecodedTotal :=
          page.decodedBytes + (codec.decodedKeyBytes key + codec.decodedValueBytes value)
        if limits.maxBytes < nextDecodedTotal then page.beforeExcess codec limits nextDecodedTotal
        else collectRecords rest ⟨page.records ++ [(key, value)], nextTotal, nextDecodedTotal,
          false⟩

/-- The records of a range, in the order of a read. -/
def inside (range : CursorRange K) (direction : CursorDirection) : List (K × V) :=
  (direction.order space.toList).filter fun record => range.contains record.1

/-- `read_cursor`.  What the engine may refuse of a range whose ends are in order is not in this
repository; it answers the same error. -/
def readCursor (range : CursorRange K) (direction : CursorDirection) :
    Fetched (CursorPage K V) := do
  ensureCallerKeySize codec range.start.key
  ensureCallerKeySize codec range.stop.key
  ensure (compare range.start.key range.stop.key ≠ .gt) (.reversedRange codec.domain codec.family)
  collectRecords codec limits (inside space range direction) ⟨[], 0, 0, false⟩

/-- Callers read on with the last key as an excluded end of their next range. -/
def readOn (direction : CursorDirection) : ℕ → CursorRange K → Fetched (List (K × V))
  | 0, _ => .ok []
  | pages + 1, range => do
    let page ← readCursor codec space limits range direction
    match page.hasMore, page.records.getLast? with
    | true, some last => do
      let rest ← readOn direction pages (range.beyond last.1 direction)
      return page.records ++ rest
    | _, _ => return page.records

end

/-! ## What fits into a read -/

namespace FamilyCodec

variable {K V : Type} (codec : FamilyCodec K V) (limits : CursorReadLimits)

/-- Sizes that the codec allows a key. -/
def AllowsKey (key : K) : Prop := 0 < codec.keyBytes key ∧ codec.keyBytes key ≤ codec.maxKeyBytes

/-- A record whose key and value have sizes that the codec allows. -/
def Allows (record : K × V) : Prop :=
  codec.AllowsKey record.1 ∧ codec.valueBytes record.2 ≤ codec.maxValueBytes

/-- Every record has sizes that the codec allows, and takes no more once it is decoded. -/
structure Sized : Prop where
  key (key : K) : codec.AllowsKey key
  value (value : V) : codec.valueBytes value ≤ codec.maxValueBytes
  decodedKey (key : K) : codec.decodedKeyBytes key ≤ codec.maxKeyBytes
  decodedValue (value : V) : codec.decodedValueBytes value ≤ codec.maxValueBytes

/-- The bytes stored for records. -/
def storedBytes (records : List (K × V)) : ℕ :=
  (records.map fun record => codec.keyBytes record.1 + storedValueLen codec record.2).sum

/-- The bytes of decoded records. -/
def decodedBytes (records : List (K × V)) : ℕ :=
  (records.map fun record => codec.decodedKeyBytes record.1 + codec.decodedValueBytes record.2).sum

/-- Records that fit into one page. -/
def Fits (records : List (K × V)) : Prop :=
  records.length ≤ limits.maxItems ∧ codec.storedBytes records ≤ limits.maxBytes
    ∧ codec.decodedBytes records ≤ limits.maxBytes

/-- The page of these records. -/
def page (records : List (K × V)) (hasMore : Bool) : CursorPage K V :=
  ⟨records, codec.storedBytes records, codec.decodedBytes records, hasMore⟩

/-- **The longest front part of some records that fits into one page.** -/
def Longest (front records : List (K × V)) : Prop :=
  front <+: records ∧ codec.Fits limits front
    ∧ ∀ other, other <+: records → codec.Fits limits other → other.length ≤ front.length

/-- **What a cursor read is for**: the longest front part that fits, and whether more follows; it
fails exactly if the first record alone does not fit. -/
def Answers (records : List (K × V)) : Fetched (CursorPage K V) → Prop
  | .ok page => codec.Longest limits page.records records
      ∧ (page.hasMore = true ↔ page.records ≠ records)
      ∧ ∀ first ∈ records.head?, codec.Fits limits [first]
  | .error e => (∃ actual, e = .boundExceeded codec.domain codec.family limits.maxBytes actual)
      ∧ ∃ first ∈ records.head?, ¬ codec.Fits limits [first]

/-- A value alone exceeds the bytes, behind a page that is neither empty nor full. -/
def Blocked (front rest : List (K × V)) : Prop :=
  ∃ mid record rest', rest = mid ++ record :: rest' ∧ front ++ mid ≠ []
    ∧ (front ++ mid).length < limits.maxItems ∧ codec.Fits limits (front ++ mid)
    ∧ limits.maxBytes < storedValueLen codec record.2

/-- A range that a read accepts. -/
def Admits [Ord K] (range : CursorRange K) : Prop :=
  codec.AllowsKey range.start.key ∧ codec.AllowsKey range.stop.key
    ∧ compare range.start.key range.stop.key ≠ .gt

end FamilyCodec

section

variable {K V : Type} {codec : FamilyCodec K V} {limits : CursorReadLimits}
  {front rest : List (K × V)} {record : K × V}

theorem fits_nil : codec.Fits limits [] := ⟨Nat.zero_le _, Nat.zero_le _, Nat.zero_le _⟩

@[simp] theorem storedBytes_append : codec.storedBytes (front ++ rest)
    = codec.storedBytes front + codec.storedBytes rest := by
  simp [FamilyCodec.storedBytes]

@[simp] theorem decodedBytes_append : codec.decodedBytes (front ++ rest)
    = codec.decodedBytes front + codec.decodedBytes rest := by
  simp [FamilyCodec.decodedBytes]

@[simp] theorem storedBytes_singleton :
    codec.storedBytes [record] = codec.keyBytes record.1 + storedValueLen codec record.2 := rfl

@[simp] theorem decodedBytes_singleton : codec.decodedBytes [record]
    = codec.decodedKeyBytes record.1 + codec.decodedValueBytes record.2 := rfl

theorem fits_front (h : codec.Fits limits (front ++ rest)) : codec.Fits limits front := by
  simp only [FamilyCodec.Fits, length_append, storedBytes_append, decodedBytes_append] at h ⊢
  omega

theorem not_fits_of_value (h : limits.maxBytes < storedValueLen codec record.2) :
    ¬ codec.Fits limits (front ++ [record]) := by
  rintro ⟨-, hstored, -⟩
  rw [storedBytes_append, storedBytes_singleton] at hstored
  omega

theorem fits_head (h : codec.Fits limits front) :
    ∀ first ∈ front.head?, codec.Fits limits [first] := by
  intro first hfirst
  obtain ⟨_, rfl⟩ := head?_eq_some_iff.mp hfirst
  exact fits_front (show codec.Fits limits ([first] ++ _) from h)

theorem longest_of_stops (hfits : codec.Fits limits front)
    (hstops : ∀ record ∈ rest.head?, ¬ codec.Fits limits (front ++ [record])) :
    codec.Longest limits front (front ++ rest) := by
  refine ⟨prefix_append _ _, hfits, fun other hother hfit => Nat.not_lt.mp fun hlonger => ?_⟩
  cases rest with
  | nil => exact absurd hother.length_le (by simpa using hlonger)
  | cons record rest =>
    have hmore : front ++ [record] <+: front ++ record :: rest := ⟨rest, by simp⟩
    obtain ⟨_, rfl⟩ := prefix_of_prefix_length_le hmore hother (by
      rw [length_append]; exact hlonger)
    exact hstops record rfl (fits_front hfit)

theorem blocked_cons : codec.Blocked limits front (record :: rest)
    ↔ (front ≠ [] ∧ front.length < limits.maxItems ∧ codec.Fits limits front
        ∧ limits.maxBytes < storedValueLen codec record.2)
      ∨ codec.Blocked limits (front ++ [record]) rest := by
  constructor
  · rintro ⟨- | ⟨_, mid⟩, record', rest', hsplit, h⟩
    · cases hsplit
      rw [append_nil] at h
      exact .inl h
    · obtain ⟨rfl, hback⟩ := List.cons.inj hsplit
      exact .inr ⟨mid, record', rest', hback, by simpa using h⟩
  · rintro (h | ⟨mid, record', rest', rfl, h⟩)
    · exact ⟨[], record, rest, rfl, by simpa using h⟩
    · exact ⟨record :: mid, record', rest', rfl, by simpa using h⟩

theorem not_blocked (hnot : ¬ codec.Fits limits front) : ¬ codec.Blocked limits front rest :=
  fun ⟨_, _, _, _, _, _, hfits, _⟩ => hnot (fits_front hfits)

variable (hfits : codec.Fits limits front) (hnot : ¬ codec.Fits limits (front ++ [record]))
include hfits hnot

theorem answers_page (hne : front ≠ []) :
    codec.Answers limits (front ++ record :: rest) (.ok (codec.page front true)) :=
  ⟨longest_of_stops hfits (by rintro _ ⟨⟩; exact hnot), by simp [FamilyCodec.page],
    head?_append_of_ne_nil _ hne ▸ fits_head hfits⟩

theorem answers_error_iff {actual : ℕ} : codec.Answers limits (front ++ record :: rest)
    (.error (.boundExceeded codec.domain codec.family limits.maxBytes actual)) ↔ front = [] := by
  constructor
  · rintro ⟨-, first, hfirst, hexceeds⟩
    by_contra hne
    rw [head?_append_of_ne_nil _ hne] at hfirst
    exact hexceeds (fits_head hfits first hfirst)
  · rintro rfl
    exact ⟨⟨actual, rfl⟩, record, rfl, hnot⟩

end

/-! ## What a read finds -/

section

variable {K V : Type} [Ord K] {codec : FamilyCodec K V} {space : Keyspace K V}
  {limits : CursorReadLimits} {key : K}

omit [Ord K] in
theorem ensureCallerKeySize_ok (h : codec.AllowsKey key) : ensureCallerKeySize codec key = .ok () :=
  ensure_true (show 0 < codec.keyBytes key ∧ codec.keyBytes key ≤ codec.maxKeyBytes from h)

theorem readPoint_eq {maxBytes : ℕ} (hsized : codec.Sized)
    (hmax : codec.maxValueBytes + recordVersionBytes ≤ maxBytes) :
    readPoint codec space key maxBytes = .ok space[key]? := by
  rw [readPoint, ensureCallerKeySize_ok (hsized.key key), ok_bind]
  cases space[key]? with
  | none => rfl
  | some value =>
    have hstored : storedValueLen codec value ≤ codec.maxValueBytes + recordVersionBytes :=
      Nat.add_le_add_right (hsized.value value) _
    have hdec : codec.decodedValueBytes value ≤ maxBytes :=
      Nat.le_trans (hsized.decodedValue value) (Nat.le_of_add_right_le hmax)
    simp only [ensureStoredValueSize, ensureCallerByteBound]
    rw [ensure_bind hstored, ensure_bind (Nat.le_trans hstored hmax), ensure_bind hdec]
    rfl

variable {front rest : List (K × V)} {record : K × V}

omit [Ord K] in
/-- **A page that is filled as far as it goes answers, unless a value behind it alone exceeds the
bytes.** -/
theorem collectRecords_answers_iff (hrest : ∀ record ∈ rest, codec.Allows record)
    (hfits : codec.Fits limits front) :
    codec.Answers limits (front ++ rest) (collectRecords codec limits rest (codec.page front false))
      ↔ ¬ codec.Blocked limits front rest := by
  induction rest generalizing front with
  | nil =>
    refine iff_of_true ⟨longest_of_stops hfits (by simp), by simp [FamilyCodec.page], ?_⟩
      (by simp [FamilyCodec.Blocked])
    rw [append_nil]
    exact fits_head hfits
  | cons record rest ih =>
    obtain ⟨⟨hkey, hvalue⟩, hrest⟩ := forall_mem_cons.mp hrest
    have hstored : storedValueLen codec record.2 ≤ codec.maxValueBytes + recordVersionBytes :=
      Nat.add_le_add_right hvalue _
    have hbytes := @storedBytes_append _ _ codec front [record]
    have hdec := @decodedBytes_append _ _ codec front [record]
    rw [storedBytes_singleton] at hbytes
    rw [decodedBytes_singleton] at hdec
    rw [collectRecords, blocked_cons, not_or]
    split
    · next hfull =>
      have hfull : front.length = limits.maxItems := hfull
      have hnot : ¬ codec.Fits limits (front ++ [record]) := fun h => by
        have hlen := h.1
        rw [length_append, length_singleton] at hlen
        omega
      have hne : front ≠ [] := ne_nil_of_length_pos (hfull ▸ limits.items_pos)
      exact iff_of_true (answers_page hfits hnot hne) ⟨fun h => by omega, not_blocked hnot⟩
    · next hroom =>
      have hroom : front.length < limits.maxItems := Nat.lt_of_le_of_ne hfits.1 hroom
      rw [ensureStoredKeySize, ensure_bind (show 0 < codec.keyBytes record.1 ∧ _ from hkey),
        ensureStoredValueSize, ensure_bind hstored, ensureCallerByteBound]
      by_cases hle : storedValueLen codec record.2 ≤ limits.maxBytes
      · rw [ensure_bind hle]
        simp only [FamilyCodec.page, ← hbytes, ← hdec]
        have hgoes : ¬ (front ≠ [] ∧ front.length < limits.maxItems ∧ codec.Fits limits front
            ∧ limits.maxBytes < storedValueLen codec record.2) := fun h => by omega
        have hexcess : ∀ actual, ¬ codec.Fits limits (front ++ [record]) →
            codec.Answers limits (front ++ record :: rest)
              ((codec.page front false).beforeExcess codec limits actual) := fun actual hnot => by
          rw [CursorPage.beforeExcess]
          split
          · next hnil => exact (answers_error_iff hfits hnot).mpr hnil
          · next hne => exact answers_page hfits hnot hne
        rw [and_iff_right hgoes]
        by_cases hmore : codec.Fits limits (front ++ [record])
        · rw [if_neg (Nat.not_lt.mpr hmore.2.1), if_neg (Nat.not_lt.mpr hmore.2.2)]
          have hgo := ih hrest hmore
          rwa [append_assoc, singleton_append] at hgo
        · refine iff_of_true ?_ (not_blocked hmore)
          split
          · exact hexcess _ hmore
          · next hin =>
            rw [if_pos (Nat.not_le.mp fun h => hmore ⟨?_, Nat.not_lt.mp hin, h⟩)]
            · exact hexcess _ hmore
            · rw [length_append]
              exact hroom
      · have hnot := @not_fits_of_value _ _ _ _ front _ (Nat.not_le.mp hle)
        rw [ensure, if_neg hle, error_bind, answers_error_iff hfits hnot,
          and_iff_left (not_blocked hnot)]
        exact ⟨fun hnil h => h.1 hnil, fun h => by_contra fun hne =>
          h ⟨hne, hroom, hfits, Nat.not_le.mp hle⟩⟩

variable {range : CursorRange K} {direction : CursorDirection} {last : K}

theorem mem_inside : record ∈ inside space range direction
    ↔ record ∈ space.toList ∧ range.contains record.1 = true := by
  cases direction <;> simp [inside, CursorDirection.order]

theorem readCursor_of_admits (h : codec.Admits range) :
    readCursor codec space limits range direction
    = collectRecords codec limits (inside space range direction) (codec.page [] false) := by
  rw [readCursor, ensureCallerKeySize_ok h.1, ok_bind, ensureCallerKeySize_ok h.2.1, ok_bind,
    ensure_true h.2.2]
  rfl

omit [Ord K] in
theorem FamilyCodec.Sized.fits (hsized : codec.Sized)
    (hmax : codec.maxKeyBytes + (codec.maxValueBytes + recordVersionBytes) ≤ limits.maxBytes)
    (record : K × V) : codec.Allows record ∧ codec.Fits limits [record] := by
  have hkey := hsized.key record.1
  have hvalue := hsized.value record.2
  refine ⟨⟨hkey, hvalue⟩, limits.items_pos, Nat.le_trans ?_ hmax, Nat.le_trans ?_ hmax⟩
  · rw [storedBytes_singleton]
    exact Nat.add_le_add hkey.2 (Nat.add_le_add_right hvalue _)
  · rw [decodedBytes_singleton]
    exact Nat.add_le_add (hsized.decodedKey _) (Nat.le_add_right_of_le (hsized.decodedValue _))

/-- A read of records that fit one by one hands out a front part of them. -/
theorem exists_readCursor (hadmits : codec.Admits range)
    (hfits : ∀ record ∈ inside space range direction,
      codec.Allows record ∧ codec.Fits limits [record]) :
    ∃ page rest, readCursor codec space limits range direction = .ok page
      ∧ inside space range direction = page.records ++ rest ∧ (page.hasMore = true ↔ rest ≠ [])
      ∧ (rest ≠ [] → page.records ≠ []) := by
  have hanswers : codec.Answers limits (inside space range direction)
      (readCursor codec space limits range direction) := by
    rw [readCursor_of_admits hadmits]
    refine (collectRecords_answers_iff (fun record hrec => (hfits record hrec).1) fits_nil).mpr ?_
    rintro ⟨mid, record, rest, hsplit, -, -, -, hover⟩
    have hmem : record ∈ inside space range direction := hsplit ▸ by simp
    exact @not_fits_of_value _ _ _ _ [] _ hover (hfits record hmem).2
  cases hread : readCursor codec space limits range direction with
  | error e =>
    rw [hread] at hanswers
    obtain ⟨-, first, hfirst, hexceeds⟩ := hanswers
    exact absurd (hfits first (mem_of_mem_head? hfirst)).2 hexceeds
  | ok page =>
    rw [hread] at hanswers
    obtain ⟨⟨⟨rest, hsplit⟩, hfit, hlongest⟩, hmore, -⟩ := hanswers
    refine ⟨page, rest, rfl, hsplit.symm, ?_, fun hrest hnil => ?_⟩
    · rw [hmore, ← hsplit]
      simp
    · rw [hnil, nil_append] at hsplit
      obtain ⟨first, rest, rfl⟩ := exists_cons_of_ne_nil hrest
      have hone := hlongest [first] (hsplit ▸ ⟨rest, rfl⟩) (hfits first (hsplit ▸ by simp)).2
      rw [hnil] at hone
      exact absurd hone (by simp)

/-- **Behind a key a cursor read hands out a front part of what remains there.** -/
theorem readCursor_behind {first : K} (hsized : codec.Sized)
    (hmax : codec.maxKeyBytes + (codec.maxValueBytes + recordVersionBytes) ≤ limits.maxBytes)
    (hbetween : ∀ key, compare first key ≠ .gt ∧ compare key last ≠ .gt) (after : Option K) :
    ∃ page left, readCursor codec space limits (.behind first last after) .forward = .ok page
      ∧ behind space after = page.records ++ left ∧ (page.hasMore = true ↔ left ≠ [])
      ∧ (left ≠ [] → page.records ≠ []) := by
  have hadmits : codec.Admits (.behind first last after) := by
    cases after with
    | none => exact ⟨hsized.key _, hsized.key _, (hbetween first).2⟩
    | some key => exact ⟨hsized.key _, hsized.key _, (hbetween key).2⟩
  have hinside : inside space (.behind first last after) .forward = behind space after := by
    cases after with
    | none =>
      refine filter_eq_self.mpr fun record _ => ?_
      exact Bool.and_eq_true_iff.mpr ⟨Ordering.isLE_iff_ne_gt.mpr (hbetween record.1).1,
        Ordering.isLE_iff_ne_gt.mpr (hbetween record.1).2⟩
    | some key =>
      refine filter_congr fun record _ => ?_
      have habove : (compare record.1 last).isLE = true :=
        Ordering.isLE_iff_ne_gt.mpr (hbetween _).2
      change ((compare key record.1).isLT && (compare record.1 last).isLE) = _
      rw [habove, Bool.and_true]
      cases compare key record.1 <;> rfl
  rw [← hinside]
  exact exists_readCursor hadmits fun record _ => hsized.fits hmax record

/-! ## Reading on -/

/-- A read in a direction comes to one key before another. -/
def CursorDirection.passes (direction : CursorDirection) (a b : K) : Bool :=
  match direction with
  | forward => (compare a b).isLT
  | reverse => (compare b a).isLT

theorem FamilyCodec.Admits.beyond (h : codec.Admits range) (hlast : codec.AllowsKey last)
    (hin : range.contains last = true) : codec.Admits (range.beyond last direction) := by
  obtain ⟨hstart, hstop⟩ := Bool.and_eq_true_iff.mp hin
  cases direction with
  | forward => exact ⟨hlast, h.2.1, Ordering.isLE_iff_ne_gt.mp (Bound.isLE_of_admits hstop)⟩
  | reverse => exact ⟨h.1, hlast, Ordering.isLE_iff_ne_gt.mp (Bound.isLE_of_admits hstart)⟩

variable [TransOrd K]

theorem CursorDirection.not_passes {a b : K} (hab : direction.passes a b = true)
    (hba : direction.passes b a = true) : False := by
  have hcycle : ∀ {a b : K}, (compare a b).isLT = true → (compare b a).isLT = true → False :=
    fun h h' => by
      rw [Ordering.isLT_iff_eq_lt] at h h'
      rw [OrientedCmp.gt_of_lt h] at h'
      cases h'
  cases direction with
  | forward => exact hcycle hab hba
  | reverse => exact hcycle hba hab

theorem contains_beyond (hlast : range.contains last = true) :
    (range.beyond last direction).contains key =
        (direction.passes last key && range.contains key) := by
  simp only [CursorRange.contains, Bool.and_eq_true] at hlast
  rw [Bool.eq_iff_iff]
  cases direction with
  | forward =>
    simp only [CursorRange.contains, CursorRange.beyond, CursorDirection.passes, Bound.admits,
      Bool.and_eq_true, Bool.false_eq_true, if_false]
    refine ⟨fun h => ⟨h.1, ?_, h.2⟩, fun h => ⟨h.1, h.2.2⟩⟩
    have := TransCmp.lt_of_isLE_of_lt (Bound.isLE_of_admits hlast.1)
      (Ordering.isLT_iff_eq_lt.mp h.1)
    rw [this]
    exact range.start.admits_lt
  | reverse =>
    simp only [CursorRange.contains, CursorRange.beyond, CursorDirection.passes, Bool.and_eq_true]
    refine ⟨fun h => ⟨h.2, h.1, ?_⟩, fun h => ⟨h.2.1, h.1⟩⟩
    have := TransCmp.lt_of_lt_of_isLE (Ordering.isLT_iff_eq_lt.mp h.2)
      (Bound.isLE_of_admits hlast.2)
    rw [this]
    exact range.stop.admits_lt

theorem inside_sorted : (inside space range direction).Pairwise
    fun a b => direction.passes a.1 b.1 = true := by
  have hsort : space.toList.Pairwise fun a b => (compare a.1 b.1).isLT = true :=
    TreeMap.ordered_keys_toList.imp Ordering.isLT_iff_eq_lt.mpr
  refine List.Pairwise.filter _ ?_
  cases direction with
  | forward => exact hsort
  | reverse => exact pairwise_reverse.mpr hsort

theorem inside_beyond {last : K × V} (h : inside space range direction = front ++ last :: rest) :
    inside space (range.beyond last.1 direction) direction = rest := by
  have hin := (mem_inside.mp (h ▸ by simp : last ∈ inside space range direction)).2
  rw [inside, filter_congr fun record _ => contains_beyond hin, ← filter_filter]
  exact filter_behind (fun a b hab hba => direction.not_passes hab hba) inside_sorted h

theorem readOn_eq (hspace : ∀ record ∈ space.toList, codec.Allows record) (pages : ℕ)
    (hadmits : codec.Admits range)
    (hfits : ∀ record ∈ inside space range direction, codec.Fits limits [record])
    (henough : (inside space range direction).length < pages) :
    readOn codec space limits direction pages range = .ok (inside space range direction) := by
  induction pages generalizing range with
  | zero => exact absurd henough (Nat.not_lt_zero _)
  | succ pages ih =>
    obtain ⟨page, rest, hread, hsplit, hmore, hne⟩ := exists_readCursor hadmits fun record hrec =>
      ⟨hspace record (mem_inside.mp hrec).1, hfits record hrec⟩
    rw [readOn, hread, ok_bind, hsplit]
    cases hhas : page.hasMore with
    | false =>
      obtain rfl : rest = [] := by_contra fun h => by simp [hmore.mpr h] at hhas
      rw [append_nil]
      rfl
    | true =>
      obtain ⟨front, last, hrecs⟩ :=
        (eq_nil_or_concat' page.records).resolve_left (hne (hmore.mp hhas))
      rw [hrecs, append_assoc, singleton_append] at hsplit
      have hbeyond := inside_beyond hsplit
      obtain ⟨hstored, hin⟩ :=
        mem_inside.mp (hsplit ▸ by simp : last ∈ inside space range direction)
      have hgoes := @ih (range.beyond last.1 direction)
        (hadmits.beyond (hspace last hstored).1 hin)
        (fun record hrec => hfits record (by rw [hsplit]; rw [hbeyond] at hrec; simp [hrec]))
        (by rw [hbeyond]; simp [hsplit] at henough; omega)
      simp [hrecs, hgoes, hbeyond]

omit [Ord K] [TransOrd K] in
theorem answers_of_ensure {p : Prop} [Decidable p] {e : ReadError} {records : List (K × V)}
    {next : Unit → Fetched (CursorPage K V)}
    (h : codec.Answers limits records (ensure p e >>= next))
    (he : ∀ actual, e ≠ .boundExceeded codec.domain codec.family limits.maxBytes actual) :
    p ∧ codec.Answers limits records (next ()) := by
  by_cases hp : p
  · rw [ensure_bind hp] at h
    exact ⟨hp, h⟩
  · rw [ensure, if_neg hp, error_bind] at h
    obtain ⟨⟨actual, h⟩, -⟩ := h
    exact absurd h (he actual)

/-- **A cursor read answers exactly if the range is one and no value alone exceeds the bytes behind
a page that is not full.**  Reading on enumerates a range whose records fit one by one. -/
theorem readCursor_answers_iff (hspace : ∀ record ∈ space.toList, codec.Allows record)
    (range : CursorRange K) (direction : CursorDirection) :
    (codec.Answers limits (inside space range direction)
        (readCursor codec space limits range direction)
      ↔ codec.Admits range ∧ ¬ codec.Blocked limits [] (inside space range direction))
      ∧ (codec.Admits range →
        (∀ record ∈ inside space range direction, codec.Fits limits [record]) →
        ∀ pages, (inside space range direction).length < pages →
          readOn codec space limits direction pages range =
              .ok (inside space range direction)) := by
  refine ⟨?_, fun hadmits hfits pages henough => readOn_eq hspace pages hadmits hfits henough⟩
  by_cases hadmits : codec.Admits range
  · rw [and_iff_right hadmits, readCursor_of_admits hadmits]
    exact collectRecords_answers_iff (fun record hrecord => hspace record (mem_inside.mp hrecord).1)
      fits_nil
  · refine iff_of_false (fun hanswers => hadmits ?_) fun h => hadmits h.1
    obtain ⟨hstart, hanswers⟩ := answers_of_ensure hanswers fun _ => nofun
    obtain ⟨hstop, hanswers⟩ := answers_of_ensure hanswers fun _ => nofun
    exact ⟨hstart, hstop, (answers_of_ensure hanswers fun _ => nofun).1⟩

end

/-! ## A page that is lost -/

/-- Keys of a byte, and values of as many bytes as they say. -/
def sizedCodec : FamilyCodec ℕ ℕ := ⟨"sizes", "sizes", 1, 100, fun _ => 1, id, fun _ => 1, id⟩

/-- Two records, ten bytes. -/
def sizedLimits : CursorReadLimits := ⟨2, 10, Nat.two_pos, by decide⟩

/-- Two records that fit into a page each, and one that fits into none. -/
def sizedSpace : Keyspace ℕ ℕ := (((∅ : Keyspace ℕ ℕ).insert 0 1).insert 1 1).insert 2 20

theorem sizedSpace_toList : sizedSpace.toList = [(0, 1), (1, 1), (2, 20)] := by decide +kernel

theorem sizedSpace_allows : ∀ record ∈ sizedSpace.toList, sizedCodec.Allows record := by
  rw [sizedSpace_toList]
  simp [FamilyCodec.Allows, FamilyCodec.AllowsKey, sizedCodec]

/-- The page ends before its range does, and reading on comes to the end. -/
theorem readCursor_answers_part :
    readCursor sizedCodec sizedSpace sizedLimits (.closed 0 1) .forward
      = .ok (sizedCodec.page [(0, 1)] true) ∧
    sizedCodec.Answers sizedLimits (inside sizedSpace (.closed 0 1) .forward)
      (readCursor sizedCodec sizedSpace sizedLimits (.closed 0 1) .forward) ∧
    readOn sizedCodec sizedSpace sizedLimits .forward 3 (.closed 0 1) = .ok [(0, 1), (1, 1)] := by
  have hinside : inside sizedSpace (.closed 0 1) .forward = [(0, 1), (1, 1)] := by
    rw [inside, CursorDirection.order, sizedSpace_toList]
    rfl
  have hadmits : sizedCodec.Admits (.closed 0 1) :=
    ⟨⟨by decide, by decide⟩, ⟨by decide, by decide⟩, by decide⟩
  have hfits : ∀ record ∈ [(0, 1), (1, 1)], sizedCodec.Fits sizedLimits [record] := by
    simp only [FamilyCodec.Fits]
    decide
  obtain ⟨hanswers, hreads⟩ :=
    @readCursor_answers_iff _ _ _ _ _ sizedLimits _ sizedSpace_allows (.closed 0 1) .forward
  rw [hinside] at hanswers hreads
  refine ⟨by rw [readCursor, hinside]; rfl, hinside ▸ hanswers.mpr ⟨hadmits, ?_⟩,
    hreads hadmits hfits 3 (by decide)⟩
  rw [blocked_cons, blocked_cons]
  simp [FamilyCodec.Blocked, sizedCodec, sizedLimits, storedValueLen, recordVersionBytes]

/-- **The second record exceeds the bytes, and the first is not handed out.** -/
theorem readCursor_loses_page : (∀ record ∈ sizedSpace.toList, sizedCodec.Allows record)
    ∧ readCursor sizedCodec sizedSpace sizedLimits (.closed 1 2) .forward
      = .error (.boundExceeded "sizes" "sizes" 10 24)
    ∧ ¬ sizedCodec.Answers sizedLimits (inside sizedSpace (.closed 1 2) .forward)
      (readCursor sizedCodec sizedSpace sizedLimits (.closed 1 2) .forward) := by
  have hinside : inside sizedSpace (.closed 1 2) .forward = [(1, 1), (2, 20)] := by
    rw [inside, CursorDirection.order, sizedSpace_toList]
    rfl
  have hread : readCursor sizedCodec sizedSpace sizedLimits (.closed 1 2) .forward
      = .error (.boundExceeded "sizes" "sizes" 10 24) := by
    rw [readCursor, hinside]
    rfl
  refine ⟨sizedSpace_allows, hread, ?_⟩
  rw [hread, hinside]
  rintro ⟨-, _, ⟨⟩, hexceeds⟩
  exact hexceeds ⟨by decide, by decide, by decide⟩

end Beryl.Home
