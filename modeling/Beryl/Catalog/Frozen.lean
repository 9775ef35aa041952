import Beryl.Catalog.Row

/-!
# Catalog/Frozen — reading a frozen home

A frozen row is read together with its copy under the recency, and a page of rows with the copies of
all of them; a difference is an error.  The runtime and root records that a row repeats are read the
same way.  **If the copies agree, a reader of rows serves them** (`serves_primary`,
`serves_recency`).
-/

namespace Beryl.Catalog

open Fallible Home Keyspace Paging Std List CatalogRow

/-- Why rows cannot be read. -/
inductive CatalogReadError
  | read (source : ReadError)
  | invariant (message : String)
deriving DecidableEq

/-- Why runtimes cannot be read. -/
inductive RuntimeRootCatalogSourceError
  | read (source : ReadError)
  | runtimeMissing (runtimeId : RuntimeId)
  | rootMissing (rootId : RootId)
  | rootRuntimeMismatch (rootId : RootId) (expected current : RuntimeId)
  | sourceChanged (kind : String)
deriving DecidableEq

/-! ## Codecs -/

/-- The rows by thread. -/
def catalogRowCodec : FamilyCodec SyndicThreadId CatalogRow where
  domain := "beryl-catalog"
  family := "rows"
  maxKeyBytes := 16
  maxValueBytes := catalogRecordLimit
  keyBytes := fun _ => 16
  valueBytes := CatalogRow.encodedBytes

/-- The rows by recency. -/
def catalogRecencyCodec : FamilyCodec CatalogRecencyCursor CatalogRow where
  domain := "beryl-catalog"
  family := "recency"
  maxKeyBytes := 24
  maxValueBytes := catalogRecordLimit
  keyBytes := fun _ => 24
  valueBytes := CatalogRow.encodedBytes

/-- The runtimes. -/
def runtimeRecordCodec : FamilyCodec RuntimeId RuntimeRecord where
  domain := "beryl-runtime-root"
  family := "runtimes"
  maxKeyBytes := 16
  maxValueBytes := runtimeRecordLimit
  keyBytes := fun _ => 16
  valueBytes := RuntimeRecord.encodedBytes

/-- The runtimes of the roots. -/
def rootIdIndexCodec : FamilyCodec RootId RuntimeId where
  domain := "beryl-runtime-root"
  family := "root-id-index"
  maxKeyBytes := 16
  maxValueBytes := 16
  keyBytes := fun _ => 16
  valueBytes := fun _ => 16

/-- The roots. -/
def rootRecordCodec : FamilyCodec RuntimeRootKey RootRecord where
  domain := "beryl-runtime-root"
  family := "roots"
  maxKeyBytes := 32
  maxValueBytes := rootRecordLimit
  keyBytes := fun _ => 32
  valueBytes := RootRecord.encodedBytes

/-- The most bytes of a stored row. -/
def catalogPointReadMaxBytes : ℕ := 4 + catalogRecordLimit

/-- The most that a record of the recency takes, with its key and version. -/
def catalogMaxStoredRecencyBytes : ℕ := 24 + 4 + catalogRecordLimit

/-- The rows of a scanned page. -/
def scanItems : ℕ := 16

/-- The limits of a scan. -/
def scanLimits : CursorReadLimits where
  maxItems := scanItems
  maxBytes := scanItems * catalogMaxStoredRecencyBytes
  items_pos := by decide
  bytes_pos := by decide

/-- A payload and its version. -/
def pointLimit (maximumPayload : ℕ) : ℕ := maximumPayload + 4

/-! ## Reads -/

/-- A page behind a key, each record of which passes a check. -/
def checkedPage {K V ε : Type} [Ord K] (codec : FamilyCodec K V) (space : Keyspace K V)
    (limits : CursorReadLimits) (first last : K) (wrap : ReadError → ε)
    (check : K → V → Except ε Unit) (after : Option K) : Except ε (Page V) := do
  let page ← (readCursor codec space limits (.behind first last after) .forward).mapError wrap
  page.records.forM fun record => check record.1 record.2
  return ⟨page.records.map Prod.snd, page.hasMore⟩

namespace FrozenHomeRead

variable (home : FrozenHomeRead)

/-- The row of a thread, if both copies agree. -/
def frozenRow (threadId : SyndicThreadId) : Except CatalogReadError (Option CatalogRow) := do
  let row ← (readPoint catalogRowCodec home.primary threadId catalogPointReadMaxBytes).mapError
    .read
  match row with
  | none => return none
  | some row => do
    ensure (row.threadId = threadId) (.invariant "catalog primary key and row identity disagree")
    let reverse ← (readPoint catalogRecencyCodec home.recency row.recencyCursor
      catalogPointReadMaxBytes).mapError .read
    ensure (reverse = some row) (.invariant "catalog frozen primary and recency copies disagree")
    return some row

/-- A page of the rows by thread. -/
def frozenPrimaryPage (limits : CursorReadLimits) (after : Option SyndicThreadId) :
    Except CatalogReadError (Page CatalogRow) :=
  checkedPage catalogRowCodec home.primary limits 0 (Fin.last _) .read
    (fun key row => do
      ensure (key = row.threadId) (.invariant "catalog primary key and row identity disagree")
      let found ← home.frozenRow key
      ensure (found = some row) (.invariant "catalog frozen primary row changed within one read"))
    after

/-- A page of the rows by recency. -/
def frozenRecencyPage (limits : CursorReadLimits) (after : Option CatalogRecencyCursor) :
    Except CatalogReadError (Page CatalogRow) :=
  checkedPage catalogRecencyCodec home.recency limits .first .last .read
    (fun key row => do
      ensure (key = row.recencyCursor) (.invariant "catalog recency key and row identity disagree")
      let found ← home.frozenRow row.threadId
      ensure (found = some row)
        (.invariant "catalog frozen recency and primary copies disagree"))
    after

/-- A runtime under its key. -/
def frozenRuntime (runtimeId : RuntimeId) :
    Except RuntimeRootCatalogSourceError (Option RuntimeRecord) := do
  let record ← (readPoint runtimeRecordCodec home.runtimes runtimeId
    (pointLimit runtimeRecordLimit)).mapError .read
  ensure (record.all fun record => record.runtimeId = runtimeId)
    (.sourceChanged "runtime key/value identity")
  return record

/-- A root, found by the index. -/
def frozenRoot (rootId : RootId) : Except RuntimeRootCatalogSourceError (Option RootRecord) := do
  let owner ← (readPoint rootIdIndexCodec home.rootIds rootId (pointLimit 32)).mapError .read
  match owner with
  | none => return none
  | some runtimeId => do
    let record ← (readPoint rootRecordCodec home.roots ⟨runtimeId, rootId⟩
      (pointLimit rootRecordLimit)).mapError .read
    ensure (record.any fun record => record.rootId = rootId ∧ record.runtimeId = runtimeId)
      (.sourceChanged "root index/key/value identity")
    return record

end FrozenHomeRead

/-- The runtime and root that a row belongs to. -/
structure RuntimeRootCatalogSource where
  runtime : RuntimeRecord
  root : RootRecord
  same : root.runtimeId = runtime.runtimeId
deriving DecidableEq

namespace FrozenHomeRead

variable (home : FrozenHomeRead)

/-- A runtime and one of its roots. -/
def frozenCatalogSource (runtimeId : RuntimeId) (rootId : RootId) :
    Except RuntimeRootCatalogSourceError RuntimeRootCatalogSource := do
  let runtime ← required (.runtimeMissing runtimeId) (← home.frozenRuntime runtimeId)
  let root ← required (.rootMissing rootId) (← home.frozenRoot rootId)
  if same : root.runtimeId = runtime.runtimeId then .ok ⟨runtime, root, same⟩
  else .error (.rootRuntimeMismatch root.rootId runtime.runtimeId root.runtimeId)

/-- A page of the runtimes. -/
def frozenRuntimesPage (limits : CursorReadLimits) (after : Option RuntimeId) :
    Except RuntimeRootCatalogSourceError (Page RuntimeRecord) :=
  checkedPage runtimeRecordCodec home.runtimes limits 0 (Fin.last _) .read
    (fun key runtime =>
      ensure (key = runtime.runtimeId) (.sourceChanged "runtime key/value identity"))
    after

end FrozenHomeRead

/-! ## Agreement -/

/-- **The primary and the recency copies agree**: each row is stored under its thread and under its
recency. -/
structure FrozenHomeRead.Agrees (home : FrozenHomeRead) : Prop where
  primary : ∀ (threadId : SyndicThreadId) (row : CatalogRow), home.primary[threadId]? = some row →
    row.threadId = threadId ∧ home.recency[row.recencyCursor]? = some row
  recency : ∀ (cursor : CatalogRecencyCursor) (row : CatalogRow), home.recency[cursor]? = some row →
    row.recencyCursor = cursor ∧ home.primary[row.threadId]? = some row

/-- Each runtime is stored under its identity. -/
def FrozenHomeRead.RuntimesKeyed (home : FrozenHomeRead) : Prop :=
  ∀ (runtimeId : RuntimeId) (runtime : RuntimeRecord), home.runtimes[runtimeId]? = some runtime →
    runtime.runtimeId = runtimeId

/-- The rows behind a cursor, most recent first. -/
def FrozenHomeRead.rowsBehind (home : FrozenHomeRead) (after : Option CatalogRecencyCursor) :
    List CatalogRow :=
  (behind home.recency after).map Prod.snd

theorem identity_between (id : Identity) :
    compare (0 : Identity) id ≠ .gt ∧ compare id (Fin.last _ : Identity) ≠ .gt := by
  refine ⟨?_, ?_⟩
  · exact Nat.compare_ne_gt.mpr (Nat.zero_le _)
  · exact Nat.compare_ne_gt.mpr (Fin.le_last id)

theorem CatalogRecencyCursor.between (cursor : CatalogRecencyCursor) :
    compare first cursor ≠ .gt ∧ compare cursor last ≠ .gt := by
  obtain ⟨hleast, hgreatest⟩ := identity_between cursor.threadId
  rw [compare_eq, compare_eq, ne_eq, ne_eq, Ordering.then_eq_gt, Ordering.then_eq_gt]
  refine ⟨?_, ?_⟩
  · rintro (hlater | ⟨-, hthr⟩)
    · exact Nat.compare_ne_gt.mpr (Fin.rev_last _ ▸ Nat.zero_le _) hlater
    · exact hleast hthr
  · rintro (hearlier | ⟨-, hthr⟩)
    · exact Nat.compare_ne_gt.mpr (Fin.rev_zero _ ▸ Fin.le_last _) hearlier
    · exact hgreatest hthr

/-- **A checked page is a front part of what is behind the key**, if every record passes the check.
-/
theorem exists_checkedPage {K V ε : Type} [Ord K] {codec : FamilyCodec K V}
    {space : Keyspace K V} {limits : CursorReadLimits} {first last : K} {wrap : ReadError → ε}
    {check : K → V → Except ε Unit} (hsized : codec.Sized)
    (hmax : codec.maxKeyBytes + (codec.maxValueBytes + recordVersionBytes) ≤ limits.maxBytes)
    (hbetween : ∀ key, compare first key ≠ .gt ∧ compare key last ≠ .gt)
    (hcheck : ∀ record ∈ space.toList, check record.1 record.2 = .ok ()) (after : Option K) :
    ∃ page rest, checkedPage codec space limits first last wrap check after = .ok page
      ∧ (behind space after).map Prod.snd = page.rows ++ rest
      ∧ (page.hasMore = true ↔ rest ≠ []) ∧ (rest ≠ [] → page.rows ≠ []) := by
  obtain ⟨page, left, hread, hsplit, hmore, hsome⟩ := readCursor_behind hsized hmax hbetween after
  have hpasses : (page.records.forM fun record => check record.1 record.2) = .ok () := by
    refine forM_eq_ok.mpr fun record hrec => hcheck record ?_
    have hin : record ∈ behind space after := hsplit ▸ mem_append_left _ hrec
    cases after with
    | none => exact hin
    | some key => exact (mem_behind.mp hin).1
  refine ⟨⟨page.records.map Prod.snd, page.hasMore⟩, left.map Prod.snd, ?_, ?_, ?_, ?_⟩
  · rw [checkedPage, hread, mapError_ok, ok_bind, hpasses, ok_bind]
    rfl
  · rw [hsplit, map_append]
  · rw [hmore, ne_eq, ne_eq, map_eq_nil_iff]
  · rw [ne_eq, ne_eq, map_eq_nil_iff, map_eq_nil_iff]
    exact hsome

namespace FrozenHomeRead

variable {home : FrozenHomeRead}

theorem catalogRowCodec_sized : catalogRowCodec.Sized :=
  ⟨fun _ => ⟨Nat.succ_pos 15, Nat.le_refl 16⟩, encoded_le, fun _ => Nat.le_refl 16,
    encoded_le⟩

theorem catalogRecencyCodec_sized : catalogRecencyCodec.Sized :=
  ⟨fun _ => ⟨Nat.succ_pos 23, Nat.le_refl 24⟩, encoded_le, fun _ => Nat.le_refl 24,
    encoded_le⟩

theorem runtimeRecordCodec_sized : runtimeRecordCodec.Sized :=
  ⟨fun _ => ⟨Nat.succ_pos 15, Nat.le_refl 16⟩, RuntimeRecord.encoded_le, fun _ => Nat.le_refl 16,
    RuntimeRecord.encoded_le⟩

theorem Agrees.frozenRow_eq (h : home.Agrees) (threadId : SyndicThreadId) :
    home.frozenRow threadId = .ok home.primary[threadId]? := by
  rw [frozenRow, readPoint_eq catalogRowCodec_sized (by decide), mapError_ok, ok_bind]
  cases hrow : home.primary[threadId]? with
  | none => rfl
  | some row =>
    obtain ⟨hid, hcopy⟩ := h.primary _ _ hrow
    change (ensure (row.threadId = threadId) _ >>= _) = _
    rw [ensure_bind hid, readPoint_eq catalogRecencyCodec_sized (by decide), mapError_ok,
      ok_bind, hcopy, ensure_bind rfl]
    rfl

/-- The frozen rows are served under their threads. -/
theorem Agrees.serves_primary (h : home.Agrees) :
    Serves (home.frozenPrimaryPage scanLimits) threadId
      fun after => (behind home.primary after).map Prod.snd := by
  refine serves_values (fun record hrec => (h.primary _ _ (mem_scan.mp hrec)).1) fun after =>
    exists_checkedPage catalogRowCodec_sized (by decide) identity_between
      (fun record hrec => ?_) after
  have hstored := mem_scan.mp hrec
  rw [ensure_bind (h.primary _ _ hstored).1.symm, h.frozenRow_eq, ok_bind]
  exact ensure_true hstored

/-- **The frozen rows are served most recent first.** -/
theorem Agrees.serves_recency (h : home.Agrees) :
    Serves (home.frozenRecencyPage scanLimits) recencyCursor home.rowsBehind := by
  refine serves_values (fun record hrec => (h.recency _ _ (mem_scan.mp hrec)).1) fun after =>
    exists_checkedPage catalogRecencyCodec_sized (by decide) CatalogRecencyCursor.between
      (fun record hrec => ?_) after
  obtain ⟨hkey, hcopy⟩ := h.recency _ _ (mem_scan.mp hrec)
  rw [ensure_bind hkey.symm, h.frozenRow_eq, ok_bind]
  exact ensure_true hcopy

theorem RuntimesKeyed.frozenRuntime_eq (h : home.RuntimesKeyed) (runtimeId : RuntimeId) :
    home.frozenRuntime runtimeId = .ok home.runtimes[runtimeId]? := by
  have hread : readPoint runtimeRecordCodec home.runtimes runtimeId (pointLimit runtimeRecordLimit)
      = .ok home.runtimes[runtimeId]? := readPoint_eq runtimeRecordCodec_sized (Nat.le_refl _)
  rw [frozenRuntime, hread, mapError_ok, ok_bind]
  have hkeyed : (home.runtimes[runtimeId]?.all fun runtime => runtime.runtimeId = runtimeId) =
      true := by
    cases hfound : home.runtimes[runtimeId]? with
    | none => rfl
    | some runtime => exact decide_eq_true (h _ _ hfound)
  rw [ensure_bind hkeyed]
  rfl

theorem RuntimesKeyed.serves (h : home.RuntimesKeyed) :
    Serves (home.frozenRuntimesPage scanLimits) RuntimeRecord.runtimeId
      fun after => (behind home.runtimes after).map Prod.snd := by
  exact serves_values (fun record hrec => h _ _ (mem_scan.mp hrec)) fun after =>
    exists_checkedPage runtimeRecordCodec_sized (by decide) identity_between
      (fun record hrec => ensure_true (h _ _ (mem_scan.mp hrec)).symm) after

end FrozenHomeRead

end Beryl.Catalog
