import Beryl.Home.Cursor
import Mathlib.Data.List.Infix

/-!
# Catalog/Row — the rows of the thread catalog

The catalog keeps a compact row for each thread, once under the thread and once under its recency.
**The recency order is most recent first**, and among rows of one time by thread: the key
complements the time.  A row repeats what the runtime and root records said when it was built.
-/

namespace Beryl.Catalog

open Home Keyspace Std

/-! ## Values -/

/-- An identity of sixteen bytes, in the order of its bytes. -/
abbrev Identity := Fin (2 ^ 128)
/-- A thread. -/
abbrev SyndicThreadId := Identity
/-- A runtime. -/
abbrev RuntimeId := Identity
/-- A root. -/
abbrev RootId := Identity

instance neZero_identity : NeZero (2 ^ 128) := ⟨by decide⟩

/-- A time in milliseconds. -/
abbrev UnixMillis := Fin (2 ^ 64)

/-- Why something cannot be used. -/
inductive UnavailableReason
  | notFound | accessDenied | environmentUnavailable | backendUnavailable | storeUnavailable
  | openElsewhere | unsupported | invalid
deriving DecidableEq

/-- Whether something can be used. -/
inductive Availability
  | unknown | available
  | unavailable (reason : UnavailableReason)
deriving DecidableEq

/-- Whether a row is up to date. -/
inductive CatalogFreshness
  | current | stale
deriving DecidableEq

/-- Where a thread runs. -/
structure CatalogExecutionSummary where
  runtimeId : RuntimeId
  rootId : RootId
  environmentLabel : String
  configuredExecutablePath : String
  fullRootPath : String
  runtimeAvailability : Availability
  rootAvailability : Availability
deriving DecidableEq

/-- The normalized texts that a search looks into. -/
structure CatalogSearchFields where
  title : String
  environmentLabel : String
  configuredExecutablePath : String
  fullRootPath : String
deriving DecidableEq

/-- One of the texts holds the query. -/
def CatalogSearchFields.matches (fields : CatalogSearchFields) (query : String) : Bool :=
  query.isEmpty || [fields.title, fields.environmentLabel, fields.configuredExecutablePath,
    fields.fullRootPath].any fun field => query.toList <:+: field.toList

/-- The revisions of the records that a row was built from. -/
structure CatalogSourceRevisions where
  runtime : Revision
  root : Revision
deriving DecidableEq

/-! ## Recency -/

/-- A position in the recency order. -/
structure CatalogRecencyCursor where
  lastActivityAt : UnixMillis
  threadId : SyndicThreadId
deriving DecidableEq

namespace CatalogRecencyCursor

/-- The encoded key complements the time. -/
instance : Ord CatalogRecencyCursor :=
  ⟨compareLex (compareOn fun cursor => cursor.lastActivityAt.rev) (compareOn threadId)⟩

instance : TransOrd CatalogRecencyCursor :=
  inferInstanceAs (TransCmp (compareLex
    (compareOn fun cursor : CatalogRecencyCursor => cursor.lastActivityAt.rev)
    (compareOn threadId)))

theorem compare_eq (a b : CatalogRecencyCursor) :
    compare a b = (compare a.lastActivityAt.rev b.lastActivityAt.rev).then
      (compare a.threadId b.threadId) := rfl

instance : LawfulEqOrd CatalogRecencyCursor where
  eq_of_compare := by
    rintro ⟨time, thread⟩ ⟨time', thread'⟩ h
    rw [compare_eq, Ordering.then_eq_eq, Std.compare_eq_iff_eq, Std.compare_eq_iff_eq,
      Fin.rev_inj] at h
    rw [mk.injEq]
    exact h

/-- The most recent position. -/
def first : CatalogRecencyCursor := ⟨Fin.last _, 0⟩

/-- The least recent position. -/
def last : CatalogRecencyCursor := ⟨0, Fin.last _⟩

end CatalogRecencyCursor

/-! ## Records -/

/-- The most bytes of a row. -/
def catalogRecordLimit : ℕ := 256 * 1024

/-- What a row says of its thread. -/
structure CatalogFacts where
  execution : CatalogExecutionSummary
  lastActivityAt : UnixMillis
  search : CatalogSearchFields
deriving DecidableEq

/-- A row, with the length of its encoding. -/
structure CatalogRow where
  threadId : SyndicThreadId
  sources : CatalogSourceRevisions
  freshness : CatalogFreshness
  facts : CatalogFacts
  encodedBytes : ℕ
  encoded_le : encodedBytes ≤ catalogRecordLimit
deriving DecidableEq

/-- The position of a row. -/
def CatalogRow.recencyCursor (row : CatalogRow) : CatalogRecencyCursor :=
  ⟨row.facts.lastActivityAt, row.threadId⟩

/-- The most bytes of a runtime. -/
def runtimeRecordLimit : ℕ := 132 * 1024
/-- The most bytes of a root. -/
def rootRecordLimit : ℕ := 132 * 1024

/-- A stored runtime. -/
structure RuntimeRecord where
  runtimeId : RuntimeId
  canonicalExecutable : String
  environmentLabel : String
  availability : Availability
  revision : Revision
  encodedBytes : ℕ
  encoded_le : encodedBytes ≤ runtimeRecordLimit
deriving DecidableEq

/-- A stored root. -/
structure RootRecord where
  rootId : RootId
  runtimeId : RuntimeId
  displayPath : String
  availability : Availability
  revision : Revision
  encodedBytes : ℕ
  encoded_le : encodedBytes ≤ rootRecordLimit
deriving DecidableEq

/-- The key of a root under its runtime. -/
structure RuntimeRootKey where
  runtimeId : RuntimeId
  rootId : RootId
deriving DecidableEq

namespace RuntimeRootKey

instance : Ord RuntimeRootKey := ⟨compareLex (compareOn runtimeId) (compareOn rootId)⟩

end RuntimeRootKey

/-- **What a frozen read retains**: the families of the catalog and of the runtimes and roots. -/
structure FrozenHomeRead where
  generation : ℕ
  homeRevision : Revision
  catalogRevision : Revision
  primary : Keyspace SyndicThreadId CatalogRow
  recency : Keyspace CatalogRecencyCursor CatalogRow
  runtimes : Keyspace RuntimeId RuntimeRecord
  rootIds : Keyspace RootId RuntimeId
  roots : Keyspace RuntimeRootKey RootRecord

/-! ## Criteria -/

/-- What a query looks at. -/
inductive CatalogQueryScope
  | all
  | runtime (runtimeId : RuntimeId)
  | root (runtimeId : RuntimeId) (rootId : RootId)
deriving DecidableEq

/-- What a query looks for. -/
structure CatalogQueryCriteria where
  scope : CatalogQueryScope
  search : String
deriving DecidableEq

/-- Whether a row is looked for. -/
def CatalogQueryCriteria.matches (criteria : CatalogQueryCriteria) (row : CatalogRow) : Bool :=
  let execution := row.facts.execution
  let scope : Bool := match criteria.scope with
    | .all => true
    | .runtime runtimeId => execution.runtimeId = runtimeId
    | .root runtimeId rootId => execution.runtimeId = runtimeId ∧ execution.rootId = rootId
  scope && row.facts.search.matches criteria.search

end Beryl.Catalog
