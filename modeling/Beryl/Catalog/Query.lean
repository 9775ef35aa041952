import Beryl.Catalog.Frozen

/-!
# Catalog/Query — queries of a frozen catalog

A query is opened on a frozen read: every row is checked, and those that match are counted.
Afterwards a page is read behind a cursor or at an offset, and a thread is looked up.  Each call
walks the frozen recency anew; it fails on a row that is not current, and when the presentation of a
row differs from the runtime and root that the frozen read holds.
-/

namespace Beryl.Catalog

open Fallible Home Paging

/-- Why a call fails. -/
inductive CatalogQueryError
  | foreign | released | generationChanged | retired | cancelled | collectionLimit
  | identityExhausted | requestExhausted | countExhausted | limit
  | staleRow (threadId : SyndicThreadId)
  | structural (reason : String)
  | catalog (source : CatalogReadError)
  | runtimeRoot (source : RuntimeRootCatalogSourceError)
  | read (source : ReadError)
  /-- A walk that would not end; no call reports it. -/
  | unending
deriving DecidableEq

/-- What a query answers. -/
abbrev Queried (α : Type) := Except CatalogQueryError α

/-- The name of a query. -/
structure CatalogQueryToken where
  owner : ℕ
  generation : ℕ
  id : ℕ
deriving DecidableEq

/-- A place behind a row of a query. -/
structure CatalogQueryCursor where
  token : CatalogQueryToken
  after : CatalogRecencyCursor
  offset : ℕ
deriving DecidableEq

/-- The most queries of an owner. -/
def catalogQueryCollectionLimit : ℕ := 32
/-- The most rows of a page. -/
def catalogQueryPageMaxItems : ℕ := 16
/-- The most bytes of a page. -/
def catalogQueryPageMaxBytes : ℕ := 8 * 1024 * 1024

/-- What a page may hold. -/
structure CatalogQueryPageLimit where
  maxItems : ℕ
  maxBytes : ℕ
  items_valid : 0 < maxItems ∧ maxItems ≤ catalogQueryPageMaxItems
  bytes_valid : 0 < maxBytes ∧ maxBytes ≤ catalogQueryPageMaxBytes

/-- A row with its presentation. -/
structure CatalogQueryRow where
  catalog : CatalogRow
  runtimeRoot : RuntimeRootCatalogSource
  runtimeEnvironmentCount : ℕ
deriving DecidableEq

/-- A page of a query. -/
structure CatalogQueryPage where
  rows : List CatalogQueryRow
  offset : ℕ
  bytes : ℕ
  next : Option CatalogQueryCursor
deriving DecidableEq

/-- What a query is limited to. -/
inductive CatalogQueryScopePresentation
  | all
  | runtime (runtime : RuntimeRecord)
  | root (source : RuntimeRootCatalogSource)
deriving DecidableEq

/-- What is told of an opened query. -/
structure CatalogQueryOpened where
  token : CatalogQueryToken
  count : ℕ
  revision : Revision
  homeRevision : Revision
  criteria : CatalogQueryCriteria
  scope : CatalogQueryScopePresentation
  first : CatalogQueryPage
deriving DecidableEq

/-- Where a thread is in a query. -/
structure CatalogQueryPosition where
  index : ℕ
  before : Option CatalogQueryCursor
deriving DecidableEq

/-- A query that an owner keeps. -/
structure Entry where
  token : CatalogQueryToken
  frozen : FrozenHomeRead
  criteria : CatalogQueryCriteria
  revision : Option Revision
  count : ℕ
  retiring : Bool

/-- What a call finds around it: the store's generation, the caller's cancellation, what the store
answers when a frozen read is retained or released, and the sizes of the program's own records. -/
structure QueryEnvironment where
  generation : Fetched ℕ
  cancelled : Bool
  retainFailure : Option ReadError
  releaseFailure : Option ReadError
  queryRowBytes : ℕ
  queryCursorBytes : ℕ

/-- What a page is charged for a row. -/
def QueryEnvironment.presentationRowBytes (env : QueryEnvironment) : ℕ :=
  catalogMaxStoredRecencyBytes + 2 * (132 * 1024 + 4 + 32) + env.queryRowBytes
    + env.queryCursorBytes

/-! ## Walks -/

section

variable (env : QueryEnvironment) (entry : Entry)

/-- Stop if the caller has cancelled. -/
def checkCancel : Queried Unit := ensure (env.cancelled = false) .cancelled

/-- Refuse a stale row. -/
def requireCurrent (row : CatalogRow) : Queried Unit :=
  ensure (row.freshness = .current) (.staleRow row.threadId)

/-- The runtime and root of a row, which agree with it. -/
def presentationSource (row : CatalogRow) : Queried RuntimeRootCatalogSource := do
  let execution := row.facts.execution
  let source ← (entry.frozen.frozenCatalogSource execution.runtimeId execution.rootId).mapError
    .runtimeRoot
  ensure (source.runtime.revision = row.sources.runtime ∧ source.root.revision = row.sources.root
      ∧ source.runtime.environmentLabel = execution.environmentLabel
      ∧ source.runtime.canonicalExecutable = execution.configuredExecutablePath
      ∧ source.root.displayPath = execution.fullRootPath
      ∧ source.runtime.availability = execution.runtimeAvailability
      ∧ source.root.availability = execution.rootAvailability)
    (.structural "frozen catalog and runtime/root presentation disagree")
  return source

/-- The records a query is limited to. -/
def scopePresentation : Queried CatalogQueryScopePresentation :=
  match entry.criteria.scope with
  | .all => .ok .all
  | .runtime runtimeId => do
    let runtime ← (entry.frozen.frozenRuntime runtimeId).mapError .runtimeRoot
    return .runtime (← required (.runtimeRoot (.runtimeMissing runtimeId)) runtime)
  | .root runtimeId rootId =>
    ((entry.frozen.frozenCatalogSource runtimeId rootId).mapError .runtimeRoot).map .root

/-- How a walk of the recency goes wrong. -/
def recencyWalkErrors : WalkErrors CatalogQueryError where
  stalled := .structural "catalog recency scanner made no progress"
  repeated := .structural "catalog recency scanner repeated its cursor"
  unending := .unending

variable {σ : Type}

/-- Visits the rows behind a cursor, most recent first. -/
def walkRecency (after : Option CatalogRecencyCursor)
    (visit : σ → CatalogRow → Queried (σ × Bool)) (state : σ) : Queried σ :=
  walkPages recencyWalkErrors
    (fun after => do
      checkCancel env
      (entry.frozen.frozenRecencyPage scanLimits after).mapError .catalog)
    CatalogRow.recencyCursor
    (fun state row => do
      checkCancel env
      requireCurrent row
      visit state row)
    (entry.frozen.recency.size + 1) after state

/-- How a walk of the threads goes wrong. -/
def primaryWalkErrors : WalkErrors CatalogQueryError where
  stalled := .structural "catalog primary scanner made no progress"
  repeated := .structural "catalog primary scanner repeated its cursor"
  unending := .unending

/-- Checks every row under its thread. -/
def scanPrimary : Queried Unit :=
  walkPages primaryWalkErrors
    (fun after => do
      checkCancel env
      (entry.frozen.frozenPrimaryPage scanLimits after).mapError .catalog)
    CatalogRow.threadId
    (fun _ row => do
      requireCurrent row
      let _ ← presentationSource entry row
      return ((), true))
    (entry.frozen.primary.size + 1) none ()

/-- How a walk of the runtimes goes wrong. -/
def runtimeWalkErrors : WalkErrors CatalogQueryError where
  stalled := .structural "runtime scanner made no progress"
  repeated := .structural "runtime scanner repeated cursor"
  unending := .unending

/-- Visits the runtimes. -/
def walkRuntimes (visit : σ → RuntimeRecord → Queried σ) (state : σ) : Queried σ :=
  walkPages runtimeWalkErrors
    (fun after => do
      checkCancel env
      (entry.frozen.frozenRuntimesPage scanLimits after).mapError .runtimeRoot)
    RuntimeRecord.runtimeId
    (fun state runtime => do
      checkCancel env
      return (← visit state runtime, true))
    (entry.frozen.runtimes.size + 1) none state

/-- One more, if there is room. -/
def increment (count : ℕ) : Queried ℕ := checkedAdd .countExhausted count 1

/-- Counts a runtime of the environment. -/
def countRuntime (environment : String) (count : ℕ) (runtime : RuntimeRecord) : Queried ℕ :=
  if runtime.environmentLabel = environment then increment count else .ok count

/-- The runtimes of an environment. -/
def runtimeEnvironmentCount (environment : String) : Queried ℕ :=
  walkRuntimes env entry (countRuntime environment) 0

end

/-! ## Pages -/

/-- The rows of a page so far. -/
structure Collected where
  rows : List CatalogQueryRow
  bytes : ℕ
  last : Option CatalogRecencyCursor

section

variable (env : QueryEnvironment) (entry : Entry)

/-- Takes a matching row while the page has room. -/
def collectRow (limit : CatalogQueryPageLimit) (state : Collected) (row : CatalogRow) :
    Queried (Collected × Bool) :=
  if entry.criteria.matches row = false then .ok (state, true)
  else
    let charged := state.bytes + env.presentationRowBytes
    if limit.maxItems ≤ state.rows.length ∨ limit.maxBytes < charged then
      if state.rows = [] then .error .limit else .ok (state, false)
    else do
      let runtimeRoot ← presentationSource entry row
      let count ← runtimeEnvironmentCount env entry runtimeRoot.runtime.environmentLabel
      return (⟨state.rows ++ [⟨row, runtimeRoot, count⟩], charged, some row.recencyCursor⟩, true)

/-- The cursor behind a page, if matching rows are left. -/
def continuation (consumed : ℕ) (last : Option CatalogRecencyCursor) :
    Queried (Option CatalogQueryCursor) :=
  if consumed < entry.count then do
    let after ← required (.structural "query continuation has no matching row") last
    return some ⟨entry.token, after, consumed⟩
  else .ok none

/-- The page behind a cursor. -/
def collectPage (cursor : Option CatalogQueryCursor) (limit : CatalogQueryPageLimit) :
    Queried CatalogQueryPage := do
  checkCancel env
  let offset := (cursor.map CatalogQueryCursor.offset).getD 0
  let collected ← walkRecency env entry (cursor.map CatalogQueryCursor.after)
    (collectRow env entry limit) ⟨[], 0, none⟩
  let consumed ← checkedAdd .countExhausted offset collected.rows.length
  ensure (consumed ≤ entry.count) (.structural "query page exceeds exact count")
  let next ← continuation entry consumed collected.last
  return ⟨collected.rows, offset, collected.bytes, next⟩

/-- Counts a matching row. -/
def countRow (count : ℕ) (row : CatalogRow) : Queried (ℕ × Bool) :=
  if entry.criteria.matches row then (increment count).map fun count => (count, true)
  else .ok (count, true)

/-- Checks and counts the rows of a query: its revision, scope and count. -/
def countRows : Queried (Revision × CatalogQueryScopePresentation × ℕ) := do
  checkCancel env
  let scope ← scopePresentation entry
  scanPrimary env entry
  let count ← walkRecency env entry none (countRow entry) 0
  return (entry.frozen.catalogRevision, scope, count)

/-- Counts the rows and reads the first page. -/
def prepare (limit : CatalogQueryPageLimit) : Queried CatalogQueryOpened × Entry :=
  match countRows env entry with
  | .error e => (.error e, entry)
  | .ok (revision, scope, count) =>
    let entry := { entry with revision := some revision, count := count }
    (do
      let first ← collectPage env entry none limit
      checkCancel env
      return ⟨entry.token, count, revision, entry.frozen.homeRevision, entry.criteria, scope,
        first⟩,
      entry)

/-- Counts the matching rows up to an offset, with the cursor behind the last of them. -/
def seekRow (start : ℕ) (state : ℕ × Option CatalogQueryCursor) (row : CatalogRow) :
    Queried ((ℕ × Option CatalogQueryCursor) × Bool) :=
  if entry.criteria.matches row = false then .ok (state, true)
  else do
    let offset ← increment state.1
    return ((offset, some ⟨entry.token, row.recencyCursor, offset⟩), offset < start)

/-- The cursor behind a number of matching rows. -/
def seekCursor (start : ℕ) : Queried (Option CatalogQueryCursor) :=
  if start = 0 then .ok none
  else (walkRecency env entry none (seekRow entry start) (0, none)).map Prod.snd

/-- The page behind a cursor of the query. -/
def pageOf (cursor : Option CatalogQueryCursor) (limit : CatalogQueryPageLimit) :
    Queried CatalogQueryPage := do
  ensure (∀ cursor' ∈ cursor, cursor'.token = entry.token) .foreign
  ensure (∀ cursor' ∈ cursor, cursor'.offset ≤ entry.count)
    (.structural "query cursor exceeds exact count")
  collectPage env entry cursor limit

/-- The page at an offset. -/
def pageAtOf (start : ℕ) (limit : CatalogQueryPageLimit) : Queried CatalogQueryPage := do
  ensure (start ≤ entry.count) .limit
  let before ← seekCursor env entry start
  collectPage env entry before limit

/-- A thread that is looked for: how many matching rows are before it, and the cursor behind them.
-/
structure Sought where
  index : ℕ
  previous : Option CatalogQueryCursor
  result : Option CatalogQueryPosition

/-- Looks at one row for a thread. -/
def locateRow (threadId : SyndicThreadId) (state : Sought) (row : CatalogRow) :
    Queried (Sought × Bool) :=
  if entry.criteria.matches row = false then .ok (state, true)
  else if row.threadId = threadId then
    .ok ({ state with result := some ⟨state.index, state.previous⟩ }, false)
  else do
    let index ← increment state.index
    return ({ state with index := index, previous := some ⟨entry.token, row.recencyCursor, index⟩ },
      true)

/-- Where a thread is. -/
def positionOf (threadId : SyndicThreadId) : Queried (Option CatalogQueryPosition) :=
  (walkRecency env entry none (locateRow entry threadId) ⟨0, none, none⟩).map Sought.result

end

/-! ## Owners -/

/-- **An owner of queries**: every query it keeps has a number that it has given out. -/
structure CatalogQueryOwner where
  id : ℕ
  generation : ℕ
  nextQuery : ℕ
  requests : ℕ
  entries : List Entry
  retired : Bool
  issued : ∀ entry ∈ entries, entry.token.id < nextQuery

/-- A failed opening gives the frozen read back if it was not taken. -/
structure CatalogQueryOpenError where
  error : CatalogQueryError
  retained : Option FrozenHomeRead

namespace CatalogQueryOwner

/-- A fresh owner. -/
def new (id generation : ℕ) : CatalogQueryOwner where
  id := id
  generation := generation
  nextQuery := 1
  requests := 0
  entries := []
  retired := false
  issued := nofun

variable (env : QueryEnvironment) (owner : CatalogQueryOwner)

/-- Counts a call on a live owner. -/
def request : Queried CatalogQueryOwner := do
  ensure (owner.retired = false) .retired
  let generation ← env.generation.mapError .read
  ensure (generation = owner.generation) .generationChanged
  let requests ← checkedAdd .requestExhausted owner.requests 1
  return { owner with requests := requests }

/-- Where a query is kept. -/
def ownedIndex (token : CatalogQueryToken) : Queried (Fin owner.entries.length) := do
  ensure (token.owner = owner.id) .foreign
  ensure (token.generation = owner.generation) .generationChanged
  required .released (owner.entries.findFinIdx? fun entry => entry.token = token)

/-- The query of a token, unless it is being released. -/
def liveEntry (token : CatalogQueryToken) : Queried Entry := do
  let index ← owner.ownedIndex token
  ensure (owner.entries[index].retiring = false) .released
  return owner.entries[index]

/-- The next name. -/
def nextToken : CatalogQueryToken := ⟨owner.id, owner.generation, owner.nextQuery⟩

/-- Uses up a number. -/
def skip : CatalogQueryOwner where
  id := owner.id
  generation := owner.generation
  nextQuery := owner.nextQuery + 1
  requests := owner.requests
  entries := owner.entries
  retired := owner.retired
  issued := fun entry hentry => Nat.lt_succ_of_lt (owner.issued entry hentry)

/-- Keeps a query under the next number. -/
def push (entry : Entry) : CatalogQueryOwner where
  id := owner.id
  generation := owner.generation
  nextQuery := owner.nextQuery + 1
  requests := owner.requests
  entries := owner.entries ++ [{ entry with token := owner.nextToken }]
  retired := owner.retired
  issued := fun other hother => by
    rcases List.mem_append.mp hother with hold | hnew
    · exact Nat.lt_succ_of_lt (owner.issued other hold)
    · obtain rfl := List.mem_singleton.mp hnew
      exact Nat.lt_succ_self _

/-- Prepares a query on a retained read.  A query that fails is dropped, or kept until its read can
be released. -/
def settle (retained : FrozenHomeRead) (criteria : CatalogQueryCriteria)
    (limit : CatalogQueryPageLimit) :
    Except CatalogQueryOpenError CatalogQueryOpened × CatalogQueryOwner :=
  match prepare env ⟨owner.nextToken, retained, criteria, none, 0, false⟩ limit with
  | (.ok opened, entry) => (.ok opened, owner.push entry)
  | (.error e, entry) => (.error ⟨e, none⟩,
      if env.releaseFailure = none then owner.skip else owner.push { entry with retiring := true })

/-- Whether a query can be opened. -/
def openAdmission (retained : FrozenHomeRead) : Queried CatalogQueryOwner := do
  ensure (owner.retired = false) .retired
  ensure (retained.generation = owner.generation) .generationChanged
  ensure (owner.entries.length < catalogQueryCollectionLimit) .collectionLimit
  let _ ← checkedAdd .identityExhausted owner.nextQuery 1
  owner.request env

/-- Opens a query on a read. -/
def openQuery (retained : FrozenHomeRead) (criteria : CatalogQueryCriteria)
    (limit : CatalogQueryPageLimit) :
    Except CatalogQueryOpenError CatalogQueryOpened × CatalogQueryOwner :=
  match owner.openAdmission env retained with
  | .error e => (.error ⟨e, some retained⟩, owner)
  | .ok owner => owner.settle env retained criteria limit

/-- Whether a query can be refined. -/
def refineAdmission (source : CatalogQueryToken) :
    Queried (FrozenHomeRead × CatalogQueryOwner) := do
  ensure (owner.retired = false) .retired
  let entry ← owner.liveEntry source
  ensure (owner.entries.length < catalogQueryCollectionLimit) .collectionLimit
  let _ ← checkedAdd .identityExhausted owner.nextQuery 1
  let owner ← owner.request env
  return (entry.frozen, owner)

/-- Retains the frozen read of another query once more. -/
def retainFrozenRead : Queried Unit := do
  checkCancel env
  match env.retainFailure with
  | none => return ()
  | some e => .error (.read e)

/-- Opens another query on the read of one. -/
def refine (source : CatalogQueryToken) (criteria : CatalogQueryCriteria)
    (limit : CatalogQueryPageLimit) :
    Except CatalogQueryOpenError CatalogQueryOpened × CatalogQueryOwner :=
  match owner.refineAdmission env source with
  | .error e => (.error ⟨e, none⟩, owner)
  | .ok (retained, owner) =>
    match retainFrozenRead env with
    | .error e => (.error ⟨e, none⟩, owner)
    | .ok () => owner.settle env retained criteria limit

/-- A call on a live query: the request counts even if the call fails. -/
def call {α : Type} (token : CatalogQueryToken) (answer : Entry → Queried α) :
    Queried α × CatalogQueryOwner :=
  match owner.request env with
  | .error e => (.error e, owner)
  | .ok owner => (owner.liveEntry token >>= answer, owner)

/-- Reads a page behind a cursor. -/
def page (token : CatalogQueryToken) (cursor : Option CatalogQueryCursor)
    (limit : CatalogQueryPageLimit) : Queried CatalogQueryPage × CatalogQueryOwner :=
  owner.call env token fun entry => pageOf env entry cursor limit

/-- Reads a page at an offset. -/
def pageAt (token : CatalogQueryToken) (start : ℕ) (limit : CatalogQueryPageLimit) :
    Queried CatalogQueryPage × CatalogQueryOwner :=
  owner.call env token fun entry => pageAtOf env entry start limit

/-- Looks a thread up. -/
def position (token : CatalogQueryToken) (threadId : SyndicThreadId) :
    Queried (Option CatalogQueryPosition) × CatalogQueryOwner :=
  owner.call env token fun entry => positionOf env entry threadId

/-- Marks the query at an index. -/
def retireIndex (index : ℕ) : CatalogQueryOwner :=
  { owner with
    entries := owner.entries.modify index fun entry => { entry with retiring := true }
    issued := fun entry hentry => by
      obtain ⟨place, hplace⟩ := List.mem_iff_getElem?.mp hentry
      rw [List.getElem?_modify] at hplace
      obtain ⟨other, hother, rfl⟩ := Option.map_eq_some_iff.mp hplace
      have hissued := owner.issued other (List.mem_of_getElem? hother)
      split
      · exact hissued
      · exact hissued }

/-- Drops the query at an index, if its read can be released. -/
def releaseIndex (index : ℕ) : Queried Unit × CatalogQueryOwner :=
  match env.releaseFailure with
  | some e => (.error (.read e), owner)
  | none => (.ok (),
      { owner with
        entries := owner.entries.eraseIdx index
        issued := fun entry hentry => owner.issued entry (List.mem_of_mem_eraseIdx hentry) })

/-- Gives a query up. -/
def release (token : CatalogQueryToken) : Queried Unit × CatalogQueryOwner :=
  match owner.ownedIndex token with
  | .error e => (.error e, owner)
  | .ok index => (owner.retireIndex index).releaseIndex env index

/-- Drops queries from the front, as many as are given. -/
def releaseAll : ℕ → CatalogQueryOwner → Queried Unit × CatalogQueryOwner
  | 0, owner => (.ok (), owner)
  | count + 1, owner =>
    match owner.releaseIndex env 0 with
    | (.error e, owner) => (.error e, owner)
    | (.ok (), owner) => releaseAll count owner

/-- Gives all queries up. -/
def retire : Queried Unit × CatalogQueryOwner :=
  let owner : CatalogQueryOwner :=
    { owner with
      retired := true
      entries := owner.entries.map fun entry => { entry with retiring := true }
      issued := fun entry hentry => by
        obtain ⟨other, hother, rfl⟩ := List.mem_map.mp hentry
        exact owner.issued other hother }
  releaseAll env owner.entries.length owner

end CatalogQueryOwner

end Beryl.Catalog
