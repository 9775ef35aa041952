import Beryl.Catalog.Paging

/-!
# Catalog/Owner — queries over a whole session

An owner keeps many queries at once.  **A query that was opened is answered exactly until it is
released**, whatever the owner is asked in between: its count is the number of matching rows,
following the cursors lists them all, an offset leads to the row of that number, and a thread is
found at its place.
-/

namespace Beryl.Catalog

open Fallible Keyspace List CatalogQueryOwner CatalogQueryRow

variable {entry : Entry} {α : Type}

namespace CatalogQueryOwner

variable {env : QueryEnvironment} {owner : CatalogQueryOwner} {token : CatalogQueryToken}

/-! ## Looking up a query -/

theorem liveEntry_eq_ok : owner.liveEntry token = .ok entry ↔
    (token.owner = owner.id ∧ token.generation = owner.generation)
      ∧ owner.entries.find? (fun entry => entry.token = token) = some entry
      ∧ entry.retiring = false := by
  rw [liveEntry, ownedIndex]
  simp only [bind_eq_ok, ensure_eq_ok, required_eq_ok, pure_eq_ok_iff, exists_const,
    find?_eq_map_findFinIdx?_getElem, Option.map_eq_some_iff]
  constructor
  · rintro ⟨index, ⟨howner, hgen, hindex⟩, hretire, rfl⟩
    exact ⟨⟨howner, hgen⟩, ⟨index, hindex, rfl⟩, hretire⟩
  · rintro ⟨⟨howner, hgen⟩, ⟨index, hindex, rfl⟩, hretire⟩
    exact ⟨index, ⟨howner, hgen, hindex⟩, hretire, rfl⟩

/-- **The owner keeps a query of a home**, with the count of its matching rows. -/
def Keeps (owner : CatalogQueryOwner) (token : CatalogQueryToken) (home : FrozenHomeRead)
    (criteria : CatalogQueryCriteria) : Prop :=
  ∃ entry, owner.liveEntry token = .ok entry ∧ entry.token = token ∧ entry.frozen = home
    ∧ entry.criteria = criteria ∧ entry.count = (matching home criteria).length

/-- An owner that takes a request. -/
structure Ready (owner : CatalogQueryOwner) (env : QueryEnvironment) : Prop where
  active : owner.retired = false
  generation : env.generation = .ok owner.generation
  requests : owner.requests + 1 < u64Size

theorem Ready.request_eq (h : owner.Ready env) :
    owner.request env = .ok { owner with requests := owner.requests + 1 } := by
  rw [request, ensure_bind h.active, h.generation, mapError_ok, ok_bind, ensure_bind rfl,
    checkedAdd_bind h.requests]
  rfl

variable {next : CatalogQueryOwner} {home : FrozenHomeRead}

/-! ## Runs -/

/-- Two owners that find the same query under a token. -/
structure Finds (owner next : CatalogQueryOwner) (token : CatalogQueryToken) : Prop where
  id : next.id = owner.id
  generation : next.generation = owner.generation
  find : ∀ entry, owner.entries.find? (fun entry => entry.token = token) = some entry →
    next.entries.find? (fun entry => entry.token = token) = some entry

theorem Finds.refl : Finds owner owner token := ⟨rfl, rfl, fun _ h => h⟩

theorem Finds.trans {last : CatalogQueryOwner} (h : Finds owner next token)
    (h' : Finds next last token) : Finds owner last token :=
  ⟨h'.id.trans h.id, h'.generation.trans h.generation, fun _ hfind => h'.find _ (h.find _ hfind)⟩

theorem Finds.keeps {criteria : CatalogQueryCriteria} (h : Finds owner next token)
    (hkeeps : owner.Keeps token home criteria) : next.Keeps token home criteria := by
  obtain ⟨entry, hlive, hentry⟩ := hkeeps
  obtain ⟨⟨howner, hgen⟩, hfind, hretire⟩ := liveEntry_eq_ok.mp hlive
  exact ⟨entry, liveEntry_eq_ok.mpr ⟨⟨howner.trans h.id.symm, hgen.trans h.generation.symm⟩,
    h.find _ hfind, hretire⟩, hentry⟩

theorem finds_request (h : owner.request env = .ok next) : Finds owner next token := by
  simp only [request, bind_eq_ok, pure_eq_ok_iff] at h
  obtain ⟨-, -, -, -, -, -, requests, -, rfl⟩ := h
  exact ⟨rfl, rfl, fun _ h => h⟩

theorem finds_push (entry : Entry) : Finds owner (owner.push entry) token := by
  refine ⟨rfl, rfl, fun other hother => ?_⟩
  rw [push, find?_append, hother]
  rfl

section

variable (criteria : CatalogQueryCriteria) (limit : CatalogQueryPageLimit)

theorem finds_settle (retained : FrozenHomeRead) :
    Finds owner (owner.settle env retained criteria limit).2 token := by
  rw [settle]
  split
  · exact finds_push _
  · dsimp only
    split
    · exact ⟨rfl, rfl, fun _ h => h⟩
    · exact finds_push _

theorem finds_openQuery (retained : FrozenHomeRead) :
    Finds owner (owner.openQuery env retained criteria limit).2 token := by
  rw [openQuery]
  split
  · exact .refl
  · next hadm =>
    simp only [openAdmission, bind_eq_ok] at hadm
    obtain ⟨-, -, -, -, -, -, -, -, hreq⟩ := hadm
    exact (finds_request hreq).trans (finds_settle _ _ _)

theorem finds_refine (source : CatalogQueryToken) :
    Finds owner (owner.refine env source criteria limit).2 token := by
  rw [refine]
  split
  · exact .refl
  · next hadm =>
    simp only [refineAdmission, bind_eq_ok, pure_eq_ok_iff, Prod.mk.injEq] at hadm
    obtain ⟨-, -, entry, -, -, -, -, -, next, hreq, -, rfl⟩ := hadm
    split
    · exact finds_request hreq
    · exact (finds_request hreq).trans (finds_settle _ _ _)

end

theorem finds_call (other : CatalogQueryToken) (answer : Entry → Queried α) :
    Finds owner (owner.call env other answer).2 token := by
  rw [call]
  split
  · exact .refl
  · next hreq => exact finds_request hreq

/-- Releasing another query does not touch this one. -/
theorem finds_release {other : CatalogQueryToken} (hother : other ≠ token) :
    Finds owner (owner.release env other).2 token := by
  rw [release]
  split
  · exact .refl
  · next index hindex =>
    simp only [ownedIndex, bind_eq_ok, required_eq_ok] at hindex
    obtain ⟨-, -, -, -, hfound⟩ := hindex
    have hthat : owner.entries[index.val].token = other :=
      of_decide_eq_true (findFinIdx?_eq_some_iff.mp hfound).1
    have hskip : ∀ (that : Entry) (rest : List Entry), that.token = other →
        (that :: rest).find? (fun entry => entry.token = token)
          = rest.find? fun entry => entry.token = token := fun that rest hentry => by
      rw [find?_cons, decide_eq_false fun heq => hother (hentry.symm.trans heq)]
    have hsplit : owner.entries = owner.entries.take index.val
        ++ owner.entries[index.val] :: owner.entries.drop (index.val + 1) := by
      rw [← drop_eq_getElem_cons index.isLt, take_append_drop]
    rw [releaseIndex]
    split
    · refine ⟨rfl, rfl, fun entry hentry => ?_⟩
      rw [hsplit, find?_append, hskip _ _ hthat] at hentry
      dsimp only [retireIndex]
      rw [modify_eq_take_cons_drop index.isLt, find?_append, hskip]
      · exact hentry
      · exact hthat
    · refine ⟨rfl, rfl, fun entry hentry => ?_⟩
      rw [hsplit, find?_append, hskip _ _ hthat] at hentry
      dsimp only [retireIndex]
      rw [eraseIdx_modify_of_eq, eraseIdx_eq_take_drop_succ, find?_append]
      exact hentry

/-- What an owner is asked. -/
inductive Call
  | openQuery (retained : FrozenHomeRead) (criteria : CatalogQueryCriteria)
    (limit : CatalogQueryPageLimit)
  | refine (source : CatalogQueryToken) (criteria : CatalogQueryCriteria)
    (limit : CatalogQueryPageLimit)
  | page (token : CatalogQueryToken) (cursor : Option CatalogQueryCursor)
    (limit : CatalogQueryPageLimit)
  | pageAt (token : CatalogQueryToken) (start : ℕ) (limit : CatalogQueryPageLimit)
  | position (token : CatalogQueryToken) (threadId : SyndicThreadId)
  | release (token : CatalogQueryToken)
  | retire

/-- The owner after a call, whether it succeeds or not. -/
def after (owner : CatalogQueryOwner) (env : QueryEnvironment) : Call → CatalogQueryOwner
  | .openQuery retained criteria limit => (owner.openQuery env retained criteria limit).2
  | .refine source criteria limit => (owner.refine env source criteria limit).2
  | .page token cursor limit => (owner.page env token cursor limit).2
  | .pageAt token start limit => (owner.pageAt env token start limit).2
  | .position token threadId => (owner.position env token threadId).2
  | .release token => (owner.release env token).2
  | .retire => (owner.retire env).2

/-- A call that does not end a query. -/
def Call.Spares (token : CatalogQueryToken) : Call → Prop
  | release other => other ≠ token
  | retire => False
  | _ => True

/-- Calls that do not end a query, each with its own surroundings. -/
inductive Session (token : CatalogQueryToken) (first : CatalogQueryOwner) : CatalogQueryOwner → Prop
  | start : Session token first first
  | call {owner : CatalogQueryOwner} (session : Session token first owner) (env : QueryEnvironment)
    (call : Call) (spares : call.Spares token) : Session token first (owner.after env call)

theorem finds_after {call : Call} (hspares : call.Spares token) :
    Finds owner (owner.after env call) token := by
  cases call with
  | openQuery retained criteria limit => exact finds_openQuery _ _ _
  | refine source criteria limit => exact finds_refine _ _ _
  | page | pageAt | position => exact finds_call _ _
  | release other => exact finds_release hspares
  | retire => exact hspares.elim

/-- **A query is kept until it is released.** -/
theorem Keeps.session {criteria : CatalogQueryCriteria} (h : owner.Keeps token home criteria)
    (hsess : Session token owner next) : next.Keeps token home criteria := by
  induction hsess with
  | start => exact h
  | call _ env call spares ih => exact (finds_after spares).keeps ih

end CatalogQueryOwner

/-! ## Exactness -/

/-- Follows the cursors of a query behind one of them, over at most a number of further pages: the
rows listed, and the cursor where it stopped. -/
def followPages (env : QueryEnvironment) (token : CatalogQueryToken)
    (limits : ℕ → CatalogQueryPageLimit) : ℕ → CatalogQueryOwner → Option CatalogQueryCursor →
      Queried (List CatalogQueryRow × Option CatalogQueryCursor)
  | 0, owner, cursor =>
    (owner.page env token cursor (limits 0)).1.map fun page => (page.rows, page.next)
  | more + 1, owner, cursor =>
    match owner.page env token cursor (limits (more + 1)) with
    | (.error e, _) => .error e
    | (.ok page, owner) =>
      match page.next with
      | none => .ok (page.rows, none)
      | some next => (followPages env token limits more owner (some next)).map fun rest =>
        (page.rows ++ rest.1, rest.2)

/-- **A query is answered exactly**: over the matching rows, most recent first. -/
structure Answers (owner : CatalogQueryOwner) (token : CatalogQueryToken) (rows : List CatalogRow) :
    Prop where
  page : ∀ (env : QueryEnvironment) (limit : CatalogQueryPageLimit) (index : ℕ),
    env.cancelled = false → owner.Ready env → 0 < pageCapacity env limit → index ≤ rows.length →
      ∃ page, (owner.page env token (cursorAt token rows index) limit).1 = .ok page
        ∧ page.Lists token rows (pageCapacity env limit) index
  /-- Following the cursors from the first page lists every row once. -/
  follow : ∀ (env : QueryEnvironment) (limits : ℕ → CatalogQueryPageLimit) (more : ℕ),
    env.cancelled = false → owner.Ready env → owner.requests + more + 1 < u64Size →
      (∀ number, 0 < pageCapacity env (limits number)) → rows.length ≤ more + 1 →
      ∃ listed, followPages env token limits more owner none = .ok (listed, none)
        ∧ listed.map CatalogQueryRow.catalog = rows
  pageAt : ∀ (env : QueryEnvironment) (limit : CatalogQueryPageLimit) (index : ℕ),
    env.cancelled = false → owner.Ready env → 0 < pageCapacity env limit → index ≤ rows.length →
      ∃ page, (owner.pageAt env token index limit).1 = .ok page
        ∧ page.Lists token rows (pageCapacity env limit) index
  /-- A thread is found exactly at its place, with the cursor in front of it. -/
  position : ∀ (env : QueryEnvironment) (threadId : SyndicThreadId),
    env.cancelled = false → owner.Ready env →
      ∃ found, (owner.position env token threadId).1 = .ok found
        ∧ (found = none ↔ ∀ row ∈ rows, row.threadId ≠ threadId)
        ∧ ∀ index before, found = some ⟨index, before⟩ ↔
          rows[index]?.map CatalogRow.threadId = some threadId ∧ before = cursorAt token rows index

namespace CatalogQueryPage.Lists

variable {page : CatalogQueryPage} {token : CatalogQueryToken} {all : List CatalogRow}
  {capacity start : ℕ}

section

variable (h : page.Lists token all capacity start)
include h

theorem length : page.rows.length = min capacity (all.length - start) := by
  have hlen := congrArg List.length h.rows
  rwa [length_map, length_take, length_drop] at hlen

/-- Behind the rows of a page the others remain. -/
theorem append_drop :
    page.rows.map catalog ++ all.drop (start + page.rows.length) = all.drop start := by
  have htake : page.rows.map catalog = (all.drop start).take page.rows.length := by
    rw [h.length, ← length_drop, ← take_eq_take_min]
    exact h.rows
  rw [htake, ← drop_drop, take_append_drop]

theorem ends (hlast : all.length ≤ start + page.rows.length) :
    page.next = none ∧ page.rows.map catalog = all.drop start := by
  have hrest := h.append_drop
  rw [drop_eq_nil_of_le hlast, append_nil] at hrest
  exact ⟨h.next.trans (if_neg (Nat.not_lt_of_le hlast)), hrest⟩

theorem goes_on (hmore : start + page.rows.length < all.length) :
    page.next = cursorAt token all (start + page.rows.length) := h.next.trans (if_pos hmore)

end

end CatalogQueryPage.Lists

section

variable {env : QueryEnvironment} {owner : CatalogQueryOwner} {token : CatalogQueryToken}
  {home : FrozenHomeRead} {criteria : CatalogQueryCriteria} {limit : CatalogQueryPageLimit}

theorem call_eq (hready : owner.Ready env)
    (hlive : owner.liveEntry token = .ok entry) (answer : Entry → Queried α) :
    owner.call env token answer
      = (answer entry, { owner with requests := owner.requests + 1 }) := by
  have hsame : liveEntry { owner with requests := owner.requests + 1 } token
      = .ok entry := hlive
  rw [CatalogQueryOwner.call, hready.request_eq]
  dsimp only
  rw [hsame, ok_bind]

theorem exists_page (h : home.Coherent) (hkeeps : owner.Keeps token home criteria)
    (hrun : env.cancelled = false) (hready : owner.Ready env)
    (hroom : 0 < pageCapacity env limit) {index : ℕ}
    (hindex : index ≤ (matching home criteria).length) :
    ∃ page, owner.page env token (cursorAt token (matching home criteria) index) limit
        = (.ok page, { owner with requests := owner.requests + 1 })
      ∧ page.Lists token (matching home criteria) (pageCapacity env limit) index := by
  obtain ⟨entry, hlive, rfl, rfl, rfl, hcount⟩ := hkeeps
  obtain ⟨page, hpage, hlists⟩ := exists_pageOf hrun h hroom hcount (hcount ▸ hindex)
  refine ⟨page, ?_, hlists⟩
  rw [CatalogQueryOwner.page, call_eq hready hlive, hpage]

/-- **Following the cursors lists what is behind the first of them.** -/
theorem exists_followPages (h : home.Coherent) (hrun : env.cancelled = false)
    {limits : ℕ → CatalogQueryPageLimit} (hroom : ∀ number, 0 < pageCapacity env (limits number))
    (more : ℕ) (owner : CatalogQueryOwner) (hkeeps : owner.Keeps token home criteria)
    (hready : owner.Ready env) (hreqs : owner.requests + more + 1 < u64Size) (index : ℕ)
    (hindex : index ≤ (matching home criteria).length)
    (henough : (matching home criteria).length ≤ index + more + 1) :
    ∃ listed, followPages env token limits more owner
      (cursorAt token (matching home criteria) index)
        = .ok (listed, none) ∧ listed.map catalog = (matching home criteria).drop index := by
  obtain ⟨page, hpage, hlists⟩ := exists_page h hkeeps hrun hready (hroom more) hindex
  have hlen := hlists.length
  have hpositive := hroom more
  cases more with
  | zero =>
    obtain ⟨hnext, hrows⟩ := hlists.ends (by omega)
    refine ⟨page.rows, ?_, hrows⟩
    rw [followPages, hpage, ← hnext]
    rfl
  | succ more =>
    rw [followPages, hpage]
    dsimp only
    by_cases hlast : (matching home criteria).length ≤ index + page.rows.length
    · obtain ⟨hnext, hrows⟩ := hlists.ends hlast
      rw [hnext]
      exact ⟨page.rows, rfl, hrows⟩
    · have hmore : index + page.rows.length < (matching home criteria).length :=
        Nat.lt_of_not_le hlast
      obtain ⟨listed, hlisted, hrows⟩ := exists_followPages h hrun hroom more
        { owner with requests := owner.requests + 1 } hkeeps
        ⟨hready.active, hready.generation, by dsimp only; omega⟩ (by dsimp only; omega)
        (index + page.rows.length) (Nat.le_of_lt hmore) (by omega)
      rw [← hlists.goes_on hmore] at hlisted
      have hsome : ∃ next, page.next = some next := by
        rw [hlists.goes_on hmore]
        obtain ⟨count, hcount⟩ : ∃ count, index + page.rows.length = count + 1 :=
          Nat.exists_eq_succ_of_ne_zero (by omega)
        rw [hcount, cursorAt, getElem?_eq_getElem (by omega)]
        exact ⟨_, rfl⟩
      obtain ⟨next, hnext⟩ := hsome
      rw [hnext] at hlisted ⊢
      refine ⟨page.rows ++ listed, ?_, ?_⟩
      · dsimp only
        rw [hlisted]
        rfl
      · rw [map_append, hrows]
        exact hlists.append_drop
termination_by more

theorem answers_of_keeps (h : home.Coherent) (hkeeps : owner.Keeps token home criteria) :
    Answers owner token (matching home criteria) := by
  refine ⟨fun env limit index hrun hready hroom hindex => ?_,
    fun env limits more hrun hready hreqs hroom henough => ?_,
    fun env limit index hrun hready hroom hindex => ?_,
    fun env threadId hrun hready => ?_⟩
  · obtain ⟨page, hpage, hlists⟩ := exists_page h hkeeps hrun hready hroom hindex
    exact ⟨page, congrArg Prod.fst hpage, hlists⟩
  · exact exists_followPages h hrun hroom more owner hkeeps hready hreqs 0 (Nat.zero_le _)
      (by omega)
  · obtain ⟨entry, hlive, rfl, rfl, rfl, hcount⟩ := hkeeps
    obtain ⟨page, hpage, hlists⟩ := exists_pageAtOf hrun h hroom hcount (hcount ▸ hindex)
    refine ⟨page, ?_, hlists⟩
    rw [pageAt, call_eq hready hlive, hpage]
  · obtain ⟨entry, hlive, rfl, rfl, rfl, hcount⟩ := hkeeps
    obtain ⟨found, hfound, hplace⟩ := positionOf_eq hrun h threadId
    refine ⟨found, ?_, hplace⟩
    rw [position, call_eq hready hlive, hfound]

/-- The matching rows are those that are stored and match, most recent first. -/
theorem matching_exact (hagrees : home.Agrees) (criteria : CatalogQueryCriteria) :
    (∀ row, row ∈ matching home criteria ↔ home.primary[row.threadId]? = some row
        ∧ criteria.matches row = true) ∧ (matching home criteria).Pairwise fun a b =>
        compare a.recencyCursor b.recencyCursor = .lt := by
  refine ⟨fun row => ⟨mem_matching hagrees, fun ⟨hstored, hmatch⟩ => ?_⟩,
    matching_sorted hagrees criteria⟩
  refine mem_filter.mpr ⟨?_, hmatch⟩
  exact mem_map.mpr ⟨(row.recencyCursor, row), mem_scan.mpr (hagrees.primary _ _ hstored).2, rfl⟩

/-- **A query that is settled is kept.** -/
theorem exists_settle (h : home.Coherent) (hscope : criteria.scope.Stored home)
    (hrun : env.cancelled = false)
    (hroom : 0 < pageCapacity env limit) (owner : CatalogQueryOwner) :
    ∃ opened next, owner.settle env home criteria limit = (.ok opened, next)
      ∧ opened.count = (matching home criteria).length
      ∧ opened.first.Lists opened.token (matching home criteria) (pageCapacity env limit) 0
      ∧ next.Keeps opened.token home criteria := by
  obtain ⟨opened, hprep, htoken, hcount, hfirst⟩ := @exists_prepare env
    ⟨owner.nextToken, home, criteria, none, 0, false⟩ limit hrun h hroom hscope
  refine ⟨opened, owner.push ⟨owner.nextToken, home, criteria, some home.catalogRevision,
    (matching home criteria).length, false⟩, ?_, hcount, htoken ▸ hfirst, ?_⟩
  · rw [settle, hprep]
  · refine ⟨⟨owner.nextToken, home, criteria, some home.catalogRevision,
      (matching home criteria).length, false⟩, ?_, htoken.symm, rfl, rfl, rfl⟩
    rw [htoken]
    -- The number is new, so no earlier query is found under the token.
    have hnew : owner.entries.find? (fun entry => entry.token = owner.nextToken) = none := by
      refine find?_eq_none.mpr fun entry hentry heq => ?_
      have hissued := owner.issued entry hentry
      rw [of_decide_eq_true heq] at hissued
      exact Nat.lt_irrefl _ hissued
    refine liveEntry_eq_ok.mpr ⟨⟨rfl, rfl⟩, ?_, rfl⟩
    rw [push, find?_append, hnew, find?_cons, decide_eq_true rfl]
    rfl

/-- **Paging through a catalog query is exact.**  For a coherent frozen catalog and criteria whose
scope is stored: the matching rows are those stored that match, most recent first; a query that is
opened reports their number and lists the first of them; and from then on, whatever the owner is
asked, until the query is released every answer is exact and no call fails. -/
theorem catalog_paging_exact (h : home.Coherent) (hscope : criteria.scope.Stored home) :
    ((∀ row, row ∈ matching home criteria ↔ home.primary[row.threadId]? = some row
        ∧ criteria.matches row = true)
      ∧ (matching home criteria).Pairwise fun a b =>
        compare a.recencyCursor b.recencyCursor = .lt)
    ∧ ∀ (env : QueryEnvironment) (owner : CatalogQueryOwner) (limit : CatalogQueryPageLimit),
      env.cancelled = false → owner.Ready env → home.generation = owner.generation →
      owner.entries.length < catalogQueryCollectionLimit → owner.nextQuery + 1 < u64Size →
      0 < pageCapacity env limit →
      ∃ opened next, owner.openQuery env home criteria limit = (.ok opened, next)
        ∧ opened.count = (matching home criteria).length
        ∧ opened.first.Lists opened.token (matching home criteria) (pageCapacity env limit) 0
        ∧ ∀ last, CatalogQueryOwner.Session opened.token next last →
          Answers last opened.token (matching home criteria) := by
  refine ⟨matching_exact h.agrees criteria,
    fun env owner limit hrunning hready hgeneration hlimit hnumber hroom => ?_⟩
  obtain ⟨opened, next, hsettle, hcount, hfirst, hkeeps⟩ := exists_settle h hscope hrunning hroom
    { owner with requests := owner.requests + 1 }
  refine ⟨opened, next, ?_, hcount, hfirst, fun last hsession =>
    answers_of_keeps h (hkeeps.session hsession)⟩
  have hadmitted : owner.openAdmission env home
      = .ok { owner with requests := owner.requests + 1 } := by
    rw [openAdmission, ensure_bind hready.active, ensure_bind hgeneration, ensure_bind hlimit,
      checkedAdd_bind hnumber, hready.request_eq]
  rw [openQuery, hadmitted]
  exact hsettle

end

namespace FourThreads

/-- The runtime that all threads run on. -/
def runtime : RuntimeRecord := ⟨1, "codex", "local", .available, .first, 64, by decide⟩

/-- The root that all threads work in. -/
def root : RootRecord := ⟨2, 1, "work", .available, .first, 64, by decide⟩

/-- A thread with its last activity and title. -/
def row (threadId : SyndicThreadId) (lastActivityAt : UnixMillis) (title : String) : CatalogRow :=
  ⟨threadId, ⟨.first, .first⟩, .current,
    ⟨⟨1, 2, "local", "codex", "work", .available, .available⟩, lastActivityAt,
      ⟨title, "local", "codex", "work"⟩⟩, 128, by decide⟩

/-- A catalog of rows and runtimes. -/
def storing (rows : List CatalogRow) (runtimes : List (RuntimeId × RuntimeRecord)) :
    FrozenHomeRead where
  generation := 0
  homeRevision := .first
  catalogRevision := .first
  primary := .ofList (rows.map fun row => (row.threadId, row))
  recency := .ofList (rows.map fun row => (row.recencyCursor, row))
  runtimes := .ofList runtimes
  rootIds := .insert ∅ 2 1
  roots := .insert ∅ ⟨1, 2⟩ root

/-- Four threads, one of which is about something else. -/
def home : FrozenHomeRead :=
  storing [row 1 ⟨20, by decide⟩ "plan", row 2 ⟨40, by decide⟩ "new plan",
    row 3 ⟨30, by decide⟩ "notes", row 4 ⟨10, by decide⟩ "old plan"] [(1, runtime)]

/-- What the calls find. -/
def env : QueryEnvironment where
  generation := .ok 0
  cancelled := false
  retainFailure := none
  releaseFailure := none
  queryRowBytes := 0
  queryCursorBytes := 0

/-- A page takes two rows. -/
def limit : CatalogQueryPageLimit where
  maxItems := 2
  maxBytes := 2000000
  items_valid := by decide
  bytes_valid := by decide

theorem agrees : home.Agrees := by
  have hprimary : ∀ record ∈ home.primary.toList, record.2.threadId = record.1
      ∧ home.recency[record.2.recencyCursor]? = some record.2 := by decide +kernel
  have hrecency : ∀ record ∈ home.recency.toList, record.2.recencyCursor = record.1
      ∧ home.primary[record.2.threadId]? = some record.2 := by decide +kernel
  exact ⟨fun threadId row hrow => hprimary (threadId, row) (mem_scan.mpr hrow),
    fun cursor row hrow => hrecency (cursor, row) (mem_scan.mpr hrow)⟩

theorem current (threadId : SyndicThreadId) (row : CatalogRow)
    (hrow : home.primary[threadId]? = some row) : row.freshness = .current := by
  have hrows : ∀ record ∈ home.primary.toList, record.2.freshness = .current := by decide +kernel
  exact hrows (threadId, row) (mem_scan.mpr hrow)

theorem stored : home.runtimes[(1 : RuntimeId)]? = some runtime := by decide +kernel

theorem coherent : home.Coherent where
  agrees := agrees
  current := current
  presented := fun threadId row hrow => by
    have hrows : ∀ record ∈ home.primary.toList, record.2.sources = ⟨.first, .first⟩
        ∧ record.2.facts.execution
          = ⟨1, 2, "local", "codex", "work", .available, .available⟩ := by decide +kernel
    obtain ⟨hsources, hexecution⟩ := hrows (threadId, row) (mem_scan.mpr hrow)
    dsimp only at hsources hexecution
    refine ⟨⟨runtime, root, rfl⟩, ?_, ?_⟩
    · rw [hexecution]
      exact ⟨stored, by decide +kernel, by decide +kernel, rfl, rfl⟩
    · constructor <;> simp only [hsources, hexecution] <;> rfl
  runtimes := fun runtimeId record hrecord => by
    have hkeyed : ∀ record ∈ home.runtimes.toList, record.2.runtimeId = record.1 := by
      decide +kernel
    exact hkeyed (runtimeId, record) (mem_scan.mpr hrecord)
  countable := by decide +kernel

/-- Three of the four threads match, on two pages. -/
theorem catalog_paging_exact_two : ∃ opened next listed,
    (CatalogQueryOwner.new 1 0).openQuery env home ⟨.runtime 1, "plan"⟩ limit = (.ok opened, next)
      ∧ opened.count = 3
      ∧ opened.first.rows.map catalog = [row 2 40 "new plan", row 1 20 "plan"]
      ∧ followPages env opened.token (fun _ => limit) 2 next none = .ok (listed, none)
      ∧ listed.map catalog = [row 2 40 "new plan", row 1 20 "plan", row 4 10 "old plan"] := by
  have hrows : matching home ⟨.runtime 1, "plan"⟩
      = [row 2 40 "new plan", row 1 20 "plan", row 4 10 "old plan"] := by decide +kernel
  obtain ⟨opened, next, hopened, hcount, hfirst, hsession⟩ :=
    (@catalog_paging_exact home ⟨.runtime 1, "plan"⟩ coherent ⟨runtime, stored⟩).2 env (.new 1 0)
      limit rfl ⟨rfl, rfl, by decide⟩ rfl (by decide) (by decide) (by decide)
  obtain rfl : _ = next := congrArg Prod.snd hopened
  obtain ⟨listed, hlisted, hall⟩ := (hsession _ .start).follow env (fun _ => limit) 2 rfl
    ⟨by decide +kernel, by decide +kernel, by decide +kernel⟩ (by decide +kernel)
      (fun _ => by decide) (by rw [hrows]; decide)
  exact ⟨opened, _, listed, hopened, by rw [hcount, hrows]; rfl,
    by rw [hfirst.rows, hrows]; rfl, hlisted, hall.trans hrows⟩

/-- The label of the runtime was changed, and the rows were not. -/
def relabelled : FrozenHomeRead :=
  { home with runtimes := .insert ∅ 1 { runtime with environmentLabel := "remote" } }

/-- A runtime is stored under another identity as well. -/
def misfiled : FrozenHomeRead := { home with runtimes := home.runtimes.insert 9 runtime }

/-- **Agreeing copies and current rows are not enough**: a query cannot be opened that is limited to
a runtime which is not stored, nor when the rows do not repeat their runtime, nor when a runtime is
not stored under its identity. -/
theorem open_refuses : home.Agrees ∧ relabelled.Agrees ∧ misfiled.Agrees
    ∧ (∀ (threadId : SyndicThreadId) (row : CatalogRow), home.primary[threadId]? = some row →
      row.freshness = .current)
    ∧ relabelled.primary = home.primary ∧ misfiled.primary = home.primary
    ∧ 0 < pageCapacity env limit
    ∧ ((CatalogQueryOwner.new 1 0).openQuery env home ⟨.runtime 7, ""⟩ limit).1.mapError
      CatalogQueryOpenError.error = .error (.runtimeRoot (.runtimeMissing 7))
    ∧ ((CatalogQueryOwner.new 1 0).openQuery env relabelled ⟨.all, ""⟩ limit).1.mapError
      CatalogQueryOpenError.error
        = .error (.structural "frozen catalog and runtime/root presentation disagree")
    ∧ ((CatalogQueryOwner.new 1 0).openQuery env misfiled ⟨.all, ""⟩ limit).1.mapError
      CatalogQueryOpenError.error
        = .error (.runtimeRoot (.sourceChanged "runtime key/value identity")) := by
  refine ⟨agrees, ⟨agrees.primary, agrees.recency⟩, ⟨agrees.primary, agrees.recency⟩, current, rfl,
    rfl, by decide, ?_, ?_, ?_⟩
  all_goals decide +kernel

end FourThreads

end Beryl.Catalog
