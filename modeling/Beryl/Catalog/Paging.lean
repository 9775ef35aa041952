import Beryl.Catalog.Query

/-!
# Catalog/Paging — one query, page by page

Every call on a query walks the frozen recency from some cursor and passes by the rows that do not
match.  So it is a visit of the matching rows behind the cursor, and **behind the cursor of the n-th
matching row those after it remain** (`matchingBehind_cursorAt`).
-/

namespace Beryl.Catalog

open Fallible Home Keyspace Paging Std List CatalogQueryCursor

/-! ## What a query is about -/

/-- **The matching rows of a frozen home**, most recent first. -/
def matching (home : FrozenHomeRead) (criteria : CatalogQueryCriteria) : List CatalogRow :=
  (home.rowsBehind none).filter criteria.matches

/-- The rows an open query lists. -/
abbrev Entry.listed (entry : Entry) : List CatalogRow := matching entry.frozen entry.criteria

/-- The cursor behind a number of rows. -/
def cursorAt (token : CatalogQueryToken) (rows : List CatalogRow) : ℕ → Option CatalogQueryCursor
  | 0 => none
  | index + 1 => rows[index]?.map fun row => ⟨token, row.recencyCursor, index + 1⟩

/-- How many rows a page takes. -/
def pageCapacity (env : QueryEnvironment) (limit : CatalogQueryPageLimit) : ℕ :=
  min limit.maxItems (limit.maxBytes / env.presentationRowBytes)

/-- **A page at an offset**: the next matching rows, as many as the page takes, and the cursor
behind them if others follow. -/
structure CatalogQueryPage.Lists (page : CatalogQueryPage) (token : CatalogQueryToken)
    (all : List CatalogRow) (capacity start : ℕ) : Prop where
  rows : page.rows.map CatalogQueryRow.catalog = (all.drop start).take capacity
  offset : page.offset = start
  next : page.next = if start + page.rows.length < all.length
    then cursorAt token all (start + page.rows.length) else none

/-- A runtime and a root of it are stored. -/
structure FrozenHomeRead.Stores (home : FrozenHomeRead) (runtimeId : RuntimeId) (rootId : RootId)
    (source : RuntimeRootCatalogSource) : Prop where
  runtime : home.runtimes[runtimeId]? = some source.runtime
  index : home.rootIds[rootId]? = some runtimeId
  root : home.roots[(⟨runtimeId, rootId⟩ : RuntimeRootKey)]? = some source.root
  keyed : source.root.rootId = rootId ∧ source.root.runtimeId = runtimeId

/-- A row repeats what its runtime and root say. -/
structure CatalogRow.Repeats (row : CatalogRow) (source : RuntimeRootCatalogSource) : Prop where
  runtimeRevision : source.runtime.revision = row.sources.runtime
  rootRevision : source.root.revision = row.sources.root
  environmentLabel : source.runtime.environmentLabel = row.facts.execution.environmentLabel
  executable : source.runtime.canonicalExecutable = row.facts.execution.configuredExecutablePath
  rootPath : source.root.displayPath = row.facts.execution.fullRootPath
  runtimeAvailability : source.runtime.availability = row.facts.execution.runtimeAvailability
  rootAvailability : source.root.availability = row.facts.execution.rootAvailability

/-- What a query is limited to is stored. -/
def CatalogQueryScope.Stored (home : FrozenHomeRead) : CatalogQueryScope → Prop
  | all => True
  | runtime runtimeId => ∃ runtime, home.runtimes[runtimeId]? = some runtime
  | root runtimeId rootId => ∃ source, home.Stores runtimeId rootId source

/-- **A frozen catalog that can be queried**: the copies agree, every row is current and repeats
what its runtime and root say, and rows and runtimes can be counted. -/
structure FrozenHomeRead.Coherent (home : FrozenHomeRead) : Prop where
  agrees : home.Agrees
  current : ∀ (threadId : SyndicThreadId) (row : CatalogRow), home.primary[threadId]? = some row →
    row.freshness = .current
  presented : ∀ (threadId : SyndicThreadId) (row : CatalogRow), home.primary[threadId]? = some row →
    ∃ source, home.Stores row.facts.execution.runtimeId row.facts.execution.rootId source
      ∧ row.Repeats source
  runtimes : home.RuntimesKeyed
  countable : home.recency.size < u64Size ∧ home.runtimes.size < u64Size

/-! ## Walks -/

variable {env : QueryEnvironment} {entry : Entry} {home : FrozenHomeRead}
  {token : CatalogQueryToken} {row : CatalogRow} {source : RuntimeRootCatalogSource}

section

variable {σ : Type} (hrun : env.cancelled = false) (h : entry.frozen.Coherent)

include hrun in
theorem checkCancel_eq : checkCancel env = .ok () := ensure_true hrun

theorem mem_rowsBehind {after : Option CatalogRecencyCursor} (hrow : row ∈ home.rowsBehind after) :
    ∃ cursor : CatalogRecencyCursor, home.recency[cursor]? = some row := by
  obtain ⟨record, hrec, rfl⟩ := mem_map.mp hrow
  refine ⟨record.1, mem_scan.mp ?_⟩
  cases after with
  | none => exact hrec
  | some cursor => exact (mem_behind.mp hrec).1

theorem length_rowsBehind (home : FrozenHomeRead) (after : Option CatalogRecencyCursor) :
    (home.rowsBehind after).length ≤ home.recency.size := by
  rw [FrozenHomeRead.rowsBehind, length_map, ← TreeMap.length_toList]
  cases after with
  | none => exact Nat.le_refl _
  | some cursor => exact length_filter_le _ _

include hrun in
/-- A reader that also looks for a cancellation. -/
theorem checked {K α ε : Type} {read : Option K → Except ε (Page α)} {key : α → K}
    {remaining : Option K → List α} (hserves : Serves read key remaining)
    (wrap : ε → CatalogQueryError) :
    Serves (fun after => do checkCancel env; (read after).mapError wrap) key remaining := by
  refine ⟨fun after => ?_, hserves.behind⟩
  obtain ⟨page, rest, hread, hpage⟩ := hserves.page after
  refine ⟨page, rest, ?_, hpage⟩
  rw [checkCancel_eq hrun, ok_bind, hread, mapError_ok]

theorem length_behind_none {K V : Type} [Ord K] (space : Keyspace K V) :
    ((behind space none).map Prod.snd).length = space.size := by
  rw [length_map, ← TreeMap.length_toList]
  rfl

include hrun h in
/-- **A walk over the recency visits the rows behind its cursor.** -/
theorem walkRecency_eq (after : Option CatalogRecencyCursor)
    (visit : σ → CatalogRow → Queried (σ × Bool)) (state : σ) :
    walkRecency env entry after visit state
      = (visitRows visit state (entry.frozen.rowsBehind after)).map Prod.fst := by
  rw [walkRecency, walkPages_eq (checked hrun h.agrees.serves_recency _) _ _ _
    (Nat.lt_succ_of_le (length_rowsBehind _ _))]
  congr 1
  refine visitRows_congr _ fun row hrow state => ?_
  obtain ⟨cursor, hstored⟩ := mem_rowsBehind hrow
  have hcur := h.current _ _ (h.agrees.recency _ _ hstored).2
  rw [checkCancel_eq hrun, ok_bind, requireCurrent, ensure_bind hcur]

/-- Behind a matching row the later matching rows remain. -/
theorem matchingBehind (hagrees : entry.frozen.Agrees) {after : Option CatalogRecencyCursor}
    {front rest : List CatalogRow} {last : CatalogRow} {p : CatalogRow → Bool}
    (hsplit : (entry.frozen.rowsBehind after).filter p = front ++ last :: rest) :
    (entry.frozen.rowsBehind (some last.recencyCursor)).filter p = rest := by
  obtain ⟨before, tail, hrows, -, htail⟩ := filter_eq_append_iff.mp hsplit
  obtain ⟨skipped, later, rfl, -, -, hlater⟩ := filter_eq_cons_iff.mp htail
  rw [← append_assoc] at hrows
  rw [hagrees.serves_recency.behind _ _ _ _ hrows]
  exact hlater

theorem cursorAt_offset {rows : List CatalogRow} {index : ℕ} (hindex : index ≤ rows.length) :
    ((cursorAt token rows index).map offset).getD 0 = index := by
  cases index with
  | zero => rfl
  | succ index =>
    rw [cursorAt, getElem?_eq_getElem hindex]
    rfl

/-- **Behind a cursor the later matching rows remain.** -/
theorem matchingBehind_cursorAt (hagrees : entry.frozen.Agrees) {index : ℕ}
    (hindex : index ≤ entry.listed.length) :
    (entry.frozen.rowsBehind ((cursorAt token entry.listed index).map after)).filter
      entry.criteria.matches = entry.listed.drop index := by
  cases index with
  | zero => rfl
  | succ index =>
    rw [cursorAt, getElem?_eq_getElem hindex]
    have hsplit : (entry.frozen.rowsBehind none).filter entry.criteria.matches
        = entry.listed.take index ++ entry.listed[index] :: entry.listed.drop (index + 1) := by
      rw [← drop_eq_getElem_cons hindex, take_append_drop]
      rfl
    exact matchingBehind hagrees hsplit

end

/-! ## Presentation -/

theorem frozenCatalogSource_of_stores (hkeyed : home.RuntimesKeyed) {runtimeId : RuntimeId}
    {rootId : RootId} (h : home.Stores runtimeId rootId source) :
    home.frozenCatalogSource runtimeId rootId = .ok source := by
  have hindex : readPoint rootIdIndexCodec home.rootIds rootId (pointLimit 32)
      = .ok home.rootIds[rootId]? := readPoint_eq ⟨fun _ => ⟨Nat.succ_pos 15, Nat.le_refl 16⟩,
        fun _ => Nat.le_refl 16, fun _ => Nat.le_refl 16, fun _ => Nat.le_refl 16⟩ (by decide)
  have hroot : readPoint rootRecordCodec home.roots ⟨runtimeId, rootId⟩ (pointLimit rootRecordLimit)
      = .ok home.roots[(⟨runtimeId, rootId⟩ : RuntimeRootKey)]? :=
    readPoint_eq ⟨fun _ => ⟨Nat.succ_pos 31, Nat.le_refl 32⟩, RootRecord.encoded_le,
      fun _ => Nat.le_refl 32, RootRecord.encoded_le⟩ (Nat.le_refl _)
  have hfrozenRoot : home.frozenRoot rootId = .ok (some source.root) := by
    rw [FrozenHomeRead.frozenRoot, hindex, mapError_ok, ok_bind, h.index]
    change ((readPoint rootRecordCodec home.roots ⟨runtimeId, rootId⟩
      (pointLimit rootRecordLimit)).mapError _ >>= _) = _
    have hkeys : ((some source.root).any fun root =>
        decide (root.rootId = rootId ∧ root.runtimeId = runtimeId)) = true := decide_eq_true h.keyed
    rw [hroot, mapError_ok, ok_bind, h.root, ensure_bind hkeys]
    rfl
  rw [FrozenHomeRead.frozenCatalogSource, hkeyed.frozenRuntime_eq, ok_bind, h.runtime,
    required_bind, hfrozenRoot, ok_bind, required_bind, dif_pos source.same]

theorem presentationSource_of_repeats (hkeyed : entry.frozen.RuntimesKeyed)
    (hstores : entry.frozen.Stores row.facts.execution.runtimeId row.facts.execution.rootId source)
    (hrepeats : row.Repeats source) : presentationSource entry row = .ok source := by
  obtain ⟨h₁, h₂, h₃, h₄, h₅, h₆, h₇⟩ := hrepeats
  rw [presentationSource, frozenCatalogSource_of_stores hkeyed hstores, mapError_ok, ok_bind,
    ensure_bind ⟨h₁, h₂, h₃, h₄, h₅, h₆, h₇⟩]
  rfl

theorem exists_scopePresentation (hkeyed : entry.frozen.RuntimesKeyed)
    (hscope : entry.criteria.scope.Stored entry.frozen) :
    ∃ scope, scopePresentation entry = .ok scope := by
  rw [scopePresentation]
  revert hscope
  cases entry.criteria.scope with
  | all => exact fun _ => ⟨.all, rfl⟩
  | runtime runtimeId =>
    rintro ⟨runtime, hruntime⟩
    refine ⟨.runtime runtime, ?_⟩
    dsimp only
    rw [hkeyed.frozenRuntime_eq, hruntime]
    rfl
  | root runtimeId rootId =>
    rintro ⟨source, hsrc⟩
    refine ⟨.root source, ?_⟩
    dsimp only
    rw [frozenCatalogSource_of_stores hkeyed hsrc]
    rfl

theorem visitRows_count {α : Type} {visit : ℕ → α → Queried (ℕ × Bool)}
    {rows : List α} (hvisit : ∀ row ∈ rows, ∀ count, visit count row
      = (increment count).map fun count => (count, true)) (count : ℕ)
    (hroom : count + rows.length < u64Size) :
    visitRows visit count rows = .ok (count + rows.length, true) := by
  induction rows generalizing count with
  | nil => rfl
  | cons row rows ih =>
    rw [length_cons] at hroom ⊢
    have hnext : visit count row = .ok (count + 1, true) := by
      rw [hvisit row mem_cons_self, increment, checkedAdd_of_lt (by omega)]
      rfl
    rw [visitRows_cons hnext, ih (fun row' hrow' => hvisit row' (.tail _ hrow')) _ (by omega)]
    congr 2
    omega

theorem exists_runtimeEnvironmentCount (hrun : env.cancelled = false) (h : entry.frozen.Coherent)
    (environment : String) : ∃ count, runtimeEnvironmentCount env entry environment =
        .ok count := by
  have hsize := length_behind_none entry.frozen.runtimes
  have hpasses : ∀ count runtime,
      decide (runtime.environmentLabel = environment) = false → (do
        checkCancel env
        return (← countRuntime environment count runtime, true)) = Except.ok (count, true) := by
    intro count runtime hother
    rw [checkCancel_eq hrun, ok_bind, countRuntime, if_neg (of_decide_eq_false hother)]
    rfl
  refine ⟨0 + (((behind entry.frozen.runtimes none).map Prod.snd).filter fun runtime =>
    runtime.environmentLabel = environment).length, ?_⟩
  rw [runtimeEnvironmentCount, walkRuntimes,
    walkPages_eq (checked hrun h.runtimes.serves _) _ _ _ (by rw [hsize]; omega),
    visitRows_filter _ _ hpasses, visitRows_count]
  · rfl
  · intro runtime hruntime count
    have hlabel := of_decide_eq_true (mem_filter.mp hruntime).2
    rw [checkCancel_eq hrun, ok_bind, countRuntime, if_pos hlabel]
    cases increment count <;> rfl
  · have hless := length_filter_le (fun runtime : RuntimeRecord =>
      decide (runtime.environmentLabel = environment))
        ((behind entry.frozen.runtimes none).map Prod.snd)
    have hroom := h.countable.2
    omega

/-! ## Pages -/

variable {limit : CatalogQueryPageLimit}

/-- A page has room for a row exactly if it has fewer than it takes. -/
theorem lt_pageCapacity {count : ℕ} : count < pageCapacity env limit ↔
    ¬ (limit.maxItems ≤ count ∨ limit.maxBytes < count * env.presentationRowBytes
      + env.presentationRowBytes) := by
  have hbytes : count < limit.maxBytes / env.presentationRowBytes
      ↔ count * env.presentationRowBytes + env.presentationRowBytes ≤ limit.maxBytes := by
    rw [← Nat.succ_mul, ← Nat.le_div_iff_mul_le
      (by rw [QueryEnvironment.presentationRowBytes]; omega)]
    exact Nat.lt_iff_add_one_le
  rw [pageCapacity, Nat.lt_min, hbytes]
  omega

/-- The rows of a page so far are charged, and the last is remembered. -/
structure Collected.Charged (state : Collected) (env : QueryEnvironment) : Prop where
  bytes : state.bytes = state.rows.length * env.presentationRowBytes
  last : state.last = state.rows.getLast?.map fun row => row.catalog.recencyCursor

variable (hrun : env.cancelled = false) (h : entry.frozen.Coherent)

include hrun h in
/-- **Matching rows are collected while the page takes them.** -/
theorem exists_collectRows (hroom : 0 < pageCapacity env limit) {rows : List CatalogRow}
    (hstored : ∀ row ∈ rows, entry.frozen.primary[row.threadId]? = some row
      ∧ entry.criteria.matches row = true) {state : Collected} (hchrg : state.Charged env)
    (hfits : state.rows.length ≤ pageCapacity env limit) :
    ∃ final proceed, visitRows (collectRow env entry limit) state rows = .ok (final, proceed)
      ∧ final.Charged env ∧ final.rows.map CatalogQueryRow.catalog
        = state.rows.map CatalogQueryRow.catalog
          ++ rows.take (pageCapacity env limit - state.rows.length) := by
  induction rows generalizing state with
  | nil => exact ⟨state, true, rfl, hchrg, by simp⟩
  | cons row rows ih =>
    obtain ⟨hrow, hmatch⟩ := hstored row mem_cons_self
    by_cases hfull : state.rows.length < pageCapacity env limit
    · obtain ⟨source, hstores, hrepeats⟩ := h.presented _ _ hrow
      obtain ⟨count, hcount⟩ :=
        exists_runtimeEnvironmentCount hrun h source.runtime.environmentLabel
      have hvisit : collectRow env entry limit state row
          = .ok (⟨state.rows ++ [⟨row, source, count⟩], state.bytes + env.presentationRowBytes,
            some row.recencyCursor⟩, true) := by
        rw [collectRow, if_neg (by simp [hmatch]), hchrg.bytes, if_neg (lt_pageCapacity.mp hfull),
          presentationSource_of_repeats h.runtimes hstores hrepeats, ok_bind, hcount, ok_bind]
        rfl
      obtain ⟨final, proceed, hfinal, hchrg', hlist⟩ := @ih
        (fun row' hrow' => hstored row' (.tail _ hrow'))
        ⟨state.rows ++ [⟨row, source, count⟩], state.bytes + env.presentationRowBytes,
          some row.recencyCursor⟩
        ⟨by rw [hchrg.bytes, length_append, length_singleton, Nat.succ_mul],
          by rw [getLast?_concat]; rfl⟩
        (by rw [length_append, length_singleton]; exact hfull)
      refine ⟨final, proceed, (visitRows_cons hvisit).trans hfinal, hchrg', ?_⟩
      obtain ⟨left, hleft⟩ := Nat.exists_eq_add_of_lt hfull
      rw [hlist, map_append, length_append, length_singleton, append_assoc, hleft,
        show state.rows.length + left + 1 - state.rows.length = left + 1 by omega,
        show state.rows.length + left + 1 - (state.rows.length + 1) = left by omega,
        take_succ_cons]
      rfl
    · have hlen : state.rows.length = pageCapacity env limit :=
        Nat.le_antisymm hfits (Nat.le_of_not_lt hfull)
      have hne : state.rows ≠ [] := fun hnone => by
        rw [hnone, length_nil] at hlen
        omega
      have hvisit : collectRow env entry limit state row = .ok (state, false) := by
        rw [collectRow, if_neg (by simp [hmatch]), hchrg.bytes,
          if_pos (not_not.mp fun hno => hfull (lt_pageCapacity.mpr hno)), if_neg hne]
      refine ⟨state, false, visitRows_stop hvisit, hchrg, ?_⟩
      rw [hlen, Nat.sub_self, take_zero, append_nil]

theorem mem_matching (hagrees : home.Agrees) {criteria : CatalogQueryCriteria}
    (hrow : row ∈ matching home criteria) :
    home.primary[row.threadId]? = some row ∧ criteria.matches row = true := by
  obtain ⟨hrow, hmatch⟩ := mem_filter.mp hrow
  obtain ⟨cursor, hstored⟩ := mem_rowsBehind hrow
  exact ⟨(hagrees.recency _ _ hstored).2, hmatch⟩

theorem length_matching_lt (h : home.Coherent)
    (criteria : CatalogQueryCriteria) : (matching home criteria).length < u64Size :=
  Nat.lt_of_le_of_lt (Nat.le_trans (length_filter_le _ _) (length_rowsBehind home none))
    h.countable.1

include hrun h in
/-- **A page behind a number of matching rows lists the next ones.** -/
theorem exists_collectPage (hroom : 0 < pageCapacity env limit)
    (hcount : entry.count = entry.listed.length) {index : ℕ} (hindex : index ≤ entry.count) :
    ∃ page, collectPage env entry (cursorAt entry.token entry.listed index) limit = .ok page
      ∧ page.Lists entry.token entry.listed (pageCapacity env limit) index := by
  rw [hcount] at hindex
  have hstored : ∀ row ∈ entry.listed.drop index,
      entry.frozen.primary[row.threadId]? = some row ∧ entry.criteria.matches row = true :=
    fun row hrow => mem_matching h.agrees (mem_of_mem_drop hrow)
  obtain ⟨final, proceed, hvisit, hchrg, hrows⟩ := @exists_collectRows env entry limit hrun h
    hroom _ hstored ⟨[], 0, none⟩ ⟨(Nat.zero_mul _).symm, rfl⟩ (Nat.zero_le _)
  have hwalk : walkRecency env entry ((cursorAt entry.token entry.listed index).map
      after) (collectRow env entry limit) ⟨[], 0, none⟩ = .ok final := by
    rw [walkRecency_eq hrun h, visitRows_filter _ _ fun state row hother => ?_,
      matchingBehind_cursorAt h.agrees hindex, hvisit]
    · rfl
    · rw [collectRow, if_pos hother]
  have hlen := congrArg List.length hrows
  rw [length_map, map_nil, nil_append, length_take, length_drop, length_nil, Nat.sub_zero] at hlen
  have hroom' : entry.listed.length < u64Size := length_matching_lt h _
  have hcons : index + final.rows.length ≤ entry.count := by omega
  have hnext : continuation entry (index + final.rows.length) final.last
      = .ok (if index + final.rows.length < entry.listed.length
        then cursorAt entry.token entry.listed (index + final.rows.length) else none) := by
    rw [continuation, hcount]
    split
    · next hmore =>
      -- The page is full, and so not empty: its last row is the one that the cursor names.
      obtain ⟨count, hfull⟩ : ∃ count, final.rows.length = count + 1 :=
        Nat.exists_eq_succ_of_ne_zero (by omega)
      have hlast : final.last = entry.listed[index + count]?.map CatalogRow.recencyCursor := by
        have hbelow : count < pageCapacity env limit := by omega
        calc final.last
            = (final.rows.map CatalogQueryRow.catalog).getLast?.map CatalogRow.recencyCursor := by
              rw [hchrg.last, getLast?_map, Option.map_map]
              rfl
          _ = entry.listed[index + count]?.map CatalogRow.recencyCursor := by
              rw [getLast?_eq_getElem?, length_map, hfull, hrows, map_nil, nil_append, length_nil,
                Nat.sub_zero, Nat.add_sub_cancel, getElem?_take_of_lt hbelow, getElem?_drop]
      have hin : index + count < entry.listed.length := by omega
      rw [hfull, ← Nat.add_assoc, cursorAt, hlast, getElem?_eq_getElem hin]
      rfl
    · rfl
  refine ⟨⟨final.rows, index, final.bytes, if index + final.rows.length < entry.listed.length
    then cursorAt entry.token entry.listed (index + final.rows.length) else none⟩, ?_, hrows, rfl,
      rfl⟩
  rw [collectPage, checkCancel_eq hrun, ok_bind, hwalk, ok_bind, cursorAt_offset hindex,
    checkedAdd_bind (by omega), ensure_bind hcons, hnext, ok_bind]
  rfl

include hrun h in
theorem scanPrimary_eq : scanPrimary env entry = .ok () := by
  have hsize := length_behind_none entry.frozen.primary
  rw [scanPrimary, walkPages_eq (checked hrun h.agrees.serves_primary _) _ _ _
    (by rw [hsize]; omega), visitRows_pass]
  · rfl
  · intro row hrow
    obtain ⟨record, hrec, rfl⟩ := mem_map.mp hrow
    have hstored := mem_scan.mp hrec
    obtain ⟨source, hstores, hrepeats⟩ := h.presented _ _ hstored
    rw [requireCurrent, ensure_bind (h.current _ _ hstored),
      presentationSource_of_repeats h.runtimes hstores hrepeats, ok_bind]
    rfl

include hrun h in
/-- **The count of a query is the number of matching rows.** -/
theorem exists_countRows (hscope : entry.criteria.scope.Stored entry.frozen) :
    ∃ scope, countRows env entry =
        .ok (entry.frozen.catalogRevision, scope, entry.listed.length) := by
  obtain ⟨scope, hpres⟩ := exists_scopePresentation h.runtimes hscope
  have hcount : walkRecency env entry none (countRow entry) 0 = .ok entry.listed.length := by
    have hroom := length_matching_lt h entry.criteria
    rw [walkRecency_eq hrun h, visitRows_filter _ _ fun count row hother => ?_, visitRows_count]
    · rw [Nat.zero_add]
      rfl
    · intro row hrow count
      rw [countRow, if_pos (mem_filter.mp hrow).2]
    · rw [Nat.zero_add]
      exact hroom
    · rw [countRow, if_neg (by simp [hother])]
  refine ⟨scope, ?_⟩
  rw [countRows, checkCancel_eq hrun, ok_bind, hpres, ok_bind, scanPrimary_eq hrun h,
    ok_bind, hcount, ok_bind]
  rfl

/-- Seeking an offset ends behind as many matching rows. -/
theorem visitRows_seekRow {rows : List CatalogRow}
    (hmatch : ∀ row ∈ rows, entry.criteria.matches row = true) (hroom : rows.length < u64Size)
    {start : ℕ} (hstart : start ≤ rows.length) (index : ℕ) (hindex : index < start) :
    visitRows (seekRow entry start) (index, cursorAt entry.token rows index) (rows.drop index)
      = .ok ((start, cursorAt entry.token rows start), false) := by
  have hin : index < rows.length := by omega
  have hvisit : seekRow entry start (index, cursorAt entry.token rows index) rows[index]
      = .ok ((index + 1, cursorAt entry.token rows (index + 1)), decide (index + 1 < start)) := by
    rw [seekRow, if_neg (by simp [hmatch]), increment, checkedAdd_bind (by omega), cursorAt,
      getElem?_eq_getElem hin]
    rfl
  rw [drop_eq_getElem_cons hin]
  by_cases hlast : index + 1 < start
  · rw [decide_eq_true hlast] at hvisit
    rw [visitRows_cons hvisit]
    exact visitRows_seekRow hmatch hroom hstart (index + 1) hlast
  · obtain rfl : start = index + 1 := by omega
    rw [decide_eq_false hlast] at hvisit
    exact visitRows_stop hvisit
termination_by start - index

/-- Looking for a thread finds its first matching row. -/
theorem exists_visitRows_locateRow {front later : List CatalogRow} {threadId : SyndicThreadId}
    (hmatch : ∀ row ∈ later, entry.criteria.matches row = true)
    (hroom : (front ++ later).length < u64Size) :
    ∃ final proceed, visitRows (locateRow entry threadId)
        ⟨front.length, cursorAt entry.token (front ++ later) front.length, none⟩ later
          = .ok (final, proceed)
      ∧ final.result = (later.findIdx? fun row => row.threadId = threadId).map fun index =>
        ⟨front.length + index, cursorAt entry.token (front ++ later) (front.length + index)⟩ := by
  induction later generalizing front with
  | nil => exact ⟨_, true, rfl, rfl⟩
  | cons row later ih =>
    have hrow := hmatch row mem_cons_self
    by_cases hfound : row.threadId = threadId
    · refine ⟨⟨front.length, cursorAt entry.token (front ++ row :: later) front.length,
        some ⟨front.length, cursorAt entry.token (front ++ row :: later) front.length⟩⟩, false,
        visitRows_stop ?_, ?_⟩
      · rw [locateRow, if_neg (by simp [hrow]), if_pos hfound]
      · rw [findIdx?_cons, decide_eq_true hfound]
        rfl
    · have hsplit : front ++ row :: later = (front ++ [row]) ++ later := by simp
      have hlen : (front ++ [row]).length = front.length + 1 := by simp
      have hcursor : cursorAt entry.token (front ++ row :: later) (front.length + 1)
          = some ⟨entry.token, row.recencyCursor, front.length + 1⟩ := by
        rw [cursorAt, getElem?_append_right (Nat.le_refl _), Nat.sub_self]
        rfl
      have hvisit : locateRow entry threadId
          ⟨front.length, cursorAt entry.token (front ++ row :: later) front.length, none⟩ row
          = .ok (⟨front.length + 1, cursorAt entry.token (front ++ row :: later) (front.length + 1),
            none⟩, true) := by
        have hnext : front.length + 1 < u64Size := by
          rw [length_append, length_cons] at hroom
          omega
        rw [locateRow, if_neg (by simp [hrow]), if_neg hfound, increment, checkedAdd_bind hnext,
          hcursor]
        rfl
      obtain ⟨final, proceed, hfinal, hres⟩ := @ih (front ++ [row])
        (fun row' hrow' => hmatch row' (.tail _ hrow')) (hsplit ▸ hroom)
      rw [← hsplit, hlen] at hfinal hres
      refine ⟨final, proceed, (visitRows_cons hvisit).trans hfinal, ?_⟩
      rw [hres, findIdx?_cons, decide_eq_false hfound, if_neg Bool.false_ne_true, Option.map_map]
      refine congrArg (Option.map · _) (funext fun index => ?_)
      rw [Function.comp_apply, Nat.add_assoc, Nat.add_comm 1 index]

/-- The matching rows are in order… -/
theorem matching_sorted (hagrees : home.Agrees) (criteria : CatalogQueryCriteria) :
    (matching home criteria).Pairwise fun a b => compare a.recencyCursor b.recencyCursor = .lt := by
  refine List.Pairwise.filter _ (pairwise_map.mpr ?_)
  have hsort : (behind home.recency none).Pairwise fun a b => compare a.1 b.1 = .lt :=
    behind_sorted none
  refine hsort.imp_of_mem fun {a b} ha hb hlt => ?_
  rw [(hagrees.recency _ _ (mem_scan.mp ha)).1, (hagrees.recency _ _ (mem_scan.mp hb)).1]
  exact hlt

/-- …and no two of them are of one thread. -/
theorem matching_distinct (hagrees : home.Agrees) (criteria : CatalogQueryCriteria) :
    (matching home criteria).Pairwise fun a b => a.threadId ≠ b.threadId := by
  refine (matching_sorted hagrees criteria).imp_of_mem fun {a b} ha hb hlt hsame => ?_
  have hstored := (mem_matching hagrees ha).1
  rw [hsame, (mem_matching hagrees hb).1] at hstored
  rw [Option.some.inj hstored, ReflOrd.compare_self] at hlt
  cases hlt

include hrun h in
/-- **A thread is found at its place among the matching rows.** -/
theorem positionOf_eq (threadId : SyndicThreadId) :
    ∃ found, positionOf env entry threadId = .ok found
      ∧ (found = none ↔ ∀ row ∈ entry.listed, row.threadId ≠ threadId)
      ∧ ∀ index before, found = some ⟨index, before⟩ ↔
        entry.listed[index]?.map CatalogRow.threadId = some threadId
          ∧ before = cursorAt entry.token entry.listed index := by
  obtain ⟨final, proceed, hvisit, hres⟩ := @exists_visitRows_locateRow entry []
    entry.listed threadId (fun row hrow => (mem_matching h.agrees hrow).2) (length_matching_lt h _)
  have hwalk : walkRecency env entry none (locateRow entry threadId) ⟨0, none, none⟩ =
      .ok final := by
    rw [walkRecency_eq hrun h, visitRows_filter _ _ fun state row hother => ?_]
    · exact congrArg (Except.map Prod.fst) hvisit
    · rw [locateRow, if_pos hother]
  refine ⟨final.result, ?_, ?_, fun index before => ?_⟩
  · rw [positionOf, hwalk]
    rfl
  · rw [hres, Option.map_eq_none_iff, findIdx?_eq_none_iff]
    simp
  · rw [hres, Option.map_eq_some_iff]
    simp only [length_nil, Nat.zero_add, nil_append, CatalogQueryPosition.mk.injEq]
    constructor
    · rintro ⟨place, hplace, rfl, rfl⟩
      obtain ⟨hin, hthr, -⟩ := findIdx?_eq_some_iff_getElem.mp hplace
      rw [getElem?_eq_getElem hin, Option.map_some, of_decide_eq_true hthr]
      exact ⟨rfl, rfl⟩
    · rintro ⟨hplace, rfl⟩
      obtain ⟨row, hrow, hthr⟩ := Option.map_eq_some_iff.mp hplace
      obtain ⟨hin, rfl⟩ := List.getElem?_eq_some_iff.mp hrow
      refine ⟨index, findIdx?_eq_some_iff_getElem.mpr ⟨hin, decide_eq_true hthr,
        fun earlier hearlier => ?_⟩, rfl, rfl⟩
      have hdist := pairwise_iff_getElem.mp (matching_distinct h.agrees entry.criteria)
        earlier index (Nat.lt_trans hearlier hin) hin hearlier
      rw [hthr] at hdist
      simpa using hdist

theorem mem_cursorAt {rows : List CatalogRow} {index : ℕ}
    {cursor : CatalogQueryCursor} (hcursor : cursor ∈ cursorAt token rows index) :
    cursor.token = token ∧ cursor.offset = index := by
  cases index with
  | zero => cases hcursor
  | succ index =>
    obtain ⟨row, -, rfl⟩ := Option.map_eq_some_iff.mp hcursor
    exact ⟨rfl, rfl⟩

section

variable (hroom : 0 < pageCapacity env limit) (hcount : entry.count = entry.listed.length)
  {index : ℕ} (hindex : index ≤ entry.count)
include hrun h hroom hcount hindex

theorem exists_pageOf :
    ∃ page, pageOf env entry (cursorAt entry.token entry.listed index) limit = .ok page
      ∧ page.Lists entry.token entry.listed (pageCapacity env limit) index := by
  rw [pageOf, ensure_bind fun cursor hcursor => (mem_cursorAt hcursor).1,
    ensure_bind fun cursor hcursor => (mem_cursorAt hcursor).2 ▸ hindex]
  exact exists_collectPage hrun h hroom hcount hindex

theorem exists_pageAtOf : ∃ page, pageAtOf env entry index limit = .ok page
      ∧ page.Lists entry.token entry.listed (pageCapacity env limit) index := by
  have hseek : seekCursor env entry index = .ok (cursorAt entry.token entry.listed index) := by
    rw [seekCursor]
    split
    · next hzero =>
      subst hzero
      rfl
    · next hne =>
      rw [walkRecency_eq hrun h, visitRows_filter _ _ fun state row hother => ?_]
      · have hvisit := @visitRows_seekRow entry entry.listed
          (fun row hrow => (mem_matching h.agrees hrow).2) (length_matching_lt h _) index
          (hcount ▸ hindex) 0 (Nat.pos_of_ne_zero hne)
        exact congrArg (fun visited => (Except.map Prod.fst visited).map Prod.snd) hvisit
      · rw [seekRow, if_pos hother]
  rw [pageAtOf, ensure_bind hindex, hseek, ok_bind]
  exact exists_collectPage hrun h hroom hcount hindex

end

include hrun h in
/-- **Opening a query counts the matching rows and lists the first of them.** -/
theorem exists_prepare (hroom : 0 < pageCapacity env limit)
    (hscope : entry.criteria.scope.Stored entry.frozen) :
    ∃ opened, prepare env entry limit = (.ok opened, { entry with
          revision := some entry.frozen.catalogRevision
          count := entry.listed.length })
      ∧ opened.token = entry.token ∧ opened.count = entry.listed.length
      ∧ opened.first.Lists entry.token entry.listed (pageCapacity env limit) 0 := by
  obtain ⟨scope, hcounted⟩ := exists_countRows hrun h hscope
  obtain ⟨page, hpage, hlists⟩ := @exists_collectPage env
    { entry with
      revision := some entry.frozen.catalogRevision
      count := entry.listed.length }
    limit hrun h hroom rfl 0 (Nat.zero_le _)
  refine ⟨⟨entry.token, entry.listed.length, entry.frozen.catalogRevision,
    entry.frozen.homeRevision, entry.criteria, scope, page⟩, ?_, rfl, rfl, hlists⟩
  change collectPage env _ none limit = .ok page at hpage
  rw [prepare, hcounted]
  dsimp only
  rw [hpage, ok_bind, checkCancel_eq hrun, ok_bind]
  rfl

end Beryl.Catalog
