import Beryl.Home.Reconciliation

/-!
# Home/Resolution — whether reconciliation tells the truth

The custody of an indeterminate command describes its batch: every listed record has the value that
it had before and the value that the batch gives it (`Passes.describes`).  So if nothing writes the
listed records, all of them are on one side, the side of the batch.  A domain that lists a record
whose values differ is then classified as that side; one that lists none is `exactUnchanged` for one
classifier and `collision` for the other (`side_of_descriptor`).  The answer is therefore the truth
exactly when the records can be read and no Syndic domain is only rewritten (`reconcile_truthful`),
and an answer is honest in any state whatever (`honest`).
-/

namespace Beryl.Home

open Fallible Wire List ReconciliationCustody

variable {V : Type} [DecidableEq V]

/-! ## Reading a record -/

variable {record : MaterializedRecordDescriptor}

section

variable {codecs : ℕ → RecordCodec V} {environment : ReconciliationEnvironment}
  {snapshot : Database} {domain : RegisteredDomain} {family : RegisteredFamily}

omit [DecidableEq V] in
/-- **What was read of a record is what its codec makes of it.** -/
theorem readRecord_eq_ok {read : ReconciliationRecord V}
    (h : readRecord codecs environment snapshot domain family record = .ok read) :
    decodeKey codecs domain family record.key = .ok ()
      ∧ decodeStored codecs domain family record.old = .ok read.old
      ∧ decodeStored codecs domain family record.new = .ok read.new
      ∧ decodeStored codecs domain family (snapshot ⟨family.physicalName, record.key⟩)
        = .ok read.current := by
  simp only [readRecord, readCurrent, bind_eq_ok, pure_eq_ok, Except.ok.injEq] at h
  obtain ⟨_, hkey, old, hold, new, hnew, current, ⟨_, -, hread⟩, rfl⟩ := h
  refine ⟨hkey, hold, hnew, ?_⟩
  cases hstored : snapshot ⟨family.physicalName, record.key⟩ with
  | none =>
    rw [hstored] at hread
    exact hread
  | some value =>
    simp only [hstored, decodeRecordEnvelope, bind_eq_ok, Except.ok.injEq] at hread
    obtain ⟨_, -, decoded, ⟨_, -, _, -, _, -, hdec⟩, hread⟩ := hread
    exact map_eq_ok.mpr ⟨decoded, hdec, hread⟩

omit [DecidableEq V] in
theorem decodeValue_size {encoded : Bytes} {value : V}
    (h : decodeValue codecs domain family encoded = .ok value) :
    encoded.length ≤ family.maxStoredValueBytes := by
  simp only [decodeValue, bind_eq_ok, ensure_eq_ok] at h
  obtain ⟨_, -, _, -, _, hsize, -⟩ := h
  exact hsize

omit [DecidableEq V] in
/-- A record whose values can be decoded is read, unless the engine fails. -/
theorem exists_readRecord {old new current : Option V}
    (hreadable : environment.unreadable ⟨family.physicalName, record.key⟩ = none)
    (hfits : family.KeyFits record.key) (hkey : decodeKey codecs domain family record.key = .ok ())
    (hold : decodeStored codecs domain family record.old = .ok old)
    (hnew : decodeStored codecs domain family record.new = .ok new)
    (hcur : decodeStored codecs domain family (snapshot ⟨family.physicalName, record.key⟩)
      = .ok current) :
    readRecord codecs environment snapshot domain family record = .ok ⟨old, new, current⟩ := by
  have hread : readCurrent codecs environment snapshot domain family record.key = .ok current := by
    rw [readCurrent, hreadable]
    cases hstored : snapshot ⟨family.physicalName, record.key⟩ with
    | none =>
      rw [hstored] at hcur
      exact hcur
    | some value =>
      rw [hstored] at hcur
      obtain ⟨decoded, hdec, rfl⟩ := map_eq_ok.mp hcur
      have hsize := decodeValue_size hdec
      rw [Environment.interrupt, mapError_ok, ok_bind]
      dsimp only
      rw [ensure_bind hsize, decodeRecordEnvelope, ensure_bind hfits, hkey,
        ok_bind, ensure_bind hsize, hdec]
      rfl
  rw [readRecord, hkey, ok_bind, hold, ok_bind, hnew, ok_bind, hread]
  rfl

/-! ## The sides of a domain -/

theorem foldl_observe (records : List (ReconciliationRecord V)) (sides : ExactSides) :
    records.foldl ExactSides.observe sides = ⟨sides.sawRecord || !records.isEmpty,
        sides.exactOld && records.all fun record => record.current = record.old,
        sides.exactNew && records.all fun record => record.current = record.new⟩ := by
  induction records generalizing sides with
  | nil => simp
  | cons record records ih =>
    rw [foldl_cons, ih]
    simp [ExactSides.observe, Bool.and_assoc]

variable {side : DomainReconciliation} {descriptor : MaterializedDomainDescriptor}

/-- **What the hook of a domain has read**: every listed record of its families, and nothing else.
-/
theorem reconcileDomain_eq_ok
    (h : reconcileDomain codecs environment snapshot domain descriptor = .ok side) :
    ∃ reads : List (ReconciliationRecord V), side = domain.reconciler.finish ⟨!reads.isEmpty,
        reads.all fun read => read.current = read.old, reads.all fun read =>
          read.current = read.new⟩
      ∧ (∀ record ∈ descriptor.records, ∀ family,
        domain.families[record.familySlot]? = some family →
        ∃ read ∈ reads, readRecord codecs environment snapshot domain family record = .ok read)
      ∧ ∀ read ∈ reads, ∃ record ∈ descriptor.records, ∃ family,
        domain.families[record.familySlot]? = some family
          ∧ readRecord codecs environment snapshot domain family record = .ok read := by
  obtain ⟨reads, hreads, hpure⟩ := bind_eq_ok.mp h
  have hall := mapM_eq_ok.mp hreads
  refine ⟨reads.flatten, ?_, fun record hrec family hfam => ?_, fun read hread => ?_⟩
  · cases hpure
    rw [foldl_observe]
    rfl
  · obtain ⟨hlt, rfl⟩ := List.getElem?_eq_some_iff.mp hfam
    obtain ⟨family, hmem, hfamilyReads⟩ := exists_right hall (mem_finRange ⟨_, hlt⟩)
    obtain ⟨read, hread, hok⟩ := exists_right (mapM_eq_ok.mp hfamilyReads)
      (mem_filter.mpr ⟨hrec, decide_eq_true rfl⟩)
    exact ⟨read, mem_flatten_of_mem hmem hread, hok⟩
  · obtain ⟨family, hmem, hread⟩ := mem_flatten.mp hread
    obtain ⟨slot, -, hfamilyReads⟩ := exists_left hall hmem
    obtain ⟨record, hrec, hok⟩ := exists_left (mapM_eq_ok.mp hfamilyReads) hread
    obtain ⟨hrec, hslot⟩ := mem_filter.mp hrec
    refine ⟨record, hrec, domain.families[slot], ?_, hok⟩
    rw [of_decide_eq_true hslot]
    exact getElem?_eq_getElem slot.isLt

theorem exists_reconcileDomain (h : ∀ record ∈ descriptor.records, ∀ family,
      domain.families[record.familySlot]? = some family →
        ∃ read, readRecord codecs environment snapshot domain family record = .ok read) :
    ∃ side, reconcileDomain codecs environment snapshot domain descriptor = .ok side := by
  have hfam : ∀ slot ∈ List.finRange domain.families.length, ∃ reads,
      familyRecords codecs environment snapshot domain descriptor slot = .ok reads :=
    fun slot _ => exists_mapM fun record hrec => by
      obtain ⟨hrec, hslot⟩ := mem_filter.mp hrec
      refine h record hrec _ ?_
      rw [of_decide_eq_true hslot]
      exact getElem?_eq_getElem slot.isLt
  obtain ⟨reads, hreads⟩ := exists_mapM hfam
  exact ⟨_, by rw [reconcileDomain, hreads]; rfl⟩

end

/-! ## The side of a command -/

/-- The side of a batch that was applied, or was not. -/
def exactSide (applied : Bool) : DomainReconciliation := if applied then .exactNew else .exactOld

/-- The value of a record on a side. -/
def MaterializedRecordDescriptor.onSide (record : MaterializedRecordDescriptor) (applied : Bool) :
    Option Bytes := if applied then record.new else record.old

variable {side : DomainReconciliation} {sides : List DomainReconciliation}

theorem selectSide_eq_some {exact : DomainReconciliation}
    (hexact : exact = .exactOld ∨ exact = .exactNew) :
    ∀ {selected}, selectSide selected sides = some exact ↔
      (∀ side ∈ sides, side = exact ∨ side = .exactUnchanged)
        ∧ (selected = some exact ∨ selected = none ∧ exact ∈ sides) := by
  induction sides with
  | nil => simp [selectSide]
  | cons side sides ih =>
    intro selected
    rcases hexact with rfl | rfl
    · cases side <;> cases selected <;> simp_all [selectSide, and_comm]
    · cases side <;> cases selected <;> simp_all [selectSide, and_comm]

variable {applied : Bool} {reconciler : Reconciler}

/-- **The side of a command**: every domain is on it or unchanged, and some domain is on it. -/
theorem ordinaryExactSide_eq_some : ordinaryExactSide sides = some (exactSide applied) ↔
      (∀ side ∈ sides, side = exactSide applied ∨ side = .exactUnchanged)
        ∧ exactSide applied ∈ sides := by
  rw [ordinaryExactSide, selectSide_eq_some (by cases applied <;> simp [exactSide])]
  simp

theorem finish_eq_exactSide {sides : ExactSides}
    (h : reconciler.finish sides = exactSide applied ∨ reconciler.finish sides = .exactUnchanged) :
    (if applied then sides.exactNew else sides.exactOld) = true := by
  obtain ⟨saw, old, new⟩ := sides
  cases reconciler <;> cases applied <;> cases saw <;> cases old <;> cases new <;>
    simp_all [Reconciler.finish, ReconciliationSides.finish, ReconciliationClassification.finish,
      exactSide]

/-- A domain that matches a side is on it, unless it matches the other side too. -/
theorem finish_of_matches {old new : Bool}
    (h : (if applied then new else old) = true) : reconciler.finish ⟨true, old, new⟩ =
      if old && new then (match reconciler with | .syndic => .collision | .state => .exactUnchanged)
      else exactSide applied := by
  cases reconciler <;> cases applied <;> cases old <;> cases new <;>
    simp_all [Reconciler.finish, ReconciliationSides.finish, ReconciliationClassification.finish,
      exactSide]

/-! ## What a custody lists -/

/-- A descriptor lists a record of a family of its domain. -/
structure Lists (generation : StoreGeneration) (descriptor : MaterializedDomainDescriptor)
    (domain : RegisteredDomain) (family : RegisteredFamily)
    (record : MaterializedRecordDescriptor) : Prop where
  registered : generation.registry.get descriptor.domainSlot = some domain
  mem : record ∈ descriptor.records
  family : domain.families[record.familySlot]? = some family

/-- Where a listed record is stored. -/
def MaterializedRecordDescriptor.location (record : MaterializedRecordDescriptor)
    (family : RegisteredFamily) : Location := ⟨family.physicalName, record.key⟩

/-- A record whose old and intended values differ. -/
def Changed (codecs : ℕ → RecordCodec V) (domain : RegisteredDomain) (family : RegisteredFamily)
    (record : MaterializedRecordDescriptor) : Prop :=
  decodeStored codecs domain family record.old ≠ decodeStored codecs domain family record.new

/-- A record that its codec can read, on both sides. -/
structure Legible (codecs : ℕ → RecordCodec V) (domain : RegisteredDomain)
    (family : RegisteredFamily) (record : MaterializedRecordDescriptor) : Prop where
  key : decodeKey codecs domain family record.key = .ok ()
  old : ∃ value, decodeStored codecs domain family record.old = .ok value
  new : ∃ value, decodeStored codecs domain family record.new = .ok value

/-- **What a descriptor says of the batch**: it lists records of one registered domain, with the
values they had before and the values that the batch gives them. -/
structure Describes (generation : StoreGeneration) (before : Database)
    (batch : Writes) (descriptor : MaterializedDomainDescriptor)
    (domain : RegisteredDomain) : Prop where
  registered : generation.registry.get descriptor.domainSlot = some domain
  nonempty : descriptor.records ≠ []
  record : ∀ record ∈ descriptor.records, ∃ family,
    domain.families[record.familySlot]? = some family ∧ family.KeyFits record.key
      ∧ before (record.location family) = record.old ∧ (record.location family, record.new) ∈ batch

/-- The description of a pending record. -/
def PendingMutation.describe {domain : RegisteredDomain} (before : Database)
    (mutation : PendingMutation domain) : MaterializedRecordDescriptor :=
  ⟨mutation.familySlot, mutation.key, before mutation.location, mutation.action.value⟩

variable {descriptor : MaterializedDomainDescriptor} {domain : RegisteredDomain}

section

variable {generation : StoreGeneration} {environment : Environment} {healthGeneration : ℕ}
  {reservation : CommandReservation} {command : HomeCommand} {before now : Database}
  {custody : ReconciliationCustody} {batch : Writes}
  {codecs : ℕ → RecordCodec V} {surroundings : ReconciliationEnvironment}

theorem materializeRecords_eq_ok {quotas : List (ReservedRecordQuota (String × ℕ))} :
    ∀ {pending : List (PendingMutation domain)} {actual : String × ℕ → ℕ}
      {records : List MaterializedRecordDescriptor},
      materializeRecords environment before quotas actual pending = .ok records →
        records = pending.map (PendingMutation.describe before)
  | [], _, _, h => (Except.ok.inj h).symm
  | mutation :: pending, _, _, h => by
    simp only [materializeRecords, readOldValue, bind_eq_ok, pure_eq_ok_iff] at h
    obtain ⟨_, -, _, ⟨value, hvalue, _, -, rfl⟩, records, hrecs, rfl⟩ := h
    rw [materializeRecords_eq_ok hrecs, map_cons, PendingMutation.describe,
      point_eq_ok (mapError_eq_ok.mp hvalue)]

/-- **The custody of a command describes its batch.** -/
theorem Passes.describes
    (h : Passes generation environment healthGeneration reservation command before custody batch)
    (hmem : descriptor ∈ custody.domains) :
    ∃ domain, Describes generation before batch descriptor domain := by
  obtain ⟨⟨mutation, declaration⟩, hzip, hmat⟩ :=
    exists_left (mapM_eq_ok.mp (materializeReservation_eq_ok h.materialize).2) hmem
  have hmut : mutation ∈ h.mutations := (of_mem_zip hzip).1
  simp only [materializeDomain, bind_eq_ok, pure_eq_ok_iff] at hmat
  obtain ⟨_, -, intended, -, records, hrecs, rfl⟩ := hmat
  obtain rfl := materializeRecords_eq_ok hrecs
  obtain ⟨-, -, -, hfenced⟩ := fenceCommand_eq_ok h.fence
  have hcarries := forall₂_carries h.prepare h.contribute
  obtain ⟨contribution, -, hcontr⟩ := exists_left (mapM_eq_ok.mp h.contribute) hmut
  obtain ⟨writes, hwrites, hbatch⟩ := assembleBatch_eq_ok h.assemble
  obtain ⟨ws, hws, hwritesm⟩ := exists_right hwrites hmut
  obtain ⟨next, encoded, -, -, rfl⟩ := writes_eq_ok hwritesm
  refine ⟨mutation.domain, registered_of_mem (fun f hf => (hfenced f hf).1) hcarries hmut, ?_, ?_⟩
  · obtain ⟨builder, -, hpend, rfl⟩ := contribute_eq_ok hcontr
    exact fun hnil => hpend (map_eq_nil_iff.mp hnil)
  · intro record hrec
    obtain ⟨pending, hpend, rfl⟩ := mem_map.mp hrec
    refine ⟨mutation.domain.families[pending.familySlot],
      getElem?_eq_getElem pending.familySlot.isLt, pending.keyFits, rfl, ?_⟩
    rw [hbatch]
    refine mem_append_left _ (mem_flatten_of_mem hws (mem_append_left _ ?_))
    exact mem_map.mpr ⟨pending, hpend, rfl⟩

/-! ## The answer -/

/-- Nothing fails while a command is reconciled. -/
structure ReconciliationEnvironment.Quiet (environment : ReconciliationEnvironment) : Prop where
  admitted : environment.admitted = true
  generation : environment.generationPoisoned = false
  snapshot : environment.snapshotFailure = none
  readable : ∀ location, environment.unreadable location = none
  confirm : environment.confirmFailure = none

/-- The sides of the domains, if reconciliation comes to an answer. -/
theorem reconcile_eq_ok {answer : ReconciliationResolution}
    (h : (reconcile generation codecs surroundings now custody.install).1 = .ok answer) :
    ∃ execution, answer = resolution custody execution
      ∧ custody.domains.mapM (reconcileDescriptor generation codecs surroundings now)
        = .ok execution.sides := by
  rw [reconcile] at h
  split at h
  · cases h
  · rcases hexec : executeReconciliationHook generation codecs surroundings now custody with
      failure | execution
    · simp [install, runReconciliation, hexec, finishWorker] at h
    · refine ⟨execution, ?_, ?_⟩
      · simpa [install, runReconciliation, hexec, finishWorker] using h.symm
      · simp only [executeReconciliationHook, bind_eq_ok, pure_eq_ok_iff] at hexec
        obtain ⟨_, -, _, -, sides, hsides, _, -, rfl⟩ := hexec
        exact hsides

/-- A quiet reconciliation whose domains all have a side comes to an answer. -/
theorem reconcile_of_sides (hquiet : surroundings.Quiet)
    (hsides : custody.domains.mapM (reconcileDescriptor generation codecs surroundings now)
      = .ok sides) : ∃ execution, execution.sides = sides
      ∧ (reconcile generation codecs surroundings now custody.install).1
        = .ok (resolution custody execution) := by
  have hexec : ∃ successor,
      executeReconciliationHook generation codecs surroundings now custody =
          .ok ⟨sides, successor⟩ := by
    rw [executeReconciliationHook, ensure_bind hquiet.generation, hquiet.snapshot,
      Environment.interrupt, mapError_ok, ok_bind, hsides, ok_bind, hquiet.confirm]
    exact ⟨_, rfl⟩
  obtain ⟨successor, hexec⟩ := hexec
  refine ⟨⟨sides, successor⟩, rfl, ?_⟩
  simp [reconcile, hquiet.admitted, install, runReconciliation, hexec,
    finishWorker]

/-- The answer that says whether the batch was applied. -/
def exactResolution (custody : ReconciliationCustody) (applied : Bool) : ReconciliationResolution :=
  if applied then .exactNew custody.receipt else .exactOld

theorem resolution_eq_exact {execution : ReconciliationExecution} :
    resolution custody execution = exactResolution custody applied ↔
      ordinaryExactSide execution.sides = some (exactSide applied) := by
  rw [resolution]
  split
  · next h => cases applied <;> simp [h, exactResolution, exactSide]
  · next h => cases applied <;> simp [h, exactResolution, exactSide]
  · next hold hnew =>
    refine iff_of_false (fun h => ?_) ?_
    · split at h <;> cases applied <;> simp [exactResolution] at h
    · cases applied
      · exact hold
      · exact hnew

theorem reconcileDescriptor_eq_ok
    (hreg : generation.registry.get descriptor.domainSlot = some domain) :
    reconcileDescriptor generation codecs surroundings now descriptor = .ok side ↔
      reconcileDomain codecs surroundings now domain descriptor = .ok side := by
  rw [reconcileDescriptor, hreg, required_bind, mapError_eq_ok]

/-- **An answer is honest**: each listed record has the value of the side that the answer names. -/
theorem value_of_answer (applied : Bool)
    (h : (reconcile generation codecs surroundings now custody.install).1
      = .ok (exactResolution custody applied)) (hmem : descriptor ∈ custody.domains)
    {family : RegisteredFamily} (hlists : Lists generation descriptor domain family record) :
    ∃ value, decodeStored codecs domain family (now (record.location family)) = .ok value
      ∧ decodeStored codecs domain family (record.onSide applied) = .ok value := by
  obtain ⟨execution, hans, hsides⟩ := reconcile_eq_ok h
  obtain ⟨hall, -⟩ := ordinaryExactSide_eq_some.mp (resolution_eq_exact.mp hans.symm)
  obtain ⟨side, hside, hdescr⟩ := exists_right (mapM_eq_ok.mp hsides) hmem
  have hdom := (reconcileDescriptor_eq_ok hlists.registered).mp hdescr
  obtain ⟨reads, rfl, hreads, -⟩ := reconcileDomain_eq_ok hdom
  have hflag := finish_eq_exactSide (hall _ hside)
  obtain ⟨read, hread, hrec⟩ := hreads record hlists.mem family hlists.family
  obtain ⟨-, hold, hnew, hcur⟩ := readRecord_eq_ok hrec
  refine ⟨read.current, hcur, ?_⟩
  cases applied <;> rw [of_decide_eq_true (all_eq_true.mp hflag read hread)]
  · exact hold
  · exact hnew

/-- A descriptor lists a record whose values differ. -/
def HasChange (generation : StoreGeneration) (codecs : ℕ → RecordCodec V)
    (descriptor : MaterializedDomainDescriptor) : Prop :=
  ∃ domain family record, Lists generation descriptor domain family record
    ∧ Changed codecs domain family record

section

variable (hdescribes : Describes generation before batch descriptor domain)
  (hnow : ∀ family record, Lists generation descriptor domain family record →
    now (record.location family) = record.onSide applied)
include hdescribes hnow

/-- **The side of a domain whose records are all on one side**: that side, if some record tells the
sides apart; if none does, it depends on the classifier. -/
theorem side_of_descriptor
    (h : reconcileDescriptor generation codecs surroundings now descriptor = .ok side) :
    (HasChange generation codecs descriptor → side = exactSide applied)
      ∧ (¬ HasChange generation codecs descriptor →
        side = match domain.reconciler with
          | .syndic => .collision
          | .state => .exactUnchanged) := by
  obtain ⟨reads, hside, hreads, hlisted⟩ :=
    reconcileDomain_eq_ok ((reconcileDescriptor_eq_ok hdescribes.registered).mp h)
  have hread : ∀ read ∈ reads, ∃ family record, Lists generation descriptor domain family record
      ∧ decodeStored codecs domain family record.old = .ok read.old
      ∧ decodeStored codecs domain family record.new = .ok read.new
      ∧ read.current = if applied then read.new else read.old := by
    intro read hread
    obtain ⟨record, hrec, family, hfam, hok⟩ := hlisted read hread
    have hlists : Lists generation descriptor domain family record :=
      ⟨hdescribes.registered, hrec, hfam⟩
    obtain ⟨-, hold, hnew, hcur⟩ := readRecord_eq_ok hok
    refine ⟨family, record, hlists, hold, hnew, Except.ok.inj (hcur.symm.trans ?_)⟩
    rw [← MaterializedRecordDescriptor.location, hnow family record hlists]
    cases applied
    · exact hold
    · exact hnew
  have hnonempty : (!reads.isEmpty) = true := by
    obtain ⟨record, hrec⟩ := exists_mem_of_ne_nil _ hdescribes.nonempty
    obtain ⟨family, hfam, -⟩ := hdescribes.record record hrec
    obtain ⟨read, hread, -⟩ := hreads record hrec family hfam
    cases reads with
    | nil => cases hread
    | cons read reads => rfl
  have hmatch : (if applied then reads.all fun read => read.current = read.new
      else reads.all fun read => read.current = read.old) = true := by
    cases applied <;> refine all_eq_true.mpr fun read hmem => decide_eq_true ?_ <;>
      obtain ⟨_, _, -, -, -, hcur⟩ := hread read hmem <;> exact hcur
  rw [hnonempty, finish_of_matches hmatch] at hside
  -- the records match both sides exactly when none tells them apart
  have hboth : ((reads.all fun read => read.current = read.old)
      && reads.all fun read => read.current = read.new) = true ↔
        ¬ HasChange generation codecs descriptor := by
    rw [Bool.and_eq_true, all_eq_true, all_eq_true]
    constructor
    · rintro ⟨holds, hnews⟩ ⟨domain', family, record, hlists, hchanged⟩
      cases hdescribes.registered.symm.trans hlists.registered
      obtain ⟨read, hmem, hok⟩ := hreads record hlists.mem family hlists.family
      obtain ⟨-, hold, hnew, -⟩ := readRecord_eq_ok hok
      refine hchanged ?_
      rw [hold, hnew, ← of_decide_eq_true (holds read hmem), ← of_decide_eq_true (hnews read hmem)]
    · intro hnone
      have hsame : ∀ read ∈ reads, read.current = read.old ∧ read.current = read.new := by
        intro read hmem
        obtain ⟨family, record, hlists, hold, hnew, hcur⟩ := hread read hmem
        have hvalues : read.old = read.new := by
          refine Except.ok.inj (hold.symm.trans (.trans ?_ hnew))
          by_contra hchanged
          exact hnone ⟨domain, family, record, hlists, hchanged⟩
        rw [hcur, hvalues, ite_self]
        exact ⟨rfl, rfl⟩
      exact ⟨fun read hmem => decide_eq_true (hsame read hmem).1,
        fun read hmem => decide_eq_true (hsame read hmem).2⟩
  constructor
  · intro hchange
    rwa [if_neg (fun h => hboth.mp h hchange)] at hside
  · intro hchange
    rwa [if_pos (hboth.mpr hchange)] at hside

/-- A descriptor whose records can all be read has a side, unless the engine fails. -/
theorem exists_reconcileDescriptor (hquiet : surroundings.Quiet)
    (hlegible : ∀ family record, Lists generation descriptor domain family record →
      Legible codecs domain family record) :
    ∃ side, reconcileDescriptor generation codecs surroundings now descriptor = .ok side := by
  have hread : ∀ record ∈ descriptor.records, ∀ family,
      domain.families[record.familySlot]? = some family →
        ∃ read, readRecord codecs surroundings now domain family record = .ok read := by
    intro record hrec family hfam
    have hlists : Lists generation descriptor domain family record :=
      ⟨hdescribes.registered, hrec, hfam⟩
    obtain ⟨hkey, ⟨old, hold⟩, ⟨new, hnew⟩⟩ := hlegible family record hlists
    obtain ⟨family', hfam', hfits, -, -⟩ := hdescribes.record record hrec
    cases hfam.symm.trans hfam'
    have hcur : ∃ current, decodeStored codecs domain family (now (record.location family))
        = .ok current := by
      rw [hnow family record hlists]
      cases applied
      · exact ⟨old, hold⟩
      · exact ⟨new, hnew⟩
    obtain ⟨current, hcur⟩ := hcur
    exact ⟨_, exists_readRecord (hquiet.readable _) hfits hkey hold hnew hcur⟩
  obtain ⟨side, hside⟩ := exists_reconcileDomain hread
  exact ⟨side, (reconcileDescriptor_eq_ok hdescribes.registered).mpr hside⟩

end

/-- The surroundings in which nothing fails. -/
def ReconciliationEnvironment.quiet : ReconciliationEnvironment :=
  ⟨true, false, none, fun _ => none, false, none⟩

/-- **Reconciliation tells whether the batch was applied**: if nothing fails it answers, and it
gives no other answer. -/
structure Resolves (generation : StoreGeneration) (codecs : ℕ → RecordCodec V) (now : Database)
    (custody : ReconciliationCustody) (applied : Bool) : Prop where
  answered : ∀ surroundings : ReconciliationEnvironment, surroundings.Quiet →
    (reconcile generation codecs surroundings now custody.install).1
      = .ok (exactResolution custody applied)
  only : ∀ surroundings answer,
    (reconcile generation codecs surroundings now custody.install).1 = .ok answer →
      answer = exactResolution custody applied

/-- **Reconciliation is honest about any state**: it answers with a side only if each listed record
has the value of that side, and the receipt is the intended one. -/
structure Honest (generation : StoreGeneration) (codecs : ℕ → RecordCodec V) (now : Database)
    (custody : ReconciliationCustody) : Prop where
  new : ∀ surroundings receipt,
    (reconcile generation codecs surroundings now custody.install).1 = .ok (.exactNew receipt) →
      receipt = custody.receipt ∧ ∀ descriptor ∈ custody.domains, ∀ domain family record,
        Lists generation descriptor domain family record →
          ∃ value, decodeStored codecs domain family (now (record.location family)) = .ok value
            ∧ decodeStored codecs domain family record.new = .ok value
  old : ∀ surroundings,
    (reconcile generation codecs surroundings now custody.install).1 = .ok .exactOld →
      ∀ descriptor ∈ custody.domains, ∀ domain family record,
        Lists generation descriptor domain family record →
          ∃ value, decodeStored codecs domain family (now (record.location family)) = .ok value
            ∧ decodeStored codecs domain family record.old = .ok value

theorem honest (generation : StoreGeneration) (codecs : ℕ → RecordCodec V) (now : Database)
    (custody : ReconciliationCustody) : Honest generation codecs now custody where
  new := fun surroundings receipt h => by
    have hrcpt : receipt = custody.receipt := by
      obtain ⟨execution, hans, -⟩ := reconcile_eq_ok h
      rw [resolution] at hans
      split at hans
      · cases hans
      · exact ReconciliationResolution.exactNew.inj hans
      · split at hans <;> cases hans
    subst hrcpt
    exact ⟨rfl, fun _ hmem _ _ _ => value_of_answer true h hmem⟩
  old := fun surroundings h _ hmem _ _ _ => value_of_answer false h hmem

/-- What tells the two sides of a command apart: all of its listed records can be read, and each
Syndic domain lists one whose values differ. -/
def Distinguishable (generation : StoreGeneration) (codecs : ℕ → RecordCodec V)
    (custody : ReconciliationCustody) : Prop :=
  ∀ descriptor ∈ custody.domains,
    (∀ domain family record, Lists generation descriptor domain family record →
      Legible codecs domain family record)
    ∧ ∀ domain, generation.registry.get descriptor.domainSlot = some domain →
      domain.reconciler = .syndic → HasChange generation codecs descriptor

section

variable
  (hdescribes : ∀ descriptor ∈ custody.domains, ∃ domain,
    Describes generation before batch descriptor domain)
  (hnow : ∀ descriptor ∈ custody.domains, ∀ domain family record,
    Lists generation descriptor domain family record →
      now (record.location family) = record.onSide applied)
include hdescribes hnow

theorem distinguishable_of_resolves (h : Resolves generation codecs now custody applied) :
    Distinguishable generation codecs custody := by
  obtain ⟨execution, hans, hsides⟩ :=
    reconcile_eq_ok (h.answered .quiet ⟨rfl, rfl, rfl, fun _ => rfl, rfl⟩)
  obtain ⟨hall, -⟩ := ordinaryExactSide_eq_some.mp (resolution_eq_exact.mp hans.symm)
  intro descriptor hmem
  obtain ⟨side, hside, hdescr⟩ := exists_right (mapM_eq_ok.mp hsides) hmem
  refine ⟨fun domain family record hlists => ?_, fun domain hreg hsyndic => ?_⟩
  · obtain ⟨reads, -, hreads, -⟩ := reconcileDomain_eq_ok
      ((reconcileDescriptor_eq_ok hlists.registered).mp hdescr)
    obtain ⟨read, -, hread⟩ := hreads record hlists.mem family hlists.family
    obtain ⟨hkey, hold, hnew, -⟩ := readRecord_eq_ok hread
    exact ⟨hkey, ⟨_, hold⟩, ⟨_, hnew⟩⟩
  · by_contra hchange
    obtain ⟨domain', hdesc⟩ := hdescribes descriptor hmem
    cases hreg.symm.trans hdesc.registered
    obtain ⟨-, hcollision⟩ := side_of_descriptor hdesc (hnow descriptor hmem domain) hdescr
    have hcollides := hcollision hchange
    rw [hsyndic] at hcollides
    have hexact := hall side hside
    rw [hcollides] at hexact
    cases applied <;> simp [exactSide] at hexact

theorem resolves_of_distinguishable
    (hchanged : ∃ descriptor ∈ custody.domains, HasChange generation codecs descriptor)
    (h : Distinguishable generation codecs custody) :
    Resolves generation codecs now custody applied := by
  -- whatever the surroundings, the sides of the domains come to the side of the batch
  have hexact : ∀ {surroundings} {sides},
      custody.domains.mapM (reconcileDescriptor generation codecs surroundings now) = .ok sides →
        ordinaryExactSide sides = some (exactSide applied) := by
    intro surroundings sides hsides
    refine ordinaryExactSide_eq_some.mpr ⟨fun side hside => ?_, ?_⟩
    · obtain ⟨descriptor, hmem, hdescr⟩ := exists_left (mapM_eq_ok.mp hsides) hside
      obtain ⟨domain, hdesc⟩ := hdescribes descriptor hmem
      obtain ⟨hchange, hnochange⟩ := side_of_descriptor hdesc (hnow descriptor hmem domain) hdescr
      by_cases hhas : HasChange generation codecs descriptor
      · exact .inl (hchange hhas)
      · have hside := hnochange hhas
        cases hrecon : domain.reconciler with
        | syndic => exact absurd ((h descriptor hmem).2 domain hdesc.registered hrecon) hhas
        | state =>
          rw [hrecon] at hside
          exact .inr hside
    · obtain ⟨descriptor, hmem, hhas⟩ := hchanged
      obtain ⟨domain, hdesc⟩ := hdescribes descriptor hmem
      obtain ⟨side, hside, hdescr⟩ := exists_right (mapM_eq_ok.mp hsides) hmem
      rw [← (side_of_descriptor hdesc (hnow descriptor hmem domain) hdescr).1 hhas]
      exact hside
  refine ⟨fun surroundings hquiet => ?_, fun surroundings answer hans => ?_⟩
  · have hread : ∀ descriptor ∈ custody.domains, ∃ side,
        reconcileDescriptor generation codecs surroundings now descriptor = .ok side := by
      intro descriptor hmem
      obtain ⟨domain, hdesc⟩ := hdescribes descriptor hmem
      exact exists_reconcileDescriptor hdesc (hnow descriptor hmem domain) hquiet
        ((h descriptor hmem).1 domain)
    obtain ⟨sides, hsides⟩ := exists_mapM hread
    obtain ⟨execution, rfl, hans⟩ := reconcile_of_sides hquiet hsides
    rw [hans, resolution_eq_exact.mpr (hexact hsides)]
  · obtain ⟨execution, rfl, hsides⟩ := reconcile_eq_ok hans
    exact resolution_eq_exact.mpr (hexact hsides)

end

end

/-! ## Commands that end indeterminate -/

section

variable {generation : StoreGeneration} {environment : Environment} {before after : Database}
  {failure : CommandError} {custody : ReconciliationCustody} {reservation : CommandReservation}
  {healthGeneration : ℕ} {command : HomeCommand}

/-- What is behind an indeterminate outcome: a batch that was applied or was not. -/
def Undecided (generation : StoreGeneration) (environment : Environment) (before after : Database)
    (custody : ReconciliationCustody) : Prop :=
  ∃ healthGeneration reservation command batch,
    Nonempty (Passes generation environment healthGeneration reservation command before custody
      batch)
      ∧ after = if environment.commit.applied then Batch.commit before batch else before

theorem undecided_executeAdmitted
    (h : executeAdmitted generation environment healthGeneration reservation command before
      = (.indeterminate failure custody, after)) :
    Undecided generation environment before after custody := by
  rw [executeAdmitted] at h
  rcases hprep : prepareCommit generation environment healthGeneration reservation command before
    with evidence | ⟨custody', batch⟩
  · simp [hprep] at h
  · rw [hprep] at h
    obtain ⟨hout, hafter⟩ := Prod.mk.inj h
    obtain rfl : custody' = custody := by
      rcases commitOutcome_cases environment custody' with ⟨later, h, -⟩ | ⟨e, h, -⟩ | ⟨e, h⟩ <;>
        rw [h] at hout
      · cases hout
      · cases hout
      · exact (CommandOutcome.indeterminate.inj hout).2
    exact ⟨_, _, _, _, prepareCommit_eq_ok hprep, hafter.symm⟩

theorem undecided_executeSerialized {operation : ℕ → CommandOutcome × Database}
    (h : executeSerialized environment before operation = (.indeterminate failure custody, after)) :
    ∃ healthGeneration, operation healthGeneration = (.indeterminate failure custody, after) := by
  rw [executeSerialized] at h
  split at h
  · cases h
  · next healthGeneration _ =>
    refine ⟨healthGeneration, ?_⟩
    rcases hop : operation healthGeneration with ⟨_ | ⟨receipt, _ | later⟩ | _, db⟩ <;>
      rw [hop] at h
    · exact h
    · cases h
    · exact h
    · exact h

theorem undecided_execute {submission : Submission}
    (h : submission.execute generation environment before =
        (.indeterminate failure custody, after)) :
    Undecided generation environment before after custody := by
  cases submission with
  | home command =>
    rw [Submission.execute, execute] at h
    split at h
    · cases h
    · obtain ⟨healthGeneration, h⟩ := undecided_executeSerialized h
      exact undecided_executeAdmitted h
  | current command =>
    rw [Submission.execute, executeCurrentHome] at h
    split at h
    · cases h
    · obtain ⟨healthGeneration, h⟩ := undecided_executeSerialized h
      rw [executeCurrentHomeAdmitted] at h
      split at h
      · cases h
      · exact undecided_executeAdmitted h

/-- What a listed record has when the writer is done: its value on the side of the batch. -/
theorem after_of_lists {batch : Writes}
    (hpasses : Passes generation environment healthGeneration reservation command before custody
      batch)
    (hafter : after = if applied then Batch.commit before batch else before)
    (hmem : descriptor ∈ custody.domains) {family : RegisteredFamily}
    (hlists : Lists generation descriptor domain family record) :
    after (record.location family) = record.onSide applied := by
  obtain ⟨domain', hdesc⟩ := hpasses.describes hmem
  cases hlists.registered.symm.trans hdesc.registered
  obtain ⟨family', hfam', -, hold, hnew⟩ := hdesc.record record hlists.mem
  cases hlists.family.symm.trans hfam'
  subst hafter
  cases applied
  · exact hold
  · exact Batch.commit_of_mem hpasses.intends.nodup hnew

/-- **Reconciliation tells the truth.**  A command has ended indeterminate, its batch was applied or
was not, and nothing has written its listed records since; one of them has different values on the
two sides.  Then reconciliation tells whether the batch was applied exactly when every listed record
can be read by its codec and every Syndic domain lists a record whose values differ.  And in any
state it answers with a side only if every listed record has the value of that side. -/
theorem reconcile_truthful {V : Type} [DecidableEq V] (codecs : ℕ → RecordCodec V)
    {submission : Submission} {now : Database}
    (houtcome : submission.execute generation environment before
      = (.indeterminate failure custody, after))
    (hchanged : ∃ descriptor ∈ custody.domains, HasChange generation codecs descriptor)
    (huntouched : ∀ descriptor ∈ custody.domains, ∀ domain family record,
      Lists generation descriptor domain family record →
        now (record.location family) = after (record.location family)) :
    (Resolves generation codecs now custody environment.commit.applied
        ↔ Distinguishable generation codecs custody)
      ∧ ∀ anyState, Honest generation codecs anyState custody := by
  obtain ⟨healthGeneration, reservation, command, batch, ⟨hpasses⟩, hafter⟩ :=
    undecided_execute houtcome
  have hnow : ∀ descriptor ∈ custody.domains, ∀ domain family record,
      Lists generation descriptor domain family record →
        now (record.location family) = record.onSide environment.commit.applied :=
    fun descriptor hmem domain family record hlists =>
      (huntouched descriptor hmem domain family record hlists).trans
        (after_of_lists hpasses hafter hmem hlists)
  have hdescribes := fun descriptor (hmem : descriptor ∈ custody.domains) => hpasses.describes hmem
  exact ⟨⟨distinguishable_of_resolves hdescribes hnow,
    resolves_of_distinguishable hdescribes hnow hchanged⟩, fun anyState => honest ..⟩

end

/-! ## A domain that is only rewritten

A command of the home with two domains gives the record of the Syndic domain a payload, and the
engine applies the batch without telling. -/

namespace Rewritten

open TwoDomains

/-- The commit is not reported. -/
def environment : Environment := TwoDomains.environment (.indeterminate ⟨"lost"⟩ true)

/-- What the command leaves behind. -/
def custody (payload : Bytes) : ReconciliationCustody where
  domains :=
    [⟨0, second, [⟨0, [1], some [0, 0, 0, 1, 5], some ([0, 0, 0, 1] ++ payload)⟩]⟩,
      ⟨1, second, [⟨0, [1], none, some [0, 0, 0, 1, 7]⟩]⟩]
  receipt := TwoDomains.receipt
  successor := none

/-- The codecs take every payload as it is. -/
def codecs : ℕ → RecordCodec Bytes := fun _ => ⟨fun _ => true, some⟩

/-- What it leaves stored. -/
def after (payload : Bytes) : Database :=
  (execute generation environment (command payload) before).2

variable {payload : Bytes}

theorem hasChange_state :
    ∃ descriptor ∈ (custody payload).domains, HasChange generation codecs descriptor := by
  refine ⟨_, mem_cons_of_mem _ (mem_singleton_self _), state, _, _,
    ⟨rfl, mem_singleton_self _, rfl⟩, fun hsame => ?_⟩
  exact absurd (Option.some.inj (congrArg Except.toOption hsame)) (by decide)

theorem lists_syndic (hmem : descriptor ∈ (custody payload).domains)
    (hreg : generation.registry.get descriptor.domainSlot = some domain) :
    (descriptor.records = [⟨0, [1], some [0, 0, 0, 1, 5], some ([0, 0, 0, 1] ++ payload)⟩]
        ∧ domain = syndic)
      ∨ (descriptor.records = [⟨0, [1], none, some [0, 0, 0, 1, 7]⟩] ∧ domain = state) := by
  rcases mem_cons.mp hmem with rfl | hmem
  · exact .inl ⟨rfl, (Option.some.inj hreg).symm⟩
  · obtain rfl := mem_singleton.mp hmem
    exact .inr ⟨rfl, (Option.some.inj hreg).symm⟩

theorem distinguishable_six : Distinguishable generation codecs (custody [6]) := by
  refine fun descriptor hmem => ⟨fun domain family record hlists => ?_,
    fun domain hreg hsyndic => ?_⟩
  · obtain ⟨hreg, hrec, hfam⟩ := hlists
    obtain ⟨hrecs, rfl⟩ | ⟨hrecs, rfl⟩ := lists_syndic hmem hreg <;>
      (rw [hrecs, mem_singleton] at hrec
       subst hrec
       cases hfam)
    · exact ⟨rfl, ⟨some [5], rfl⟩, ⟨some [6], rfl⟩⟩
    · exact ⟨rfl, ⟨none, rfl⟩, ⟨some [7], rfl⟩⟩
  · obtain ⟨hrecs, rfl⟩ | ⟨-, rfl⟩ := lists_syndic hmem hreg
    · refine ⟨syndic, _, _, ⟨hreg, hrecs ▸ mem_singleton_self _, rfl⟩, fun hsame => ?_⟩
      exact absurd (Option.some.inj (congrArg Except.toOption hsame)) (by decide)
    · cases hsyndic

theorem reconcile_truthful_changed :
    (Submission.home (command [6])).execute generation environment before
        = (.indeterminate (.commit ⟨"lost"⟩) (custody [6]), after [6])
      ∧ Resolves generation codecs (after [6]) (custody [6]) true := by
  have houtcome : (Submission.home (command [6])).execute generation environment before
      = (.indeterminate (.commit ⟨"lost"⟩) (custody [6]), after [6]) :=
    Prod.ext (by decide +kernel) rfl
  exact ⟨houtcome, (reconcile_truthful codecs houtcome hasChange_state
    (fun _ _ _ _ _ _ => rfl)).1.mpr distinguishable_six⟩

/-- **A Syndic domain that is only rewritten hides the side of the command.**  The Syndic record
already has the payload that the command puts, the other domain changes, the batch is applied and
nothing else is written: reconciliation answers with a collision. -/
theorem reconcile_rewritten :
    (Submission.home (command [5])).execute generation environment before
        = (.indeterminate (.commit ⟨"lost"⟩) (custody [5]), after [5])
      ∧ environment.commit.applied = true ∧ (custody [5]).successor = none
      ∧ (∃ descriptor ∈ (custody [5]).domains, HasChange generation codecs descriptor)
      ∧ (reconcile generation codecs .quiet (after [5]) (custody [5]).install).1.toOption
        = some .collision :=
  ⟨Prod.ext (by decide +kernel) rfl, rfl, rfl, hasChange_state, by decide +kernel⟩

end Rewritten

end Beryl.Home
