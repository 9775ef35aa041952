import Beryl.Jobs.Mutation

/-!
# Jobs/Validate — what the validator of the stored jobs accepts

The validator scans each keyspace in order, a page at a time, and checks every entry it sees against
the others.  **It accepts exactly the coherent stores** (`validate_eq_ok`).
-/

namespace Beryl.Jobs

open Fallible Home Keyspace List DiscussionAttemptKey Revision BranchHandoffJobRecord

/-- Why a store is refused. -/
inductive DurableJobValidationError
  | invariant (message : String)
  | attemptOrdinalExhausted
deriving DecidableEq

/-- What a check gives. -/
abbrev Validated (α : Type) := Except DurableJobValidationError α

/-! ## The validator -/

section

variable (store : JobStore)

/-- A job that is referred to. -/
def validatedJob (jobId : JobId) : Validated BranchHandoffJobRecord :=
  required (.invariant "durable job index references a missing authoritative record")
    store.records[jobId]?

/-- The index names this attempt. -/
def ensureLatest (job : BranchHandoffJobRecord) : Validated Unit :=
  ensure (store.latest[job.discussionThreadId]? = some (.fromJob job))
    (.invariant "discussion latest-attempt index does not name its final attempt")

/-- A job and its entries. -/
def validateRecord (entry : JobId × BranchHandoffJobRecord) : Validated Unit := do
  let job := entry.2
  ensure (entry.1 = job.jobId) (.invariant "job record key does not match its job identity")
  ensure (store.requests[job.request]? = some (.fromJob job))
    (.invariant "job request-idempotency index is missing or mismatched")
  ensure (store.attempts[job.attemptKey]? = some job.jobId)
    (.invariant "job discussion-attempt index is missing or mismatched")
  let latest ← required (.invariant "job discussion has no latest-attempt index")
    store.latest[job.discussionThreadId]?
  ensure (job.attemptOrdinal.get ≤ latest.attemptOrdinal.get)
    (.invariant "job attempt is later than its discussion latest-attempt index")
  ensure (¬ (latest.attemptOrdinal = job.attemptOrdinal ∧ latest.jobId ≠ job.jobId))
    (.invariant "latest attempt ordinal maps to a different job")
  if job.isLive then do
    ensure (store.live[job.jobId]? = some job)
      (.invariant "live job index is missing or differs from its record")
    ensure (latest.jobId = job.jobId) (.invariant "a non-latest discussion attempt remains live")
  else
    ensure (store.live[job.jobId]? = none)
      (.invariant "terminal job remains present in the live-job index")

/-- An entry of a live job. -/
def validateLiveEntry (entry : JobId × BranchHandoffJobRecord) : Validated Unit := do
  ensure (entry.1 = entry.2.jobId ∧ entry.2.isLive = true)
    (.invariant "live-job index contains an invalid job entry")
  ensure (store.records[entry.1]? = some entry.2)
    (.invariant "live-job index differs from its authoritative record")

/-- An entry of a request. -/
def validateRequest (entry : ResolutionRequestIdentity × ResolutionRequestAdmission) :
    Validated Unit := do
  let job ← validatedJob store entry.2.jobId
  ensure (job.request = entry.1 ∧ ResolutionRequestAdmission.fromJob job = entry.2)
    (.invariant "request-idempotency entry differs from its job admission")

/-- The place of an attempt after the one that the scan saw before it. -/
def validateSuccession (job : BranchHandoffJobRecord) :
    Option BranchHandoffJobRecord → Validated Unit
  | some previous =>
    if previous.discussionThreadId = job.discussionThreadId then do
      ensure (previous.lifecycle = .terminalFailed)
        (.invariant "a later discussion attempt follows a non-terminal-failed attempt")
      let expected ← previous.attemptOrdinal.checkedNext.mapError fun _ => .attemptOrdinalExhausted
      ensure (job.attemptOrdinal = expected)
        (.invariant "discussion attempt ordinals are not contiguous")
    else do
      ensureLatest store previous
      ensure (job.attemptOrdinal = firstAttempt)
        (.invariant "a discussion's first attempt ordinal is not one")
  | none => ensure (job.attemptOrdinal = firstAttempt)
      (.invariant "a discussion's first attempt ordinal is not one")

/-- The scan of the attempts, behind the attempt it saw last. -/
def validateAttemptsFrom (previous : Option BranchHandoffJobRecord) :
    List (DiscussionAttemptKey × JobId) → Validated Unit
  | [] => match previous with
    | some previous => ensureLatest store previous
    | none => .ok ()
  | (key, jobId) :: rest => do
    let job ← validatedJob store jobId
    ensure (job.discussionThreadId = key.discussionThreadId
      ∧ job.attemptOrdinal = key.attemptOrdinal)
      (.invariant "discussion-attempt entry differs from its job record")
    validateSuccession store job previous
    validateAttemptsFrom (some job) rest

/-- All attempts in order. -/
def validateAttemptOrder : Validated Unit :=
  validateAttemptsFrom store none store.attempts.toList

/-- An entry of a latest attempt. -/
def validateLatestEntry (entry : SyndicThreadId × LatestBranchHandoffAttempt) : Validated Unit := do
  let job ← validatedJob store entry.2.jobId
  ensure (job.discussionThreadId = entry.1 ∧ job.attemptOrdinal = entry.2.attemptOrdinal)
    (.invariant "latest-attempt entry differs from its job record")
  ensure (store.attempts[(⟨entry.1, entry.2.attemptOrdinal⟩ : DiscussionAttemptKey)]?
      = some entry.2.jobId)
    (.invariant "latest attempt is missing from ordered attempt index")

/-- The validator. -/
def validate : Validated Unit := do
  store.records.toList.forM (validateRecord store)
  store.live.toList.forM (validateLiveEntry store)
  store.requests.toList.forM (validateRequest store)
  validateAttemptOrder store
  store.latest.toList.forM (validateLatestEntry store)

end

variable {previous : Option BranchHandoffJobRecord} {u : Unit}

theorem validateSuccession_eq_ok {store : JobStore} {job : BranchHandoffJobRecord} :
    validateSuccession store job previous = .ok u ↔ (job.attemptOrdinal = firstAttempt
        ∧ ∀ prior, previous = some prior → prior.discussionThreadId ≠ job.discussionThreadId
          ∧ store.latest[prior.discussionThreadId]? = some (.fromJob prior))
      ∨ ∃ prior, previous = some prior ∧ prior.discussionThreadId = job.discussionThreadId
        ∧ prior.lifecycle = .terminalFailed
        ∧ job.attemptOrdinal.get = prior.attemptOrdinal.get + 1 := by
  cases previous with
  | none => simp [validateSuccession]
  | some prior =>
    rw [validateSuccession]
    split
    · next hsame =>
      have hnext : (prior.attemptOrdinal.checkedNext.mapError fun _ =>
          DurableJobValidationError.attemptOrdinalExhausted) = .ok job.attemptOrdinal
            ↔ job.attemptOrdinal.get = prior.attemptOrdinal.get + 1 :=
        mapError_eq_ok.trans ⟨checkedNext_eq_ok, checkedNext_of_lt⟩
      simp [hsame, bind_eq_ok, hnext]
    · next hother => simp [hother, bind_eq_ok, ensureLatest, and_comm]

/-! ## Coherent stores -/

/-- A job among the attempts of a discussion. -/
structure Attempt (store : JobStore) (key : DiscussionAttemptKey) (job : BranchHandoffJobRecord) :
    Prop where
  indexed : store.attempts[key]? = some job.jobId
  stored : store.records[job.jobId]? = some job
  key : job.attemptKey = key

/-- **A coherent store**: its indices agree with its records, and the attempts of each discussion
are numbered without a gap behind attempts that failed for good. -/
structure Coherent (store : JobStore) : Prop where
  record : ∀ (id : JobId) (job : BranchHandoffJobRecord), store.records[id]? = some job →
    job.jobId = id
    ∧ store.requests[job.request]? = some (.fromJob job) ∧ Attempt store job.attemptKey job
    ∧ store.live[id]? = if job.isLive then some job else none
  live : ∀ (id : JobId) (job : BranchHandoffJobRecord), store.live[id]? = some job →
    store.records[id]? = some job ∧ job.isLive = true
  request : ∀ request admission, store.requests[request]? = some admission →
    ∃ job, store.records[admission.jobId]? = some job ∧ job.request = request
      ∧ ResolutionRequestAdmission.fromJob job = admission
  attempt : ∀ key id, store.attempts[key]? = some id → ∃ job, Attempt store key job
  /-- Before an attempt that is not the first there is one that failed for good. -/
  preceded : ∀ key job, Attempt store key job → key.attemptOrdinal = firstAttempt
    ∨ ∃ previous prior, previous.discussionThreadId = key.discussionThreadId
      ∧ key.attemptOrdinal.get = previous.attemptOrdinal.get + 1
      ∧ Attempt store previous prior ∧ prior.lifecycle = .terminalFailed
  latest : ∀ discussion entry, store.latest[discussion]? = some entry →
    ∃ job, Attempt store ⟨discussion, entry.attemptOrdinal⟩ job ∧ job.jobId = entry.jobId
  last : ∀ key job, Attempt store key job → ∃ entry,
    store.latest[key.discussionThreadId]? = some entry
      ∧ key.attemptOrdinal.get ≤ entry.attemptOrdinal.get

/-! ## What a passed scan says -/

section

variable {store : JobStore}

/-- What the scan of the attempts establishes for what it has still to see. -/
structure ScanFacts (store : JobStore) (previous : Option BranchHandoffJobRecord)
    (rest : List (DiscussionAttemptKey × JobId)) : Prop where
  attempt : ∀ key id, (key, id) ∈ rest → ∃ job, store.records[id]? = some job ∧ job.attemptKey = key
  preceded : ∀ key id, (key, id) ∈ rest → key.attemptOrdinal = firstAttempt
    ∨ ∃ prior : BranchHandoffJobRecord, prior.discussionThreadId = key.discussionThreadId
      ∧ key.attemptOrdinal.get = prior.attemptOrdinal.get + 1 ∧ prior.lifecycle = .terminalFailed
      ∧ (previous = some prior ∨ ∃ id', (prior.attemptKey, id') ∈ rest
        ∧ store.records[id']? = some prior)
  last : ∀ key, (previous.map (·.attemptKey) = some key ∨ ∃ id, (key, id) ∈ rest) → ∃ entry,
    store.latest[key.discussionThreadId]? = some entry
      ∧ key.attemptOrdinal.get ≤ entry.attemptOrdinal.get

theorem validateAttemptsFrom_eq_ok : ∀ {rest} {previous : Option BranchHandoffJobRecord} {u : Unit},
    validateAttemptsFrom store previous rest = .ok u → ScanFacts store previous rest
  | [], previous, _, h => by
    refine ⟨fun _ _ hmem => absurd hmem not_mem_nil, fun _ _ hmem => absurd hmem not_mem_nil,
      fun key hkey => ?_⟩
    rcases hkey with hkey | ⟨_, hmem⟩
    · cases previous with
      | none => cases hkey
      | some previous =>
        cases hkey
        exact ⟨_, ensure_eq_ok.mp h, Nat.le_refl _⟩
    · exact absurd hmem not_mem_nil
  | (key, id) :: rest, previous, _, h => by
    obtain ⟨job, hjob, h₁⟩ := bind_eq_ok.mp h
    obtain ⟨_, hkey, h₂⟩ := bind_eq_ok.mp h₁
    obtain ⟨_, hsucc, h₃⟩ := bind_eq_ok.mp h₂
    have hplace := validateSuccession_eq_ok.mp hsucc
    have hrec := required_eq_ok.mp hjob
    have hkey : job.attemptKey = key := by
      obtain ⟨hthr, hord⟩ := ensure_eq_ok.mp hkey
      rw [attemptKey, hthr, hord]
    subst hkey
    obtain ⟨hatt, hpreceded, hlast⟩ := validateAttemptsFrom_eq_ok h₃
    refine ⟨fun key' id' hmem => ?_, fun key' id' hmem => ?_, fun key' hkey' => ?_⟩
    · rcases mem_cons.mp hmem with hhead | hmem
      · cases hhead
        exact ⟨job, hrec, rfl⟩
      · exact hatt key' id' hmem
    · rcases mem_cons.mp hmem with hhead | hmem
      · cases hhead
        rcases hplace with ⟨hfirst, -⟩ | ⟨prior, hprior, hsame, hfailed, hnext⟩
        · exact .inl hfirst
        · exact .inr ⟨prior, hsame, hnext, hfailed, .inl hprior⟩
      · rcases hpreceded key' id' hmem with hfirst | ⟨prior, hthr, hnext, hfailed, hseen⟩
        · exact .inl hfirst
        · refine .inr ⟨prior, hthr, hnext, hfailed, .inr ?_⟩
          rcases hseen with hprev | ⟨id'', hmem'', hstored⟩
          · cases hprev
            exact ⟨id, mem_cons_self, hrec⟩
          · exact ⟨id'', .tail _ hmem'', hstored⟩
    · -- the attempt seen before the head is not after it, or is the last of its discussion
      obtain ⟨entry, hentry, hle⟩ := hlast job.attemptKey (.inl rfl)
      rcases hkey' with hprev | ⟨id', hmem⟩
      · obtain ⟨previous, rfl, rfl⟩ := Option.map_eq_some_iff.mp hprev
        rcases hplace with ⟨-, hother⟩ | ⟨prior, hprior, hsame, -, hnext⟩
        · exact ⟨_, (hother previous rfl).2, Nat.le_refl _⟩
        · cases hprior
          refine ⟨entry, (congrArg (store.latest[·]?) hsame).trans hentry, ?_⟩
          change previous.attemptOrdinal.get ≤ entry.attemptOrdinal.get
          change job.attemptOrdinal.get ≤ entry.attemptOrdinal.get at hle
          omega
      · rcases mem_cons.mp hmem with hhead | hmem
        · cases hhead
          exact ⟨entry, hentry, hle⟩
        · exact hlast key' (.inr ⟨id', hmem⟩)

/-- **An accepted store is coherent.** -/
theorem coherent_of_validate (h : validate store = .ok u) : Coherent store := by
  simp only [validate, bind_eq_ok] at h
  obtain ⟨_, hrecs, _, hlives, _, hreqs, _, hatts, hlatests⟩ := h
  obtain ⟨hatt, hpreceded, hlast⟩ := validateAttemptsFrom_eq_ok hatts
  have hrec : ∀ (id : JobId) (job : BranchHandoffJobRecord), store.records[id]? = some job →
      job.jobId = id ∧ store.requests[job.request]? = some (.fromJob job)
        ∧ store.attempts[job.attemptKey]? = some job.jobId
        ∧ store.live[id]? = if job.isLive then some job else none := by
    intro id job hjob
    have hentry := forM_eq_ok.mp hrecs (id, job) (mem_scan.mpr hjob)
    simp only [validateRecord, bind_eq_ok, ensure_eq_ok] at hentry
    obtain ⟨_, rfl, _, hreq, _, hidx, _, -, _, -, _, -, hentry⟩ := hentry
    refine ⟨rfl, hreq, hidx, ?_⟩
    split at hentry
    · next hlive =>
      obtain ⟨_, hindex, -⟩ := bind_eq_ok.mp hentry
      rw [if_pos hlive]
      exact ensure_eq_ok.mp hindex
    · next hlive =>
      rw [if_neg hlive]
      exact ensure_eq_ok.mp hentry
  have hplace : ∀ {key} {id}, store.attempts[key]? = some id →
      ∃ job, Attempt store key job ∧ job.jobId = id := by
    intro key id hid
    obtain ⟨job, hstored, rfl⟩ := hatt key id (mem_scan.mpr hid)
    obtain ⟨rfl, -, -, -⟩ := hrec id job hstored
    exact ⟨job, ⟨hid, hstored, rfl⟩, rfl⟩
  refine ⟨fun id job hjob => ?_, fun id job hjob => ?_, fun request admission hadm => ?_,
    fun key id hid => ?_, fun key job hjob => ?_, fun discussion entry hentry => ?_,
    fun key job hjob => hlast key (.inr ⟨_, mem_scan.mpr hjob.indexed⟩)⟩
  · obtain ⟨rfl, hreq, hidx, hlive⟩ := hrec id job hjob
    exact ⟨rfl, hreq, ⟨hidx, hjob, rfl⟩, hlive⟩
  · have hentry := forM_eq_ok.mp hlives (id, job) (mem_scan.mpr hjob)
    obtain ⟨_, hlive, hstored⟩ := bind_eq_ok.mp hentry
    exact ⟨ensure_eq_ok.mp hstored, (ensure_eq_ok.mp hlive).2⟩
  · have hentry := forM_eq_ok.mp hreqs (request, admission) (mem_scan.mpr hadm)
    obtain ⟨job, hjob, hmatch⟩ := bind_eq_ok.mp hentry
    obtain ⟨hreq, hfrom⟩ := ensure_eq_ok.mp hmatch
    exact ⟨job, required_eq_ok.mp hjob, hreq, hfrom⟩
  · obtain ⟨job, hjob, -⟩ := hplace hid
    exact ⟨job, hjob⟩
  · rcases hpreceded key job.jobId (mem_scan.mpr hjob.indexed) with
      hfirst | ⟨prior, hthr, hnext, hfailed, hprior | ⟨id, hmem, hstored⟩⟩
    · exact .inl hfirst
    · cases hprior
    · have hidx := mem_scan.mp hmem
      obtain ⟨rfl, -, -, -⟩ := hrec id prior hstored
      exact .inr ⟨prior.attemptKey, prior, hthr, hnext, ⟨hidx, hstored, rfl⟩, hfailed⟩
  · have hchecked := forM_eq_ok.mp hlatests (discussion, entry) (mem_scan.mpr hentry)
    obtain ⟨_, -, c₁⟩ := bind_eq_ok.mp hchecked
    obtain ⟨_, -, c₂⟩ := bind_eq_ok.mp c₁
    exact hplace (ensure_eq_ok.mp c₂)

end

/-! ## Attempts of a coherent store -/

section

variable {store : JobStore} {key : DiscussionAttemptKey} {job : BranchHandoffJobRecord}

theorem Attempt.unique {job' : BranchHandoffJobRecord} (h : Attempt store key job)
    (h' : Attempt store key job') : job = job' := by
  have hid := Option.some.inj (h.indexed.symm.trans h'.indexed)
  have hstored := h.stored
  rw [hid, h'.stored] at hstored
  exact (Option.some.inj hstored).symm

/-- **Before an attempt there are all the earlier ones, and they have failed for good.** -/
theorem Coherent.earlier (h : Coherent store) {discussion : SyndicThreadId} :
    ∀ {later earlier} {job}, Attempt store ⟨discussion, later⟩ job → earlier.get < later.get →
        ∃ prior, Attempt store ⟨discussion, earlier⟩ prior ∧ prior.lifecycle = .terminalFailed := by
  intro later
  induction hn : later.get generalizing later with
  | zero =>
    intro earlier job _ hlt
    exact absurd hlt (Nat.not_lt_zero _)
  | succ n ih =>
    intro earlier job hjob hlt
    rcases h.preceded _ job hjob with hfirst |
      ⟨⟨thread, previous⟩, prior, hthr, hnext, hprior, hfailed⟩
    · change later = firstAttempt at hfirst
      subst hfirst
      have hpos := earlier.pos
      change 1 = n + 1 at hn
      omega
    · change thread = discussion at hthr
      change later.get = previous.get + 1 at hnext
      subst hthr
      rcases Nat.lt_or_ge earlier.get previous.get with hless | hge
      · exact ih (by omega) hprior (by omega)
      · obtain rfl : previous = earlier := eq_of_get (by omega)
        exact ⟨prior, hprior, hfailed⟩

/-- The latest-attempt index names the attempt that none follows. -/
theorem Coherent.latest_eq (h : Coherent store) (hjob : Attempt store key job)
    (hlast : ∀ later job',
      Attempt store ⟨key.discussionThreadId, later⟩ job' → later.get ≤ key.attemptOrdinal.get) :
    store.latest[job.discussionThreadId]? = some (.fromJob job) := by
  obtain ⟨entry, hentry, hle⟩ := h.last key job hjob
  obtain ⟨job', hjob', hid⟩ := h.latest _ entry hentry
  have hord : entry.attemptOrdinal = key.attemptOrdinal :=
    eq_of_get (Nat.le_antisymm (hlast _ job' hjob') hle)
  have hkey := hjob.key
  rw [hord] at hjob'
  obtain rfl := hjob.unique hjob'
  subst hkey
  change store.latest[job.discussionThreadId]? = some entry at hentry
  rw [hentry, LatestBranchHandoffAttempt.fromJob, hid]
  change entry.attemptOrdinal = job.attemptOrdinal at hord
  rw [← hord]

/-- What a scan has behind it: nothing, or an attempt that it saw last. -/
inductive Behind (store : JobStore) :
    List (DiscussionAttemptKey × JobId) → Option BranchHandoffJobRecord → Prop
  | nothing : Behind store [] none
  | attempt {front : List (DiscussionAttemptKey × JobId)} {key : DiscussionAttemptKey}
    {job : BranchHandoffJobRecord} (h : Attempt store key job) :
    Behind store (front ++ [(key, job.jobId)]) (some job)

/-- The place of the next attempt of a scan is right. -/
theorem Coherent.validateSuccession_ok (h : Coherent store)
    {front rest : List (DiscussionAttemptKey × JobId)} (hjob : Attempt store key job)
    (hscan : store.attempts.toList = front ++ (key, job.jobId) :: rest)
    (hbehind : Behind store front previous) : validateSuccession store job previous = .ok () := by
  obtain rfl := hjob.key
  refine validateSuccession_eq_ok.mpr ?_
  rcases h.preceded _ job hjob with hfirst | ⟨before, prior, hthr, hnext, hprior, hfailed⟩
  · refine .inl ⟨hfirst, fun previous hprev => ?_⟩
    cases hbehind with
    | nothing => cases hprev
    | @attempt front key last hlast =>
      obtain rfl := Option.some.inj hprev
      obtain rfl := hlast.key
      have hup := DiscussionAttemptKey.compare_eq_lt.mp ((scan_cut hscan).1 _ mem_concat_self)
      have hpos := last.attemptOrdinal.pos
      have hord : job.attemptOrdinal.get = 1 := congrArg Revision.get hfirst
      have hthreads : last.discussionThreadId < job.discussionThreadId :=
        hup.resolve_right fun hsame => absurd hsame.2 (by
          change ¬ last.attemptOrdinal.get < job.attemptOrdinal.get
          omega)
      refine ⟨Nat.ne_of_lt hthreads,
        h.latest_eq hlast fun later job' hjob' => Nat.le_of_not_lt fun hlt => ?_⟩
      -- a later attempt of the discussion left would come behind the head, whose is greater
      rw [append_assoc, singleton_append] at hscan
      have hmem := (mem_scan_cut hscan hjob'.indexed).2
        (compare_eq_lt.mpr (.inr ⟨rfl, hlt⟩))
      rcases mem_cons.mp hmem with heq | hmem
      · exact Nat.ne_of_lt hthreads (congrArg (·.1.discussionThreadId) heq)
      · rw [append_cons] at hscan
        rcases DiscussionAttemptKey.compare_eq_lt.mp ((scan_cut hscan).2 _ hmem) with hlt | ⟨heq, -⟩
        · exact Nat.lt_asymm hthreads hlt
        · exact Nat.ne_of_gt hthreads heq
  · obtain rfl := hprior.key
    have hmem := (mem_scan_cut hscan hprior.indexed).1
      (compare_eq_lt.mpr (.inr ⟨hthr, hnext ▸ Nat.lt_succ_self _⟩))
    refine .inr ⟨prior, ?_, hthr, hfailed, hnext⟩
    cases hbehind with
    | nothing => cases hmem
    | @attempt front key last hlast =>
      obtain rfl := hlast.key
      rcases mem_append.mp hmem with hmem | hmem
      · -- no key lies between those of two attempts in a row
        have hafter := DiscussionAttemptKey.compare_eq_lt.mp ((scan_cut hscan).1 _ mem_concat_self)
        rw [append_assoc, singleton_append] at hscan
        have hbefore := DiscussionAttemptKey.compare_eq_lt.mp ((scan_cut hscan).1 _ hmem)
        simp only [attemptKey, SyndicThreadId] at hafter hbefore hthr hnext
        omega
      · obtain ⟨hkey, -⟩ := Prod.mk.inj (mem_singleton.mp hmem)
        rw [hkey] at hprior
        rw [hprior.unique hlast]

theorem Coherent.validateAttemptsFrom_ok (h : Coherent store) : ∀ {rest front} {previous},
      store.attempts.toList = front ++ rest → Behind store front previous →
        validateAttemptsFrom store previous rest = .ok ()
  | [], front, previous, hscan, hbehind => by
    cases hbehind with
    | nothing => rfl
    | attempt hjob =>
      rw [append_nil] at hscan
      refine ensure_true (h.latest_eq hjob fun later job' hjob' => Nat.le_of_not_lt fun hlt => ?_)
      cases (mem_scan_cut hscan hjob'.indexed).2
        (compare_eq_lt.mpr (.inr ⟨rfl, hlt⟩))
  | (key, id) :: rest, front, previous, hscan, hbehind => by
    have hidx : store.attempts[key]? = some id :=
      mem_scan.mp (hscan ▸ mem_append_right _ mem_cons_self)
    obtain ⟨job, hjob⟩ := h.attempt key id hidx
    cases hjob.indexed.symm.trans hidx
    have hsucc := h.validateSuccession_ok hjob hscan hbehind
    have hrest : validateAttemptsFrom store (some job) rest = .ok () :=
      h.validateAttemptsFrom_ok
        (hscan.trans (append_cons front (key, job.jobId) rest)) (.attempt hjob)
    have hkey := hjob.key
    subst hkey
    rw [validateAttemptsFrom, validatedJob, hjob.stored, required_bind,
      ensure_bind ⟨rfl, rfl⟩, hsucc, ok_bind, hrest]

/-- **A coherent store is accepted.** -/
theorem validate_of_coherent (h : Coherent store) : validate store = .ok () := by
  have hrecs : store.records.toList.forM (validateRecord store) = .ok () := by
    refine forM_eq_ok.mpr fun ⟨id, job⟩ hmem => ?_
    obtain ⟨rfl, hreq, hatt, hlive⟩ := h.record id job (mem_scan.mp hmem)
    obtain ⟨entry, hentry, hle⟩ := h.last _ job hatt
    obtain ⟨last, hlast, hid⟩ := h.latest _ entry hentry
    have hsame : entry.attemptOrdinal = job.attemptOrdinal → entry.jobId = job.jobId := by
      intro heq
      rw [heq] at hlast
      rw [← hid, hlast.unique hatt]
    have hnotlive : job.isLive = true → entry.jobId = job.jobId := by
      intro hjob
      rcases Nat.lt_or_eq_of_le hle with hlt | heq
      · obtain ⟨prior, hprior, hfailed⟩ := h.earlier hlast hlt
        obtain rfl := hprior.unique hatt
        rw [isLive, hfailed] at hjob
        cases hjob
      · exact hsame (eq_of_get heq.symm)
    have hdiffer : ¬ (entry.attemptOrdinal = job.attemptOrdinal ∧ entry.jobId ≠ job.jobId) :=
      fun hne => hne.2 (hsame hne.1)
    change store.latest[job.discussionThreadId]? = some entry at hentry
    change job.attemptOrdinal.get ≤ entry.attemptOrdinal.get at hle
    rw [validateRecord]
    dsimp only
    rw [ensure_bind rfl, ensure_bind hreq, ensure_bind hatt.indexed,
      hentry, required_bind, ensure_bind hle, ensure_bind hdiffer]
    split
    · next hjob =>
      rw [if_pos hjob] at hlive
      rw [ensure_bind hlive, ensure_true (hnotlive hjob)]
    · next hjob =>
      rw [if_neg hjob] at hlive
      exact ensure_true hlive
  have hlives : store.live.toList.forM (validateLiveEntry store) = .ok () := by
    refine forM_eq_ok.mpr fun ⟨id, job⟩ hmem => ?_
    obtain ⟨hstored, hlive⟩ := h.live id job (mem_scan.mp hmem)
    rw [validateLiveEntry, ensure_bind ⟨(h.record id job hstored).1.symm, hlive⟩,
      ensure_true hstored]
  have hreqs : store.requests.toList.forM (validateRequest store) = .ok () := by
    refine forM_eq_ok.mpr fun ⟨request, admission⟩ hmem => ?_
    obtain ⟨job, hstored, hreq, hfrom⟩ := h.request request admission (mem_scan.mp hmem)
    rw [validateRequest, validatedJob, hstored, required_bind, ensure_true ⟨hreq, hfrom⟩]
  have hlatests : store.latest.toList.forM (validateLatestEntry store) = .ok () := by
    refine forM_eq_ok.mpr fun ⟨discussion, entry⟩ hmem => ?_
    obtain ⟨job, hjob, hid⟩ := h.latest discussion entry (mem_scan.mp hmem)
    have hkey := hjob.key
    have hidx := hjob.indexed
    rw [hid] at hidx
    rw [validateLatestEntry, validatedJob, ← hid, hjob.stored, required_bind,
      ensure_bind ⟨congrArg discussionThreadId hkey, congrArg attemptOrdinal hkey⟩, hid]
    exact ensure_true hidx
  have hatts : validateAttemptOrder store = .ok () :=
    h.validateAttemptsFrom_ok (nil_append _).symm .nothing
  rw [validate, hrecs, ok_bind, hlives, ok_bind, hreqs, ok_bind, hatts, ok_bind, hlatests]

/-- **The validator accepts exactly the coherent stores.** -/
theorem validate_eq_ok : validate store = .ok () ↔ Coherent store :=
  ⟨coherent_of_validate, validate_of_coherent⟩

end

end Beryl.Jobs
