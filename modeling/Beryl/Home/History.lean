import Beryl.Home.Commit

/-!
# Home/History — commands one after another on one home

In every history, **a command that is committed expected what was stored and stored exactly what it
contributed, and any other has changed nothing** (`commands_serialized`), whatever the commands
before it left behind.
-/

namespace Beryl.Home

open Fallible Wire List

/-! ## One command -/

/-- **What a committed command has done.** -/
structure Commits (generation : StoreGeneration) (command : HomeCommand) (before after : Database)
    (receipt : CommitReceipt) : Prop where
  /-- The command expects the stored home revision … -/
  expectedHome : storedHomeRevision before = some command.expectedHomeRevision
  /-- … and, for every participant, the stored revision of its domain. -/
  expectedDomain : ∀ p ∈ command.participants,
    storedDomainRevision before p.domain = some p.expectedRevision
  /-- The contributed records are stored. -/
  records : ∀ location value, Contributes generation command before (location, value) →
    after location = value
  /-- The home revision is the next one, and the receipt's. -/
  home : storedHomeRevision after = some receipt.homeRevision
    ∧ receipt.homeRevision.get = command.expectedHomeRevision.get + 1
  /-- The receipt lists the mutated domains, and no other. -/
  slots : receipt.domains.map (·.1)
    = (command.participants.filter DomainParticipant.isMutation).map DomainParticipant.slot
  /-- The record of a mutated domain is at the next revision, and the receipt's. -/
  domains : ∀ p ∈ command.participants, p.isMutation = true →
    ∃ metadata next, storedMetadata before p.domain = some metadata
      ∧ storedMetadata after p.domain = some { metadata with revision := next }
      ∧ next.get = p.expectedRevision.get + 1 ∧ (p.slot, next) ∈ receipt.domains
  /-- Nothing else has changed … -/
  frame : ∀ location, (∀ value, ¬ Contributes generation command before (location, value)) →
    location ≠ homeLocation →
    (∀ p ∈ command.participants, p.isMutation = true → location ≠ domainLocation p.domain) →
      after location = before location
  /-- … nor has the record of a domain that the command does not mutate. -/
  others : ∀ domain, (∀ p ∈ command.participants, p.isMutation = true → p.domain ≠ domain) →
    storedMetadata after domain = storedMetadata before domain

/-- **Committing what a command intends does what the command is to do.** -/
theorem Intends.commits {generation : StoreGeneration} {command : HomeCommand} {before : Database}
    {receipt : CommitReceipt} {batch : Writes}
    (h : Intends generation command before receipt batch) :
    Commits generation command before (Batch.commit before batch) receipt := by
  have hframe : ∀ location, (∀ value, ¬ Contributes generation command before (location, value)) →
      location ≠ homeLocation →
      (∀ p ∈ command.participants, p.isMutation = true → location ≠ domainLocation p.domain) →
        Batch.commit before batch location = before location := by
    intro location hrec hhome hdom
    refine Batch.commit_of_not_mem fun hmem => ?_
    obtain ⟨⟨location, value⟩, hwrite, rfl⟩ := mem_map.mp hmem
    rcases h.only _ hwrite with heq | hcontr | ⟨p, hp, hmut, heq⟩
    · exact hhome heq
    · exact hrec value hcontr
    · exact hdom p hp hmut heq
  refine ⟨h.expectedHome, h.expectedDomain, fun location value hrec =>
    Batch.commit_of_mem h.nodup (h.record_mem _ hrec), ⟨?_, h.homeRevision⟩, h.slots, ?_, hframe,
    fun domain hothers => ?_⟩
  · rw [storedHomeRevision, Batch.commit_of_mem h.nodup h.home_mem, Option.bind_some,
      decodeHomeRevision_encodeHomeRevision]
    rfl
  · intro p hp hmut
    obtain ⟨metadata, next, encoded, hstored, hentry, hnext, henc, hmem⟩ := h.domain_mem p hp hmut
    refine ⟨metadata, next, hstored, ?_, hnext, hentry⟩
    rw [storedMetadata, Batch.commit_of_mem h.nodup hmem, Option.bind_some,
      DomainMetadata.decode_of_encode henc]
    rfl
  · rw [storedMetadata, storedMetadata, hframe _ ?_ (homeLocation_ne_domainLocation _).symm
      fun p hp hmut heq => hothers p hp hmut (domainLocation_inj heq).symm]
    rintro value ⟨_, _, -, _, _, -, -, hasks⟩
    exact hasks.ne_domainLocation _ rfl

/-- **The passes of a command that reaches its commit.** -/
structure Passes (generation : StoreGeneration) (environment : Environment) (healthGeneration : ℕ)
    (reservation : CommandReservation) (command : HomeCommand) (db : Database)
    (custody : ReconciliationCustody) (batch : Writes) where
  home : HomeRevision
  fenced : List FencedParticipant
  prepared : List PreparedContribution
  receipt : CommitReceipt
  mutations : List PreparedMutation
  fence : fenceCommand generation environment db command = .ok (home, fenced)
  prepare : prepareEach db fenced = .ok prepared
  intended : intendedReceipt generation healthGeneration home prepared = .ok receipt
  contribute : prepared.mapM PreparedContribution.contribute = .ok mutations
  materialize : materializeReservation environment db mutations reservation receipt = .ok custody
  assemble : assembleBatch environment receipt mutations = .ok batch

section

variable {generation : StoreGeneration} {environment : Environment} {healthGeneration : ℕ}
  {reservation : CommandReservation} {command : HomeCommand} {db : Database}
  {custody : ReconciliationCustody} {batch : Writes}

theorem prepareCommit_eq_ok
    (h : prepareCommit generation environment healthGeneration reservation command db
      = .ok (custody, batch)) :
    Nonempty (Passes generation environment healthGeneration reservation command db custody
        batch) := by
  simp only [prepareCommit, bind_eq_ok, pure_eq_ok_iff, Prod.mk.injEq] at h
  obtain ⟨_, -, _, -, _, -, _, -, ⟨home, fenced⟩, hfence, _, -, prepared, hprep, _, -,
    receipt, hrcpt, mutations, hmuts, _, hcustody, _, hbatch, _, -, rfl, rfl⟩ := h
  exact ⟨⟨home, fenced, prepared, receipt, mutations, hfence, hprep, hrcpt, hmuts,
    hcustody, hbatch⟩⟩

/-- What a custody keeps: the descriptors of the mutated domains, and the receipt. -/
theorem materializeReservation_eq_ok {mutations : List PreparedMutation} {receipt : CommitReceipt}
    (h : materializeReservation environment db mutations reservation receipt = .ok custody) :
    custody.receipt = receipt ∧ (mutations.zip reservation.declarations).mapM
      (materializeDomain environment db receipt) = .ok custody.domains := by
  simp only [materializeReservation, bind_eq_ok, pure_eq_ok_iff] at h
  obtain ⟨_, -, domains, hdomains, _, -, rfl⟩ := h
  exact ⟨rfl, hdomains⟩

/-- What is prepared for a commit is what the command intends. -/
theorem Passes.intends
    (h : Passes generation environment healthGeneration reservation command db custody batch) :
    Intends generation command db custody.receipt batch := by
  rw [(materializeReservation_eq_ok h.materialize).1]
  exact Home.intends h.fence h.prepare h.intended h.contribute h.assemble

theorem persist_cases (environment : Environment) (custody : ReconciliationCustody)
    (failure : Option CommandError) :
    (∃ later, persist environment custody failure = .committed custody.receipt later)
      ∨ ∃ e, persist environment custody failure = .indeterminate e custody := by
  unfold persist
  split
  · exact .inr ⟨_, rfl⟩
  · split
    · exact .inr ⟨_, rfl⟩
    · split
      · exact .inl ⟨_, rfl⟩
      · exact .inl ⟨_, rfl⟩

/-- **What an outcome says about the batch**: it is committed only if it was applied, and not
committed only if it was not. -/
theorem commitOutcome_cases (environment : Environment) (custody : ReconciliationCustody) :
    (∃ later, commitOutcome environment custody = .committed custody.receipt later
        ∧ environment.commit.applied = true)
      ∨ (∃ e, commitOutcome environment custody = .notCommitted e
        ∧ environment.commit.applied = false)
      ∨ ∃ e, commitOutcome environment custody = .indeterminate e custody := by
  unfold commitOutcome
  cases environment.commit with
  | success =>
    rcases persist_cases environment custody none with ⟨later, h⟩ | h
    · exact .inl ⟨later, h, rfl⟩
    · exact .inr (.inr h)
  | notCommitted source => exact .inr (.inl ⟨_, rfl, rfl⟩)
  | committed source =>
    rcases persist_cases environment custody (some (.commit source)) with ⟨later, h⟩ | h
    · exact .inl ⟨later, h, rfl⟩
    · exact .inr (.inr h)
  | indeterminate | unreported => exact .inr (.inr ⟨_, rfl⟩)

/-- **What the outcome of a command says about what is stored.** -/
structure Truthful (generation : StoreGeneration) (command : HomeCommand) (before : Database)
    (result : CommandOutcome × Database) : Prop where
  committed : ∀ receipt later, result.1 = .committed receipt later →
    Commits generation command before result.2 receipt
  notCommitted : ∀ evidence, result.1 = .notCommitted evidence → result.2 = before

/-- A command that is refused changes nothing. -/
theorem truthful_refused (generation : StoreGeneration) (command : HomeCommand) (db : Database)
    (evidence : CommandError) : Truthful generation command db (.notCommitted evidence, db) :=
  ⟨fun _ _ h => (CommandOutcome.noConfusion h), fun _ _ => rfl⟩

theorem truthful_executeAdmitted (healthGeneration : ℕ) (reservation : CommandReservation) :
    Truthful generation command db
      (executeAdmitted generation environment healthGeneration reservation command db) := by
  unfold executeAdmitted
  rcases hprep : prepareCommit generation environment healthGeneration reservation command db
    with evidence | ⟨custody, batch⟩
  · exact truthful_refused ..
  · obtain ⟨hpasses⟩ := prepareCommit_eq_ok hprep
    dsimp only
    rcases commitOutcome_cases environment custody with ⟨later, hout, happlied⟩ |
      ⟨e, hout, happlied⟩ | ⟨e, hout⟩
    · rw [hout, if_pos happlied]
      refine ⟨fun receipt later' heq => ?_, fun _ heq => CommandOutcome.noConfusion heq⟩
      cases heq
      exact hpasses.intends.commits
    · rw [hout, if_neg (by simp [happlied])]
      exact truthful_refused ..
    · rw [hout]
      exact ⟨fun _ _ heq => CommandOutcome.noConfusion heq,
        fun _ heq => CommandOutcome.noConfusion heq⟩

/-- A failed confirmation is only noted. -/
theorem truthful_confirmDatabase {result : CommandOutcome × Database}
    (h : Truthful generation command db result) :
    Truthful generation command db (confirmDatabase environment result.1, result.2) := by
  rcases result with ⟨_ | ⟨receipt, _ | later⟩ | _, after⟩
  · exact h
  · refine ⟨fun receipt' later' heq => ?_, fun _ heq => CommandOutcome.noConfusion heq⟩
    cases heq
    exact h.committed receipt none rfl
  · exact h
  · exact h

theorem truthful_executeSerialized {operation : ℕ → CommandOutcome × Database}
    (h : ∀ healthGeneration, Truthful generation command db (operation healthGeneration)) :
    Truthful generation command db (executeSerialized environment db operation) := by
  unfold executeSerialized
  split
  · exact truthful_refused ..
  · exact truthful_confirmDatabase (h _)

/-- **The outcome of a command is truthful.** -/
theorem truthful_execute (generation : StoreGeneration) (environment : Environment)
    (command : HomeCommand) (db : Database) :
    Truthful generation command db (execute generation environment command db) := by
  unfold execute
  split
  · exact truthful_refused ..
  · exact truthful_executeSerialized fun healthGeneration => truthful_executeAdmitted ..

/-- A current command becomes a command that expects what is stored, and its outcome is truthful. -/
theorem truthful_executeCurrentHome (generation : StoreGeneration) (environment : Environment)
    (command : CurrentHomeCommand) (db : Database) :
    (∃ captured, captureCommand generation environment command db = .ok captured
        ∧ Truthful generation captured db (executeCurrentHome generation environment command db))
      ∨ ∃ evidence, executeCurrentHome generation environment command db
        = (.notCommitted evidence, db) := by
  unfold executeCurrentHome
  rcases hreserve : reserveCurrentCommand environment command with evidence | reservation
  · exact .inr ⟨evidence, rfl⟩
  · rcases hcapture : captureCommand generation environment command db with evidence | captured
    · refine .inr ?_
      dsimp only
      unfold executeSerialized
      split
      · exact ⟨_, rfl⟩
      · next healthGeneration hadmit =>
        simp only [executeCurrentHomeAdmitted, hcapture]
        exact ⟨_, rfl⟩
    · refine .inl ⟨captured, rfl, truthful_executeSerialized fun healthGeneration => ?_⟩
      simp only [executeCurrentHomeAdmitted, hcapture]
      exact truthful_executeAdmitted ..

end

/-! ## Histories -/

/-- A command as a caller submits it. -/
inductive Submission
  | home (command : HomeCommand)
  | current (command : CurrentHomeCommand)

/-- The command that a submission is when the writer takes it. -/
def Submission.command (generation : StoreGeneration) (environment : Environment) (db : Database) :
    Submission → Commanded HomeCommand
  | home command => .ok command
  | current command => captureCommand generation environment command db

/-- What a submission does. -/
def Submission.execute (generation : StoreGeneration) (environment : Environment) (db : Database) :
    Submission → CommandOutcome × Database
  | home command => Home.execute generation environment command db
  | current command => executeCurrentHome generation environment command db

/-- One command of a history, with what was stored before and after it. -/
structure Step where
  submission : Submission
  environment : Environment
  before : Database
  outcome : CommandOutcome
  after : Database

/-- The commands of a history, each on what the ones before it left. -/
def history (generation : StoreGeneration) (db : Database) :
    List (Submission × Environment) → List Step
  | [] => []
  | (submission, environment) :: rest =>
    let result := submission.execute generation environment db
    ⟨submission, environment, db, result.1, result.2⟩ :: history generation result.2 rest

/-- A step of a history that has done what its outcome says. -/
def Step.Serialized (generation : StoreGeneration) (step : Step) : Prop :=
  (∀ receipt later, step.outcome = .committed receipt later →
    ∃ command, step.submission.command generation step.environment step.before = .ok command
      ∧ Commits generation command step.before step.after receipt)
  ∧ ∀ evidence, step.outcome = .notCommitted evidence → step.after = step.before

theorem serialized_execute (generation : StoreGeneration) (environment : Environment)
    (submission : Submission) (db : Database) :
    Step.Serialized generation ⟨submission, environment, db,
      (submission.execute generation environment db).1,
      (submission.execute generation environment db).2⟩ := by
  cases submission with
  | home command =>
    have h := truthful_execute generation environment command db
    exact ⟨fun receipt later hout => ⟨command, rfl, h.committed receipt later hout⟩, h.notCommitted⟩
  | current command =>
    rcases truthful_executeCurrentHome generation environment command db with
      ⟨captured, hcapt, h⟩ | ⟨evidence, h⟩
    · exact ⟨fun receipt later hout => ⟨captured, hcapt, h.committed receipt later hout⟩,
        h.notCommitted⟩
    · refine ⟨fun receipt later hout => ?_, fun _ _ => congrArg Prod.snd h⟩
      exact CommandOutcome.noConfusion ((congrArg Prod.fst h).symm.trans hout)

/-- **Commands are serialized.**  On every home, in every history of commands, whatever their
callbacks return and wherever faults strike: a command that is committed expected the stored home
revision and, for each of its participants, the stored domain revision; it has stored exactly what
it contributed, the next home revision and the next revision of each domain it mutated, all as its
receipt says; and a command that is not committed has changed nothing. -/
theorem commands_serialized (generation : StoreGeneration) (db : Database)
    (submissions : List (Submission × Environment)) :
    ∀ step ∈ history generation db submissions, step.Serialized generation := by
  induction submissions generalizing db with
  | nil => exact fun _ h => absurd h not_mem_nil
  | cons submission submissions ih =>
    intro step hstep
    rcases mem_cons.mp hstep with rfl | hstep
    · exact serialized_execute ..
    · exact ih _ step hstep

/-! ## A home with two domains

One record in each.  A command puts a payload into the record of the Syndic domain and makes a
record of the other one. -/

namespace TwoDomains

/-- The one version. -/
def version : SchemaVersion := ⟨1, Nat.one_pos, by decide⟩

/-- The Syndic domain. -/
def syndic : RegisteredDomain where
  name := "syndic"
  schema := version
  owner := 0
  reconciler := .syndic
  families := [⟨"turns", "d.syndic.turns", version, 0, version, 8, 8⟩]
  name_valid := by decide
  families_valid := by decide
  families_nodup := by decide
  physical := by decide

/-- The other domain. -/
def state : RegisteredDomain where
  name := "state"
  schema := version
  owner := 1
  reconciler := .state
  families := [⟨"assets", "d.state.assets", version, 1, version, 8, 8⟩]
  name_valid := by decide
  families_valid := by decide
  families_nodup := by decide
  physical := by decide

/-- A store of both. -/
def generation : StoreGeneration := ⟨0, ⟨[syndic, state], by decide⟩⟩

/-- Every revision at first. -/
def revision : Revision := .first

/-- The record of the Syndic domain holds the payload 5; the other domain has no record. -/
def before : Database := fun location =>
  if location = homeLocation then some (encodeHomeRevision revision)
  else if location = domainLocation "syndic" then (syndic.metadata revision).encode.toOption
  else if location = domainLocation "state" then (state.metadata revision).encode.toOption
  else if location = ⟨"d.syndic.turns", [1]⟩ then some [0, 0, 0, 1, 5]
  else none

/-- A plan that puts one payload. -/
def put (slot owner : ℕ) (domain family : String) (payload : Bytes) : DomainMutationPlan where
  store := 0
  slot := slot
  owner := owner
  domain := domain
  commandPair := none
  reserveReconciliation := .ok ⟨domain, [⟨(family, owner), 1⟩], 0, none⟩
  prepare := fun _ => .ok ⟨[.put family owner (.ok [1]) (.ok payload)], .ok ()⟩

/-- Puts a payload into the record of the Syndic domain, and 7 into that of the other. -/
def command (payload : Bytes) : HomeCommand :=
  ⟨none, revision, [.mutation (put 0 0 "syndic" "turns" payload) revision,
    .mutation (put 1 1 "state" "assets" [7]) revision], [], by
      simp [put, DomainParticipant.place, DomainParticipant.store, DomainParticipant.slot]⟩

/-- All goes well, but for the commit. -/
def environment (commit : CommitReport) : Environment where
  cancelled := fun _ => false
  reentrant := false
  writerPoisoned := false
  admission := some 3
  generationPoisoned := false
  descriptorByteLimit := 1000
  scopeAvailable := fun _ => true
  snapshotFailure := none
  unreadable := fun _ => none
  batchFailure := fun _ => none
  fault := fun _ => none
  commit := commit
  persistFailure := none
  confirmFailure := none

/-- Every revision afterwards. -/
def second : Revision := ⟨2, by decide, by decide⟩

/-- What the command is given for its receipt. -/
def receipt : CommitReceipt := ⟨0, 3, second, [(0, second), (1, second)]⟩

/-- The command is committed, and the record holds its payload behind the version of the family. -/
theorem commands_serialized_six :
    Commits generation (command [6]) before
        ((Submission.home (command [6])).execute generation (environment .success) before).2 receipt
      ∧ ((Submission.home (command [6])).execute generation (environment .success) before).2
        ⟨"d.syndic.turns", [1]⟩ = some [0, 0, 0, 1, 6] := by
  obtain ⟨captured, hcaptured, hcommits⟩ := (commands_serialized generation before
    [(.home (command [6]), environment .success)] _ (mem_singleton_self _)).1 receipt none
      (by decide +kernel)
  cases hcaptured
  have hasks : Asks syndic (.put "turns" 0 (.ok [1]) (.ok [6])) ⟨"d.syndic.turns", [1]⟩
      (some [0, 0, 0, 1, 6]) :=
    @Asks.put syndic ⟨"turns", "d.syndic.turns", version, 0, version, 8, 8⟩ [1] [6]
      (mem_singleton_self _) (by decide) (by decide)
  exact ⟨hcommits, hcommits.records _ _
    ⟨_, _, mem_cons_self, syndic, _, rfl, rfl, .head hasks⟩⟩

end TwoDomains

end Beryl.Home
