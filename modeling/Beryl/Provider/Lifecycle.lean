import Beryl.Provider.Identity

/-!
# Provider/Lifecycle — the frames of one provider item

The frames of an item arrive one at a time.  An item starts, grows by deltas and completes; a few
kinds of items only complete.  The validator judges every frame by what it kept of the frames
before: the item, the next ordinal, the time of the start, whether the item is complete, and whether
its history can be supported.

**What the validator accepts to its end is what begins a history** (`accepts_iff`), as long as there
are ordinals left.  One that is built again from the fields of a state goes on from there
(`rebuild_observeAll`).
-/

namespace Beryl.ProviderItem

open Fallible Provider List

/-! ## Frames -/

/-- `ProviderItemKind`, as the store knows it. -/
inductive ProviderItemKind
  | userMessage | hookPrompt | agentMessage | plan | reasoning | commandExecution | fileChange
  | mcpToolCall | dynamicToolCall | collabAgentToolCall | subAgentActivity | webSearch | imageView
  | sleep | standaloneImageGeneration | enteredReviewMode | exitedReviewMode | contextCompaction
  deriving DecidableEq

/-- `permits_completion_only`. -/
def ProviderItemKind.permitsCompletionOnly : ProviderItemKind → Bool
  | .subAgentActivity => true
  | _ => false

/-- Why a history is unsupported. -/
inductive UnsupportedHistoryReason
  | unknownPublicItem | malformedRequiredField | unsupportedRequiredPayload
  | hostedImageGeneration | impossibleLifecycle
  deriving DecidableEq

/-- `ProviderFrameHistorySupportV1`. -/
inductive HistorySupport
  | supported
  | unsupported (reason : UnsupportedHistoryReason)
  deriving DecidableEq

/-- `merge`. -/
def HistorySupport.merge : HistorySupport → HistorySupport → HistorySupport
  | .unsupported reason, _ => .unsupported reason
  | .supported, next => next

/-- `ProviderFrameObservationSummaryV1`. -/
inductive ObservationSummary
  | started (observedAt : ℕ)
  | delta
  | completed (observedAt : ℕ)
  deriving DecidableEq

/-- The facts of one frame. -/
structure FrameFacts where
  ordinal : ℕ
  itemId : CasItemId
  kind : ProviderItemKind
  observation : ObservationSummary
  historySupport : HistorySupport

/-- `ProviderItemValidationError`, as far as the lifecycle reports it. -/
inductive ValidationError
  | frameOrdinalExhausted
  | frameOrdinalConflict (expected actual : ℕ)
  | invalidStreamStateOrdinal (actual : ℕ)
  | invalidStreamStateLifecycle (kind : ProviderItemKind)
  | itemIdentityMismatch
  | itemKindMismatch (expected actual : ProviderItemKind)
  | missingItemStart | duplicateItemStart | eventAfterCompletion | completionOnlyItemStarted
  | completionBeforeStart (started completed : ℕ)
  deriving DecidableEq

/-! ## The validator -/

/-- `ProviderItemStreamStateV1`. -/
structure StreamState where
  itemId : CasItemId
  kind : ProviderItemKind
  nextOrdinal : ℕ
  startedAt : Option ℕ
  completed : Bool
  historySupport : HistorySupport

/-- `lifecycle_is_valid`. -/
def lifecycleIsValid (kind : ProviderItemKind) (nextOrdinal : ℕ) (startedAt : Option ℕ)
    (completed : Bool) : Bool :=
  if kind.permitsCompletionOnly then startedAt.isNone && completed && nextOrdinal == 2
  else if completed then startedAt.isSome && decide (3 ≤ nextOrdinal)
  else startedAt.isSome

/-- `ProviderItemStreamStateV1::new`. -/
def StreamState.new (itemId : CasItemId) (kind : ProviderItemKind) (nextOrdinal : ℕ)
    (startedAt : Option ℕ) (completed : Bool) (historySupport : HistorySupport) :
    Except ValidationError StreamState := do
  ensure (2 ≤ nextOrdinal) (.invalidStreamStateOrdinal nextOrdinal)
  ensure (lifecycleIsValid kind nextOrdinal startedAt completed = true)
    (.invalidStreamStateLifecycle kind)
  return ⟨itemId, kind, nextOrdinal, startedAt, completed, historySupport⟩

/-- `validated_lifecycle`. -/
def validatedLifecycle (kind : ProviderItemKind) (startedAt : Option ℕ) :
    ObservationSummary → Except ValidationError (Option ℕ × Bool)
  | .started observedAt => do
    ensure (kind.permitsCompletionOnly = false) .completionOnlyItemStarted
    ensure (startedAt = none) .duplicateItemStart
    return (some observedAt, false)
  | .delta => do
    ensure (startedAt ≠ none) .missingItemStart
    return (startedAt, false)
  | .completed observedAt =>
    match startedAt with
    | some started => do
      ensure (started ≤ observedAt) (.completionBeforeStart started observedAt)
      return (some started, true)
    | none => do
      ensure (kind.permitsCompletionOnly = true) .missingItemStart
      return (none, true)

/-- The ordinal of the next frame. -/
def expectedOrdinal (state : Option StreamState) : ℕ := state.elim 1 (·.nextOrdinal)

/-- The checks of a frame against the frames before it. -/
def checkIdentity (frame : FrameFacts) : Option StreamState → Except ValidationError Unit
  | none => .ok ()
  | some state => do
    ensure (state.completed = false) .eventAfterCompletion
    ensure (state.itemId = frame.itemId) .itemIdentityMismatch
    ensure (state.kind = frame.kind) (.itemKindMismatch state.kind frame.kind)

/-- The state behind a frame. -/
def successor (state : Option StreamState) (frame : FrameFacts) :
    Except ValidationError StreamState := do
  let expected := expectedOrdinal state
  ensure (frame.ordinal = expected) (.frameOrdinalConflict expected frame.ordinal)
  checkIdentity frame state
  let (startedAt, completed) ← validatedLifecycle frame.kind (state.bind (·.startedAt))
    frame.observation
  let nextOrdinal ← checkedAdd .frameOrdinalExhausted frame.ordinal 1
  let support := (state.elim .supported (·.historySupport)).merge frame.historySupport
  let first := state.getD ⟨frame.itemId, frame.kind, nextOrdinal, startedAt, completed, support⟩
  return ⟨first.itemId, first.kind, nextOrdinal, startedAt, completed, support⟩

/-- `observe_facts`: the verdict on a frame, and what the validator holds behind it.  Everything is
checked before the first field is written. -/
def observeFacts (state : Option StreamState) (frame : FrameFacts) :
    Except ValidationError Unit × Option StreamState :=
  match successor state frame with
  | .error e => (.error e, state)
  | .ok next => (.ok (), some next)

/-- Frames, one after another: the verdicts, and what the validator holds at the end. -/
def observeAll : Option StreamState → List FrameFacts →
    List (Except ValidationError Unit) × Option StreamState
  | state, [] => ([], state)
  | state, frame :: frames =>
    let (verdict, next) := observeFacts state frame
    let (verdicts, last) := observeAll next frames
    (verdict :: verdicts, last)

/-- Every frame is accepted. -/
def Accepts (state : Option StreamState) (frames : List FrameFacts) : Prop :=
  ∀ verdict ∈ (observeAll state frames).1, verdict = .ok ()

/-- The frames that are accepted. -/
def accepted : Option StreamState → List FrameFacts → List FrameFacts
  | _, [] => []
  | state, frame :: frames =>
    match observeFacts state frame with
    | (.ok _, next) => frame :: accepted next frames
    | (.error _, next) => accepted next frames

/-- `ProviderItemStreamStateV1::new` from the fields of a state, and `from_state`. -/
def rebuild : Option StreamState → Except ValidationError (Option StreamState)
  | none => .ok none
  | some s => do
    let state ← StreamState.new s.itemId s.kind s.nextOrdinal s.startedAt s.completed
      s.historySupport
    return some state

/-! ## Histories -/

/-- **What is still to come of an item** that started at a time, or has completed: in the beginning
its start, deltas and its completion, or its completion only. -/
def Remaining (kind : ProviderItemKind) : (startedAt : Option ℕ) → (completed : Bool) →
    List ObservationSummary → Prop
  | _, true, events => events = []
  | none, false, events =>
    if kind.permitsCompletionOnly then ∃ t, events = [.completed t]
    else ∃ t₀ n t₁, t₀ ≤ t₁ ∧ events = .started t₀ :: (List.replicate n .delta ++ [.completed t₁])
  | some t₀, false, events => ∃ n t₁, t₀ ≤ t₁ ∧ events = List.replicate n .delta ++ [.completed t₁]

/-- **Frames with which a history goes on**: one item, one kind, one ordinal after the other, and
events that begin what is still to come. -/
structure Continues (item : CasItemId) (kind : ProviderItemKind) (state : Option StreamState)
    (frames : List FrameFacts) : Prop where
  ordinals : frames.map (·.ordinal) = List.range' (expectedOrdinal state) frames.length
  same : ∀ f ∈ frames, f.itemId = item ∧ f.kind = kind
  known : ∀ s ∈ state, s.itemId = item ∧ s.kind = kind
  events : ∃ rest, Remaining kind (state.bind (·.startedAt)) (state.elim false (·.completed))
    (frames.map (·.observation) ++ rest)

/-- The first unsupported frame decides. -/
def firstUnsupported (supports : List HistorySupport) : HistorySupport :=
  (supports.find? (· ≠ .supported)).getD .supported

/-! ## One frame -/

variable {state : Option StreamState} {s s' : StreamState} {f : FrameFacts}
  {frames : List FrameFacts} {item : CasItemId} {kind : ProviderItemKind}

/-- The support of the frames before. -/
def supportOf (state : Option StreamState) : HistorySupport :=
  state.elim .supported (·.historySupport)

/-- **What an accepted frame has passed, and what it leaves.** -/
theorem successor_eq_ok : successor state f = .ok s' ↔ f.ordinal = expectedOrdinal state
    ∧ state.elim false (·.completed) = false ∧ (∀ s ∈ state, s.itemId = f.itemId ∧ s.kind = f.kind)
    ∧ f.ordinal + 1 < u64Size ∧ ∃ p,
      validatedLifecycle f.kind (state.bind (·.startedAt)) f.observation = .ok p
        ∧ s' = ⟨f.itemId, f.kind, f.ordinal + 1, p.1, p.2,
          (supportOf state).merge f.historySupport⟩ := by
  cases state <;> simp only [successor, checkIdentity, bind_eq_ok, ensure_eq_ok, checkedAdd_eq_ok]
  case none =>
    constructor
    · rintro ⟨_, hord, _, -, p, hp, _, ⟨rfl, hroom⟩, hs⟩
      exact ⟨hord, rfl, by simp, hroom, p, hp, (Except.ok.inj hs).symm⟩
    · rintro ⟨hord, -, -, hroom, p, hp, rfl⟩
      exact ⟨(), hord, (), trivial, p, hp, _, ⟨rfl, hroom⟩, rfl⟩
  case some s =>
    constructor
    · rintro ⟨_, hord, _, ⟨_, hopen, _, hitem, hkind⟩, p, hp, _, ⟨rfl, hroom⟩, hs⟩
      refine ⟨hord, hopen, by simpa using ⟨hitem, hkind⟩, hroom, p, hp, ?_⟩
      rw [← hitem, ← hkind]
      exact (Except.ok.inj hs).symm
    · rintro ⟨hord, hopen, hsame, hroom, p, hp, rfl⟩
      obtain ⟨hitem, hkind⟩ := hsame s rfl
      refine ⟨(), hord, (), ⟨(), hopen, (), hitem, hkind⟩, p, hp, _, ⟨rfl, hroom⟩, ?_⟩
      rw [← hitem, ← hkind]
      rfl

/-- **A frame takes the first event off what is still to come.** -/
theorem remaining_cons {startedAt : Option ℕ} {event : ObservationSummary}
    {events : List ObservationSummary} : Remaining kind startedAt false (event :: events)
      ↔ ∃ p, validatedLifecycle kind startedAt event = .ok p ∧ Remaining kind p.1 p.2 events := by
  have hgrow : ∀ {t}, (∃ n t₁, t ≤ t₁
      ∧ event :: events = List.replicate n .delta ++ [.completed t₁])
      ↔ event = .delta ∧ Remaining kind (some t) false events
        ∨ events = [] ∧ ∃ t₁, t ≤ t₁ ∧ event = .completed t₁ := by
    intro t
    constructor
    · rintro ⟨n, t₁, hle, heq⟩
      cases n with
      | zero =>
        cases heq
        exact .inr ⟨rfl, t₁, hle, rfl⟩
      | succ n =>
        cases heq
        exact .inl ⟨rfl, n, t₁, hle, rfl⟩
    · rintro (⟨rfl, n, t₁, hle, rfl⟩ | ⟨rfl, t₁, hle, rfl⟩)
      · exact ⟨n + 1, t₁, hle, rfl⟩
      · exact ⟨0, t₁, hle, rfl⟩
  cases startedAt with
  | some t =>
    rw [Remaining, hgrow]
    cases event <;> simp [validatedLifecycle, bind_eq_ok, ensure_eq_ok, Remaining, and_comm]
  | none =>
    cases hkind : kind.permitsCompletionOnly <;> cases event <;>
      simp [validatedLifecycle, bind_eq_ok, ensure_eq_ok, Remaining, hkind]

/-- **A frame can be taken off a history from the front exactly if it is accepted.** -/
theorem continues_cons :
    Continues item kind state (f :: frames) ∧ expectedOrdinal state + 1 < u64Size
      ↔ ∃ s', successor state f = .ok s' ∧ Continues item kind (some s') frames := by
  constructor
  · rintro ⟨⟨hord, hsame, hknown, rest, hevents⟩, hroom⟩
    obtain ⟨hfirst : f.ordinal = _, hord⟩ := List.cons.inj hord
    obtain ⟨⟨rfl, rfl⟩, hsame⟩ := forall_mem_cons.mp hsame
    cases hopen : state.elim false (·.completed) with
    | true => simp [Remaining, hopen] at hevents
    | false =>
      rw [hopen, map_cons, cons_append, remaining_cons] at hevents
      obtain ⟨p, hp, hevents⟩ := hevents
      rw [← hfirst] at hord hroom
      exact ⟨_, successor_eq_ok.mpr ⟨hfirst, hopen, hknown, hroom, p, hp, rfl⟩, hord, hsame,
        by simp, rest, hevents⟩
  · rintro ⟨s', hs', hord, hsame, hknown, rest, hevents⟩
    obtain ⟨hfirst, hopen, hprior, hroom, p, hp, rfl⟩ := successor_eq_ok.mp hs'
    obtain ⟨rfl, rfl⟩ := hknown _ rfl
    refine ⟨⟨?_, forall_mem_cons.mpr ⟨⟨rfl, rfl⟩, hsame⟩, hprior, rest, ?_⟩, hfirst ▸ hroom⟩
    · rw [map_cons, hord, length_cons, range'_succ, ← hfirst]
      rfl
    · rw [hopen, map_cons, cons_append, remaining_cons]
      exact ⟨p, hp, hevents⟩

/-! ## Whole sequences -/

/-- Every history can be completed. -/
theorem exists_remaining (kind : ProviderItemKind) : ∀ startedAt completed,
    ∃ events, Remaining kind startedAt completed events
  | _, true => ⟨[], by simp [Remaining]⟩
  | some t, false => ⟨_, 0, t, le_rfl, rfl⟩
  | none, false => by
    cases hkind : kind.permitsCompletionOnly with
    | true => exact ⟨[.completed 0], by simp [Remaining, hkind]⟩
    | false => exact ⟨[.started 0, .completed 0], by
        simp only [Remaining, hkind]; exact ⟨0, 0, 0, le_rfl, rfl⟩⟩

theorem continues_nil (state : Option StreamState) : ∃ item kind, Continues item kind state [] := by
  cases state with
  | none => exact ⟨⟨['a'], rfl⟩, .plan, rfl, nofun, nofun, exists_remaining ..⟩
  | some s => exact ⟨s.itemId, s.kind, rfl, nofun, by simp, exists_remaining ..⟩

theorem accepts_cons : Accepts state (f :: frames)
    ↔ ∃ s', successor state f = .ok s' ∧ Accepts (some s') frames := by
  cases h : successor state f <;> simp [Accepts, observeAll, observeFacts, h]

/-- **What is accepted to its end is what a history can go on with**, as long as there are
ordinals. -/
theorem accepts_iff : Accepts state frames ↔ (∃ item kind, Continues item kind state frames)
      ∧ (frames = [] ∨ expectedOrdinal state + frames.length < u64Size) := by
  induction frames generalizing state with
  | nil => simp [Accepts, observeAll, continues_nil]
  | cons f fs ih =>
    have hlen : expectedOrdinal state + (f :: fs).length =
        expectedOrdinal state + 1 + fs.length := by
      rw [length_cons]; omega
    have hnext : ∀ {s'}, successor state f = .ok s' →
        expectedOrdinal (some s') = expectedOrdinal state + 1 := fun hs' => by
      obtain ⟨hord, -, -, -, p, -, rfl⟩ := successor_eq_ok.mp hs'
      exact congrArg (· + 1) hord
    rw [accepts_cons, hlen]
    constructor
    · rintro ⟨s', hs', hrest⟩
      obtain ⟨⟨item, kind, hcont⟩, hroom⟩ := ih.mp hrest
      obtain ⟨hall, hone⟩ := continues_cons.mpr ⟨s', hs', hcont⟩
      refine ⟨⟨item, kind, hall⟩, .inr ?_⟩
      rcases hroom with rfl | hroom
      · exact hone
      · exact hnext hs' ▸ hroom
    · rintro ⟨⟨item, kind, hall⟩, hroom⟩
      have hroom := hroom.resolve_left (cons_ne_nil f fs)
      obtain ⟨s', hs', hcont⟩ := continues_cons.mp ⟨hall, by omega⟩
      exact ⟨s', hs', ih.mpr ⟨⟨item, kind, hcont⟩, .inr (hnext hs' ▸ hroom)⟩⟩

theorem observeAll_append (state : Option StreamState) (frames later : List FrameFacts) :
    observeAll state (frames ++ later) = ((observeAll state frames).1
      ++ (observeAll (observeAll state frames).2 later).1,
      (observeAll (observeAll state frames).2 later).2) := by
  induction frames generalizing state with
  | nil => rfl
  | cons f fs ih => simp [observeAll, ih]

/-- A frame leaves the state as it is or moves it on. -/
theorem observeFacts_cases (state : Option StreamState) (f : FrameFacts) :
    (∃ e, observeFacts state f = (.error e, state))
      ∨ ∃ s', successor state f = .ok s' ∧ observeFacts state f = (.ok (), some s') := by
  unfold observeFacts
  cases successor state f with
  | error e => exact .inl ⟨e, rfl⟩
  | ok s' => exact .inr ⟨s', rfl, rfl⟩

theorem rebuild_some : rebuild (some s) = .ok (some s) ↔ 2 ≤ s.nextOrdinal
    ∧ lifecycleIsValid s.kind s.nextOrdinal s.startedAt s.completed = true := by
  simp [rebuild, StreamState.new, bind_eq_ok, ensure_eq_ok]

/-- **The constructor takes every state a frame leaves.** -/
theorem rebuild_successor (hs : rebuild state = .ok state) (hs' : successor state f = .ok s') :
    rebuild (some s') = .ok (some s') := by
  obtain ⟨hord, hopen, hprior, -, p, hp, rfl⟩ := successor_eq_ok.mp hs'
  cases state with
  | none =>
    have hord : f.ordinal = 1 := hord
    cases hobs : f.observation <;> rw [hobs] at hp <;>
      simp [validatedLifecycle, bind_eq_ok, ensure] at hp <;>
      simp [rebuild_some, lifecycleIsValid, hord, ← hp]
  | some s =>
    obtain ⟨htwo, hvalid⟩ := rebuild_some.mp hs
    have hopen : s.completed = false := hopen
    have hord : f.ordinal = s.nextOrdinal := hord
    obtain ⟨-, hkind⟩ := hprior s rfl
    rw [lifecycleIsValid, hopen, hkind] at hvalid
    cases hk : f.kind.permitsCompletionOnly <;> simp [hk] at hvalid
    obtain ⟨t, ht⟩ := Option.isSome_iff_exists.mp hvalid
    have hshape : p = (some t, false) ∨ p = (some t, true) := by
      cases hobs : f.observation <;> rw [hobs, Option.bind_some, ht] at hp <;>
        simp [validatedLifecycle, bind_eq_ok, ensure] at hp <;> grind
    rcases hshape with rfl | rfl <;> simp [rebuild_some, lifecycleIsValid, hord, hk] <;> omega

theorem rebuild_observeAll (hs : rebuild state = .ok state) :
    rebuild (observeAll state frames).2 = .ok (observeAll state frames).2 := by
  induction frames generalizing state with
  | nil => exact hs
  | cons f fs ih =>
    simp only [observeAll]
    rcases observeFacts_cases state f with ⟨e, he⟩ | ⟨s', hs', he⟩
    · rw [he]; exact ih hs
    · rw [he]; exact ih (rebuild_successor hs hs')

theorem merge_supported (x : HistorySupport) : x.merge .supported = x := by cases x <;> rfl

theorem merge_assoc (x y z : HistorySupport) : (x.merge y).merge z = x.merge (y.merge z) := by
  cases x <;> rfl

theorem firstUnsupported_cons (x : HistorySupport) (xs : List HistorySupport) :
    firstUnsupported (x :: xs) = x.merge (firstUnsupported xs) := by
  cases x <;> simp [firstUnsupported, HistorySupport.merge]

/-- **The first unsupported frame decides.** -/
theorem supportOf_observeAll : supportOf (observeAll state frames).2
    = (supportOf state).merge
        (firstUnsupported ((accepted state frames).map (·.historySupport))) := by
  induction frames generalizing state with
  | nil => exact (merge_supported _).symm
  | cons f fs ih =>
    simp only [observeAll, accepted]
    rcases observeFacts_cases state f with ⟨e, he⟩ | ⟨s', hs', he⟩
    · rw [he]; exact ih
    · rw [he]
      obtain ⟨-, -, -, -, p, -, rfl⟩ := successor_eq_ok.mp hs'
      rw [ih, map_cons, firstUnsupported_cons, ← merge_assoc]
      rfl

/-! ## The validator -/

/-- **The validator accepts the histories**, as far as there are ordinals for them; it can be
stopped and built again between any two frames; a frame it refuses leaves no trace; and it knows the
first reason for which the history cannot be supported. -/
theorem validator_accepts_histories (frames : List FrameFacts) :
    (Accepts none frames
        ↔ (∃ item kind, Continues item kind none frames) ∧ frames.length + 1 < u64Size)
      ∧ (∀ later, ∃ state, rebuild (observeAll none frames).2 = .ok state
        ∧ observeAll none (frames ++ later) =
          ((observeAll none frames).1 ++ (observeAll state later).1, (observeAll state later).2))
      ∧ (∀ frame, (observeFacts (observeAll none frames).2 frame).1 = .ok ()
        ∨ (observeFacts (observeAll none frames).2 frame).2 = (observeAll none frames).2)
      ∧ supportOf (observeAll none frames).2
        = firstUnsupported ((accepted none frames).map (·.historySupport)) := by
  have hnone : (frames = [] ∨ expectedOrdinal none + frames.length < u64Size)
      ↔ frames.length + 1 < u64Size := by
    rw [Nat.add_comm, or_iff_right_of_imp]
    · rfl
    · rintro rfl
      decide
  refine ⟨accepts_iff.trans (and_congr_right fun _ => hnone), fun later => ?_, fun f => ?_,
    supportOf_observeAll⟩
  · exact ⟨_, rebuild_observeAll rfl, observeAll_append ..⟩
  · rcases observeFacts_cases (observeAll none frames).2 f with ⟨e, he⟩ | ⟨s', -, he⟩
    · exact .inr (by rw [he])
    · exact .inl (by rw [he])

/-- **A history that takes every ordinal is refused** at its completion. -/
theorem last_ordinal_refused :
    ∃ frames, (∃ item kind, Continues item kind none frames) ∧ ¬ Accepts none frames := by
  let frames (n : ℕ) : List FrameFacts :=
    ((.started 0 :: (List.replicate n .delta ++ [.completed 0])).zipIdx 1).map fun e =>
      ⟨e.2, ⟨['a'], rfl⟩, .plan, e.1, .supported⟩
  have hlen : ∀ n, (frames n).length = n + 2 := by simp [frames]
  have hall : ∀ n, Continues ⟨['a'], rfl⟩ .plan none (frames n) := by
    refine fun n => ⟨?_, fun f hf => ?_, nofun, [], 0, n, 0, le_rfl, ?_⟩
    · simp [frames, Function.comp_def, expectedOrdinal, range'_succ]
    · obtain ⟨e, -, rfl⟩ := mem_map.mp hf
      exact ⟨rfl, rfl⟩
    · simp [frames, Function.comp_def]
  refine ⟨frames (u64Size - 3), ⟨_, _, hall _⟩, fun haccepts => ?_⟩
  have hroom := (accepts_iff.mp haccepts).2.resolve_left (ne_nil_of_length_eq_add_one (hlen _))
  rw [expectedOrdinal, Option.elim_none, hlen] at hroom
  exact absurd hroom (by decide)

end Beryl.ProviderItem
