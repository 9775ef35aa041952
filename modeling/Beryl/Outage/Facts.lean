import Beryl.Provider.Grammar
import Beryl.Provider.Identity

/-!
# Outage/Facts — what is kept while the store is away, and its bytes

While the persistent store has failed, a connection's observations are kept in memory as *facts* of
the turns they belong to.  A fact is counted first and written second, by one list of writes:
`factLen` counts under the limit of a field, `encodeFact` writes without one.

**What was counted is what is written** (`encodeFact_of_factLen`): the bytes of a counted fact are
the spelling of its writes, and their number is the count.
-/

namespace Beryl.Outage

open Fallible Wire Utf8 Provider List

/-! ## Identities -/

/-- Identities that this program chose are their bytes. -/
abbrev ProviderObservationId := Bytes

/-- Generation of a loaded session: of its process, and of its thread. -/
structure CasLoadedSessionGeneration where
  process : ℕ
  thread : ℕ
  deriving DecidableEq

/-- The registration of a thread on a connection. -/
structure ConnectionWorkTargetIdentity where
  runtimeId : Bytes
  processGeneration : ℕ
  connectionGeneration : ℕ
  registrationSerial : ℕ
  threadId : Bytes
  casThreadId : CasThreadId
  loadedGeneration : CasLoadedSessionGeneration
  homeGeneration : ℕ
  deriving DecidableEq

/-- One connection of a process of a runtime, under one opening of the home. -/
structure OutageConnectionIdentity where
  runtime : Bytes
  process : ℕ
  connection : ℕ
  homeGeneration : ℕ
  deriving DecidableEq

/-- One turn whose facts are kept. -/
structure OutageTarget where
  identity : ConnectionWorkTargetIdentity
  turn : Bytes
  casTurn : CasTurnId
  deriving DecidableEq

/-- Its connection. -/
def OutageTarget.connection (target : OutageTarget) : OutageConnectionIdentity where
  runtime := target.identity.runtimeId
  process := target.identity.processGeneration
  connection := target.identity.connectionGeneration
  homeGeneration := target.identity.homeGeneration

/-! ## Facts -/

/-- Which facts give way to which; the later ones stay. -/
inductive OutagePriority
  | operational | mediaHandoff | userCorrelation | transcriptNarrative | assistantFinal | terminal
  | identityCorrelation
  deriving DecidableEq

/-- What a text is. -/
inductive OutageTextKind
  | identityCorrelation | userCorrelation | mediaHandoff | assistantFinal | transcriptNarrative
  | operational
  deriving DecidableEq

/-- How a turn ended. -/
inductive NormalTurnTerminalStatus
  | completed | interrupted | failed
  deriving DecidableEq

/-- The facts. -/
inductive OutageFact
  | identity (observation : ProviderObservationId) (item : CasItemId)
  | lifecycle (observation : ProviderObservationId) (begins : ProviderObservationBegin)
  | control (observation : ProviderObservationId) (ordinal : ℕ) (priority : OutagePriority)
      (control : ProviderObservationControl)
  | terminal (status : NormalTurnTerminalStatus)
  | completeField (observation : ProviderObservationId) (ordinal : ℕ)
      (context : ProviderValueContext) (kind : OutageTextKind) (text : List Char)
  | userCorrelation (item : CasItemId) (client : List Char)
  | mediaHandoff (item : CasItemId) (savedPath : List Char)
  deriving DecidableEq

/-- How much a text matters. -/
def OutageTextKind.priority : OutageTextKind → OutagePriority
  | .identityCorrelation => .identityCorrelation
  | .userCorrelation => .userCorrelation
  | .mediaHandoff => .mediaHandoff
  | .assistantFinal => .assistantFinal
  | .transcriptNarrative => .transcriptNarrative
  | .operational => .operational

/-- How much a fact matters. -/
def OutageFact.priority : OutageFact → OutagePriority
  | .identity .. | .lifecycle .. => .identityCorrelation
  | .control _ _ priority _ => priority
  | .terminal _ => .terminal
  | .completeField _ _ _ kind _ => kind.priority
  | .userCorrelation .. => .userCorrelation
  | .mediaHandoff .. => .mediaHandoff

/-- Why a fact is refused. -/
inductive OutageBufferError
  | targetLimit | duplicateTarget | fieldLimit | encodedByteLimit | factLimit | unknownTarget
  deriving DecidableEq

/-- What the buffer answers. -/
abbrev Buffered (α : Type) := Except OutageBufferError α

/-! ## The encoder -/

/-- One write: bytes as they are, or a text behind its length. -/
inductive Write
  | raw (value : Bytes)
  | text (value : List Char)

namespace Write

/-- The low byte of a number. -/
def byte (value : ℕ) : Write := .raw [UInt8.ofNat value]

/-- A number of eight bytes, the lowest first. -/
def number (value : ℕ) : Write := .raw (leBytes 8 value)

/-- What a write spells. -/
def bytes : Write → Bytes
  | .raw value => value
  | .text value => leBytes 8 (utf8 value).length ++ utf8 value

end Write

/-- The state of one encoding; without an output it only counts. -/
structure Encoder where
  output : Option Bytes
  length : ℕ
  fieldLimit : ℕ

namespace Encoder

/-- Bytes as they are. -/
def raw (e : Encoder) (value : Bytes) : Buffered Encoder := do
  let length ← checkedAdd .encodedByteLimit e.length value.length
  return { e with output := e.output.map (· ++ value), length }

/-- A text behind its length. -/
def text (e : Encoder) (value : List Char) : Buffered Encoder := do
  ensure ((utf8 value).length ≤ e.fieldLimit) .fieldLimit
  let e ← e.raw (leBytes 8 (utf8 value).length)
  e.raw (utf8 value)

/-- One write. -/
def write (e : Encoder) : Write → Buffered Encoder
  | .raw value => e.raw value
  | .text value => e.text value

end Encoder

/-- The writes of a context. -/
def contextWrites : ProviderValueContext → List Write
  | .field field => [.byte 0, .byte field.ctorIdx]
  | .structured root depth position =>
    let (tag, index) := match position with
      | .listElement index => (0, index)
      | .objectKey entry => (1, entry)
      | .objectValue entry => (2, entry)
    [.byte 1, .byte root.ctorIdx, .byte depth, .byte tag, .number index]

/-- The writes of a scalar. -/
def scalarWrites : ProviderScalar → List Write
  | .null => [.byte 0]
  | .boolean value => [.byte 1, .byte value.toNat]
  | .signed value => [.byte 2, .number (value % 2 ^ 64).toNat]
  | .unsigned value => [.byte 3, .number value]
  | .finiteFloat bits => [.byte 4, .number bits]

/-- The writes of a control. -/
def controlWrites : ProviderObservationControl → List Write
  | .beginField context => .byte 0 :: contextWrites context
  | .endField context => .byte 1 :: contextWrites context
  | .beginContainer context container =>
    .byte 2 :: (contextWrites context ++ [.byte container.ctorIdx])
  | .endContainer context container =>
    .byte 3 :: (contextWrites context ++ [.byte container.ctorIdx])
  | .beginElement context index => .byte 4 :: (contextWrites context ++ [.number index])
  | .endElement context index => .byte 5 :: (contextWrites context ++ [.number index])
  | .beginObjectEntry root depth entry =>
    [.byte 6, .byte root.ctorIdx, .byte depth, .number entry]
  | .endObjectEntry root depth entry =>
    [.byte 7, .byte root.ctorIdx, .byte depth, .number entry]
  | .enum context value => .byte 8 :: (contextWrites context ++ [.byte value.ctorIdx])
  | .scalar context value => .byte 9 :: (contextWrites context ++ scalarWrites value)

/-- The writes of a beginning. -/
def beginWrites : ProviderObservationBegin → List Write
  | .item lifecycle kind => [.byte 0, .byte lifecycle.ctorIdx, .byte kind.ctorIdx]
  | .delta kind => [.byte 1, .byte kind.ctorIdx]

/-- The writes of a target. -/
def targetWrites (target : OutageTarget) : List Write :=
  [.raw target.identity.runtimeId, .number target.identity.processGeneration,
    .number target.identity.connectionGeneration, .number target.identity.registrationSerial,
    .raw target.identity.threadId, .text target.identity.casThreadId.text,
    .number target.identity.loadedGeneration.process,
    .number target.identity.loadedGeneration.thread, .number target.identity.homeGeneration,
    .raw target.turn, .text target.casTurn.text, .byte 0]

/-- The writes of a fact of the target with number `target`. -/
def factWrites (target : ℕ) (fact : OutageFact) : List Write :=
  .number target :: .byte fact.priority.ctorIdx ::
    match fact with
    | .identity observation item => [.byte 0, .raw observation, .text item.text]
    | .lifecycle observation begins => .byte 1 :: .raw observation :: beginWrites begins
    | .control observation ordinal _ control =>
      .byte 2 :: .raw observation :: .number ordinal :: controlWrites control
    | .terminal status => [.byte 3, .byte status.ctorIdx]
    | .completeField observation ordinal context kind text =>
      .byte 4 :: .raw observation :: .number ordinal ::
        (contextWrites context ++ [.byte kind.ctorIdx, .text text])
    | .userCorrelation item client => [.byte 5, .text item.text, .text client]
    | .mediaHandoff item savedPath => [.byte 6, .text item.text, .text savedPath]

namespace Encoder

/-- The writes of an encoding, one after the other. -/
def run (e : Encoder) (writes : List Write) : Buffered Encoder :=
  writes.foldlM write e

end Encoder

/-- The bytes of a target. -/
def targetLen (target : OutageTarget) (fieldLimit : ℕ) : Buffered ℕ := do
  let e ← Encoder.run ⟨none, 0, fieldLimit⟩ (targetWrites target)
  return e.length

/-- The bytes of a fact. -/
def factLen (target : ℕ) (fact : OutageFact) (fieldLimit : ℕ) : Buffered ℕ := do
  let e ← Encoder.run ⟨none, 0, fieldLimit⟩ (factWrites target fact)
  return e.length

/-- The bytes of a fact.  The encoding of a counted fact does not fail. -/
def encodeFact (target : ℕ) (fact : OutageFact) : Bytes :=
  match Encoder.run ⟨some [], 0, u64Size - 1⟩ (factWrites target fact) with
  | .ok e => e.output.getD []
  | .error _ => []

/-! ## Counted and written -/

namespace Encoder

variable {e e' : Encoder} {out value : Bytes} {writes : List Write} {w : Write}

theorem raw_eq_ok : e.raw value = .ok e' ↔ e.length + value.length < u64Size ∧
      e' = { e with output := e.output.map (· ++ value), length := e.length + value.length } := by
  simp only [raw, bind_eq_ok, checkedAdd_eq_ok, pure_eq_ok_iff]
  constructor
  · rintro ⟨_, ⟨rfl, hlt⟩, rfl⟩
    exact ⟨hlt, rfl⟩
  · rintro ⟨hlt, rfl⟩
    exact ⟨_, ⟨rfl, hlt⟩, rfl⟩

/-- The encoder that writes what `e` counts. -/
def writing (e : Encoder) (out : Bytes) : Encoder := ⟨some out, e.length, u64Size - 1⟩

theorem raw_writing (h : e.raw value = .ok e') :
    (e.writing out).raw value = .ok (e'.writing (out ++ value)) := by
  obtain ⟨hlt, rfl⟩ := raw_eq_ok.mp h
  exact raw_eq_ok.mpr ⟨hlt, rfl⟩

/-- **A write that was counted can be made**: a text within the limit of its field has a length that
the counter held, so it is also within the largest limit. -/
theorem write_writing (h : e.write w = .ok e') :
    (e.writing out).write w = .ok (e'.writing (out ++ w.bytes)) := by
  cases w with
  | raw value => exact raw_writing h
  | text value =>
    obtain ⟨_, -, h⟩ := bind_eq_ok.mp h
    obtain ⟨e₁, hlen, hvalue⟩ := bind_eq_ok.mp h
    have hfits : (utf8 value).length ≤ u64Size - 1 := by
      have := (raw_eq_ok.mp hvalue).1
      omega
    refine bind_eq_ok.mpr ⟨(), ensure_eq_ok.mpr hfits, bind_eq_ok.mpr ⟨_, raw_writing hlen, ?_⟩⟩
    rw [raw_writing hvalue, Write.bytes, append_assoc]

theorem run_writing : ∀ {e : Encoder} {out}, e.run writes = .ok e' →
    (e.writing out).run writes = .ok (e'.writing (out ++ writes.flatMap Write.bytes)) := by
  induction writes with
  | nil =>
    rintro e out ⟨⟩
    rw [flatMap_nil, append_nil]
    rfl
  | cons w rest ih =>
    intro e out h
    obtain ⟨e₁, hw, hrest⟩ := bind_eq_ok.mp h
    refine bind_eq_ok.mpr ⟨_, write_writing hw, ?_⟩
    rw [flatMap_cons, ← append_assoc]
    exact ih hrest

theorem write_length (h : e.write w = .ok e') : e'.length = e.length + w.bytes.length := by
  cases w with
  | raw value =>
    obtain ⟨-, rfl⟩ := raw_eq_ok.mp h
    rfl
  | text value =>
    obtain ⟨_, -, h⟩ := bind_eq_ok.mp h
    obtain ⟨e₁, hlen, hvalue⟩ := bind_eq_ok.mp h
    obtain ⟨-, rfl⟩ := raw_eq_ok.mp hlen
    obtain ⟨-, rfl⟩ := raw_eq_ok.mp hvalue
    simp [Write.bytes, add_assoc]

theorem run_length : ∀ {e : Encoder}, e.run writes = .ok e' →
    e'.length = e.length + (writes.flatMap Write.bytes).length := by
  induction writes with
  | nil =>
    rintro e ⟨⟩
    rfl
  | cons w rest ih =>
    intro e h
    obtain ⟨e₁, hw, hrest⟩ := bind_eq_ok.mp h
    rw [ih hrest, write_length hw, flatMap_cons, length_append, add_assoc]

end Encoder

/-- **What was counted is what is written.** -/
theorem encodeFact_of_factLen {target length limit : ℕ} {fact : OutageFact}
    (h : factLen target fact limit = .ok length) :
    encodeFact target fact = (factWrites target fact).flatMap Write.bytes ∧
      (encodeFact target fact).length = length := by
  obtain ⟨e, hrun, hlen⟩ := bind_eq_ok.mp h
  have hlen : e.length = length := Except.ok.inj hlen
  have hwrite : encodeFact target fact = (factWrites target fact).flatMap Write.bytes := by
    have := @Encoder.run_writing _ _ _ [] hrun
    simp only [Encoder.writing, nil_append] at this
    rw [encodeFact, this]
    rfl
  have hcount := Encoder.run_length hrun
  exact ⟨hwrite, by rw [hwrite, ← hlen, hcount, zero_add]⟩

/-- Two letters of two bytes each meet a limit of four; under a limit of three they are refused. -/
theorem encodeFact_of_factLen_full :
    let item : CasItemId := ⟨['i'], by decide⟩
    factLen 7 (.userCorrelation item ['é', 'é']) 3 = .error .fieldLimit ∧
      factLen 7 (.userCorrelation item ['é', 'é']) 4 = .ok 31 ∧
      (encodeFact 7 (.userCorrelation item ['é', 'é'])).length = 31 := by
  intro item
  have h : factLen 7 (.userCorrelation item ['é', 'é']) 4 = .ok 31 := by decide +kernel
  exact ⟨by decide +kernel, h, (encodeFact_of_factLen h).2⟩

end Beryl.Outage
