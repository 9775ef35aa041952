import Beryl.Machinery.Wire

/-!
# Supervisor/Codec — the frames of the supervisor and how they are written and read

The frames that travel between the supervisor and its peers, with the two hand-written routines over
them: `encodeFrame` writes a header of 48 bytes and the payload of one of twenty kinds,
`decodeFrame` reads one back, and `decodeOwned` does so again for a frame it may consume, with its
own reading of the one kind whose page it keeps in place.
-/

namespace Beryl.Supervisor

open Wire

/-! ## Frames -/

/-- The version in the header. -/
def protocolVersion : ℕ := 2
/-- The length of a header. -/
def headerLen : ℕ := 48
/-- The most bytes of a payload. -/
def maxPayloadLen : ℕ := 128 * 1024
/-- The most bytes of a path. -/
def maxPathLen : ℕ := 4096
/-- The most bytes of a tail. -/
def maxDiagnosticLen : ℕ := 4096
/-- The most bytes of a page. -/
def maxReaderPage : ℕ := 8192
/-- The most bytes of an argument. -/
def maxArgumentLen : ℕ := 8192
/-- The most arguments. -/
def maxArguments : ℕ := 64

/-- `BRYLWSL2` -/
def magic : Bytes := [66, 82, 89, 76, 87, 83, 76, 50]

/-- An array of `n` bytes. -/
abbrev FixedBytes (n : ℕ) := { bytes : Bytes // bytes.length = n }

/-- The nonce of a session. -/
abbrev Nonce := FixedBytes 32
/-- The identity of a reader. -/
abbrev ReaderId := FixedBytes 16

/-- Why a reader failed. -/
inductive ReaderFailure
  | refused | missing | unreadable | changed | protocol | cancelled
deriving DecidableEq

/-- Who is ready. -/
inductive Role
  | contextBroker | supervisor
deriving DecidableEq

/-- What is observed. -/
inductive ObservationKind
  | executable | directory | home
deriving DecidableEq

/-- How a workload ended. -/
inductive ExitStatus
  | exited (code : Int32)
  | signaled (signal : Int32)
deriving DecidableEq

/-- The end of an output. -/
structure DiagnosticTail where
  bytes : Bytes
  truncated : Bool
deriving DecidableEq

/-- What is known of an ended workload. -/
structure WorkloadResult where
  exit : ExitStatus
  observation : Option String
  stdout : DiagnosticTail
  stderr : DiagnosticTail
deriving DecidableEq

/-- What failed. -/
inductive FailureKind
  | protocol | unsupported | context | nameSpace | credentials | workingDirectory | exec
  | observation | control | timeout | system
deriving DecidableEq

/-- The frames. -/
inductive Frame
  | initialise
  | launchServer (executable executionRoot : String) (arguments : List String)
  | observe (kind : ObservationKind) (path : Option String) (timeoutMs : UInt32)
  | stop | brokerClose
  | configureReaders (limit : UInt32)
  | readerOpen (id : ReaderId) (path : String)
  | readerRead (id : ReaderId) (sequence offset : UInt64) (allowance : UInt32)
  | readerCancel (id : ReaderId) (sequence : UInt64)
  | readerClose (id : ReaderId) (sequence : UInt64)
  | readerOpened (id : ReaderId) (length : UInt64)
  | readerPage (id : ReaderId) (sequence offset : UInt64) (bytes : Bytes) (eof : Bool)
  | readerFailed (id : ReaderId) (sequence : UInt64) (kind : ReaderFailure)
  | readerClosed (id : ReaderId) (sequence : UInt64) (cancelled : Bool)
  | ready (role : Role)
  | workloadStarted | shutdownPending
  | ownedNamespaceClosed (result : WorkloadResult)
  | linuxCompanionsClosed
  | failure (kind : FailureKind) (errno : Option Int32)
deriving DecidableEq

/-- Why a frame is refused. -/
inductive CodecError
  | io (error : String)
  | invalid (reason : String)
deriving DecidableEq

/-- A step of writing or of reading a frame. -/
abbrev Codec := Scanner CodecError

/-! ## Texts -/

/-- A text that fits its field, holds no NUL and, as a path, is absolute. -/
def ValidText (text : String) (maximum : ℕ) (path : Bool) : Prop :=
  (textBytes text).length ≤ maximum ∧ 0 ∉ textBytes text
    ∧ (path = true → text.toList.head? = some '/')

instance (text : String) (maximum : ℕ) (path : Bool) : Decidable (ValidText text maximum path) :=
  inferInstanceAs (Decidable (_ ∧ _ ∧ _))

/-- `validate_text`. -/
def validateText (text : String) (maximum : ℕ) (path : Bool) : Codec Unit :=
  check (ValidText text maximum path) (.invalid "invalid text or absolute path")

/-! ## Byte codes of the enumerations -/

/-- The byte of a flag. -/
def flagByte (flag : Bool) : UInt8 := if flag then 1 else 0

/-- The code of an observation. -/
def ObservationKind.toByte : ObservationKind → UInt8
  | .executable => 1
  | .directory => 2
  | .home => 3

/-- The observation of a code. -/
def ObservationKind.ofByte? (byte : UInt8) : Option ObservationKind :=
  match byte.toNat with
  | 1 => some .executable
  | 2 => some .directory
  | 3 => some .home
  | _ => none

/-- The code of a reader's failure. -/
def ReaderFailure.toByte : ReaderFailure → UInt8
  | .refused => 1
  | .missing => 2
  | .unreadable => 3
  | .changed => 4
  | .protocol => 5
  | .cancelled => 6

/-- The reader's failure of a code. -/
def ReaderFailure.ofByte? (byte : UInt8) : Option ReaderFailure :=
  match byte.toNat with
  | 1 => some .refused
  | 2 => some .missing
  | 3 => some .unreadable
  | 4 => some .changed
  | 5 => some .protocol
  | 6 => some .cancelled
  | _ => none

/-- The code of a role. -/
def Role.toByte : Role → UInt8
  | .contextBroker => 1
  | .supervisor => 2

/-- The role of a code. -/
def Role.ofByte? (byte : UInt8) : Option Role :=
  match byte.toNat with
  | 1 => some .contextBroker
  | 2 => some .supervisor
  | _ => none

/-- The code of a failure. -/
def FailureKind.toByte : FailureKind → UInt8
  | .protocol => 1
  | .unsupported => 2
  | .context => 3
  | .nameSpace => 4
  | .credentials => 5
  | .workingDirectory => 6
  | .exec => 7
  | .observation => 8
  | .control => 9
  | .timeout => 10
  | .system => 11

/-- The failure of a code. -/
def FailureKind.ofByte? (byte : UInt8) : Option FailureKind :=
  match byte.toNat with
  | 1 => some .protocol
  | 2 => some .unsupported
  | 3 => some .context
  | 4 => some .nameSpace
  | 5 => some .credentials
  | 6 => some .workingDirectory
  | 7 => some .exec
  | 8 => some .observation
  | 9 => some .control
  | 10 => some .timeout
  | 11 => some .system
  | _ => none

/-- `offset.checked_add(count)` does not overflow. -/
def Reaches (offset : UInt64) (count : ℕ) : Prop := offset.toNat + count < 2 ^ 64

instance (offset : UInt64) (count : ℕ) : Decidable (Reaches offset count) :=
  inferInstanceAs (Decidable (_ < _))

/-! ## Writing -/

namespace Payload

/-- Write a byte. -/
def byte (value : UInt8) : Codec Unit := put [value]

/-- Write a `u32`. -/
def number (value : UInt32) : Codec Unit := put (leBytes 4 value.toNat)

/-- Write a `u64`. -/
def wide (value : UInt64) : Codec Unit := put (leBytes 8 value.toNat)

/-- Write a reader's identity. -/
def reader (id : ReaderId) : Codec Unit := do
  check (id.val ≠ List.replicate 16 0) (.invalid "zero reader identity")
  put id.val

/-- A field of bounded length; the payload as a whole is bounded too. -/
def bytes (value : Bytes) (maximum : ℕ) : Codec Unit := do
  let written ← get
  check (¬ (maximum < value.length ∨ headerLen + maxPayloadLen < written.length + 4 + value.length))
    (.invalid "field or aggregate exceeds bound")
  number (.ofNat value.length)
  put value

/-- Write a text. -/
def text (value : String) (maximum : ℕ) (path : Bool) : Codec Unit := do
  validateText value maximum path
  bytes (textBytes value) maximum

/-- Write a tail. -/
def tail (value : DiagnosticTail) : Codec Unit := do
  byte (flagByte value.truncated)
  bytes value.bytes maxDiagnosticLen

/-- Write an exit status. -/
def exitStatus : ExitStatus → Codec Unit
  | .exited code => do
    check (0 ≤ code ∧ code ≤ 255) (.invalid "invalid exit status")
    byte 1
    number code.toUInt32
  | .signaled signal => do
    check (1 ≤ signal ∧ signal ≤ 64) (.invalid "invalid exit status")
    byte 2
    number signal.toUInt32

/-- Write what was observed, if anything. -/
def observation (path : Option String) : Codec Unit := do
  byte (flagByte path.isSome)
  match path with
  | some path => text path maxPathLen true
  | none => return

/-- Write an error number, if any. -/
def errno (errno : Option Int32) : Codec Unit := do
  byte (flagByte errno.isSome)
  match errno with
  | some errno => do
    check (¬ (errno ≤ 0 ∨ 4095 < errno)) (.invalid "invalid errno")
    number errno.toUInt32
  | none => return

/-- The path of an observation, at the end of its frame. -/
def observed : ObservationKind → Option String → Codec ℕ
  | .home, none => return 3
  | .executable, some path | .directory, some path => do
    text path maxPathLen true
    return 3
  | _, _ => throw (.invalid "invalid observation path")

/-- Write the payload of a frame, and return the tag of its kind. -/
def frame : Frame → Codec ℕ
  | .initialise => return 1
  | .launchServer executable executionRoot arguments => do
    text executable maxPathLen true
    text executionRoot maxPathLen true
    check (arguments.length ≤ maxArguments) (.invalid "too many arguments")
    number (.ofNat arguments.length)
    writeEach (fun argument => text argument maxArgumentLen false) arguments
    return 2
  | .observe kind path timeoutMs => do
    check (¬ (timeoutMs = 0 ∨ 30000 < timeoutMs)) (.invalid "invalid observation deadline")
    byte kind.toByte
    number timeoutMs
    observed kind path
  | .stop => return 4
  | .brokerClose => return 5
  | .configureReaders limit => do
    check (limit ≠ 0) (.invalid "zero reader allowance")
    number limit
    return 6
  | .readerOpen id path => do
    reader id
    text path maxPathLen true
    check (path.toList.head? = some '/') (.invalid "reader path is not absolute")
    return 7
  | .readerRead id sequence offset allowance => do
    reader id
    check (¬ (sequence = 0 ∨ allowance = 0 ∨ maxReaderPage < allowance.toNat
      ∨ ¬ Reaches offset allowance.toNat)) (.invalid "invalid reader request")
    wide sequence
    wide offset
    number allowance
    return 8
  | .readerCancel id sequence => do
    reader id
    check (sequence ≠ 0) (.invalid "zero reader sequence")
    wide sequence
    return 9
  | .readerClose id sequence => do
    reader id
    check (sequence ≠ 0) (.invalid "zero reader sequence")
    wide sequence
    return 10
  | .readerOpened id length => do
    reader id
    check (length ≠ 0) (.invalid "empty reader source")
    wide length
    return 107
  | .readerPage id sequence offset page eof => do
    reader id
    check (¬ (sequence = 0 ∨ maxReaderPage < page.length ∨ ¬ Reaches offset page.length))
      (.invalid "invalid reader page")
    wide sequence
    wide offset
    bytes page maxReaderPage
    byte (flagByte eof)
    return 108
  | .readerFailed id sequence kind => do
    reader id
    wide sequence
    byte kind.toByte
    return 109
  | .readerClosed id sequence cancelled => do
    reader id
    wide sequence
    byte (flagByte cancelled)
    return 110
  | .ready role => do
    byte role.toByte
    return 101
  | .workloadStarted => return 102
  | .shutdownPending => return 103
  | .ownedNamespaceClosed result => do
    exitStatus result.exit
    observation result.observation
    tail result.stdout
    tail result.stderr
    return 104
  | .linuxCompanionsClosed => return 105
  | .failure kind errno => do
    byte kind.toByte
    Payload.errno errno
    return 106

end Payload

/-- A page is checked before anything is written. -/
def checkPage : Frame → Except CodecError Unit
  | .readerPage _ _ _ bytes _ =>
    Fallible.ensure (bytes.length ≤ maxReaderPage) (.invalid "invalid reader page")
  | _ => .ok ()

/-- **Write a frame.** -/
def encodeFrame (nonce : Nonce) (frame : Frame) : Except CodecError Bytes := do
  checkPage frame
  let (tag, payload) ← (Payload.frame frame).run (List.replicate headerLen 0)
  let length := payload.length - headerLen
  Fallible.ensure (length ≤ maxPayloadLen) (.invalid "frame exceeds bound")
  return magic ++ leBytes 2 protocolVersion ++ leBytes 2 tag ++ leBytes 4 length ++ nonce.val
    ++ payload.drop headerLen

/-! ## Reading -/

namespace Cursor

/-- The next bytes. -/
def take (count : ℕ) : Codec Bytes := Wire.take count (.invalid "truncated payload")

/-- A run of `count` bytes as a value of fixed size. -/
def takeFixed (count : ℕ) : Codec (FixedBytes count) := do
  let bytes ← take count
  if h : bytes.length = count then return ⟨bytes, h⟩ else throw (.invalid "truncated payload")

/-- Read a reader's identity. -/
def reader : Codec ReaderId := do
  let id ← takeFixed 16
  check (id.val ≠ List.replicate 16 0) (.invalid "zero reader identity")
  return id

/-- Read a `u64`. -/
def wide : Codec UInt64 := do
  return .ofNat (ofLeBytes (← take 8))

/-- Read a `u32`. -/
def number : Codec UInt32 := do
  return .ofNat (ofLeBytes (← take 4))

/-- Read a byte. -/
def byte : Codec UInt8 := do
  return .ofNat (ofLeBytes (← take 1))

/-- A byte that codes a value. -/
def coded {κ : Type} (ofByte? : UInt8 → Option κ) (reason : String) : Codec κ := do
  match ofByte? (← byte) with
  | some value => return value
  | none => throw (.invalid reason)

/-- Read a flag. -/
def flag : Codec Bool :=
  coded (fun byte => match byte.toNat with | 0 => some false | 1 => some true | _ => none)
    "invalid boolean"

/-- Read a field of bounded length. -/
def bytes (maximum : ℕ) : Codec Bytes := do
  let count ← number
  check (count.toNat ≤ maximum) (.invalid "field exceeds bound")
  take count.toNat

/-- Read a text. -/
def text (maximum : ℕ) (path : Bool) : Codec String := do
  let bytes ← bytes maximum
  match String.fromUTF8? ⟨⟨bytes⟩⟩ with
  | some text => do
    validateText text maximum path
    return text
  | none => throw (.invalid "non UTF-8 text")

/-- Read a tail. -/
def tail : Codec DiagnosticTail := do
  let truncated ← flag
  let bytes ← bytes maxDiagnosticLen
  return ⟨bytes, truncated⟩

/-- Read an exit status. -/
def exitStatus : Codec ExitStatus := do
  let kind ← byte
  let code ← number
  if kind = 1 ∧ 0 ≤ code.toInt32 ∧ code.toInt32 ≤ 255 then return .exited code.toInt32
  else if kind = 2 ∧ 1 ≤ code.toInt32 ∧ code.toInt32 ≤ 64 then return .signaled code.toInt32
  else throw (.invalid "invalid exit status")

/-- Read what was observed, if anything. -/
def observation : Codec (Option String) := do
  if ← flag then return some (← text maxPathLen true) else return none

/-- Read an error number. -/
def errnoNumber : Codec Int32 := do
  let number ← number
  check (¬ (number = 0 ∨ 4095 < number)) (.invalid "invalid errno")
  return number.toInt32

/-- Read an error number, if any. -/
def errno : Codec (Option Int32) := do
  if ← flag then return some (← errnoNumber) else return none

/-- Read the payload of a frame of the kind `tag` names. -/
def frame : ℕ → Codec Frame
  | 1 => return .initialise
  | 2 => do
    let executable ← text maxPathLen true
    let executionRoot ← text maxPathLen true
    let count ← number
    check (count.toNat ≤ maxArguments) (.invalid "too many arguments")
    let arguments ← readEach (text maxArgumentLen false) count.toNat
    return .launchServer executable executionRoot arguments
  | 3 => do
    let kind ← coded ObservationKind.ofByte? "unknown observation"
    let timeoutMs ← number
    check (¬ (timeoutMs = 0 ∨ 30000 < timeoutMs)) (.invalid "invalid observation deadline")
    if kind = .home then return .observe kind none timeoutMs
    else do
      let path ← text maxPathLen true
      return .observe kind (some path) timeoutMs
  | 4 => return .stop
  | 5 => return .brokerClose
  | 6 => do
    let limit ← number
    check (limit ≠ 0) (.invalid "zero reader allowance")
    return .configureReaders limit
  | 7 => do
    let id ← reader
    let path ← text maxPathLen true
    check (path.toList.head? = some '/') (.invalid "reader path is not absolute")
    return .readerOpen id path
  | 8 => do
    let id ← reader
    let sequence ← wide
    let offset ← wide
    let allowance ← number
    check (¬ (sequence = 0 ∨ allowance = 0 ∨ maxReaderPage < allowance.toNat
      ∨ ¬ Reaches offset allowance.toNat)) (.invalid "invalid reader request")
    return .readerRead id sequence offset allowance
  | 9 => do
    let id ← reader
    let sequence ← wide
    check (sequence ≠ 0) (.invalid "zero reader sequence")
    return .readerCancel id sequence
  | 10 => do
    let id ← reader
    let sequence ← wide
    check (sequence ≠ 0) (.invalid "zero reader sequence")
    return .readerClose id sequence
  | 107 => do
    let id ← reader
    let length ← wide
    check (length ≠ 0) (.invalid "empty reader source")
    return .readerOpened id length
  | 108 => do
    let id ← reader
    let sequence ← wide
    let offset ← wide
    let page ← bytes maxReaderPage
    let eof ← flag
    check (¬ (sequence = 0 ∨ ¬ Reaches offset page.length)) (.invalid "invalid reader page")
    return .readerPage id sequence offset page eof
  | 109 => do
    let id ← reader
    let sequence ← wide
    let kind ← coded ReaderFailure.ofByte? "invalid reader failure"
    return .readerFailed id sequence kind
  | 110 => do
    let id ← reader
    let sequence ← wide
    let cancelled ← flag
    return .readerClosed id sequence cancelled
  | 101 => do
    let role ← coded Role.ofByte? "unknown role"
    return .ready role
  | 102 => return .workloadStarted
  | 103 => return .shutdownPending
  | 104 => do
    let exit ← exitStatus
    let observation ← observation
    let stdout ← tail
    let stderr ← tail
    return .ownedNamespaceClosed ⟨exit, observation, stdout, stderr⟩
  | 105 => return .linuxCompanionsClosed
  | 106 => do
    let kind ← coded FailureKind.ofByte? "unknown failure"
    let errno ← errno
    return .failure kind errno
  | _ => throw (.invalid "unknown frame")

end Cursor

/-- The bytes from `start` to `stop`. -/
def slice (bytes : Bytes) (start stop : ℕ) : Bytes := (bytes.take stop).drop start

/-- The payload lengths that frames of the kind `tag` names can have. -/
def readerLength (tag length : ℕ) : Bool :=
  match tag with
  | 6 => length == 4
  | 7 => decide (21 ≤ length ∧ length ≤ 20 + maxPathLen)
  | 8 => length == 36
  | 9 | 10 | 107 => length == 24
  | 108 => decide (37 ≤ length ∧ length ≤ 37 + maxReaderPage)
  | 109 | 110 => length == 25
  | _ => true

/-- The checks of a header: the length and the tag it announces. -/
def header (bytes : Bytes) (expected : Option Nonce) : Except CodecError (Bytes × ℕ × ℕ) := do
  Fallible.ensure (headerLen ≤ bytes.length) (.invalid "truncated header")
  Fallible.ensure (slice bytes 0 8 = magic ∧ ofLeBytes (slice bytes 8 10) = protocolVersion)
    (.invalid "invalid magic or version")
  let tag := ofLeBytes (slice bytes 10 12)
  Fallible.ensure (1 ≤ tag ∧ tag ≤ 10 ∨ 101 ≤ tag ∧ tag ≤ 110) (.invalid "unknown frame tag")
  let length := ofLeBytes (slice bytes 12 16)
  Fallible.ensure (length ≤ maxPayloadLen) (.invalid "frame exceeds bound")
  Fallible.ensure (readerLength tag length = true) (.invalid "reader frame exceeds bound")
  let nonce := slice bytes 16 48
  Fallible.ensure (∀ expected' ∈ expected, expected'.val = nonce) (.invalid "nonce mismatch")
  return (nonce, length, tag)

/-- The payload was read to its end: the cursor, having left `rest`, stands at `length`. -/
def finished (payload rest : Bytes) (length : ℕ) : Except CodecError Unit :=
  Fallible.ensure (payload.length - rest.length = length) (.invalid "trailing payload")

/-- **Read a frame.** -/
def decodeFrame (expectedNonce : Nonce) (bytes : Bytes) : Except CodecError Frame := do
  let (_, length, tag) ← header bytes (some expectedNonce)
  Fallible.ensure (bytes.length = headerLen + length) (.invalid "truncated or trailing frame")
  let payload := bytes.drop headerLen
  let (frame, rest) ← (Cursor.frame tag).run payload
  finished payload rest length
  return frame

/-- Read the payload of a page, of which only the place within `bytes` is taken. -/
def Cursor.ownedPage (bytes : Bytes) : Codec Frame := do
  let id ← reader
  let sequence ← wide
  let offset ← wide
  let count ← number
  check (¬ (sequence = 0 ∨ maxReaderPage < count.toNat ∨ ¬ Reaches offset count.toNat))
    (.invalid "invalid reader page")
  let rest ← get
  let start := headerLen + ((bytes.drop headerLen).length - rest.length)
  let _ ← take count.toNat
  let eof ← flag
  return .readerPage id sequence offset (slice bytes start (start + count.toNat)) eof

/-- **Read a frame that is given away**, so that a page stays in the bytes it came in. -/
def decodeOwned (expectedNonce : Nonce) (bytes : Bytes) : Except CodecError Frame := do
  let (_, length, tag) ← header bytes (some expectedNonce)
  if tag ≠ 108 then decodeFrame expectedNonce bytes
  else do
    Fallible.ensure (bytes.length = headerLen + length) (.invalid "truncated or trailing frame")
    let payload := bytes.drop headerLen
    let (frame, rest) ← (Cursor.ownedPage bytes).run payload
    finished payload rest length
    return frame

end Beryl.Supervisor
