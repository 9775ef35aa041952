import Beryl.Supervisor.Codec

/-!
# Supervisor/Format — the wire format of frames

What a frame is on the wire: which frames are valid, the tag of a frame and the bytes of its
payload.  The writer and the reader are each compared with that format, field by field:
`prints_frame` says that the writer spells exactly the valid frames, `frame_sound` and
`frame_complete` that the reader accepts exactly their spellings.
-/

namespace Beryl.Supervisor

open Wire List Supervisor.Frame

/-! ## The format -/

/-- A field of bytes behind its length. -/
def bytesForm (value : Bytes) : Bytes := leBytes 4 value.length ++ value

/-- A text. -/
def textForm (text : String) : Bytes := bytesForm (textBytes text)

/-- A tail. -/
def tailForm (tail : DiagnosticTail) : Bytes := flagByte tail.truncated :: bytesForm tail.bytes

/-- Not zero. -/
def ValidId (id : ReaderId) : Prop := id.val ≠ List.replicate 16 0

/-- An absolute path that fits. -/
def ValidPath (path : String) : Prop := ValidText path maxPathLen true

/-- A code or signal there is. -/
def ExitStatus.Valid : ExitStatus → Prop
  | .exited code => 0 ≤ code ∧ code ≤ 255
  | .signaled signal => 1 ≤ signal ∧ signal ≤ 64

/-- An exit status. -/
def ExitStatus.form : ExitStatus → Bytes
  | .exited code => 1 :: leBytes 4 code.toUInt32.toNat
  | .signaled signal => 2 :: leBytes 4 signal.toUInt32.toNat

/-- An optional field behind a flag that tells whether it is there. -/
def optionForm {α : Type} (form : α → Bytes) : Option α → Bytes
  | none => [flagByte false]
  | some a => flagByte true :: form a

/-- All its parts are valid. -/
def WorkloadResult.Valid (result : WorkloadResult) : Prop :=
  result.exit.Valid ∧ (∀ path ∈ result.observation, ValidPath path)
    ∧ result.stdout.bytes.length ≤ maxDiagnosticLen ∧ result.stderr.bytes.length ≤ maxDiagnosticLen

/-- All its parts. -/
def WorkloadResult.form (result : WorkloadResult) : Bytes :=
  result.exit.form ++ optionForm textForm result.observation ++ tailForm result.stdout
    ++ tailForm result.stderr

/-- An observation names a path unless it asks for the home directory. -/
def ValidObservation : ObservationKind → Option String → Prop
  | .home, path => path = none
  | _, none => False
  | _, some path => ValidPath path

namespace Frame

/-- The tag of a frame's kind. -/
def tag : Frame → ℕ
  | initialise => 1
  | launchServer .. => 2
  | observe .. => 3
  | stop => 4
  | brokerClose => 5
  | configureReaders .. => 6
  | readerOpen .. => 7
  | readerRead .. => 8
  | readerCancel .. => 9
  | readerClose .. => 10
  | ready .. => 101
  | workloadStarted => 102
  | shutdownPending => 103
  | ownedNamespaceClosed .. => 104
  | linuxCompanionsClosed => 105
  | failure .. => 106
  | readerOpened .. => 107
  | readerPage .. => 108
  | readerFailed .. => 109
  | readerClosed .. => 110

/-- **The frames that can travel.** -/
def Valid : Frame → Prop
  | launchServer executable executionRoot arguments =>
    ValidPath executable ∧ ValidPath executionRoot ∧ arguments.length ≤ maxArguments
      ∧ ∀ argument ∈ arguments, ValidText argument maxArgumentLen false
  | observe kind path timeoutMs =>
    ¬ (timeoutMs = 0 ∨ 30000 < timeoutMs) ∧ ValidObservation kind path
  | configureReaders limit => limit ≠ 0
  | readerOpen id path => ValidId id ∧ ValidPath path
  | readerRead id sequence offset allowance =>
    ValidId id ∧ ¬ (sequence = 0 ∨ allowance = 0 ∨ maxReaderPage < allowance.toNat
      ∨ ¬ Reaches offset allowance.toNat)
  | readerCancel id sequence => ValidId id ∧ sequence ≠ 0
  | readerClose id sequence => ValidId id ∧ sequence ≠ 0
  | readerOpened id length => ValidId id ∧ length ≠ 0
  | readerPage id sequence offset page _ =>
    ValidId id ∧ ¬ (sequence = 0 ∨ maxReaderPage < page.length ∨ ¬ Reaches offset page.length)
  | readerFailed id _ _ => ValidId id
  | readerClosed id _ _ => ValidId id
  | ownedNamespaceClosed result => result.Valid
  | failure _ errno => ∀ number ∈ errno, ¬ (number ≤ 0 ∨ 4095 < number)
  | _ => True

/-- **The payload of a frame.** -/
def payload : Frame → Bytes
  | launchServer executable executionRoot arguments =>
    textForm executable ++ textForm executionRoot ++ leBytes 4 arguments.length
      ++ arguments.flatMap textForm
  | observe kind path timeoutMs =>
    kind.toByte :: leBytes 4 timeoutMs.toNat ++ (path.elim [] textForm)
  | configureReaders limit => leBytes 4 limit.toNat
  | readerOpen id path => id.val ++ textForm path
  | readerRead id sequence offset allowance =>
    id.val ++ leBytes 8 sequence.toNat ++ leBytes 8 offset.toNat ++ leBytes 4 allowance.toNat
  | readerCancel id sequence => id.val ++ leBytes 8 sequence.toNat
  | readerClose id sequence => id.val ++ leBytes 8 sequence.toNat
  | readerOpened id length => id.val ++ leBytes 8 length.toNat
  | readerPage id sequence offset page eof =>
    id.val ++ leBytes 8 sequence.toNat ++ leBytes 8 offset.toNat ++ bytesForm page
      ++ [flagByte eof]
  | readerFailed id sequence kind => id.val ++ leBytes 8 sequence.toNat ++ [kind.toByte]
  | readerClosed id sequence cancelled =>
    id.val ++ leBytes 8 sequence.toNat ++ [flagByte cancelled]
  | ready role => [role.toByte]
  | ownedNamespaceClosed result => result.form
  | failure kind errno =>
    kind.toByte :: optionForm (fun errno => leBytes 4 errno.toUInt32.toNat) errno
  | _ => []

/-- A frame on the wire: the header, and the payload behind it. -/
def wire (nonce : Nonce) (frame : Frame) : Bytes :=
  magic ++ leBytes 2 protocolVersion ++ leBytes 2 frame.tag ++ leBytes 4 frame.payload.length
    ++ nonce.val ++ frame.payload

end Frame

/-! ## Writing -/

variable {maximum : ℕ}

namespace Payload

/-- The bound on a frame that is being written. -/
abbrev bound : ℕ := headerLen + maxPayloadLen

theorem prints_byte (value : UInt8) : Prints bound (byte value) True () [value] := prints_put _

theorem prints_number (value : UInt32) :
    Prints bound (number value) True () (leBytes 4 value.toNat) := prints_put _

theorem prints_wide (value : UInt64) :
    Prints bound (wide value) True () (leBytes 8 value.toNat) := prints_put _

theorem prints_reader (id : ReaderId) : Prints bound (reader id) (ValidId id) () id.val :=
  ((prints_check _ _).bind (prints_put _)).congr (by simp [ValidId]) fun _ => rfl

theorem prints_bytes (value : Bytes) (hmax : maximum < 2 ^ 32) :
    Prints bound (bytes value maximum) (value.length ≤ maximum) () (bytesForm value) := by
  have hnumber : value.length ≤ maximum →
      Prints bound (do number (.ofNat value.length); put value) True () (bytesForm value) := by
    intro hle
    refine ((prints_number _).bind (prints_put value)).congr (by simp) fun _ => ?_
    rw [bytesForm, UInt32.toNat_ofNat_of_lt' (Nat.lt_of_le_of_lt hle hmax)]
  have hget : ∀ written, (bytes value maximum).run written =
      (check (¬ (maximum < value.length ∨ bound < written.length + 4 + value.length))
        (.invalid "field or aggregate exceeds bound") >>= fun _ => do
          number (.ofNat value.length)
          put value).run written := fun _ => rfl
  refine ⟨fun {u written written'} h => ?_, fun {written} hvalid hlen => ?_⟩
  · rw [hget] at h
    obtain ⟨u', mid, hcheck, hrest⟩ := run_bind_eq_ok.mp h
    obtain ⟨hfits, rfl⟩ := run_check_eq_ok.mp hcheck
    have hle : value.length ≤ maximum := Nat.not_lt.mp fun hlt => hfits (.inl hlt)
    exact ⟨hle, ((hnumber hle).sound hrest).2⟩
  · have hfits : ¬ (maximum < value.length ∨ bound < written.length + 4 + value.length) := by
      have hform : (bytesForm value).length = 4 + value.length := by simp [bytesForm]
      rw [length_append, hform] at hlen
      omega
    rw [hget, run_bind_of_eq_ok (run_check _ hfits written)]
    exact (hnumber hvalid).complete trivial hlen

theorem prints_text (value : String) (hmax : maximum < 2 ^ 32) (path : Bool) :
    Prints bound (text value maximum path) (ValidText value maximum path) () (textForm value) :=
  ((prints_check _ _).bind (prints_bytes (textBytes value) hmax)).congr
    ⟨fun h => h.1, fun h => ⟨h, h.1⟩⟩ fun _ => rfl

theorem prints_path (path : String) :
    Prints bound (text path maxPathLen true) (ValidPath path) () (textForm path) :=
  prints_text path (by decide) true

theorem prints_tail (value : DiagnosticTail) :
    Prints bound (tail value) (value.bytes.length ≤ maxDiagnosticLen) () (tailForm value) :=
  ((prints_byte _).bind (prints_bytes _ (by decide))).congr (by simp) fun _ => rfl

theorem prints_exitStatus (exit : ExitStatus) :
    Prints bound (exitStatus exit) exit.Valid () exit.form := by
  cases exit with
  | exited code =>
    exact .congr (.bind (prints_check _ _) (.bind (prints_byte 1)
      (prints_number _))) (by simp [ExitStatus.Valid]) fun _ => rfl
  | signaled signal =>
    exact .congr (.bind (prints_check _ _) (.bind (prints_byte 2)
      (prints_number _))) (by simp [ExitStatus.Valid]) fun _ => rfl

theorem prints_observation (path? : Option String) :
    Prints bound (observation path?) (∀ path ∈ path?, ValidPath path) ()
      (optionForm textForm path?) := by
  cases path? with
  | none =>
    exact .congr (.bind (prints_byte _) (prints_pure _)) (by simp) fun _ => rfl
  | some path =>
    exact .congr (.bind (prints_byte _) (prints_path path)) (by simp) fun _ => rfl

theorem prints_errno (number : Option Int32) :
    Prints bound (errno number) (∀ n ∈ number, ¬ (n ≤ 0 ∨ 4095 < n)) ()
      (optionForm (fun n => leBytes 4 n.toUInt32.toNat) number) := by
  cases number with
  | none =>
    exact .congr (.bind (prints_byte _) (prints_pure _)) (by simp) fun _ => rfl
  | some n =>
    exact .congr (.bind (prints_byte _) (.bind (prints_check _ _)
      (prints_number _))) (by simp) fun _ => rfl

theorem prints_observed (kind : ObservationKind) (path : Option String) :
    Prints bound (observed kind path) (ValidObservation kind path) 3 (path.elim [] textForm) := by
  have hpath : ∀ path, Prints bound (do text path maxPathLen true; return 3) (ValidPath path) 3
      (textForm path) := fun path =>
    .congr (.bind (prints_path path) (prints_pure _)) (by simp) (by simp)
  cases kind <;> cases path
  · exact (prints_throw _ _ _)
  · exact hpath _
  · exact prints_throw _ _ _
  · exact hpath _
  · exact .congr (prints_pure 3) (by simp [ValidObservation]) fun _ => rfl
  · exact .congr (prints_throw _ _ _) (by simp [ValidObservation]) fun _ => rfl

/-- **The writer writes the format.** -/
theorem prints_frame (f : Frame) : Prints bound (frame f) f.Valid f.tag f.payload := by
  cases f
  case launchServer executable executionRoot arguments =>
    refine .congr (.bind (prints_path _) (.bind (prints_path _)
      (.bind (prints_check _ _) (.bind (prints_number _)
        (.bind (prints_writeEach (fun argument => prints_text argument (by decide) false) _)
          (prints_pure _)))))) (by simp [Frame.Valid]) ?_
    rintro ⟨-, -, hfew, -⟩
    have hcount : arguments.length < 2 ^ 32 := Nat.lt_of_le_of_lt hfew (by decide)
    simp [payload, UInt32.toNat_ofNat_of_lt' hcount]
  case observe kind path timeoutMs =>
    refine .congr (.bind (prints_check _ _) (.bind (prints_byte _)
      (.bind (prints_number _) (prints_observed kind path)))) (by simp [Frame.Valid]) ?_
    simp [payload]
  case configureReaders limit =>
    refine .congr (.bind (prints_check _ _) (.bind (prints_number _)
      (prints_pure _))) ?_ ?_ <;> simp [Frame.Valid, payload]
  case readerOpen id path =>
    refine .congr (.bind (prints_reader _) (.bind (prints_path _)
      (.bind (prints_check _ _) (prints_pure _)))) ?_ fun _ => by simp [payload]
    exact ⟨fun ⟨hid, hpath, _⟩ => ⟨hid, hpath⟩,
      fun ⟨hid, hpath⟩ => ⟨hid, hpath, hpath.2.2 rfl, trivial⟩⟩
  case readerRead id sequence offset allowance =>
    refine .congr (.bind (prints_reader _) (.bind (prints_check _ _)
      (.bind (prints_wide _) (.bind (prints_wide _) (.bind (prints_number _)
        (prints_pure _)))))) ?_ ?_ <;> simp [Frame.Valid, payload]
  case readerCancel | readerClose | readerOpened =>
    refine .congr (.bind (prints_reader _) (.bind (prints_check _ _)
      (.bind (prints_wide _) (prints_pure _)))) ?_ ?_ <;> simp [Frame.Valid, payload]
  case readerPage id sequence offset page eof =>
    refine .congr (.bind (prints_reader _) (.bind (prints_check _ _)
      (.bind (prints_wide _) (.bind (prints_wide _)
        (.bind (prints_bytes _ (by decide)) (.bind (prints_byte _)
          (prints_pure _))))))) ?_ fun _ => by simp [payload]
    exact ⟨fun ⟨hid, hpage, _⟩ => ⟨hid, hpage⟩, fun ⟨hid, hpage⟩ => ⟨hid, hpage, trivial, trivial,
      Nat.not_lt.mp fun hlt => hpage (.inr (.inl hlt)), trivial, trivial⟩⟩
  case readerFailed | readerClosed =>
    refine .congr (.bind (prints_reader _) (.bind (prints_wide _)
      (.bind (prints_byte _) (prints_pure _)))) ?_ ?_ <;> simp [Frame.Valid, payload]
  case ready role =>
    refine .congr (.bind (prints_byte _) (prints_pure _)) ?_ ?_ <;>
      simp [Frame.Valid, payload]
  case ownedNamespaceClosed result =>
    refine .congr (.bind (prints_exitStatus _) (.bind (prints_observation _)
      (.bind (prints_tail _) (.bind (prints_tail _) (prints_pure _))))) ?_ ?_ <;>
      simp [Frame.Valid, WorkloadResult.Valid, payload, WorkloadResult.form]
  case failure kind errno =>
    refine .congr (.bind (prints_byte _) (.bind (prints_errno _)
      (prints_pure _))) ?_ ?_ <;> simp [Frame.Valid, payload]
  all_goals exact prints_pure _

end Payload

/-! ## Reading -/

namespace Cursor

theorem parses_number : Parses number (fun _ => True) (fun n => leBytes 4 n.toNat) :=
  parses_le (fun n => n.toNat_lt) (fun _ => UInt32.ofNat_toNat)
    fun _ h => UInt32.toNat_ofNat_of_lt' h

theorem parses_wide : Parses wide (fun _ => True) (fun n => leBytes 8 n.toNat) :=
  parses_le (fun n => n.toNat_lt) (fun _ => UInt64.ofNat_toNat)
    fun _ h => UInt64.toNat_ofNat_of_lt' h

theorem parses_byte : Parses byte (fun _ => True) (fun b => [b]) :=
  (parses_le (fun n => n.toNat_lt) (fun _ => UInt8.ofNat_toNat)
    fun _ h => UInt8.toNat_ofNat_of_lt' h).congr (fun _ => Iff.rfl) fun b _ => by
      simp [leBytes]

theorem parses_takeFixed (count : ℕ) :
    Parses (takeFixed count) (fun _ => True) (fun v => v.val) := by
  refine ((parses_take count _).convert (fun v : FixedBytes count => v.val)
    (fun _ => True) ?_).congr
    (fun v => by simp [v.2]) fun _ _ => rfl
  rintro bytes hlen v rest rest'
  rw [dif_pos hlen, run_pure_eq_ok]
  constructor
  · rintro ⟨rfl, rfl⟩
    exact ⟨rfl, trivial, rfl⟩
  · rintro ⟨rfl, -, rfl⟩
    exact ⟨rfl, rfl⟩

theorem parses_reader : Parses reader ValidId (fun id => id.val) :=
  ((parses_takeFixed 16).checked id fun _ _ => eq_comm).congr (fun _ => by simp [ValidId])
    fun _ _ => rfl

/-- A byte that codes a value, by codes of which each names one. -/
theorem parses_coded {κ : Type} {ofByte? : UInt8 → Option κ} {toByte : κ → UInt8}
    (hto : ∀ k, ofByte? (toByte k) = some k)
    (hof : ∀ b k, ofByte? b = some k → b.toNat = (toByte k).toNat) (reason : String) :
    Parses (coded ofByte? reason) (fun _ => True) (fun k => [toByte k]) := by
  refine (parses_byte.convert toByte (fun _ => True) ?_).congr (by simp) fun _ _ => rfl
  intro b _ k rest rest'
  have hcode : toByte k = b ↔ ofByte? b = some k :=
    ⟨fun h => h ▸ hto k, fun h => UInt8.toNat_inj.mp (hof b k h).symm⟩
  rw [hcode]
  cases ofByte? b with
  | none => exact iff_of_false run_throw_ne_ok fun h => nomatch h.1
  | some value =>
    rw [run_pure_eq_ok, Option.some.injEq, eq_comm]
    simp

theorem parses_flag : Parses flag (fun _ => True) (fun b => [flagByte b]) := by
  refine parses_coded (fun b => by cases b <;> rfl) (fun b flag h => ?_) _
  split at h <;> cases h <;> assumption

variable (reason : String) {f : Frame}

theorem parses_observationKind :
    Parses (coded ObservationKind.ofByte? reason) (fun _ => True) (fun k => [k.toByte]) := by
  refine parses_coded (fun k => by cases k <;> rfl) (fun b k h => ?_) reason
  rw [ObservationKind.ofByte?] at h
  split at h <;> cases h <;> assumption

theorem parses_readerFailure :
    Parses (coded ReaderFailure.ofByte? reason) (fun _ => True) (fun k => [k.toByte]) := by
  refine parses_coded (fun k => by cases k <;> rfl) (fun b k h => ?_) reason
  rw [ReaderFailure.ofByte?] at h
  split at h <;> cases h <;> assumption

theorem parses_role : Parses (coded Role.ofByte? reason) (fun _ => True) (fun k => [k.toByte]) := by
  refine parses_coded (fun k => by cases k <;> rfl) (fun b k h => ?_) reason
  rw [Role.ofByte?] at h
  split at h <;> cases h <;> assumption

theorem parses_failureKind :
    Parses (coded FailureKind.ofByte? reason) (fun _ => True) (fun k => [k.toByte]) := by
  refine parses_coded (fun k => by cases k <;> rfl) (fun b k h => ?_) reason
  rw [FailureKind.ofByte?] at h
  split at h <;> cases h <;> assumption

theorem parses_bytes (hmax : maximum < 2 ^ 32) :
    Parses (bytes maximum) (fun value => value.length ≤ maximum) bytesForm where
  complete := fun {value} rest hle => by
    have hcount : (UInt32.ofNat value.length).toNat = value.length :=
      UInt32.toNat_ofNat_of_lt' (Nat.lt_of_le_of_lt hle hmax)
    rw [bytes, bytesForm, append_assoc, ← hcount, parses_number.bind_complete trivial,
      check_bind_complete (hcount.symm ▸ hle), hcount]
    exact (parses_take _ _).complete rest rfl
  sound := fun {value input rest} h => by
    obtain ⟨count, mid, -, rfl, hcheck⟩ := parses_number.bind_eq_ok.mp h
    obtain ⟨hle, htake⟩ := check_bind_eq_ok.mp hcheck
    obtain ⟨hlen, rfl⟩ := (parses_take _ _).sound htake
    rw [bytesForm, append_assoc, hlen]
    exact ⟨hle, rfl⟩

theorem parses_text (hmax : maximum < 2 ^ 32) (path : Bool) :
    Parses (text maximum path) (fun text => ValidText text maximum path) textForm := by
  refine ((parses_bytes hmax).convert textBytes (fun text => ValidText text maximum path) ?_).congr
    (fun text => ⟨fun h => h.2, fun h => ⟨h.1, h⟩⟩) fun _ _ => rfl
  intro value _ text rest rest'
  rw [← fromUTF8?_eq_some]
  cases String.fromUTF8? ⟨⟨value⟩⟩ with
  | none => exact iff_of_false run_throw_ne_ok fun h => nomatch h.1
  | some text' =>
    rw [Option.some.injEq]
    constructor
    · intro hrun
      obtain ⟨hvalid, hpure⟩ := check_bind_eq_ok.mp hrun
      cases hpure
      exact ⟨rfl, hvalid, rfl⟩
    · rintro ⟨rfl, hvalid, rfl⟩
      exact check_bind_complete hvalid _ _ _

theorem parses_path : Parses (text maxPathLen true) ValidPath textForm :=
  parses_text (by decide) true

theorem parses_tail :
    Parses tail (fun value => value.bytes.length ≤ maxDiagnosticLen) tailForm where
  complete := fun {value} rest hle => by
    rw [tail, tailForm, ← singleton_append, append_assoc,
      parses_flag.bind_complete trivial, (parses_bytes (by decide)).bind_complete hle]
    rfl
  sound := fun {value input rest} h => by
    obtain ⟨truncated, mid, -, rfl, hbytes⟩ := parses_flag.bind_eq_ok.mp h
    obtain ⟨bytes, mid', hle, rfl, hpure⟩ := (parses_bytes (by decide)).bind_eq_ok.mp hbytes
    cases hpure
    exact ⟨hle, by simp [tailForm]⟩

/-- An optional field behind its flag. -/
theorem parses_option {α : Type} {read : Codec α} {valid : α → Prop}
    {form : α → Bytes} (h : Parses read valid form) :
    Parses (do if ← flag then return some (← read) else return none)
      (fun a? => ∀ a ∈ a?, valid a) (optionForm form) where
  complete := by
    rintro (- | a) rest hvalid
    · exact parses_flag.bind_complete trivial _ rest
    · rw [optionForm, ← singleton_append, append_assoc,
        parses_flag.bind_complete trivial, if_pos rfl, h.bind_complete (hvalid a rfl)]
      rfl
  sound := by
    intro a? input rest hrun
    obtain ⟨present, mid, -, rfl, hfield⟩ := parses_flag.bind_eq_ok.mp hrun
    cases present with
    | false =>
      cases hfield
      exact ⟨by simp, rfl⟩
    | true =>
      rw [if_pos rfl] at hfield
      obtain ⟨a, mid', hvalid, rfl, hpure⟩ := h.bind_eq_ok.mp hfield
      cases hpure
      exact ⟨by simpa using hvalid, rfl⟩

theorem parses_observation :
    Parses observation (fun path? => ∀ path ∈ path?, ValidPath path) (optionForm textForm) :=
  parses_option parses_path

/-- An error number is in range as it is written exactly when it is as it is read. -/
theorem errno_valid_iff (n : UInt32) :
    ¬ (n = 0 ∨ 4095 < n) ↔ ¬ (n.toInt32 ≤ 0 ∨ 4095 < n.toInt32) := by
  have hlt := n.toNat_lt
  have hsigned : n.toInt32.toInt = (n.toNat : Int).bmod (2 ^ 32) := by
    rw [UInt32.toInt32, Int32.toInt, Int32.toBitVec]
    simp [BitVec.toInt_eq_toNat_bmod]
  rw [Int32.le_iff_toInt_le, Int32.lt_iff_toInt_lt, UInt32.lt_iff_toNat_lt, ← UInt32.toNat_inj]
  simp only [hsigned, Int.bmod, UInt32.toNat_zero, UInt32.reduceToNat, Int32.reduceToInt]
  omega

theorem parses_errno : Parses errno (fun n? => ∀ n ∈ n?, ¬ (n ≤ 0 ∨ 4095 < n))
      (optionForm fun n => leBytes 4 n.toUInt32.toNat) :=
  parses_option <|
    (parses_number.checked Int32.toUInt32 fun n m => ⟨fun h => h ▸ rfl, fun h => h ▸ rfl⟩).congr
      (fun n => by rw [true_and, errno_valid_iff]; rfl) fun _ _ => rfl

theorem parses_exitStatus : Parses exitStatus ExitStatus.Valid ExitStatus.form where
  complete := by
    rintro (code | signal) rest hvalid
    · rw [exitStatus, ExitStatus.form, ← singleton_append, append_assoc,
        parses_byte.bind_complete trivial, parses_number.bind_complete trivial,
        if_pos ⟨rfl, hvalid⟩]
      rfl
    · rw [exitStatus, ExitStatus.form, ← singleton_append, append_assoc,
        parses_byte.bind_complete trivial, parses_number.bind_complete trivial, if_neg (by simp),
        if_pos ⟨rfl, hvalid⟩]
      rfl
  sound := by
    intro exit input rest hrun
    obtain ⟨kind, mid, -, rfl, hnumber⟩ := parses_byte.bind_eq_ok.mp hrun
    obtain ⟨code, mid', -, rfl, hexit⟩ := parses_number.bind_eq_ok.mp hnumber
    split at hexit
    · next hvalid =>
      cases hexit
      exact ⟨hvalid.2, by rw [hvalid.1]; rfl⟩
    · split at hexit
      · next hvalid =>
        cases hexit
        exact ⟨hvalid.2, by rw [hvalid.1]; rfl⟩
      · exact absurd hexit run_throw_ne_ok

/-- **The reader accepts a payload only as the format has it.** -/
theorem frame_sound {tag : ℕ} {input rest : Bytes} (h : (frame tag).run input = .ok (f, rest)) :
    f.tag = tag ∧ f.Valid ∧ input = f.payload ++ rest := by
  have harg : maxArgumentLen < 2 ^ 32 := by decide
  unfold frame at h
  split at h
  case h_21 => exact absurd h run_throw_ne_ok
  all_goals simp only [parses_path.bind_eq_ok, parses_number.bind_eq_ok, check_bind_eq_ok,
    (parses_readEach (parses_text harg false) _).bind_eq_ok, parses_reader.bind_eq_ok,
    (parses_observationKind _).bind_eq_ok, parses_wide.bind_eq_ok, parses_flag.bind_eq_ok,
    (parses_bytes (show maxReaderPage < 2 ^ 32 by decide)).bind_eq_ok,
    (parses_readerFailure _).bind_eq_ok, (parses_role _).bind_eq_ok, parses_exitStatus.bind_eq_ok,
    parses_observation.bind_eq_ok, parses_tail.bind_eq_ok, (parses_failureKind _).bind_eq_ok,
    parses_errno.bind_eq_ok, run_pure_eq_ok] at h
  case h_2 =>
    obtain ⟨executable, _, hexe, rfl, executionRoot, _, hroot, rfl, count, _, -, rfl, hcount,
      arguments, _, ⟨hlen, hargs⟩, rfl, rfl, rfl⟩ := h
    refine ⟨rfl, ⟨hexe, hroot, hlen ▸ hcount, hargs⟩, ?_⟩
    simp [payload, hlen]
  case h_3 =>
    obtain ⟨kind, _, -, rfl, timeoutMs, _, -, rfl, htimeout, h₁⟩ := h
    split at h₁
    · next hhome =>
      cases h₁
      exact ⟨rfl, ⟨htimeout, hhome ▸ rfl⟩, by simp [payload]⟩
    · next hnamed =>
      obtain ⟨path, _, hpath, rfl, h₂⟩ := parses_path.bind_eq_ok.mp h₁
      cases h₂
      refine ⟨rfl, ⟨htimeout, ?_⟩, by simp [payload]⟩
      cases kind with
      | home => exact absurd rfl hnamed
      | executable => exact hpath
      | directory => exact hpath
  case h_6 =>
    obtain ⟨limit, _, -, rfl, hlimit, rfl, rfl⟩ := h
    exact ⟨rfl, hlimit, rfl⟩
  case h_7 =>
    obtain ⟨id, _, hid, rfl, path, _, hpath, rfl, -, rfl, rfl⟩ := h
    exact ⟨rfl, ⟨hid, hpath⟩, by simp [payload]⟩
  case h_8 =>
    obtain ⟨id, _, hid, rfl, sequence, _, -, rfl, offset, _, -, rfl, allowance, _, -, rfl, hreq,
      rfl, rfl⟩ := h
    exact ⟨rfl, ⟨hid, hreq⟩, by simp [payload]⟩
  case h_9 | h_10 | h_11 =>
    obtain ⟨id, _, hid, rfl, value, _, -, rfl, hvalue, rfl, rfl⟩ := h
    exact ⟨rfl, ⟨hid, hvalue⟩, by simp [payload]⟩
  case h_12 =>
    obtain ⟨id, _, hid, rfl, sequence, _, -, rfl, offset, _, -, rfl, page, _, hpage, rfl, eof, _, -,
      rfl, hreaches, rfl, rfl⟩ := h
    refine ⟨rfl, ⟨hid, ?_⟩, by simp [payload]⟩
    rintro (hzero | hlong | hover)
    · exact hreaches (.inl hzero)
    · omega
    · exact hreaches (.inr hover)
  case h_13 | h_14 =>
    obtain ⟨id, _, hid, rfl, sequence, _, -, rfl, code, _, -, rfl, rfl, rfl⟩ := h
    exact ⟨rfl, hid, by simp [payload]⟩
  case h_15 =>
    obtain ⟨role, _, -, rfl, rfl, rfl⟩ := h
    exact ⟨rfl, trivial, rfl⟩
  case h_18 =>
    obtain ⟨exit, _, hexit, rfl, observation, _, hobs, rfl, stdout, _, hstdout, rfl, stderr, _,
      hstderr, rfl, rfl, rfl⟩ := h
    exact ⟨rfl, ⟨hexit, hobs, hstdout, hstderr⟩,
      by simp [payload, WorkloadResult.form]⟩
  case h_20 =>
    obtain ⟨kind, _, -, rfl, errno, _, herrno, rfl, rfl, rfl⟩ := h
    exact ⟨rfl, herrno, by simp [payload]⟩
  all_goals
    obtain ⟨rfl, rfl⟩ := h
    exact ⟨rfl, trivial, rfl⟩

/-- **The reader accepts every payload of the format.** -/
theorem frame_complete (hvalid : f.Valid) (rest : Bytes) :
    (frame f.tag).run (f.payload ++ rest) = .ok (f, rest) := by
  cases f
  all_goals simp only [payload, WorkloadResult.form, Frame.tag, frame, append_assoc]
  case launchServer executable executionRoot arguments =>
    obtain ⟨hexe, hroot, hcount, hargs⟩ := hvalid
    have hlen : (UInt32.ofNat arguments.length).toNat = arguments.length :=
      UInt32.toNat_ofNat_of_lt' (Nat.lt_of_le_of_lt hcount (by decide))
    have heach := parses_readEach (parses_text (by decide : maxArgumentLen < 2 ^ 32) false)
      arguments.length
    have hnumber := @Parses.bind_complete _ _ Frame _ _ _ parses_number (.ofNat arguments.length)
      trivial
    rw [hlen] at hnumber
    rw [parses_path.bind_complete hexe, parses_path.bind_complete hroot, hnumber,
      check_bind_complete (hlen.symm ▸ hcount), hlen, heach.bind_complete ⟨rfl, hargs⟩]
    rfl
  case observe kind path timeoutMs =>
    obtain ⟨htimeout, hpath⟩ := hvalid
    rw [cons_append, ← singleton_append, (parses_observationKind _).bind_complete trivial,
      parses_number.bind_complete trivial, check_bind_complete htimeout]
    match kind, path, hpath with
    | .home, none, _ => rfl
    | .executable, some path, hpath => exact parses_path.bind_complete hpath _ rest
    | .directory, some path, hpath => exact parses_path.bind_complete hpath _ rest
  case configureReaders limit =>
    rw [parses_number.bind_complete trivial, check_bind_complete (show limit ≠ 0 from hvalid)]
    rfl
  case readerOpen id path =>
    rw [parses_reader.bind_complete hvalid.1, parses_path.bind_complete hvalid.2,
      check_bind_complete (hvalid.2.2.2 rfl)]
    rfl
  case readerRead id sequence offset allowance =>
    rw [parses_reader.bind_complete hvalid.1, parses_wide.bind_complete trivial,
      parses_wide.bind_complete trivial, parses_number.bind_complete trivial,
      check_bind_complete hvalid.2]
    rfl
  case readerCancel | readerClose | readerOpened =>
    rw [parses_reader.bind_complete hvalid.1, parses_wide.bind_complete trivial,
      check_bind_complete hvalid.2]
    rfl
  case readerPage id sequence offset page eof =>
    obtain ⟨hid, hpage⟩ := hvalid
    have hreaches : ¬ (sequence = 0 ∨ ¬ Reaches offset page.length) :=
      fun h => hpage (h.imp_right .inr)
    rw [parses_reader.bind_complete hid, parses_wide.bind_complete trivial,
      parses_wide.bind_complete trivial,
      (parses_bytes (by decide)).bind_complete (Nat.not_lt.mp fun h => hpage (.inr (.inl h))),
      parses_flag.bind_complete trivial, check_bind_complete hreaches]
    rfl
  case readerFailed =>
    rw [parses_reader.bind_complete hvalid, parses_wide.bind_complete trivial,
      (parses_readerFailure _).bind_complete trivial]
    rfl
  case readerClosed =>
    rw [parses_reader.bind_complete hvalid, parses_wide.bind_complete trivial,
      parses_flag.bind_complete trivial]
    rfl
  case ready =>
    rw [(parses_role _).bind_complete trivial]
    rfl
  case ownedNamespaceClosed =>
    obtain ⟨hexit, hobs, hstdout, hstderr⟩ := hvalid
    rw [parses_exitStatus.bind_complete hexit, parses_observation.bind_complete hobs,
      parses_tail.bind_complete hstdout, parses_tail.bind_complete hstderr]
    rfl
  case failure =>
    rw [cons_append, ← singleton_append, (parses_failureKind _).bind_complete trivial,
      parses_errno.bind_complete hvalid]
    rfl
  all_goals rfl

end Cursor

end Beryl.Supervisor
