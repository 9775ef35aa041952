import Beryl.Supervisor.Format

/-!
# Supervisor/Roundtrip — writing and reading are inverse

A frame is written to some bytes exactly when it is read from them, and the two readers accept the
same bytes as the same frames.  So is the first frame of a stream found: `readInitialFrame_exact`.
-/

namespace Beryl.Supervisor

open Wire Fallible List Cursor

/-! ## Headers -/

variable {bytes found : Bytes} {nonce : Nonce} {length tag : ℕ}

/-- A header that announces a payload of `length` bytes. -/
def headerForm (nonce : Nonce) (tag length : ℕ) : Bytes :=
  magic ++ leBytes 2 protocolVersion ++ leBytes 2 tag ++ leBytes 4 length ++ nonce.val

theorem wire_eq (nonce : Nonce) (f : Frame) :
    f.wire nonce = headerForm nonce f.tag f.payload.length ++ f.payload := rfl

theorem length_headerForm (nonce : Nonce) (tag length : ℕ) :
    (headerForm nonce tag length).length = headerLen := by
  simp only [headerForm, length_append, length_leBytes, nonce.2]
  rfl

theorem slice_append (before part after : Bytes) :
    slice (before ++ (part ++ after)) before.length (before.length + part.length) = part := by
  rw [slice, ← append_assoc, ← length_append, take_left, drop_left]

theorem length_slice {start stop : ℕ} (h : stop ≤ bytes.length) :
    (slice bytes start stop).length = stop - start := by
  rw [slice, length_drop, length_take_of_le h]

theorem slice_append_slice {start mid stop : ℕ} (h : start ≤ mid) (h' : mid ≤ stop)
    (hstop : stop ≤ bytes.length) :
    slice bytes start mid ++ slice bytes mid stop = slice bytes start stop := by
  have hcut : bytes.take mid = (bytes.take stop).take mid := by rw [take_take, Nat.min_eq_left h']
  have hlen : start ≤ ((bytes.take stop).take mid).length := by
    rw [← hcut, length_take_of_le (Nat.le_trans h' hstop)]
    exact h
  rw [slice, slice, slice, hcut, ← drop_append_of_le_length hlen, take_append_drop]

/-- The conditions on what a header announces. -/
def Announces (tag length : ℕ) : Prop :=
  (1 ≤ tag ∧ tag ≤ 10 ∨ 101 ≤ tag ∧ tag ≤ 110) ∧ length ≤ maxPayloadLen
    ∧ readerLength tag length = true

/-- **A header is accepted only in its one form.** -/
theorem header_sound (h : header bytes (some nonce) = .ok (found, length, tag)) :
    headerLen ≤ bytes.length ∧ bytes.take headerLen = headerForm nonce tag length
      ∧ Announces tag length := by
  simp only [header, bind_eq_ok, ensure_eq_ok, pure_eq_ok_iff, Prod.mk.injEq] at h
  obtain ⟨-, hlen, -, ⟨hmagic, hver⟩, -, htag, -, hbound, -, hreader, -, hnonce, -, rfl, rfl⟩ := h
  have hle : 48 ≤ bytes.length := hlen
  refine ⟨hlen, ?_, htag, hbound, hreader⟩
  have hwhole : bytes.take headerLen = slice bytes 0 8 ++ slice bytes 8 10 ++ slice bytes 10 12
      ++ slice bytes 12 16 ++ slice bytes 16 48 := by
    rw [slice_append_slice (by omega) (by omega) (by omega),
      slice_append_slice (by omega) (by omega) (by omega),
      slice_append_slice (by omega) (by omega) (by omega),
      slice_append_slice (by omega) (by omega) (by omega)]
    rfl
  have hfield : ∀ {start stop k}, stop ≤ bytes.length → stop - start = k →
      leBytes k (ofLeBytes (slice bytes start stop)) = slice bytes start stop := by
    intro start stop k hstop hk
    rw [← hk, ← length_slice hstop, leBytes_ofLeBytes]
  have hver' : leBytes 2 protocolVersion = slice bytes 8 10 := hver ▸ hfield (by omega) rfl
  have htag' : leBytes 2 (ofLeBytes (slice bytes 10 12)) = slice bytes 10 12 :=
    hfield (by omega) rfl
  have hlen' : leBytes 4 (ofLeBytes (slice bytes 12 16)) = slice bytes 12 16 :=
    hfield (by omega) rfl
  rw [hwhole, headerForm, hmagic, hver', htag', hlen', hnonce nonce rfl]

/-- **A header in its form is accepted.** -/
theorem header_complete (nonce : Nonce) (h : Announces tag length) (rest : Bytes) :
    header (headerForm nonce tag length ++ rest) (some nonce) = .ok (nonce.val, length, tag) := by
  have hmagic : slice (headerForm nonce tag length ++ rest) 0 8 = magic := by
    simp only [headerForm, append_assoc]
    exact slice_append [] magic _
  have hver : slice (headerForm nonce tag length ++ rest) 8 10 = leBytes 2 protocolVersion := by
    simp only [headerForm, append_assoc]
    exact slice_append magic (leBytes 2 protocolVersion) _
  have htag : slice (headerForm nonce tag length ++ rest) 10 12 = leBytes 2 tag := by
    simp only [headerForm, append_assoc]
    rw [← append_assoc]
    exact slice_append (magic ++ leBytes 2 protocolVersion) (leBytes 2 tag) _
  have hlength : slice (headerForm nonce tag length ++ rest) 12 16 = leBytes 4 length := by
    simp only [headerForm, append_assoc]
    rw [← append_assoc, ← append_assoc]
    exact slice_append (magic ++ leBytes 2 protocolVersion ++ leBytes 2 tag) (leBytes 4 length) _
  have hnonce : slice (headerForm nonce tag length ++ rest) 16 48 = nonce.val := by
    have hslice := slice_append
      (magic ++ leBytes 2 protocolVersion ++ leBytes 2 tag ++ leBytes 4 length) nonce.val rest
    rw [← append_assoc, nonce.2] at hslice
    exact hslice
  obtain ⟨hrange, hbound, hreader⟩ := h
  have hlen : headerLen ≤ (headerForm nonce tag length ++ rest).length := by
    rw [length_append, length_headerForm]
    exact Nat.le_add_right _ _
  have htag' : ofLeBytes (leBytes 2 tag) = tag := ofLeBytes_leBytes (by omega)
  have hlen' : ofLeBytes (leBytes 4 length) = length :=
    ofLeBytes_leBytes (Nat.lt_of_le_of_lt hbound (by decide))
  simp only [header, hmagic, hver, htag, hlength, hnonce, htag', hlen', ensure_true hlen,
    ensure_true hrange, ensure_true hbound, ensure_true hreader]
  rw [ensure_true ⟨trivial, rfl⟩, ensure_true (by simp)]
  rfl

/-! ## The two routines -/

variable {f : Frame} {rest : Bytes}

/-- An absolute path is not empty. -/
theorem length_textBytes_pos {path : String} (h : ValidPath path) :
    1 ≤ (textBytes path).length := by
  refine Nat.pos_of_ne_zero fun hzero => ?_
  have hempty : path = "" :=
    String.toByteArray_inj.mp (ByteArray.ext (Array.toList_inj.mp (length_eq_zero_iff.mp hzero)))
  have hhead := h.2.2 rfl
  rw [hempty] at hhead
  cases hhead

theorem length_bytesForm (value : Bytes) : (bytesForm value).length = 4 + value.length := by
  simp [bytesForm]

/-- A valid frame has a payload that its header may announce. -/
theorem announces_of_valid (h : f.Valid) (hlen : f.payload.length ≤ maxPayloadLen) :
    Announces f.tag f.payload.length := by
  refine ⟨by cases f <;> simp [Frame.tag], hlen, ?_⟩
  cases f
  case readerOpen id path =>
    have hpos := length_textBytes_pos h.2
    have hmax : (textBytes path).length ≤ maxPathLen := h.2.1
    simp only [readerLength, Frame.tag, Frame.payload, textForm, length_append, id.2,
      length_bytesForm, decide_eq_true_eq]
    omega
  case readerPage id sequence offset page eof =>
    have hmax : page.length ≤ maxReaderPage := Nat.not_lt.mp fun hlt => h.2 (.inr (.inl hlt))
    simp only [readerLength, Frame.tag, Frame.payload, length_append, id.2, length_bytesForm,
      length_leBytes, length_singleton, decide_eq_true_eq]
    omega
  case readerRead id _ _ _ | readerCancel id _ | readerClose id _ | readerOpened id _
      | readerFailed id _ _ | readerClosed id _ _ =>
    simp [readerLength, Frame.tag, Frame.payload, id.2]
  all_goals rfl

theorem checkPage_of_valid (h : f.Valid) : checkPage f = .ok () := by
  cases f with
  | readerPage id sequence offset page eof =>
    exact ensure_true (Nat.not_lt.mp fun hlt => h.2 (.inr (.inl hlt)))
  | _ => rfl

/-- **A frame is written exactly when it is valid and not too long**, to its wire form. -/
theorem encodeFrame_eq_ok_iff : encodeFrame nonce f = .ok bytes ↔
      f.Valid ∧ f.payload.length ≤ maxPayloadLen ∧ bytes = f.wire nonce := by
  have hzero : (List.replicate headerLen (0 : UInt8)).length = headerLen := length_replicate
  have hdrop : (List.replicate headerLen 0 ++ f.payload).drop headerLen = f.payload :=
    drop_left' hzero
  have hlength : (List.replicate headerLen 0 ++ f.payload).length - headerLen =
      f.payload.length := by
    rw [length_append, hzero, Nat.add_sub_cancel_left]
  constructor
  · intro h
    obtain ⟨_, _, hwrite⟩ := bind_eq_ok.mp h
    obtain ⟨⟨tag, payload⟩, hframe, hrest⟩ := bind_eq_ok.mp hwrite
    obtain ⟨hvalid, rfl, rfl⟩ := (Payload.prints_frame f).sound hframe
    dsimp only at hrest
    rw [hlength, hdrop] at hrest
    obtain ⟨_, hbound, hbytes⟩ := bind_eq_ok.mp hrest
    exact ⟨hvalid, ensure_eq_ok.mp hbound, (Except.ok.inj hbytes).symm⟩
  · rintro ⟨hvalid, hlen, rfl⟩
    have hfits : (List.replicate headerLen 0 ++ f.payload).length ≤ Payload.bound := by
      rw [length_append, hzero]
      exact Nat.add_le_add_left hlen _
    have hframe := (Payload.prints_frame f).complete hvalid hfits
    rw [encodeFrame, checkPage_of_valid hvalid, ok_bind, hframe, ok_bind]
    dsimp only
    rw [hlength, hdrop, ensure_true hlen]
    rfl

/-- A header, and a payload that is read to its end behind it, are the wire form of a frame. -/
theorem wire_of_parts (hhdr : header bytes (some nonce) = .ok (found, length, f.tag))
    (hlen : bytes.length = headerLen + length) (hpay : bytes.drop headerLen = f.payload ++ rest)
    {u : Unit} (hfin : finished (bytes.drop headerLen) rest length = .ok u) :
    f.payload.length ≤ maxPayloadLen ∧ bytes = f.wire nonce := by
  obtain ⟨-, htake, -, hbound, -⟩ := header_sound hhdr
  have hread : (bytes.drop headerLen).length - rest.length = length := ensure_eq_ok.mp hfin
  have hall : (bytes.drop headerLen).length = length := by
    rw [length_drop, hlen, Nat.add_sub_cancel_left]
  rw [hpay, length_append] at hread hall
  obtain rfl : rest = [] := length_eq_zero_iff.mp (by omega)
  have hlength : f.payload.length = length := hall
  have hwhole := (take_append_drop headerLen bytes).symm
  rw [htake, hpay, append_nil, ← hlength, ← wire_eq] at hwhole
  exact ⟨hlength ▸ hbound, hwhole⟩

/-- What a reader finds in a wire form. -/
theorem header_wire (nonce : Nonce) (hvalid : f.Valid) (hlen : f.payload.length ≤ maxPayloadLen) :
    header (f.wire nonce) (some nonce) = .ok (nonce.val, f.payload.length, f.tag)
      ∧ (f.wire nonce).length = headerLen + f.payload.length
      ∧ (f.wire nonce).drop headerLen = f.payload := by
  rw [wire_eq]
  exact ⟨header_complete nonce (announces_of_valid hvalid hlen) f.payload,
    by rw [length_append, length_headerForm], drop_left' (length_headerForm ..)⟩

/-- **A frame is read exactly from its wire form**, if it is valid and not too long. -/
theorem decodeFrame_eq_ok_iff : decodeFrame nonce bytes = .ok f ↔
      f.Valid ∧ f.payload.length ≤ maxPayloadLen ∧ bytes = f.wire nonce := by
  constructor
  · intro h
    obtain ⟨⟨found, length, tag⟩, hhdr, h₁⟩ := bind_eq_ok.mp h
    obtain ⟨_, hlen, h₂⟩ := bind_eq_ok.mp h₁
    obtain ⟨⟨g, rest⟩, hframe, h₃⟩ := bind_eq_ok.mp h₂
    obtain ⟨_, hfin, h₄⟩ := bind_eq_ok.mp h₃
    cases h₄
    obtain ⟨rfl, hvalid, hpay⟩ := frame_sound hframe
    exact ⟨hvalid, wire_of_parts hhdr (ensure_eq_ok.mp hlen) hpay hfin⟩
  · rintro ⟨hvalid, hlen, rfl⟩
    obtain ⟨hhdr, hlength, hdrop⟩ := header_wire nonce hvalid hlen
    have hframe := frame_complete hvalid []
    rw [append_nil] at hframe
    simp only [decodeFrame, hhdr, ok_bind, ensure_true hlength, hdrop, hframe, finished]
    rw [ensure_true (by simp)]
    rfl

/-! ## Frames that are given away -/

/-- A run of bytes within the payload, found by how much is left behind it. -/
theorem slice_of_drop {before part after : Bytes} (hlen : headerLen ≤ bytes.length)
    (h : bytes.drop headerLen = before ++ (part ++ after)) :
    slice bytes (headerLen + ((bytes.drop headerLen).length - (part ++ after).length))
      (headerLen + ((bytes.drop headerLen).length - (part ++ after).length) + part.length) =
          part := by
  have hstart : headerLen + ((bytes.drop headerLen).length - (part ++ after).length) =
      (bytes.take headerLen ++ before).length := by
    rw [h, length_append, Nat.add_sub_cancel, length_append, length_take_of_le hlen]
  have hwhole : bytes = (bytes.take headerLen ++ before) ++ (part ++ after) := by
    rw [append_assoc, ← h, take_append_drop]
  rw [hstart]
  calc slice bytes _ _
    _ = slice ((bytes.take headerLen ++ before) ++ (part ++ after))
          (bytes.take headerLen ++ before).length
          ((bytes.take headerLen ++ before).length + part.length) := by rw [← hwhole]
    _ = part := slice_append ..

theorem get_bind_run {α : Type} (next : Bytes → Codec α) (input : Bytes) :
    (get >>= next).run input = (next input).run input := rfl

/-- What the two readers say of a page: the same, or the one that keeps it in place refuses its
numbers where the other refuses its length, its bytes or its flag. -/
def AgreesOnPage {α : Type} (owned read : Except CodecError α) : Prop :=
  owned = read ∨ owned = .error (.invalid "invalid reader page") ∧
    ∃ reason ∈ ["field exceeds bound", "truncated payload", "invalid boolean"],
      read = .error (.invalid reason)

theorem agreesOnPage_refl {α : Type} (r : Except CodecError α) : AgreesOnPage r r := .inl rfl

theorem take_eq_error {count : ℕ} {e : CodecError} (h : (Cursor.take count).run bytes = .error e) :
    e = .invalid "truncated payload" := by
  change (if count ≤ bytes.length then Except.ok _ else Except.error _) = _ at h
  split at h
  · cases h
  · exact (Except.error.inj h).symm

theorem flag_eq_error {e : CodecError} (h : flag.run bytes = .error e) :
    e = .invalid "truncated payload" ∨ e = .invalid "invalid boolean" := by
  rw [flag, coded, byte, bind_assoc, StateT.run_bind] at h
  cases htake : (Cursor.take 1).run bytes with
  | error e' =>
    rw [htake] at h
    cases h
    exact .inl (take_eq_error htake)
  | ok r =>
    rw [htake, ok_bind, pure_bind] at h
    split at h
    · cases h
    · cases h
      exact .inr rfl

/-- **The numbers of a page that is kept in place are checked before its bytes.** -/
theorem ownedPage_agrees (hlen : headerLen ≤ bytes.length) :
    AgreesOnPage ((ownedPage bytes).run (bytes.drop headerLen))
      ((frame 108).run (bytes.drop headerLen)) := by
  simp only [ownedPage, frame, Cursor.bytes, bind_assoc]
  refine run_bind_rel agreesOnPage_refl fun reader _ hreader => ?_
  refine run_bind_rel agreesOnPage_refl fun sequence _ hsequence => ?_
  refine run_bind_rel agreesOnPage_refl fun offset _ hoffset => ?_
  refine run_bind_rel agreesOnPage_refl fun count rest hcount => ?_
  obtain ⟨-, hbody⟩ := parses_reader.sound hreader
  obtain ⟨-, rfl⟩ := parses_wide.sound hsequence
  obtain ⟨-, rfl⟩ := parses_wide.sound hoffset
  obtain ⟨-, rfl⟩ := parses_number.sound hcount
  have hwhole : bytes.drop headerLen = (reader.val ++ leBytes 8 sequence.toNat
      ++ leBytes 8 offset.toNat ++ leBytes 4 count.toNat) ++ rest := by
    simpa using hbody
  by_cases hreq : sequence = 0 ∨ maxReaderPage < count.toNat ∨ ¬ Reaches offset count.toNat
  · rw [run_check_bind_of_not (not_not_intro hreq)]
    by_cases hle : count.toNat ≤ maxReaderPage
    · rw [check_bind_complete hle, StateT.run_bind]
      cases htake : (Cursor.take count.toNat).run rest with
      | error e =>
        obtain rfl := take_eq_error htake
        exact .inr ⟨rfl, _, by simp, rfl⟩
      | ok r =>
        rw [ok_bind, StateT.run_bind]
        cases hflag : flag.run r.2 with
        | error e =>
          obtain rfl | rfl := flag_eq_error hflag
          · exact .inr ⟨rfl, _, by simp, rfl⟩
          · exact .inr ⟨rfl, _, by simp, rfl⟩
        | ok r' =>
          -- the numbers are refused here too, behind the bytes
          have hpage := ((parses_take _ _).sound htake).1
          rw [ok_bind, run_check_bind_of_not (not_not_intro ?_)]
          · exact .inl rfl
          · exact hpage ▸ hreq.imp_right fun h => h.resolve_left (Nat.not_lt.mpr hle)
    · rw [run_check_bind_of_not hle]
      exact .inr ⟨rfl, _, by simp, rfl⟩
  · rw [check_bind_complete hreq, check_bind_complete (by omega), get_bind_run]
    refine run_bind_rel agreesOnPage_refl fun page _ htake => ?_
    refine run_bind_rel agreesOnPage_refl fun eof _ _ => ?_
    obtain ⟨hpage, rfl⟩ := (parses_take _ _).sound htake
    have hslice := slice_of_drop hlen hwhole
    rw [id, hpage] at hslice
    rw [check_bind_complete (by rw [hpage]; exact fun h => hreq (h.imp_right .inr)), id, hslice]
    exact .inl rfl

/-- **A frame that is given away is refused as any other**, but for the numbers of a page. -/
theorem decodeOwned_agrees (nonce : Nonce) (bytes : Bytes) :
    AgreesOnPage (decodeOwned nonce bytes) (decodeFrame nonce bytes) := by
  rcases hhdr : header bytes (some nonce) with e | ⟨found, length, tag⟩
  · simp only [decodeOwned, decodeFrame, hhdr, error_bind]
    exact .inl rfl
  · simp only [decodeOwned, hhdr, ok_bind]
    split
    · exact .inl rfl
    · next htag =>
      obtain rfl : tag = 108 := Decidable.of_not_not htag
      simp only [decodeFrame, hhdr, ok_bind]
      by_cases hlength : bytes.length = headerLen + length
      · rw [ensure_bind hlength, ensure_bind hlength]
        obtain heq | ⟨herror, reason, hreason, hread⟩ := ownedPage_agrees (header_sound hhdr).1
        · exact .inl (by rw [heq])
        · rw [herror, hread]
          exact .inr ⟨rfl, reason, hreason, rfl⟩
      · rw [ensure, if_neg hlength]
        exact .inl rfl

/-- **A frame that is given away is read as any other.** -/
theorem decodeOwned_eq_ok_iff :
    decodeOwned nonce bytes = .ok f ↔ decodeFrame nonce bytes = .ok f := by
  obtain heq | ⟨hpage, reason, -, hread⟩ := decodeOwned_agrees nonce bytes
  · rw [heq]
  · rw [hpage, hread]
    exact iff_of_false (by simp) (by simp)

/-- **The codec is a bijection** between the frames it accepts and their byte forms: a frame is
written to some bytes exactly when it is read from them.  The two readers accept the same bytes, as
the same frames. -/
theorem codec_bijection (nonce : Nonce) :
    (∀ f bytes, encodeFrame nonce f = .ok bytes ↔ decodeFrame nonce bytes = .ok f)
      ∧ ∀ bytes, (decodeOwned nonce bytes).toOption = (decodeFrame nonce bytes).toOption := by
  refine ⟨fun f bytes => encodeFrame_eq_ok_iff.trans decodeFrame_eq_ok_iff.symm, fun bytes => ?_⟩
  have hok : ∀ (x : Except CodecError Frame) (f : Frame), x.toOption = some f ↔ x = .ok f := by
    rintro (e | g) f <;> simp [Except.toOption]
  refine Option.ext fun f => ?_
  rw [hok, hok, decodeOwned_eq_ok_iff]

/-! ## The first frame of a stream -/

/-- The error of `read_exact` where a stream ends within a frame. -/
def endOfStream : CodecError := .io "failed to fill whole buffer"

/-- The first frame of a stream under the nonce that it names, and what is left. -/
def readInitialFrame (stream : Bytes) : Except CodecError (Nonce × Frame × Bytes) := do
  ensure (headerLen ≤ stream.length) endOfStream
  let (named, length, _) ← header (stream.take headerLen) none
  ensure (headerLen + length ≤ stream.length) endOfStream
  -- a header names a nonce of the right length
  let nonce ← required endOfStream (if h : named.length = 32 then some ⟨named, h⟩ else none)
  let frame ← decodeOwned nonce (stream.take (headerLen + length))
  return (nonce, frame, stream.drop (headerLen + length))

/-- What a nonce admits is also read without one. -/
theorem header_of_some (h : header bytes (some nonce) = .ok (found, length, tag)) :
    header bytes none = .ok (found, length, tag) := by
  simp only [header, bind_eq_ok, ensure_eq_ok] at h ⊢
  obtain ⟨_, hlen, _, hmagic, _, htag, _, hbound, _, hreader, _, -, hfound⟩ := h
  exact ⟨(), hlen, (), hmagic, (), htag, (), hbound, (), hreader, (), by simp, hfound⟩

/-- **The first frame of a stream is read exactly where the stream begins with one**, under the
nonce it was written with, and nothing behind it is taken. -/
theorem readInitialFrame_exact (stream rest : Bytes) (nonce : Nonce) (f : Frame) :
    readInitialFrame stream = .ok (nonce, f, rest) ↔
      ∃ form, encodeFrame nonce f = .ok form ∧ stream = form ++ rest := by
  simp only [readInitialFrame, encodeFrame_eq_ok_iff]
  constructor
  · simp only [bind_eq_ok, decodeOwned_eq_ok_iff, decodeFrame_eq_ok_iff]
    rintro ⟨_, -, ⟨_, _, _⟩, -, _, -, _, -, _, hframe, h⟩
    cases h
    exact ⟨_, hframe, (take_append_drop ..).symm⟩
  · rintro ⟨_, ⟨hvalid, hlen, rfl⟩, rfl⟩
    obtain ⟨-, hlength, -⟩ := header_wire nonce hvalid hlen
    have hhead := header_of_some (header_complete nonce (announces_of_valid hvalid hlen) [])
    have htake : (f.wire nonce ++ rest).take headerLen
        = headerForm nonce f.tag f.payload.length ++ [] := by
      rw [wire_eq, append_assoc, take_left' (length_headerForm ..), append_nil]
    have hframe : decodeOwned nonce (f.wire nonce) = .ok f :=
      decodeOwned_eq_ok_iff.mpr (decodeFrame_eq_ok_iff.mpr ⟨hvalid, hlen, rfl⟩)
    have hfits : headerLen + f.payload.length ≤ (f.wire nonce ++ rest).length := by
      rw [← hlength, length_append]
      exact Nat.le_add_right ..
    rw [ensure_bind (Nat.le_of_add_right_le hfits), htake, hhead, ok_bind]
    dsimp only
    rw [ensure_bind hfits, dif_pos nonce.2, required_bind, ← hlength, take_left, drop_left, hframe]
    rfl

end Beryl.Supervisor
