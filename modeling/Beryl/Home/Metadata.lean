import Beryl.Machinery.Wire

/-!
# Home/Metadata — the stored revisions of a home and of its domains

A home keeps one record with its own revision, and one record for each registered domain with the
domain's schema, its revision and its keyspace families.  Both are written big-endian behind an
eight-byte magic.  What was written is read back: `decodeHomeRevision_encodeHomeRevision` and
`DomainMetadata.decode_of_encode`.
-/

namespace Beryl.Home

open Fallible Wire List

/-! ## Revisions -/

/-- Why a revision could not be constructed or advanced. -/
inductive RevisionError
  | zero | exhausted
deriving DecidableEq

/-- A nonzero number of 64 bits. -/
structure Revision where
  get : ℕ
  pos : 0 < get
  lt : get < u64Size

theorem one_lt_u64Size : 1 < u64Size := by decide

/-- The first revision. -/
def Revision.first : Revision := ⟨1, Nat.one_pos, one_lt_u64Size⟩

/-- The revision of a complete home. -/
abbrev HomeRevision := Revision

/-- The revision of one logical domain. -/
abbrev DomainRevision := Revision

namespace Revision

/-- The revision of a 64-bit value, unless it is the reserved zero. -/
def new (value : ℕ) : Except RevisionError Revision :=
  if h : 0 < value ∧ value < u64Size then .ok ⟨value, h.1, h.2⟩ else .error .zero

theorem eq_of_get {revision revision' : Revision} (h : revision.get = revision'.get) :
    revision = revision' := by
  cases revision
  cases revision'
  simp_all

instance : DecidableEq Revision := fun _ _ => decidable_of_iff _ ⟨eq_of_get, congrArg get⟩

theorem new_get (revision : Revision) : new revision.get = .ok revision :=
  dif_pos ⟨revision.pos, revision.lt⟩

/-- The next revision, unless this one is the last. -/
def checkedNext (revision : Revision) : Except RevisionError Revision :=
  if h : revision.get + 1 < u64Size then .ok ⟨revision.get + 1, Nat.succ_pos _, h⟩
  else .error .exhausted

theorem checkedNext_eq_ok {revision next : Revision} (h : revision.checkedNext = .ok next) :
    next.get = revision.get + 1 := by
  rw [checkedNext] at h
  split at h
  · rw [← Except.ok.inj h]
  · cases h

theorem checkedNext_of_lt {revision next : Revision} (h : next.get = revision.get + 1) :
    revision.checkedNext = .ok next := by
  have hlt : revision.get + 1 < u64Size := h ▸ next.lt
  rw [checkedNext, dif_pos hlt]
  exact congrArg Except.ok (eq_of_get h.symm)

end Revision

/-- A nonzero schema version of 32 bits. -/
@[ext] structure SchemaVersion where
  get : ℕ
  pos : 0 < get
  lt : get < 2 ^ 32

instance : DecidableEq SchemaVersion := fun _ _ => decidable_of_iff _ SchemaVersion.ext_iff.symm

/-! ## Records -/

/-- A keyspace family as a domain's record names it. -/
structure PersistedFamily where
  logicalName : String
  physicalName : String
  schema : SchemaVersion
deriving DecidableEq

/-- The record of a registered domain. -/
structure DomainMetadata where
  schema : SchemaVersion
  revision : DomainRevision
  families : List PersistedFamily
deriving DecidableEq

/-- Why a stored record is refused, or a record is not stored. -/
structure InvalidData where
  message : String
deriving DecidableEq

/-- `BRYLREVN` -/
def revisionMagic : Bytes := [66, 82, 89, 76, 82, 69, 86, 78]

/-- `BRYLDOMN` -/
def domainMagic : Bytes := [66, 82, 89, 76, 68, 79, 77, 78]

/-- The version of the encoding. -/
def metadataEncoding : ℕ := 1
/-- The length of the home's record. -/
def homeRevisionBytes : ℕ := 20
/-- The most bytes of a domain's record. -/
def maxDomainMetadataBytes : ℕ := 8 * 1024
/-- Its bytes before the families. -/
def domainMetadataEnvelopeBytes : ℕ := 26
/-- The least bytes of a family. -/
def minPersistedFamilyBytes : ℕ := 12
/-- The most families. -/
def maxFamilies : ℕ :=
  min ((maxDomainMetadataBytes - domainMetadataEnvelopeBytes) / minPersistedFamilyBytes) 65535

/-! ## The home's record -/

/-- The number of `width` bytes at an offset. -/
def readInt (width : ℕ) (encoded : Bytes) (offset : ℕ) : Except InvalidData ℕ := do
  ensure (offset + width ≤ encoded.length) ⟨"metadata integer is truncated"⟩
  return ofBeBytes ((encoded.drop offset).take width)

variable {encoded : Bytes}

/-- What follows a known front is read at the front's length. -/
theorem readInt_at {width n offset : ℕ} {rest : Bytes} (front : Bytes)
    (hn : n < 256 ^ width) (hoffset : front.length = offset)
    (henc : encoded = front ++ (beBytes width n ++ rest)) :
    readInt width encoded offset = .ok n := by
  subst hoffset henc
  rw [readInt, ensure_bind (by simp), drop_left, take_left' (length_beBytes width n),
    ofBeBytes_beBytes hn, pure_eq_ok]

/-- Writes the home's record. -/
def encodeHomeRevision (revision : HomeRevision) : Bytes :=
  revisionMagic ++ (beBytes 4 metadataEncoding ++ beBytes 8 revision.get)

/-- Reads the home's record. -/
def decodeHomeRevision (encoded : Bytes) : Except InvalidData HomeRevision := do
  ensure (encoded.length = homeRevisionBytes ∧ encoded.take 8 = revisionMagic)
    ⟨"home revision record has an invalid envelope"⟩
  let encoding ← readInt 4 encoded 8
  ensure (encoding = metadataEncoding) ⟨"home revision record uses an unsupported encoding"⟩
  let raw ← readInt 8 encoded 12
  (Revision.new raw).mapError fun _ => ⟨"home revision is zero"⟩

/-- **The home revision that was written is read back.** -/
theorem decodeHomeRevision_encodeHomeRevision (revision : HomeRevision) :
    decodeHomeRevision (encodeHomeRevision revision) = .ok revision := by
  have henc : readInt 4 (encodeHomeRevision revision) 8 = .ok metadataEncoding :=
    readInt_at revisionMagic (by decide) rfl rfl
  have hraw : readInt 8 (encodeHomeRevision revision) 12 = .ok revision.get := by
    refine @readInt_at _ _ _ _ [] (revisionMagic ++ beBytes 4 metadataEncoding) revision.lt rfl ?_
    rw [encodeHomeRevision, append_nil, append_assoc]
  rw [decodeHomeRevision, ensure_bind ⟨rfl, rfl⟩, henc, ok_bind, ensure_bind rfl, hraw, ok_bind,
    Revision.new_get, mapError_ok]

/-! ## A domain's record -/

/-- Writes a text. -/
def writeString (value : String) : Scanner InvalidData Unit := do
  check (textBytes value ≠ []) ⟨"metadata string is empty"⟩
  check ((textBytes value).length ≤ 255) ⟨"metadata string exceeds 255 bytes"⟩
  put (beBytes 1 (textBytes value).length)
  put (textBytes value)

/-- Reads a text. -/
def readString : Scanner InvalidData String := do
  let length ← take 1 ⟨"metadata string length is missing"⟩
  check (ofBeBytes length ≠ 0) ⟨"metadata string is empty"⟩
  let bytes ← take (ofBeBytes length) ⟨"metadata string is truncated"⟩
  match String.fromUTF8? ⟨⟨bytes⟩⟩ with
  | some value => return value
  | none => throw ⟨"metadata string is not UTF-8"⟩

/-- A text that a record can hold. -/
def ValidString (value : String) : Prop := textBytes value ≠ [] ∧ (textBytes value).length ≤ 255

/-- A text as it is stored. -/
def stringForm (value : String) : Bytes := beBytes 1 (textBytes value).length ++ textBytes value

variable {limit : ℕ} {metadata : DomainMetadata}

theorem prints_writeString (value : String) :
    Prints limit (writeString value) (ValidString value) () (stringForm value) :=
  (Prints.bind (prints_check ..) (Prints.bind (prints_check ..)
    (.bind (prints_put _) (prints_put _)))).congr (by simp [ValidString]) fun _ => rfl

theorem parses_readString : Parses readString ValidString stringForm where
  complete := fun {value} rest ⟨hne, hle⟩ => by
    have hlen : ofBeBytes (beBytes 1 (textBytes value).length) = (textBytes value).length :=
      ofBeBytes_beBytes (by omega)
    have hpos := length_pos_iff.mpr hne
    rw [readString, stringForm, append_assoc, take_bind_complete (length_beBytes ..), hlen,
      check_bind_complete (by omega), take_bind_complete rfl, fromUTF8?_eq_some.mpr rfl]
    rfl
  sound := fun {value input rest} hrun => by
    obtain ⟨length, mid, hone, rfl, hrun₁⟩ := take_bind_sound hrun
    obtain ⟨hzero, hrun₂⟩ := check_bind_eq_ok.mp hrun₁
    obtain ⟨bytes, mid', hbytes, rfl, hrun₃⟩ := take_bind_sound hrun₂
    rcases hutf8 : String.fromUTF8? ⟨⟨bytes⟩⟩ with - | text
    · rw [hutf8] at hrun₃
      exact absurd hrun₃ run_throw_ne_ok
    · rw [hutf8] at hrun₃
      cases hrun₃
      obtain rfl := fromUTF8?_eq_some.mp hutf8
      have hlt := ofBeBytes_lt length
      have hform := beBytes_ofBeBytes length
      rw [hone, ← hbytes] at hform
      rw [hone, ← hbytes] at hlt
      refine ⟨⟨fun hnil => ?_, by omega⟩, ?_⟩
      · rw [hnil] at hbytes
        exact hzero hbytes.symm
      · rw [stringForm, hform, append_assoc]

/-- Writes a family. -/
def writeFamily (family : PersistedFamily) : Scanner InvalidData Unit := do
  writeString family.logicalName
  writeString family.physicalName
  put (beBytes 4 family.schema.get)

/-- The schema version of a 32-bit value, unless it is zero. -/
def newSchema (value : ℕ) (zero : String) : Except InvalidData SchemaVersion :=
  if h : 0 < value ∧ value < 2 ^ 32 then .ok ⟨value, h.1, h.2⟩ else .error ⟨zero⟩

theorem newSchema_get (schema : SchemaVersion) (zero : String) :
    newSchema schema.get zero = .ok schema := dif_pos ⟨schema.pos, schema.lt⟩

theorem newSchema_eq_ok {value : ℕ} {zero : String} {schema : SchemaVersion}
    (h : newSchema value zero = .ok schema) : schema.get = value := by
  rw [newSchema] at h
  split at h
  · rw [← Except.ok.inj h]
  · cases h

/-- Reads a schema version. -/
def readSchema : Scanner InvalidData SchemaVersion := do
  let raw ← take 4 ⟨"metadata integer is truncated"⟩
  fun rest => (newSchema (ofBeBytes raw) "keyspace schema is zero").map (·, rest)

theorem parses_readSchema :
    Parses readSchema (fun _ => True) (fun schema => beBytes 4 schema.get) where
  complete := fun {schema} rest _ => by
    rw [readSchema, take_bind_complete (length_beBytes ..), ofBeBytes_beBytes schema.lt,
      newSchema_get]
    rfl
  sound := fun {schema input rest} hrun => by
    obtain ⟨raw, mid, hlen, rfl, hschema⟩ := take_bind_sound hrun
    obtain ⟨schema', hnew, heq⟩ := map_eq_ok.mp hschema
    cases heq
    have hform := beBytes_ofBeBytes raw
    rw [hlen, ← newSchema_eq_ok hnew] at hform
    exact ⟨trivial, by rw [hform]⟩

/-- Reads a family. -/
def readFamily : Scanner InvalidData PersistedFamily := do
  let logicalName ← readString
  let physicalName ← readString
  let schema ← readSchema
  return ⟨logicalName, physicalName, schema⟩

/-- A family that can be stored. -/
def PersistedFamily.Valid (family : PersistedFamily) : Prop :=
  ValidString family.logicalName ∧ ValidString family.physicalName

/-- A family as it is stored. -/
def familyForm (family : PersistedFamily) : Bytes :=
  stringForm family.logicalName ++ (stringForm family.physicalName ++ beBytes 4 family.schema.get)

theorem prints_writeFamily (family : PersistedFamily) :
    Prints limit (writeFamily family) family.Valid () (familyForm family) :=
  (Prints.bind (prints_writeString _) (Prints.bind (prints_writeString _) (prints_put _))).congr
    (by simp [PersistedFamily.Valid]) fun _ => rfl

theorem parses_readFamily : Parses readFamily PersistedFamily.Valid familyForm where
  complete := fun {family} rest ⟨hlogic, hphys⟩ => by
    rw [readFamily, familyForm, append_assoc, parses_readString.bind_complete hlogic, append_assoc,
      parses_readString.bind_complete hphys, parses_readSchema.bind_complete trivial]
    rfl
  sound := fun {family input rest} hrun => by
    obtain ⟨logicalName, mid, hlogic, rfl, hrun₁⟩ := parses_readString.bind_eq_ok.mp hrun
    obtain ⟨physicalName, mid', hphys, rfl, hrun₂⟩ := parses_readString.bind_eq_ok.mp hrun₁
    obtain ⟨schema, mid'', -, rfl, hrun₃⟩ := parses_readSchema.bind_eq_ok.mp hrun₂
    cases hrun₃
    exact ⟨⟨hlogic, hphys⟩, by simp only [familyForm, append_assoc]⟩

/-- Writes the parts of a record. -/
def DomainMetadata.write (metadata : DomainMetadata) : Scanner InvalidData Unit := do
  put domainMagic
  put (beBytes 4 metadataEncoding)
  put (beBytes 4 metadata.schema.get)
  put (beBytes 8 metadata.revision.get)
  check (metadata.families.length ≤ 65535) ⟨"domain family count does not fit"⟩
  put (beBytes 2 metadata.families.length)
  writeEach writeFamily metadata.families

/-- Writes a domain's record. -/
def DomainMetadata.encode (metadata : DomainMetadata) : Except InvalidData Bytes := do
  ensure (metadata.families.length ≤ maxFamilies)
    ⟨"domain metadata contains too many keyspace families"⟩
  let ((), encoded) ← metadata.write.run []
  ensure (encoded.length ≤ maxDomainMetadataBytes) ⟨"domain metadata exceeds its stored byte bound"⟩
  return encoded

/-- Reads a domain's record. -/
def DomainMetadata.decode (encoded : Bytes) : Except InvalidData DomainMetadata := do
  ensure (encoded.length ≤ maxDomainMetadataBytes ∧ domainMetadataEnvelopeBytes ≤ encoded.length)
    ⟨"domain metadata has an invalid size"⟩
  ensure (encoded.take 8 = domainMagic) ⟨"domain metadata has an invalid envelope"⟩
  let encoding ← readInt 4 encoded 8
  ensure (encoding = metadataEncoding) ⟨"domain metadata uses an unsupported encoding"⟩
  let schema ← newSchema (← readInt 4 encoded 12) "domain schema is zero"
  let revision ← (Revision.new (← readInt 8 encoded 16)).mapError
    fun _ => ⟨"domain revision is zero"⟩
  let count ← readInt 2 encoded 24
  ensure (count ≤ maxFamilies) ⟨"domain metadata contains too many keyspace families"⟩
  let (families, rest) ← (readEach readFamily count).run (encoded.drop domainMetadataEnvelopeBytes)
  ensure (rest = []) ⟨"domain metadata has trailing bytes"⟩
  return ⟨schema, revision, families⟩

/-- The bytes of a domain's record. -/
def metadataForm (metadata : DomainMetadata) : Bytes :=
  domainMagic ++ (beBytes 4 metadataEncoding ++ (beBytes 4 metadata.schema.get
    ++ (beBytes 8 metadata.revision.get ++ (beBytes 2 metadata.families.length
      ++ metadata.families.flatMap familyForm))))

theorem prints_write (metadata : DomainMetadata) : Prints limit metadata.write
      (metadata.families.length ≤ 65535 ∧ ∀ family ∈ metadata.families, family.Valid) ()
      (metadataForm metadata) :=
  (Prints.bind (prints_put _) (Prints.bind (prints_put _) (Prints.bind (prints_put _)
    (.bind (prints_put _) (.bind (prints_check ..) (.bind (prints_put _)
      (prints_writeEach prints_writeFamily _))))))).congr (by simp) fun _ => rfl

/-- What a written record says about the domain. -/
theorem DomainMetadata.encode_eq_ok (h : metadata.encode = .ok encoded) :
    encoded = metadataForm metadata ∧ encoded.length ≤ maxDomainMetadataBytes
      ∧ metadata.families.length ≤ maxFamilies ∧ ∀ family ∈ metadata.families, family.Valid := by
  rw [encode] at h
  obtain ⟨_, hcount, h₁⟩ := bind_eq_ok.mp h
  obtain ⟨⟨⟨⟩, written⟩, hwrite, h₂⟩ := bind_eq_ok.mp h₁
  obtain ⟨_, hlen, h₃⟩ := bind_eq_ok.mp h₂
  cases h₃
  obtain ⟨⟨-, hvalid⟩, -, rfl⟩ := (@prints_write 0 metadata).sound hwrite
  exact ⟨rfl, ensure_eq_ok.mp hlen, ensure_eq_ok.mp hcount, hvalid⟩

/-- **The record of a domain that was written is read back.** -/
theorem DomainMetadata.decode_of_encode
    (h : metadata.encode = .ok encoded) : DomainMetadata.decode encoded = .ok metadata := by
  obtain ⟨rfl, hlen, hcount, hvalid⟩ := encode_eq_ok h
  have hfits : metadata.families.length < 256 ^ 2 := Nat.lt_of_le_of_lt hcount (by decide)
  have henc : readInt 4 (metadataForm metadata) 8 = .ok metadataEncoding :=
    readInt_at domainMagic (by decide) rfl rfl
  have hschema : readInt 4 (metadataForm metadata) 12 = .ok metadata.schema.get :=
    readInt_at (domainMagic ++ beBytes 4 metadataEncoding) metadata.schema.lt rfl
      (append_assoc ..).symm
  have hrev : readInt 8 (metadataForm metadata) 16 = .ok metadata.revision.get :=
    readInt_at (domainMagic ++ (beBytes 4 metadataEncoding ++ beBytes 4 metadata.schema.get))
      metadata.revision.lt rfl (by simp only [metadataForm, append_assoc]; rfl)
  have hfams : metadataForm metadata = (domainMagic ++ (beBytes 4 metadataEncoding
      ++ (beBytes 4 metadata.schema.get ++ beBytes 8 metadata.revision.get)))
      ++ (beBytes 2 metadata.families.length ++ metadata.families.flatMap familyForm) := by
    simp only [metadataForm, append_assoc]
  have hnumber : readInt 2 (metadataForm metadata) 24 = .ok metadata.families.length :=
    readInt_at _ hfits rfl hfams
  have hrest : (metadataForm metadata).drop domainMetadataEnvelopeBytes
      = metadata.families.flatMap familyForm := by
    rw [hfams, ← append_assoc]
    exact drop_left' rfl
  have hread := (parses_readEach parses_readFamily _).complete [] ⟨rfl, hvalid⟩
  rw [append_nil] at hread
  have hsize : domainMetadataEnvelopeBytes ≤ (metadataForm metadata).length := by
    rw [hfams, ← append_assoc, length_append]
    exact Nat.le_add_right _ _
  have hmagic : (metadataForm metadata).take 8 = domainMagic := rfl
  rw [decode, ensure_bind ⟨hlen, hsize⟩, ensure_bind hmagic, henc, ok_bind, ensure_bind rfl,
    hschema, ok_bind, newSchema_get, ok_bind, hrev, ok_bind, Revision.new_get, mapError_ok, ok_bind,
    hnumber, ok_bind, ensure_bind hcount, hrest, hread]
  rfl

end Beryl.Home
