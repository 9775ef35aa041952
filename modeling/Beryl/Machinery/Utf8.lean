import Beryl.Machinery.Text
import Beryl.Machinery.Wire
import Mathlib.Data.FinEnum

/-!
# Machinery/Utf8 — texts and their bytes

A text is the list of its characters; `utf8` are its bytes, and `fromUtf8` the text of bytes that
spell one.  **Decoding undoes encoding** (`fromUtf8_utf8`).  Where a character starts can be seen on
its first byte alone (`startsChar_getElem?_utf8`).
-/

namespace Beryl.Utf8

open Text Wire List
open String (utf8Len utf8Len_cons utf8EncodeChar length_utf8EncodeChar)

/-- The bytes of a text. -/
def utf8 (text : Chars) : Bytes := text.flatMap String.utf8EncodeChar

/-- The text that bytes spell, if they spell one. -/
def fromUtf8 (bytes : Bytes) : Option Chars :=
  bytes.toByteArray.utf8Decode?.map Array.toList

@[simp] theorem utf8_nil : utf8 [] = [] := rfl

@[simp] theorem utf8_append (s t : Chars) : utf8 (s ++ t) = utf8 s ++ utf8 t :=
  flatMap_append

theorem length_utf8 (text : Chars) : (utf8 text).length = utf8Len text := by
  induction text with
  | nil => rfl
  | cons c cs ih =>
    rw [utf8, flatMap_cons, length_append, length_utf8EncodeChar, utf8Len_cons, Nat.add_comm]
    exact congrArg (· + c.utf8Size) ih

/-- **Decoding undoes encoding.** -/
@[simp] theorem fromUtf8_utf8 (text : Chars) : fromUtf8 (utf8 text) = some text := by
  have hencode : (utf8 text).toByteArray = text.utf8Encode := rfl
  rw [fromUtf8, hencode, utf8Decode?_utf8Encode, Option.map_some]

theorem utf8_injective {s t : Chars} (h : utf8 s = utf8 t) : s = t := by
  have := fromUtf8_utf8 s
  rw [h, fromUtf8_utf8] at this
  exact (Option.some.inj this).symm

/-- The bytes spell a text. -/
def ValidUtf8 (bytes : Bytes) : Prop := ∃ text, bytes = utf8 text

/-! ## Boundaries -/

/-- A byte that starts a character: no continuation byte. -/
def startsChar (byte : UInt8) : Bool := byte < 128 || 192 ≤ byte

/-- **Of the bytes of a character only the first starts one.** -/
theorem exists_utf8EncodeChar (c : Char) : ∃ lead rest, utf8EncodeChar c = lead :: rest
    ∧ startsChar lead = true ∧ ∀ byte ∈ rest, startsChar byte = false := by
  have key : ∀ byte, startsChar (byte &&& 0x1f ||| 0xc0) = true
      ∧ startsChar (byte &&& 0x0f ||| 0xe0) = true ∧ startsChar (byte &&& 0x07 ||| 0xf0) = true
      ∧ startsChar (byte &&& 0x3f ||| 0x80) = false := by decide +kernel
  rcases c.utf8Size_eq with h | h | h | h
  · refine ⟨_, _, String.utf8EncodeChar_eq_singleton h, ?_, by simp⟩
    have hval : c.val ≤ 0x7f := Char.utf8Size_eq_one_iff.mp h
    have hnat : c.val.toNat ≤ 127 := UInt32.le_iff_toNat_le.mp hval
    have hlt : c.val.toUInt8 < 128 := by
      rw [UInt8.lt_iff_toNat_lt, UInt32.toNat_toUInt8]
      exact lt_of_le_of_lt (Nat.mod_le _ _) (by simpa using Nat.lt_succ_of_le hnat)
    exact Bool.or_eq_true_iff.mpr (.inl (decide_eq_true hlt))
  · exact ⟨_, _, String.utf8EncodeChar_eq_cons_cons h, (key _).1, by simp [key]⟩
  · exact ⟨_, _, String.utf8EncodeChar_eq_cons_cons_cons h, (key _).2.1, by simp [key]⟩
  · exact ⟨_, _, String.utf8EncodeChar_eq_cons_cons_cons_cons h, (key _).2.2.1, by simp [key]⟩

/-- The first byte of a text starts a character. -/
theorem ValidUtf8.head {bytes : Bytes} (h : ValidUtf8 bytes) :
    ∀ byte ∈ bytes.head?, startsChar byte = true := by
  obtain ⟨_ | ⟨c, cs⟩, rfl⟩ := h
  · simp
  · obtain ⟨lead, rest, henc, hlead, -⟩ := exists_utf8EncodeChar c
    rw [utf8, flatMap_cons, henc]
    simpa using hlead

/-- **Where a character of a text starts**, seen on the bytes. -/
theorem startsChar_getElem?_utf8 : ∀ {s} {n} {byte},
    (utf8 s)[n]? = some byte → (startsChar byte = true ↔ isCharBoundary s n = true)
  | [], n, byte, h => by simp at h
  | c :: cs, 0, byte, h => by
    obtain ⟨lead, rest, henc, hlead, -⟩ := exists_utf8EncodeChar c
    rw [utf8, flatMap_cons, henc] at h
    simp only [cons_append, getElem?_cons_zero, Option.some.injEq] at h
    simp [← h, hlead]
  | c :: cs, n + 1, byte, h => by
    obtain ⟨lead, rest, henc, -, hrest⟩ := exists_utf8EncodeChar c
    have hsize : rest.length + 1 = c.utf8Size := by rw [← length_utf8EncodeChar, henc, length_cons]
    rw [utf8, flatMap_cons, henc, cons_append, getElem?_cons_succ] at h
    rw [isCharBoundary, Bool.and_eq_true, decide_eq_true_eq, ← hsize]
    by_cases hn : n < rest.length
    · rw [getElem?_append_left hn] at h
      rw [hrest byte (mem_of_getElem? h)]
      simp only [Bool.false_eq_true, false_iff, not_and]
      intro hle
      omega
    · rw [getElem?_append_right (by omega)] at h
      rw [startsChar_getElem?_utf8 h, show n + 1 - (rest.length + 1) = n - rest.length by omega]
      simp only [iff_and_self]
      intro _
      omega

end Beryl.Utf8
