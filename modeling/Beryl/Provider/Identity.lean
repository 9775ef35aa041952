import Beryl.Machinery.Utf8

/-!
# Provider/Identity — the identities that the provider chose

The provider names threads, turns and items by texts of its own.  Such a text is kept only if it is
not empty and not too long, has no whitespace around it and holds no control character.
-/

namespace Beryl.Provider

open Fallible Wire Utf8

/-- `char::is_control`. -/
def isControl (c : Char) : Bool := c.toNat < 0x20 || (0x7f ≤ c.toNat && c.toNat < 0xa0)

/-- Why an external value is refused. -/
inductive ValueError
  | empty
  | tooLong (maxBytes actualBytes : ℕ)
  | surroundingWhitespace
  | invalidCharacter (index : ℕ)
  deriving DecidableEq

/-- The byte offset of the first control character. -/
def firstControl : List Char → Option ℕ
  | [] => none
  | c :: cs => if isControl c then some 0 else (firstControl cs).map (· + (utf8 [c]).length)

/-- The check of every bounded external value. -/
def boundedText (value : List Char) (maxBytes : ℕ) : Except ValueError Unit := do
  ensure (value ≠ []) .empty
  ensure ((utf8 value).length ≤ maxBytes) (.tooLong maxBytes (utf8 value).length)
  ensure (Text.trim value = value) .surroundingWhitespace
  match firstControl value with
  | some index => .error (.invalidCharacter index)
  | none => .ok ()

/-- `MAX_EXTERNAL_ID_BYTES`. -/
abbrev maxExternalIdBytes : ℕ := 256

/-- An identity that the provider chose: a text that passed the check. -/
structure ExternalId where
  text : List Char
  bounded : boundedText text maxExternalIdBytes = .ok ()
  deriving DecidableEq

namespace ExternalId

/-- A text as an identity, if it passes. -/
def new (value : List Char) : Except ValueError ExternalId :=
  match h : boundedText value maxExternalIdBytes with
  | .ok () => .ok ⟨value, h⟩
  | .error e => .error e

/-- The bytes of its text. -/
def bytes (id : ExternalId) : Bytes := utf8 id.text

end ExternalId

/-- A thread of the provider. -/
abbrev CasThreadId := ExternalId

/-- A turn of the provider. -/
abbrev CasTurnId := ExternalId

/-- An item of the provider. -/
abbrev CasItemId := ExternalId

end Beryl.Provider
