import Mathlib.Algebra.Group.Nat.Defs
import Pals.Library.Fallible
import Pals.Library.Text

/-! Identifiers of courses, exercises, language packs and jobs: the parser of the
contracts, the domain of the database, and UUIDs. -/
namespace Pals.Contracts
open Pals.Library

/-- `b'a'..=b'z' | b'0'..=b'9' | b'-'` -/
def identifierByte (byte : UInt8) : Bool :=
  (97 ≤ byte && byte ≤ 122) || (48 ≤ byte && byte ≤ 57) || byte = 45

structure Id where
  value : String
  valid : (!value.isEmpty && (utf8 value).all identifierByte) = true
deriving DecidableEq

/-- Identifiers have the order of their strings. -/
instance : Ord Id := ⟨compareOn Id.value⟩

instance : Std.TransOrd Id := inferInstanceAs (Std.TransCmp (compareOn Id.value))

instance : Std.LawfulEqOrd Id where
  eq_of_compare {left right} h := by
    have hvalue : left.value = right.value := Std.LawfulEqOrd.eq_of_compare h
    cases left
    cases right
    simpa using hvalue

structure InvalidId where
  value : String
deriving DecidableEq, Repr

def Id.fromStr (value : String) : Except InvalidId Id :=
  if h : (!value.isEmpty && (utf8 value).all identifierByte) = true then .ok ⟨value, h⟩
  else .error ⟨value⟩

def InvalidId.text (error : InvalidId) : String :=
  s!"invalid identifier {error.value.quote}: expected [a-z0-9-]+"

/-- The class `[a-z0-9-]` of a regular expression, on characters. -/
def identifierChar (char : Char) : Bool :=
  ('a' ≤ char && char ≤ 'z') || ('0' ≤ char && char ≤ '9') || char = '-'

/-- `value ~ '^[a-z0-9-]+$'` -/
def matchesIdentifier (value : String) : Bool :=
  value.toList ≠ [] && value.toList.all identifierChar

structure Identifier where
  value : String
  valid : matchesIdentifier value = true
deriving DecidableEq

def IdentifierCode (code : Nat) : Prop :=
  (97 ≤ code ∧ code ≤ 122) ∨ (48 ≤ code ∧ code ≤ 57) ∨ code = 45

theorem identifierByte_iff (byte : UInt8) :
    identifierByte byte = true ↔ IdentifierCode byte.toNat := by
  simp only [identifierByte, Bool.or_eq_true, Bool.and_eq_true, decide_eq_true_eq,
    UInt8.le_iff_toNat_le, ← UInt8.toNat_inj, IdentifierCode, or_assoc]
  rfl

theorem identifierChar_iff (char : Char) :
    identifierChar char = true ↔ IdentifierCode char.val.toNat := by
  simp only [identifierChar, Bool.or_eq_true, Bool.and_eq_true, decide_eq_true_eq, Char.le_def,
    UInt32.le_iff_toNat_le, Char.ext_iff, ← UInt32.toNat_inj, IdentifierCode, or_assoc]
  rfl

theorem utf8EncodeChar_of_identifierChar {char : Char} (h : identifierChar char = true) :
    ∃ byte, String.utf8EncodeChar char = [byte] ∧ identifierByte byte = true := by
  rw [identifierChar_iff, IdentifierCode] at h
  have hbound : char.val.toNat ≤ 127 := by omega
  refine ⟨UInt8.ofNat char.val.toNat, ?_, ?_⟩
  · exact utf8EncodeChar_of_ascii hbound
  · rw [identifierByte_iff, IdentifierCode, UInt8.toNat_ofNat']
    omega

theorem identifierChar_of_utf8EncodeChar {char : Char}
    (h : ∀ byte ∈ String.utf8EncodeChar char, identifierByte byte = true) :
    identifierChar char = true := by
  rw [identifierChar_iff]
  rcases Nat.lt_or_ge 127 char.val.toNat with hlarge | hascii
  · -- No byte of a longer encoding is one of an identifier.
    obtain ⟨byte, bytes, hbytes⟩ := List.exists_cons_of_ne_nil (String.utf8EncodeChar_ne_nil (c := char))
    have hmem : byte ∈ String.utf8EncodeChar char := hbytes ▸ List.mem_cons_self
    have hbyte := (identifierByte_iff byte).mp (h byte hmem)
    have hle := utf8EncodeChar_of_not_ascii hlarge byte hmem
    rw [IdentifierCode] at hbyte
    omega
  · rw [utf8EncodeChar_of_ascii hascii] at h
    have hbyte := (identifierByte_iff _).mp (h _ (List.mem_singleton_self _))
    rw [UInt8.toNat_ofNat', Nat.mod_eq_of_lt (by omega)] at hbyte
    exact hbyte

/-- The parser and the domain accept the same strings. -/
theorem matchesIdentifier_iff (value : String) : matchesIdentifier value = true ↔
    (!value.isEmpty && (utf8 value).all identifierByte) = true := by
  simp only [matchesIdentifier, Bool.and_eq_true, decide_eq_true_eq, Bool.not_eq_true',
    Bool.eq_false_iff, ne_eq, String.isEmpty_iff, String.toList_eq_nil_iff, List.all_eq_true]
  refine and_congr_right fun _ => ⟨fun h byte hbyte => ?_, fun h char hchar => ?_⟩
  · obtain ⟨char, hchar, hbyte⟩ := List.mem_flatMap.mp hbyte
    obtain ⟨encoded, hencoded, hvalid⟩ := utf8EncodeChar_of_identifierChar (h char hchar)
    rw [hencoded, List.mem_singleton] at hbyte
    rwa [hbyte]
  · exact identifierChar_of_utf8EncodeChar fun byte hbyte =>
      h byte (List.mem_flatMap.mpr ⟨char, hchar, hbyte⟩)

theorem Id.fromStr_eq_ok {value : String} {id : Id} : Id.fromStr value = .ok id ↔ id.value = value := by
  unfold Id.fromStr
  constructor
  · intro h
    split at h <;> cases h
    rfl
  · rintro rfl
    rw [dif_pos id.valid]

theorem Id.fromStr_succeeds {value : String} :
    (∃ id, Id.fromStr value = .ok id) ↔ matchesIdentifier value = true := by
  rw [matchesIdentifier_iff]
  constructor
  · rintro ⟨id, h⟩
    rw [← Id.fromStr_eq_ok.mp h]
    exact id.valid
  · exact fun h => ⟨⟨value, h⟩, Id.fromStr_eq_ok.mpr rfl⟩

theorem Id.bytes_valid (id : Id) : ∀ byte ∈ utf8 id.value, identifierByte byte = true := by
  have h := id.valid
  rw [Bool.and_eq_true, List.all_eq_true] at h
  exact h.2

theorem Id.bytes_ne_nil (id : Id) : utf8 id.value ≠ [] := by
  have h := id.valid
  rw [Bool.and_eq_true, Bool.not_eq_true', Bool.eq_false_iff, Ne, String.isEmpty_iff] at h
  rw [Ne, utf8_eq_nil_iff]
  exact h.1

def Identifier.id (identifier : Identifier) : Id :=
  ⟨identifier.value, (matchesIdentifier_iff _).mp identifier.valid⟩

theorem Identifier.bytes_valid (identifier : Identifier) :
    ∀ byte ∈ utf8 identifier.value, identifierByte byte = true := identifier.id.bytes_valid

theorem Identifier.bytes_ne_nil (identifier : Identifier) : utf8 identifier.value ≠ [] :=
  identifier.id.bytes_ne_nil

theorem ofBytes_of_identifierByte {bytes : Bytes} (hne : bytes ≠ [])
    (h : ∀ byte ∈ bytes, identifierByte byte = true) : Component.ofBytes bytes = .name bytes := by
  have hdot : dot ∉ bytes := fun hmem => absurd (h dot hmem) (by decide)
  rw [Component.ofBytes, if_neg, if_neg]
  · rintro rfl
    simp at hdot
  · rintro (rfl | rfl)
    · exact hne rfl
    · simp at hdot

theorem join_of_identifierByte (path : Path) {bytes : Bytes} (hne : bytes ≠ [])
    (h : ∀ byte ∈ bytes, identifierByte byte = true) : path.join bytes = path.entry bytes := by
  apply Path.join_name
  · exact fun hmem => absurd (h slash hmem) (by decide)
  · exact ofBytes_of_identifierByte hne h

theorem Id.join_eq (id : Id) (path : Path) :
    path.join (utf8 id.value) = path.entry (utf8 id.value) :=
  join_of_identifierByte path id.bytes_ne_nil id.bytes_valid

theorem Identifier.join_eq (identifier : Identifier) (path : Path) :
    path.join (utf8 identifier.value) = path.entry (utf8 identifier.value) :=
  join_of_identifierByte path identifier.bytes_ne_nil identifier.bytes_valid

abbrev Uuid := Fin (2 ^ 128)

def Uuid.digits (id : Uuid) : List Char :=
  (List.range 32).map fun place => Nat.digitChar (id.val / 16 ^ (31 - place) % 16)

/-- Lower case and hyphenated, as UUIDs are displayed. -/
def Uuid.text (id : Uuid) : String :=
  let group (first length : Nat) := String.ofList ((id.digits.drop first).take length)
  "-".intercalate [group 0 8, group 8 4, group 12 4, group 16 4, group 20 12]

end Pals.Contracts
