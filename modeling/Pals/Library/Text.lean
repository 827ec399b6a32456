import Mathlib.Algebra.Group.Nat.Defs
import Mathlib.Data.List.DropRight
import Pals.Library.Path

/-! Text in UTF-8: its bytes, their decoding, and the blanks around it. -/
namespace Pals.Library

theorem toByteArray_utf8 (text : String) : (utf8 text).toByteArray = text.toByteArray :=
  String.utf8Encode_toList

theorem utf8_eq_data (text : String) : utf8 text = text.toByteArray.data.toList := by
  rw [← toByteArray_utf8, List.data_toByteArray]

theorem utf8_injective : Function.Injective utf8 := by
  intro left right h
  rw [← String.toByteArray_inj, ← toByteArray_utf8, ← toByteArray_utf8, h]

theorem utf8_length (text : String) : (utf8 text).length = text.utf8ByteSize := by
  rw [utf8_eq_data, ← String.size_toByteArray, Array.length_toList]
  rfl

theorem utf8_eq_nil_iff (text : String) : utf8 text = [] ↔ text = "" := by
  rw [← List.length_eq_zero_iff, utf8_length, String.utf8ByteSize_eq_zero_iff]

theorem utf8EncodeChar_of_ascii {char : Char} (h : char.val.toNat ≤ 127) :
    String.utf8EncodeChar char = [UInt8.ofNat char.val.toNat] := by
  rw [String.utf8EncodeChar]
  simp only [h, if_true]

theorem utf8EncodeChar_of_not_ascii {char : Char} (h : 127 < char.val.toNat) :
    ∀ byte ∈ String.utf8EncodeChar char, 128 ≤ byte.toNat := by
  rw [String.utf8EncodeChar]
  split
  · omega
  · split <;> try split
    all_goals
      simp only [List.forall_mem_cons, UInt8.toNat_ofNat', List.not_mem_nil, false_implies,
        implies_true, and_true]
      omega

theorem zero_mem_utf8EncodeChar_iff (char : Char) :
    0 ∈ String.utf8EncodeChar char ↔ char = '\x00' := by
  have hnul : char = '\x00' ↔ char.val.toNat = 0 := by
    rw [Char.ext_iff, ← UInt32.toNat_inj]
    rfl
  rw [hnul]
  rcases Nat.lt_or_ge 127 char.val.toNat with h | h
  · have hbytes := utf8EncodeChar_of_not_ascii h
    exact ⟨fun hmem => absurd (hbytes 0 hmem) (by decide), fun hzero => by omega⟩
  · rw [utf8EncodeChar_of_ascii h, List.mem_singleton, ← UInt8.toNat_inj, UInt8.toNat_ofNat']
    change 0 = _ ↔ _
    omega

theorem zero_mem_utf8_iff (text : String) : 0 ∈ utf8 text ↔ '\x00' ∈ text.toList := by
  simp [utf8, zero_mem_utf8EncodeChar_iff]

theorem utf8_length_le (text : String) : (utf8 text).length ≤ 4 * text.toList.length := by
  rw [utf8]
  induction text.toList with
  | nil => simp
  | cons char chars ih =>
    have hchar : (String.utf8EncodeChar char).length ≤ 4 := by
      rw [String.length_utf8EncodeChar]
      exact char.utf8Size_le_four
    rw [List.flatMap_cons, List.length_append, List.length_cons]
    omega

theorem exists_utf8_of_ascii {bytes : Bytes} (h : ∀ byte ∈ bytes, byte.toNat ≤ 127) :
    ∃ text, utf8 text = bytes := by
  refine ⟨String.ofList (bytes.map fun byte => Char.ofNat byte.toNat), ?_⟩
  rw [utf8, String.toList_ofList, List.flatMap_map]
  induction bytes with
  | nil => rfl
  | cons byte bytes ih =>
    obtain ⟨hbyte, hbytes⟩ := List.forall_mem_cons.mp h
    have hcode : (Char.ofNat byte.toNat).val.toNat = byte.toNat := by
      have hvalid : byte.toNat.isValidChar := .inl (by omega)
      rw [Char.ofNat, dif_pos hvalid]
      rfl
    rw [List.flatMap_cons, ih hbytes, utf8EncodeChar_of_ascii (by rwa [hcode]), hcode,
      UInt8.ofNat_toNat, List.singleton_append]

def fromUtf8 (bytes : Bytes) : Option String := String.fromUTF8? bytes.toByteArray

theorem fromUtf8_eq_some {bytes : Bytes} {text : String} :
    fromUtf8 bytes = some text ↔ utf8 text = bytes := by
  rw [utf8_eq_data, fromUtf8, String.fromUTF8?]
  constructor
  · intro h
    split at h <;> cases h
    change bytes.toByteArray.data.toList = bytes
    rw [List.data_toByteArray]
  · rintro rfl
    rw [← utf8_eq_data, toByteArray_utf8, dif_pos text.isValidUTF8]
    rfl

@[simp] theorem fromUtf8_utf8 (text : String) : fromUtf8 (utf8 text) = some text :=
  fromUtf8_eq_some.mpr rfl

/-- `char::is_whitespace`: the characters with the property `White_Space`. -/
def isWhitespace (char : Char) : Bool :=
  let code := char.toNat
  (9 ≤ code && code ≤ 13) || (0x2000 ≤ code && code ≤ 0x200A) ||
    code ∈ [0x20, 0x85, 0xA0, 0x1680, 0x2028, 0x2029, 0x202F, 0x205F, 0x3000]

def trim (text : String) : String :=
  String.ofList ((text.toList.dropWhile isWhitespace).rdropWhile isWhitespace)

/-- A number below `base ^ length` is known by its digits. -/
theorem eq_of_digits (base length : Nat) {left right : Nat} (hleft : left < base ^ length)
    (hright : right < base ^ length)
    (h : ∀ place < length, left / base ^ place % base = right / base ^ place % base) :
    left = right := by
  suffices hmod : ∀ n ≤ length, left % base ^ n = right % base ^ n by
    rw [← Nat.mod_eq_of_lt hleft, ← Nat.mod_eq_of_lt hright]
    exact hmod length (Nat.le_refl _)
  intro n hn
  induction n with
  | zero => simp only [Nat.pow_zero, Nat.mod_one]
  | succ n ih => rw [Nat.mod_pow_succ, Nat.mod_pow_succ, ih (Nat.le_of_succ_le hn), h n hn]

theorem digitChar_injective {first second : Nat} (hfirst : first < 16) (hsecond : second < 16)
    (h : Nat.digitChar first = Nat.digitChar second) : first = second := by
  have hdigits : ∀ m < 16, ∀ n < 16, Nat.digitChar m = Nat.digitChar n → m = n := by decide
  exact hdigits first hfirst second hsecond h

end Pals.Library
