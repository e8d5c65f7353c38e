import ChordOverlay.Wire.Header
import Mathlib.Algebra.Group.Nat.Defs
import Mathlib.Data.List.Induction
import Mathlib.Order.Nat
import Mathlib.Tactic.Common

/-!
# Lengths in hexadecimal

A length is read from the bytes of a text, and written as the text of a number. Both are tied here to what the digits
mean byte by byte: just the hexadecimal digits of either case are read, and what is written is the same number in upper
case.
-/

namespace ChordOverlay

/-- The value of a hexadecimal digit of either case. -/
def hexValue? (digit : UInt8) : Option Nat :=
  if '0'.toUInt8 ≤ digit ∧ digit ≤ '9'.toUInt8 then some (digit.toNat - '0'.toUInt8.toNat)
  else if 'a'.toUInt8 ≤ digit ∧ digit ≤ 'f'.toUInt8 then some (digit.toNat - 'a'.toUInt8.toNat + 10)
  else if 'A'.toUInt8 ≤ digit ∧ digit ≤ 'F'.toUInt8 then some (digit.toNat - 'A'.toUInt8.toNat + 10)
  else none

/-- The number a text of hexadecimal digits stands for. -/
def hexNumber? (digits : Bytes) : Option Nat :=
  (digits.mapM hexValue?).map fun values => values.foldl (fun acc v => acc * 16 + v) 0

/-- A hexadecimal digit as a capital. -/
def upperDigit (digit : UInt8) : UInt8 :=
  if 'a'.toUInt8 ≤ digit ∧ digit ≤ 'f'.toUInt8 then digit - 32 else digit

/-! ## Text -/

theorem hexValue?_ascii : ∀ n < 128, hexValue? (UInt8.ofNat n) = Numeral.digitValue? 16 (Char.ofNat n) := by
  decide +kernel

theorem hexValue?_high {n : Nat} (h : 128 ≤ n) (h' : n < 256) : hexValue? (UInt8.ofNat n) = none := by
  have hall : ∀ k < 128, hexValue? (UInt8.ofNat (128 + k)) = none := by decide +kernel
  have := hall (n - 128) (by omega)
  rwa [Nat.add_sub_cancel' h] at this

theorem digitValue?_high {c : Char} (h : 128 ≤ c.toNat) : Numeral.digitValue? 16 c = none := by
  have hle : ∀ d : Char, d.toNat < 128 → ¬ c ≤ d := fun d hd hcd => by
    have : c.toNat ≤ d.toNat := hcd
    omega
  unfold Numeral.digitValue?
  rw [if_neg fun h => hle _ (by decide) h.2, if_neg fun h => hle _ (by decide) h.2,
    if_neg fun h => hle _ (by decide) h.2]
  rfl

/-- A character is read from its bytes as it is read from text: whatever takes more than one byte is no digit. -/
theorem mapM_encoded (c : Char) : (String.utf8EncodeChar c).mapM hexValue? = (Numeral.digitValue? 16 c).map ([·]) := by
  have hcons : ∀ (n : Nat) (bytes : Bytes), 128 ≤ n → n < 256 → (UInt8.ofNat n :: bytes).mapM hexValue? = none := by
    intro n bytes h h'
    rw [List.mapM_cons, hexValue?_high h h']
    rfl
  unfold String.utf8EncodeChar
  simp only
  split
  · rename_i hascii
    have hvalue := hexValue?_ascii c.val.toNat (by omega)
    have hchar : Char.ofNat c.val.toNat = c := Char.ofNat_toNat c
    rw [List.mapM_cons, hvalue, hchar]
    cases Numeral.digitValue? 16 c <;> rfl
  · rename_i hhigh
    have hhigh : 128 ≤ c.toNat := Nat.not_le.mp hhigh
    rw [digitValue?_high hhigh]
    split
    · exact hcons _ _ (by omega) (by omega)
    · split
      · exact hcons _ _ (by omega) (by omega)
      · exact hcons _ _ (by omega) (by omega)

theorem mapM_flatMap_encoded (chars : List Char) :
    (chars.flatMap String.utf8EncodeChar).mapM hexValue? = chars.mapM (Numeral.digitValue? 16) := by
  induction chars with
  | nil => rfl
  | cons c chars ih =>
      rw [List.flatMap_cons, List.mapM_append, List.mapM_cons, mapM_encoded, ih]
      cases Numeral.digitValue? 16 c <;> rfl

theorem fromUTF8?_encoded (chars : List Char) :
    String.fromUTF8? ⟨(chars.flatMap String.utf8EncodeChar).toArray⟩ = some (String.ofList chars) := by
  have hbytes : (⟨(chars.flatMap String.utf8EncodeChar).toArray⟩ : ByteArray) = chars.utf8Encode :=
    ByteArray.ext List.data_toByteArray.symm
  rw [hbytes, String.fromUTF8?, dif_pos ByteArray.isValidUTF8_utf8Encode]
  rfl

/-- Bytes that are a text at all are the encoding of its characters. -/
theorem encoded_of_fromUTF8? {digits : Bytes} {text : String} (h : String.fromUTF8? ⟨digits.toArray⟩ = some text) :
    digits = text.toList.flatMap String.utf8EncodeChar := by
  unfold String.fromUTF8? at h
  split at h
  · have hbytes : text.toByteArray = ⟨digits.toArray⟩ := by
      rw [← Option.some.inj h]
      rfl
    rw [← String.utf8Encode_toList] at hbytes
    have hdata := congrArg (fun bytes : ByteArray => bytes.data.toList) hbytes
    exact hdata.symm.trans List.toList_data_toByteArray
  · cases h

theorem encoded_of_hexValue? {digit : UInt8} (h : hexValue? digit ≠ none) :
    String.utf8EncodeChar (Char.ofNat digit.toNat) = [digit] := by
  have hascii : ∀ n < 128, String.utf8EncodeChar (Char.ofNat n) = [UInt8.ofNat n] := by decide +kernel
  have hlow : digit.toNat < 128 := by
    refine Nat.lt_of_not_le fun hhigh => h ?_
    rw [← UInt8.ofNat_toNat (x := digit)]
    exact hexValue?_high hhigh digit.toNat_lt
  rw [hascii _ hlow, UInt8.ofNat_toNat]

theorem encoded_of_mapM {digits : Bytes} {values : List Nat} (h : digits.mapM hexValue? = some values) :
    (digits.map fun digit => Char.ofNat digit.toNat).flatMap String.utf8EncodeChar = digits := by
  induction digits generalizing values with
  | nil => rfl
  | cons digit digits ih =>
      rw [List.mapM_cons] at h
      obtain ⟨value, hvalue, h⟩ := Option.bind_eq_some_iff.mp h
      obtain ⟨values, hvalues, _⟩ := Option.bind_eq_some_iff.mp h
      rw [List.map_cons, List.flatMap_cons, encoded_of_hexValue? (by simp [hvalue]), ih hvalues]
      rfl

/-- A length is read exactly from digits, and is the number they stand for. -/
theorem readLength_eq_ok {digits : Bytes} {n : Nat} :
    Header.readLength digits = .ok n ↔ hexNumber? digits = some n := by
  unfold Header.readLength hexNumber?
  cases htext : String.fromUTF8? ⟨digits.toArray⟩ with
  | some text =>
      simp only
      rw [encoded_of_fromUTF8? htext, mapM_flatMap_encoded]
      cases text.toList.mapM (Numeral.digitValue? 16) with
      | none => exact ⟨nofun, nofun⟩
      | some values => rw [Option.map_some, Except.ok.injEq, Option.some.injEq]
  | none =>
      refine ⟨nofun, fun h => ?_⟩
      obtain ⟨values, hvalues, _⟩ := Option.map_eq_some_iff.mp h
      rw [← encoded_of_mapM hvalues, fromUTF8?_encoded] at htext
      cases htext

/-! ## Written digits -/

/-- The digits a header has for a length. -/
def upperHex (width n : Nat) : Bytes := (Numeral.padded 16 width n).map fun c => c.toUpper.toUInt8

theorem upperHex_one {n : Nat} (h : n < 16) : upperHex 1 n = [(Nat.digitChar n).toUpper.toUInt8] := by
  rw [upperHex, Numeral.padded, Nat.toDigits_of_lt_base h]
  rfl

theorem upperHex_succ {width : Nat} (hwidth : 0 < width) (n : Nat) :
    upperHex (width + 1) n = upperHex width (n / 16) ++ [(Nat.digitChar (n % 16)).toUpper.toUInt8] := by
  obtain ⟨width, rfl⟩ := Nat.exists_eq_add_one.mpr hwidth
  simp only [upperHex, Numeral.padded]
  by_cases hsmall : n < 16
  · rw [Nat.toDigits_of_lt_base hsmall, Nat.div_eq_of_lt hsmall, Nat.toDigits_zero, Nat.mod_eq_of_lt hsmall,
      List.length_singleton, List.length_singleton, Nat.add_sub_cancel, Nat.add_sub_cancel, List.replicate_succ',
      List.map_append, List.map_append]
    rfl
  · rw [Nat.toDigits_of_base_le (by decide) (Nat.le_of_not_lt hsmall), List.length_append, List.length_singleton,
      Nat.add_sub_add_right, List.map_append, List.map_append, List.map_append, List.append_assoc]
    rfl

theorem hexNumber?_concat (digits : Bytes) (digit : UInt8) : hexNumber? (digits ++ [digit]) =
    (hexNumber? digits).bind fun n => (hexValue? digit).map fun v => n * 16 + v := by
  unfold hexNumber?
  rw [List.mapM_append]
  cases digits.mapM hexValue? with
  | none => rfl
  | some values =>
      rw [List.mapM_cons, List.mapM_nil]
      cases hexValue? digit with
      | none => rfl
      | some v => simp

theorem hexValue?_digitChar : ∀ v < 16, hexValue? (Nat.digitChar v).toUpper.toUInt8 = some v := by decide +kernel

theorem upperHex_spec {width n : Nat} (hwidth : 0 < width) (hn : n < 16 ^ width) :
    (upperHex width n).length = width ∧ hexNumber? (upperHex width n) = some n := by
  induction width, hwidth using Nat.le_induction generalizing n with
  | base =>
      have hvalue := hexValue?_digitChar n hn
      rw [upperHex_one hn]
      refine ⟨rfl, ?_⟩
      simp [hexNumber?, hvalue]
  | succ width hwidth ih =>
      have hquot : n / 16 < 16 ^ width := by
        rw [Nat.pow_succ] at hn
        exact Nat.div_lt_of_lt_mul (by rwa [Nat.mul_comm])
      obtain ⟨hlength, hnumber⟩ := ih hquot
      rw [upperHex_succ hwidth, hexNumber?_concat, hnumber, hexValue?_digitChar _ (Nat.mod_lt n (by decide))]
      refine ⟨by rw [List.length_append, hlength]; rfl, ?_⟩
      simp only [Option.bind_some, Option.map_some, Option.some.injEq]
      omega

/-- A digit that is read is written in upper case. -/
theorem digitChar_of_hexValue? {digit : UInt8} {v : Nat} (h : hexValue? digit = some v) :
    v < 16 ∧ (Nat.digitChar v).toUpper.toUInt8 = upperDigit digit := by
  have hall : ∀ n < 256, ∀ v ∈ hexValue? (UInt8.ofNat n),
      v < 16 ∧ (Nat.digitChar v).toUpper.toUInt8 = upperDigit (UInt8.ofNat n) := by decide +kernel
  have := hall digit.toNat digit.toNat_lt v
  rw [UInt8.ofNat_toNat] at this
  exact this h

theorem hexNumber?_lt {digits : Bytes} {n : Nat} (h : hexNumber? digits = some n) : n < 16 ^ digits.length := by
  induction digits using List.reverseRecOn generalizing n with
  | nil =>
      obtain rfl : 0 = n := Option.some.inj h
      exact Nat.one_pos
  | append_singleton digits digit ih =>
      rw [hexNumber?_concat] at h
      obtain ⟨m, hm, h⟩ := Option.bind_eq_some_iff.mp h
      obtain ⟨v, hv, rfl⟩ := Option.map_eq_some_iff.mp h
      have hm := ih hm
      have hv := (digitChar_of_hexValue? hv).1
      rw [List.length_append, List.length_singleton, Nat.pow_succ]
      omega

theorem upperHex_of_hexNumber? {digits : Bytes} {n : Nat} (hsome : digits ≠ []) (h : hexNumber? digits = some n) :
    upperHex digits.length n = digits.map upperDigit := by
  induction digits using List.reverseRecOn generalizing n with
  | nil => exact absurd rfl hsome
  | append_singleton digits digit ih =>
      rw [hexNumber?_concat] at h
      obtain ⟨m, hm, h⟩ := Option.bind_eq_some_iff.mp h
      obtain ⟨v, hv, rfl⟩ := Option.map_eq_some_iff.mp h
      obtain ⟨hsmall, hdigit⟩ := digitChar_of_hexValue? hv
      rw [List.length_append, List.length_singleton, List.map_append, List.map_singleton]
      by_cases hnil : digits = []
      · subst hnil
        obtain rfl : 0 = m := Option.some.inj hm
        rw [Nat.zero_mul, Nat.zero_add]
        change upperHex 1 v = _
        rw [upperHex_one hsmall, hdigit]
        rfl
      · have hquot : (m * 16 + v) / 16 = m := by omega
        have hrest : (m * 16 + v) % 16 = v := by omega
        rw [upperHex_succ (List.length_pos_iff.mpr hnil), hquot, hrest, ih hnil hm, hdigit]

end ChordOverlay
