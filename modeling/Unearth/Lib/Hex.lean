import Unearth.Lib.Decimal

/-!
# Hexadecimal text

Bytes are printed as two lowercase digits each. A pair of characters is read back the way
`from_str_radix` does it, in either case and with a plus sign for a leading zero.
-/

namespace Unearth.Hex
open Lines

def hexOf (byte : UInt8) : Text := [Nat.digitChar (byte.toNat / 16), Nat.digitChar (byte.toNat % 16)]

def toHex (bytes : List UInt8) : Text := bytes.flatMap hexOf

def hexDigit (c : Char) : Option ℕ :=
  if '0' ≤ c ∧ c ≤ '9' then some (c.toNat - 48)
  else if 'a' ≤ c ∧ c ≤ 'f' then some (c.toNat - 87)
  else if 'A' ≤ c ∧ c ≤ 'F' then some (c.toNat - 55)
  else none

def hexPair (a b : Char) : Option UInt8 :=
  if a = '+' then (hexDigit b).map UInt8.ofNat
  else (hexDigit a).bind fun x => (hexDigit b).map fun y => UInt8.ofNat (16 * x + y)

def parseHex : Text → Option (List UInt8)
  | [] => some []
  | [_] => none
  | a :: b :: t => (hexPair a b).bind fun x => (parseHex t).map (x :: ·)

/-- A number without leading zeros. -/
def hex (n : ℕ) : Text := Nat.toDigits 16 n

/-- Zeros in front up to a width. -/
def pad (width : ℕ) (t : Text) : Text := List.replicate (width - t.length) '0' ++ t

theorem hexDigit_digitChar {n : ℕ} (h : n < 16) : hexDigit (Nat.digitChar n) = some n := by
  interval_cases n <;> rfl

theorem digitChar_ne_plus {n : ℕ} (h : n < 16) : Nat.digitChar n ≠ '+' := by
  interval_cases n <;> decide

theorem hexPair_hexOf (byte : UInt8) :
    hexPair (Nat.digitChar (byte.toNat / 16)) (Nat.digitChar (byte.toNat % 16)) = some byte := by
  have hb : byte.toNat < 256 := byte.toNat_lt
  have hhi : byte.toNat / 16 < 16 := by omega
  have hlo : byte.toNat % 16 < 16 := by omega
  have hsum : 16 * (byte.toNat / 16) + byte.toNat % 16 = byte.toNat := by omega
  rw [hexPair, if_neg (digitChar_ne_plus hhi), hexDigit_digitChar hhi, hexDigit_digitChar hlo,
    Option.bind_some, Option.map_some, hsum, UInt8.ofNat_toNat]

theorem parseHex_toHex (bytes : List UInt8) : parseHex (toHex bytes) = some bytes := by
  induction bytes with
  | nil => rfl
  | cons byte bytes ih =>
    have hcons : toHex (byte :: bytes) =
        Nat.digitChar (byte.toNat / 16) :: Nat.digitChar (byte.toNat % 16) :: toHex bytes := rfl
    rw [hcons, parseHex, hexPair_hexOf, Option.bind_some, ih]
    rfl

theorem length_toHex (bytes : List UInt8) : (toHex bytes).length = 2 * bytes.length := by
  induction bytes with
  | nil => rfl
  | cons byte bytes ih =>
    rw [toHex, List.flatMap_cons, List.length_append, List.length_cons, ← toHex, ih]
    simp only [hexOf, List.length_cons, List.length_nil]
    omega

theorem isWhitespace_digitChar (n : ℕ) : isWhitespace (Nat.digitChar n) = false := by
  by_cases h : n < 16
  · interval_cases n <;> decide
  · have hstar : Nat.digitChar n = '*' := by
      unfold Nat.digitChar
      iterate 16 rw [if_neg (by omega)]
    rw [hstar]
    decide

theorem toHex_noSpace {bytes : List UInt8} {c : Char} (h : c ∈ toHex bytes) :
    isWhitespace c = false := by
  simp only [toHex, List.mem_flatMap, hexOf, List.mem_cons, List.not_mem_nil, or_false] at h
  obtain ⟨byte, -, rfl | rfl⟩ := h
  · exact isWhitespace_digitChar _
  · exact isWhitespace_digitChar _

theorem toHex_token {bytes : List UInt8} (h : bytes ≠ []) : Token (toHex bytes) := by
  refine ⟨fun hnil => h ?_, fun c hc => toHex_noSpace hc⟩
  have := length_toHex bytes
  rw [hnil, List.length_nil] at this
  exact List.length_eq_zero_iff.mp (by omega)

theorem hex_noSpace {n : ℕ} {c : Char} (h : c ∈ hex n) : isWhitespace c = false := by
  induction n using Nat.strong_induction_on with
  | _ n ih =>
    by_cases hn : n < 16
    · rw [hex, Nat.toDigits_of_lt_base hn, List.mem_singleton] at h
      rw [h]
      exact isWhitespace_digitChar n
    · rw [hex, Nat.toDigits_of_base_le (by decide) (by omega), List.mem_append,
        List.mem_singleton] at h
      rcases h with h | rfl
      · exact ih (n / 16) (by omega) h
      · exact isWhitespace_digitChar _

theorem pad_noSpace {width : ℕ} {t : Text} (h : ∀ c ∈ t, isWhitespace c = false) {c : Char}
    (hc : c ∈ pad width t) : isWhitespace c = false := by
  rcases List.mem_append.mp hc with hc | hc
  · rw [List.eq_of_mem_replicate hc]
    decide
  · exact h c hc

end Unearth.Hex
