import Mathlib

/-!
# Base64

The encoding of RFC 4648 is read back four digits at a time. Padding stands for the bytes that are missing
from the last three, and the bits that no byte has a use for are zero.
-/

namespace Unearth.Base64

/-- The value of a digit. -/
def sextet (c : Char) : Option ℕ :=
  let n := c.toNat
  if 65 ≤ n ∧ n ≤ 90 then some (n - 65)
  else if 97 ≤ n ∧ n ≤ 122 then some (n - 71)
  else if 48 ≤ n ∧ n ≤ 57 then some (n + 4)
  else if c = '+' then some 62
  else if c = '/' then some 63
  else none

/-- The bytes of the last four digits, when padding is among them. -/
def decodeLast (a b c : Char) : Option (List UInt8) :=
  (sextet a).bind fun w => (sextet b).bind fun x =>
    if c = '=' then
      if x % 16 = 0 then some [UInt8.ofNat (w * 4 + x / 16)] else none
    else (sextet c).bind fun y =>
      if y % 4 = 0 then some [UInt8.ofNat (w * 4 + x / 16), UInt8.ofNat (x % 16 * 16 + y / 4)] else none

def decode : List Char → Option (List UInt8)
  | [] => some []
  | a :: b :: c :: d :: rest =>
    if d = '=' then
      if rest = [] then decodeLast a b c else none
    else
      (sextet a).bind fun w => (sextet b).bind fun x => (sextet c).bind fun y => (sextet d).bind fun z =>
        (decode rest).map fun bytes => UInt8.ofNat (w * 4 + x / 16) :: UInt8.ofNat (x % 16 * 16 + y / 4) ::
          UInt8.ofNat (y % 4 * 64 + z) :: bytes
  | _ => none

theorem decode_cons (a b c d : Char) (rest : List Char) : decode (a :: b :: c :: d :: rest) =
    if d = '=' then if rest = [] then decodeLast a b c else none
    else
      (sextet a).bind fun w => (sextet b).bind fun x => (sextet c).bind fun y => (sextet d).bind fun z =>
        (decode rest).map fun bytes => UInt8.ofNat (w * 4 + x / 16) :: UInt8.ofNat (x % 16 * 16 + y / 4) ::
          UInt8.ofNat (y % 4 * 64 + z) :: bytes := rfl

variable {a b c d : Char} {w x y z : ℕ}

theorem decode_four (ha : sextet a = some w) (hb : sextet b = some x) (hc : sextet c = some y)
    (hd : sextet d = some z) (rest : List Char) :
    decode (a :: b :: c :: d :: rest) = (decode rest).map fun bytes => UInt8.ofNat (w * 4 + x / 16) ::
      UInt8.ofNat (x % 16 * 16 + y / 4) :: UInt8.ofNat (y % 4 * 64 + z) :: bytes := by
  have hne : d ≠ '=' := by
    rintro rfl
    cases hd
  rw [decode_cons, if_neg hne, ha, hb, hc, hd]
  rfl

theorem decode_three (ha : sextet a = some w) (hb : sextet b = some x) (hc : sextet c = some y) (hy : y % 4 = 0) :
    decode [a, b, c, '='] = some [UInt8.ofNat (w * 4 + x / 16), UInt8.ofNat (x % 16 * 16 + y / 4)] := by
  have hne : c ≠ '=' := by
    rintro rfl
    cases hc
  rw [decode_cons, if_pos rfl, if_pos rfl, decodeLast, ha, hb, Option.bind_some, Option.bind_some, if_neg hne, hc,
    Option.bind_some, if_pos hy]

theorem decode_two (ha : sextet a = some w) (hb : sextet b = some x) (hx : x % 16 = 0) :
    decode [a, b, '=', '='] = some [UInt8.ofNat (w * 4 + x / 16)] := by
  rw [decode_cons, if_pos rfl, if_pos rfl, decodeLast, ha, hb, Option.bind_some, Option.bind_some, if_pos rfl, if_pos hx]

example : decode "dW5lYXJ0aA==".toList = some [0x75, 0x6E, 0x65, 0x61, 0x72, 0x74, 0x68] := by decide +kernel

end Unearth.Base64
