import Unearth.Lib.Bytes
import Unearth.Lib.Lines

/-!
# Text in 16-bit units

Units are decoded into characters, two surrogates into one; a surrogate without its
partner is no character, and the lossy reading puts a mark in its place.
-/

namespace Unearth.Utf16
open Lines Bytes

def isHigh (u : ℕ) : Bool := 0xD800 ≤ u && u < 0xDC00
def isLow (u : ℕ) : Bool := 0xDC00 ≤ u && u < 0xE000

/-- The character of a unit that is no surrogate. -/
def unit (u : ℕ) : Option Char := if isHigh u || isLow u then none else some (Char.ofNat u)

def pair (u v : ℕ) : Char := Char.ofNat (0x10000 + (u - 0xD800) * 0x400 + (v - 0xDC00))

def decodeUtf16 : List ℕ → List (Option Char)
  | [] => []
  | [u] => [unit u]
  | u :: v :: rest =>
    if isHigh u && isLow v then some (pair u v) :: decodeUtf16 rest
    else unit u :: decodeUtf16 (v :: rest)

def fromUtf16Lossy (units : List ℕ) : Text := (decodeUtf16 units).map (·.getD '\uFFFD')

/-- The units of bytes in pairs, the lower byte first; a last single byte is none. -/
def unitsOf : List UInt8 → List ℕ
  | x :: y :: rest => (x.toNat + 256 * y.toNat) :: unitsOf rest
  | _ => []

/-- The number of bytes that a text takes in UTF-8. -/
def utf8Size (t : Text) : ℕ := (t.map Char.utf8Size).sum

end Unearth.Utf16
