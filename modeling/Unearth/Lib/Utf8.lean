import Mathlib

/-!
# Text in UTF-8

A character takes one to four bytes. What is no character, as far as it could have become
one, is read as a single mark, or makes the bytes no text at all.
-/

namespace Unearth.Utf8

def isContinuation (x : UInt8) : Bool := 0x80 ≤ x && x ≤ 0xBF

/-- Whether a byte may be the second of a character. Overlong forms and surrogates are none. -/
def isSecond (lead x : UInt8) : Bool :=
  if lead = 0xE0 then 0xA0 ≤ x && x ≤ 0xBF
  else if lead = 0xED then 0x80 ≤ x && x ≤ 0x9F
  else if lead = 0xF0 then 0x90 ≤ x && x ≤ 0xBF
  else if lead = 0xF4 then 0x80 ≤ x && x ≤ 0x8F
  else isContinuation x

/-- The number of bytes of a character by its first one; none begins with any other byte. -/
def width (lead : UInt8) : ℕ :=
  if lead < 0x80 then 1
  else if 0xC2 ≤ lead && lead ≤ 0xDF then 2
  else if 0xE0 ≤ lead && lead ≤ 0xEF then 3
  else if 0xF0 ≤ lead && lead ≤ 0xF4 then 4
  else 0

/-- The bytes that continue a character, as far as they go. -/
def continued (lead : UInt8) : List UInt8 → List UInt8
  | [] => []
  | x :: rest => if isSecond lead x then x :: rest.takeWhile isContinuation else []

/-- The character that a byte begins, if it is complete, and the bytes that it takes further. -/
def decodeOne (lead : UInt8) (rest : List UInt8) : Option Char × ℕ :=
  if lead < 0x80 then (some (Char.ofNat lead.toNat), 0)
  else
    let more := continued lead (rest.take (width lead - 1))
    if width lead = 0 ∨ more.length < width lead - 1 then (none, more.length)
    else
      let bits := more.foldl (fun n x => n * 64 + x.toNat % 64) (lead.toNat % 2 ^ (7 - width lead))
      (some (Char.ofNat bits), more.length)

/-- The text of the bytes behind the next `skip` ones. -/
def lossyFrom : ℕ → List UInt8 → List Char
  | _, [] => []
  | skip + 1, _ :: rest => lossyFrom skip rest
  | 0, lead :: rest =>
    let (c, further) := decodeOne lead rest
    c.getD '\uFFFD' :: lossyFrom further rest

def fromUtf8Lossy (bytes : List UInt8) : List Char := lossyFrom 0 bytes

example : fromUtf8Lossy [0x41, 0xC3, 0xA9, 0xE2, 0x82, 0x41, 0xFF] = ['A', 'é', '\uFFFD', 'A', '\uFFFD'] := by
  decide

/-- The text of the bytes behind the next `skip` ones, if all of them are characters. -/
def strictFrom : ℕ → List UInt8 → Option (List Char)
  | _, [] => some []
  | skip + 1, _ :: rest => strictFrom skip rest
  | 0, lead :: rest =>
    match decodeOne lead rest with
    | (some c, further) => (strictFrom further rest).map (c :: ·)
    | (none, _) => none

def fromUtf8 (bytes : List UInt8) : Option (List Char) := strictFrom 0 bytes

theorem fromUtf8_ascii {bytes : List UInt8} (h : ∀ x ∈ bytes, x < 0x80) :
    fromUtf8 bytes = some (bytes.map fun x => Char.ofNat x.toNat) := by
  induction bytes with
  | nil => rfl
  | cons x rest ih =>
    have hx : decodeOne x rest = (some (Char.ofNat x.toNat), 0) := if_pos (h x List.mem_cons_self)
    have hrest : strictFrom 0 rest = some (rest.map fun x => Char.ofNat x.toNat) :=
      ih fun y hy => h y (List.mem_cons_of_mem _ hy)
    rw [fromUtf8, strictFrom, hx]
    dsimp only
    rw [hrest]
    rfl

theorem toNat_ascii {c : Char} (h : c.toNat < 0x80) : (UInt8.ofNat c.toNat).toNat = c.toNat := by
  rw [UInt8.toNat_ofNat']
  omega

/-- Characters of one byte each are read from their bytes. -/
theorem fromUtf8_text {t : List Char} (h : ∀ c ∈ t, c.toNat < 0x80) :
    fromUtf8 (t.map fun c => UInt8.ofNat c.toNat) = some t := by
  have hback : (t.map fun c => UInt8.ofNat c.toNat).map (fun x => Char.ofNat x.toNat) = t := by
    rw [List.map_map, List.map_congr_left (g := id), List.map_id]
    intro c hc
    change Char.ofNat (UInt8.ofNat c.toNat).toNat = c
    rw [toNat_ascii (h c hc), Char.ofNat_toNat]
  rw [fromUtf8_ascii, hback]
  intro x hx
  obtain ⟨c, hc, rfl⟩ := List.mem_map.mp hx
  rw [UInt8.lt_iff_toNat_lt, toNat_ascii (h c hc)]
  exact h c hc

end Unearth.Utf8
