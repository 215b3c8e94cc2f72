import Unearth.Undelete

/-!
# The times of directory entries
-/

namespace Unearth

/-- The days from the epoch to a date. Quotients are those of words with a sign. -/
def daysFromCivil (year m d : ℤ) : ℤ :=
  let y := if m ≤ 2 then year - 1 else year
  let era := (if 0 ≤ y then y else y - 399).tdiv 400
  let yoe := y - era * 400
  let doy := (153 * (if 2 < m then m - 3 else m + 9) + 2).tdiv 5 + d - 1
  let doe := yoe * 365 + yoe.tdiv 4 - yoe.tdiv 100 + doy
  era * 146097 + doe - 719468

/-- The moment of a packed date and a packed time. -/
def fromDos (date time : ℕ) : Option SystemTime :=
  let day := date % 32
  let month := date / 32 % 16
  let year := 1980 + date / 512 % 128
  let sec := time % 32 * 2
  let min := time / 32 % 64
  let hour := time / 2048 % 32
  if date = 0 then none
  else if ¬ (1 ≤ month ∧ month ≤ 12) ∨ ¬ (1 ≤ day ∧ day ≤ 31) then none
  else
    let secs := daysFromCivil year month day * 86400 + hour * 3600 + min * 60 + sec
    if secs < 0 then none else some (secs.toNat, 0)

/-- The date is in the upper half of the word. -/
def fromExfat (ts : ℕ) : Option SystemTime :=
  if ts = 0 then none else fromDos (ts / 2 ^ 16 % 2 ^ 16) (ts % 2 ^ 16)

example : fromDos 0x5221 0 = some (18628 * 86400, 0) := by decide

end Unearth
