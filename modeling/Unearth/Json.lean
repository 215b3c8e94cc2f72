import Unearth.Lib.Lines

/-!
# JSON values

The values that the server is given, and how their fields are looked at. A number is a
double: a finite one is the rational that it stands for.
-/

namespace Unearth
open Lines

inductive Json
  | null
  | bool (b : Bool)
  | num (n : Option ℚ)
  | str (s : Text)
  | arr (items : List Json)
  | obj (fields : List (Text × Json))

namespace Json

/-- The value of a key; the keys of an object are distinct. -/
def get (j : Json) (key : Text) : Option Json :=
  match j with
  | obj fields => (fields.find? (·.1 = key)).map Prod.snd
  | _ => none

def asStr : Json → Option Text
  | str s => some s
  | _ => none

/-- The conversion of a double to a word truncates and saturates. -/
def asU64 : Json → Option ℕ
  | num (some q) => if 0 ≤ q then some (min q.floor.toNat (2 ^ 64 - 1)) else none
  | _ => none

theorem asU64_lt {j : Json} {n : ℕ} (h : j.asU64 = some n) : n < 2 ^ 64 := by
  unfold asU64 at h
  split at h
  · split_ifs at h
    cases h
    omega
  · cases h

end Json

end Unearth
