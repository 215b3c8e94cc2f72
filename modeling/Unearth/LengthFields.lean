import Unearth.Signatures
import Unearth.Source

/-!
# Lengths stated by a field of the header

A header is read, a size is taken from it, and the size is accepted when the file ends
within the limit. A length that is found stays `Inside` the window of the scan exactly
when no sum of the walk overflows.
-/

namespace Unearth
open Bytes Word

/-- No sum overflows, and a length that is found is not zero and ends within the limit. -/
def Inside (fileStart limit : ℕ) (f : Build → Exec (Option ℕ)) : Prop :=
  f .debug ≠ .error .overflow ∧ ∀ b len, f b = .ok (some len) → 0 < len ∧ fileStart + len ≤ limit

/-- A number as a file stores it. -/
def num (littleEndian : Bool) (bytes : List UInt8) : ℕ :=
  if littleEndian then le bytes else be bytes

theorem le_lt (bytes : List UInt8) : le bytes < 256 ^ bytes.length := by
  induction bytes with
  | nil => simp [le]
  | cons x bytes ih =>
    have hx : x.toNat < 256 := x.toNat_lt
    simp only [le, List.foldr_cons, List.length_cons, pow_succ] at ih ⊢
    omega

theorem le_append (xs ys : List UInt8) : le (xs ++ ys) = le xs + 256 ^ xs.length * le ys := by
  induction xs with
  | nil => simp [le]
  | cons x xs ih =>
    simp only [List.cons_append, le, List.foldr_cons, List.length_cons, pow_succ] at ih ⊢
    rw [ih]
    ring

theorem le_drop (n : ℕ) (bytes : List UInt8) : le (bytes.drop n) = le bytes / 256 ^ n := by
  by_cases hn : n ≤ bytes.length
  · have hsplit := le_append (bytes.take n) (bytes.drop n)
    have hlt := le_lt (bytes.take n)
    rw [List.take_append_drop, List.length_take, min_eq_left hn] at hsplit
    rw [List.length_take, min_eq_left hn] at hlt
    rw [hsplit, Nat.add_mul_div_left _ _ (Nat.pow_pos (by decide)), Nat.div_eq_of_lt hlt, Nat.zero_add]
  · have hlt := (le_lt bytes).trans_le (Nat.pow_le_pow_right (by decide) (not_le.mp hn).le)
    rw [List.drop_eq_nil_of_le (not_le.mp hn).le, Nat.div_eq_of_lt hlt]
    rfl

theorem le_take (n : ℕ) (bytes : List UInt8) : le (bytes.take n) = le bytes % 256 ^ n := by
  have hlt : le (bytes.take n) < 256 ^ n := by
    refine (le_lt _).trans_le (Nat.pow_le_pow_right (by decide) ?_)
    rw [List.length_take]
    exact min_le_left _ _
  by_cases hn : n ≤ bytes.length
  · have hsplit := le_append (bytes.take n) (bytes.drop n)
    rw [List.take_append_drop, List.length_take, min_eq_left hn] at hsplit
    rw [hsplit, Nat.add_mul_mod_self_left, Nat.mod_eq_of_lt hlt]
  · rw [List.take_of_length_le (not_le.mp hn).le] at hlt ⊢
    exact (Nat.mod_eq_of_lt hlt).symm

/-- A field is made of the digits of the number of all bytes. -/
theorem le_window (f : List UInt8) (off n : ℕ) : le (window f off n) = le f / 256 ^ off % 256 ^ n := by
  rw [window, le_take, le_drop]

/-- The `n` bytes of a number, the lowest first. -/
def toLe : ℕ → ℕ → List UInt8
  | 0, _ => []
  | n + 1, x => UInt8.ofNat (x % 256) :: toLe n (x / 256)

@[simp]
theorem length_toLe (n x : ℕ) : (toLe n x).length = n := by
  induction n generalizing x with
  | zero => rfl
  | succ n ih => rw [toLe, List.length_cons, ih]

theorem le_toLe {n x : ℕ} (h : x < 256 ^ n) : le (toLe n x) = x := by
  induction n generalizing x with
  | zero =>
    rw [Nat.pow_zero, Nat.lt_one_iff] at h
    rw [h]
    rfl
  | succ n ih =>
    have hdiv : x / 256 < 256 ^ n := Nat.div_lt_of_lt_mul (by rwa [Nat.pow_succ'] at h)
    have hfirst : (UInt8.ofNat (x % 256)).toNat = x % 256 := by
      rw [UInt8.toNat_ofNat']
      omega
    change (UInt8.ofNat (x % 256)).toNat + 256 * le (toLe n (x / 256)) = x
    rw [hfirst, ih hdiv]
    omega

theorem le_window_lt (f : List UInt8) (off n : ℕ) : le (window f off n) < 256 ^ n := by
  apply (le_lt _).trans_le
  apply Nat.pow_le_pow_right (by decide)
  rw [length_window]
  exact min_le_left _ _

/-- The `len` bytes of a header, with zeros where the source ended; nothing when fewer than
`need` bytes could be read. -/
def header (src : Source) (fileStart len need : ℕ) : Exec (Option (List UInt8)) := do
  let bytes ← src.readAt fileStart len
  return if bytes.length < need then none else some (setLen bytes len)

/-- A stated size, when the file ends within the limit. -/
def fitting (b : Build) (fileStart limit : ℕ) : Option ℕ → Exec (Option ℕ)
  | none => return none
  | some size => do
    let stop ← plus b fileStart size
    return if limit < stop then none else some size

/-- The length that `size` takes from a header. -/
def headerLength (b : Build) (src : Source) (fileStart limit len need : ℕ)
    (size : List UInt8 → Option ℕ) : Exec (Option ℕ) := do
  match ← header src fileStart len need with
  | none => return none
  | some hdr => fitting b fileStart limit (size hdr)

section Arms

variable (b : Build) (src : Source) (fileStart limit : ℕ)

def positive (size : ℕ) : Option ℕ := if size = 0 then none else some size

/-- A four-byte size; only built-in types have it, at an offset of a few bytes. -/
def headerSizeLength (littleEndian : Bool) (offset : ℕ) : Exec (Option ℕ) :=
  headerLength b src fileStart limit (offset + 4) (offset + 4) fun hdr =>
    positive (num littleEndian (window hdr offset 4))

def fixedLength (size : ℕ) : Option ℕ :=
  if size = 0 ∨ limit < satAdd fileStart size then none else some size

def readUint (bytes : List UInt8) (bigEndian : Bool) : ℕ := num (!bigEndian) bytes % 2 ^ 64

def sizefieldLength (offset width : ℕ) (bigEndian : Bool) (mul add : ℕ) : Exec (Option ℕ) := do
  let nbytes := width / 8
  match checkedAdd offset nbytes with
  | none => return none
  | some need =>
    -- the header is read into a buffer of its own
    if 2 ^ 63 ≤ need then throw .capacity
    let tmp ← src.readAt fileStart need
    if tmp.length < need then return none
    let raw := readUint (window tmp offset nbytes) bigEndian
    match (checkedMul raw mul).bind (checkedAdd · add) with
    | none => return none
    | some size => return if size = 0 ∨ limit < satAdd fileStart size then none else some size

/-- The size of a chunk, with the eight bytes of its own header. -/
def chunkSize (littleEndian : Bool) (hdr : List UInt8) : Option ℕ :=
  let chunk := num littleEndian (window hdr 4 4)
  if chunk = 0 then none else some (chunk + 8)

def chunkLength (littleEndian : Bool) : Exec (Option ℕ) :=
  headerLength b src fileStart limit 8 8 (chunkSize littleEndian)

def sqliteSize (hdr : List UInt8) : Option ℕ :=
  -- the page size 1 means 65536
  let raw := be (window hdr 16 2)
  let pageSize := if raw = 1 then 65536 else raw
  let pageCount := be (window hdr 28 4)
  positive ((checkedMul pageSize pageCount).getD 0)

def sqliteLength : Exec (Option ℕ) := headerLength b src fileStart limit 32 32 sqliteSize

/-- Where the next header of a 7z archive ends, as its start header says. -/
def sevenZipSize (hdr : List UInt8) : Option ℕ :=
  let nextOff := le (window hdr 12 8)
  let nextSize := le (window hdr 20 8)
  let size := ((checkedAdd 32 nextOff).bind (checkedAdd · nextSize)).getD 0
  if size ≤ 32 then none else some size

def sevenZipLength : Exec (Option ℕ) := headerLength b src fileStart limit 32 32 sevenZipSize

/-- Where the section headers of an ELF file end. -/
def elfTable (is64 littleEndian : Bool) (hdr : List UInt8) : Option ℕ :=
  let field (off64 width64 off32 width32 : ℕ) : ℕ :=
    num littleEndian (if is64 then window hdr off64 width64 else window hdr off32 width32)
  let shOff := field 0x28 8 0x20 4
  let shEntsize := field 0x3A 2 0x2E 2
  let shNum := field 0x3C 2 0x30 2
  if shOff = 0 ∨ shNum = 0 ∨ shEntsize = 0 then none
  else positive (satAdd shOff (satMul shNum shEntsize))

def elfSize (hdr : List UInt8) : Option ℕ :=
  match byteAt hdr 4, byteAt hdr 5 with
  | 1, 1 => elfTable false true hdr
  | 1, 2 => elfTable false false hdr
  | 2, 1 => elfTable true true hdr
  | 2, 2 => elfTable true false hdr
  | _, _ => none

/-- Half of the header is enough for a 32-bit file. -/
def elfLength : Exec (Option ℕ) := headerLength b src fileStart limit 64 52 elfSize

end Arms

section Inside

variable {src : Source} {fileStart limit : ℕ}

theorem header_steady (src : Source) (fileStart len need : ℕ) :
    Steady fun _ => header src fileStart len need :=
  (src.steady_readAt fileStart len).bind fun _ _ => .ok _

/-- Past a step that no build changes, what is left decides. -/
theorem inside_bind {α : Type} {x : Build → Exec α} {f : Build → α → Exec (Option ℕ)}
    (hx : Steady x) :
    Inside fileStart limit (fun b => x b >>= f b) ↔
      ∀ a, x .debug = .ok a → Inside fileStart limit fun b => f b a := by
  have hsame : ∀ b, x b >>= f b = x .debug >>= f b := fun b => by rw [hx.same b]
  simp only [Inside, hsame]
  cases hd : x .debug with
  | error e =>
    refine iff_of_true ⟨fun he => ?_, fun b len h => ?_⟩ (by simp)
    · cases he
      exact hx.no_overflow hd
    · cases h
  | ok a =>
    simp only [Except.ok.injEq, forall_eq']
    rfl

theorem inside_none : Inside fileStart limit fun _ => .ok none := by
  constructor
  · simp
  · simp

theorem inside_fitting_iff {size : Option ℕ} (hpos : ∀ n ∈ size, 0 < n) :
    Inside fileStart limit (fun b => fitting b fileStart limit size) ↔
      ∀ n ∈ size, fileStart + n < 2 ^ 64 := by
  cases size with
  | none => exact iff_of_true inside_none (by simp)
  | some n =>
    have hn : 0 < n := hpos n rfl
    constructor
    · rintro ⟨hover, -⟩ m hm
      cases hm
      by_contra hge
      apply hover
      simp only [fitting, plus_debug (show 2 ^ 64 ≤ fileStart + n by omega)]
      rfl
    · intro h
      have hlt : fileStart + n < 2 ^ 64 := h n rfl
      have heq : ∀ b, fitting b fileStart limit (some n) =
          .ok (if limit < fileStart + n then none else some n) := by
        intro b
        simp only [fitting, plus_eq hlt]
        rfl
      constructor
      · simp [heq]
      · intro b len hb
        simp only [heq, Except.ok.injEq] at hb
        split_ifs at hb with hlim
        cases hb
        exact ⟨hn, by omega⟩

/-- A stated size stays inside exactly when its end is a word. -/
theorem inside_headerLength_iff {len need : ℕ} {size : List UInt8 → Option ℕ}
    (hpos : ∀ hdr, ∀ n ∈ size hdr, 0 < n) :
    Inside fileStart limit (fun b => headerLength b src fileStart limit len need size) ↔
      ∀ hdr, header src fileStart len need = .ok (some hdr) →
        ∀ n ∈ size hdr, fileStart + n < 2 ^ 64 := by
  unfold headerLength
  rw [inside_bind (header_steady src fileStart len need)]
  constructor
  · intro h hdr hh
    exact (inside_fitting_iff (hpos hdr)).mp (h _ hh)
  · intro h o ho
    cases o with
    | none => exact inside_none
    | some hdr => exact (inside_fitting_iff (hpos hdr)).mpr (h hdr ho)

theorem positive_pos {size n : ℕ} (h : n ∈ positive size) : 0 < n := by
  unfold positive at h
  split_ifs at h with h0
  · cases h
  · cases h
    omega

theorem sevenZipSize_pos {hdr : List UInt8} {n : ℕ} (h : n ∈ sevenZipSize hdr) : 0 < n := by
  unfold sevenZipSize at h
  simp only at h
  split_ifs at h with hle
  · cases h
  · cases h
    omega

theorem elfTable_pos {is64 littleEndian : Bool} {hdr : List UInt8} {n : ℕ}
    (h : n ∈ elfTable is64 littleEndian hdr) : 0 < n := by
  unfold elfTable at h
  simp only at h
  split_ifs at h
  all_goals first
    | exact positive_pos h
    | cases h

theorem elfSize_pos {hdr : List UInt8} {n : ℕ} (h : n ∈ elfSize hdr) : 0 < n := by
  unfold elfSize at h
  split at h
  case h_5 => cases h
  all_goals exact elfTable_pos h

end Inside

end Unearth
