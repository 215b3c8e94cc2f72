import Unearth.Lib.Cursor
import Unearth.Stored

/-!
# GGUF models

A table of keys with values of many types and a table of tensors are read field by field to find
where the tensors' data begin; the file ends with the tensor that ends last.
-/

namespace Unearth
open Bytes Word Post Cursors Cursors.Cursor

def Source.tape (src : Source) : Tape UInt8 where
  holds := Stored src
  left h := h.left
  right h := h.right

section Fields

variable (b : Build) (src : Source) (r : Room)

/-- The next `n` bytes. -/
def ggufRd (n : ℕ) : Cursor Fault (List UInt8) := fun pos =>
  match checkedAdd pos n with
  | none => return none
  | some stop =>
    if r.limit < stop then return none
    else do
      let bytes ← src.readAt pos n
      if bytes.length < n then return none
      else return some (bytes, ← plus b pos n)

def ggufU32 : Cursor Fault ℕ := do return le (← ggufRd b src r 4)

def ggufU64 : Cursor Fault ℕ := do return le (← ggufRd b src r 8)

def ggufSkip (n : ℕ) : Cursor Fault Unit := fun pos =>
  match checkedAdd pos n with
  | none => return none
  | some stop => return if stop ≤ r.limit then some ((), stop) else none

variable {b src r}

theorem moves_ggufRd (n : ℕ) : Moves (· = Fault.io) r.limit (fun _ => True) (ggufRd b src r n) := by
  intro pos
  have hlimit := r.limit_lt
  unfold ggufRd
  cases hstop : checkedAdd pos n with
  | none => exact Ends.ok fun _ _ h => (by cases h)
  | some stop =>
    obtain ⟨hlt, rfl⟩ := checkedAdd_eq_some.mp hstop
    refine Ends.ite (fun _ => Ends.ok fun _ _ h => (by cases h)) fun hend => ?_
    refine (Source.ends_readAt src pos n).bind fun bytes _ => ?_
    refine Ends.ite (fun _ => Ends.ok fun _ _ h => (by cases h)) fun _ => ?_
    rw [plus_eq hlt, exec_ok_bind]
    refine Ends.ok fun a q heq => ?_
    cases heq
    exact ⟨Nat.le_add_right _ _, .inr (not_lt.mp hend), trivial⟩

theorem moves_ggufU32 : Moves (· = Fault.io) r.limit (fun _ => True) (ggufU32 b src r) :=
  (moves_ggufRd 4).bind fun _ _ => Moves.pure trivial

theorem moves_ggufU64 : Moves (· = Fault.io) r.limit (fun _ => True) (ggufU64 b src r) :=
  (moves_ggufRd 8).bind fun _ _ => Moves.pure trivial

theorem moves_ggufSkip {E : Fault → Prop} (n : ℕ) : Moves E r.limit (fun _ => True) (ggufSkip r n) := by
  intro pos
  unfold ggufSkip
  cases hstop : checkedAdd pos n with
  | none => exact Ends.ok fun _ _ h => (by cases h)
  | some stop =>
    obtain ⟨-, rfl⟩ := checkedAdd_eq_some.mp hstop
    refine Ends.ok fun a q heq => ?_
    split_ifs at heq with hend
    cases heq
    exact ⟨Nat.le_add_right _ _, .inr hend, trivial⟩

theorem reads_ggufRd {l : List UInt8} (hrel : src.Reliable) : Reads src.tape r.limit (ggufRd b src r l.length) l l := by
  intro pos h hfit
  have hlimit := r.limit_lt
  have hread : src.readAt pos l.length = .ok l := Stored.readAt h hrel rfl
  have hstop : checkedAdd pos l.length = some (pos + l.length) := checkedAdd_eq_some.mpr ⟨by omega, rfl⟩
  unfold ggufRd
  rw [hstop]
  dsimp only
  rw [if_neg (not_lt.mpr hfit), hread, exec_ok_bind, if_neg (lt_irrefl _), plus_eq (by omega)]
  rfl

theorem reads_number {n x : ℕ} (hrel : src.Reliable) (hx : x < 256 ^ n) :
    Reads src.tape r.limit (do return le (← ggufRd b src r n)) (toLe n x) x := by
  have h := (reads_ggufRd (b := b) (r := r) (l := toLe n x) hrel).map (f := le)
  rwa [length_toLe, le_toLe hx] at h

theorem reads_ggufU32 {x : ℕ} (hrel : src.Reliable) (hx : x < 2 ^ 32) :
    Reads src.tape r.limit (ggufU32 b src r) (toLe 4 x) x := reads_number hrel (by omega)

theorem reads_ggufU64 {x : ℕ} (hrel : src.Reliable) (hx : x < 2 ^ 64) :
    Reads src.tape r.limit (ggufU64 b src r) (toLe 8 x) x := reads_number hrel (by omega)

theorem reads_ggufSkip {l : List UInt8} : Reads src.tape r.limit (ggufSkip r l.length) l () := by
  intro pos h hfit
  have hlimit := r.limit_lt
  have hstop : checkedAdd pos l.length = some (pos + l.length) := checkedAdd_eq_some.mpr ⟨by omega, rfl⟩
  unfold ggufSkip
  rw [hstop]
  dsimp only
  rw [if_pos hfit]
  rfl

end Fields

namespace Gguf

def MAGIC : List UInt8 := [0x47, 0x47, 0x55, 0x46]

/-- "general.alignment". -/
def ALIGNMENT_KEY : List UInt8 :=
  [0x67, 0x65, 0x6E, 0x65, 0x72, 0x61, 0x6C, 0x2E, 0x61, 0x6C, 0x69, 0x67, 0x6E, 0x6D, 0x65, 0x6E, 0x74]

def MAX_COUNT : ℕ := 2 ^ 20

section Walk

/-- The bytes of a value of a fixed width. -/
def ggufScalarSize : ℕ → Option ℕ
  | 0 | 1 | 7 => some 1
  | 2 | 3 => some 2
  | 4 | 5 | 6 => some 4
  | 10 | 11 | 12 => some 8
  | _ => none

/-- The elements of a block of a tensor and its bytes. -/
def ggmlTypeBlock : ℕ → Option (ℕ × ℕ)
  | 0 => some (1, 4)
  | 1 => some (1, 2)
  | 2 => some (32, 18)
  | 3 => some (32, 20)
  | 6 => some (32, 22)
  | 7 => some (32, 24)
  | 8 => some (32, 34)
  | 9 => some (32, 36)
  | 10 => some (256, 84)
  | 11 => some (256, 110)
  | 12 => some (256, 144)
  | 13 => some (256, 176)
  | 14 => some (256, 210)
  | 15 => some (256, 292)
  | 24 => some (1, 1)
  | 25 => some (1, 2)
  | 26 => some (1, 4)
  | 27 => some (1, 8)
  | 28 => some (1, 8)
  | 30 => some (1, 2)
  | _ => none

variable (b : Build) (src : Source) (r : Room)

/-- A length and as many bytes. -/
def ggufSkipString : Cursor Fault Unit := do ggufSkip r (← ggufU64 b src r)

/-- The elements of an array. -/
def ggufSkipElements (et count : ℕ) : Cursor Fault Unit :=
  match ggufScalarSize et with
  | some sz =>
    match checkedMul count sz with
    | some n => ggufSkip r n
    | none => fail
  | none =>
    if et = 8 then do
      if r.limit - (← here) < satMul count 8 then fail
      else iterate (fun _ => ggufSkipString b src r) count ()
    else fail

def ggufSkipValue (vtype : ℕ) : Cursor Fault Unit :=
  match ggufScalarSize vtype with
  | some sz => ggufSkip r sz
  | none =>
    if vtype = 8 then ggufSkipString b src r
    else if vtype = 9 then do
      let et ← ggufU32 b src r
      let count ← ggufU64 b src r
      ggufSkipElements b src r et count
    else fail

/-- Whether the key is that of the alignment. -/
def ggufKey (keyLen : ℕ) : Cursor Fault Bool :=
  if keyLen = 17 then do return (← ggufRd b src r 17) = ALIGNMENT_KEY
  else do
    ggufSkip r keyLen
    return false

def ggufAlignment : Cursor Fault ℕ := do
  let a ← ggufU32 b src r
  if a = 0 ∨ ¬ a.isPowerOfTwo ∨ 4096 < a then fail else return a

/-- A key and its value; the result is the alignment. -/
def ggufKv (alignment : ℕ) : Cursor Fault ℕ := do
  let keyLen ← ggufU64 b src r
  if 2 ^ 20 < keyLen then fail
  else
    let isAlign ← ggufKey b src r keyLen
    let vtype ← ggufU32 b src r
    if isAlign ∧ vtype = 4 then ggufAlignment b src r
    else
      ggufSkipValue b src r vtype
      return alignment

/-- The end of a tensor, when its type is known and it is made of whole blocks. -/
def tensorEnd (ttype nElems offset : ℕ) : Option ℕ :=
  match ggmlTypeBlock ttype with
  | none => none
  | some (blck, tsize) => if nElems % blck ≠ 0 then none else some (satAdd offset (satMul (nElems / blck) tsize))

def ggufTensor (maxEnd : ℕ) : Cursor Fault ℕ := do
  let nameLen ← ggufU64 b src r
  if 2 ^ 20 < nameLen then fail
  else
    ggufSkip r nameLen
    let nDims ← ggufU32 b src r
    if 4 < nDims then fail
    else
      let nElems ← iterate (fun n => do return satMul n (← ggufU64 b src r)) nDims 1
      let ttype ← ggufU32 b src r
      let offset ← ggufU64 b src r
      match tensorEnd ttype nElems offset with
      | none => fail
      | some stop => return max maxEnd stop

/-- The two tables: the alignment, and the largest end of a tensor. -/
def ggufTables (kvCount tensorCount : ℕ) : Cursor Fault (ℕ × ℕ) := do
  let alignment ← iterate (ggufKv b src r) kvCount 32
  let maxEnd ← iterate (ggufTensor b src r) tensorCount 0
  return (alignment, maxEnd)

/-- The data begin at the next place that is aligned. -/
def ggufTotal (rel alignment maxEnd : ℕ) : Option ℕ := do
  let dataStart ← checkedMul (divCeil rel alignment) alignment
  let total ← checkedAdd dataStart maxEnd
  if r.limit < satAdd r.start total then none else some total

def ggufLength : Exec (Option ℕ) := do
  let hdr ← src.readAt r.start 24
  if hdr.length < 24 ∨ window hdr 0 4 ≠ MAGIC then return none
  else
    let version := le (window hdr 4 4)
    let tensorCount := le (window hdr 8 8)
    let kvCount := le (window hdr 16 8)
    if version ≠ 2 ∧ version ≠ 3 ∨ MAX_COUNT < tensorCount ∨ MAX_COUNT < kvCount then return none
    else
      let pos ← plus b r.start 24
      match ← ggufTables b src r kvCount tensorCount pos with
      | none => return none
      | some ((alignment, maxEnd), pos) => return ggufTotal r (← minus b pos r.start) alignment maxEnd

end Walk

section Bounds

variable {b : Build} {src : Source} {r : Room}

theorem moves_ggufSkipString : Moves (· = Fault.io) r.limit (fun _ => True) (ggufSkipString b src r) :=
  moves_ggufU64.bind fun _ _ => moves_ggufSkip _

theorem moves_ggufSkipElements (et count : ℕ) :
    Moves (· = Fault.io) r.limit (fun _ => True) (ggufSkipElements b src r et count) := by
  unfold ggufSkipElements
  cases ggufScalarSize et with
  | some sz =>
    dsimp only
    cases checkedMul count sz with
    | some n => exact moves_ggufSkip n
    | none => exact Moves.fail
  | none =>
    refine Moves.ite (fun _ => ?_) fun _ => Moves.fail
    refine Moves.here.bind fun pos _ => Moves.ite (fun _ => Moves.fail) fun _ => ?_
    exact Moves.iterate (fun _ _ => moves_ggufSkipString) count trivial

theorem moves_ggufSkipValue (vtype : ℕ) :
    Moves (· = Fault.io) r.limit (fun _ => True) (ggufSkipValue b src r vtype) := by
  unfold ggufSkipValue
  cases ggufScalarSize vtype with
  | some sz => exact moves_ggufSkip sz
  | none =>
    refine Moves.ite (fun _ => moves_ggufSkipString) fun _ => Moves.ite (fun _ => ?_) fun _ => Moves.fail
    exact moves_ggufU32.bind fun et _ => moves_ggufU64.bind fun count _ => moves_ggufSkipElements et count

/-- The alignment is never zero. -/
theorem moves_ggufKv {alignment : ℕ} (h : 0 < alignment) :
    Moves (· = Fault.io) r.limit (0 < ·) (ggufKv b src r alignment) := by
  unfold ggufKv
  refine moves_ggufU64.bind fun keyLen _ => Moves.ite (fun _ => Moves.fail) fun _ => ?_
  have hkey : Moves (· = Fault.io) r.limit (fun _ => True) (ggufKey b src r keyLen) := by
    unfold ggufKey
    refine Moves.ite (fun _ => ?_) fun _ => ?_
    · exact (moves_ggufRd 17).bind fun _ _ => Moves.pure trivial
    · exact (moves_ggufSkip keyLen).bind fun _ _ => Moves.pure trivial
  refine hkey.bind fun isAlign _ => moves_ggufU32.bind fun vtype _ => Moves.ite (fun _ => ?_) fun _ => ?_
  · refine moves_ggufU32.bind fun a _ => Moves.ite (fun _ => Moves.fail) fun ha => Moves.pure ?_
    omega
  · exact (moves_ggufSkipValue vtype).bind fun _ _ => Moves.pure h

theorem moves_ggufTensor (maxEnd : ℕ) : Moves (· = Fault.io) r.limit (fun _ => True) (ggufTensor b src r maxEnd) := by
  unfold ggufTensor
  refine moves_ggufU64.bind fun nameLen _ => Moves.ite (fun _ => Moves.fail) fun _ => ?_
  refine (moves_ggufSkip nameLen).bind fun _ _ => moves_ggufU32.bind fun nDims _ => ?_
  refine Moves.ite (fun _ => Moves.fail) fun _ => ?_
  have hdims : Moves (· = Fault.io) r.limit (fun _ => True)
      (iterate (fun n => do return satMul n (← ggufU64 b src r)) nDims 1) :=
    Moves.iterate (fun _ _ => moves_ggufU64.bind fun _ _ => Moves.pure trivial) nDims trivial
  refine hdims.bind fun nElems _ => moves_ggufU32.bind fun ttype _ => moves_ggufU64.bind fun offset _ => ?_
  cases tensorEnd ttype nElems offset with
  | none => exact Moves.fail
  | some stop => exact Moves.pure trivial

theorem moves_ggufTables (kvCount tensorCount : ℕ) :
    Moves (· = Fault.io) r.limit (fun x => 0 < x.1) (ggufTables b src r kvCount tensorCount) :=
  (Moves.iterate (fun _ h => moves_ggufKv h) kvCount (by decide)).bind fun _ ha =>
    (Moves.iterate (fun maxEnd _ => moves_ggufTensor maxEnd) tensorCount trivial).bind fun _ _ => Moves.pure ha

theorem le_divCeil_mul {x y : ℕ} (hy : 0 < y) : x ≤ divCeil x y * y := by
  unfold divCeil
  have hmod := Nat.mod_add_div (x + y - 1) y
  have hlt := Nat.mod_lt (x + y - 1) hy
  rw [Nat.mul_comm]
  omega

theorem fits_ggufTotal {rel alignment maxEnd : ℕ} (hrel : 0 < rel) (ha : 0 < alignment) :
    r.Fits (ggufTotal r rel alignment maxEnd) := by
  have hle := le_divCeil_mul (x := rel) ha
  unfold ggufTotal
  cases hmul : checkedMul (divCeil rel alignment) alignment with
  | none => exact r.fits_none
  | some dataStart =>
    cases hadd : checkedAdd dataStart maxEnd with
    | none =>
      simp only [bind, Option.bind, hadd]
      exact r.fits_none
    | some total =>
      obtain ⟨-, rfl⟩ := checkedAdd_eq_some.mp hadd
      have hstart : dataStart = divCeil rel alignment * alignment := by
        unfold checkedMul at hmul
        split_ifs at hmul
        cases hmul
        rfl
      simp only [bind, Option.bind, hadd]
      split_ifs with hend
      · exact r.fits_none
      · exact r.fits_satAdd (by omega) hend

/-- On any bytes no sum overflows, and what is found is positive and inside the room. -/
theorem ends_ggufLength (b : Build) (src : Source) (r : Room) :
    Ends (· = Fault.io) r.Fits (ggufLength b src r) := by
  have hlimit := r.limit_lt
  have hstart := r.start_le
  unfold ggufLength
  refine (Source.ends_readAt src r.start 24).bind fun hdr _ => ?_
  refine Ends.ite (fun _ => Ends.ok r.fits_none) fun _ => ?_
  dsimp only
  refine Ends.ite (fun _ => Ends.ok r.fits_none) fun _ => ?_
  rw [plus_eq (by omega), exec_ok_bind]
  refine (moves_ggufTables _ _ (r.start + 24)).bind fun o ho => ?_
  cases o with
  | none => exact Ends.ok r.fits_none
  | some x =>
    obtain ⟨hle, -, ha⟩ := ho x.1 x.2 rfl
    dsimp only
    rw [minus_eq (by omega), exec_ok_bind]
    exact Ends.ok (fits_ggufTotal (by omega) ha)

end Bounds

section Files

inductive ScalarType
  | uint8
  | int8
  | uint16
  | int16
  | uint32
  | int32
  | float32
  | bool
  | uint64
  | int64
  | float64

namespace ScalarType

def code : ScalarType → ℕ
  | uint8 => 0
  | int8 => 1
  | uint16 => 2
  | int16 => 3
  | uint32 => 4
  | int32 => 5
  | float32 => 6
  | bool => 7
  | uint64 => 10
  | int64 => 11
  | float64 => 12

def size : ScalarType → ℕ
  | uint8 | int8 | bool => 1
  | uint16 | int16 => 2
  | uint32 | int32 | float32 => 4
  | uint64 | int64 | float64 => 8

theorem scalarSize_code (t : ScalarType) : ggufScalarSize t.code = some t.size := by
  cases t <;> rfl

theorem code_lt (t : ScalarType) : t.code < 2 ^ 32 := by
  cases t <;> decide

theorem size_range (t : ScalarType) : 1 ≤ t.size ∧ t.size ≤ 8 := by
  cases t <;> decide

end ScalarType

def text (s : List UInt8) : List UInt8 := toLe 8 s.length ++ s

inductive Value
  | scalar (type : ScalarType) (bytes : List UInt8) (length_eq : bytes.length = type.size)
  | string (s : List UInt8)
  | scalars (type : ScalarType) (elements : List (List UInt8)) (length_eq : ∀ e ∈ elements, e.length = type.size)
  | strings (elements : List (List UInt8))

namespace Value

def code : Value → ℕ
  | scalar type _ _ => type.code
  | string _ => 8
  | _ => 9

def bytes : Value → List UInt8
  | scalar _ bytes _ => bytes
  | string s => text s
  | scalars type elements _ => toLe 4 type.code ++ toLe 8 elements.length ++ elements.flatten
  | strings elements => toLe 4 8 ++ toLe 8 elements.length ++ elements.flatMap text

theorem code_lt (v : Value) : v.code < 2 ^ 32 := by
  cases v with
  | scalar type _ _ => exact type.code_lt
  | string s => exact show 8 < 2 ^ 32 by decide
  | scalars type elements h => exact show 9 < 2 ^ 32 by decide
  | strings elements => exact show 9 < 2 ^ 32 by decide

end Value

/-- A key, which the format allows to have 65535 bytes, and its value. -/
structure Kv where
  key : List UInt8
  value : Value
  key_le : key.length ≤ 2 ^ 20

def Kv.bytes (kv : Kv) : List UInt8 := text kv.key ++ (toLe 4 kv.value.code ++ kv.value.bytes)

def alignmentKv (a : ℕ) : Kv := ⟨ALIGNMENT_KEY, .scalar .uint32 (toLe 4 a) (length_toLe 4 a), by decide⟩

/-- The types of tensors whose layout is known. -/
inductive TensorType
  | f32
  | f16
  | q4_0
  | q4_1
  | q5_0
  | q5_1
  | q8_0
  | q8_1
  | q2_K
  | q3_K
  | q4_K
  | q5_K
  | q6_K
  | q8_K
  | i8
  | i16
  | i32
  | i64
  | f64
  | bf16

namespace TensorType

def code : TensorType → ℕ
  | f32 => 0
  | f16 => 1
  | q4_0 => 2
  | q4_1 => 3
  | q5_0 => 6
  | q5_1 => 7
  | q8_0 => 8
  | q8_1 => 9
  | q2_K => 10
  | q3_K => 11
  | q4_K => 12
  | q5_K => 13
  | q6_K => 14
  | q8_K => 15
  | i8 => 24
  | i16 => 25
  | i32 => 26
  | i64 => 27
  | f64 => 28
  | bf16 => 30

/-- The elements of a block. -/
def blockSize : TensorType → ℕ
  | q4_0 | q4_1 | q5_0 | q5_1 | q8_0 | q8_1 => 32
  | q2_K | q3_K | q4_K | q5_K | q6_K | q8_K => 256
  | _ => 1

/-- The bytes of a block. -/
def typeSize : TensorType → ℕ
  | i8 => 1
  | f16 | bf16 | i16 => 2
  | f32 | i32 => 4
  | i64 | f64 => 8
  | q4_0 => 18
  | q4_1 => 20
  | q5_0 => 22
  | q5_1 => 24
  | q8_0 => 34
  | q8_1 => 36
  | q2_K => 84
  | q3_K => 110
  | q4_K => 144
  | q5_K => 176
  | q6_K => 210
  | q8_K => 292

theorem typeBlock_code (t : TensorType) : ggmlTypeBlock t.code = some (t.blockSize, t.typeSize) := by
  cases t <;> rfl

theorem code_lt (t : TensorType) : t.code < 2 ^ 32 := by
  cases t <;> decide

end TensorType

/-- A tensor of whole blocks; its name may have 64 bytes by the format. -/
structure Tensor where
  name : List UInt8
  dims : List ℕ
  type : TensorType
  offset : ℕ
  name_le : name.length ≤ 2 ^ 20
  dims_le : dims.length ≤ 4
  dims_lt : ∀ d ∈ dims, d < 2 ^ 64
  elements_lt : dims.prod < 2 ^ 64
  whole_blocks : dims.prod % type.blockSize = 0
  offset_lt : offset < 2 ^ 64

namespace Tensor

def bytes (t : Tensor) : List UInt8 :=
  text t.name ++ (toLe 4 t.dims.length ++ (t.dims.flatMap (toLe 8) ++ (toLe 4 t.type.code ++ toLe 8 t.offset)))

def size (t : Tensor) : ℕ := t.dims.prod / t.type.blockSize * t.type.typeSize

def stop (t : Tensor) : ℕ := t.offset + t.size

end Tensor

structure Model where
  version : ℕ
  before : List Kv
  alignment : Option ℕ
  after : List Kv
  tensors : List Tensor
  version_eq : version = 2 ∨ version = 3
  key_ne : ∀ kv ∈ before ++ after, kv.key ≠ ALIGNMENT_KEY
  alignment_power : ∀ a ∈ alignment, a.isPowerOfTwo ∧ a ≤ 4096
  tensors_le : tensors.length ≤ MAX_COUNT
  entries_le : (before ++ alignment.toList.map alignmentKv ++ after).length ≤ MAX_COUNT

namespace Model

variable (f : Model)

def entries : List Kv := f.before ++ f.alignment.toList.map alignmentKv ++ f.after

/-- The header with its two tables. -/
def header : List UInt8 :=
  MAGIC ++ toLe 4 f.version ++ toLe 8 f.tensors.length ++ toLe 8 f.entries.length ++
    (f.entries.flatMap Kv.bytes ++ f.tensors.flatMap Tensor.bytes)

/-- The end of the tensor that ends last. -/
def tensorsEnd : ℕ := f.tensors.foldl (fun m t => max m t.stop) 0

/-- The header up to the next place that is aligned, and the tensors. -/
def length : ℕ := divCeil f.header.length (f.alignment.getD 32) * f.alignment.getD 32 + f.tensorsEnd

end Model

variable {b : Build} {src : Source} {r : Room}

theorem reads_text {s : List UInt8} (hrel : src.Reliable) :
    Reads src.tape r.limit (ggufSkipString b src r) (text s) () := by
  have hlimit := r.limit_lt
  refine Reads.of_short fun hshort => ?_
  rw [text, List.length_append] at hshort
  exact (reads_ggufU64 hrel (by omega)).bind reads_ggufSkip

theorem length_strings (l : List (List UInt8)) : l.length * 8 ≤ (l.flatMap text).length := by
  induction l with
  | nil => exact Nat.zero_le _
  | cons s l ih =>
    rw [List.flatMap_cons, List.length_append, List.length_cons, text, List.length_append, length_toLe]
    omega

theorem length_scalars {n : ℕ} {l : List (List UInt8)} (h : ∀ e ∈ l, e.length = n) :
    l.flatten.length = l.length * n := by
  induction l with
  | nil => rw [List.flatten_nil, List.length_nil, List.length_nil, Nat.zero_mul]
  | cons e l ih =>
    rw [List.flatten_cons, List.length_append, h e List.mem_cons_self, List.length_cons, Nat.succ_mul,
      ih fun x hx => h x (List.mem_cons_of_mem e hx), Nat.add_comm]

/-- A string has eight bytes at least, so that there is room for as many as are stored. -/
theorem reads_strings {l : List (List UInt8)} (hrel : src.Reliable) :
    Reads src.tape r.limit (ggufSkipElements b src r 8 l.length) (l.flatMap text) () := by
  intro pos h hfit
  have hlimit := r.limit_lt
  have hlength := length_strings l
  have hiterate : Reads src.tape r.limit (iterate (fun _ => ggufSkipString b src r) l.length ()) (l.flatMap text) () :=
    Reads.iterate (fun _ _ => ()) (fun _ s _ => reads_text hrel) ()
  have hroom : ¬ r.limit - pos < satMul l.length 8 := by
    rw [satMul_eq (by omega)]
    omega
  change (if r.limit - pos < satMul l.length 8 then fail
    else iterate (fun _ => ggufSkipString b src r) l.length ()) pos = _
  rw [if_neg hroom]
  exact hiterate pos h hfit

theorem reads_scalars {type : ScalarType} {l : List (List UInt8)} (h : ∀ e ∈ l, e.length = type.size) :
    Reads src.tape r.limit (ggufSkipElements b src r type.code l.length) l.flatten () := by
  have hlimit := r.limit_lt
  refine Reads.of_short fun hshort => ?_
  have hlength := length_scalars h
  have hmul : checkedMul l.length type.size = some l.flatten.length := by
    rw [hlength, checkedMul, if_pos (by omega)]
  unfold ggufSkipElements
  rw [type.scalarSize_code]
  dsimp only
  rw [hmul]
  exact reads_ggufSkip

theorem reads_value (v : Value) (hrel : src.Reliable) :
    Reads src.tape r.limit (ggufSkipValue b src r v.code) v.bytes () := by
  have hlimit := r.limit_lt
  refine Reads.of_short fun hshort => ?_
  cases v with
  | scalar type bytes length_eq =>
    unfold ggufSkipValue
    rw [Value.code, type.scalarSize_code, ← length_eq]
    exact reads_ggufSkip
  | string s => exact reads_text hrel
  | scalars type elements length_eq =>
    have hlength := length_scalars length_eq
    have hsize := type.size_range
    have hcount : elements.length ≤ elements.flatten.length := by
      rw [hlength]
      exact Nat.le_mul_of_pos_right _ hsize.1
    rw [Value.bytes, List.length_append] at hshort
    rw [Value.bytes, List.append_assoc]
    exact (reads_ggufU32 hrel type.code_lt).bind ((reads_ggufU64 hrel (by omega)).bind (reads_scalars length_eq))
  | strings elements =>
    have hlength := length_strings elements
    rw [Value.bytes, List.length_append] at hshort
    rw [Value.bytes, List.append_assoc]
    exact (reads_ggufU32 hrel (by decide)).bind ((reads_ggufU64 hrel (by omega)).bind (reads_strings hrel))

theorem reads_key (key : List UInt8) (hrel : src.Reliable) :
    Reads src.tape r.limit (ggufKey b src r key.length) key (decide (key = ALIGNMENT_KEY)) := by
  unfold ggufKey
  by_cases hlength : key.length = 17
  · rw [if_pos hlength, ← hlength]
    exact (reads_ggufRd hrel).map (f := fun bytes => decide (bytes = ALIGNMENT_KEY))
  · have hne : decide (key = ALIGNMENT_KEY) = false := decide_eq_false fun h => hlength (by rw [h]; rfl)
    rw [if_neg hlength, hne]
    exact reads_ggufSkip.map (f := fun _ => false)

/-- The alignment behind an entry. -/
def Kv.aligned (alignment : ℕ) (kv : Kv) : ℕ := if kv.key = ALIGNMENT_KEY then le kv.value.bytes else alignment

theorem reads_kv {kv : Kv} (alignment : ℕ) (hrel : src.Reliable) (hne : kv.key ≠ ALIGNMENT_KEY) :
    Reads src.tape r.limit (ggufKv b src r alignment) kv.bytes (kv.aligned alignment) := by
  have hkey := kv.key_le
  have hvalue : Reads src.tape r.limit
      (if false ∧ kv.value.code = 4 then ggufAlignment b src r
        else do ggufSkipValue b src r kv.value.code; return alignment) kv.value.bytes alignment := by
    rw [if_neg fun h => Bool.false_ne_true h.1]
    exact (reads_value kv.value hrel).map (f := fun _ => alignment)
  have hrest : Reads src.tape r.limit
      (if 2 ^ 20 < kv.key.length then fail
        else do
          let isAlign ← ggufKey b src r kv.key.length
          let vtype ← ggufU32 b src r
          if isAlign ∧ vtype = 4 then ggufAlignment b src r
          else
            ggufSkipValue b src r vtype
            return alignment) (kv.key ++ (toLe 4 kv.value.code ++ kv.value.bytes)) alignment := by
    rw [if_neg (not_lt.mpr hkey)]
    refine (reads_key kv.key hrel).bind ((reads_ggufU32 hrel kv.value.code_lt).bind ?_)
    simpa only [decide_eq_false hne, Bool.false_eq_true] using hvalue
  rw [Kv.aligned, if_neg hne, Kv.bytes, text, List.append_assoc]
  exact (reads_ggufU64 hrel (by omega)).bind hrest

theorem reads_alignment {a : ℕ} (alignment : ℕ) (hrel : src.Reliable) (hpower : a.isPowerOfTwo) (hle : a ≤ 4096) :
    Reads src.tape r.limit (ggufKv b src r alignment) (alignmentKv a).bytes a := by
  have hpos := Nat.pos_of_isPowerOfTwo hpower
  have hvalue : Reads src.tape r.limit (ggufAlignment b src r) (toLe 4 a) a := by
    have h := (reads_ggufU32 (b := b) (r := r) (x := a) hrel (by omega)).bind (m := [])
      (f := fun a => if a = 0 ∨ ¬ a.isPowerOfTwo ∨ 4096 < a then fail else pure a) (c := a)
      (by
        rw [if_neg (by simp [hpower]; omega)]
        exact Reads.pure a)
    rwa [List.append_nil] at h
  have hkey : Reads src.tape r.limit (ggufKey b src r 17) ALIGNMENT_KEY true := reads_key ALIGNMENT_KEY hrel
  rw [Kv.bytes, text, List.append_assoc]
  refine (reads_ggufU64 (x := 17) hrel (by decide)).bind ?_
  refine hkey.bind ((reads_ggufU32 (x := 4) hrel (by decide)).bind ?_)
  exact hvalue

theorem foldl_aligned {l : List Kv} (h : ∀ kv ∈ l, kv.key ≠ ALIGNMENT_KEY) (a : ℕ) :
    l.foldl Kv.aligned a = a := by
  induction l generalizing a with
  | nil => rfl
  | cons kv l ih =>
    rw [List.foldl_cons, Kv.aligned, if_neg (h kv List.mem_cons_self)]
    exact ih (fun x hx => h x (List.mem_cons_of_mem kv hx)) a

/-- The product of the dimensions, also when a part of it is not a word. -/
theorem foldl_satMul {dims : List ℕ} {n : ℕ} (h : n * dims.prod < 2 ^ 64) : dims.foldl satMul n = n * dims.prod := by
  induction dims generalizing n with
  | nil => simp
  | cons d dims ih =>
    rw [List.prod_cons, ← Nat.mul_assoc] at h ⊢
    rw [List.foldl_cons]
    by_cases hword : n * d < 2 ^ 64
    · rw [satMul_eq hword]
      exact ih h
    · have hzero : dims.prod = 0 := by
        by_contra hne
        exact hword ((Nat.le_mul_of_pos_right _ (Nat.pos_of_ne_zero hne)).trans_lt h)
      rw [ih (by rw [hzero]; simp), hzero]
      simp

theorem tensorEnd_eq (t : Tensor) (h : t.stop < 2 ^ 64) : tensorEnd t.type.code t.dims.prod t.offset = some t.stop := by
  have hsize : t.dims.prod / t.type.blockSize * t.type.typeSize = t.size := rfl
  have hstop : t.stop = t.offset + t.size := rfl
  unfold tensorEnd
  rw [t.type.typeBlock_code]
  dsimp only
  rw [if_neg (not_not.mpr t.whole_blocks), satMul_eq (by omega), hsize, satAdd_eq (by omega), hstop]

theorem reads_tensor (t : Tensor) (maxEnd : ℕ) (hrel : src.Reliable) (h : t.stop < 2 ^ 64) :
    Reads src.tape r.limit (ggufTensor b src r maxEnd) t.bytes (max maxEnd t.stop) := by
  have hname := t.name_le
  have hdims := t.dims_le
  have hproduct : t.dims.foldl satMul 1 = t.dims.prod := by
    have h : t.dims.foldl satMul 1 = 1 * t.dims.prod := foldl_satMul (by rw [Nat.one_mul]; exact t.elements_lt)
    rwa [Nat.one_mul] at h
  have helements : Reads src.tape r.limit (iterate (fun n => do return satMul n (← ggufU64 b src r)) t.dims.length 1)
      (t.dims.flatMap (toLe 8)) t.dims.prod := by
    rw [← hproduct]
    exact Reads.iterate satMul (fun n d hd => (reads_ggufU64 hrel (t.dims_lt d hd)).map (f := satMul n)) 1
  have hend := tensorEnd_eq t h
  rw [Tensor.bytes, text, List.append_assoc]
  unfold ggufTensor
  refine (reads_ggufU64 hrel (by omega)).bind ?_
  rw [if_neg (not_lt.mpr hname)]
  refine reads_ggufSkip.bind ((reads_ggufU32 hrel (by omega)).bind ?_)
  rw [if_neg (not_lt.mpr hdims)]
  refine helements.bind ((reads_ggufU32 hrel t.type.code_lt).bind ?_)
  have hlast := (reads_ggufU64 (b := b) (r := r) hrel t.offset_lt).bind (m := [])
    (f := fun offset => match tensorEnd t.type.code t.dims.prod offset with
      | none => fail
      | some stop => pure (max maxEnd stop)) (c := max maxEnd t.stop)
    (by
      rw [hend]
      exact Reads.pure _)
  rwa [List.append_nil] at hlast

namespace Model

variable {f : Model}

theorem length_front (f : Model) :
    (MAGIC ++ toLe 4 f.version ++ toLe 8 f.tensors.length ++ toLe 8 f.entries.length).length = 24 := by
  simp only [List.length_append, length_toLe]
  rfl

theorem reads_entries (f : Model) (hrel : src.Reliable) :
    Reads src.tape r.limit (iterate (ggufKv b src r) f.entries.length 32) (f.entries.flatMap Kv.bytes)
      (f.alignment.getD 32) := by
  have hbefore := foldl_aligned (l := f.before) fun kv h => f.key_ne kv (List.mem_append_left _ h)
  have hafter := foldl_aligned (l := f.after) fun kv h => f.key_ne kv (List.mem_append_right _ h)
  have hfold : f.entries.foldl Kv.aligned 32 = f.alignment.getD 32 := by
    rw [entries, List.foldl_append, List.foldl_append, hbefore, hafter]
    cases ha : f.alignment with
    | none => rfl
    | some a =>
      have hle := (f.alignment_power a ha).2
      exact le_toLe (by omega)
  rw [← hfold]
  refine Reads.iterate Kv.aligned (fun alignment kv hkv => ?_) 32
  rw [entries, List.mem_append, List.mem_append] at hkv
  obtain (hkv | hkv) | hkv := hkv
  · exact reads_kv alignment hrel (f.key_ne kv (List.mem_append_left _ hkv))
  · obtain ⟨a, ha, rfl⟩ := List.mem_map.mp hkv
    obtain ⟨hpower, hle⟩ := f.alignment_power a (Option.mem_toList.mp ha)
    have haligned : (alignmentKv a).aligned alignment = a := le_toLe (by omega)
    rw [haligned]
    exact reads_alignment alignment hrel hpower hle
  · exact reads_kv alignment hrel (f.key_ne kv (List.mem_append_right _ hkv))

theorem stop_le (l : List Tensor) (m : ℕ) :
    m ≤ l.foldl (fun m t => max m t.stop) m ∧ ∀ t ∈ l, t.stop ≤ l.foldl (fun m t => max m t.stop) m := by
  induction l generalizing m with
  | nil => exact ⟨le_rfl, fun t h => (by cases h)⟩
  | cons t l ih =>
    obtain ⟨hle, hall⟩ := ih (max m t.stop)
    rw [List.foldl_cons]
    refine ⟨(le_max_left _ _).trans hle, List.forall_mem_cons.mpr ⟨(le_max_right _ _).trans hle, hall⟩⟩

theorem reads_tables (f : Model) (hrel : src.Reliable) (hend : f.tensorsEnd < 2 ^ 64) :
    Reads src.tape r.limit (ggufTables b src r f.entries.length f.tensors.length)
      (f.entries.flatMap Kv.bytes ++ f.tensors.flatMap Tensor.bytes) (f.alignment.getD 32, f.tensorsEnd) := by
  refine (f.reads_entries hrel).bind ?_
  refine Reads.map (f := fun maxEnd => (f.alignment.getD 32, maxEnd)) ?_
  refine Reads.iterate (fun m (t : Tensor) => max m t.stop) (fun maxEnd t ht => ?_) 0
  exact reads_tensor t maxEnd hrel (((stop_le f.tensors 0).2 t ht).trans_lt hend)

theorem ggufTotal_eq (f : Model) (hfit : r.start + f.length ≤ r.limit) :
    ggufTotal r f.header.length (f.alignment.getD 32) f.tensorsEnd = some f.length := by
  have hlimit := r.limit_lt
  have hlength : f.length = divCeil f.header.length (f.alignment.getD 32) * f.alignment.getD 32 + f.tensorsEnd := rfl
  unfold ggufTotal checkedMul
  rw [if_pos (by omega)]
  simp only [bind, Option.bind]
  rw [checkedAdd_eq_some.mpr ⟨by omega, rfl⟩]
  dsimp only
  rw [← hlength, satAdd_eq (by omega), if_neg (by omega)]

end Model

end Files

/-- The length of a model is its header up to the next aligned place and its tensors up to the one that
ends last; on any bytes no sum overflows, and what is found is positive and inside the room. -/
theorem gguf_length_exact :
    (∀ (b : Build) (src : Source) (r : Room) (f : Model), src.Reliable → Stored src r.start f.header →
      r.start + f.length ≤ r.limit → ggufLength b src r = .ok (some f.length)) ∧
    ∀ (b : Build) (src : Source) (r : Room), Ends (· = Fault.io) r.Fits (ggufLength b src r) := by
  refine ⟨?_, ends_ggufLength⟩
  intro b src r f hrel h hfit
  have hlimit := r.limit_lt
  have hfront := f.length_front
  have halignment : 0 < f.alignment.getD 32 := by
    cases ha : f.alignment with
    | none => exact show 0 < 32 by decide
    | some a => exact Nat.pos_of_isPowerOfTwo (f.alignment_power a ha).1
  have hheader := le_divCeil_mul (x := f.header.length) halignment
  have hlength : f.length = divCeil f.header.length (f.alignment.getD 32) * f.alignment.getD 32 + f.tensorsEnd := rfl
  have hsplit : f.header.length = 24 + (f.entries.flatMap Kv.bytes ++ f.tensors.flatMap Tensor.bytes).length := by
    rw [Model.header, List.length_append, hfront]
  have hmagic : window (MAGIC ++ toLe 4 f.version ++ toLe 8 f.tensors.length ++ toLe 8 f.entries.length) 0 4 =
      MAGIC := rfl
  have hversion : window (MAGIC ++ toLe 4 f.version ++ toLe 8 f.tensors.length ++ toLe 8 f.entries.length) 4 4 =
      toLe 4 f.version := rfl
  have htensors : window (MAGIC ++ toLe 4 f.version ++ toLe 8 f.tensors.length ++ toLe 8 f.entries.length) 8 8 =
      toLe 8 f.tensors.length := rfl
  have hentries : window (MAGIC ++ toLe 4 f.version ++ toLe 8 f.tensors.length ++ toLe 8 f.entries.length) 16 8 =
      toLe 8 f.entries.length := rfl
  have htensorsLe := f.tensors_le
  have hentriesLe : f.entries.length ≤ MAX_COUNT := f.entries_le
  have hcount : MAX_COUNT < 2 ^ 64 := by decide
  have hversionEq := f.version_eq
  have htables := f.reads_tables (b := b) (r := r) hrel (by omega) (r.start + 24) (hfront ▸ h.right) (by omega)
  unfold ggufLength
  rw [Stored.readAt (Stored.left h) hrel hfront, exec_ok_bind, hmagic, hfront, if_neg (by simp), hversion, htensors,
    hentries, le_toLe (by omega), le_toLe (by omega), le_toLe (by omega)]
  dsimp only
  rw [if_neg (by omega), plus_eq (by omega), exec_ok_bind, htables, exec_ok_bind]
  dsimp only
  rw [minus_eq (by omega), exec_ok_bind,
    show r.start + 24 + (f.entries.flatMap Kv.bytes ++ f.tensors.flatMap Tensor.bytes).length - r.start =
      f.header.length by omega, f.ggufTotal_eq hfit]
  rfl

section Sample

theorem eight_power : ∀ a ∈ some 8, a.isPowerOfTwo ∧ a ≤ 4096 := by
  intro a ha
  cases ha
  exact ⟨⟨3, rfl⟩, by decide⟩

def sampleTensors : List Tensor := [
  ⟨[0x74], [4, 2], .f16, 24, by decide, by decide, by decide, by decide, rfl, by decide⟩,
  ⟨[0x75], [32], .q4_0, 0, by decide, by decide, by decide, by decide, rfl, by decide⟩]

def sampleModel : Model where
  version := 3
  before := [⟨[0x61], .string [0x62], by decide⟩, ⟨[0x63], .strings [[0x64], []], by decide⟩]
  alignment := some 8
  after := [⟨[0x65], .scalars .int16 [[1, 0], [2, 0]] (by decide), by decide⟩]
  tensors := sampleTensors
  version_eq := .inr rfl
  key_ne := by decide
  alignment_power := eight_power
  tensors_le := by decide
  entries_le := by decide

theorem length_sample_lt : ([3] ++ sampleModel.header ++ [9, 9, 9]).length < 2 ^ 63 := by decide +kernel

def sampleSource : Source where
  data := [3] ++ sampleModel.header ++ [9, 9, 9]
  size_lt := length_sample_lt

def modelRoom : Room := ⟨1, 400, by decide, by decide⟩

theorem sample_gguf_length : ggufLength .debug sampleSource modelRoom = .ok (some 264) ∧
    Ends (· = Fault.io) modelRoom.Fits (ggufLength .debug sampleSource modelRoom) := by
  have hrel : sampleSource.Reliable := fun _ _ => rfl
  have hdata : sampleSource.data = [3] ++ sampleModel.header ++ [9, 9, 9] := rfl
  have hstored : Stored sampleSource 1 sampleModel.header := (stored_of_data [3] hdata).left
  have hlength : sampleModel.length = 264 := by decide +kernel
  have hfit : modelRoom.start + sampleModel.length ≤ modelRoom.limit := by
    rw [hlength]
    decide
  have hfound := gguf_length_exact.1 .debug sampleSource modelRoom sampleModel hrel hstored hfit
  rw [hlength] at hfound
  exact ⟨hfound, gguf_length_exact.2 .debug sampleSource modelRoom⟩

end Sample

end Gguf

end Unearth
