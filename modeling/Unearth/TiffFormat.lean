import Unearth.LengthTiff
import Unearth.Stored

/-!
# TIFF files

A file is a graph of directories. The header names the first of them, each names the next, and its fields may name
further ones. Directories, values and image data are anywhere in the file, in any order, and a directory may be
named more than once.
-/

namespace Unearth.TiffFormat
open Bytes

/-- The order of the bytes of a number, and whether offsets are of eight bytes. -/
structure Layout where
  le : Bool
  big : Bool

namespace Layout

variable (l : Layout)

def offsetSize : ℕ := if l.big then 8 else 4
def countSize : ℕ := if l.big then 8 else 2
def fieldSize : ℕ := if l.big then 20 else 12
def headerSize : ℕ := if l.big then 16 else 8

def number (n x : ℕ) : List UInt8 := if l.le then toLe n x else toBe n x

def mark : List UInt8 := if l.le then [0x49, 0x49] else [0x4d, 0x4d]

def version : ℕ := if l.big then 43 else 42

/-- The width of the offsets and a zero, which only a big file states. -/
def offsetWidth : List UInt8 := if l.big then l.number 2 8 ++ l.number 2 0 else []

variable {l} {n x : ℕ}

@[simp]
theorem length_number (l : Layout) (n x : ℕ) : (l.number n x).length = n := by
  unfold number
  split_ifs
  · exact length_toLe n x
  · exact length_toBe n x

theorem num_number (h : x < 256 ^ n) : num l.le (l.number n x) = x := by
  unfold num number
  split_ifs
  · exact le_toLe h
  · exact be_toBe h

end Layout

inductive FieldType
  | byte
  | ascii
  | short
  | long
  | rational
  | sbyte
  | undefined
  | sshort
  | slong
  | srational
  | float
  | double
  | ifd
  | long8
  | slong8
  | ifd8
  deriving DecidableEq

namespace FieldType

def code : FieldType → ℕ
  | byte => 1
  | ascii => 2
  | short => 3
  | long => 4
  | rational => 5
  | sbyte => 6
  | undefined => 7
  | sshort => 8
  | slong => 9
  | srational => 10
  | float => 11
  | double => 12
  | ifd => 13
  | long8 => 16
  | slong8 => 17
  | ifd8 => 18

/-- The bytes of a value. -/
def width : FieldType → ℕ
  | byte | ascii | sbyte | undefined => 1
  | short | sshort => 2
  | long | slong | float | ifd => 4
  | rational | srational | double | long8 | slong8 | ifd8 => 8

theorem code_lt (ty : FieldType) : ty.code < 256 ^ 2 := by
  cases ty <;> decide

theorem width_pos (ty : FieldType) : 0 < ty.width := by
  cases ty <;> decide

theorem tiffTypeSize_code (ty : FieldType) : tiffTypeSize ty.code = ty.width := by
  cases ty <;> decide

end FieldType

section Furthest

variable {l m : List ℕ} {n : ℕ}

def furthest (stops : List ℕ) : ℕ := stops.foldl max 0

theorem foldl_max_le_iff (l : List ℕ) (a n : ℕ) : l.foldl max a ≤ n ↔ a ≤ n ∧ ∀ x ∈ l, x ≤ n := by
  induction l generalizing a with
  | nil => simp
  | cons x rest ih => rw [List.foldl_cons, ih, max_le_iff, List.forall_mem_cons, and_assoc]

theorem furthest_le_iff : furthest l ≤ n ↔ ∀ x ∈ l, x ≤ n := by
  rw [furthest, foldl_max_le_iff]
  exact and_iff_right (Nat.zero_le n)

theorem le_furthest {x : ℕ} (h : x ∈ l) : x ≤ furthest l := furthest_le_iff.mp le_rfl x h

theorem furthest_mono (h : l ⊆ m) : furthest l ≤ furthest m := furthest_le_iff.mpr fun _ hx => le_furthest (h hx)

theorem furthest_append (l m : List ℕ) : furthest (l ++ m) = max (furthest l) (furthest m) := by
  apply eq_of_forall_ge_iff
  intro n
  simp only [max_le_iff, furthest_le_iff, List.forall_mem_append]

theorem furthest_cons (x : ℕ) (l : List ℕ) : furthest (x :: l) = max x (furthest l) := by
  apply eq_of_forall_ge_iff
  intro n
  simp only [max_le_iff, furthest_le_iff, List.forall_mem_cons]

end Furthest

/-- A field, with the place of its values when they do not fit in it, or what follows them when they do. -/
structure Field where
  tag : ℕ
  type : FieldType
  values : List ℕ
  place : ℕ
  padding : List UInt8

namespace Field

variable (l : Layout) (f : Field)

def size : ℕ := f.values.length * f.type.width

/-- Whether the values stand in the field itself. -/
def Inline : Prop := f.size ≤ l.offsetSize

instance : Decidable (f.Inline l) := inferInstanceAs (Decidable (_ ≤ _))

def data : List UInt8 := f.values.flatMap (l.number f.type.width)

def bytes : List UInt8 :=
  l.number 2 f.tag ++ (l.number 2 f.type.code ++ (l.number l.offsetSize f.values.length ++
    if f.Inline l then f.data l ++ f.padding else l.number l.offsetSize f.place))

/-- The end of values that do not stand in the field. -/
def stops : List ℕ := if f.Inline l then [] else [f.place + f.size]

/-- The directories that the field names: sub-directories, that of the camera and that of the position. -/
def links : List ℕ := if f.tag ∈ [330, 34665, 34853] then f.values else []

structure WellFormed : Prop where
  tag_lt : f.tag < 256 ^ 2
  count_lt : f.values.length < 256 ^ l.offsetSize
  values_lt : ∀ v ∈ f.values, v < 256 ^ f.type.width
  place_lt : f.place < 256 ^ l.offsetSize
  padded : f.Inline l → f.size + f.padding.length = l.offsetSize
  pointer : f.tag = 34665 ∨ f.tag = 34853 → f.values.length = 1

variable {l f}

theorem length_data (l : Layout) (f : Field) : (f.data l).length = f.size := by
  rw [data, List.length_flatMap]
  simp only [Layout.length_number, List.map_const', List.sum_replicate, smul_eq_mul]
  rfl

theorem length_bytes (h : f.WellFormed l) : (f.bytes l).length = l.fieldSize := by
  have hvalue : (if f.Inline l then f.data l ++ f.padding else l.number l.offsetSize f.place).length =
      l.offsetSize := by
    split_ifs with hinline
    · rw [List.length_append, length_data, h.padded hinline]
    · exact l.length_number _ _
  rw [bytes]
  simp only [List.length_append, Layout.length_number, hvalue]
  unfold Layout.offsetSize Layout.fieldSize
  split_ifs
  · rfl
  · rfl

end Field

structure Directory where
  place : ℕ
  fields : List Field
  next : ℕ

namespace Directory

variable (l : Layout) (d : Directory)

def bytes : List UInt8 :=
  l.number l.countSize d.fields.length ++ (d.fields.flatMap (Field.bytes l) ++ l.number l.offsetSize d.next)

/-- Where the directory itself ends. -/
def stop : ℕ := d.place + l.countSize + d.fields.length * l.fieldSize + l.offsetSize

def values (tag : ℕ) : List ℕ := ((d.fields.find? (·.tag = tag)).map Field.values).getD []

/-- The ends of the pieces of which one field has the offsets and one the lengths. -/
def pieces (offsets lengths : ℕ) : List ℕ := List.zipWith (· + ·) (d.values offsets) (d.values lengths)

/-- What ends where, of all that the directory refers to but a JPEG stream: itself, the values of its fields, strips
and tiles. -/
def stops : List ℕ := d.stop l :: (d.fields.flatMap (Field.stops l) ++ (d.pieces 273 279 ++ d.pieces 324 325))

/-- The end of an embedded JPEG stream. -/
def jpegStops : List ℕ := d.pieces 513 514

/-- The directories that the directory names. -/
def links : List ℕ := d.fields.flatMap Field.links ++ if d.next = 0 then [] else [d.next]

structure WellFormed : Prop where
  place_le : l.headerSize ≤ d.place
  place_lt : d.place < 256 ^ l.offsetSize
  count_lt : d.fields.length < 256 ^ l.countSize
  fields : ∀ f ∈ d.fields, f.WellFormed l
  tags_nodup : (d.fields.map Field.tag).Nodup

end Directory

/-- One directory names another. -/
def Link (directories : List Directory) (x y : ℕ) : Prop := ∃ d ∈ directories, d.place = x ∧ y ∈ d.links

structure TiffFile where
  layout : Layout
  first : ℕ
  directories : List Directory
  well_formed : ∀ d ∈ directories, d.WellFormed layout
  places_nodup : (directories.map Directory.place).Nodup
  first_mem : first ∈ directories.map Directory.place
  links_mem : ∀ d ∈ directories, ∀ x ∈ d.links, x ∈ directories.map Directory.place
  reachable : ∀ d ∈ directories, Relation.ReflTransGen (Link directories) first d.place

namespace TiffFile

variable (file : TiffFile)

def header : List UInt8 :=
  let l := file.layout
  l.mark ++ (l.number 2 l.version ++ (l.offsetWidth ++ l.number l.offsetSize file.first))

/-- What ends where, of all that the file has but JPEG streams. -/
def stops : List ℕ := file.layout.headerSize :: file.directories.flatMap (Directory.stops file.layout)

def jpegStops : List ℕ := file.directories.flatMap Directory.jpegStops

/-- Where the file ends: at the furthest byte that it refers to. -/
def stop : ℕ := furthest (file.stops ++ file.jpegStops)

/-- How many directories, fields, sub-directories and pieces there may be. -/
structure Limited : Prop where
  directories : file.directories.length ≤ 4096
  fields : (file.directories.map (·.fields.length)).sum ≤ 2 ^ 20
  subDirectories : ∀ d ∈ file.directories, ∀ f ∈ d.fields, f.tag = 330 → f.values.length ≤ 64
  pieces : ∀ d ∈ file.directories, ∀ f ∈ d.fields, f.tag ∈ [273, 279, 324, 325] → f.values.length ≤ 2 ^ 20

/-- A source has the file, and all of it ends where it has to. -/
structure StoredIn (src : Source) (r : Room) : Prop where
  header : Stored src r.start file.header
  directory : ∀ d ∈ file.directories, Stored src (r.start + d.place) (d.bytes file.layout)
  data : ∀ d ∈ file.directories, ∀ f ∈ d.fields, ¬ f.Inline file.layout →
    Stored src (r.start + f.place) (f.data file.layout)
  within : file.stop ≤ r.avail

end TiffFile

end Unearth.TiffFormat
