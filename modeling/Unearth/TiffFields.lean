import Unearth.TiffFormat

/-!
# What is read of a field

The reader finds a field where a directory has it, and the values of the field in it or where it says.
-/

namespace Unearth.TiffFormat
open Bytes Word

/-- The reader of the files of a layout. -/
def reader (src : Source) (r : Room) (l : Layout) : Tiff := ⟨src, r.start, l.le, l.big, r.avail⟩

section Numbers

variable {b : Build} {src : Source} {r : Room} {l : Layout} {n off x : ℕ}

theorem start_add (hoff : off ≤ r.avail) : plus b r.start off = .ok (r.start + off) := by
  have hle := r.start_le
  have hlimit := r.limit_lt
  unfold Room.avail at hoff
  exact plus_eq (by omega)

theorem avail_lt (r : Room) : r.avail < 2 ^ 63 := (Nat.sub_le _ _).trans_lt r.limit_lt

theorem uint_stored (hrel : src.Reliable) (hstored : Stored src (r.start + off) (l.number n x)) (hx : x < 256 ^ n)
    (hoff : off + n ≤ r.avail) : (reader src r l).uint b n off = .ok (some x) := by
  have havail := avail_lt r
  have hread := hstored.readAt hrel (l.length_number n x)
  unfold Tiff.uint reader
  dsimp only
  rw [if_neg (by rw [satAdd_eq (by omega)]; omega), start_add (by omega), exec_ok_bind, hread, exec_ok_bind,
    if_neg (by rw [Layout.length_number]; omega), Layout.num_number hx]
  rfl

theorem ptr_eq (t : Tiff) (off : ℕ) : t.ptr b off = t.uint b t.ptrSize off := by
  unfold Tiff.ptr Tiff.ptrSize Tiff.u64 Tiff.u32
  split_ifs
  · rfl
  · rfl

theorem count_eq (t : Tiff) (off : ℕ) : t.count b off = t.uint b t.cntSize off := by
  unfold Tiff.count Tiff.cntSize Tiff.u64 Tiff.u16
  split_ifs
  · rfl
  · rfl

theorem ptr_stored (hrel : src.Reliable) (hstored : Stored src (r.start + off) (l.number l.offsetSize x))
    (hx : x < 256 ^ l.offsetSize) (hoff : off + l.offsetSize ≤ r.avail) : (reader src r l).ptr b off = .ok (some x) :=
  (ptr_eq _ off).trans (uint_stored hrel hstored hx hoff)

theorem count_stored (hrel : src.Reliable) (hstored : Stored src (r.start + off) (l.number l.countSize x))
    (hx : x < 256 ^ l.countSize) (hoff : off + l.countSize ≤ r.avail) : (reader src r l).count b off = .ok (some x) :=
  (count_eq _ off).trans (uint_stored hrel hstored hx hoff)

theorem fieldSize_eq (l : Layout) : l.fieldSize = 4 + l.offsetSize + l.offsetSize := by
  unfold Layout.fieldSize Layout.offsetSize
  split_ifs
  · rfl
  · rfl

theorem offsetSize_le (l : Layout) : l.offsetSize ≤ 8 := by
  unfold Layout.offsetSize
  split_ifs
  · exact le_rfl
  · decide

end Numbers

/-- A field is at a place of the file, with its values. -/
structure FieldAt (src : Source) (r : Room) (l : Layout) (e : ℕ) (f : Field) : Prop where
  well_formed : f.WellFormed l
  stored : Stored src (r.start + e) (f.bytes l)
  stop_le : e + l.fieldSize ≤ r.avail
  data : ¬ f.Inline l → Stored src (r.start + f.place) (f.data l)
  data_le : ¬ f.Inline l → f.place + f.size ≤ r.avail

/-- What the walk knows of a field. -/
def Field.entry (f : Field) (e : ℕ) : TiffEntry := (f.type.code, f.values.length, e)

namespace FieldAt

variable {b : Build} {src : Source} {r : Room} {l : Layout} {e : ℕ} {f : Field}

section Parts

variable (h : FieldAt src r l e f)
include h

theorem tag : Stored src (r.start + e) (l.number 2 f.tag) := h.stored.left

theorem type : Stored src (r.start + (e + 2)) (l.number 2 f.type.code) := by
  have hrest := h.stored.right.left
  rwa [Layout.length_number, Nat.add_assoc] at hrest

theorem count : Stored src (r.start + (e + 4)) (l.number l.offsetSize f.values.length) := by
  have hrest := h.stored.right.right.left
  rwa [Layout.length_number, Layout.length_number, Nat.add_assoc, Nat.add_assoc] at hrest

theorem value : Stored src (r.start + (e + (4 + l.offsetSize)))
    (if f.Inline l then f.data l ++ f.padding else l.number l.offsetSize f.place) := by
  have hrest := h.stored.right.right.right
  rw [Layout.length_number, Layout.length_number, Layout.length_number] at hrest
  rwa [show r.start + (e + (4 + l.offsetSize)) = r.start + e + 2 + 2 + l.offsetSize by omega]

/-- The bytes of the values fit into a word. -/
theorem size_lt : f.size < 2 ^ 63 := by
  have havail := avail_lt r
  have hwidth := offsetSize_le l
  by_cases hinline : f.Inline l
  · exact (hinline.trans hwidth).trans_lt (by decide)
  · have hdata := h.data_le hinline
    omega

theorem total_eq : satMul f.values.length (tiffTypeSize f.type.code) = f.size := by
  have hsize : f.values.length * f.type.width < 2 ^ 63 := h.size_lt
  rw [FieldType.tiffTypeSize_code, satMul_eq (by omega)]
  rfl

end Parts

theorem valueField_eq (h : FieldAt src r l e f) : (reader src r l).valueField b e = .ok (e + (4 + l.offsetSize)) := by
  have havail := avail_lt r
  have hstop := h.stop_le
  rw [fieldSize_eq] at hstop
  have hsize : (if (reader src r l).big then 12 else 8) = 4 + l.offsetSize := by
    unfold Layout.offsetSize reader
    split_ifs
    · rfl
    · rfl
  rw [Tiff.valueField, hsize]
  exact plus_eq (by omega)

/-- The place that a field has for its values. -/
theorem ptr_place (hrel : src.Reliable) (h : FieldAt src r l e f) (hout : ¬ f.Inline l) :
    (reader src r l).ptr b (e + (4 + l.offsetSize)) = .ok (some f.place) := by
  have hstop := h.stop_le
  rw [fieldSize_eq] at hstop
  have hvalue := h.value
  rw [if_neg hout] at hvalue
  exact ptr_stored hrel hvalue h.well_formed.place_lt (by omega)

theorem readEntry_eq (hrel : src.Reliable) (h : FieldAt src r l e f) :
    TiffWalk.readEntry b (reader src r l) e = .ok (some (f.tag, f.entry e)) := by
  have havail := avail_lt r
  have hstop := h.stop_le
  rw [fieldSize_eq] at hstop
  have htag : (reader src r l).u16 b e = .ok (some f.tag) :=
    uint_stored hrel h.tag h.well_formed.tag_lt (by omega)
  have htype : (reader src r l).u16 b (e + 2) = .ok (some f.type.code) :=
    uint_stored hrel h.type f.type.code_lt (by omega)
  have hcount : (reader src r l).ptr b (e + 4) = .ok (some f.values.length) :=
    ptr_stored hrel h.count h.well_formed.count_lt (by omega)
  unfold Tiff.ptr at hcount
  rw [TiffWalk.readEntry, htag, exec_ok_bind]
  dsimp only
  rw [plus_eq (by omega), exec_ok_bind, htype, exec_ok_bind, plus_eq (by omega), exec_ok_bind, hcount]
  rfl

theorem outOfLine_eq (hrel : src.Reliable) (h : FieldAt src r l e f) :
    TiffWalk.outOfLine b (reader src r l) (f.entry e) = .ok (furthest (f.stops l)) := by
  have havail := avail_lt r
  unfold TiffWalk.outOfLine Field.entry Field.stops
  dsimp only
  rw [h.total_eq]
  by_cases hinline : f.Inline l
  · rw [if_pos hinline]
    exact if_pos hinline
  · have hdata := h.data_le hinline
    rw [if_neg hinline]
    refine (if_neg hinline).trans ?_
    rw [h.valueField_eq, exec_ok_bind, h.ptr_place hrel hinline, exec_ok_bind]
    dsimp only
    rw [satAdd_eq (by omega)]
    exact congrArg Except.ok (Nat.zero_max _).symm

/-- The values of a field stand in it or where it says. -/
theorem valuesAt_eq (hrel : src.Reliable) (h : FieldAt src r l e f) :
    ∃ base, (reader src r l).valuesAt b e f.values.length f.type.width = .ok (some base) ∧
      Stored src (r.start + base) (f.data l) ∧ base + f.size ≤ r.avail := by
  have htotal := h.total_eq
  rw [FieldType.tiffTypeSize_code] at htotal
  unfold Tiff.valuesAt
  rw [h.valueField_eq, exec_ok_bind, htotal]
  by_cases hinline : f.Inline l
  · have hvalue := h.value
    have hstop := h.stop_le
    have hsize : f.size ≤ l.offsetSize := hinline
    rw [fieldSize_eq] at hstop
    rw [if_pos hinline] at hvalue
    exact ⟨_, if_pos hinline, hvalue.left, by omega⟩
  · exact ⟨_, (if_neg hinline).trans (h.ptr_place hrel hinline), h.data hinline, h.data_le hinline⟩

theorem values_of_data (h : f.WellFormed l) :
    (List.range f.values.length).map (fun j => num l.le (window (f.data l) (j * f.type.width) f.type.width)) =
      f.values := by
  apply List.ext_getElem
  · rw [List.length_map, List.length_range]
  · intro j hj hj'
    have hblocks : ∀ block ∈ f.values.map (l.number f.type.width), block.length = f.type.width := by
      intro block hblock
      obtain ⟨v, -, rfl⟩ := List.mem_map.mp hblock
      exact l.length_number _ _
    have hblock := window_flatten hblocks j
    rw [← List.flatMap_def, Nat.mul_comm, List.getD_eq_getElem _ _ (by rwa [List.length_map]),
      List.getElem_map] at hblock
    rw [List.getElem_map, List.getElem_range, Field.data, hblock]
    exact Layout.num_number (h.values_lt _ (List.getElem_mem hj'))

theorem entryArray_eq (hrel : src.Reliable) (h : FieldAt src r l e f) {cap : ℕ} (hcap : f.values.length ≤ cap) :
    (reader src r l).entryArray b e f.type.code f.values.length cap = .ok f.values := by
  have havail := avail_lt r
  have hwidth := f.type.width_pos
  unfold Tiff.entryArray
  dsimp only
  rw [FieldType.tiffTypeSize_code, min_eq_left hcap]
  have htotal := h.total_eq
  rw [FieldType.tiffTypeSize_code] at htotal
  by_cases hnone : f.values.length = 0
  · rw [if_pos (Or.inr hnone), List.length_eq_zero_iff.mp hnone]
    rfl
  · obtain ⟨base, hvalues, hdata, hle⟩ := @valuesAt_eq b _ _ _ _ _ hrel h
    have hread := hdata.readAt hrel (Field.length_data l f)
    have huse : min ((f.data l).length / f.type.width) f.values.length = f.values.length := by
      rw [Field.length_data, Field.size, Nat.mul_div_cancel _ hwidth, min_self]
    rw [if_neg (by omega), hvalues, exec_ok_bind, htotal]
    dsimp only
    rw [if_neg (by rw [satAdd_eq (by omega)]; exact not_lt.mpr hle)]
    unfold reader
    dsimp only
    rw [start_add (by omega), exec_ok_bind, hread, exec_ok_bind, huse, values_of_data h.well_formed]
    rfl

/-- A field names the directories that its values are the offsets of. -/
theorem subDirectories_eq (hrel : src.Reliable) (h : FieldAt src r l e f) (hsub : f.tag = 330 → f.values.length ≤ 64) :
    TiffWalk.subDirectories b (reader src r l) f.tag (f.entry e) = .ok f.links := by
  unfold TiffWalk.subDirectories Field.entry Field.links
  dsimp only
  by_cases hsubs : f.tag = 330
  · rw [if_pos hsubs, if_pos (by simp [hsubs])]
    exact entryArray_eq hrel h (hsub hsubs)
  · rw [if_neg hsubs]
    by_cases hpointer : f.tag = 34665 ∨ f.tag = 34853
    · have hone := h.well_formed.pointer hpointer
      rw [if_pos hpointer, if_pos (by simpa using Or.inr hpointer), entryArray_eq hrel h hone.le, exec_ok_bind,
        List.take_of_length_le hone.le]
      rfl
    · rw [if_neg hpointer, if_neg (by simpa [hsubs] using hpointer)]
      rfl

end FieldAt

end Unearth.TiffFormat
