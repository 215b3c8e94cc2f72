import Unearth.Lib.Until
import Unearth.Slices

/-!
# What a source holds at a place

The lengths of files are found by reading fields at places that the fields before them give. What
is stored at a place is read there, and what follows it is stored behind it.
-/

namespace Unearth
open Bytes Word Post

/-- Where a file begins, and where it has to end: no scan goes beyond the source. -/
structure Room where
  start : ℕ
  limit : ℕ
  start_le : start ≤ limit
  limit_lt : limit < 2 ^ 63

def Room.avail (r : Room) : ℕ := r.limit - r.start

/-- A length that is positive and inside the room. -/
def Room.Fits (r : Room) (len : Option ℕ) : Prop := ∀ n ∈ len, 0 < n ∧ r.start + n ≤ r.limit

theorem Room.fits_none (r : Room) : r.Fits none := fun n hn => by cases hn

theorem Room.fits_some {r : Room} {n : ℕ} (hpos : 0 < n) (hle : n ≤ r.avail) : r.Fits (some n) := by
  intro m hm
  cases hm
  unfold avail at hle
  exact ⟨hpos, by omega⟩

theorem Room.fits_satAdd {r : Room} {n : ℕ} (hpos : 0 < n) (h : ¬ r.limit < satAdd r.start n) : r.Fits (some n) := by
  have hlimit := r.limit_lt
  unfold satAdd at h
  refine fits_some hpos ?_
  unfold avail
  omega

/-- The bytes are in the source from a place on. -/
def Stored (src : Source) (pos : ℕ) (bytes : List UInt8) : Prop := bytes <+: src.data.drop pos

section Stored

variable {src : Source} {pos n : ℕ} {l m bytes : List UInt8}

theorem stored_nil (src : Source) (pos : ℕ) : Stored src pos [] := List.nil_prefix

theorem stored_append : Stored src pos (l ++ m) ↔ Stored src pos l ∧ Stored src (pos + l.length) m := by
  unfold Stored
  rw [← List.drop_drop]
  constructor
  · rintro ⟨rest, hrest⟩
    rw [← hrest, List.append_assoc, List.drop_left]
    exact ⟨List.prefix_append _ _, List.prefix_append _ _⟩
  · rintro ⟨⟨behind, hl⟩, hm⟩
    rw [← hl, List.drop_left] at hm
    obtain ⟨rest, hrest⟩ := hm
    exact ⟨rest, by rw [List.append_assoc, hrest, hl]⟩

theorem stored_of_data (before : List UInt8) {file rest : List UInt8} (h : src.data = before ++ file ++ rest) :
    Stored src before.length (file ++ rest) := by
  unfold Stored
  rw [h, List.append_assoc, List.drop_left]

theorem Stored.left (h : Stored src pos (l ++ m)) : Stored src pos l := (stored_append.mp h).1

theorem Stored.right (h : Stored src pos (l ++ m)) : Stored src (pos + l.length) m := (stored_append.mp h).2

theorem Stored.tail {x : UInt8} (h : Stored src pos (x :: l)) : Stored src (pos + 1) l :=
  Stored.right (l := [x]) h

theorem Stored.end_le (h : Stored src pos l) (hne : l ≠ []) : pos + l.length ≤ src.data.length := by
  have hle := h.length_le
  have hpos := List.length_pos_of_ne_nil hne
  rw [List.length_drop] at hle
  omega

theorem Stored.end_lt (h : Stored src pos l) (hne : l ≠ []) : pos + l.length < 2 ^ 63 :=
  (h.end_le hne).trans_lt src.size_lt

theorem Stored.window_eq {i : ℕ} (h : Stored src pos l) (hle : i + n ≤ l.length) :
    window src.data (pos + i) n = window l i n := by
  obtain ⟨rest, hrest⟩ := h
  unfold window
  rw [← List.drop_drop, ← hrest, List.drop_append_of_le_length (by omega), List.take_append_of_le_length]
  rw [List.length_drop]
  omega

/-- A read as long as what is stored returns it. -/
theorem Stored.readAt (h : Stored src pos l) (hrel : src.Reliable) (hn : l.length = n) : src.readAt pos n = .ok l := by
  subst hn
  by_cases hne : l = []
  · subst hne
    rfl
  · have hlt := h.end_lt hne
    rw [hrel.readAt (by omega), window, ← List.prefix_iff_eq_take.mp h]

/-- A longer read begins with what is stored. -/
theorem Stored.readAt_prefix (h : Stored src pos l) (hrel : src.Reliable) (hne : l ≠ []) (hn : l.length ≤ n) :
    ∃ more, src.readAt pos n = .ok (l ++ more) ∧ (l ++ more).length = min n (src.data.length - pos) := by
  have hlt := h.end_lt hne
  obtain ⟨rest, hrest⟩ := h
  refine ⟨rest.take (n - l.length), ?_, ?_⟩
  · rw [hrel.readAt (by omega), window, ← hrest, List.take_append, List.take_of_length_le hn]
  · have hlength := congrArg List.length hrest
    rw [List.length_append, List.length_drop] at hlength
    rw [List.length_append, List.length_take]
    omega

end Stored

section Read

variable (b : Build) (src : Source) (r : Room)

/-- The byte at a place behind the start of the file. -/
def byteFrom (pos : ℕ) : Exec (Option UInt8) := do return (← src.readAt (← plus b r.start pos) 1).head?

variable {b src r} {pos : ℕ}

theorem start_plus (hpos : pos ≤ r.avail) (hlt : r.start ≤ r.limit ∨ 0 < r.avail) :
    plus b r.start pos = .ok (r.start + pos) := by
  have hlimit := r.limit_lt
  apply plus_eq
  unfold Room.avail at hpos hlt
  omega

/-- A byte that is there is at an offset of the source. -/
theorem ends_byteFrom (hpos : pos < r.avail) :
    Ends (· = Fault.io) (fun x => x ≠ none → r.start + pos < 2 ^ 63) (byteFrom b src r pos) := by
  unfold byteFrom
  rw [start_plus hpos.le (.inr (by omega)), exec_ok_bind]
  cases hread : src.readAt (r.start + pos) 1 with
  | error e => exact Ends.error (Source.readAt_error hread)
  | ok bytes =>
    refine Ends.ok fun hne => ?_
    by_contra hlarge
    rw [Source.readAt, if_pos ⟨by decide, .inl (not_lt.mp hlarge)⟩] at hread
    cases hread

theorem Stored.byteFrom {x : UInt8} {l : List UInt8} (h : Stored src (r.start + pos) (x :: l)) (hrel : src.Reliable) :
    byteFrom b src r pos = .ok (some x) := by
  have hlt := h.end_lt (List.cons_ne_nil x l)
  have hone : Stored src (r.start + pos) [x] := Stored.left (m := l) h
  unfold Unearth.byteFrom
  rw [plus_eq (by omega), exec_ok_bind, hone.readAt hrel (n := 1) rfl]
  rfl

end Read

end Unearth
