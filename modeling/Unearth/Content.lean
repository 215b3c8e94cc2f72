import Unearth.Source

/-!
# Bytes that were read from known places

A directory is put together out of several reads. Each of its bytes is kept with the place
in the source that it was read from, so that an entry can be told from its copies.
-/

namespace Unearth
open Bytes

structure Content (src : Source) where
  bytes : List UInt8
  places : List ℕ
  located : bytes = places.map (byteAt src.data)

theorem window_eq_map (f : List UInt8) (off len : ℕ) :
    window f off len = (List.range' off (window f off len).length).map (byteAt f) := by
  apply List.ext_getElem
  · rw [List.length_map, List.length_range']
  · intro i hi hi'
    have hlen := hi
    rw [length_window] at hlen
    rw [List.getElem_map, List.getElem_range', Nat.one_mul]
    simp only [window, List.getElem_take, List.getElem_drop]
    rw [byteAt, List.getD_eq_getElem?_getD, List.getElem?_eq_getElem (by omega), Option.getD_some]

namespace Content

variable {src : Source}

def empty (src : Source) : Content src := ⟨[], [], rfl⟩

def append (c d : Content src) : Content src :=
  ⟨c.bytes ++ d.bytes, c.places ++ d.places, by rw [List.map_append, ← c.located, ← d.located]⟩

def take (c : Content src) (n : ℕ) : Content src :=
  ⟨c.bytes.take n, c.places.take n, by rw [List.map_take, ← c.located]⟩

def length (c : Content src) : ℕ := c.bytes.length

/-- What a read delivers. -/
def read (src : Source) (off len : ℕ) : Exec (Content src) :=
  match h : src.readAt off len with
  | .error e => .error e
  | .ok bytes => .ok ⟨bytes, List.range' off bytes.length, by
      rw [Source.readAt_ok h]
      exact window_eq_map _ _ _⟩

theorem length_places (c : Content src) : c.places.length = c.bytes.length := by
  rw [c.located, List.length_map]

/-- The byte at an index is the one at its place. -/
theorem byteAt_bytes (c : Content src) {i : ℕ} (hi : i < c.bytes.length) :
    byteAt c.bytes i = byteAt src.data (c.places.getD i 0) := by
  have hi' : i < c.places.length := by rwa [c.length_places]
  have hbyte : c.bytes[i]? = some (byteAt src.data c.places[i]) := by
    rw [c.located, List.getElem?_map, List.getElem?_eq_getElem hi', Option.map_some]
  rw [byteAt, List.getD_eq_getElem?_getD, hbyte, Option.getD_some, List.getD_eq_getElem?_getD,
    List.getElem?_eq_getElem hi', Option.getD_some]

end Content

/-- The pieces of `n` bytes; what is left over is no piece. -/
def chunksExact (n : ℕ) (bytes : List UInt8) : List (List UInt8) :=
  (List.range (bytes.length / n)).map fun i => window bytes (n * i) n

theorem chunksExact_get {n j : ℕ} {bytes chunk : List UInt8} (hn : 0 < n)
    (h : (chunksExact n bytes)[j]? = some chunk) :
    n * j + n ≤ bytes.length ∧ byteAt chunk 0 = byteAt bytes (n * j) := by
  unfold chunksExact at h
  rw [List.getElem?_map, Option.map_eq_some_iff] at h
  obtain ⟨k, hk, rfl⟩ := h
  obtain ⟨hlt, rfl⟩ := List.getElem?_eq_some_iff.mp hk
  rw [List.length_range] at hlt
  rw [List.getElem_range, byteAt_window, if_pos hn, Nat.add_zero]
  refine ⟨?_, rfl⟩
  have hle := Nat.div_mul_le_self bytes.length n
  have hstep := Nat.mul_le_mul_left n (show j + 1 ≤ bytes.length / n by omega)
  rw [Nat.mul_add, Nat.mul_one] at hstep
  rw [Nat.mul_comm] at hle
  omega

end Unearth
