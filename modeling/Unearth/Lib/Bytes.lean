import Mathlib

/-!
# Byte strings as file contents

A file is the list of its bytes. A position past its end reads as zero, which is
also what a hole of a sparse file reads as, so `byteAt` is the view under which
writes, truncations and holes are compared.
-/

namespace Unearth.Bytes

def byteAt (f : List UInt8) (i : ℕ) : UInt8 := f.getD i 0

/-- The bytes a read of `len` bytes at `off` delivers: fewer at the end of the file. -/
def window (f : List UInt8) (off len : ℕ) : List UInt8 := (f.drop off).take len

/-- A positioned write; the gap before a write past the end is filled with zeros. -/
def writeAt (f : List UInt8) (off : ℕ) (d : List UInt8) : List UInt8 :=
  if d = [] then f
  else f.take off ++ List.replicate (off - f.length) 0 ++ d ++ f.drop (off + d.length)

def setLen (f : List UInt8) (n : ℕ) : List UInt8 :=
  f.take n ++ List.replicate (n - f.length) 0

/-- The pieces of `n` bytes that a list is cut into; the last one may be shorter. -/
def chunks (n : ℕ) (l : List UInt8) : List (List UInt8) := go l.length l
where
  go : ℕ → List UInt8 → List (List UInt8)
    | 0, _ => []
    | _ + 1, [] => []
    | fuel + 1, l => l.take n :: go fuel (l.drop n)

example : setLen (writeAt (window [1, 2, 3] 1 5) 3 [4]) 5 = [2, 3, 0, 4, 0] := by
  simp only [setLen, writeAt, window]
  decide

theorem byteAt_append (f g : List UInt8) (i : ℕ) :
    byteAt (f ++ g) i = if i < f.length then byteAt f i else byteAt g (i - f.length) := by
  simp only [byteAt, List.getD_eq_getElem?_getD, List.getElem?_append]
  split <;> rfl

theorem byteAt_take (f : List UInt8) (n i : ℕ) :
    byteAt (f.take n) i = if i < n then byteAt f i else 0 := by
  simp only [byteAt, List.getD_eq_getElem?_getD, List.getElem?_take]
  split <;> rfl

theorem byteAt_drop (f : List UInt8) (n i : ℕ) : byteAt (f.drop n) i = byteAt f (n + i) := by
  simp only [byteAt, List.getD_eq_getElem?_getD, List.getElem?_drop]

@[simp]
theorem byteAt_replicate_zero (n i : ℕ) : byteAt (List.replicate n 0) i = 0 := by
  simp only [byteAt, List.getD_eq_getElem?_getD, List.getElem?_replicate]
  split <;> rfl

theorem byteAt_of_length_le {f : List UInt8} {i : ℕ} (h : f.length ≤ i) : byteAt f i = 0 := by
  simp [byteAt, List.getD_eq_getElem?_getD, List.getElem?_eq_none h]

@[simp]
theorem byteAt_nil (i : ℕ) : byteAt [] i = 0 := rfl

@[simp]
theorem length_window (f : List UInt8) (off len : ℕ) :
    (window f off len).length = min len (f.length - off) := by
  simp [window]

theorem byteAt_window (f : List UInt8) (off len i : ℕ) :
    byteAt (window f off len) i = if i < len then byteAt f (off + i) else 0 := by
  rw [window, byteAt_take, byteAt_drop]

theorem window_append (a b c : List UInt8) : window (a ++ b ++ c) a.length b.length = b := by
  rw [window, List.append_assoc, List.drop_left, List.take_left]

section Parts

variable {a : List UInt8} {n off len : ℕ}

/-- What is behind a part of a row of bytes is read behind it. -/
theorem window_behind (ha : a.length = n) (h : n ≤ off) (b : List UInt8) :
    window (a ++ b) off len = window b (off - n) len := by
  rw [window, List.drop_append, List.drop_eq_nil_of_le (ha.trans_le h), List.nil_append, ha, window]

theorem window_within (ha : a.length = n) (h : off + len ≤ n) (b : List UInt8) :
    window (a ++ b) off len = window a off len := by
  have hlen : len ≤ (a.drop off).length := by
    rw [List.length_drop]
    omega
  rw [window, List.drop_append_of_le_length (by omega), List.take_append_of_le_length hlen, window]

theorem window_whole (ha : a.length = n) (b : List UInt8) : window (a ++ b) 0 n = a := by
  rw [window_within ha (by omega), window, List.drop_zero, ← ha, List.take_length]

theorem window_zeros (h : off + len ≤ n) (b : List UInt8) :
    window (List.replicate n 0 ++ b) off len = List.replicate len 0 := by
  rw [window_within List.length_replicate h, window, List.drop_replicate, List.take_replicate, min_eq_left (by omega)]

/-- A block of a row of blocks of one length. -/
theorem window_flatten {blocks : List (List UInt8)} (h : ∀ b ∈ blocks, b.length = n) (k : ℕ) :
    window blocks.flatten (n * k) n = blocks.getD k [] := by
  induction blocks generalizing k with
  | nil => simp [window]
  | cons b rest ih =>
    have hb := h b List.mem_cons_self
    rw [List.flatten_cons]
    cases k with
    | zero => rw [Nat.mul_zero, window_whole hb, List.getD_cons_zero]
    | succ k =>
      have hsub : n * (k + 1) - n = n * k := by rw [Nat.mul_succ, Nat.add_sub_cancel]
      rw [window_behind hb (Nat.le_mul_of_pos_right n k.succ_pos), hsub,
        ih (fun c hc => h c (List.mem_cons_of_mem _ hc)), List.getD_cons_succ]

end Parts

theorem window_append_window (f : List UInt8) (off m n : ℕ) :
    window f off m ++ window f (off + m) n = window f off (m + n) := by
  simp only [window, ← List.drop_drop, List.take_add]

@[simp]
theorem writeAt_nil (f : List UInt8) (off : ℕ) : writeAt f off [] = f := by
  simp [writeAt]

theorem byteAt_writeAt (f : List UInt8) (off : ℕ) (d : List UInt8) (i : ℕ) :
    byteAt (writeAt f off d) i =
      if off ≤ i ∧ i < off + d.length then byteAt d (i - off) else byteAt f i := by
  unfold writeAt
  split_ifs with hd hi hi
  · have hlen : d.length = 0 := by simp [hd]
    omega
  · rfl
  · have hpre : (f.take off ++ List.replicate (off - f.length) (0 : UInt8)).length = off := by
      simp only [List.length_append, List.length_take, List.length_replicate]
      omega
    rw [byteAt_append, if_pos (by rw [List.length_append, hpre]; exact hi.2), byteAt_append, hpre,
      if_neg (by omega)]
  · have hpre : (f.take off ++ List.replicate (off - f.length) (0 : UInt8)).length = off := by
      simp only [List.length_append, List.length_take, List.length_replicate]
      omega
    rw [byteAt_append, List.length_append, hpre]
    by_cases hlt : i < off
    · rw [if_pos (by omega), byteAt_append, hpre, if_pos hlt, byteAt_append]
      split_ifs with hf
      · rw [byteAt_take, if_pos hlt]
      · rw [byteAt_replicate_zero, byteAt_of_length_le]
        simp only [List.length_take] at hf
        omega
    · rw [if_neg (by omega), byteAt_drop]
      congr 1
      omega

theorem length_writeAt {f : List UInt8} {off : ℕ} {d : List UInt8} (h : off + d.length ≤ f.length) :
    (writeAt f off d).length = f.length := by
  unfold writeAt
  split_ifs
  · rfl
  · simp only [List.length_append, List.length_take, List.length_replicate, List.length_drop]
    omega

/-- Fields that are inside a row of bytes leave its length. -/
theorem length_foldl_writeAt {fields : List (ℕ × List UInt8)} {f : List UInt8}
    (h : ∀ e ∈ fields, e.1 + e.2.length ≤ f.length) :
    (fields.foldl (fun f e => writeAt f e.1 e.2) f).length = f.length := by
  induction fields generalizing f with
  | nil => rfl
  | cons e fields ih =>
    obtain ⟨he, hrest⟩ := List.forall_mem_cons.mp h
    have hlen := length_writeAt he
    rw [List.foldl_cons, ih (by rwa [hlen]), hlen]

@[simp]
theorem length_setLen (f : List UInt8) (n : ℕ) : (setLen f n).length = n := by
  simp only [setLen, List.length_append, List.length_take, List.length_replicate]
  omega

theorem setLen_of_length {f : List UInt8} {n : ℕ} (h : f.length = n) : setLen f n = f := by
  simp [setLen, ← h]

theorem byteAt_setLen_nil (n i : ℕ) : byteAt (setLen [] n) i = 0 := by
  simp [setLen]

end Unearth.Bytes
