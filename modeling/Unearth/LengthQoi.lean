import Unearth.Stored

/-!
# QOI images

The first byte of a chunk gives its length and the pixels that it covers. The chunks are decoded
through a window that is read again where a whole chunk might not be in it, until they cover the
image; behind them is the end marker.
-/

namespace Unearth.Qoi
open Bytes Word Loop Post

def WINDOW : ℕ := 64 * 1024

def MAGIC : List UInt8 := [0x71, 0x6F, 0x69, 0x66]

def END_MARKER : List UInt8 := [0, 0, 0, 0, 0, 0, 0, 1]

section Walk

/-- The length of a chunk, and the pixels that it covers. -/
def chunkOf (tag : UInt8) : ℕ × ℕ :=
  if tag = 0xFE then (4, 1)
  else if tag = 0xFF then (5, 1)
  else if tag &&& 0xC0 = 0x00 then (1, 1)
  else if tag &&& 0xC0 = 0x40 then (1, 1)
  else if tag &&& 0xC0 = 0x80 then (2, 1)
  else (1, (tag &&& 0x3F).toNat + 1)

theorem chunkOf_pos (tag : UInt8) : 0 < (chunkOf tag).2 := by
  unfold chunkOf
  split_ifs <;> simp

structure Decoder where
  winStart : ℕ
  window : List UInt8
  parse : ℕ
  pixels : ℕ

variable (b : Build) (src : Source) (r : Room)

/-- Whether less than a whole chunk may be left of the window. -/
def runsOut (s : Decoder) : Exec Bool :=
  if s.parse < s.winStart then return true
  else do
    let ahead ← plus b s.parse 5
    return decide ((← plus b s.winStart s.window.length) < ahead)

def refill (s : Decoder) : Exec Decoder := do
  if ← runsOut b s then
    let window ← src.readAt (← plus b r.start s.parse) WINDOW
    return { s with winStart := s.parse, window }
  else return s

def decode (s : Decoder) : Exec (Decoder ⊕ Option ℕ) := do
  let idx ← minus b s.parse s.winStart
  if s.window.length ≤ idx then return .inr none
  else
    let (chunkLen, npix) := chunkOf (byteAt s.window idx)
    if s.window.length < idx + chunkLen then return .inr none
    else
      let parse := satAdd s.parse chunkLen
      if r.limit < satAdd r.start parse then return .inr none
      else return .inl { s with parse, pixels := satAdd s.pixels npix }

def qoiStep (totalPixels : ℕ) (s : Decoder) : Exec (Decoder ⊕ Option ℕ) :=
  if totalPixels ≤ s.pixels then return .inr (some s.parse)
  else do decode b r (← refill b src r s)

variable {b src r}

theorem refill_pixels {s t : Decoder} (h : refill b src r s = .ok t) : t.pixels = s.pixels := by
  unfold refill at h
  obtain ⟨out, -, h⟩ := exec_bind_ok h
  cases out with
  | false =>
    cases h
    rfl
  | true =>
    obtain ⟨off, -, h⟩ := exec_bind_ok h
    obtain ⟨window, -, h⟩ := exec_bind_ok h
    cases h
    rfl

theorem decode_pixels {s t : Decoder} (h : decode b r s = .ok (.inl t)) :
    ∃ n, 0 < n ∧ t.pixels = satAdd s.pixels n := by
  unfold decode at h
  obtain ⟨idx, -, h⟩ := exec_bind_ok h
  dsimp only at h
  split_ifs at h
  · cases h
  · cases h
  · cases h
  · cases h
    exact ⟨_, chunkOf_pos _, rfl⟩

variable (b src r)

/-- Every chunk covers a pixel more. -/
def qoiChunks (totalPixels : ℕ) (htotal : totalPixels < 2 ^ 64) : Until Fault Decoder (Option ℕ) where
  step := qoiStep b src r totalPixels
  measure s := totalPixels - s.pixels
  decreases s t h := by
    unfold qoiStep at h
    split_ifs at h with hcover
    · cases h
    · obtain ⟨u, hu, h⟩ := exec_bind_ok h
      obtain ⟨n, hn, ht⟩ := decode_pixels h
      rw [ht, refill_pixels hu]
      unfold satAdd
      omega

theorem satMul_lt (x y : ℕ) : satMul x y < 2 ^ 64 := by
  unfold satMul
  omega

def qoiLength : Exec (Option ℕ) := do
  let hdr ← src.readAt r.start 14
  if hdr.length < 14 ∨ window hdr 0 4 ≠ MAGIC then return none
  else
    let width := be (window hdr 4 4)
    let height := be (window hdr 8 4)
    let channels := byteAt hdr 12
    let colorspace := byteAt hdr 13
    if width = 0 ∨ height = 0 ∨ ¬ (3 ≤ channels ∧ channels ≤ 4) ∨ 1 < colorspace then return none
    else
      match ← (qoiChunks b src r (satMul width height) (satMul_lt width height)).eval ⟨14, [], 14, 0⟩ with
      | none => return none
      | some parse =>
        let marker ← src.readAt (← plus b r.start parse) 8
        if marker.length < 8 ∨ marker ≠ END_MARKER then return none
        else
          let stop := satAdd parse 8
          return if r.limit < satAdd r.start stop then none else some stop

end Walk

section Files

inductive Chunk
  | rgb (color : List UInt8) (length_eq : color.length = 3)
  | rgba (color : List UInt8) (length_eq : color.length = 4)
  | index (i : Fin 64)
  | diff (d : Fin 64)
  | luma (green : Fin 64) (d : UInt8)
  | run (n : Fin 62)

namespace Chunk

def bytes : Chunk → List UInt8
  | rgb color _ => 0xFE :: color
  | rgba color _ => 0xFF :: color
  | index i => [UInt8.ofNat i]
  | diff d => [UInt8.ofNat (0x40 + d)]
  | luma green d => [UInt8.ofNat (0x80 + green), d]
  | run n => [UInt8.ofNat (0xC0 + n)]

/-- A run is of 1 to 62 pixels. -/
def pixels : Chunk → ℕ
  | run n => n + 1
  | _ => 1

theorem chunkOf_index : ∀ i : Fin 64, chunkOf (UInt8.ofNat i) = (1, 1) := by decide

theorem chunkOf_diff : ∀ d : Fin 64, chunkOf (UInt8.ofNat (0x40 + d)) = (1, 1) := by decide

theorem chunkOf_luma : ∀ green : Fin 64, chunkOf (UInt8.ofNat (0x80 + green)) = (2, 1) := by decide

theorem chunkOf_run : ∀ n : Fin 62, chunkOf (UInt8.ofNat (0xC0 + n)) = (1, n.val + 1) := by decide

/-- The first byte of a chunk gives away its length and its pixels. -/
theorem chunkOf_bytes (c : Chunk) : ∃ tag rest, c.bytes = tag :: rest ∧ chunkOf tag = (c.bytes.length, c.pixels) := by
  cases c with
  | rgb color h => exact ⟨_, _, rfl, by simp [bytes, pixels, h, chunkOf]⟩
  | rgba color h => exact ⟨_, _, rfl, by simp [bytes, pixels, h, chunkOf]⟩
  | index i => exact ⟨_, _, rfl, chunkOf_index i⟩
  | diff d => exact ⟨_, _, rfl, chunkOf_diff d⟩
  | luma green d => exact ⟨_, _, rfl, chunkOf_luma green⟩
  | run n => exact ⟨_, _, rfl, chunkOf_run n⟩

theorem length_bytes_le (c : Chunk) : c.bytes.length ≤ 5 := by
  cases c <;> simp_all [bytes]

theorem pixels_pos (c : Chunk) : 0 < c.pixels := by
  cases c <;> simp [pixels]

end Chunk

def covered (l : List Chunk) : ℕ := (l.map Chunk.pixels).sum

structure Picture where
  width : ℕ
  height : ℕ
  channels : UInt8
  colorspace : UInt8
  chunks : List Chunk
  width_range : 0 < width ∧ width < 2 ^ 32
  height_range : 0 < height ∧ height < 2 ^ 32
  channels_range : 3 ≤ channels ∧ channels ≤ 4
  colorspace_le : colorspace ≤ 1
  covered_eq : covered chunks = width * height

def Picture.header (p : Picture) : List UInt8 :=
  MAGIC ++ toBe 4 p.width ++ toBe 4 p.height ++ [p.channels, p.colorspace]

def Picture.bytes (p : Picture) : List UInt8 := p.header ++ (p.chunks.flatMap Chunk.bytes ++ END_MARKER)

variable {b : Build} {src : Source} {r : Room}

/-- The window holds what the source holds where the window begins. -/
structure Decoder.Buffered (src : Source) (r : Room) (s : Decoder) : Prop where
  start_le : s.winStart ≤ s.parse
  stored : Stored src (r.start + s.winStart) s.window

theorem runsOut_eq {s : Decoder} (h : s.Buffered src r) (hparse : r.start + s.parse < 2 ^ 63) :
    runsOut b s = .ok (decide (s.winStart + s.window.length < s.parse + 5)) := by
  have hstart := h.start_le
  have hstop : s.winStart + s.window.length < 2 ^ 64 := by
    by_cases hnil : s.window = []
    · rw [hnil, List.length_nil]
      omega
    · have hlt := h.stored.end_lt hnil
      omega
  unfold runsOut
  rw [if_neg (by omega), plus_eq (by omega), exec_ok_bind, plus_eq hstop]
  rfl

/-- Wherever the window ends, a chunk is in it whole when it is decoded. -/
theorem refill_buffered {s : Decoder} {bytes : List UInt8} (hrel : src.Reliable) (hs : s.Buffered src r)
    (h : Stored src (r.start + s.parse) bytes) (hne : bytes ≠ []) (hlen : bytes.length ≤ 5) :
    ∃ t, refill b src r s = .ok t ∧ t.parse = s.parse ∧ t.pixels = s.pixels ∧ t.Buffered src r ∧
      bytes <+: t.window.drop (t.parse - t.winStart) := by
  have hlt := h.end_lt hne
  have hstart := hs.start_le
  unfold refill
  rw [runsOut_eq hs (by omega), exec_ok_bind]
  by_cases hout : s.winStart + s.window.length < s.parse + 5
  · obtain ⟨more, hread, -⟩ := h.readAt_prefix hrel hne (n := WINDOW) (hlen.trans (by decide))
    have hwindow := hrel.readAt (show r.start + s.parse < 2 ^ 63 by omega) WINDOW
    rw [hread, Except.ok.injEq] at hwindow
    rw [decide_eq_true hout, if_pos rfl, plus_eq (by omega), exec_ok_bind, hread, exec_ok_bind]
    refine ⟨_, rfl, rfl, rfl, ⟨le_rfl, ?_⟩, ?_⟩
    · rw [hwindow]
      exact List.take_prefix _ _
    · rw [Nat.sub_self, List.drop_zero]
      exact List.prefix_append _ _
  · rw [decide_eq_false hout, if_neg Bool.false_ne_true]
    refine ⟨s, rfl, rfl, rfl, hs, ?_⟩
    have hrest : s.window.drop (s.parse - s.winStart) <+: src.data.drop (r.start + s.parse) := by
      have hdrop := hs.stored.drop (s.parse - s.winStart)
      rwa [List.drop_drop, show r.start + s.winStart + (s.parse - s.winStart) = r.start + s.parse by omega] at hdrop
    apply List.prefix_of_prefix_length_le h hrest
    rw [List.length_drop]
    omega

/-- A chunk is decoded: its length is passed, and its pixels are covered. -/
theorem decode_chunk {s : Decoder} (c : Chunk) (hs : s.Buffered src r)
    (h : c.bytes <+: s.window.drop (s.parse - s.winStart)) (hfit : r.start + s.parse + c.bytes.length ≤ r.limit)
    (hpixels : s.pixels + c.pixels < 2 ^ 64) :
    decode b r s = .ok (.inl { s with parse := s.parse + c.bytes.length, pixels := s.pixels + c.pixels }) := by
  have hlimit := r.limit_lt
  obtain ⟨tag, rest, hbytes, htag⟩ := c.chunkOf_bytes
  have hpos : 0 < c.bytes.length := by
    rw [hbytes]
    exact Nat.succ_pos _
  have hlen := h.length_le
  rw [List.length_drop] at hlen
  have hbyte : byteAt s.window (s.parse - s.winStart) = tag := by
    obtain ⟨more, hmore⟩ := h
    have hdrop := byteAt_drop s.window (s.parse - s.winStart) 0
    rw [← hmore, hbytes] at hdrop
    exact hdrop.symm
  unfold decode
  rw [minus_eq hs.start_le, exec_ok_bind, if_neg (by omega), hbyte, htag]
  dsimp only
  rw [if_neg (by omega), satAdd_eq (x := s.parse) (by omega), satAdd_eq (x := r.start) (by omega), if_neg (by omega),
    satAdd_eq hpixels]
  rfl

theorem eval_chunks {l : List Chunk} {total : ℕ} (htotal : total < 2 ^ 64) {s : Decoder} (hrel : src.Reliable)
    (hs : s.Buffered src r) (h : Stored src (r.start + s.parse) (l.flatMap Chunk.bytes))
    (hfit : r.start + s.parse + (l.flatMap Chunk.bytes).length ≤ r.limit) (hpixels : s.pixels + covered l = total) :
    (qoiChunks b src r total htotal).eval s = .ok (some (s.parse + (l.flatMap Chunk.bytes).length)) := by
  induction l generalizing s with
  | nil => exact Until.eval_done (if_pos hpixels.ge)
  | cons c l ih =>
    have hcovered : covered (c :: l) = c.pixels + covered l := by
      simp [covered]
    have hpos := c.pixels_pos
    obtain ⟨tag, rest, hbytes, -⟩ := c.chunkOf_bytes
    rw [List.flatMap_cons] at h hfit ⊢
    rw [List.length_append] at hfit ⊢
    obtain ⟨t, hrefill, hparse, hcount, ht, hchunk⟩ := refill_buffered (b := b) hrel hs h.left
      (hbytes ▸ List.cons_ne_nil _ _) c.length_bytes_le
    have hstep : (qoiChunks b src r total htotal).step s =
        .ok (.inl { t with parse := t.parse + c.bytes.length, pixels := t.pixels + c.pixels }) := by
      change qoiStep b src r total s = _
      unfold qoiStep
      rw [if_neg (by omega), hrefill, exec_ok_bind]
      exact decode_chunk c ht hchunk (by omega) (by omega)
    have hright := h.right
    rw [Nat.add_assoc] at hright
    have hstart := ht.start_le
    have hnext := ih (s := { t with parse := t.parse + c.bytes.length, pixels := t.pixels + c.pixels })
      ⟨by dsimp only; omega, ht.stored⟩ (by rwa [hparse]) (by dsimp only; omega) (by dsimp only; omega)
    rw [Until.eval_next hstep, hnext]
    exact congrArg (fun n => Except.ok (some n)) (by dsimp only; omega)

end Files

/-- The length of an image is found by its chunks alone: the borders of the window and end markers
in the pixel data make no difference. -/
theorem qoi_length_exact (b : Build) (src : Source) (r : Room) (p : Picture) (hrel : src.Reliable)
    (h : Stored src r.start p.bytes) (hfit : r.start + p.bytes.length ≤ r.limit) :
    qoiLength b src r = .ok (some p.bytes.length) := by
  have hlimit := r.limit_lt
  have hheader : p.header.length = 14 := by simp [Picture.header, MAGIC]
  have hmagic : window p.header 0 4 = MAGIC := rfl
  have hwidth : be (window p.header 4 4) = p.width := by
    rw [show window p.header 4 4 = toBe 4 p.width from rfl, be_toBe p.width_range.2]
  have hheight : be (window p.header 8 4) = p.height := by
    rw [show window p.header 8 4 = toBe 4 p.height from rfl, be_toBe p.height_range.2]
  have hcolors : byteAt p.header 12 = p.channels ∧ byteAt p.header 13 = p.colorspace := ⟨rfl, rfl⟩
  have htotal : satMul p.width p.height = p.width * p.height := by
    apply satMul_eq
    calc p.width * p.height < 2 ^ 32 * 2 ^ 32 := Nat.mul_lt_mul'' p.width_range.2 p.height_range.2
      _ = 2 ^ 64 := by norm_num
  have hlength : p.bytes.length = 14 + (p.chunks.flatMap Chunk.bytes).length + 8 := by
    rw [Picture.bytes, List.length_append, List.length_append, hheader]
    rfl
  rw [hlength] at hfit ⊢
  have hrest := h.right
  rw [hheader] at hrest
  have hmarker := hrest.right
  have hend := hmarker.end_lt (List.cons_ne_nil _ _)
  have hcolor : ¬ (p.width = 0 ∨ p.height = 0 ∨ ¬ (3 ≤ p.channels ∧ p.channels ≤ 4) ∨ 1 < p.colorspace) := by
    have hspace := UInt8.not_lt.mpr p.colorspace_le
    have hwide := p.width_range.1.ne'
    have hhigh := p.height_range.1.ne'
    simp [hwide, hhigh, p.channels_range.1, p.channels_range.2, hspace]
  unfold qoiLength
  rw [h.left.readAt hrel hheader, exec_ok_bind, if_neg (by rw [hheader, hmagic]; simp), hwidth, hheight, hcolors.1,
    hcolors.2, if_neg hcolor,
    eval_chunks (l := p.chunks) (satMul_lt _ _) hrel ⟨le_rfl, stored_nil ..⟩ hrest.left (by dsimp only; omega)
      (by rw [htotal, p.covered_eq, Nat.zero_add]), exec_ok_bind]
  dsimp only
  rw [plus_eq (by omega), exec_ok_bind]
  rw [Nat.add_assoc] at hmarker
  rw [hmarker.readAt hrel (n := 8) rfl, exec_ok_bind, if_neg (by simp [END_MARKER]), satAdd_eq (y := 8) (by omega),
    satAdd_eq (by omega), if_neg (by omega)]
  rfl

section Sample

/-- An image with an end marker in its pixel data. -/
def samplePicture : Picture where
  width := 12
  height := 6
  channels := 3
  colorspace := 0
  chunks := List.replicate 7 (.index 0) ++ [.index 1, .rgba [0, 0, 0, 1] rfl, .luma 5 9, .run 61]
  width_range := by decide
  height_range := by decide
  channels_range := by decide
  colorspace_le := by decide
  covered_eq := rfl

def pictureSource : Source where
  data := [9] ++ samplePicture.bytes ++ [0, 0, 1]
  size_lt := by decide

def pictureRoom : Room := ⟨1, 41, by decide, by decide⟩

theorem sample_qoi_length : qoiLength .release pictureSource pictureRoom = .ok (some 38) := by
  have hrel : pictureSource.Reliable := fun _ _ => rfl
  have hstored : Stored pictureSource 1 samplePicture.bytes := (stored_of_data [9] rfl).left
  exact qoi_length_exact .release pictureSource pictureRoom samplePicture hrel hstored (by decide)

end Sample

end Unearth.Qoi
