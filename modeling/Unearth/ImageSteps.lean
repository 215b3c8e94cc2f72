import Unearth.ImageCopy

/-!
# What an imaging run does, step by step

`Picture` is what matters of a run: the image, the unreadable regions, the position
below which everything was tried, and the counts. A run is a sequence of four kinds
of step: bytes are copied at the frontier, bytes are given up there, bytes of a
recorded region are salvaged, and the list of regions is written down differently.
The loops of `image` refine this, so that a property of the result is a property
that the four steps preserve.
-/

namespace Unearth.Image
open Spans Bytes Loop Relation

structure Picture where
  out : List UInt8
  bad : List Span
  frontier : ℕ
  moved : ℕ
  zeroed : ℕ
  wanted : ℕ

/-- `out'` is `out` with `bytes` put at `off`, where zeros may have been left out. -/
structure Pasted (off : ℕ) (bytes out out' : List UInt8) : Prop where
  length : out'.length = out.length
  outside : ∀ i, ¬ (off ≤ i ∧ i < off + bytes.length) → byteAt out' i = byteAt out i
  inside : ∀ i, off ≤ i → i < off + bytes.length →
    byteAt out' i = byteAt bytes (i - off) ∨
      byteAt bytes (i - off) = 0 ∧ byteAt out' i = byteAt out i

theorem Pasted.refl_of_zero {off : ℕ} {bytes out : List UInt8}
    (h : ∀ i, byteAt bytes i = 0) : Pasted off bytes out out where
  length := rfl
  outside _ _ := rfl
  inside _ _ _ := Or.inr ⟨h _, rfl⟩

theorem pasted_writeAt {off : ℕ} {bytes out : List UInt8} (h : off + bytes.length ≤ out.length) :
    Pasted off bytes out (writeAt out off bytes) where
  length := length_writeAt h
  outside i hi := by rw [byteAt_writeAt, if_neg hi]
  inside i h₁ h₂ := by rw [byteAt_writeAt, if_pos ⟨h₁, h₂⟩]; exact Or.inl rfl

theorem Pasted.append {off : ℕ} {b₁ b₂ out out₁ out₂ : List UInt8}
    (h₁ : Pasted off b₁ out out₁) (h₂ : Pasted (off + b₁.length) b₂ out₁ out₂) :
    Pasted off (b₁ ++ b₂) out out₂ where
  length := h₂.length.trans h₁.length
  outside i hi := by
    rw [List.length_append] at hi
    rw [h₂.outside i (by omega), h₁.outside i (by omega)]
  inside i hlo hhi := by
    rw [List.length_append] at hhi
    rw [byteAt_append]
    by_cases hi : i < off + b₁.length
    · rw [if_pos (by omega), h₂.outside i (by omega)]
      exact h₁.inside i hlo hi
    · rw [if_neg (by omega), ← h₁.outside i (by omega),
        show i - off - b₁.length = i - (off + b₁.length) by omega]
      exact h₂.inside i (by omega) (by omega)

section Steps

variable {start stop : ℕ} {Read : ℕ → List UInt8 → Prop}

/-- One step of a run over `[start, stop)`; `Read off bytes` says that the source
delivers `bytes` at `off`. -/
inductive Step (start stop : ℕ) (Read : ℕ → List UInt8 → Prop) : Picture → Picture → Prop
  | copy {p : Picture} {bytes out' : List UInt8} (read : Read p.frontier bytes)
      (fits : p.frontier + bytes.length ≤ stop)
      (pasted : Pasted (p.frontier - start) bytes p.out out') :
      Step start stop Read p
        { p with
          out := out'
          frontier := p.frontier + bytes.length
          moved := p.moved + bytes.length }
  | lose {p : Picture} {n : ℕ} (fits : p.frontier + n ≤ stop) :
      Step start stop Read p
        { p with
          bad := p.bad ++ [⟨p.frontier, n⟩]
          frontier := p.frontier + n
          zeroed := p.zeroed + n }
  | salvage {p : Picture} {a b : List Span} {pos len : ℕ} {bytes out' : List UInt8}
      (bad : p.bad = a ++ ⟨pos, len⟩ :: b) (read : Read pos bytes) (fits : bytes.length ≤ len)
      (pasted : Pasted (pos - start) bytes p.out out') :
      Step start stop Read p
        { p with
          out := out'
          bad := a ++ ⟨pos + bytes.length, len - bytes.length⟩ :: b
          moved := p.moved + bytes.length
          zeroed := p.zeroed - bytes.length }
  | regroup {p : Picture} {bad' : List Span} (covers : ∀ x, Covers bad' x ↔ Covers p.bad x)
      (total_eq : total bad' = total p.bad) (within : Within start p.frontier bad') :
      Step start stop Read p { p with bad := bad' }

/-- What every picture of a run has: an image of the right size and regions in order. -/
structure Shape (start stop : ℕ) (p : Picture) : Prop where
  length : p.out.length = stop - start
  fits : p.frontier ≤ stop
  within : Within start p.frontier p.bad

theorem Step.shape {p p' : Picture} (h : Step start stop Read p p') (hp : Shape start stop p) :
    Shape start stop p' := by
  cases h with
  | copy read fits pasted =>
    exact ⟨pasted.length.trans hp.length, fits, hp.within.mono le_rfl (Nat.le_add_right _ _)⟩
  | lose fits => exact ⟨hp.length, fits, hp.within.snoc le_rfl le_rfl⟩
  | @salvage a b pos len bytes _ bad _ fits pasted =>
    refine ⟨pasted.length.trans hp.length, hp.fits, ?_⟩
    have hw := hp.within
    rw [bad, within_append] at hw
    obtain ⟨mid, ha, hlo, hb⟩ := hw
    refine within_append.mpr ⟨mid, ha, ?_, ?_⟩
    · exact hlo.trans (Nat.le_add_right _ _)
    · have hstop : Span.stop ⟨pos + bytes.length, len - bytes.length⟩ = Span.stop ⟨pos, len⟩ := by
        simp only [Span.stop]
        omega
      rwa [hstop]
  | regroup _ _ within => exact ⟨hp.length, hp.fits, within⟩

/-- `p` is reached by steps from `p₀`. -/
structure Sound (start stop : ℕ) (Read : ℕ → List UInt8 → Prop) (p₀ p : Picture) : Prop where
  steps : ReflTransGen (Step start stop Read) p₀ p
  shape : Shape start stop p

theorem Sound.step {p₀ p p' : Picture} (h : Sound start stop Read p₀ p)
    (hs : Step start stop Read p p') : Sound start stop Read p₀ p' :=
  ⟨h.steps.tail hs, hs.shape h.shape⟩

/-- What the four steps preserve holds of every picture of a run. -/
theorem Sound.inv {I : Picture → Prop} {p₀ p : Picture} (h : Sound start stop Read p₀ p)
    (h₀ : Shape start stop p₀) (hi : I p₀)
    (hstep : ∀ p p', Shape start stop p → I p → Step start stop Read p p' → I p') : I p := by
  obtain ⟨steps, -⟩ := h
  have hboth : Shape start stop p ∧ I p := by
    induction steps with
    | refl => exact ⟨h₀, hi⟩
    | tail _ hs ih => exact ⟨hs.shape ih.1, hstep _ _ ih.1 ih.2 hs⟩
  exact hboth.2

end Steps

/-- The picture of a run whose frontier is `pos`, when `rest` is still to be retried. -/
def State.picture (s : State) (pos : ℕ) (rest : List Span) : Picture where
  out := s.out
  bad := s.bad ++ rest
  frontier := pos
  moved := s.stats.bytesCopied + s.stats.bytesSparse
  zeroed := s.stats.bytesZeroed
  wanted := s.stats.bytesTotal

/-- What `writeRegion` does: the image and the two counters change, nothing else. -/
structure Written (off : ℕ) (data : List UInt8) (s s' : State) : Prop where
  frame : s' = { s with
    out := s'.out
    stats := { s.stats with
      bytesCopied := s'.stats.bytesCopied, bytesSparse := s'.stats.bytesSparse } }
  count : s'.stats.bytesCopied + s'.stats.bytesSparse =
    s.stats.bytesCopied + s.stats.bytesSparse + data.length
  pasted : Pasted off data s.out s'.out

theorem Written.append {off : ℕ} {d₁ d₂ : List UInt8} {s s₁ s₂ : State}
    (h₁ : Written off d₁ s s₁) (h₂ : Written (off + d₁.length) d₂ s₁ s₂) :
    Written off (d₁ ++ d₂) s s₂ where
  frame := by
    rw [h₂.frame, h₁.frame]
  count := by
    rw [h₂.count, h₁.count, List.length_append]
    omega
  pasted := h₁.pasted.append h₂.pasted

theorem copied_written {off : ℕ} {data : List UInt8} {s : State}
    (h : off + data.length ≤ s.out.length) : Written off data s (s.copied off data) where
  frame := rfl
  count := by simp only [State.copied]; omega
  pasted := pasted_writeAt h

theorem byteAt_eq_zero_of_all {block : List UInt8} (h : block.all (· == 0)) (i : ℕ) :
    byteAt block i = 0 := by
  by_cases hi : i < block.length
  · have := List.all_eq_true.mp h _ (List.getElem_mem hi)
    simpa [byteAt, List.getElem?_eq_getElem hi] using this
  · exact byteAt_of_length_le (by omega)

theorem skipped_written {off : ℕ} {data : List UInt8} {s : State} (h : data.all (· == 0)) :
    Written off data s (s.skipped data.length) where
  frame := rfl
  count := by simp only [State.skipped]; omega
  pasted := Pasted.refl_of_zero (byteAt_eq_zero_of_all h)

theorem Written.refl (off : ℕ) (s : State) : Written off [] s s where
  frame := rfl
  count := rfl
  pasted := Pasted.refl_of_zero fun _ => rfl

/-- Block by block: each block is a hole or a write, and the last one may be short. -/
theorem writeBlocks_written {fuel off : ℕ} {data : List UInt8} {s : State}
    (hfuel : data.length ≤ fuel) (h : off + data.length ≤ s.out.length) :
    Written off data s (writeBlocks off (chunks.go sparseBlock fuel data) s) := by
  induction fuel generalizing off data s with
  | zero =>
    rw [List.length_eq_zero_iff.mp (Nat.le_zero.mp hfuel)]
    exact Written.refl off s
  | succ fuel ih =>
    cases data with
    | nil => exact Written.refl off s
    | cons x data =>
      have hpos : 0 < sparseBlock := by decide
      simp only [chunks.go]
      generalize hl : x :: data = l at hfuel h ⊢
      have hne : 0 < l.length := by rw [← hl]; simp
      set block := l.take sparseBlock with hblock
      have hsplit : block ++ l.drop sparseBlock = l := List.take_append_drop _ _
      have hlen : block.length = min sparseBlock l.length := by simp [hblock]
      have hdrop : (l.drop sparseBlock).length = l.length - sparseBlock := List.length_drop
      -- where the block is short nothing is left to write after it
      have hrest (t : State) (ht : t.out.length = s.out.length) :
          Written (off + block.length) (l.drop sparseBlock) t
            (writeBlocks (off + sparseBlock) (chunks.go sparseBlock fuel (l.drop sparseBlock)) t) := by
        by_cases hfull : sparseBlock ≤ l.length
        · rw [show block.length = sparseBlock by omega]
          exact ih (by omega) (by omega)
        · have hnil : l.drop sparseBlock = [] := List.drop_eq_nil_of_le (by omega)
          have hgo : chunks.go sparseBlock fuel [] = [] := by cases fuel <;> rfl
          rw [hnil, hgo]
          exact Written.refl _ t
      simp only [writeBlocks]
      split_ifs with hz
      · have hc : Written off block s (s.skipped block.length) := skipped_written hz
        have hw := hc.append (hrest _ rfl)
        rwa [hsplit] at hw
      · have hc : Written off block s (s.copied off block) := copied_written (by omega)
        have hw := hc.append (hrest _ hc.pasted.length)
        rwa [hsplit] at hw

theorem writeRegion_written {sparse : Bool} {off : ℕ} {data : List UInt8} {s : State}
    (h : off + data.length ≤ s.out.length) : Written off data s (writeRegion sparse off data s) := by
  unfold writeRegion
  split_ifs
  · exact writeBlocks_written le_rfl h
  · exact copied_written h

theorem Written.bad {off : ℕ} {data : List UInt8} {s s' : State} (w : Written off data s s') :
    s'.bad = s.bad := by
  rw [w.frame]

theorem Written.abs {off : ℕ} {data : List UInt8} {s s' : State} (w : Written off data s s') :
    s'.abs = s.abs := by
  rw [w.frame]

theorem Written.zeroed {off : ℕ} {data : List UInt8} {s s' : State} (w : Written off data s s') :
    s'.stats.bytesZeroed = s.stats.bytesZeroed := by
  rw [w.frame]

theorem Written.wanted {off : ℕ} {data : List UInt8} {s s' : State} (w : Written off data s s') :
    s'.stats.bytesTotal = s.stats.bytesTotal := by
  rw [w.frame]

theorem Written.picture {off : ℕ} {data : List UInt8} {s s' : State} (w : Written off data s s')
    (pos : ℕ) (rest : List Span) : s'.picture pos rest = { s.picture pos rest with
      out := s'.out, moved := (s.picture pos rest).moved + data.length } := by
  simp only [State.picture, w.bad, w.zeroed, w.wanted, w.count]

section Refinement

variable {src : BlockSource} (opts : ImageOptions) (cancelled : ℕ → Bool) {start stop : ℕ}
  {p₀ : Picture} {s : State}

/-- The deliveries of a source, whatever the read and whatever the length asked for. -/
def BlockSource.Delivers (src : BlockSource) (off : ℕ) (bytes : List UInt8) : Prop :=
  ∃ k len, src.readAt k off len = .ok bytes

theorem Sound.written {pos : ℕ} {bytes : List UInt8}
    (h : Sound start stop src.Delivers p₀ (s.picture pos [])) (read : src.Delivers pos bytes)
    (fits : pos + bytes.length ≤ stop) (sparse : Bool) :
    Sound start stop src.Delivers p₀
      ((writeRegion sparse (pos - start) bytes s).picture (pos + bytes.length) []) := by
  have hlo : start ≤ pos := h.shape.within.le
  have hlen : s.out.length = stop - start := h.shape.length
  have hw : Written (pos - start) bytes s (writeRegion sparse (pos - start) bytes s) :=
    writeRegion_written (by omega)
  rw [hw.picture]
  exact h.step (.copy read fits hw.pasted)

theorem Sound.lost {pos n : ℕ} (h : Sound start stop src.Delivers p₀ (s.picture pos []))
    (fits : pos + n ≤ stop) :
    Sound start stop src.Delivers p₀ ((s.lost pos n).picture (pos + n) []) := by
  have hstep := h.step (.lose fits)
  simpa only [State.picture, State.lost, List.append_nil] using hstep

theorem sectorLoop_sound {pos blockEnd : ℕ} (hpos : pos ≤ blockEnd) (hend : blockEnd ≤ stop)
    (h : Sound start stop src.Delivers p₀ (s.picture pos [])) :
    Sound start stop src.Delivers p₀
      (((sectorLoop src opts start blockEnd).eval (pos, s)).picture blockEnd []) := by
  refine While.eval_inv _ (I := fun q : ℕ × State => q.1 ≤ blockEnd ∧
    Sound start stop src.Delivers p₀ (q.2.picture q.1 []))
    (Q := fun s' : State => Sound start stop src.Delivers p₀ (s'.picture blockEnd [])) ?_ ⟨hpos, h⟩
  rintro ⟨pos, s⟩ ⟨hpos, h⟩
  have hs := sector_pos opts
  simp only [sectorLoop, sectorBody]
  split_ifs with hlt
  · cases hr : src.readAt s.reads pos (min opts.sector (blockEnd - pos)) with
    | err => exact ⟨by simp only; omega, h.lost (by omega)⟩
    | ok bytes =>
      have hle := src.readAt_le _ _ _ _ hr
      simp only
      split_ifs with hn
      · set s' : State := { s with reads := s.reads + 1 }
        have h' : Sound start stop src.Delivers p₀ (s'.picture pos []) := h
        exact ⟨by simp only; omega, h'.written ⟨_, _, hr⟩ (by omega) _⟩
      · exact ⟨by simp only; omega, h.lost (by omega)⟩
  · rw [show blockEnd = pos by omega]
    exact h

theorem flushMap_picture (s : State) (pos : ℕ) (rest : List Span) :
    (flushMap opts stop s).picture pos rest = s.picture pos rest := by
  unfold flushMap
  split_ifs <;> rfl

/-- The copy loop is a sequence of steps; its position is the frontier. -/
theorem copyLoop_sound (h : Sound start stop src.Delivers p₀ (s.picture s.abs [])) :
    let s' := (copyLoop src opts cancelled start stop).eval s
    Sound start stop src.Delivers p₀ (s'.picture s'.abs []) := by
  refine While.eval_inv _ (I := fun s : State => Sound start stop src.Delivers p₀ (s.picture s.abs []))
    (Q := fun s' : State => Sound start stop src.Delivers p₀ (s'.picture s'.abs [])) ?_ h
  intro s h
  simp only [copyLoop, copyBody]
  split_ifs with hlt hc
  · exact h
  · cases hr : src.readAt s.reads s.abs (min (stop - s.abs) imageChunk) with
    | err =>
      simp only [Ctl.Sat, flushMap_abs, flushMap_picture]
      exact sectorLoop_sound opts (Nat.le_add_right _ _) (by omega) h
    | ok bytes =>
      have hle := src.readAt_le _ _ _ _ hr
      cases bytes with
      | nil => exact h
      | cons b bytes =>
        simp only [Ctl.Sat, flushMap_abs, flushMap_picture]
        set s' : State := { s with polls := s.polls + 1, reads := s.reads + 1 }
        have h' : Sound start stop src.Delivers p₀ (s'.picture s.abs []) := h
        exact h'.written ⟨_, _, hr⟩ (by omega) _
  · exact h

theorem Sound.salvaged {pos len frontier : ℕ} {bytes : List UInt8} {later : List Span}
    (h : Sound start stop src.Delivers p₀ (s.picture frontier (⟨pos, len⟩ :: later)))
    (read : src.Delivers pos bytes) (fits : bytes.length ≤ len) (sparse : Bool) :
    Sound start stop src.Delivers p₀
      (((writeRegion sparse (pos - start) bytes s).salvaged bytes.length).picture frontier
        (⟨pos + bytes.length, len - bytes.length⟩ :: later)) := by
  have hmem := h.shape.within.mem (s := ⟨pos, len⟩) (by simp [State.picture])
  have hfit : frontier ≤ stop := h.shape.fits
  have hlen : s.out.length = stop - start := h.shape.length
  simp only [Span.stop, State.picture] at hmem
  have hw : Written (pos - start) bytes s (writeRegion sparse (pos - start) bytes s) :=
    writeRegion_written (by omega)
  have hp := hw.picture frontier (⟨pos + bytes.length, len - bytes.length⟩ :: later)
  have hstep := h.step (.salvage rfl read fits hw.pasted)
  simp only [State.picture, Picture.mk.injEq] at hp
  simpa only [State.picture, State.salvaged, hp] using hstep

theorem Sound.stillBad {pos len n frontier : ℕ} {later : List Span} (hn : n ≤ len)
    (h : Sound start stop src.Delivers p₀ (s.picture frontier (⟨pos, len⟩ :: later))) :
    Sound start stop src.Delivers p₀
      ((s.stillBad pos n).picture frontier (⟨pos + n, len - n⟩ :: later)) := by
  have hw := h.shape.within
  have happend : (s.stillBad pos n).picture frontier (⟨pos + n, len - n⟩ :: later) =
      { s.picture frontier (⟨pos, len⟩ :: later) with
        bad := s.bad ++ ⟨pos, n⟩ :: ⟨pos + n, len - n⟩ :: later } := by
    simp only [State.picture, State.stillBad, List.append_assoc, List.singleton_append]
  rw [happend]
  refine h.step (.regroup (fun x => ?_) ?_ ?_)
  · simp only [State.picture, covers_append, covers_cons, ← or_assoc, Span.Holds, Span.stop]
    refine or_congr ?_ Iff.rfl
    rw [or_assoc]
    exact or_congr Iff.rfl (by omega)
  · simp only [State.picture, total_append, total_cons]
    omega
  · simp only [State.picture, within_append, Within, Span.stop] at hw ⊢
    obtain ⟨mid, hbad, hlo, hlater⟩ := hw
    refine ⟨mid, hbad, hlo, le_rfl, ?_⟩
    rwa [show pos + n + (len - n) = pos + len by omega]

theorem Sound.dropEmpty {pos frontier : ℕ} {later : List Span}
    (h : Sound start stop src.Delivers p₀ (s.picture frontier (⟨pos, 0⟩ :: later))) :
    Sound start stop src.Delivers p₀ (s.picture frontier later) := by
  have hw := h.shape.within
  refine h.step (.regroup (fun x => ?_) ?_ ?_)
  · simp only [State.picture, covers_append, covers_cons, Span.Holds, Span.stop]
    exact or_congr Iff.rfl ⟨Or.inr, fun hx => hx.resolve_left (by omega)⟩
  · simp [State.picture]
  · simp only [State.picture, within_append, Within, Span.stop] at hw ⊢
    obtain ⟨mid, hbad, hlo, hlater⟩ := hw
    exact ⟨mid, hbad, hlater.mono (by omega) le_rfl⟩

/-- The retry of one region: what is left of it is still recorded when it is cancelled,
and the whole of it has been dealt with otherwise. -/
theorem regionLoop_sound {regionEnd : ℕ} {later : List Span} {r : Retry}
    (hpos : r.pos ≤ regionEnd)
    (h : Sound start stop src.Delivers p₀
      (r.state.picture r.state.abs (⟨r.pos, regionEnd - r.pos⟩ :: later))) :
    let q := (regionLoop src opts cancelled start regionEnd).eval r
    Sound start stop src.Delivers p₀ (q.2.state.picture r.state.abs
      (if q.1 then ⟨q.2.pos, regionEnd - q.2.pos⟩ :: later else later)) ∧
      q.2.state.abs = r.state.abs := by
  refine While.eval_inv _ (I := fun r' : Retry => r'.pos ≤ regionEnd ∧
    Sound start stop src.Delivers p₀
      (r'.state.picture r.state.abs (⟨r'.pos, regionEnd - r'.pos⟩ :: later)) ∧
    r'.state.abs = r.state.abs)
    (Q := fun q : Bool × Retry => Sound start stop src.Delivers p₀ (q.2.state.picture r.state.abs
      (if q.1 then ⟨q.2.pos, regionEnd - q.2.pos⟩ :: later else later)) ∧
      q.2.state.abs = r.state.abs) ?_ ⟨hpos, h, rfl⟩
  rintro ⟨pos, recovered, s⟩ ⟨hpos, h, habs⟩
  have hs := sector_pos opts
  have hsub (n : ℕ) : regionEnd - (pos + n) = regionEnd - pos - n := by omega
  simp only at hpos h habs
  simp only [regionLoop, regionBody]
  split_ifs with hlt hc
  · exact ⟨h, habs⟩
  · cases hr : src.readAt s.reads pos (min opts.sector (regionEnd - pos)) with
    | err =>
      simp only [Ctl.Sat]
      refine ⟨by omega, ?_, habs⟩
      rw [hsub]
      exact h.stillBad (by omega)
    | ok bytes =>
      have hle := src.readAt_le _ _ _ _ hr
      simp only
      split_ifs with hn
      · simp only [Ctl.Sat]
        set s' : State := { s with polls := s.polls + 1, reads := s.reads + 1 }
        refine ⟨by omega, ?_, ?_⟩
        · have h' : Sound start stop src.Delivers p₀
            (s'.picture r.state.abs (⟨pos, regionEnd - pos⟩ :: later)) := h
          rw [hsub]
          exact h'.salvaged ⟨_, _, hr⟩ (by omega) _
        · have hlo := h.shape.within.mem (s := ⟨pos, regionEnd - pos⟩) (by simp [State.picture])
          have hfit : r.state.abs ≤ stop := h.shape.fits
          have hlen : s.out.length = stop - start := h.shape.length
          simp only [Span.stop, State.picture] at hlo
          have hw : Written (pos - start) bytes s' (writeRegion opts.sparse (pos - start) bytes s') :=
            writeRegion_written (by simp only [s']; omega)
          exact hw.abs.trans habs
      · simp only [Ctl.Sat]
        refine ⟨by omega, ?_, habs⟩
        rw [hsub]
        exact h.stillBad (by omega)
  · have hzero : regionEnd - pos = 0 := by omega
    rw [hzero] at h
    exact ⟨h.dropEmpty, habs⟩

theorem retryRegions_sound {regions : List Span} (recovered : Bool)
    (h : Sound start stop src.Delivers p₀ (s.picture s.abs regions)) :
    let q := retryRegions src opts cancelled start regions recovered s
    Sound start stop src.Delivers p₀ (q.2.2.picture s.abs []) ∧ q.2.2.abs = s.abs := by
  induction regions generalizing recovered s with
  | nil => exact ⟨h, rfl⟩
  | cons region later ih =>
    have hend : region.stop - region.offset = region.len := by
      simp only [Span.stop]
      omega
    have hpos : region.offset ≤ region.stop := Nat.le_add_right _ _
    obtain ⟨hq, habs⟩ := regionLoop_sound opts cancelled (r := ⟨region.offset, recovered, s⟩) hpos
      (by rw [hend]; exact h)
    rw [retryRegions]
    generalize (regionLoop src opts cancelled start region.stop).eval ⟨region.offset, recovered, s⟩
      = q at hq habs
    obtain ⟨hit, pos, recovered', s'⟩ := q
    simp only at hq habs
    cases hit with
    | true => exact ⟨by simpa only [State.picture, if_true, List.append_nil] using hq, habs⟩
    | false =>
      rw [← habs] at hq ⊢
      exact ih recovered' hq

theorem retryPasses_sound (passes : ℕ)
    (h : Sound start stop src.Delivers p₀ (s.picture s.abs [])) :
    let s' := retryPasses src opts cancelled start stop passes s
    Sound start stop src.Delivers p₀ (s'.picture s.abs []) ∧ s'.abs = s.abs := by
  induction passes generalizing s with
  | zero => exact ⟨h, rfl⟩
  | succ passes ih =>
    have hregroup : Sound start stop src.Delivers p₀
        (({ s with bad := [] } : State).picture s.abs (mergeRegions s.bad)) := by
      have hw := h.shape.within
      refine h.step (.regroup (fun x => ?_) ?_ ?_)
      · simp [State.picture, mergeRegions]
      · simp [State.picture, mergeRegions]
      · simp only [State.picture, List.append_nil, List.nil_append] at hw ⊢
        exact coalesce_within hw
    obtain ⟨hq, habs⟩ := retryRegions_sound opts cancelled false hregroup
    rw [retryPasses]
    by_cases hbad : s.bad = []
    · rw [if_pos hbad]
      exact ⟨h, rfl⟩
    · rw [if_neg hbad]
      generalize retryRegions src opts cancelled start (mergeRegions s.bad) false
        { s with bad := [] } = q at hq habs
      obtain ⟨hit, recovered, s'⟩ := q
      simp only at hq habs
      cases hit with
      | true => exact ⟨hq, habs⟩
      | false =>
        rw [← habs] at hq ⊢
        simp only
        split_ifs
        · apply ih
          exact hq
        · apply ih
          exact hq
        · exact ⟨hq, rfl⟩
        · exact ⟨hq, rfl⟩

/-- The whole run is a sequence of steps, and only the copy loop moves the frontier. -/
theorem copyAll_sound (h : Shape (opts.first src) (opts.stop src) (s.picture s.abs [])) :
    let s' := copyAll src opts cancelled s
    Sound (opts.first src) (opts.stop src) src.Delivers (s.picture s.abs [])
        (s'.picture s'.abs []) ∧
      s'.abs = ((copyLoop src opts cancelled (opts.first src) (opts.stop src)).eval s).abs := by
  have hstart : Sound (opts.first src) (opts.stop src) src.Delivers (s.picture s.abs [])
    (s.picture s.abs []) := ⟨.refl, h⟩
  have hcopy := copyLoop_sound opts cancelled hstart
  simp only at hcopy
  simp only [copyAll]
  split_ifs
  · obtain ⟨hq, habs⟩ := retryPasses_sound opts cancelled opts.retries hcopy
    simp only [retryBadRegions]
    rw [habs]
    exact ⟨hq, rfl⟩
  · exact ⟨hcopy, rfl⟩

end Refinement

end Unearth.Image
