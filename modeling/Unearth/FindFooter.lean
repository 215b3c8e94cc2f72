import Unearth.FileLength

/-!
# The search for a footer

A file of a footer type ends behind the first marker that follows its start, with the line
end that belongs to the marker. The search reads windows that overlap by the marker.
-/

namespace Unearth
open Bytes Word Loop

def footerWindow : ℕ := 1024 * 1024

def findSubsequence (haystack needle : List UInt8) : Option ℕ :=
  if needle = [] ∨ haystack.length < needle.length then none
  else (List.range (haystack.length - needle.length + 1)).find? fun i =>
    window haystack i needle.length = needle

section Search

variable (b : Build) (src : Source) (fileStart : ℕ) (marker : List UInt8) (trailing limit : ℕ)

/-- The byte behind the marker, out of the window or of the source. -/
def trailByte (pos : ℕ) (bytes : List UInt8) (fileEnd : ℕ) : Exec (Option UInt8) := do
  let rel ← minus b fileEnd pos
  match bytes[rel]? with
  | some byte => return some byte
  | none => return (← src.readAt fileEnd 1).head?

def trailBody (pos : ℕ) (bytes : List UInt8) (markerEnd fileEnd : ℕ) : Ctl ℕ (Exec ℕ) :=
  match plus b markerEnd trailing with
  | .error f => .done (.error f)
  | .ok stop =>
    if fileEnd < stop ∧ fileEnd < limit then
      match trailByte b src pos bytes fileEnd with
      | .error f => .done (.error f)
      | .ok byte => if byte = some 13 ∨ byte = some 10 then .next (fileEnd + 1) else .done (.ok fileEnd)
    else .done (.ok fileEnd)

/-- The line end behind the marker. -/
def trailLoop (pos : ℕ) (bytes : List UInt8) (markerEnd : ℕ) : While ℕ (Exec ℕ) where
  body := trailBody b src trailing limit pos bytes markerEnd
  measure fileEnd := limit - fileEnd
  decreases := by
    intro fileEnd fileEnd' h
    unfold trailBody at h
    split at h
    · cases h
    · split_ifs at h with hlt
      split at h
      · cases h
      · split_ifs at h
        cases h
        omega

/-- The length of the file whose marker is at `idx` of the window at `pos`. -/
def footerEnd (pos : ℕ) (bytes : List UInt8) (idx : ℕ) : Exec (Option ℕ) := do
  let markerAt ← plus b pos idx
  let markerEnd ← plus b markerAt marker.length
  let fileEnd ← (trailLoop b src trailing limit pos bytes markerEnd).eval markerEnd
  return some (← minus b fileEnd fileStart)

def footerOverlap : ℕ := marker.length - 1

/-- One window. The buffer has `bufLen` bytes; the next window starts within the limit. -/
def footerBody (bufLen pos : ℕ) : Ctl ℕ (Exec (Option ℕ)) :=
  if limit ≤ pos then .done (.ok none)
  else
    let want := min (limit - pos) (footerWindow + footerOverlap marker)
    if bufLen < want then .done (.error .slice)
    else match src.readAt pos want with
    | .error f => .done (.error f)
    | .ok bytes =>
      if bytes = [] then .done (.ok none)
      else match findSubsequence bytes marker with
      | some idx => .done (footerEnd b src fileStart marker trailing limit pos bytes idx)
      | none =>
        if bytes.length < want ∨ limit ≤ pos + bytes.length then .done (.ok none)
        else .next (pos + (bytes.length - footerOverlap marker))

def footerLoop (bufLen : ℕ) : While ℕ (Exec (Option ℕ)) where
  body := footerBody b src fileStart marker trailing limit bufLen
  measure pos := limit - pos
  decreases := by
    intro pos pos' h
    unfold footerBody at h
    dsimp only at h
    split_ifs at h with hlt
    split at h
    · cases h
    · rename_i bytes hread
      by_cases hne : bytes = []
      · rw [if_pos hne] at h
        cases h
      rw [if_neg hne] at h
      split at h
      · cases h
      · split_ifs at h with hstop
        have hlen : bytes.length ≤ min (limit - pos) (footerWindow + footerOverlap marker) := by
          rw [Source.readAt_ok hread, length_window]
          exact min_le_left _ _
        have hwindow : footerWindow = 1024 * 1024 := rfl
        cases h
        omega

/-- The search; the buffer that is used again had `bufLen` bytes. -/
def findFooter (bufLen : ℕ) : Exec (Option ℕ) := do
  let room ← minus b limit fileStart
  let cap := max (min (footerWindow + footerOverlap marker) room) marker.length
  (footerLoop b src fileStart marker trailing limit (max bufLen cap)).eval fileStart

end Search

section Bounds

variable {b : Build} {src : Source} {fileStart : ℕ} {marker : List UInt8} {trailing limit : ℕ}

/-- A search that fails only with the source, and whose length ends within the limit. -/
def Sound (fileStart limit : ℕ) : Exec (Option ℕ) → Prop
  | .error f => f = .io
  | .ok none => True
  | .ok (some len) => fileStart + len ≤ limit

theorem findSubsequence_le {haystack needle : List UInt8} {i : ℕ}
    (h : findSubsequence haystack needle = some i) : i + needle.length ≤ haystack.length := by
  unfold findSubsequence at h
  split_ifs at h with hlen
  have hi := List.mem_range.mp (List.mem_of_find?_eq_some h)
  omega

theorem findSubsequence_self {needle : List UInt8} (h : needle ≠ []) :
    findSubsequence needle needle = some 0 := by
  unfold findSubsequence
  rw [if_neg (by simp [h]), Nat.sub_self]
  simp [window]

theorem trailLoop_sound {pos markerEnd : ℕ} {bytes : List UInt8} (hfit : markerEnd + trailing < 2 ^ 64)
    (hpos : pos ≤ markerEnd) (hend : markerEnd ≤ limit) :
    match (trailLoop b src trailing limit pos bytes markerEnd).eval markerEnd with
    | .error f => f = .io
    | .ok fileEnd => markerEnd ≤ fileEnd ∧ fileEnd ≤ limit := by
  refine (trailLoop b src trailing limit pos bytes markerEnd).eval_inv
    (I := fun fileEnd => markerEnd ≤ fileEnd ∧ fileEnd ≤ limit)
    (Q := fun r => match r with
      | .error f => f = .io
      | .ok fileEnd => markerEnd ≤ fileEnd ∧ fileEnd ≤ limit) ?_ ⟨le_rfl, hend⟩
  rintro fileEnd ⟨hlo, hhi⟩
  simp only [trailLoop, trailBody, plus_eq hfit]
  split_ifs with hlt
  · cases hb : trailByte b src pos bytes fileEnd with
    | error f =>
      unfold trailByte at hb
      rw [minus_eq (hpos.trans hlo)] at hb
      change (match bytes[fileEnd - pos]? with | some byte => _ | none => _) = _ at hb
      split at hb
      · cases hb
      · cases hr : src.readAt fileEnd 1 with
        | error f' =>
          rw [hr] at hb
          cases hb
          exact Source.readAt_error hr
        | ok bytes =>
          rw [hr] at hb
          cases hb
    | ok byte =>
      dsimp only
      split_ifs
      · exact ⟨by omega, by omega⟩
      · exact ⟨hlo, hhi⟩
  · exact ⟨hlo, hhi⟩

/-- The search stays in its limit, when the sum behind a marker that fits is a word. -/
theorem findFooter_sound (bufLen : ℕ) (hstart : fileStart < limit) (hlimit : limit < 2 ^ 63)
    (hfit : fileStart + marker.length ≤ limit → trailing ≤ 2 ^ 63) :
    Sound fileStart limit (findFooter b src fileStart marker trailing limit bufLen) := by
  unfold findFooter
  rw [minus_eq hstart.le]
  change Sound fileStart limit ((footerLoop b src fileStart marker trailing limit _).eval fileStart)
  refine (footerLoop b src fileStart marker trailing limit _).eval_inv
    (I := fun pos => fileStart ≤ pos) (Q := Sound fileStart limit) ?_ le_rfl
  intro pos hpos
  simp only [footerLoop, footerBody]
  split_ifs with hend hbuf
  · trivial
  · exfalso
    omega
  · cases hread : src.readAt pos (min (limit - pos) (footerWindow + footerOverlap marker)) with
    | error f => exact Source.readAt_error hread
    | ok bytes =>
      have hlen : bytes.length ≤ min (limit - pos) (footerWindow + footerOverlap marker) := by
        rw [Source.readAt_ok hread, length_window]
        exact min_le_left _ _
      dsimp only
      by_cases hne : bytes = []
      · rw [if_pos hne]
        trivial
      · rw [if_neg hne]
        cases hf : findSubsequence bytes marker with
        | none =>
          dsimp only
          split_ifs
          · trivial
          · exact hpos.trans (Nat.le_add_right _ _)
        | some idx =>
          have hidx := findSubsequence_le hf
          have htrail := hfit (by omega)
          have hsound := @trailLoop_sound b src trailing limit pos (pos + idx + marker.length) bytes
            (by omega) (by omega) (by omega)
          simp only [Ctl.Sat, footerEnd]
          rw [plus_eq (by omega)]
          change Sound fileStart limit (plus b (pos + idx) marker.length >>= _)
          rw [plus_eq (by omega)]
          change Sound fileStart limit ((trailLoop b src trailing limit pos bytes
            (pos + idx + marker.length)).eval (pos + idx + marker.length) >>= _)
          cases he : (trailLoop b src trailing limit pos bytes
            (pos + idx + marker.length)).eval (pos + idx + marker.length) with
          | error f =>
            rw [he] at hsound
            exact hsound
          | ok fileEnd =>
            rw [he] at hsound
            change Sound fileStart limit (minus b fileEnd fileStart >>= _)
            rw [minus_eq (by omega)]
            change fileStart + (fileEnd - fileStart) ≤ limit
            omega

end Bounds

end Unearth
