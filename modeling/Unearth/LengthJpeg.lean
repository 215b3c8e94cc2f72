import Unearth.Lib.Loop
import Unearth.SignatureTable
import Unearth.Source

/-!
# The length of a JPEG

A JPEG ends with the marker that closes it, behind those of the images that are nested in it.
The markers are looked for in windows that overlap by one byte, and the depth of the nesting
is carried from one to the next.
-/

namespace Unearth
open Bytes Word Loop Post

section Search

/-- The markers of a window: the index of the one that closes the image, or the depth behind
them all. -/
def scanMarkers (b : Build) : ℕ → ℕ → List UInt8 → Exec (Ctl ℕ ℕ)
  | i, depth, x :: y :: rest =>
    if x ≠ 0xFF then scanMarkers b (i + 1) depth (y :: rest)
    else if y = 0xD8 then do scanMarkers b (i + 2) (← plus32 b depth 1) rest
    else if y = 0xD9 then
      if depth = 0 then return .done i else scanMarkers b (i + 2) (depth - 1) rest
    else scanMarkers b (i + 1) depth (y :: rest)
  | _, depth, _ => return .next depth

def jpegWindow : ℕ := 2 ^ 20
def jpegOverlap : ℕ := 1

variable (b : Build) (src : Source) (fileStart limit : ℕ)

/-- One window, at a position and with the depth that it begins with. -/
def jpegBody (s : ℕ × ℕ) : Ctl (ℕ × ℕ) (Exec (Option ℕ)) :=
  let (pos, depth) := s
  if limit ≤ pos then .done (.ok none)
  else
    match src.readAt pos (min (limit - pos) (jpegWindow + jpegOverlap)) with
    | .error e => .done (.error e)
    | .ok bytes =>
      if bytes = [] then .done (.ok none)
      else
        match scanMarkers b 0 depth bytes with
        | .error e => .done (.error e)
        | .ok (.done i) => .done (.ok (some (pos - fileStart + i + 2)))
        | .ok (.next depth) =>
          if limit ≤ pos + bytes.length then .done (.ok none)
          else .next (pos + (bytes.length - jpegOverlap), depth)

/-- The search, `fuel` windows of it at most: it does not get on where the source ends. -/
def jpegLength (fuel : ℕ) : Option (Exec (Option ℕ)) :=
  match src.readAt fileStart 3 with
  | .error e => some (.error e)
  | .ok soi =>
    if soi.length < 3 ∨ byteAt soi 0 ≠ 0xFF ∨ byteAt soi 1 ≠ 0xD8 then some (.ok none)
    else run (jpegBody b src fileStart limit) fuel (fileStart + 2, 0)

end Search

/-- The offset behind the first marker that closes what is open at a depth, in a single pass. -/
def closing : ℕ → List UInt8 → Option ℕ
  | depth, x :: y :: rest =>
    if x = 0xFF ∧ y = 0xD8 then (closing (depth + 1) rest).map (· + 2)
    else if x = 0xFF ∧ y = 0xD9 then
      if depth = 0 then some 2 else (closing (depth - 1) rest).map (· + 2)
    else (closing depth (y :: rest)).map (· + 1)
  | _, _ => none

/-- Where a single pass over the bytes behind the first marker finds the end of the file. -/
def jpegEnd (src : Source) (fileStart limit : ℕ) : Option ℕ :=
  (closing 0 (window src.data (fileStart + 2) (limit - (fileStart + 2)))).map (· + 2)

/-- A file begins with the marker that opens an image, and has a byte behind it. -/
def StartsImage (src : Source) (fileStart : ℕ) : Prop :=
  fileStart + 3 ≤ src.size ∧ byteAt src.data fileStart = 0xFF ∧ byteAt src.data (fileStart + 1) = 0xD8

instance (src : Source) (fileStart : ℕ) : Decidable (StartsImage src fileStart) :=
  inferInstanceAs (Decidable (_ ∧ _))

section Window

variable {b : Build} {depth : ℕ}

/-- A byte that begins no marker is passed over. -/
theorem closing_cons {y : UInt8} (h : y ≠ 0xFF) (depth : ℕ) (rest : List UInt8) :
    closing depth (y :: rest) = (closing depth rest).map (· + 1) := by
  cases rest with
  | nil => rfl
  | cons z rest => rw [closing, if_neg fun hy => h hy.1, if_neg fun hy => h hy.1]

/-- What comes of a window: the end is found in it, or behind its last byte but one at the depth
that it is left with. -/
def Carried (i depth : ℕ) (w tail : List UInt8) : Ctl ℕ ℕ → Prop
  | .done k => ∃ j, k = i + j ∧ closing depth (w ++ tail) = some (j + 2)
  | .next depth' => depth' ≤ depth + (w.length - 1) ∧
      closing depth (w ++ tail) = (closing depth' ((w ++ tail).drop (w.length - 1))).map (· + (w.length - 1))

theorem map_add_add (x : Option ℕ) (m n : ℕ) : (x.map (· + m)).map (· + n) = x.map (· + (m + n)) := by
  rw [Option.map_map]
  congr 1
  funext k
  exact Nat.add_assoc k m n

/-- A byte that is passed over. -/
theorem Carried.skip {i : ℕ} {x : UInt8} {w tail : List UInt8} {r : Ctl ℕ ℕ} (hw : w ≠ [])
    (hx : closing depth (x :: w ++ tail) = (closing depth (w ++ tail)).map (· + 1))
    (h : Carried (i + 1) depth w tail r) : Carried i depth (x :: w) tail r := by
  have hlength := List.length_pos_of_ne_nil hw
  cases r with
  | done k =>
    obtain ⟨j, rfl, hj⟩ := h
    refine ⟨j + 1, by omega, ?_⟩
    rw [hx, hj]
    rfl
  | next depth' =>
    obtain ⟨hdepth, hclosing⟩ := h
    refine ⟨by rw [List.length_cons]; omega, ?_⟩
    rw [hx, hclosing, map_add_add]
    rw [show (x :: w).length - 1 = w.length - 1 + 1 by rw [List.length_cons]; omega, List.cons_append,
      List.drop_succ_cons]

/-- A marker that opens an image or closes a nested one. -/
theorem Carried.marker {i depth' : ℕ} {y : UInt8} {w tail : List UInt8} {r : Ctl ℕ ℕ} (hy : y ≠ 0xFF)
    (hdepth : depth' ≤ depth + 1)
    (hx : closing depth (0xFF :: y :: w ++ tail) = (closing depth' (w ++ tail)).map (· + 2))
    (h : Carried (i + 2) depth' w tail r) (hr : w = [] → r = .next depth') : Carried i depth (0xFF :: y :: w) tail r := by
  by_cases hw : w = []
  · -- The second byte of the marker is also the first of the next window.
    subst hw
    rw [hr rfl]
    refine ⟨hdepth, ?_⟩
    rw [hx]
    change _ = (closing depth' (y :: tail)).map (· + 1)
    rw [closing_cons hy, map_add_add]
    rfl
  · have hlength := List.length_pos_of_ne_nil hw
    cases r with
    | done k =>
      obtain ⟨j, rfl, hj⟩ := h
      refine ⟨j + 2, by omega, ?_⟩
      rw [hx, hj]
      rfl
    | next d =>
      obtain ⟨hle, hclosing⟩ := h
      refine ⟨by rw [List.length_cons, List.length_cons]; omega, ?_⟩
      rw [hx, hclosing, map_add_add]
      rw [show (0xFF :: y :: w).length - 1 = w.length - 1 + 1 + 1 by
          rw [List.length_cons, List.length_cons]; omega,
        List.cons_append, List.cons_append, List.drop_succ_cons, List.drop_succ_cons]

theorem ends_scanMarkers (tail : List UInt8) (i : ℕ) (w : List UInt8) (depth : ℕ) (hfit : depth + w.length ≤ 2 ^ 32) :
    Ends (fun _ => False) (Carried i depth w tail) (scanMarkers b i depth w) := by
  induction hn : w.length using Nat.strong_induction_on generalizing i w depth with
  | _ n ih =>
    subst hn
    match w with
    | [] => exact Ends.ok ⟨le_rfl, Option.map_id'.symm⟩
    | [x] => exact Ends.ok ⟨le_rfl, Option.map_id'.symm⟩
    | x :: y :: rest =>
      rw [List.length_cons, List.length_cons] at hfit
      have hpass : ¬ (x = 0xFF ∧ y = 0xD8) → ¬ (x = 0xFF ∧ y = 0xD9) →
          Ends (fun _ => False) (Carried i depth (x :: y :: rest) tail) (scanMarkers b (i + 1) depth (y :: rest)) := by
        intro hopen hclose
        have hx : closing depth (x :: (y :: rest) ++ tail) = (closing depth (y :: rest ++ tail)).map (· + 1) := by
          rw [List.cons_append, List.cons_append, closing, if_neg hopen, if_neg hclose]
        exact (ih _ (by simp) (i + 1) (y :: rest) depth (by rw [List.length_cons]; omega) rfl).mono fun r hr =>
          hr.skip (List.cons_ne_nil _ _) hx
      rw [scanMarkers]
      by_cases hx : x = 0xFF
      · subst hx
        rw [if_neg (fun h => h rfl)]
        by_cases hopen : y = 0xD8
        · subst hopen
          rw [if_pos rfl, plus32_eq (by omega)]
          change Ends _ _ (scanMarkers b (i + 2) (depth + 1) rest)
          have hend : Ends (fun _ => False) (fun r => rest = [] → r = .next (depth + 1))
              (scanMarkers b (i + 2) (depth + 1) rest) := by
            cases rest with
            | nil => exact Ends.ok fun _ => rfl
            | cons z rest => exact (ih _ (by simp) (i + 2) (z :: rest) (depth + 1) (by omega) rfl).mono fun r _ h => by cases h
          have hrest := ih _ (by simp) (i + 2) rest (depth + 1) (by omega) rfl
          obtain ⟨r, hr, hcarried⟩ := hrest.exists_ok
          rw [hr] at hend ⊢
          refine Ends.ok (Carried.marker (by decide) le_rfl ?_ hcarried hend)
          rw [List.cons_append, List.cons_append, closing, if_pos ⟨rfl, rfl⟩]
        · rw [if_neg hopen]
          by_cases hclose : y = 0xD9
          · subst hclose
            rw [if_pos rfl]
            by_cases hdepth : depth = 0
            · rw [if_pos hdepth]
              refine Ends.ok ⟨0, rfl, ?_⟩
              rw [List.cons_append, List.cons_append, closing, if_neg (fun h => hopen h.2), if_pos ⟨rfl, rfl⟩,
                if_pos hdepth]
            · rw [if_neg hdepth]
              have hend : Ends (fun _ => False) (fun r => rest = [] → r = .next (depth - 1))
                  (scanMarkers b (i + 2) (depth - 1) rest) := by
                cases rest with
                | nil => exact Ends.ok fun _ => rfl
                | cons z rest => exact (ih _ (by simp) (i + 2) (z :: rest) (depth - 1) (by omega) rfl).mono fun r _ h => by cases h
              have hrest := ih _ (by simp) (i + 2) rest (depth - 1) (by omega) rfl
              obtain ⟨r, hr, hcarried⟩ := hrest.exists_ok
              rw [hr] at hend ⊢
              refine Ends.ok (Carried.marker (by decide) (by omega) ?_ hcarried hend)
              rw [List.cons_append, List.cons_append, closing, if_neg (fun h => hopen h.2), if_pos ⟨rfl, rfl⟩,
                if_neg hdepth]
          · rw [if_neg hclose]
            exact hpass (fun h => hopen h.2) (fun h => hclose h.2)
      · rw [if_pos hx]
        exact hpass (fun h => hx h.1) (fun h => hx h.1)

end Window

section Windows

variable {b : Build} {src : Source} {fileStart limit : ℕ} {E : Fault → Prop}

/-- The bytes from a position to the limit. -/
def region (src : Source) (limit pos : ℕ) : List UInt8 := window src.data pos (limit - pos)

theorem region_drop (pos k : ℕ) : (region src limit pos).drop k = region src limit (pos + k) := by
  unfold region window
  rw [List.drop_take, List.drop_drop, Nat.sub_sub]

theorem length_region (hlimit : limit ≤ src.size) (pos : ℕ) : (region src limit pos).length = limit - pos := by
  unfold Source.size at hlimit
  rw [region, length_window]
  omega

/-- What is known at the start of a window: the depth is one that the markers before it can
have left, and the end of the file is what is found from here on. -/
structure Searching (src : Source) (fileStart limit : ℕ) (s : ℕ × ℕ) : Prop where
  behind : fileStart + 2 ≤ s.1
  depth : s.2 ≤ s.1 - (fileStart + 2)
  rest : jpegEnd src fileStart limit = (closing s.2 (region src limit s.1)).map (· + (s.1 - fileStart))

theorem searching_start : Searching src fileStart limit (fileStart + 2, 0) := by
  refine ⟨le_rfl, Nat.zero_le _, ?_⟩
  dsimp only
  rw [Nat.add_sub_cancel_left]
  rfl

theorem closing_short {depth : ℕ} {l : List UInt8} (h : l.length ≤ 1) : closing depth l = none := by
  match l with
  | [] => rfl
  | [x] => rfl
  | x :: y :: rest =>
    rw [List.length_cons, List.length_cons] at h
    omega

theorem jpegBody_searching (hlimit : limit ≤ src.size) (hspan : limit ≤ fileStart + 2 ^ 32)
    (hread : ∀ off < 2 ^ 63, ∀ len, Ends E (· = window src.data off len) (src.readAt off len)) {s : ℕ × ℕ}
    (h : Searching src fileStart limit s) :
    (jpegBody b src fileStart limit s).Sat
      (fun s' => Searching src fileStart limit s' ∧ limit - s'.1 < limit - s.1)
      (Ends E (· = jpegEnd src fileStart limit)) := by
  obtain ⟨pos, depth⟩ := s
  obtain ⟨hbehind, hdepth, hrest⟩ := h
  dsimp only at hbehind hdepth hrest
  have hsize := src.size_lt
  have hlimit' : limit ≤ src.data.length := hlimit
  unfold jpegBody
  dsimp only
  by_cases hend : limit ≤ pos
  · rw [if_pos hend]
    change _ = jpegEnd src fileStart limit
    rw [hrest, closing_short (by rw [length_region hlimit]; omega)]
    rfl
  · rw [if_neg hend]
    have hbytes := hread pos (by omega) (min (limit - pos) (jpegWindow + jpegOverlap))
    cases hr : src.readAt pos (min (limit - pos) (jpegWindow + jpegOverlap)) with
    | error e => exact hbytes.of_error hr
    | ok bytes =>
      have hbytes := hbytes.of_ok hr
      have hwindow : jpegWindow = 2 ^ 20 := rfl
      have hoverlap : jpegOverlap = 1 := rfl
      have hlen : bytes.length = min (limit - pos) (jpegWindow + jpegOverlap) := by
        rw [hbytes, length_window]
        omega
      have htake : bytes = (region src limit pos).take bytes.length := by
        rw [hlen, hbytes, region, window, window, List.take_take]
        congr 1
        omega
      have hsplit : bytes ++ (region src limit pos).drop bytes.length = region src limit pos := by
        conv_lhs => arg 1; rw [htake]
        exact List.take_append_drop _ _
      have hne : bytes ≠ [] := List.ne_nil_of_length_pos (by omega)
      dsimp only
      rw [if_neg hne]
      have hscan := @ends_scanMarkers b ((region src limit pos).drop bytes.length) 0 bytes depth (by omega)
      obtain ⟨r, hr, hcarried⟩ := hscan.exists_ok
      rw [hr]
      cases r with
      | done k =>
        obtain ⟨j, hj, hclosing⟩ := hcarried
        rw [hsplit] at hclosing
        change _ = jpegEnd src fileStart limit
        rw [hrest, hclosing, Option.map_some, hj]
        congr 1
        omega
      | next depth' =>
        obtain ⟨hdepth', hclosing⟩ := hcarried
        rw [hsplit, region_drop] at hclosing
        dsimp only
        by_cases hlast : limit ≤ pos + bytes.length
        · rw [if_pos hlast]
          change _ = jpegEnd src fileStart limit
          rw [hrest, hclosing, closing_short (by rw [length_region hlimit]; omega)]
          rfl
        · rw [if_neg hlast, hoverlap]
          refine ⟨⟨by dsimp only; omega, by dsimp only; omega, ?_⟩, by dsimp only; omega⟩
          rw [hrest, hclosing, map_add_add]
          congr 1
          funext k
          dsimp only
          omega

theorem exists_jpegLength (hlimit : limit ≤ src.size) (hspan : limit ≤ fileStart + 2 ^ 32) (hstart : fileStart < 2 ^ 63)
    (hread : ∀ off < 2 ^ 63, ∀ len, Ends E (· = window src.data off len) (src.readAt off len)) :
    ∃ n r, jpegLength b src fileStart limit n = some r ∧
      Ends E (· = if StartsImage src fileStart then jpegEnd src fileStart limit else none) r := by
  have hsoi := hread fileStart hstart 3
  unfold jpegLength
  cases hr : src.readAt fileStart 3 with
  | error e => exact ⟨0, _, rfl, hsoi.of_error hr⟩
  | ok soi =>
    have hsoi := hsoi.of_ok hr
    have hlength : soi.length < 3 ↔ ¬ fileStart + 3 ≤ src.size := by
      rw [hsoi, length_window, Source.size]
      omega
    have hbytes : ∀ i < 3, byteAt soi i = byteAt src.data (fileStart + i) := by
      intro i hi
      rw [hsoi, byteAt_window, if_pos hi]
    have hzero := hbytes 0 (by decide)
    have hone := hbytes 1 (by decide)
    rw [Nat.add_zero] at hzero
    by_cases himage : StartsImage src fileStart
    · obtain ⟨hroom, hff, hd8⟩ := himage
      have hcond : ¬ (soi.length < 3 ∨ byteAt soi 0 ≠ 0xFF ∨ byteAt soi 1 ≠ 0xD8) := by
        rintro (hshort | hne | hne)
        · exact hlength.mp hshort hroom
        · exact hne (hzero.trans hff)
        · exact hne (hone.trans hd8)
      obtain ⟨n, r, hrun, hr⟩ := exists_run_of_decreasing (m := fun s : ℕ × ℕ => limit - s.1)
        (fun s hs => @jpegBody_searching b src fileStart limit E hlimit hspan hread s hs)
        (@searching_start src fileStart limit)
      refine ⟨n, r, ?_, ?_⟩
      · dsimp only
        rw [if_neg hcond]
        exact hrun
      · rw [if_pos ⟨hroom, hff, hd8⟩]
        exact hr
    · refine ⟨0, .ok none, ?_, Ends.ok ?_⟩
      · dsimp only
        rw [if_pos]
        by_contra hno
        simp only [not_or, not_lt, not_not] at hno
        refine himage ⟨?_, hzero.symm.trans hno.2.1, hone.symm.trans hno.2.2⟩
        by_contra hroom
        exact absurd (hlength.mpr hroom) (by omega)
      · rw [if_neg himage]

end Windows

/-- The limit of a type that is searched in this way is never too far for the depth to be counted. -/
theorem jpeg_span {sig : Signature} (h : sig ∈ signatures) (hext : sig.extent = .jpeg) : sig.maxSize ≤ 2 ^ 32 := by
  have htable : (signatures.all fun sig => match sig.extent with
      | .jpeg => decide (sig.maxSize ≤ 2 ^ 32)
      | _ => true) = true := by decide +kernel
  have hsig := List.all_eq_true.mp htable sig h
  rw [hext] at hsig
  exact of_decide_eq_true hsig

/-- Wherever the windows are cut, the search comes to an end, with what a single pass finds: the
end of the image that the file begins with, if it begins with one. Only a read that fails can
keep it from that. -/
theorem jpegLength_single_pass (b : Build) (src : Source) (fileStart limit : ℕ) (hlimit : limit ≤ src.size)
    (hspan : limit ≤ fileStart + 2 ^ 32) :
    ∃ n r, jpegLength b src fileStart limit n = some r ∧
      (r = .error .io ∨ r = .ok (if StartsImage src fileStart then jpegEnd src fileStart limit else none)) ∧
      (src.Reliable → fileStart < 2 ^ 63 →
        r = .ok (if StartsImage src fileStart then jpegEnd src fileStart limit else none)) := by
  by_cases hstart : fileStart < 2 ^ 63
  · by_cases hreliable : src.Reliable
    · obtain ⟨n, r, hr, hends⟩ := @exists_jpegLength b src fileStart limit (fun _ => False) hlimit hspan hstart
        fun off hoff len => hreliable.ends_readAt hoff len
      obtain ⟨x, rfl, rfl⟩ := hends.exists_ok
      exact ⟨n, _, hr, .inr rfl, fun _ _ => rfl⟩
    · obtain ⟨n, r, hr, hends⟩ := @exists_jpegLength b src fileStart limit (· = Fault.io) hlimit hspan hstart
        fun off _ len => src.ends_readAt off len
      refine ⟨n, r, hr, ?_, fun h => absurd h hreliable⟩
      cases r with
      | error e => exact .inl (congrArg _ (hends.of_error rfl))
      | ok x => exact .inr (congrArg _ (hends.of_ok rfl))
  · have hread : src.readAt fileStart 3 = .error .io := if_pos ⟨by decide, .inl (not_lt.mp hstart)⟩
    refine ⟨0, .error .io, ?_, .inl rfl, fun _ h => absurd h hstart⟩
    unfold jpegLength
    rw [hread]

def noImage : Source := ⟨[0, 0, 0xFF, 0xD9], by decide, fun _ _ => false⟩
def openImage : Source := ⟨[0xFF, 0xD8, 0xFF, 0], by decide, fun _ _ => false⟩

/-- A file that begins with no image has no length, and beyond the end of the source the search
goes on for ever. -/
theorem no_single_pass :
    (∀ n, jpegLength .release noImage 0 4 n = some (.ok none)) ∧ jpegEnd noImage 0 4 = some 4 ∧
      (∀ n, jpegLength .release openImage 0 5 n = none) ∧
      ¬ ∀ src fileStart limit, ∃ n, jpegLength .release src fileStart limit n =
        some (.ok (jpegEnd src fileStart limit)) := by
  have hnone : ∀ n, jpegLength .release noImage 0 4 n = some (.ok none) := fun n => rfl
  have hfound : jpegEnd noImage 0 4 = some 4 := by decide +kernel
  have hstep : jpegBody .release openImage 0 5 (2, 0) = .next (3, 0) := rfl
  have hstay : jpegBody .release openImage 0 5 (3, 0) = .next (3, 0) := rfl
  have hforever : ∀ n, run (jpegBody .release openImage 0 5) n (3, 0) = none := by
    intro n
    induction n with
    | zero => rfl
    | succ n ih => rw [run_next hstay, ih]
  refine ⟨hnone, hfound, fun n => ?_, fun h => ?_⟩
  · change run (jpegBody .release openImage 0 5) n (2, 0) = none
    cases n with
    | zero => rfl
    | succ n => rw [run_next hstep, hforever]
  · obtain ⟨n, hn⟩ := h noImage 0 4
    rw [hnone, hfound] at hn
    cases hn

/-- An image with another one nested in it, at the second byte of a source. -/
def nestedImage : Source :=
  ⟨[0, 0xFF, 0xD8, 0xFF, 0xD8, 1, 0xFF, 0xD9, 0xFF, 0xFF, 0xD9, 7], by decide, fun _ _ => false⟩

theorem nested_image_length : ∃ n r, jpegLength .debug nestedImage 1 12 n = some r ∧
    r = .ok (if StartsImage nestedImage 1 then jpegEnd nestedImage 1 12 else none) := by
  obtain ⟨n, r, hr, -, hexact⟩ := jpegLength_single_pass .debug nestedImage 1 12 (by decide) (by decide)
  exact ⟨n, r, hr, hexact (fun _ _ => rfl) (by decide)⟩

end Unearth
