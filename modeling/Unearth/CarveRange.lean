import Unearth.CustomScan
import Unearth.FooterSearch
import Unearth.ScanRegions

/-!
# The range of a carve

A file starts where its magic says, which may be before the range that is scanned, and ends
where its length says. The length functions compare a sum with the limit; where a field of
64 bits goes into the sum, it may carry and pass for a small one.
-/

namespace Unearth
open Bytes Word Loop Custom

/-- The end of the file that an Outlook data file states, in the Unicode format only. -/
def pstSize (hdr : List UInt8) : Option ℕ :=
  if window hdr 0 4 ≠ ascii "!BDN" ∨ window hdr 8 2 ≠ ascii "SM" then none
  else if le (window hdr 10 2) < 23 then none
  else
    let size := le (window hdr 0xB8 8)
    if size < 0xC0 then none else some size

def pstLength (b : Build) (src : Source) (fileStart limit : ℕ) : Exec (Option ℕ) :=
  headerLength b src fileStart limit 0xC0 0xC0 pstSize

/-- The other strategies as they come, with the one for Outlook data files. -/
def withPst (walk : Walker) : Walker := fun b src extent fileStart limit =>
  match extent with
  | .pst => pstLength b src fileStart limit
  | extent => walk b src extent fileStart limit

/-- The strategies with a model of their own, and the others as they come. -/
def withModels (walk : Walker) (bufLen : ℕ) : Walker := withPst (withFooter walk bufLen)

/-- The sum that a length is compared with the limit by is a word. Of a strategy that is taken as it
comes, the length ends within the limit. -/
def LengthFits (walk : Walker) (b : Build) (src : Source) (fileStart limit : ℕ) : Extent → Prop
  | .headerSizeLe32 _ => True
  | .headerSizeBe32 _ => True
  | .fixed _ => True
  | .sizeField _ _ _ _ _ => True
  | .riffSize => True
  | .formSize => True
  | .sqlite => True
  | .footer _ _ => True
  | .sevenZip => SumsFit src fileStart limit .sevenZip
  | .elf => SumsFit src fileStart limit .elf
  | .rar => SumsFit src fileStart limit .rar
  | .tiff => SumsFit src fileStart limit .tiff
  | .pst => ∀ hdr, header src fileStart 0xC0 0xC0 = .ok (some hdr) →
      ∀ n ∈ pstSize hdr, fileStart + n < 2 ^ 64
  | extent => ∀ len, walk b src extent fileStart limit = .ok (some len) → fileStart + len ≤ limit

section Lengths

variable {b : Build} {src : Source} {fileStart limit len : ℕ}

theorem headerLength_le {n need : ℕ} {size : List UInt8 → Option ℕ}
    (hfit : ∀ hdr, header src fileStart n need = .ok (some hdr) → ∀ m ∈ size hdr, fileStart + m < 2 ^ 64)
    (h : headerLength b src fileStart limit n need size = .ok (some len)) : fileStart + len ≤ limit := by
  obtain ⟨o, ho, h⟩ := exec_bind_ok h
  cases o with
  | none => cases h
  | some hdr =>
    dsimp only at h
    cases hsize : size hdr with
    | none =>
      rw [hsize] at h
      cases h
    | some m =>
      rw [hsize] at h
      unfold fitting at h
      dsimp only at h
      rw [plus_eq (hfit hdr ho m hsize)] at h
      obtain ⟨stop, hstop, h⟩ := exec_bind_ok h
      cases hstop
      have h := Except.ok.inj h
      split_ifs at h with hle
      cases h
      exact not_lt.mp hle

theorem num_window_lt (littleEndian : Bool) (f : List UInt8) (off n : ℕ) :
    num littleEndian (window f off n) < 256 ^ n := by
  have hlen : (window f off n).length ≤ n := by
    rw [length_window]
    exact min_le_left _ _
  have hpow : 256 ^ (window f off n).length ≤ 256 ^ n := Nat.pow_le_pow_right (by decide) hlen
  unfold num
  split_ifs
  · exact (le_lt _).trans_le hpow
  · exact (be_lt _).trans_le hpow

/-- A size of fewer than 63 bits never carries. -/
theorem headerLength_small {n need : ℕ} {size : List UInt8 → Option ℕ}
    (hstart : fileStart < 2 ^ 63) (hsmall : ∀ hdr, ∀ m ∈ size hdr, m < 2 ^ 63)
    (h : headerLength b src fileStart limit n need size = .ok (some len)) : fileStart + len ≤ limit := by
  apply headerLength_le _ h
  intro hdr _ m hm
  have hlt := hsmall hdr m hm
  omega

theorem positive_eq {n m : ℕ} (h : m ∈ positive n) : m = n := by
  unfold positive at h
  split_ifs at h
  · cases h
  · cases h
    rfl

theorem sqliteSize_lt {hdr : List UInt8} {m : ℕ} (h : m ∈ sqliteSize hdr) : m < 2 ^ 63 := by
  unfold sqliteSize at h
  have hm := positive_eq h
  have hcount := num_window_lt false hdr 28 4
  have hraw := num_window_lt false hdr 16 2
  simp only [num, Bool.false_eq_true, if_false] at hcount hraw
  rw [hm]
  have hpage : (if be (window hdr 16 2) = 1 then 65536 else be (window hdr 16 2)) ≤ 2 ^ 16 := by
    split_ifs <;> omega
  generalize (if be (window hdr 16 2) = 1 then 65536 else be (window hdr 16 2)) = page at hpage
  have hprod : page * be (window hdr 28 4) ≤ 2 ^ 16 * 2 ^ 32 := Nat.mul_le_mul hpage (by omega)
  unfold checkedMul
  split_ifs
  · simp only [Option.getD_some]
    omega
  · simp

theorem chunkSize_lt {littleEndian : Bool} {hdr : List UInt8} {m : ℕ}
    (h : m ∈ chunkSize littleEndian hdr) : m < 2 ^ 63 := by
  unfold chunkSize at h
  dsimp only at h
  have hnum := num_window_lt littleEndian hdr 4 4
  split_ifs at h
  · cases h
  · cases h
    omega

theorem fixedLength_le {size : ℕ} (hlimit : limit < 2 ^ 63)
    (h : fixedLength fileStart limit size = some len) : fileStart + len ≤ limit := by
  have hsound := @fixedLength_sound fileStart limit hlimit size
  rw [h] at hsound
  exact hsound

theorem sizefieldLength_le {offset width mul add : ℕ} {bigEndian : Bool} (hlimit : limit < 2 ^ 63)
    (h : sizefieldLength src fileStart limit offset width bigEndian mul add = .ok (some len)) :
    fileStart + len ≤ limit := by
  by_cases hfit : offset + width / 8 < 2 ^ 63 ∨ 2 ^ 64 ≤ offset + width / 8
  · have hsound := @sizefieldLength_sound src fileStart limit hlimit offset width bigEndian mul add hfit
    rw [h] at hsound
    exact hsound
  · rw [sizefieldLength_capacity bigEndian mul add (by omega) (by omega)] at h
    cases h

theorem inside_le {f : Build → Exec (Option ℕ)} (hin : Inside fileStart limit f)
    (h : f b = .ok (some len)) : fileStart + len ≤ limit := (hin.2 b len h).2

theorem trailLoop_le {pos trailing markerEnd fileEnd : ℕ} {bytes : List UInt8} (hend : markerEnd ≤ limit)
    (h : (trailLoop b src trailing limit pos bytes markerEnd).eval markerEnd = .ok fileEnd) :
    markerEnd ≤ fileEnd ∧ fileEnd ≤ limit := by
  have hinv := (trailLoop b src trailing limit pos bytes markerEnd).eval_inv
    (I := fun e => markerEnd ≤ e ∧ e ≤ limit)
    (Q := fun r => ∀ e, r = .ok e → markerEnd ≤ e ∧ e ≤ limit) ?_ ⟨le_rfl, hend⟩
  · exact hinv fileEnd h
  · intro e he
    change (trailBody b src trailing limit pos bytes markerEnd e).Sat _ _
    unfold trailBody
    cases plus b markerEnd trailing with
    | error f => exact fun _ hr => absurd hr (by simp)
    | ok stop =>
      dsimp only
      split_ifs with hlt
      · cases trailByte b src pos bytes e with
        | error f => exact fun _ hr => absurd hr (by simp)
        | ok byte =>
          dsimp only
          split_ifs
          · exact ⟨by omega, by omega⟩
          · intro e' hr
            cases hr
            exact he
      · intro e' hr
        cases hr
        exact he

theorem footerEnd_le {marker bytes : List UInt8} {trailing pos idx : ℕ} (hlimit : limit < 2 ^ 63)
    (hstart : fileStart ≤ pos) (hend : pos + idx + marker.length ≤ limit)
    (h : footerEnd b src fileStart marker trailing limit pos bytes idx = .ok (some len)) :
    fileStart + len ≤ limit := by
  unfold footerEnd at h
  rw [plus_eq (by omega), exec_ok_bind, plus_eq (by omega), exec_ok_bind] at h
  obtain ⟨fileEnd, heval, h⟩ := exec_bind_ok h
  have hle := trailLoop_le hend heval
  rw [minus_eq (by omega), exec_ok_bind] at h
  cases h
  omega

/-- A window moves on, or it holds the marker within the limit. -/
theorem footerBody_le {marker : List UInt8} {trailing bufLen pos : ℕ} (hlimit : limit < 2 ^ 63)
    (hpos : fileStart ≤ pos) :
    (footerBody b src fileStart marker trailing limit bufLen pos).Sat (fun pos => fileStart ≤ pos)
      fun r => ∀ n, r = .ok (some n) → fileStart + n ≤ limit := by
  unfold footerBody
  dsimp only
  split_ifs with hend hbuf
  · exact fun _ hr => absurd hr (by simp)
  · exact fun _ hr => absurd hr (by simp)
  · cases hread : src.readAt pos (min (limit - pos) (footerWindow + footerOverlap marker)) with
    | error f => exact fun _ hr => absurd hr (by simp)
    | ok bytes =>
      have hbytes : bytes.length ≤ min (limit - pos) (footerWindow + footerOverlap marker) := by
        rw [Source.readAt_ok hread, length_window]
        exact min_le_left _ _
      dsimp only
      by_cases hempty : bytes = []
      · rw [if_pos hempty]
        exact fun _ hr => absurd hr (by simp)
      · rw [if_neg hempty]
        cases hfind : findSubsequence bytes marker with
        | none =>
          dsimp only
          split_ifs
          · exact fun _ hr => absurd hr (by simp)
          · exact hpos.trans (Nat.le_add_right _ _)
        | some idx =>
          intro n hr
          have hidx := findSubsequence_le hfind
          exact footerEnd_le hlimit hpos (by omega) hr

/-- A marker that is found, and its line end, are in the limit, also when the allowance carries. -/
theorem findFooter_le {marker : List UInt8} {trailing bufLen : ℕ} (hstart : fileStart < limit)
    (hlimit : limit < 2 ^ 63)
    (h : findFooter b src fileStart marker trailing limit bufLen = .ok (some len)) :
    fileStart + len ≤ limit := by
  unfold findFooter at h
  rw [minus_eq hstart.le, exec_ok_bind] at h
  have hinv := While.eval_inv (I := fun pos => fileStart ≤ pos)
    (Q := fun r : Exec (Option ℕ) => ∀ n, r = .ok (some n) → fileStart + n ≤ limit)
    (footerLoop b src fileStart marker trailing limit
      (max bufLen (max (min (footerWindow + footerOverlap marker) (limit - fileStart)) marker.length)))
    (fun pos hpos => footerBody_le hlimit hpos) le_rfl
  exact hinv len h

/-- A length that fits ends within the limit. -/
theorem extentLength_le {walk : Walker} {bufLen : ℕ} {extent : Extent} (hstart : fileStart < limit)
    (hlimit : limit < 2 ^ 63) (hfit : LengthFits walk b src fileStart limit extent)
    (h : extentLength (withModels walk bufLen) b src fileStart limit extent = .ok (some len)) :
    fileStart + len ≤ limit := by
  cases extent
  case headerSizeLe32 offset =>
    refine headerLength_small (hstart.trans hlimit) (fun hdr m hm => ?_) h
    rw [positive_eq hm]
    exact (num_window_lt true hdr offset 4).trans (by decide)
  case headerSizeBe32 offset =>
    refine headerLength_small (hstart.trans hlimit) (fun hdr m hm => ?_) h
    rw [positive_eq hm]
    exact (num_window_lt false hdr offset 4).trans (by decide)
  case fixed size => exact fixedLength_le hlimit (Except.ok.inj h)
  case sizeField => exact sizefieldLength_le hlimit h
  case riffSize => exact headerLength_small (hstart.trans hlimit) (fun hdr m hm => chunkSize_lt hm) h
  case formSize => exact headerLength_small (hstart.trans hlimit) (fun hdr m hm => chunkSize_lt hm) h
  case sqlite => exact headerLength_small (hstart.trans hlimit) (fun hdr m hm => sqliteSize_lt hm) h
  case footer marker trailing => exact findFooter_le hstart hlimit h
  case sevenZip => exact inside_le ((inside_headerLength_iff fun _ _ => sevenZipSize_pos).mpr hfit) h
  case elf => exact inside_le ((inside_headerLength_iff fun _ _ => elfSize_pos).mpr hfit) h
  case tiff => exact inside_le ((inside_tiffLength_iff hstart hlimit).mpr hfit) h
  case rar =>
    exact inside_le ((inside_rarLength_iff (hstart.trans hlimit) hlimit).mpr hfit) h
  case pst => exact headerLength_le hfit h
  all_goals exact hfit len h

end Lengths

/-- The strategies with a model of their own are the ones that a run uses. -/
def Formats.models (fmt : Formats) (bufLen : ℕ) : Formats :=
  { fmt with walk := withModels fmt.walk bufLen }

def CarvedFile.Within (start stop : ℕ) (f : CarvedFile) : Prop :=
  start ≤ f.offset ∧ f.offset + f.size ≤ stop

/-- No file that the run comes to write starts before the range. In a range that ends before the
source does, no length of a file carries. -/
def Attempt.RangeFits (b : Build) (fmt : Formats) (bufLen : ℕ) (src : Source) (a : Attempt)
    (disk : CarveDisk) : Prop :=
  ∀ s q sig c, a.Visits b (fmt.models bufLen) src disk s q sig c → ∀ fileStart len,
    Accepted b (fmt.models bufLen) src a.opts (a.opts.stop src) sig q c fileStart len →
      a.opts.start ≤ fileStart ∧
        (a.opts.stop src = src.size ∨
          LengthFits fmt.walk b src fileStart (min (fileStart + sig.maxSize) (a.opts.stop src)) sig.extent)

section Range

variable {b : Build} {fmt : Formats} {bufLen : ℕ} {src : Source} {a : Attempt} {disk : CarveDisk}

theorem eligible_add {opts : CarveOptions} {sig : Signature} {q skipUntil fileStart : ℕ}
    (h : eligible opts sig q skipUntil = some fileStart) : fileStart + sig.magicOffset = q := by
  unfold eligible at h
  dsimp only at h
  split_ifs at h with hoffset
  · have h := Option.some.inj h
    omega

theorem plus_le {x y z : ℕ} (h : plus b x y = .ok z) : z ≤ x + y := by
  unfold plus at h
  split_ifs at h
  · cases h
    exact le_rfl
  · cases b with
    | debug => cases h
    | release =>
      cases h
      exact Nat.mod_le _ _

/-- A file is within the range, when its length fits or the range ends with the source. -/
theorem Written.within {sig : Signature} {q fileStart len : ℕ} {c : Carving} {row : CarvedFile}
    (haccepted : Accepted b (fmt.models bufLen) src a.opts (a.opts.stop src) sig q c fileStart len)
    (hrow : Written (fmt.models bufLen) src a.opts sig fileStart len c.seen row) (hq : q < a.opts.stop src)
    (hstart : a.opts.start ≤ fileStart)
    (hfit : a.opts.stop src = src.size ∨
      LengthFits fmt.walk b src fileStart (min (fileStart + sig.maxSize) (a.opts.stop src)) sig.extent) :
    row.Within a.opts.start (a.opts.stop src) := by
  obtain ⟨remaining, content, hcopy, hsize, -⟩ := hrow.copied
  obtain ⟨hrem, hlen, hcontent⟩ := copyRange_ok hcopy
  have hadd := eligible_add haccepted.1.1
  refine ⟨hrow.offset ▸ hstart, ?_⟩
  rw [hrow.offset, hsize]
  rcases hfit with hend | hfit
  · rw [hend] at hq ⊢
    have hwindow := congrArg List.length hcontent
    rw [length_window, hlen] at hwindow
    unfold Source.size at hq ⊢
    omega
  · have hsrc : src.size < 2 ^ 63 := src.size_lt
    have hstop : a.opts.stop src ≤ src.size := stop_le a.opts
    have hpos := sig.wellFormed.maxSize_pos
    have hmax := sig.wellFormed.maxSize_le
    have hlength := haccepted.1.2.1
    unfold fileLength at hlength
    rw [plus_eq (by omega), exec_ok_bind] at hlength
    have hle := extentLength_le (lt_min (by omega) (by omega))
      ((min_le_right _ _).trans_lt (by omega)) hfit hlength
    have hlimit : min (fileStart + sig.maxSize) (a.opts.stop src) ≤ a.opts.stop src := min_le_right _ _
    omega

theorem Attempt.RangeFits.kept (h : a.RangeFits b fmt bufLen src disk)
    (hrows : ∀ f ∈ (a.start src disk).carving.stats.files, f.Within a.opts.start (a.opts.stop src)) :
    a.Kept b (fmt.models bufLen) src disk
      (fun _ c => ∀ f ∈ c.stats.files, f.Within a.opts.start (a.opts.stop src))
      fun _ c => ∀ f ∈ c.stats.files, f.Within a.opts.start (a.opts.stop src) := by
  have hjudge : ∀ s q sig c c' full, a.Visits b (fmt.models bufLen) src disk s q sig c →
      (∀ f ∈ c.stats.files, f.Within a.opts.start (a.opts.stop src)) →
      a.judge b (fmt.models bufLen) src sig q c = .ok (c', full) →
        ∀ f ∈ c'.stats.files, f.Within a.opts.start (a.opts.stop src) := by
    intro s q sig c c' full hv hc hj f hf
    rcases candidate_rows hj with ⟨hfiles, -⟩ | ⟨fileStart, len, row, haccepted, hrow, hfiles, -⟩
    · exact hc f (hfiles ▸ hf)
    · rw [hfiles] at hf
      rcases List.mem_append.mp hf with hf | hf
      · exact hc f hf
      · obtain rfl := List.mem_singleton.mp hf
        obtain ⟨hstart, hfit⟩ := h s q sig c hv fileStart len haccepted
        exact hrow.within haccepted hv.bounds.2 hstart hfit
  exact
    { mono := fun _ _ _ _ hc => hc
      scanned := fun _ _ _ hc => hc
      next := fun s q sig c c' hv hc hj => hjudge s q sig c c' false hv hc hj
      full := fun s q sig c c' hv hc hj => hjudge s q sig c c' true hv hc hj
      weaken := fun _ _ hc => hc
      start := hrows }

/-- The rows lie in the regions of the runs, as far as these fit. -/
def InRegions (b : Build) (fmt : Formats) (bufLen : ℕ) (src : Source) (regions : List (ℕ × ℕ))
    (s : Regions) : Prop :=
  (∀ r ∈ s.runs, r.attempt.RangeFits b fmt bufLen src r.disk) →
    ∀ f ∈ s.merged.files, ∃ region ∈ regions, f.Within region.1 (region.1 + region.2)

theorem InRegions.step {active : List Signature} {opts : CarveOptions} {regions : List (ℕ × ℕ)}
    {region : ℕ × ℕ} {s s' : Regions} {stop : ℕ} {maxFiles : Option ℕ} {t : CarveState}
    (hs : InRegions b fmt bufLen src regions s) (hregion : region ∈ regions)
    (hstop : plus b region.1 region.2 = .ok stop)
    (ht : (regionRun active opts s region.1 stop maxFiles).attempt.Ends b (fmt.models bufLen) src
      (regionRun active opts s region.1 stop maxFiles).disk t)
    (hfiles : s'.merged.files = s.merged.files ++ t.carving.stats.files)
    (hruns : s'.runs = s.runs ++ [regionRun active opts s region.1 stop maxFiles]) :
    InRegions b fmt bufLen src regions s' := by
  intro hall f hf
  rw [hruns] at hall
  rw [hfiles] at hf
  rcases List.mem_append.mp hf with hf | hf
  · exact hs (fun r hr => hall r (List.mem_append_left _ hr)) f hf
  · have hfits := hall _ (List.mem_append_right _ (List.mem_singleton_self _))
    have hfresh := @regionRun_fresh active opts s region.1 stop maxFiles
    have hrows := hfits.kept (by
      rw [hfresh.start]
      exact fun f hf => absurd hf List.not_mem_nil)
    obtain ⟨p, -, hwithin⟩ := hrows.ends ht
    obtain ⟨hlo, hhi⟩ := hwithin f hf
    have hle : stop ≤ region.1 + region.2 := plus_le hstop
    have hend : (regionRun active opts s region.1 stop maxFiles).attempt.opts.stop src ≤ stop :=
      min_le_left _ _
    exact ⟨region, hregion, hlo, by omega⟩

end Range

/-- A scan of the free space without a checkpoint. -/
def freeOptions : CarveOptions := { keepOptions with checkpoint := false, resume := false }

/-- A file of a described type with a byte on either side of it. -/
def cellsSource : Source where
  data := 0 :: ascii "CELL" ++ [0]
  size_lt := by decide

end Unearth
