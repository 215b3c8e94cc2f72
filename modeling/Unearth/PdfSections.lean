import Unearth.CustomScan
import Unearth.FooterSearch
import Unearth.Stored

/-!
# PDF files of several sections

An update of a document is appended to it, and every section has an end marker of its own. The
search for the footer settles on the first one.
-/

namespace Unearth.Pdf
open Bytes Word Custom

def EOF_MARKER : List UInt8 := [0x25, 0x25, 0x45, 0x4F, 0x46]

theorem pdf_wellFormed : WellFormed "pdf".toList (ascii "%PDF") 0 none (500 * mb) := by decide

def pdfSignature : Signature :=
  .mk "pdf".toList (ascii "%PDF") 0 none (.footer (ascii "%%EOF") 2) (500 * mb) pdf_wellFormed

theorem pdfSignature_listed : signatures[7]? = some pdfSignature := rfl

theorem marker_eq : ascii "%%EOF" = EOF_MARKER := by decide

/-- Contents that end with a marker and a line end. -/
structure Part where
  body : List UInt8
  lineEnd : List UInt8
  lineEnd_mem : lineEnd ∈ ([[0x0D], [0x0A], [0x0D, 0x0A]] : List (List UInt8))

def Part.bytes (s : Part) : List UInt8 := s.body ++ EOF_MARKER ++ s.lineEnd

structure File where
  earlier : List Part
  last : Part
  header : ascii "%PDF" <+: earlier.flatMap Part.bytes ++ last.bytes

def File.bytes (f : File) : List UInt8 := f.earlier.flatMap Part.bytes ++ f.last.bytes

/-- Where the last marker of the file is. -/
def File.lastMarker (f : File) : ℕ := (f.earlier.flatMap Part.bytes).length + f.last.body.length

section Markers

variable {data : List UInt8} {fileStart limit p q : ℕ}

theorem exists_firstMarker {marker : List UInt8} (limit : ℕ) (hlo : fileStart ≤ q) (hhi : q + marker.length ≤ limit)
    (hq : window data q marker.length = marker) :
    ∃ p, firstMarker data marker fileStart limit = some p ∧ fileStart ≤ p ∧ p ≤ q ∧
      window data p marker.length = marker := by
  have hmem : q ∈ List.range' fileStart (limit + 1 - (fileStart + marker.length)) :=
    List.mem_range'_1.mpr ⟨hlo, by omega⟩
  cases h : firstMarker data marker fileStart limit with
  | none =>
    have hnone := List.find?_eq_none.mp h q hmem
    exact absurd (decide_eq_true hq) hnone
  | some p =>
    obtain ⟨hp, hrange, hbefore⟩ := List.find?_range'_eq_some.mp h
    refine ⟨p, rfl, (List.mem_range'_1.mp hrange).1, ?_, of_decide_eq_true hp⟩
    by_contra hlt
    simpa [hq] using hbefore q hlo (not_le.mp hlt)

theorem lineEnds_le (data : List UInt8) (pos n : ℕ) : lineEnds data pos n ≤ n := by
  unfold lineEnds
  refine (List.takeWhile_prefix _).length_le.trans ?_
  rw [length_window]
  exact min_le_left _ _

theorem byteAt_marker {i : ℕ} (h : window data p 5 = EOF_MARKER) (hi : i < 5) :
    byteAt data (p + i) = byteAt EOF_MARKER i := by
  rw [← h, byteAt_window, if_pos hi]

/-- Markers do not overlap, so the line end of one is not behind the start of the next. -/
theorem markers_apart (hp : window data p 5 = EOF_MARKER) (hq : window data q 5 = EOF_MARKER) (hlt : p < q) :
    p + 3 ≤ q := by
  have hthird := byteAt_marker hp (i := 2) (by decide)
  have hfirst := byteAt_marker hq (i := 0) (by decide)
  have hsecond := byteAt_marker hq (i := 1) (by decide)
  by_contra hnear
  obtain rfl | rfl : q = p + 1 ∨ q = p + 2 := by omega
  · rw [hthird] at hsecond
    exact absurd hsecond (by decide)
  · rw [hthird] at hfirst
    exact absurd hfirst (by decide)

theorem File.length_bytes (f : File) : f.bytes.length = f.lastMarker + 5 + f.last.lineEnd.length := by
  simp only [bytes, Part.bytes, lastMarker, List.length_append]
  change _ + (_ + 5 + _) = _
  omega

theorem File.window_lastMarker (f : File) : window f.bytes f.lastMarker 5 = EOF_MARKER := by
  have happend : window _ _ 5 = _ :=
    window_append (f.earlier.flatMap Part.bytes ++ f.last.body) EOF_MARKER f.last.lineEnd
  rw [List.length_append] at happend
  rw [bytes, Part.bytes, lastMarker]
  simpa only [List.append_assoc] using happend

end Markers

section Length

variable {b : Build} {src : Source} {fileStart scanEnd : ℕ}

theorem extent_eq : pdfSignature.extent = .footer EOF_MARKER 2 := by rw [← marker_eq]; rfl

theorem extentLength_footer (walk : Walker) (bufLen : ℕ) (marker : List UInt8) (trailing limit : ℕ) :
    extentLength (withFooter walk bufLen) b src fileStart limit (.footer marker trailing) =
      findFooter b src fileStart marker trailing limit bufLen := by
  simp only [extentLength, withFooter]

/-- The search for the marker, without a read that fails or an overflow. -/
theorem fileLength_pdf (walk : Walker) (bufLen : ℕ) (hrel : src.Reliable) (hstart : fileStart ≤ scanEnd)
    (hscan : scanEnd ≤ src.size) :
    fileLength (withFooter walk bufLen) b src pdfSignature fileStart scanEnd =
      .ok (plainFooter src.data fileStart EOF_MARKER 2 (min (fileStart + pdfSignature.maxSize) scanEnd)) := by
  have hsize : src.size < 2 ^ 63 := src.size_lt
  have hmax : pdfSignature.maxSize ≤ 2 ^ 40 := pdfSignature.wellFormed.maxSize_le
  have hlimit : min (fileStart + pdfSignature.maxSize) scanEnd < 2 ^ 63 :=
    (min_le_right _ _).trans_lt (hscan.trans_lt hsize)
  have hroom : fileStart ≤ min (fileStart + pdfSignature.maxSize) scanEnd := le_min (Nat.le_add_right _ _) hstart
  unfold fileLength
  rw [plus_eq ((Nat.add_le_add (hstart.trans hscan) hmax).trans_lt (by omega)), exec_ok_bind, extent_eq,
    extentLength_footer]
  generalize min (fileStart + pdfSignature.maxSize) scanEnd = limit at hlimit hroom ⊢
  have hlen : EOF_MARKER.length = 5 := rfl
  have hplain : PlainWhenFits b src fileStart EOF_MARKER 2 limit (findFooter b src fileStart EOF_MARKER 2 limit bufLen) :=
    findFooter_plain (by decide) (by decide) hroom bufLen
  obtain ⟨-, off, len, -, hoff, hfail⟩ | hiff := hplain
  · rw [hrel.readAt (hoff.trans hlimit)] at hfail
    cases hfail
  · refine hiff.mpr fun p hp => .inl ?_
    have hmem := List.mem_range'_1.mp (List.mem_of_find?_eq_some hp)
    omega

end Length

/-- A document is carved up to its last marker at least, exactly when no other marker comes
before it. -/
theorem pdf_whole_iff (walk : Walker) (bufLen : ℕ) (b : Build) (src : Source) (f : File) (fileStart scanEnd : ℕ)
    (hrel : src.Reliable) (hscan : scanEnd ≤ src.size) (h : Stored src fileStart f.bytes)
    (hfit : fileStart + f.bytes.length ≤ min (fileStart + pdfSignature.maxSize) scanEnd) :
    (∃ n, fileLength (withFooter walk bufLen) b src pdfSignature fileStart scanEnd = .ok (some n) ∧
      f.lastMarker + EOF_MARKER.length ≤ n) ↔
      ∀ i < f.lastMarker, window f.bytes i EOF_MARKER.length ≠ EOF_MARKER := by
  have hlen : EOF_MARKER.length = 5 := rfl
  have hbytes := f.length_bytes
  have hstart : fileStart ≤ scanEnd := (Nat.le_add_right _ _).trans (hfit.trans (min_le_right _ _))
  rw [fileLength_pdf walk bufLen hrel hstart hscan]
  generalize min (fileStart + pdfSignature.maxSize) scanEnd = limit at hfit ⊢
  have hlast : window src.data (fileStart + f.lastMarker) EOF_MARKER.length = EOF_MARKER := by
    rw [hlen, h.window_eq (by omega), f.window_lastMarker]
  obtain ⟨p, hfirst, hp, hle, hmarker⟩ := exists_firstMarker limit (Nat.le_add_right _ _)
    (show fileStart + f.lastMarker + EOF_MARKER.length ≤ limit by omega) hlast
  obtain ⟨i, rfl⟩ : ∃ i, p = fileStart + i := ⟨p - fileStart, by omega⟩
  rw [hlen] at hmarker ⊢
  rw [plainFooter, hfirst, Option.map_some, hlen]
  constructor
  · rintro ⟨n, hn, hreach⟩ j hj hwindow
    rw [Except.ok.injEq, Option.some.injEq] at hn
    have hends := lineEnds_le src.data (fileStart + i + 5) (min 2 (limit - (fileStart + i + 5)))
    have hother : window src.data (fileStart + j) EOF_MARKER.length = EOF_MARKER := by
      rw [hlen, h.window_eq (by omega), hwindow]
    obtain ⟨q, hq, -, hqle, -⟩ := exists_firstMarker limit (Nat.le_add_right fileStart j) (by omega) hother
    rw [hfirst, Option.some.injEq] at hq
    have hapart := markers_apart hmarker hlast (by omega)
    omega
  · intro hnone
    obtain rfl : i = f.lastMarker := by
      by_contra hne
      refine hnone i (by omega) ?_
      rw [← h.window_eq (by omega), hmarker]
    exact ⟨_, rfl, by omega⟩

section Sample

def sampleBody : List UInt8 := [0x25, 0x50, 0x44, 0x46, 0x2D, 0x31, 0x0A]

theorem lf_mem : [0x0A] ∈ ([[0x0D], [0x0A], [0x0D, 0x0A]] : List (List UInt8)) := by decide

theorem crlf_mem : [0x0D, 0x0A] ∈ ([[0x0D], [0x0A], [0x0D, 0x0A]] : List (List UInt8)) := by decide

theorem sample_header : ascii "%PDF" <+: [].flatMap Part.bytes ++ (Part.mk sampleBody [0x0A] lf_mem).bytes := by decide

def sampleFile : File where
  earlier := []
  last := ⟨sampleBody, [0x0A], lf_mem⟩
  header := sample_header

theorem length_sample_lt : (sampleFile.bytes ++ [0, 0]).length < 2 ^ 63 := by decide

def sampleSource : Source where
  data := sampleFile.bytes ++ [0, 0]
  size_lt := length_sample_lt

/-- No other extent is asked for. -/
def noWalk : Walker := fun _ _ _ _ _ => .ok none

theorem sample_pdf_whole :
    ∃ n, fileLength (withFooter noWalk 0) .debug sampleSource pdfSignature 0 15 = .ok (some n) ∧ 12 ≤ n := by
  have hrel : sampleSource.Reliable := fun _ _ => rfl
  have hstored : Stored sampleSource 0 sampleFile.bytes := List.prefix_append _ _
  have hlength : sampleFile.bytes.length = 13 := rfl
  have hfit : 0 + sampleFile.bytes.length ≤ min (0 + pdfSignature.maxSize) 15 := by
    rw [hlength]
    exact le_min (by decide) (by decide)
  exact (pdf_whole_iff noWalk 0 .debug sampleSource sampleFile 0 15 hrel (by decide) hstored hfit).mpr (by decide)

theorem updated_header : ascii "%PDF" <+: [Part.mk sampleBody [0x0A] lf_mem].flatMap Part.bytes ++
    (Part.mk [0x32, 0x20, 0x30] [0x0D, 0x0A] crlf_mem).bytes := by decide

/-- A document with an update behind it. -/
def updatedFile : File where
  earlier := [⟨sampleBody, [0x0A], lf_mem⟩]
  last := ⟨[0x32, 0x20, 0x30], [0x0D, 0x0A], crlf_mem⟩
  header := updated_header

theorem length_updated_lt : updatedFile.bytes.length < 2 ^ 63 := by decide

def updatedSource : Source where
  data := updatedFile.bytes
  size_lt := length_updated_lt

/-- Its length is found to be that of its first section. -/
theorem updated_cut : updatedSource.Reliable ∧ updatedFile.bytes.length = 23 ∧
    fileLength (withFooter noWalk 0) .debug updatedSource pdfSignature 0 23 = .ok (some 13) ∧
    13 < updatedFile.lastMarker := by
  refine ⟨fun _ _ => rfl, by decide, ?_, by decide⟩
  rw [fileLength_pdf noWalk 0 (fun _ _ => rfl) (by decide) (by decide)]
  have hlimit : min (0 + pdfSignature.maxSize) 23 = 23 := min_eq_right (by decide)
  rw [hlimit]
  decide

end Sample

end Unearth.Pdf
