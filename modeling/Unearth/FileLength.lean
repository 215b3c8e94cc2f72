import Unearth.LengthRar
import Unearth.LengthTiff
import Unearth.SignatureTable

/-!
# The length of a file of a type

`fileLength` finds the length of a candidate by the strategy of its type. The limit is the
cap on the size of the type or the end of the scan, whichever comes first.
-/

namespace Unearth
open Bytes Word

/-- The strategies that are taken as they come. -/
abbrev Walker := Build → Source → Extent → ℕ → ℕ → Exec (Option ℕ)

section Dispatch

variable (walk : Walker) (b : Build) (src : Source) (sig : Signature) (fileStart scanEnd : ℕ)

def extentLength (limit : ℕ) : Extent → Exec (Option ℕ)
  | .headerSizeLe32 offset => headerSizeLength b src fileStart limit true offset
  | .headerSizeBe32 offset => headerSizeLength b src fileStart limit false offset
  | .fixed size => return fixedLength fileStart limit size
  | .sizeField offset width bigEndian mul add =>
    sizefieldLength src fileStart limit offset width bigEndian mul add
  | .riffSize => chunkLength b src fileStart limit true
  | .formSize => chunkLength b src fileStart limit false
  | .sqlite => sqliteLength b src fileStart limit
  | .sevenZip => sevenZipLength b src fileStart limit
  | .elf => elfLength b src fileStart limit
  | .rar => rarLength b src fileStart limit
  | .tiff => tiffLength b src fileStart limit
  | extent => walk b src extent fileStart limit

def fileLength : Exec (Option ℕ) := do
  let limit := min (← plus b fileStart sig.maxSize) scanEnd
  extentLength walk b src fileStart limit sig.extent

end Dispatch

/-- Every plain sum that the length of the file is compared with the limit by is a word. -/
def SumsFit (src : Source) (fileStart limit : ℕ) : Extent → Prop
  | .sevenZip => ∀ hdr, header src fileStart 32 32 = .ok (some hdr) →
      ∀ n ∈ sevenZipSize hdr, fileStart + n < 2 ^ 64
  | .elf => ∀ hdr, header src fileStart 64 52 = .ok (some hdr) →
      ∀ n ∈ elfSize hdr, fileStart + n < 2 ^ 64
  | .rar => ∀ sig, src.readAt fileStart 8 = .ok sig → markerVersion sig = some .v5 →
      ChainFits (rarReader src fileStart .v5) fileStart limit 8
  | .tiff => ∀ hdr t first, src.readAt fileStart 8 = .ok hdr → 8 ≤ hdr.length →
      tiffReader src fileStart limit hdr = some t → t.bigHeader .debug = .ok true →
        t.firstIfd .debug = .ok (some first) → TiffFits t first
  | _ => True

section Window

variable {walk : Walker} {src : Source} {sig : Signature} {fileStart scanEnd : ℕ}

/-- For the four formats with sums of 64-bit fields, a length stays in the window of the
scan exactly when these sums do not overflow. -/
theorem fileLength_inside_iff
    (hext : sig.extent = .sevenZip ∨ sig.extent = .elf ∨ sig.extent = .tiff ∨ sig.extent = .rar)
    (hstart : fileStart < scanEnd) (hend : scanEnd ≤ src.size) :
    Inside fileStart (min (fileStart + sig.maxSize) scanEnd)
      (fun b => fileLength walk b src sig fileStart scanEnd) ↔
      SumsFit src fileStart (min (fileStart + sig.maxSize) scanEnd) sig.extent := by
  have hsize : src.size < 2 ^ 63 := src.size_lt
  have hpos := sig.wellFormed.maxSize_pos
  have hmax := sig.wellFormed.maxSize_le
  have hplus : ∀ b, plus b fileStart sig.maxSize = .ok (fileStart + sig.maxSize) := by
    intro b
    apply plus_eq
    omega
  simp only [fileLength, hplus, bind, Except.bind]
  rcases hext with he | he | he | he
  · rw [he]
    exact inside_headerLength_iff fun _ _ => sevenZipSize_pos
  · rw [he]
    exact inside_headerLength_iff fun _ _ => elfSize_pos
  · rw [he]
    apply inside_tiffLength_iff
    · exact lt_min (by omega) hstart
    · exact (min_le_right _ _).trans_lt (by omega)
  · rw [he]
    apply inside_rarLength_iff
    · omega
    · exact (min_le_right _ _).trans_lt (by omega)

end Window

/-- A 7z archive one byte into the source, whose next header is said to end 2^64 - 1 bytes
behind its start. -/
def wrappingSource : Source where
  data := [0, 0x37, 0x7A, 0xBC, 0xAF, 0x27, 0x1C, 0, 4, 0, 0, 0, 0, 0xDF, 0xFF, 0xFF, 0xFF, 0xFF,
    0xFF, 0xFF, 0xFF] ++ List.replicate 12 0
  size_lt := by decide

theorem sevenZip_wellFormed :
    WellFormed "7z".toList [0x37, 0x7A, 0xBC, 0xAF, 0x27, 0x1C] 0 none (4 * gb) := by decide

def sevenZipSignature : Signature :=
  .mk "7z".toList [0x37, 0x7A, 0xBC, 0xAF, 0x27, 0x1C] 0 none .sevenZip (4 * gb) sevenZip_wellFormed

/-- The length of the archive ends behind the source in a release build, and stops any other. -/
theorem wrapping_length :
    sevenZipSignature ∈ signatures ∧ ∀ walk : Walker,
      fileLength walk .release wrappingSource sevenZipSignature 1 33 = .ok (some (2 ^ 64 - 1)) ∧
      fileLength walk .debug wrappingSource sevenZipSignature 1 33 = .error .overflow ∧
      ¬ Inside 1 (min (1 + sevenZipSignature.maxSize) 33)
        (fun b => fileLength walk b wrappingSource sevenZipSignature 1 33) := by
  have htable : signatures[17]? = some sevenZipSignature := rfl
  refine ⟨List.mem_of_getElem? htable, fun walk => ?_⟩
  have hrelease : fileLength walk .release wrappingSource sevenZipSignature 1 33 =
      .ok (some (2 ^ 64 - 1)) := rfl
  have hdebug : fileLength walk .debug wrappingSource sevenZipSignature 1 33 =
      .error .overflow := rfl
  exact ⟨hrelease, hdebug, fun h => h.1 hdebug⟩

/-- The same archive, whose next header ends 40 bytes behind its start. -/
def archiveSource : Source where
  data := [0, 0x37, 0x7A, 0xBC, 0xAF, 0x27, 0x1C, 0, 4, 0, 0, 0, 0, 7, 0, 0, 0, 0, 0, 0, 0,
    1] ++ List.replicate 19 0
  size_lt := by decide

theorem archive_inside :
    Inside 1 (min (1 + sevenZipSignature.maxSize) 41)
      (fun b => fileLength (fun _ _ _ _ _ => .ok none) b archiveSource sevenZipSignature 1 41) := by
  apply (fileLength_inside_iff (.inl rfl) (by decide) (by decide)).mpr
  intro hdr hh n hn
  have hread : header archiveSource 1 32 32 = .ok (some (window archiveSource.data 1 32)) := rfl
  have hsize : sevenZipSize (window archiveSource.data 1 32) = some 40 := rfl
  rw [hread] at hh
  cases hh
  rw [hsize] at hn
  cases hn
  decide

end Unearth
