import Unearth.Lib.Lines
import Unearth.Lib.Bytes

/-!
# File-type signatures

A signature is a magic byte string, where it stands in the file, an optional second
tag, the strategy that finds the end of the file and the cap on its size. What every
signature promises, the built-in ones and the ones described at run time alike, is a
field of it.
-/

namespace Unearth
open Lines Bytes

/-- How the length of a file is found once its header is. -/
inductive Extent
  | footer (marker : List UInt8) (trailing : ℕ)
  | headerSizeLe32 (offset : ℕ)
  | headerSizeBe32 (offset : ℕ)
  | fixed (size : ℕ)
  | sizeField (offset width : ℕ) (bigEndian : Bool) (mul add : ℕ)
  | riffSize | formSize | sqlite | sevenZip | mp4Atoms | elf | pe | tiff | ebml | ogg | asf
  | wasm | icoCur | sfnt | midi | flv | pcap | pcapng | ttc | rar | zstd | lz4 | psd | wmf | djvu
  | evtx | rtf | mp3 | machO | regf | aac | dex | icc | ar | shp | blend | nes | gameboy | wad
  | au | genesis | voc | amr | psxExe | androidSparse | mp3Raw | jpeg | zip | gif | wim | swf
  | cfbf | pst | tar | cpio | squashfs | iso9660 | flic | wavPack | ape | appleSingle | sunRaster
  | dsf | dsdiff | pcf | uImage | quakePak | md2 | ivf | zim | gguf | bootImg | ktx2 | qoa
  | vendorBoot | npy | journal | unityFs | raf | vpk | las | godotPck | e57 | rf64 | nifti | usdc
  | avro | hdf5 | dds | astc | glb | erofs | ktx1 | exr | mcap | bsp | qoi | rpm | farbfeld | y4m
  | pvr | blp | grib2 | f2fs | btrfs | xfs | exfat | apfs | refs | ntfs | swap | romfs | cramfs
  | jfs | ufs | befs | hfsPlus | reiserfs | mpegts | mpegps | pdb | eps

def kb : ℕ := 1024
def mb : ℕ := 1024 * kb
def gb : ℕ := 1024 * mb

/-- The characters of an extension. -/
def extChar (c : Char) : Bool := c.isAlphanum || c == '_' || c == '-'

structure WellFormed (ext : Text) (magic : List UInt8) (magicOffset : ℕ)
    (secondary : Option (ℕ × List UInt8)) (maxSize : ℕ) : Prop where
  ext_ne : ext ≠ []
  ext_chars : ∀ c ∈ ext, extChar c
  magic_ne : magic ≠ []
  magicOffset_lt : magicOffset < 2 ^ 64
  secondary_lt : ∀ p ∈ secondary, p.1 < 2 ^ 64
  maxSize_pos : 0 < maxSize
  maxSize_le : maxSize ≤ 2 ^ 40

instance (ext : Text) (magic : List UInt8) (magicOffset : ℕ)
    (secondary : Option (ℕ × List UInt8)) (maxSize : ℕ) :
    Decidable (WellFormed ext magic magicOffset secondary maxSize) :=
  haveI : Decidable (∀ c ∈ ext, extChar c) := List.decidableBAll _ ext
  decidable_of_iff (ext ≠ [] ∧ (∀ c ∈ ext, extChar c) ∧ magic ≠ [] ∧ magicOffset < 2 ^ 64 ∧
      (∀ p ∈ secondary, p.1 < 2 ^ 64) ∧ 0 < maxSize ∧ maxSize ≤ 2 ^ 40)
    ⟨fun ⟨h₁, h₂, h₃, h₄, h₅, h₆, h₇⟩ => ⟨h₁, h₂, h₃, h₄, h₅, h₆, h₇⟩,
     fun h => ⟨h.1, h.2, h.3, h.4, h.5, h.6, h.7⟩⟩

structure Signature where
  ext : Text
  magic : List UInt8
  magicOffset : ℕ
  secondary : Option (ℕ × List UInt8)
  extent : Extent
  maxSize : ℕ
  wellFormed : WellFormed ext magic magicOffset secondary maxSize := by decide

inductive Category
  | image
  | audio
  | video
  | document
  | archive
  | executable
  | font
  | system
  | volume
  | other
  deriving DecidableEq

/-- The extensions of each category, in the order in which they are tried. -/
def categories : List (Category × List String) := [
  (.image, ["jpg", "png", "gif", "bmp", "tif", "webp", "heic", "avif", "jp2", "j2k", "jxl",
    "ico", "cur", "icns", "cr2", "cr3", "psd", "wmf", "emf", "djvu", "ani", "eps", "fli", "flc",
    "dpx", "cin", "mng", "jng", "ras", "ktx2", "raf", "nii", "dds", "astc", "ktx", "exr", "qoi",
    "ff", "pvr", "blp"]),
  (.audio, ["mp3", "aac", "wav", "aiff", "aifc", "ogg", "mid", "m4a", "au", "voc", "amr", "wv",
    "ape", "dsf", "dff", "sf2", "qoa", "rf64"]),
  (.video, ["mp4", "mov", "m4v", "3gp", "mkv", "avi", "flv", "asf", "ts", "mpg", "ivf", "y4m"]),
  (.document, ["pdf", "rtf", "docx", "xlsx", "pptx", "odt", "ods", "odp", "epub", "doc", "xls",
    "ppt", "msg", "pst", "ole"]),
  (.archive, ["zip", "7z", "rar", "cab", "ar", "tar", "cpio", "zst", "lz4", "jar", "pak", "zim",
    "unity3d", "vpk", "pck"]),
  (.executable, ["elf", "exe", "macho", "dex", "wasm", "apk", "msi", "pdb", "rpm"]),
  (.font, ["ttf", "otf", "woff", "woff2", "ttc", "pcf"]),
  (.system, ["regf", "evtx", "wim", "sqlite", "pcap", "pcapng", "squashfs", "iso", "uimage",
    "dtb", "trx", "img", "dtbo", "journal", "h5", "mcap"]),
  (.volume, ["erofs", "f2fs", "btrfs", "xfs", "exfat", "apfs", "refs", "ntfs", "swap", "romfs",
    "cramfs", "jfs", "ufs", "befs", "hfsplus", "reiserfs"])]

def categoryOf (ext : Text) : Category :=
  match categories.find? fun c => c.2.any (·.toList = ext) with
  | some c => c.1
  | none => .other

/-- A whole filesystem image, which hides nothing inside it. -/
def Signature.isVolume (sig : Signature) : Bool := categoryOf sig.ext = .volume

def ascii (s : String) : List UInt8 := s.toList.map fun c => UInt8.ofNat c.toNat

/-- Whether `needle` occurs in `head`. -/
def has (head needle : List UInt8) : Bool := head.tails.any fun t => needle.isPrefixOf t

def classifyZip (head : List UInt8) : Option Text :=
  if has head (ascii "application/epub+zip") then some "epub".toList
  else if has head (ascii "application/vnd.oasis.opendocument.text") then some "odt".toList
  else if has head (ascii "application/vnd.oasis.opendocument.spreadsheet") then some "ods".toList
  else if has head (ascii "application/vnd.oasis.opendocument.presentation") then some "odp".toList
  else if has head (ascii "AndroidManifest.xml") then some "apk".toList
  else if has head (ascii "word/document.xml") then some "docx".toList
  else if has head (ascii "xl/workbook.xml") then some "xlsx".toList
  else if has head (ascii "ppt/presentation.xml") then some "pptx".toList
  else if has head (ascii "META-INF/MANIFEST.MF") then some "jar".toList
  else none

def le (bytes : List UInt8) : ℕ := bytes.foldr (fun b n => b.toNat + 256 * n) 0
def be (bytes : List UInt8) : ℕ := bytes.foldl (fun n b => 256 * n + b.toNat) 0

/-- The class identifier of an installer database. -/
def msiClsid : List UInt8 :=
  [0x84, 0x10, 0x0C, 0x00, 0x00, 0x00, 0x00, 0x00, 0xC0, 0x00, 0x00, 0x00, 0x00, 0x00, 0x00, 0x46]

def rootClsidIs (head clsid : List UInt8) : Bool :=
  if head.length < 512 then false
  else match le (window head 30 2) with
    | 9 => check 512
    | 12 => check 4096
    | _ => false
where
  -- the products stay far below a word, so that the checked operators all succeed
  check (sectorSize : ℕ) : Bool :=
    let clsidOff := (le (window head 48 4) + 1) * sectorSize + 80
    clsidOff + 16 ≤ head.length && window head clsidOff 16 == clsid

/-- A stream name as it is stored: each letter followed by a zero. -/
def utf16 (name : String) : List UInt8 := (ascii name).flatMap fun b => [b, 0]

def classifyCfbf (head : List UInt8) : Option Text :=
  if rootClsidIs head msiClsid then some "msi".toList
  else if has head (utf16 "__substg1.0_") then some "msg".toList
  else if has head (utf16 "PowerPoint Document") then some "ppt".toList
  else if has head (utf16 "WordDocument") then some "doc".toList
  else if has head (utf16 "Workbook") || has head (utf16 "Book") then some "xls".toList
  else none

end Unearth
