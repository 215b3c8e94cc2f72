import Unearth.Lib.Hex
import Unearth.Lib.Utf16
import Unearth.LengthFields

/-!
# The two readers of a GUID partition table

`parseGptAt` lists the partitions of a table and `detectGptAt` looks for a volume at each of
them. Both check a header in the same way and read the same slots of its array; they part
where an entry names a sector whose offset is no word, and where nothing can be read.
-/

namespace Unearth.Gpt
open Lines Bytes Word Hex Utf16

/-- What a reader of a table has done: the offsets of the slots that it read, the starts of
its entries whose first sector is not zero, and what it returned. -/
structure Run (α : Type) where
  slots : List ℕ
  starts : List ℕ
  result : Exec (Option α)

namespace Run

variable {α : Type}

def stop (result : Exec (Option α)) : Run α := ⟨[], [], result⟩
def slot (off : ℕ) (r : Run α) : Run α := { r with slots := off :: r.slots }
def start (off : ℕ) (r : Run α) : Run α := { r with starts := off :: r.starts }

end Run

structure Partition where
  kind : Text
  name : Option Text
  uuid : Option Text
  start : ℕ
  size : ℕ
  attributes : List Text
  deriving DecidableEq

/-- An upper-case number with zeros in front. -/
def upperHex (width n : ℕ) : Text := pad width ((hex n).map Char.toUpper)

/-- The first three groups are stored in the other order. -/
def guidString (g : List UInt8) : Text :=
  upperHex 8 (le (window g 0 4)) ++ '-' :: (upperHex 4 (le (window g 4 2)) ++
    '-' :: (upperHex 4 (le (window g 6 2)) ++
    '-' :: ((window g 8 2).flatMap (fun x => upperHex 2 x.toNat) ++
    '-' :: (window g 10 6).flatMap fun x => upperHex 2 x.toNat)))

def allZero (g : List UInt8) : Bool := g.all (· = 0)

def nonZeroGuid (g : List UInt8) : Option Text := if allZero g then none else some (guidString g)

def gptTypeNames : List (String × String) := [
  ("C12A7328-F81F-11D2-BA4B-00A0C93EC93B", "EFI System"),
  ("21686148-6449-6E6F-744E-656564454649", "BIOS boot"),
  ("E3C9E316-0B5C-4DB8-817D-F92DF00215AE", "Microsoft reserved"),
  ("EBD0A0A2-B9E5-4433-87C0-68B6B72699C7", "Microsoft basic data"),
  ("DE94BBA4-06D1-4D40-A16A-BFD50179D6AC", "Windows recovery"),
  ("0FC63DAF-8483-4772-8E79-3D69D8477DE4", "Linux filesystem"),
  ("0657FD6D-A4AB-43C4-84E5-0933C84B4F4F", "Linux swap"),
  ("E6D6D379-F507-44C2-A23C-238F2A3DF928", "Linux LVM"),
  ("A19D880F-05FC-4D3B-A006-743F0F84911E", "Linux RAID"),
  ("933AC7E1-2EB4-4F13-B844-0E14E2AEF915", "Linux /home"),
  ("3B8F8425-20E0-4F3B-907F-1A25A76F98E8", "Linux /srv"),
  ("BC13C2FF-59E6-4262-A352-B275FD6F7172", "Linux extended boot"),
  ("4F68BCE3-E8CD-4DB1-96E7-FBCAF984B709", "Linux root (x86-64)"),
  ("B921B045-1DF0-41C3-AF44-4C6F280D3FAE", "Linux root (ARM64)"),
  ("CA7D7CCB-63ED-4C53-861C-1742536059CC", "Linux LUKS / dm-crypt"),
  ("8DA63339-0007-60C0-C436-083AC8230908", "Linux reserved"),
  ("AF9B60A0-1431-4F62-BC68-3311714A69AD", "Windows LDM data"),
  ("5808C8AA-7E8F-42E0-85D2-E1E90434CFB3", "Windows LDM metadata"),
  ("FE3A2A5D-4F32-41A7-B725-ACCC3285A309", "ChromeOS kernel"),
  ("3CB8E202-3B7E-47DD-8A3C-7FF2A13CFCEC", "ChromeOS root"),
  ("7C3457EF-0000-11AA-AA11-00306543ECAC", "Apple APFS"),
  ("48465300-0000-11AA-AA11-00306543ECAC", "Apple HFS+"),
  ("55465300-0000-11AA-AA11-00306543ECAC", "Apple UFS"),
  ("52414944-0000-11AA-AA11-00306543ECAC", "Apple RAID"),
  ("426F6F74-0000-11AA-AA11-00306543ECAC", "Apple boot (recovery)"),
  ("516E7CB4-6ECF-11D6-8FF8-00022D09712B", "FreeBSD data"),
  ("516E7CB5-6ECF-11D6-8FF8-00022D09712B", "FreeBSD swap"),
  ("516E7CB6-6ECF-11D6-8FF8-00022D09712B", "FreeBSD UFS"),
  ("83BD6B9D-7F41-11DC-BE0B-001560B84F0F", "FreeBSD boot")]

def gptTypeName (g : List UInt8) : Text :=
  let guid := guidString g
  match gptTypeNames.find? (·.1.toList = guid) with
  | some (_, name) => name.toList
  | none => guid

/-- The name up to its end, if there is one. -/
def gptName (raw : List UInt8) : Option Text :=
  let units := (unitsOf raw).takeWhile (· ≠ 0)
  if units = [] then none else some (fromUtf16Lossy units)

def gptAttributes (attr : ℕ) : List Text :=
  [(0, "required"), (1, "no-block-io"), (2, "legacy-bios-bootable"), (60, "read-only"),
    (62, "hidden"), (63, "no-automount")].filterMap fun (bit, name) =>
    if attr / 2 ^ bit % 2 = 1 then some name.toList else none

/-- The fields of a header that the readers use. -/
structure Header where
  signature : List UInt8
  diskGuid : List UInt8
  entryLba : ℕ
  numEntries : ℕ
  entrySize : ℕ

def Header.read (hdr : List UInt8) : Header where
  signature := window hdr 0 8
  diskGuid := window hdr 56 16
  entryLba := le (window hdr 72 8)
  numEntries := min (le (window hdr 80 4)) 1024
  entrySize := le (window hdr 84 4)

/-- The letters `EFI PART`. -/
def efiPart : List UInt8 := [0x45, 0x46, 0x49, 0x20, 0x50, 0x41, 0x52, 0x54]

def firstLba (entry : List UInt8) : ℕ := le (window entry 32 8)
def lastLba (entry : List UInt8) : ℕ := le (window entry 40 8)
def unused (entry : List UInt8) : Bool := allZero (window entry 0 16)

section Parse

variable (b : Build) (src : Source) (sectorSize entrySize arrayStart : ℕ)

/-- The partition of an entry, as far as it does not depend on its place. -/
def describe (entry : List UInt8) (start size : ℕ) : Partition where
  kind := gptTypeName (window entry 0 16)
  name := gptName (window entry 56 (min entrySize 128 - 56))
  uuid := nonZeroGuid (window entry 16 16)
  start
  size
  attributes := gptAttributes (le (window entry 48 8))

def parsePartition (entry : List UInt8) : Exec Partition := do
  let size ← times b (satAdd (lastLba entry - firstLba entry) 1) sectorSize
  let start ← times b (firstLba entry) sectorSize
  return describe entrySize entry start size

/-- The partitions of the `n` slots from the `i`-th one on. -/
def parseSlots : ℕ → ℕ → List Partition → Run (List Partition)
  | _, 0, partitions => .stop (.ok (some partitions))
  | i, n + 1, partitions =>
    match times b i entrySize >>= plus b arrayStart with
    | .error e => .stop (.error e)
    | .ok off => .slot off <|
      match src.readAt off entrySize with
      | .error _ => .stop (.ok none)
      | .ok entry =>
        if entry.length < entrySize then .stop (.ok (some partitions))
        else if unused entry then parseSlots (i + 1) n partitions
        else
          match parsePartition b sectorSize entrySize entry with
          | .error e => .stop (.error e)
          | .ok p =>
            let rest := parseSlots (i + 1) n (partitions ++ [p])
            if firstLba entry = 0 then rest else rest.start p.start

/-- The partitions of the table with a header at `hdrOff`, and the identifier of the disk. -/
def parseGptAt (hdrOff : ℕ) : Run (List Partition × Option Text) :=
  match src.readAt hdrOff 92 with
  | .error _ => .stop (.ok none)
  | .ok hdr =>
    let h := Header.read hdr
    if hdr.length < 92 ∨ h.signature ≠ efiPart then .stop (.ok none)
    else if h.entrySize < 128 ∨ 4096 < h.entrySize then .stop (.ok none)
    else
      match checkedMul h.entryLba sectorSize with
      | none => .stop (.ok none)
      | some arrayStart =>
        let r := parseSlots b src sectorSize h.entrySize arrayStart 0 h.numEntries []
        ⟨r.slots, r.starts, r.result.map (Option.map (·, nonZeroGuid h.diskGuid))⟩

end Parse

/-- What looks for a volume at an offset: nothing when a read fails there. -/
structure Prober (V : Type) where
  tryParse : ℕ → Option (Option V)
  offset : V → ℕ

section Detect

variable {V : Type} (prober : Prober V) (src : Source) (sectorSize entrySize arrayStart : ℕ)

def pushUnique (volumes : List V) (v : V) : List V :=
  if volumes.any (fun x => prober.offset x = prober.offset v) then volumes else volumes ++ [v]

/-- The volumes of the `n` slots from the `i`-th one on. -/
def detectSlots : ℕ → ℕ → List V → Run (List V)
  | _, 0, volumes => .stop (.ok (some volumes))
  | i, n + 1, volumes =>
    let off := satAdd arrayStart (satMul i entrySize)
    .slot off <|
      match src.readAt off entrySize with
      | .error e => .stop (.error e)
      | .ok entry =>
        if entry.length < entrySize then .stop (.ok (some volumes))
        else if unused entry then detectSlots (i + 1) n volumes
        else if firstLba entry = 0 then detectSlots (i + 1) n volumes
        else
          let start := satMul (firstLba entry) sectorSize
          .start start <|
            match prober.tryParse start with
            | none => .stop (.error .io)
            | some none => detectSlots (i + 1) n volumes
            | some (some v) => detectSlots (i + 1) n (pushUnique prober volumes v)

/-- The volumes of the table with a header at `hdrOff`. -/
def detectGptAt (hdrOff : ℕ) : Run (List V) :=
  match src.readAt hdrOff 92 with
  | .error e => .stop (.error e)
  | .ok hdr =>
    let h := Header.read hdr
    if hdr.length < 92 ∨ h.signature ≠ efiPart then .stop (.ok none)
    else if h.entrySize < 128 ∨ 4096 < h.entrySize then .stop (.ok none)
    else
      match checkedMul h.entryLba sectorSize with
      | none => .stop (.ok none)
      | some arrayStart => detectSlots prober src sectorSize h.entrySize arrayStart 0 h.numEntries []

end Detect

end Unearth.Gpt
