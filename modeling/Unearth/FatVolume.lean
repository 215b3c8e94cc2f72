import Unearth.LengthFields
import Unearth.Volume

/-!
# The geometry of a FAT volume

The boot sector gives the sizes of the parts of the volume, out of which the number of its
clusters follows. Sums and products of its fields saturate; what is computed from the
number of clusters afterwards does not.
-/

namespace Unearth
open Bytes Word

namespace Fat

inductive FatType
  | fat12
  | fat16
  | fat32
  deriving DecidableEq

/-- The fields of the boot sector. -/
structure Bpb where
  bytesPerSector : ℕ
  sectorsPerCluster : ℕ
  reservedSectors : ℕ
  numFats : ℕ
  rootEntryCount : ℕ
  totalSectors16 : ℕ
  fatSize16 : ℕ
  totalSectors32 : ℕ
  fatSize32 : ℕ
  rootCluster : ℕ

def Bpb.read (s : List UInt8) : Bpb where
  bytesPerSector := le (window s 11 2)
  sectorsPerCluster := le (window s 13 1)
  reservedSectors := le (window s 14 2)
  numFats := le (window s 16 1)
  rootEntryCount := le (window s 17 2)
  totalSectors16 := le (window s 19 2)
  fatSize16 := le (window s 22 2)
  totalSectors32 := le (window s 32 4)
  fatSize32 := le (window s 36 4)
  rootCluster := le (window s 44 4)

def looksLikeFatVbr (s : List UInt8) : Bool :=
  let bps := le (window s 11 2)
  let spc := le (window s 13 1)
  let numFats := le (window s 16 1)
  (byteAt s 0 = 0xEB || byteAt s 0 = 0xE9) && (bps = 512 || bps = 1024 || bps = 2048 || bps = 4096) &&
    [1, 2, 4, 8, 16, 32, 64, 128].contains spc && (1 ≤ numFats && numFats ≤ 2)

namespace Bpb

variable (p : Bpb)

def fatSizeSectors : ℕ := if p.fatSize16 ≠ 0 then p.fatSize16 else p.fatSize32
def totalSectors : ℕ := if p.totalSectors16 ≠ 0 then p.totalSectors16 else p.totalSectors32
def rootDirSectors : ℕ := divCeil (satMul32 p.rootEntryCount 32) p.bytesPerSector
def fatRegion : ℕ := satMul32 p.numFats p.fatSizeSectors
def firstRootDirSector : ℕ := satAdd32 p.reservedSectors p.fatRegion
def firstDataSector : ℕ := satAdd32 p.firstRootDirSector p.rootDirSectors
def countOfClusters : ℕ := (p.totalSectors - p.firstDataSector) / p.sectorsPerCluster

end Bpb

def fatTypeOf (countOfClusters : ℕ) : FatType :=
  if countOfClusters < 4085 then .fat12
  else if countOfClusters < 65525 then .fat16
  else .fat32

/-- A volume whose data region begins inside of it. -/
structure Volume where
  offset : ℕ
  fatType : FatType
  bytesPerSector : ℕ
  sectorsPerCluster : ℕ
  reservedSectors : ℕ
  totalSectors : ℕ
  rootCluster : ℕ
  firstDataSector : ℕ
  firstRootDirSector : ℕ
  rootDirSectors : ℕ
  countOfClusters : ℕ
  fatSizeSectors : ℕ
  sector_pos : 0 < bytesPerSector
  cluster_pos : 0 < sectorsPerCluster
  clusters_le : firstDataSector + countOfClusters * sectorsPerCluster ≤ totalSectors

theorem Bpb.clusters_le {p : Bpb} (h : p.firstDataSector ≤ p.totalSectors) :
    p.firstDataSector + p.countOfClusters * p.sectorsPerCluster ≤ p.totalSectors := by
  have hdiv := Nat.div_mul_le_self (p.totalSectors - p.firstDataSector) p.sectorsPerCluster
  unfold countOfClusters
  omega

/-- The volume of a boot sector. -/
def Volume.ofBpb (p : Bpb) (offset : ℕ) : Except ParseError Volume :=
  if hzero : p.bytesPerSector = 0 ∨ p.sectorsPerCluster = 0 then
    .error (atOffset "invalid BPB (zero sector or cluster size)" offset)
  else if hdata : p.totalSectors < p.firstDataSector then
    .error (atOffset "invalid BPB (data region before first data sector)" offset)
  else .ok {
    offset
    fatType := fatTypeOf p.countOfClusters
    bytesPerSector := p.bytesPerSector
    sectorsPerCluster := p.sectorsPerCluster
    reservedSectors := p.reservedSectors
    totalSectors := p.totalSectors
    rootCluster := p.rootCluster
    firstDataSector := p.firstDataSector
    firstRootDirSector := p.firstRootDirSector
    rootDirSectors := p.rootDirSectors
    countOfClusters := p.countOfClusters
    fatSizeSectors := p.fatSizeSectors
    sector_pos := by omega
    cluster_pos := by omega
    clusters_le := p.clusters_le (not_lt.mp hdata) }

def Volume.parse (src : Source) (offset : ℕ) : Except ParseError Volume :=
  match src.readAt offset 512 with
  | .error _ => .error .io
  | .ok bpb =>
    if bpb.length < 512 then .error (atOffset "could not read boot sector" offset)
    else Volume.ofBpb (.read bpb) offset

namespace Volume

variable (b : Build) (v : Volume)

def clusterBytes : ℕ := v.sectorsPerCluster * v.bytesPerSector
def size : ℕ := v.totalSectors * v.bytesPerSector

def maxValidCluster : Exec ℕ := plus32 b v.countOfClusters 1

/-- One past the last cluster, where the walk over free clusters turns around. -/
def freeWalkEnd : Exec ℕ := do plus32 b (← v.maxValidCluster b) 1

def clusterOffset (cluster : ℕ) : Exec ℕ := do
  let index ← minus b cluster 2
  let sector ← plus b v.firstDataSector (← times b index v.sectorsPerCluster)
  plus b v.offset (← times b sector v.bytesPerSector)

end Volume

section Geometry

variable {src : Source} {offset : ℕ} {v : Volume}

theorem Volume.ofBpb_ok {p : Bpb} (h : Volume.ofBpb p offset = .ok v) :
    p.firstDataSector ≤ p.totalSectors ∧ v.offset = offset ∧
      v.bytesPerSector = p.bytesPerSector ∧ v.sectorsPerCluster = p.sectorsPerCluster ∧
      v.totalSectors = p.totalSectors ∧ v.firstDataSector = p.firstDataSector ∧
      v.countOfClusters = p.countOfClusters := by
  unfold Volume.ofBpb at h
  split_ifs at h with hzero hdata
  cases h
  exact ⟨not_lt.mp hdata, rfl, rfl, rfl, rfl, rfl, rfl⟩

theorem Volume.parse_ok (h : Volume.parse src offset = .ok v) :
    Volume.ofBpb (Bpb.read (window src.data offset 512)) offset = .ok v := by
  unfold Volume.parse at h
  split at h
  · cases h
  · rename_i bpb hbpb
    rw [Source.readAt_ok hbpb] at h
    split_ifs at h
    exact h

theorem Volume.parse_offset (h : Volume.parse src offset = .ok v) : v.offset = offset :=
  (Volume.ofBpb_ok (Volume.parse_ok h)).2.1

theorem Volume.parse_reservedSectors (h : Volume.parse src offset = .ok v) : v.reservedSectors < 2 ^ 16 := by
  have hp := Volume.parse_ok h
  unfold Volume.ofBpb at hp
  split_ifs at hp
  cases hp
  exact le_window_lt _ 14 2

theorem Volume.parse_offset_lt (h : Volume.parse src offset = .ok v) : offset < 2 ^ 63 := by
  unfold Volume.parse at h
  split at h
  · cases h
  · rename_i bpb hbpb
    unfold Source.readAt at hbpb
    split_ifs at hbpb with hread
    by_contra hlarge
    exact hread ⟨by decide, .inl (not_lt.mp hlarge)⟩

theorem Volume.parse_of_ofBpb (hfails : src.fails offset 512 = false) (hoffset : offset < 2 ^ 63)
    (hlen : (window src.data offset 512).length = 512)
    (h : Volume.ofBpb (Bpb.read (window src.data offset 512)) offset = .ok v) :
    Volume.parse src offset = .ok v := by
  have hread : src.readAt offset 512 = .ok (window src.data offset 512) := by
    rw [Source.readAt, if_neg]
    rintro ⟨-, hlarge | hfail⟩
    · omega
    · rw [hfails] at hfail
      cases hfail
  unfold Volume.parse
  rw [hread]
  exact (if_neg (by omega)).trans h

/-- The sectors before the data region, as the fields of the boot sector state them. -/
def Bpb.stated (p : Bpb) : ℕ :=
  p.reservedSectors + p.numFats * p.fatSizeSectors + divCeil (p.rootEntryCount * 32) p.bytesPerSector

/-- The clusters of the volume are as many as a word can count, and two short of it. -/
def Countable (p : Bpb) : Prop :=
  p.sectorsPerCluster = 1 → p.totalSectors < p.stated + (2 ^ 32 - 2)

/-- The numbers of the clusters are words, and each of them lies in the data region. -/
structure Overflowless (v : Volume) (b : Build) : Prop where
  last : v.maxValidCluster b = .ok (v.countOfClusters + 1)
  stop : v.freeWalkEnd b = .ok (v.countOfClusters + 2)
  inside : ∀ c, 2 ≤ c → c ≤ v.countOfClusters + 1 → ∃ start, v.clusterOffset b c = .ok start ∧
    v.offset + v.firstDataSector * v.bytesPerSector ≤ start ∧
    start + v.clusterBytes ≤ v.offset + v.size

theorem totalSectors_lt (s : List UInt8) : (Bpb.read s).totalSectors < 2 ^ 32 := by
  have h16 := le_window_lt s 19 2
  have h32 := le_window_lt s 32 4
  unfold Bpb.totalSectors
  split_ifs
  · exact h16.trans (by decide)
  · exact h32

/-- The saturated sum is the stated one, or a word at its end. -/
theorem firstDataSector_eq (s : List UInt8) :
    (Bpb.read s).firstDataSector = min (Bpb.read s).stated (2 ^ 32 - 1) := by
  have hroot : (Bpb.read s).rootEntryCount < 2 ^ 16 := le_window_lt s 17 2
  have hmul : satMul32 (Bpb.read s).rootEntryCount 32 = (Bpb.read s).rootEntryCount * 32 :=
    min_eq_left (by omega)
  unfold Bpb.firstDataSector Bpb.firstRootDirSector Bpb.fatRegion Bpb.rootDirSectors Bpb.stated
  rw [hmul]
  simp only [satAdd32, satMul32]
  omega

/-- The clusters can be counted exactly when their number stays three below a word. -/
theorem countable_iff {s : List UInt8} (hspc : 0 < (Bpb.read s).sectorsPerCluster)
    (hdata : (Bpb.read s).firstDataSector ≤ (Bpb.read s).totalSectors) :
    Countable (Bpb.read s) ↔ (Bpb.read s).countOfClusters + 2 < 2 ^ 32 := by
  have hle := (Bpb.read s).clusters_le hdata
  have htotal := totalSectors_lt s
  have hfirst := firstDataSector_eq s
  by_cases hone : (Bpb.read s).sectorsPerCluster = 1
  · have hcount : (Bpb.read s).countOfClusters =
        (Bpb.read s).totalSectors - (Bpb.read s).firstDataSector := by
      rw [Bpb.countOfClusters, hone, Nat.div_one]
    unfold Countable
    simp only [hone, true_imp_iff]
    omega
  · have htwo := Nat.mul_le_mul_left (Bpb.read s).countOfClusters
      (show 2 ≤ (Bpb.read s).sectorsPerCluster by omega)
    exact iff_of_true (fun h => absurd h hone) (by omega)

theorem clusterOffset_eq (b : Build) (hoffset : v.offset < 2 ^ 63) (hbps : v.bytesPerSector < 2 ^ 16)
    (htotal : v.totalSectors < 2 ^ 32) {c : ℕ} (hc2 : 2 ≤ c) (hc : c ≤ v.countOfClusters + 1) :
    v.clusterOffset b c =
        .ok (v.offset + (v.firstDataSector + (c - 2) * v.sectorsPerCluster) * v.bytesPerSector) ∧
      v.firstDataSector + (c - 2) * v.sectorsPerCluster + v.sectorsPerCluster ≤ v.totalSectors := by
  have hclusters := v.clusters_le
  have hindex := Nat.mul_le_mul_right v.sectorsPerCluster (show c - 2 + 1 ≤ v.countOfClusters by omega)
  rw [Nat.add_mul, Nat.one_mul] at hindex
  have hsector : v.firstDataSector + (c - 2) * v.sectorsPerCluster + v.sectorsPerCluster ≤
      v.totalSectors := by omega
  have hbytes := Nat.mul_le_mul_right v.bytesPerSector hsector
  have hsize : v.totalSectors * v.bytesPerSector ≤ 2 ^ 32 * 2 ^ 16 :=
    Nat.mul_le_mul (by omega) (by omega)
  rw [Nat.add_mul] at hbytes
  refine ⟨?_, hsector⟩
  unfold Volume.clusterOffset
  rw [minus_eq hc2]
  change times b (c - 2) v.sectorsPerCluster >>= _ = _
  rw [times_eq (by omega)]
  change plus b v.firstDataSector ((c - 2) * v.sectorsPerCluster) >>= _ = _
  rw [plus_eq (by omega)]
  change times b _ v.bytesPerSector >>= _ = _
  rw [times_eq (by omega)]
  exact plus_eq (by omega)

/-- Everything that is computed from the number of the clusters stays in its words, and the
clusters stay in the volume, exactly when the clusters can be counted. -/
theorem fat_geometry_iff (hparse : Volume.parse src offset = .ok v) (hoffset : offset < 2 ^ 62) :
    (∀ b, Overflowless v b) ↔ Countable (Bpb.read (window src.data offset 512)) := by
  obtain ⟨hdata, ho, hbps, hspc, htotal, hfirst, hcount⟩ :=
    Volume.ofBpb_ok (Volume.parse_ok hparse)
  have htotal_lt := totalSectors_lt (window src.data offset 512)
  have hspc_pos := v.cluster_pos
  have hbps_lt : v.bytesPerSector < 2 ^ 16 := by
    rw [hbps]
    exact le_window_lt _ 11 2
  rw [countable_iff (by omega) hdata, ← hcount]
  constructor
  · intro h
    have hlast := (h .debug).last
    have hstop := (h .debug).stop
    by_contra hlarge
    unfold Volume.freeWalkEnd at hstop
    rw [hlast] at hstop
    change plus32 .debug (v.countOfClusters + 1) 1 = _ at hstop
    rw [plus32_debug (by omega)] at hstop
    cases hstop
  · intro hsmall b
    have hlast : v.maxValidCluster b = .ok (v.countOfClusters + 1) := plus32_eq (by omega)
    refine ⟨hlast, ?_, fun c hc2 hc => ?_⟩
    · unfold Volume.freeWalkEnd
      rw [hlast]
      exact plus32_eq (by omega)
    · obtain ⟨hstart, hsector⟩ := clusterOffset_eq b (by omega) hbps_lt (by omega) hc2 hc
      have hbytes := Nat.mul_le_mul_right v.bytesPerSector hsector
      have hfirst_le := Nat.mul_le_mul_right v.bytesPerSector
        (Nat.le_add_right v.firstDataSector ((c - 2) * v.sectorsPerCluster))
      rw [Nat.add_mul] at hbytes
      refine ⟨_, hstart, by omega, ?_⟩
      unfold Volume.clusterBytes Volume.size
      omega

end Geometry

/-- A volume of clusters of one sector, without any space for tables. -/
def vastSector : List UInt8 :=
  [0xEB, 0, 0, 0, 0, 0, 0, 0, 0, 0, 0, 0, 2, 1, 0, 0, 1] ++ List.replicate 15 0 ++
    [0xFF, 0xFF, 0xFF, 0xFF] ++ List.replicate 476 0

def vastSource : Source where
  data := vastSector
  size_lt := by decide +kernel

/-- The boot sector is accepted, and the number of its last cluster is no word. -/
theorem vast_volume_overflows : looksLikeFatVbr (window vastSource.data 0 512) = true ∧
    ∃ v, Volume.parse vastSource 0 = .ok v ∧ v.maxValidCluster .debug = .error .overflow ∧
      v.maxValidCluster .release = .ok 0 ∧ ¬ ∀ b, Overflowless v b := by
  refine ⟨by decide +kernel, ?_⟩
  have hparse : ∃ v, Volume.ofBpb (Bpb.read (window vastSource.data 0 512)) 0 = .ok v ∧
      v.countOfClusters = 2 ^ 32 - 1 := by
    rw [Volume.ofBpb, dif_neg (by decide +kernel), dif_neg (by decide +kernel)]
    exact ⟨_, rfl, by decide +kernel⟩
  obtain ⟨v, hparse, hcount⟩ := hparse
  have hlast : v.maxValidCluster .debug = .error .overflow := plus32_debug (by omega)
  refine ⟨v, Volume.parse_of_ofBpb rfl (by decide) (by decide +kernel) hparse, hlast, ?_, fun h => ?_⟩
  · rw [Volume.maxValidCluster, hcount]
    rfl
  · rw [(h .debug).last] at hlast
    cases hlast

/-- A volume of 16 sectors, with two tables of one sector each. -/
def smallSource : Source where
  data := [0xEB, 0, 0, 0, 0, 0, 0, 0, 0, 0, 0, 0, 2, 1, 1, 0, 2, 16, 0, 16, 0, 0, 1, 0] ++
    List.replicate 488 0
  size_lt := by decide +kernel

theorem small_volume_fits :
    ∃ v, Volume.parse smallSource 0 = .ok v ∧ ∀ b, Overflowless v b := by
  have hparse : ∃ v, Volume.ofBpb (Bpb.read (window smallSource.data 0 512)) 0 = .ok v := by
    rw [Volume.ofBpb, dif_neg (by decide +kernel), dif_neg (by decide +kernel)]
    exact ⟨_, rfl⟩
  obtain ⟨v, hparse⟩ := hparse
  have hvolume := Volume.parse_of_ofBpb rfl (by decide) (by decide +kernel) hparse
  refine ⟨v, hvolume, (fat_geometry_iff hvolume (by decide)).mpr ?_⟩
  intro _
  decide +kernel

end Fat

end Unearth
