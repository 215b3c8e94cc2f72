import Unearth.LengthFields
import Unearth.Volume

/-!
# The geometry of an exFAT volume

The boot sector gives the sizes of a sector and of a cluster as shifts. Their sum is
computed in a byte before it is compared with the bound, so that a build which does not
check sums accepts shifts that no word has.
-/

namespace Unearth.Exfat
open Lines Decimal Bytes Word

/-- A volume whose sectors and clusters are powers of two. -/
structure Volume where
  offset : ℕ
  bytesPerSector : ℕ
  sectorsPerCluster : ℕ
  fatOffsetSectors : ℕ
  clusterHeapOffsetSectors : ℕ
  clusterCount : ℕ
  rootCluster : ℕ
  volumeLengthSectors : ℕ
  sector_pow : ∃ k, 9 ≤ k ∧ k ≤ 12 ∧ bytesPerSector = 2 ^ k
  cluster_pow : ∃ k < 64, sectorsPerCluster = 2 ^ k

def isExfatVbr (s : List UInt8) : Bool :=
  11 ≤ s.length && window s 3 8 = [0x45, 0x58, 0x46, 0x41, 0x54, 0x20, 0x20, 0x20]

def bytesPerSectorShift (boot : List UInt8) : ℕ := (byteAt boot 108).toNat
def sectorsPerClusterShift (boot : List UInt8) : ℕ := (byteAt boot 109).toNat

theorem sector_pow_of_shift {b : Build} {n x : ℕ} (hn : 9 ≤ n ∧ n ≤ 12) (h : shiftLeft b 1 n = .ok x) :
    ∃ k, 9 ≤ k ∧ k ≤ 12 ∧ x = 2 ^ k := by
  rw [shiftLeft_one (by omega)] at h
  cases h
  exact ⟨n, hn.1, hn.2, rfl⟩

/-- The volume of a boot sector. -/
def Volume.ofBoot (b : Build) (boot : List UInt8) (offset : ℕ) : Exec (Except ParseError Volume) :=
  if isExfatVbr boot = false then return .error (atOffset "not an exFAT volume" offset)
  else if hsector : ¬ (9 ≤ bytesPerSectorShift boot ∧ bytesPerSectorShift boot ≤ 12) then
    return .error (.refused ("implausible exFAT bytes-per-sector shift ".toList ++
      decimal (bytesPerSectorShift boot)))
  else do
    let shift ← plus8 b (bytesPerSectorShift boot) (sectorsPerClusterShift boot)
    if 25 < shift then
      return .error (.refused ("implausible exFAT cluster size shift ".toList ++
        decimal (sectorsPerClusterShift boot)))
    else
      match hs : shiftLeft b 1 (bytesPerSectorShift boot) with
      | .error e => .error e
      | .ok bytesPerSector =>
        match hc : shiftLeft b 1 (sectorsPerClusterShift boot) with
        | .error e => .error e
        | .ok sectorsPerCluster => return .ok {
            offset
            bytesPerSector
            sectorsPerCluster
            fatOffsetSectors := le (window boot 80 4)
            clusterHeapOffsetSectors := le (window boot 88 4)
            clusterCount := le (window boot 92 4)
            rootCluster := le (window boot 96 4)
            volumeLengthSectors := le (window boot 72 8)
            sector_pow := sector_pow_of_shift (not_not.mp hsector) hs
            cluster_pow := shiftLeft_one_ok hc }

def Volume.parse (b : Build) (src : Source) (offset : ℕ) : Exec (Except ParseError Volume) :=
  match src.readAt offset 512 with
  | .error _ => return .error .io
  | .ok boot =>
    if boot.length < 512 then return .error (atOffset "could not read boot sector" offset)
    else Volume.ofBoot b boot offset

namespace Volume

def clusterBytes (b : Build) (v : Volume) : Exec ℕ := times b v.sectorsPerCluster v.bytesPerSector

def maxValidCluster (v : Volume) : ℕ := satAdd32 v.clusterCount 1

def size (v : Volume) : ℕ := satMul v.volumeLengthSectors v.bytesPerSector

def clusterOffset (v : Volume) (cluster : ℕ) : ℕ :=
  let sector := satAdd v.clusterHeapOffsetSectors (satMul (cluster - 2) v.sectorsPerCluster)
  satAdd v.offset (satMul sector v.bytesPerSector)

end Volume

section Geometry

variable {b : Build} {boot : List UInt8} {offset : ℕ} {v : Volume}

theorem Volume.ofBoot_offset (h : Volume.ofBoot b boot offset = .ok (.ok v)) : v.offset = offset := by
  unfold Volume.ofBoot at h
  split_ifs at h with hvbr hsector
  · cases h
  · obtain ⟨shift, -, h⟩ := exec_bind_ok h
    split_ifs at h
    · cases h
    · split at h
      · cases h
      · split at h
        · cases h
        · cases h
          rfl
  · cases h

theorem Volume.parse_offset {src : Source} (h : Volume.parse b src offset = .ok (.ok v)) :
    v.offset = offset := by
  unfold Volume.parse at h
  split at h
  · cases h
  · split_ifs at h
    · cases h
    · exact Volume.ofBoot_offset h

/-- The sectors and clusters of the volume have the sizes that the format allows. -/
structure Plausible (b : Build) (v : Volume) : Prop where
  sector : 512 ≤ v.bytesPerSector ∧ v.bytesPerSector ≤ 4096
  cluster : ∃ k, v.sectorsPerCluster = 2 ^ k
  bytes : v.clusterBytes b = .ok (v.sectorsPerCluster * v.bytesPerSector)
  bounds : v.bytesPerSector ≤ v.sectorsPerCluster * v.bytesPerSector ∧
    v.sectorsPerCluster * v.bytesPerSector ≤ 32 * 1024 * 1024

/-- The boot sector is refused, or gives a plausible volume. -/
structure Validated (b : Build) (src : Source) (offset : ℕ) : Prop where
  no_overflow : Volume.parse b src offset ≠ .error .overflow
  sensible : ∀ v, Volume.parse b src offset = .ok (.ok v) → Plausible b v

/-- The shifts of the boot sector do not leave a byte when they are added. -/
def ShiftsFit (boot : List UInt8) : Prop :=
  isExfatVbr boot = true → 9 ≤ bytesPerSectorShift boot → bytesPerSectorShift boot ≤ 12 →
    bytesPerSectorShift boot + sectorsPerClusterShift boot < 256

theorem ofBoot_wide (hvbr : isExfatVbr boot = true) (h9 : 9 ≤ bytesPerSectorShift boot)
    (h12 : bytesPerSectorShift boot ≤ 12)
    (hwide : 256 ≤ bytesPerSectorShift boot + sectorsPerClusterShift boot) :
    Volume.ofBoot .debug boot offset = .error .overflow := by
  unfold Volume.ofBoot
  rw [if_neg (by simp [hvbr]), dif_neg (not_not.mpr ⟨h9, h12⟩), plus8_debug hwide]
  rfl

/-- Shifts that add up to at most 25 give a cluster of at most 32 MiB. -/
theorem plausible_of_shifts {m n : ℕ} (hs : v.bytesPerSector = 2 ^ m) (hc : v.sectorsPerCluster = 2 ^ n)
    (h9 : 9 ≤ m) (h12 : m ≤ 12) (h25 : m + n ≤ 25) : Plausible b v := by
  have hbytes : v.sectorsPerCluster * v.bytesPerSector = 2 ^ (m + n) := by
    rw [hs, hc, pow_add, Nat.mul_comm]
  have hmax : 2 ^ (m + n) ≤ 2 ^ 25 := Nat.pow_le_pow_right (by decide) h25
  refine ⟨⟨?_, ?_⟩, ⟨n, hc⟩, times_eq ?_, ?_, ?_⟩
  · rw [hs]
    exact Nat.pow_le_pow_right (n := 2) (i := 9) (by decide) h9
  · rw [hs]
    exact Nat.pow_le_pow_right (n := 2) (j := 12) (by decide) h12
  · rw [hbytes]
    omega
  · rw [hbytes, hs]
    exact Nat.pow_le_pow_right (by decide) (Nat.le_add_right m n)
  · rw [hbytes]
    exact hmax

/-- What is refused has no sizes. -/
theorem refused_plausible (e : ParseError) :
    (.ok (.error e) : Exec (Except ParseError Volume)) ≠ .error .overflow ∧
    ∀ v, (.ok (.error e) : Exec (Except ParseError Volume)) = .ok (.ok v) → Plausible b v := by
  refine ⟨fun h => ?_, fun v h => ?_⟩
  · cases h
  · cases h

theorem ofBoot_fits (hfit : ShiftsFit boot) : Volume.ofBoot b boot offset ≠ .error .overflow ∧
    ∀ v, Volume.ofBoot b boot offset = .ok (.ok v) → Plausible b v := by
  unfold Volume.ofBoot
  by_cases hvbr : isExfatVbr boot = false
  · rw [if_pos hvbr]
    exact refused_plausible _
  rw [if_neg hvbr]
  by_cases hsector : ¬ (9 ≤ bytesPerSectorShift boot ∧ bytesPerSectorShift boot ≤ 12)
  · rw [dif_pos hsector]
    exact refused_plausible _
  rw [dif_neg hsector]
  obtain ⟨h9, h12⟩ := not_not.mp hsector
  have hsum := hfit (by simpa using hvbr) h9 h12
  rw [plus8_eq hsum]
  simp only [bind, Except.bind]
  by_cases hlarge : 25 < bytesPerSectorShift boot + sectorsPerClusterShift boot
  · rw [if_pos hlarge]
    exact refused_plausible _
  rw [if_neg hlarge]
  have hs := shiftLeft_one (b := b) (show bytesPerSectorShift boot < 64 by omega)
  have hc := shiftLeft_one (b := b) (show sectorsPerClusterShift boot < 64 by omega)
  split
  · rename_i he
    rw [hs] at he
    cases he
  rename_i bps hbps
  rw [hs] at hbps
  cases hbps
  split
  · rename_i he
    rw [hc] at he
    cases he
  rename_i spc hspc
  rw [hc] at hspc
  cases hspc
  refine ⟨nofun, fun v hv => ?_⟩
  cases hv
  exact plausible_of_shifts rfl rfl h9 h12 (by omega)

/-- A boot sector is validated exactly when its shifts can be added in a byte. -/
theorem exfat_geometry_iff (src : Source) (offset : ℕ) : (∀ b, Validated b src offset) ↔
    ∀ boot, src.readAt offset 512 = .ok boot → boot.length = 512 → ShiftsFit boot := by
  constructor
  · intro h boot hread hlen hvbr h9 h12
    by_contra hwide
    apply (h .debug).no_overflow
    unfold Volume.parse
    rw [hread]
    dsimp only
    rw [if_neg (by omega)]
    exact ofBoot_wide hvbr h9 h12 (by omega)
  · intro h b
    have hparse : Volume.parse b src offset ≠ .error .overflow ∧
        ∀ v, Volume.parse b src offset = .ok (.ok v) → Plausible b v := by
      unfold Volume.parse
      split
      · exact refused_plausible _
      rename_i boot hread
      by_cases hlen : boot.length < 512
      · rw [if_pos hlen]
        exact refused_plausible _
      rw [if_neg hlen]
      apply ofBoot_fits
      apply h boot hread
      have hle : (window src.data offset 512).length ≤ 512 := by
        rw [length_window]
        exact min_le_left _ _
      rw [← Source.readAt_ok hread] at hle
      omega
    exact ⟨hparse.1, hparse.2⟩

end Geometry

/-- A boot sector with shifts of 12 and 244. -/
def wrappingSource : Source where
  data := [0, 0, 0, 0x45, 0x58, 0x46, 0x41, 0x54, 0x20, 0x20, 0x20] ++ List.replicate 97 0 ++
    [12, 244] ++ List.replicate 402 0
  size_lt := by decide +kernel

/-- A build that checks sums stops at it, and one that does not accepts clusters of no bytes. -/
theorem wrapping_shifts_accepted : Volume.parse .debug wrappingSource 0 = .error .overflow ∧
    (∃ v, Volume.parse .release wrappingSource 0 = .ok (.ok v) ∧ v.bytesPerSector = 2 ^ 12 ∧
      v.sectorsPerCluster = 2 ^ 52 ∧ v.clusterBytes .release = .ok 0) ∧
    ¬ ∀ b, Validated b wrappingSource 0 := by
  have hboot : ∀ b, Volume.parse b wrappingSource 0 = Volume.ofBoot b wrappingSource.data 0 := by
    intro b
    have hread : wrappingSource.readAt 0 512 = .ok wrappingSource.data := by decide +kernel
    unfold Volume.parse
    rw [hread]
    exact if_neg (by decide +kernel)
  have hdebug : Volume.parse .debug wrappingSource 0 = .error .overflow := by
    rw [hboot]
    exact ofBoot_wide (by decide +kernel) (by decide +kernel) (by decide +kernel) (by decide +kernel)
  refine ⟨hdebug, ?_, fun h => (h .debug).no_overflow hdebug⟩
  rw [hboot]
  unfold Volume.ofBoot
  rw [if_neg (by decide +kernel), dif_neg (by decide +kernel)]
  exact ⟨_, rfl, by decide +kernel, by decide +kernel, by decide +kernel⟩

end Unearth.Exfat
