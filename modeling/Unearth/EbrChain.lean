import Unearth.Gpt

/-!
# The chain of the logical partitions

Each record of an extended partition holds a logical partition, at a place that is counted from the
record, and leads to the next record, at a place that is counted from the extended partition.
-/

namespace Unearth.Mbr
open Lines Bytes Word
open Gpt (Partition upperHex)

def mbrTypeName (t : UInt8) : Text :=
  if t = 0x07 then "NTFS / exFAT".toList
  else if t = 0x0B ∨ t = 0x0C then "FAT32".toList
  else if t = 0x04 ∨ t = 0x06 ∨ t = 0x0E then "FAT16".toList
  else if t = 0x01 then "FAT12".toList
  else if t = 0x05 ∨ t = 0x0F then "Extended".toList
  else if t = 0x82 then "Linux swap".toList
  else if t = 0x83 then "Linux".toList
  else if t = 0x8E then "Linux LVM".toList
  else if t = 0xFD then "Linux RAID".toList
  else if t = 0xAF then "Apple HFS+".toList
  else if t = 0xEE then "GPT protective".toList
  else if t = 0xEF then "EFI System".toList
  else "0x".toList ++ upperHex 2 t.toNat

def isExtendedMbr (kind : UInt8) : Bool := kind = 0x05 || kind = 0x0F || kind = 0x85

def maxLogical : ℕ := 256

/-- The records that were visited, in their order, and the partitions that have been found. -/
structure EbrWalk where
  visited : List ℕ
  out : List Partition

section Walk

variable (b : Build) (src : Source) (extBaseLba : ℕ)

/-- The logical partition of a record, if it has one. -/
def logicalAt (ebrLba : ℕ) (sec : List UInt8) : Exec (List Partition) := do
  let kind := byteAt sec 450
  let rel := le (window sec 454 4)
  let sectors := le (window sec 458 4)
  if kind = 0 ∨ sectors = 0 then return []
  else
    let start ← times b (satAdd ebrLba rel) 512
    let size ← times b sectors 512
    return [⟨mbrTypeName kind, none, none, start, size,
      if byteAt sec 446 = 0x80 then ["active".toList] else []⟩]

/-- The next record, if the second entry of a record leads to one. -/
def nextEbr (sec : List UInt8) : Option ℕ :=
  let nextRel := le (window sec 470 4)
  if isExtendedMbr (byteAt sec 466) = false ∨ nextRel = 0 then none else some (satAdd extBaseLba nextRel)

/-- At most `n` records, from one on. -/
def walkFrom : ℕ → ℕ → EbrWalk → Exec EbrWalk
  | 0, _, w => return w
  | n + 1, ebrLba, w =>
    if ebrLba ∈ w.visited then return w
    else
      let w := { w with visited := w.visited ++ [ebrLba] }
      match checkedMul ebrLba 512 with
      | none => return w
      | some off =>
        match src.readAt off 512 with
        | .error _ => return w
        | .ok sec =>
          if sec.length < 512 ∨ byteAt sec 510 ≠ 0x55 ∨ byteAt sec 511 ≠ 0xAA then return w
          else do
            let found ← logicalAt b ebrLba sec
            let w := { w with out := w.out ++ found }
            match nextEbr extBaseLba sec with
            | none => return w
            | some next => walkFrom n next w

def walkEbrChain (out : List Partition) : Exec EbrWalk := walkFrom b src extBaseLba maxLogical extBaseLba ⟨[], out⟩

end Walk

section Records

variable {b : Build} {src : Source} {base lba : ℕ} {sec : List UInt8}

/-- A record that can be read, with its signature. -/
structure Record (src : Source) (lba : ℕ) (sec : List UInt8) : Prop where
  read : src.readAt (lba * 512) 512 = .ok sec
  whole : sec.length = 512
  signature : byteAt sec 510 = 0x55 ∧ byteAt sec 511 = 0xAA

/-- The number of a record that can be read is far from the end of a word. -/
theorem Record.lba_lt (h : Record src lba sec) : lba < 2 ^ 54 := by
  have hread := h.read
  unfold Source.readAt at hread
  split_ifs at hread with hfar
  by_contra hlarge
  exact hfar ⟨by decide, .inl (by omega)⟩

/-- The partition that a record describes: its place is counted from the record. -/
def logicalOf (lba : ℕ) (sec : List UInt8) : Partition where
  kind := mbrTypeName (byteAt sec 450)
  name := none
  uuid := none
  start := (lba + le (window sec 454 4)) * 512
  size := le (window sec 458 4) * 512
  attributes := if byteAt sec 446 = 0x80 then ["active".toList] else []

theorem logicalAt_eq (b : Build) (h : Record src lba sec) : logicalAt b lba sec =
    .ok (if byteAt sec 450 = 0 ∨ le (window sec 458 4) = 0 then [] else [logicalOf lba sec]) := by
  have hlba := h.lba_lt
  have hrel := le_window_lt sec 454 4
  have hsectors := le_window_lt sec 458 4
  unfold logicalAt
  dsimp only
  by_cases hempty : byteAt sec 450 = 0 ∨ le (window sec 458 4) = 0
  · rw [if_pos hempty, if_pos hempty]
    rfl
  · rw [if_neg hempty, if_neg hempty, satAdd_eq (by omega), times_eq (by omega), exec_ok_bind, times_eq (by omega),
      exec_ok_bind]
    rfl

/-- What the walk does at a record that it has not seen. -/
theorem walkFrom_record (b : Build) (n : ℕ) {w : EbrWalk} (hnew : lba ∉ w.visited) (h : Record src lba sec) :
    walkFrom b src base (n + 1) lba w =
      let w : EbrWalk := ⟨w.visited ++ [lba],
        w.out ++ if byteAt sec 450 = 0 ∨ le (window sec 458 4) = 0 then [] else [logicalOf lba sec]⟩
      match nextEbr base sec with
      | none => .ok w
      | some next => walkFrom b src base n next w := by
  have hlba := h.lba_lt
  have hoff : checkedMul lba 512 = some (lba * 512) := if_pos (by omega)
  obtain ⟨h55, hAA⟩ := h.signature
  rw [walkFrom, if_neg hnew]
  dsimp only
  rw [hoff]
  dsimp only
  rw [h.read]
  dsimp only
  rw [if_neg (by simp [h.whole, h55, hAA]), logicalAt_eq b h, exec_ok_bind]
  cases nextEbr base sec <;> rfl

/-- Elsewhere the walk ends. -/
theorem walkFrom_no_record (b : Build) (n : ℕ) {w : EbrWalk} (hnew : lba ∉ w.visited)
    (h : ¬ ∃ sec, Record src lba sec) :
    walkFrom b src base (n + 1) lba w = .ok { w with visited := w.visited ++ [lba] } := by
  rw [walkFrom, if_neg hnew]
  dsimp only
  by_cases hoff : lba * 512 < 2 ^ 64
  · rw [checkedMul, if_pos hoff]
    dsimp only
    cases hread : src.readAt (lba * 512) 512 with
    | error e => rfl
    | ok sec =>
      dsimp only
      rw [if_pos]
      · rfl
      · by_contra hgood
        simp only [not_or, not_lt, not_not] at hgood
        have hle : sec.length ≤ 512 := by
          rw [Source.readAt_ok hread, length_window]
          exact min_le_left _ _
        exact h ⟨sec, hread, le_antisymm hle hgood.1, hgood.2⟩
  · rw [checkedMul, if_neg hoff]
    rfl

/-- A walk ends without an overflow, and it visits no record twice. -/
theorem walkFrom_visits (b : Build) (src : Source) (base n lba : ℕ) {w : EbrWalk} (hw : w.visited.Nodup) :
    ∃ w', walkFrom b src base n lba w = .ok w' ∧ w'.visited.Nodup ∧ w'.visited.length ≤ w.visited.length + n := by
  induction n generalizing lba w with
  | zero => exact ⟨w, rfl, hw, le_rfl⟩
  | succ n ih =>
    by_cases hseen : lba ∈ w.visited
    · rw [walkFrom, if_pos hseen]
      exact ⟨w, rfl, hw, by omega⟩
    have hnodup : (w.visited ++ [lba]).Nodup := by
      rw [List.nodup_append_comm]
      exact List.nodup_cons.mpr ⟨hseen, hw⟩
    by_cases hrecord : ∃ sec, Record src lba sec
    · obtain ⟨sec, hsec⟩ := hrecord
      rw [walkFrom_record b n hseen hsec]
      dsimp only
      cases nextEbr base sec with
      | none =>
        refine ⟨_, rfl, hnodup, ?_⟩
        rw [List.length_append, List.length_singleton]
        omega
      | some next =>
        obtain ⟨w', hw', hvisited, hlength⟩ := ih next (w := ⟨_, _⟩) hnodup
        refine ⟨w', hw', hvisited, ?_⟩
        rw [List.length_append, List.length_singleton] at hlength
        omega
    · rw [walkFrom_no_record b n hseen hrecord]
      refine ⟨_, rfl, hnodup, ?_⟩
      rw [List.length_append, List.length_singleton]
      omega

/-- A chain of records, each of which has one logical partition and leads to the next one. -/
inductive Chain (src : Source) (base : ℕ) : ℕ → List Partition → Prop
  | last {lba : ℕ} {sec : List UInt8} (record : Record src lba sec) (kind : byteAt sec 450 ≠ 0)
      (sectors : le (window sec 458 4) ≠ 0)
      (ends : isExtendedMbr (byteAt sec 466) = false ∨ le (window sec 470 4) = 0) :
      Chain src base lba [logicalOf lba sec]
  | link {lba : ℕ} {sec : List UInt8} {rest : List Partition} (record : Record src lba sec)
      (kind : byteAt sec 450 ≠ 0) (sectors : le (window sec 458 4) ≠ 0)
      (extended : isExtendedMbr (byteAt sec 466) = true) (linked : le (window sec 470 4) ≠ 0)
      (next : Chain src base (base + le (window sec 470 4)) rest) :
      Chain src base lba (logicalOf lba sec :: rest)

theorem Record.unique {sec' : List UInt8} (h : Record src lba sec) (h' : Record src lba sec') : sec = sec' :=
  Except.ok.inj (h.read.symm.trans h'.read)

/-- What is behind a record is determined by its place. -/
theorem Chain.length_unique {parts parts' : List Partition} (h : Chain src base lba parts)
    (h' : Chain src base lba parts') : parts.length = parts'.length := by
  induction h generalizing parts' with
  | last record kind sectors ends =>
    cases h' with
    | last => rfl
    | link record' _ _ extended linked _ =>
      cases record.unique record'
      rcases ends with hkind | hlinked
      · rw [extended] at hkind
        cases hkind
      · exact absurd hlinked linked
  | link record kind sectors extended linked next ih =>
    cases h' with
    | last record' _ _ ends =>
      cases record.unique record'
      rcases ends with hkind | hlinked
      · rw [extended] at hkind
        cases hkind
      · exact absurd hlinked linked
    | link record' _ _ _ _ next' =>
      cases record.unique record'
      rw [List.length_cons, List.length_cons, ih next']

/-- A chain that is no longer than the walk is walked to its end. The records that were visited
have more of the chain behind them, so that none of them comes again. -/
theorem Chain.walked (b : Build) {parts : List Partition} {n : ℕ} {w : EbrWalk} (h : Chain src base lba parts)
    (hn : parts.length ≤ n)
    (hvisited : ∀ seen ∈ w.visited, ∃ parts', Chain src base seen parts' ∧ parts.length < parts'.length) :
    ∃ w', walkFrom b src base n lba w = .ok w' ∧ w'.out = w.out ++ parts := by
  have hnew : ∀ {lba : ℕ} {parts : List Partition} {w : EbrWalk}, Chain src base lba parts →
      (∀ seen ∈ w.visited, ∃ parts', Chain src base seen parts' ∧ parts.length < parts'.length) →
      lba ∉ w.visited := by
    intro lba parts w h hvisited hmem
    obtain ⟨parts', h', hlt⟩ := hvisited lba hmem
    rw [h.length_unique h'] at hlt
    exact lt_irrefl _ hlt
  induction h generalizing n w with
  | last record kind sectors ends =>
    obtain ⟨n, rfl⟩ : ∃ k, n = k + 1 := ⟨n - 1, by rw [List.length_singleton] at hn; omega⟩
    rw [walkFrom_record b n (hnew (.last record kind sectors ends) hvisited) record]
    dsimp only
    rw [nextEbr, if_pos ends, if_neg (by simp [kind, sectors])]
    exact ⟨_, rfl, rfl⟩
  | @link lba sec rest record kind sectors extended linked next ih =>
    rw [List.length_cons] at hn
    obtain ⟨n, rfl⟩ : ∃ k, n = k + 1 := ⟨n - 1, by omega⟩
    have hplace : satAdd base (le (window sec 470 4)) = base + le (window sec 470 4) := by
      cases next with
      | last record' => exact satAdd_eq (record'.lba_lt.trans (by decide))
      | link record' => exact satAdd_eq (record'.lba_lt.trans (by decide))
    have hchain : Chain src base lba (logicalOf lba sec :: rest) :=
      .link record kind sectors extended linked next
    rw [walkFrom_record b n (hnew hchain hvisited) record]
    dsimp only
    rw [nextEbr, if_neg (by simp [extended, linked]), if_neg (by simp [kind, sectors]), hplace]
    dsimp only
    obtain ⟨w', hw', hout⟩ := ih (n := n) (w := ⟨w.visited ++ [lba], w.out ++ [logicalOf lba sec]⟩) (by omega) (by
      intro seen hseen
      rcases List.mem_append.mp hseen with hseen | hseen
      · obtain ⟨parts', h', hlt⟩ := hvisited seen hseen
        rw [List.length_cons] at hlt
        exact ⟨parts', h', by omega⟩
      · rw [List.mem_singleton.mp hseen]
        exact ⟨_, hchain, Nat.lt_succ_self _⟩)
    refine ⟨w', hw', ?_⟩
    rw [hout, List.append_assoc, List.singleton_append]

/-- The walk over an extended partition ends, visits no record twice, and finds the partitions of a
chain of at most 256 records in their order. -/
theorem ebr_chain_walked (b : Build) (src : Source) (base : ℕ) (out : List Partition) :
    (∃ w, walkEbrChain b src base out = .ok w ∧ w.visited.Nodup ∧ w.visited.length ≤ maxLogical) ∧
      ∀ parts, Chain src base base parts → parts.length ≤ maxLogical →
        ∃ w, walkEbrChain b src base out = .ok w ∧ w.out = out ++ parts := by
  constructor
  · obtain ⟨w, hw, hvisited, hlength⟩ := walkFrom_visits b src base maxLogical base (w := ⟨[], out⟩) List.nodup_nil
    exact ⟨w, hw, hvisited, by simpa using hlength⟩
  · intro parts hchain hlength
    exact hchain.walked b hlength fun seen hseen => (by cases hseen)

end Records

/-- A record of one logical partition of two sectors behind it, with a link of a kind. -/
def ebrSector (kind next : UInt8) : List UInt8 :=
  List.replicate 450 0 ++ [kind, 0, 0, 0, 1, 0, 0, 0, 2, 0, 0, 0, 0, 0, 0, 0, next, 0, 0, 0, 1, 0, 0, 0] ++
    List.replicate 36 0 ++ [0x55, 0xAA]

def twoRecords : Source where
  data := List.replicate 512 0 ++ ebrSector 0x83 0x05 ++ ebrSector 0x07 0
  size_lt := by decide +kernel

theorem twoRecords_chain : Chain twoRecords 1 1 [logicalOf 1 (ebrSector 0x83 0x05), logicalOf 2 (ebrSector 0x07 0)] := by
  have hfirst : Record twoRecords 1 (ebrSector 0x83 0x05) :=
    ⟨by decide +kernel, by decide +kernel, by decide +kernel⟩
  have hsecond : Record twoRecords 2 (ebrSector 0x07 0) := ⟨by decide +kernel, by decide +kernel, by decide +kernel⟩
  have hrel : le (window (ebrSector 0x83 0x05) 470 4) = 1 := by decide +kernel
  refine .link hfirst (by decide +kernel) (by decide +kernel) (by decide +kernel) (by decide +kernel) ?_
  rw [hrel]
  exact .last hsecond (by decide +kernel) (by decide +kernel) (.inl (by decide +kernel))

theorem two_records_walked : ∃ w, walkEbrChain .debug twoRecords 1 [] = .ok w ∧
    w.out = [logicalOf 1 (ebrSector 0x83 0x05), logicalOf 2 (ebrSector 0x07 0)] :=
  (ebr_chain_walked .debug twoRecords 1 []).2 _ twoRecords_chain (by decide)

end Unearth.Mbr
