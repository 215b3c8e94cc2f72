import Unearth.Gpt

/-!
# When the two readers of a table agree

What is in the slots of a table is read off without bounds on the numbers. Both readers do
what it says exactly when the entries lead to offsets that are words and can be looked at.
-/

namespace Unearth.Gpt
open Lines Bytes Word

/-- The slots that are read, the used ones among them, and whether the last could be read. -/
structure Walked where
  slots : List ℕ
  entries : List (List UInt8)
  failed : Bool

section Spec

variable (src : Source) (sectorSize entrySize arrayStart : ℕ)

def walkSlots : ℕ → ℕ → Walked
  | _, 0 => ⟨[], [], false⟩
  | i, n + 1 =>
    let off := arrayStart + i * entrySize
    match src.readAt off entrySize with
    | .error _ => ⟨[off], [], true⟩
    | .ok entry =>
      if entry.length < entrySize then ⟨[off], [], false⟩
      else
        let rest := walkSlots (i + 1) n
        ⟨off :: rest.slots, if unused entry then rest.entries else entry :: rest.entries, rest.failed⟩

/-- The header that both readers accept at an offset, and the start of its array. -/
def accepted (hdrOff : ℕ) : Option (Header × ℕ) :=
  match src.readAt hdrOff 92 with
  | .error _ => none
  | .ok hdr =>
    let h := Header.read hdr
    if hdr.length < 92 ∨ h.signature ≠ efiPart ∨ h.entrySize < 128 ∨ 4096 < h.entrySize then none
    else (checkedMul h.entryLba sectorSize).map (h, ·)

/-- What is in the slots of the table with a header at an offset. -/
def walked (hdrOff : ℕ) : Walked :=
  match accepted src sectorSize hdrOff with
  | none => ⟨[], [], false⟩
  | some (h, arrayStart) => walkSlots src h.entrySize arrayStart 0 h.numEntries

/-- The start and the size of an entry are words. -/
def EntryFits (entry : List UInt8) : Prop :=
  firstLba entry * sectorSize < 2 ^ 64 ∧
    satAdd (lastLba entry - firstLba entry) 1 * sectorSize < 2 ^ 64

/-- No read fails where a volume is looked for. -/
def Probed {V : Type} (prober : Prober V) (entry : List UInt8) : Prop :=
  firstLba entry = 0 ∨ prober.tryParse (firstLba entry * sectorSize) ≠ none

/-- The starts of the entries whose first sector is not zero. -/
def startsOf (entries : List (List UInt8)) : List ℕ :=
  (entries.filter (firstLba · ≠ 0)).map (firstLba · * sectorSize)

def partitionOf (entry : List UInt8) : Partition :=
  describe entrySize entry (firstLba entry * sectorSize)
    (satAdd (lastLba entry - firstLba entry) 1 * sectorSize)

end Spec

section Slots

variable {b : Build} {src : Source} {sectorSize entrySize arrayStart : ℕ}

theorem parsePartition_fits {entry : List UInt8} (h : EntryFits sectorSize entry) :
    parsePartition b sectorSize entrySize entry = .ok (partitionOf sectorSize entrySize entry) := by
  unfold parsePartition
  rw [times_eq h.2]
  change times b (firstLba entry) sectorSize >>= _ = _
  rw [times_eq h.1]
  rfl

theorem parsePartition_wide {entry : List UInt8} (h : ¬ EntryFits sectorSize entry) :
    parsePartition .debug sectorSize entrySize entry = .error .overflow := by
  unfold parsePartition
  by_cases hsize : satAdd (lastLba entry - firstLba entry) 1 * sectorSize < 2 ^ 64
  · rw [times_eq hsize]
    change times .debug (firstLba entry) sectorSize >>= _ = _
    rw [times, if_neg fun hstart => h ⟨hstart, hsize⟩]
    rfl
  · rw [times, if_neg hsize]
    rfl

theorem slotOffset_eq {i : ℕ} (h : arrayStart + i * entrySize < 2 ^ 64) :
    (times b i entrySize >>= plus b arrayStart) = .ok (arrayStart + i * entrySize) := by
  rw [times_eq (by omega)]
  exact plus_eq h

theorem startsOf_cons (entry : List UInt8) (entries : List (List UInt8)) :
    startsOf sectorSize (entry :: entries) =
      if firstLba entry = 0 then startsOf sectorSize entries
      else firstLba entry * sectorSize :: startsOf sectorSize entries := by
  unfold startsOf
  by_cases h : firstLba entry = 0
  · rw [if_pos h, List.filter_cons_of_neg (by simpa using h)]
  · rw [if_neg h, List.filter_cons_of_pos (by simpa using h), List.map_cons]

/-- The offsets of the first slot and of all the others are words. -/
theorem slots_near {i n : ℕ} (h : arrayStart + (i + (n + 1)) * entrySize < 2 ^ 64) :
    arrayStart + i * entrySize < 2 ^ 64 ∧ arrayStart + (i + 1 + n) * entrySize < 2 ^ 64 := by
  have hle := Nat.mul_le_mul_right entrySize (show i ≤ i + (n + 1) by omega)
  refine ⟨by omega, ?_⟩
  rwa [show i + 1 + n = i + (n + 1) by omega]

/-- One slot more has been read, with at most one entry. -/
def Walked.pass (w : Walked) (off : ℕ) (entry : List (List UInt8)) : Walked :=
  ⟨off :: w.slots, entry ++ w.entries, w.failed⟩

/-- What a reader meets in a slot. -/
inductive Slot
  | unreadable
  | cut
  | free
  | used (entry : List UInt8)

def slotAt (src : Source) (entrySize off : ℕ) : Slot :=
  match src.readAt off entrySize with
  | .error _ => .unreadable
  | .ok entry =>
    if entry.length < entrySize then .cut else if unused entry then .free else .used entry

theorem walkSlots_succ (src : Source) (entrySize arrayStart i n : ℕ) :
    walkSlots src entrySize arrayStart i (n + 1) =
      match slotAt src entrySize (arrayStart + i * entrySize) with
      | .unreadable => ⟨[arrayStart + i * entrySize], [], true⟩
      | .cut => ⟨[arrayStart + i * entrySize], [], false⟩
      | .free => (walkSlots src entrySize arrayStart (i + 1) n).pass (arrayStart + i * entrySize) []
      | .used entry =>
        (walkSlots src entrySize arrayStart (i + 1) n).pass (arrayStart + i * entrySize) [entry] := by
  unfold slotAt
  rw [walkSlots]
  dsimp only
  cases src.readAt (arrayStart + i * entrySize) entrySize with
  | error e => rfl
  | ok entry =>
    dsimp only
    by_cases hshort : entry.length < entrySize
    · rw [if_pos hshort, if_pos hshort]
    rw [if_neg hshort, if_neg hshort]
    cases unused entry with
    | false => rfl
    | true => rfl

theorem parseSlots_succ {i : ℕ} (n : ℕ) (partitions : List Partition)
    (hslot : arrayStart + i * entrySize < 2 ^ 64) :
    parseSlots b src sectorSize entrySize arrayStart i (n + 1) partitions =
      .slot (arrayStart + i * entrySize) (match slotAt src entrySize (arrayStart + i * entrySize) with
      | .unreadable => .stop (.ok none)
      | .cut => .stop (.ok (some partitions))
      | .free => parseSlots b src sectorSize entrySize arrayStart (i + 1) n partitions
      | .used entry =>
        match parsePartition b sectorSize entrySize entry with
        | .error e => .stop (.error e)
        | .ok p =>
          let rest := parseSlots b src sectorSize entrySize arrayStart (i + 1) n (partitions ++ [p])
          if firstLba entry = 0 then rest else rest.start p.start) := by
  unfold slotAt
  rw [parseSlots, slotOffset_eq hslot]
  dsimp only
  cases src.readAt (arrayStart + i * entrySize) entrySize with
  | error e => rfl
  | ok entry =>
    dsimp only
    by_cases hshort : entry.length < entrySize
    · rw [if_pos hshort, if_pos hshort]
    rw [if_neg hshort, if_neg hshort]
    cases unused entry with
    | false => rfl
    | true => rfl

/-- Entries that fit are listed, unless a slot cannot be read. -/
theorem parseSlots_fits {i n : ℕ} {partitions : List Partition}
    (hoff : arrayStart + (i + n) * entrySize < 2 ^ 64)
    (h : ∀ e ∈ (walkSlots src entrySize arrayStart i n).entries, EntryFits sectorSize e) :
    parseSlots b src sectorSize entrySize arrayStart i n partitions =
      let w := walkSlots src entrySize arrayStart i n
      ⟨w.slots, startsOf sectorSize w.entries,
        .ok (if w.failed then none
          else some (partitions ++ w.entries.map (partitionOf sectorSize entrySize)))⟩ := by
  induction n generalizing i partitions with
  | zero => simp [parseSlots, walkSlots, Run.stop, startsOf]
  | succ n ih =>
    obtain ⟨hslot, hnext⟩ := slots_near hoff
    rw [parseSlots_succ n partitions hslot]
    rw [walkSlots_succ] at h ⊢
    cases hat : slotAt src entrySize (arrayStart + i * entrySize) with
    | unreadable => rfl
    | cut => simp [Run.stop, Run.slot, startsOf]
    | free =>
      rw [hat] at h
      dsimp only [Walked.pass] at h ⊢
      rw [ih hnext h]
      rfl
    | used entry =>
      rw [hat] at h
      dsimp only [Walked.pass, List.cons_append, List.nil_append] at h ⊢
      rw [parsePartition_fits (h entry (List.mem_cons_self ..))]
      dsimp only
      rw [ih hnext fun e he => h e (List.mem_cons_of_mem _ he), startsOf_cons]
      by_cases hfirst : firstLba entry = 0
      · simp [hfirst, Run.slot]
      · simp [hfirst, Run.slot, Run.start, partitionOf, describe]

/-- An entry whose start or size is no word stops a build that checks products. -/
theorem parseSlots_wide {i n : ℕ} (partitions : List Partition)
    (hoff : arrayStart + (i + n) * entrySize < 2 ^ 64)
    (h : ¬ ∀ e ∈ (walkSlots src entrySize arrayStart i n).entries, EntryFits sectorSize e) :
    (parseSlots .debug src sectorSize entrySize arrayStart i n partitions).result =
      .error .overflow := by
  induction n generalizing i partitions with
  | zero =>
    exfalso
    exact h nofun
  | succ n ih =>
    obtain ⟨hslot, hnext⟩ := slots_near hoff
    rw [parseSlots_succ n partitions hslot]
    rw [walkSlots_succ] at h
    cases hat : slotAt src entrySize (arrayStart + i * entrySize) with
    | unreadable =>
      rw [hat] at h
      exact absurd nofun h
    | cut =>
      rw [hat] at h
      exact absurd nofun h
    | free =>
      rw [hat] at h
      exact ih partitions hnext h
    | used entry =>
      rw [hat] at h
      dsimp only at h ⊢
      by_cases hfits : EntryFits sectorSize entry
      · rw [parsePartition_fits hfits]
        have hrest : ¬ ∀ e ∈ (walkSlots src entrySize arrayStart (i + 1) n).entries,
            EntryFits sectorSize e := by
          intro hall
          exact h (List.forall_mem_cons.mpr ⟨hfits, hall⟩)
        have hresult := ih (partitions ++ [partitionOf sectorSize entrySize entry]) hnext hrest
        dsimp only
        by_cases hfirst : firstLba entry = 0
        · rw [if_pos hfirst]
          exact hresult
        · rw [if_neg hfirst]
          exact hresult
      · rw [parsePartition_wide hfits]
        rfl

variable {V : Type} {prober : Prober V}

theorem satOffset_eq {i : ℕ} (h : arrayStart + i * entrySize < 2 ^ 64) :
    satAdd arrayStart (satMul i entrySize) = arrayStart + i * entrySize := by
  simp only [satAdd, satMul]
  omega

/-- A slot of a table whose entries fit. -/
theorem detectSlots_succ {i : ℕ} (n : ℕ) (volumes : List V)
    (hslot : arrayStart + i * entrySize < 2 ^ 64) :
    detectSlots prober src sectorSize entrySize arrayStart i (n + 1) volumes =
      .slot (arrayStart + i * entrySize) (match slotAt src entrySize (arrayStart + i * entrySize) with
      | .unreadable => .stop (.error .io)
      | .cut => .stop (.ok (some volumes))
      | .free => detectSlots prober src sectorSize entrySize arrayStart (i + 1) n volumes
      | .used entry =>
        if firstLba entry = 0 then
          detectSlots prober src sectorSize entrySize arrayStart (i + 1) n volumes
        else .start (satMul (firstLba entry) sectorSize) <|
          match prober.tryParse (satMul (firstLba entry) sectorSize) with
          | none => .stop (.error .io)
          | some none => detectSlots prober src sectorSize entrySize arrayStart (i + 1) n volumes
          | some (some v) => detectSlots prober src sectorSize entrySize arrayStart (i + 1) n
              (pushUnique prober volumes v)) := by
  unfold slotAt
  rw [detectSlots, satOffset_eq hslot]
  cases hread : src.readAt (arrayStart + i * entrySize) entrySize with
  | error e =>
    rw [Source.readAt_error hread]
  | ok entry =>
    dsimp only
    by_cases hshort : entry.length < entrySize
    · rw [if_pos hshort, if_pos hshort]
    rw [if_neg hshort, if_neg hshort]
    cases unused entry with
    | false => rfl
    | true => rfl

/-- Past an entry that fits and can be looked at, the search goes on with the next slot. -/
theorem detectSlots_used {i : ℕ} (n : ℕ) (volumes : List V) {entry : List UInt8}
    (hslot : arrayStart + i * entrySize < 2 ^ 64)
    (hat : slotAt src entrySize (arrayStart + i * entrySize) = .used entry)
    (hfits : EntryFits sectorSize entry) (hprobed : Probed sectorSize prober entry) :
    ∃ volumes', detectSlots prober src sectorSize entrySize arrayStart i (n + 1) volumes =
      .slot (arrayStart + i * entrySize)
        (let rest := detectSlots prober src sectorSize entrySize arrayStart (i + 1) n volumes'
        if firstLba entry = 0 then rest else rest.start (firstLba entry * sectorSize)) := by
  rw [detectSlots_succ n volumes hslot, hat]
  dsimp only
  by_cases hfirst : firstLba entry = 0
  · rw [if_pos hfirst]
    exact ⟨volumes, by rw [if_pos hfirst]⟩
  · simp only [if_neg hfirst]
    rw [satMul_eq hfits.1]
    cases hparse : prober.tryParse (firstLba entry * sectorSize) with
    | none => exact absurd hparse (hprobed.resolve_left hfirst)
    | some found =>
      cases found with
      | none => exact ⟨volumes, rfl⟩
      | some v => exact ⟨pushUnique prober volumes v, rfl⟩

/-- Entries that fit and can be looked at are, unless a slot cannot be read. -/
theorem detectSlots_probed {i n : ℕ} (volumes : List V)
    (hoff : arrayStart + (i + n) * entrySize < 2 ^ 64)
    (h : ∀ e ∈ (walkSlots src entrySize arrayStart i n).entries,
      EntryFits sectorSize e ∧ Probed sectorSize prober e) :
    let w := walkSlots src entrySize arrayStart i n
    ∃ volumes', detectSlots prober src sectorSize entrySize arrayStart i n volumes =
      ⟨w.slots, startsOf sectorSize w.entries,
        if w.failed then .error .io else .ok (some volumes')⟩ := by
  induction n generalizing i volumes with
  | zero => exact ⟨volumes, rfl⟩
  | succ n ih =>
    obtain ⟨hslot, hnext⟩ := slots_near hoff
    rw [walkSlots_succ] at h ⊢
    cases hat : slotAt src entrySize (arrayStart + i * entrySize) with
    | unreadable =>
      rw [detectSlots_succ n volumes hslot, hat]
      exact ⟨[], rfl⟩
    | cut =>
      rw [detectSlots_succ n volumes hslot, hat]
      exact ⟨volumes, rfl⟩
    | free =>
      rw [hat] at h
      rw [detectSlots_succ n volumes hslot, hat]
      obtain ⟨volumes', heq⟩ := ih volumes hnext h
      dsimp only
      rw [heq]
      exact ⟨volumes', rfl⟩
    | used entry =>
      rw [hat] at h
      obtain ⟨⟨hfits, hprobed⟩, hrest⟩ := List.forall_mem_cons.mp h
      obtain ⟨found, hslots⟩ := detectSlots_used n volumes hslot hat hfits hprobed
      obtain ⟨volumes', heq⟩ := ih found hnext hrest
      refine ⟨volumes', ?_⟩
      rw [hslots, heq]
      dsimp only [Walked.pass, List.cons_append, List.nil_append]
      rw [startsOf_cons]
      by_cases hfirst : firstLba entry = 0
      · rw [if_pos hfirst, if_pos hfirst]
        rfl
      · rw [if_neg hfirst, if_neg hfirst]
        rfl

/-- A table with slots left begins with the offset of the next one. -/
theorem walkSlots_slots_ne_nil (src : Source) (entrySize arrayStart i n : ℕ) :
    (walkSlots src entrySize arrayStart i (n + 1)).slots ≠ [] := by
  rw [walkSlots_succ]
  cases slotAt src entrySize (arrayStart + i * entrySize) <;> exact nofun

/-- A start that cannot be looked at ends the search, before a slot that cannot be read. -/
theorem detectSlots_unprobed {i n : ℕ} (volumes : List V)
    (hoff : arrayStart + (i + n) * entrySize < 2 ^ 64)
    (hfits : ∀ e ∈ (walkSlots src entrySize arrayStart i n).entries, EntryFits sectorSize e)
    (h : ¬ ∀ e ∈ (walkSlots src entrySize arrayStart i n).entries, Probed sectorSize prober e) :
    (detectSlots prober src sectorSize entrySize arrayStart i n volumes).result = .error .io ∧
    ((walkSlots src entrySize arrayStart i n).failed = true →
      (detectSlots prober src sectorSize entrySize arrayStart i n volumes).slots ≠
        (walkSlots src entrySize arrayStart i n).slots) := by
  induction n generalizing i volumes with
  | zero =>
    exfalso
    exact h nofun
  | succ n ih =>
    obtain ⟨hslot, hnext⟩ := slots_near hoff
    rw [walkSlots_succ] at h hfits ⊢
    -- The slots of the rest begin after the one that was read.
    have hcons : ∀ {slots rest : List ℕ}, slots ≠ rest →
        (arrayStart + i * entrySize) :: slots ≠ (arrayStart + i * entrySize) :: rest := by
      intro slots rest hne heq
      exact hne (List.cons.inj heq).2
    cases hat : slotAt src entrySize (arrayStart + i * entrySize) with
    | unreadable =>
      rw [hat] at h
      exact absurd nofun h
    | cut =>
      rw [hat] at h
      exact absurd nofun h
    | free =>
      rw [hat] at h hfits
      rw [detectSlots_succ n volumes hslot, hat]
      obtain ⟨hresult, hslots⟩ := ih volumes hnext hfits h
      exact ⟨hresult, fun hfailed => hcons (hslots hfailed)⟩
    | used entry =>
      rw [hat] at h hfits
      obtain ⟨hfit, hrest⟩ := List.forall_mem_cons.mp hfits
      by_cases hprobed : Probed sectorSize prober entry
      · have hunprobed : ¬ ∀ e ∈ (walkSlots src entrySize arrayStart (i + 1) n).entries,
            Probed sectorSize prober e := by
          intro hall
          exact h (List.forall_mem_cons.mpr ⟨hprobed, hall⟩)
        obtain ⟨found, heq⟩ := detectSlots_used n volumes hslot hat hfit hprobed
        obtain ⟨hresult, hslots⟩ := ih found hnext hrest hunprobed
        rw [heq]
        dsimp only
        by_cases hfirst : firstLba entry = 0
        · rw [if_pos hfirst]
          exact ⟨hresult, fun hfailed => hcons (hslots hfailed)⟩
        · rw [if_neg hfirst]
          exact ⟨hresult, fun hfailed => hcons (hslots hfailed)⟩
      · obtain ⟨hfirst, hparse⟩ := not_or.mp hprobed
        rw [detectSlots_succ n volumes hslot, hat]
        simp only [if_neg hfirst]
        rw [satMul_eq hfit.1, not_not.mp hparse]
        refine ⟨rfl, fun hfailed => hcons ?_⟩
        cases n with
        | zero => cases hfailed
        | succ n => exact (walkSlots_slots_ne_nil src entrySize arrayStart (i + 1) n).symm

theorem slotAt_far {off : ℕ} (h : src.readAt off entrySize = .error .io) :
    slotAt src entrySize off = .unreadable := by
  unfold slotAt
  rw [h]

/-- Nothing of a table is found where the first of its slots cannot be read. -/
theorem walkSlots_far {i n : ℕ} (h : src.readAt (arrayStart + i * entrySize) entrySize = .error .io) :
    walkSlots src entrySize arrayStart i (n + 1) = ⟨[arrayStart + i * entrySize], [], true⟩ := by
  rw [walkSlots_succ, slotAt_far h]

theorem parseSlots_far {i n : ℕ} {partitions : List Partition}
    (h : src.readAt (arrayStart + i * entrySize) entrySize = .error .io)
    (hoff : arrayStart + i * entrySize < 2 ^ 64) :
    parseSlots b src sectorSize entrySize arrayStart i (n + 1) partitions =
      ⟨[arrayStart + i * entrySize], [], .ok none⟩ := by
  rw [parseSlots_succ n partitions hoff, slotAt_far h]
  rfl

theorem detectSlots_far {i n : ℕ} {volumes : List V}
    (h : src.readAt (arrayStart + i * entrySize) entrySize = .error .io)
    (hoff : arrayStart + i * entrySize < 2 ^ 64) :
    detectSlots prober src sectorSize entrySize arrayStart i (n + 1) volumes =
      ⟨[arrayStart + i * entrySize], [], .error .io⟩ := by
  rw [detectSlots_succ n volumes hoff, slotAt_far h]
  rfl

end Slots

section Tables

variable {b : Build} {V : Type} {prober : Prober V} {src : Source} {sectorSize hdrOff : ℕ}

/-- A header that is not accepted leaves both readers without a table. -/
theorem refused_runs (b : Build) (prober : Prober V) (h : accepted src sectorSize hdrOff = none) :
    parseGptAt b src sectorSize hdrOff = .stop (.ok none) ∧
    detectGptAt prober src sectorSize hdrOff =
      .stop (match src.readAt hdrOff 92 with | .error e => .error e | .ok _ => .ok none) := by
  unfold accepted at h
  unfold parseGptAt detectGptAt
  cases hread : src.readAt hdrOff 92 with
  | error e => exact ⟨rfl, rfl⟩
  | ok hdr =>
    simp only [hread] at h ⊢
    by_cases hmark : hdr.length < 92 ∨ (Header.read hdr).signature ≠ efiPart
    · rw [if_pos hmark, if_pos hmark]
      exact ⟨rfl, rfl⟩
    rw [if_neg hmark, if_neg hmark]
    by_cases hsize : (Header.read hdr).entrySize < 128 ∨ 4096 < (Header.read hdr).entrySize
    · rw [if_pos hsize, if_pos hsize]
      exact ⟨rfl, rfl⟩
    rw [if_neg hsize, if_neg hsize]
    rw [if_neg (by tauto), Option.map_eq_none_iff] at h
    rw [h]
    exact ⟨rfl, rfl⟩

/-- What the readers do with a header that is accepted. -/
structure Opened (src : Source) (sectorSize hdrOff : ℕ) (h : Header) (arrayStart : ℕ) : Prop where
  accepted : accepted src sectorSize hdrOff = some (h, arrayStart)
  parse : ∀ b, parseGptAt b src sectorSize hdrOff =
    let r := parseSlots b src sectorSize h.entrySize arrayStart 0 h.numEntries []
    ⟨r.slots, r.starts, r.result.map (Option.map (·, nonZeroGuid h.diskGuid))⟩
  detect : ∀ {V : Type} (prober : Prober V), detectGptAt prober src sectorSize hdrOff =
    detectSlots prober src sectorSize h.entrySize arrayStart 0 h.numEntries []
  array : arrayStart < 2 ^ 64
  slots : h.numEntries * h.entrySize ≤ 1024 * 4096
  size : h.entrySize ≠ 0

theorem opened_of_accepted {h : Header} {arrayStart : ℕ}
    (ha : accepted src sectorSize hdrOff = some (h, arrayStart)) :
    Opened src sectorSize hdrOff h arrayStart := by
  have hopen := ha
  unfold accepted at hopen
  cases hread : src.readAt hdrOff 92 with
  | error e =>
    rw [hread] at hopen
    cases hopen
  | ok hdr =>
    simp only [hread] at hopen
    split_ifs at hopen with hbad
    obtain ⟨start, hmul, heq⟩ := Option.map_eq_some_iff.mp hopen
    cases heq
    simp only [not_or] at hbad
    obtain ⟨hlen, hmark, hmin, hmax⟩ := hbad
    have hmul' := hmul
    unfold checkedMul at hmul'
    split_ifs at hmul' with hlt
    cases hmul'
    refine ⟨ha, fun b => ?_, fun prober => ?_, hlt, ?_, by omega⟩
    · unfold parseGptAt
      simp only [hread]
      rw [if_neg (by tauto), if_neg (by omega), hmul]
    · unfold detectGptAt
      simp only [hread]
      rw [if_neg (by tauto), if_neg (by omega), hmul]
    · exact Nat.mul_le_mul (min_le_right _ _) (by omega)

namespace Opened

variable {h : Header} {arrayStart : ℕ}

theorem walked_eq (o : Opened src sectorSize hdrOff h arrayStart) :
    walked src sectorSize hdrOff = walkSlots src h.entrySize arrayStart 0 h.numEntries := by
  unfold walked
  rw [o.accepted]

/-- The array lies where its offsets are words, or no source can be read there. -/
theorem near_or_far (o : Opened src sectorSize hdrOff h arrayStart) :
    arrayStart + (0 + h.numEntries) * h.entrySize < 2 ^ 64 ∨
    ∃ n, h.numEntries = n + 1 ∧ src.readAt (arrayStart + 0 * h.entrySize) h.entrySize = .error .io := by
  have hslots := o.slots
  rw [Nat.zero_add]
  by_cases hfar : 2 ^ 63 ≤ arrayStart
  · cases hnum : h.numEntries with
    | zero =>
      left
      have harray := o.array
      omega
    | succ n =>
      right
      refine ⟨n, rfl, ?_⟩
      rw [Nat.zero_mul, Nat.add_zero, Source.readAt, if_pos ⟨o.size, .inl hfar⟩]
  · left
    omega

theorem parse_fits (o : Opened src sectorSize hdrOff h arrayStart)
    (hfits : ∀ e ∈ (walked src sectorSize hdrOff).entries, EntryFits sectorSize e) :
    parseGptAt b src sectorSize hdrOff =
      let w := walked src sectorSize hdrOff
      ⟨w.slots, startsOf sectorSize w.entries, .ok (if w.failed then none
        else some (w.entries.map (partitionOf sectorSize h.entrySize), nonZeroGuid h.diskGuid))⟩ := by
  rw [o.walked_eq] at hfits ⊢
  rw [o.parse]
  obtain hnear | ⟨n, hn, hread⟩ := o.near_or_far
  · rw [parseSlots_fits hnear hfits]
    dsimp only
    congr 1
    simp only [Except.map, List.nil_append]
    split_ifs <;> rfl
  · rw [hn, walkSlots_far hread, parseSlots_far hread (by rw [Nat.zero_mul]; exact o.array)]
    rfl

theorem parse_wide (o : Opened src sectorSize hdrOff h arrayStart)
    (hwide : ¬ ∀ e ∈ (walked src sectorSize hdrOff).entries, EntryFits sectorSize e) :
    (parseGptAt .debug src sectorSize hdrOff).result = .error .overflow := by
  rw [o.walked_eq] at hwide
  rw [o.parse]
  obtain hnear | ⟨n, hn, hread⟩ := o.near_or_far
  · dsimp only
    rw [parseSlots_wide [] hnear hwide]
    rfl
  · rw [hn, walkSlots_far hread] at hwide
    exact absurd nofun hwide

theorem detect_probed (o : Opened src sectorSize hdrOff h arrayStart)
    (hprobed : ∀ e ∈ (walked src sectorSize hdrOff).entries,
      EntryFits sectorSize e ∧ Probed sectorSize prober e) :
    let w := walked src sectorSize hdrOff
    ∃ volumes, detectGptAt prober src sectorSize hdrOff =
      ⟨w.slots, startsOf sectorSize w.entries,
        if w.failed then .error .io else .ok (some volumes)⟩ := by
  rw [o.walked_eq] at hprobed ⊢
  rw [o.detect]
  obtain hnear | ⟨n, hn, hread⟩ := o.near_or_far
  · exact detectSlots_probed [] hnear hprobed
  · rw [hn, walkSlots_far hread, detectSlots_far hread (by rw [Nat.zero_mul]; exact o.array)]
    exact ⟨[], rfl⟩

theorem detect_unprobed (o : Opened src sectorSize hdrOff h arrayStart)
    (hfits : ∀ e ∈ (walked src sectorSize hdrOff).entries, EntryFits sectorSize e)
    (hunprobed : ¬ ∀ e ∈ (walked src sectorSize hdrOff).entries, Probed sectorSize prober e) :
    (detectGptAt prober src sectorSize hdrOff).result = .error .io ∧
    ((walked src sectorSize hdrOff).failed = true →
      (detectGptAt prober src sectorSize hdrOff).slots ≠ (walked src sectorSize hdrOff).slots) := by
  rw [o.walked_eq] at hfits hunprobed ⊢
  rw [o.detect]
  obtain hnear | ⟨n, hn, hread⟩ := o.near_or_far
  · exact detectSlots_unprobed [] hnear hfits hunprobed
  · rw [hn, walkSlots_far hread] at hunprobed
    exact absurd nofun hunprobed

end Opened

/-- The readers accept the same header, read the same slots, find the same starts in them and
do not overflow. -/
structure ReadersAgree (b : Build) (prober : Prober V) (src : Source) (sectorSize hdrOff : ℕ) :
    Prop where
  no_overflow : (parseGptAt b src sectorSize hdrOff).result ≠ .error .overflow ∧
    (detectGptAt prober src sectorSize hdrOff).result ≠ .error .overflow
  headers : (∃ table, (parseGptAt b src sectorSize hdrOff).result = .ok (some table)) ↔
    ∃ volumes, (detectGptAt prober src sectorSize hdrOff).result = .ok (some volumes)
  slots : (parseGptAt b src sectorSize hdrOff).slots = (detectGptAt prober src sectorSize hdrOff).slots
  starts : (parseGptAt b src sectorSize hdrOff).starts =
    (detectGptAt prober src sectorSize hdrOff).starts

theorem readersAgree_of_probed (h : ∀ e ∈ (walked src sectorSize hdrOff).entries,
    EntryFits sectorSize e ∧ Probed sectorSize prober e) :
    ReadersAgree b prober src sectorSize hdrOff := by
  cases ha : accepted src sectorSize hdrOff with
  | none =>
    obtain ⟨hparse, hdetect⟩ := refused_runs b prober ha
    cases hread : src.readAt hdrOff 92 with
    | error e =>
      rw [hread, Source.readAt_error hread] at hdetect
      refine ⟨?_, ?_, by rw [hparse, hdetect]; rfl, by rw [hparse, hdetect]; rfl⟩
      · rw [hparse, hdetect]
        exact ⟨nofun, nofun⟩
      · rw [hparse, hdetect]
        exact iff_of_false nofun nofun
    | ok hdr =>
      rw [hread] at hdetect
      refine ⟨?_, ?_, by rw [hparse, hdetect]; rfl, by rw [hparse, hdetect]; rfl⟩
      · rw [hparse, hdetect]
        exact ⟨nofun, nofun⟩
      · rw [hparse, hdetect]
        exact iff_of_false nofun nofun
  | some opened =>
    obtain ⟨hd, arrayStart⟩ := opened
    have o := opened_of_accepted ha
    have hparse := o.parse_fits (b := b) fun e he => (h e he).1
    obtain ⟨volumes, hdetect⟩ := o.detect_probed h
    refine ⟨?_, ?_, by rw [hparse, hdetect], by rw [hparse, hdetect]⟩
    · rw [hparse, hdetect]
      refine ⟨nofun, ?_⟩
      dsimp only
      split_ifs
      · exact nofun
      · exact nofun
    · rw [hparse, hdetect]
      dsimp only
      by_cases hfailed : (walked src sectorSize hdrOff).failed = true
      · rw [if_pos hfailed, if_pos hfailed]
        exact iff_of_false nofun nofun
      · rw [if_neg hfailed, if_neg hfailed]
        exact iff_of_true ⟨_, rfl⟩ ⟨_, rfl⟩

/-- The two readers agree, in every build, exactly when the used entries lead to words and
can be looked at. -/
theorem readers_agree_iff (prober : Prober V) (src : Source) (sectorSize hdrOff : ℕ) :
    (∀ b, ReadersAgree b prober src sectorSize hdrOff) ↔
      ∀ e ∈ (walked src sectorSize hdrOff).entries,
        EntryFits sectorSize e ∧ Probed sectorSize prober e := by
  constructor
  · intro h
    cases ha : accepted src sectorSize hdrOff with
    | none =>
      unfold walked
      rw [ha]
      exact nofun
    | some opened =>
      obtain ⟨hd, arrayStart⟩ := opened
      have o := opened_of_accepted ha
      have hfits : ∀ e ∈ (walked src sectorSize hdrOff).entries, EntryFits sectorSize e := by
        by_contra hwide
        exact (h .debug).no_overflow.1 (o.parse_wide hwide)
      have hprobed : ∀ e ∈ (walked src sectorSize hdrOff).entries, Probed sectorSize prober e := by
        by_contra hunprobed
        have hparse := o.parse_fits (b := .debug) hfits
        obtain ⟨hresult, hslots⟩ := o.detect_unprobed hfits hunprobed
        have hagree := h .debug
        by_cases hfailed : (walked src sectorSize hdrOff).failed = true
        · apply hslots hfailed
          rw [← hagree.slots, hparse]
        · have htable := hagree.headers.mp (by rw [hparse]; exact ⟨_, congrArg _ (if_neg hfailed)⟩)
          obtain ⟨volumes, hvolumes⟩ := htable
          rw [hresult] at hvolumes
          cases hvolumes
      exact fun e he => ⟨hfits e he, hprobed e he⟩
  · exact fun h b => readersAgree_of_probed h

/-- A disk whose only entry begins at the sector 2^60. -/
def farEntry : Source where
  data := List.replicate 512 0 ++ efiPart ++ List.replicate 64 0 ++ [2, 0, 0, 0, 0, 0, 0, 0] ++
    [1, 0, 0, 0] ++ [128, 0, 0, 0] ++ List.replicate 424 0 ++
    List.replicate 16 1 ++ List.replicate 16 0 ++ [0, 0, 0, 0, 0, 0, 0, 16] ++
    [0, 0, 0, 0, 0, 0, 0, 16] ++ List.replicate 80 0
  size_lt := by decide +kernel

/-- There is no volume anywhere, and every offset can be looked at. -/
def noVolumes : Prober Unit where
  tryParse _ := some none
  offset _ := 0

/-- One reader stops or starts the partition at 0, and the other looks at the last offset. -/
theorem far_entry_splits : (parseGptAt .debug farEntry 512 512).result = .error .overflow ∧
    (parseGptAt .release farEntry 512 512).starts = [0] ∧
    (detectGptAt noVolumes farEntry 512 512).starts = [2 ^ 64 - 1] ∧
    ¬ ∀ b, ReadersAgree b noVolumes farEntry 512 512 := by
  have hparse : (parseGptAt .debug farEntry 512 512).result = .error .overflow := by decide +kernel
  refine ⟨hparse, by decide +kernel, by decide +kernel, fun h => ?_⟩
  exact (h .debug).no_overflow.1 hparse

end Tables

end Unearth.Gpt
