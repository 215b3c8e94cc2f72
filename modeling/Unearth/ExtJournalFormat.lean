import Unearth.ExtJournal
import Unearth.Lib.RingLog

/-!
# The blocks of a jbd2 journal

A transaction is written as descriptor blocks, each followed by the copies that its tags
name, and a commit block. A copy that begins like a block of the journal is escaped, so that
only descriptors and commits begin so.
-/

namespace Unearth.Ext
open Bytes Word Loop RingLog

/-- A field in the middle of a block. -/
theorem beField_append {pre mid : List UInt8} {pos n : ℕ} (hpos : pre.length = pos)
    (hmid : mid.length = n) (post : List UInt8) : beField (pre ++ (mid ++ post)) pos n = be mid := by
  have hlen : pos + n ≤ (pre ++ (mid ++ post)).length := by
    simp only [List.length_append]
    omega
  rw [beField, if_pos hlen, window, ← hpos, List.drop_left, ← hmid, List.take_left]

theorem slice_append {pre mid post : List UInt8} {pos n : ℕ} (hpos : pre.length = pos)
    (hmid : mid.length = n) : slice (pre ++ (mid ++ post)) pos n = .ok mid := by
  have hlen : pos + n ≤ (pre ++ (mid ++ post)).length := by
    simp only [List.length_append]
    omega
  rw [slice_eq hlen, window, ← hpos, List.drop_left, ← hmid, List.take_left]

/-- What a descriptor says of one copy. -/
structure Tag where
  fsBlock : ℕ
  sameUuid : Bool
  escaped : Bool
  deleted : Bool
  checksum : ℕ
  uuid : List UInt8

def flagBits (escaped sameUuid deleted last : Bool) : ℕ :=
  escaped.toNat + 2 * sameUuid.toNat + 4 * deleted.toNat + 8 * last.toNat

def Tag.flags (t : Tag) (last : Bool) : ℕ := flagBits t.escaped t.sameUuid t.deleted last

/-- The fixed part of a tag. -/
def Tag.fields (fmt : TagFormat) (t : Tag) (last : Bool) : List UInt8 :=
  if fmt.csumV3 then
    toBe 4 (t.fsBlock % 2 ^ 32) ++ toBe 4 (t.flags last) ++ toBe 4 (t.fsBlock / 2 ^ 32) ++ toBe 4 t.checksum
  else
    toBe 4 (t.fsBlock % 2 ^ 32) ++ toBe 2 t.checksum ++ toBe 2 (t.flags last) ++
      if fmt.is64bit then toBe 4 (t.fsBlock / 2 ^ 32) else []

def tagBytes (fmt : TagFormat) : List Tag → List UInt8
  | [] => []
  | t :: rest => t.fields fmt rest.isEmpty ++ (if t.sameUuid then [] else t.uuid) ++ tagBytes fmt rest

/-- A block number that the tags of a journal have room for. -/
structure Tag.Fits (fmt : TagFormat) (t : Tag) : Prop where
  block_lt : t.fsBlock < if fmt.csumV3 ∨ fmt.is64bit then 2 ^ 64 else 2 ^ 32
  uuid_length : t.uuid.length = 16

def blockHeader (blocktype sequence : ℕ) : List UInt8 :=
  toBe 4 JBD2_MAGIC ++ toBe 4 blocktype ++ toBe 4 sequence

/-- A descriptor with the copies that follow it. -/
structure Batch where
  tags : List Tag
  tail : List UInt8
  copies : List (List UInt8)

structure Transaction where
  sequence : ℕ
  batches : List Batch
  commit : List UInt8

def JBD2_COMMIT_BLOCK : ℕ := 2

def Batch.descriptor (fmt : TagFormat) (sequence : ℕ) (d : Batch) : List UInt8 :=
  blockHeader JBD2_DESCRIPTOR_BLOCK sequence ++ tagBytes fmt d.tags ++ d.tail

def Transaction.blocks (fmt : TagFormat) (t : Transaction) : List (List UInt8) :=
  (t.batches.flatMap fun d => d.descriptor fmt t.sequence :: d.copies) ++
    [blockHeader JBD2_COMMIT_BLOCK t.sequence ++ t.commit]

/-- A block that does not begin like one of the journal's own. -/
def Plain (block : List UInt8) : Prop := beField block 0 4 ≠ JBD2_MAGIC

structure Batch.WellFormed (fmt : TagFormat) (blockSize sequence : ℕ) (d : Batch) : Prop where
  tags_ne : d.tags ≠ []
  tags_fit : ∀ t ∈ d.tags, t.Fits fmt
  copies_length : d.copies.length = d.tags.length
  copies_plain : ∀ copy ∈ d.copies, Plain copy
  descriptor_length : (d.descriptor fmt sequence).length = blockSize

structure Transaction.WellFormed (fmt : TagFormat) (blockSize : ℕ) (t : Transaction) : Prop where
  batches : ∀ d ∈ t.batches, d.WellFormed fmt blockSize t.sequence

/-- The heads and the announced blocks of a transaction. -/
def Transaction.slots (t : Transaction) : List (Option (List ℕ)) :=
  (t.batches.flatMap fun d => some (d.tags.map Tag.fsBlock) :: d.copies.map fun _ => none) ++ [none]

/-- A block as the scan sees it. -/
def slotOf (fmt : TagFormat) (block : List UInt8) : Option (List ℕ) :=
  if block.length < 12 ∨ beField block 0 4 ≠ JBD2_MAGIC ∨
      beField block 4 4 ≠ JBD2_DESCRIPTOR_BLOCK then none
  else (parseJournalTags fmt block).toOption

section Parse

/-- A tag with all the flags that it has. -/
structure FlaggedTag where
  fsBlock : ℕ
  flags : ℕ
  checksum : ℕ
  uuid : List UInt8

namespace FlaggedTag

variable (fmt : TagFormat) (t : FlaggedTag)

def fields : List UInt8 :=
  if fmt.csumV3 then
    toBe 4 (t.fsBlock % 2 ^ 32) ++ toBe 4 t.flags ++ toBe 4 (t.fsBlock / 2 ^ 32) ++ toBe 4 t.checksum
  else
    toBe 4 (t.fsBlock % 2 ^ 32) ++ toBe 2 t.checksum ++ toBe 2 t.flags ++
      if fmt.is64bit then toBe 4 (t.fsBlock / 2 ^ 32) else []

/-- A tag with its UUID, which is left out if it is that of the tag before. -/
def bytes : List UInt8 := t.fields fmt ++ if t.flags &&& JBD2_FLAG_SAME_UUID = 0 then t.uuid else []

/-- What the tags of a journal have room for. -/
structure Fits : Prop where
  block_lt : t.fsBlock < if fmt.csumV3 ∨ fmt.is64bit then 2 ^ 64 else 2 ^ 32
  flags_lt : t.flags < 256 ^ if fmt.csumV3 then 4 else 2
  uuid_length : t.uuid.length = 16

theorem length_fields : 8 ≤ (t.fields fmt).length := by
  unfold fields
  split_ifs <;> simp only [List.length_append, length_toBe, List.length_nil] <;> omega

variable {fmt t} {pre : List UInt8} {pos : ℕ}

/-- A tag is read as it was written. -/
theorem readTag_fields (hfits : t.Fits fmt) (hpos : pre.length = pos) (post : List UInt8) :
    readTag fmt (pre ++ (t.fields fmt ++ post)) pos =
      .ok (some (t.fsBlock, t.flags, pos + (t.fields fmt).length)) := by
  have hlow : t.fsBlock % 2 ^ 32 < 256 ^ 4 := Nat.mod_lt _ (by decide)
  have hflags := hfits.flags_lt
  have hblock := hfits.block_lt
  have hsplit : 2 ^ 32 * (t.fsBlock / 2 ^ 32) + t.fsBlock % 2 ^ 32 = t.fsBlock := Nat.div_add_mod ..
  have hlo : beField (pre ++ (t.fields fmt ++ post)) pos 4 = t.fsBlock % 2 ^ 32 := by
    rw [← be_toBe hlow]
    unfold fields
    split <;>
    · simp only [List.append_assoc]
      exact beField_append hpos (length_toBe ..) _
  by_cases hv3 : fmt.csumV3 = true
  · rw [if_pos (.inl hv3)] at hblock
    rw [if_pos hv3] at hflags
    have hlen : (t.fields fmt).length = 16 := by simp [fields, hv3]
    have hfl : beField (pre ++ (t.fields fmt ++ post)) (pos + 4) 4 = t.flags := by
      rw [fields, if_pos hv3]
      simp only [List.append_assoc]
      rw [← List.append_assoc pre]
      exact (beField_append (by simp [hpos]) (length_toBe ..) _).trans (be_toBe hflags)
    have hhi : beField (pre ++ (t.fields fmt ++ post)) (pos + 8) 4 = t.fsBlock / 2 ^ 32 := by
      rw [← be_toBe (show t.fsBlock / 2 ^ 32 < 256 ^ 4 by omega), fields, if_pos hv3]
      simp only [List.append_assoc]
      rw [← List.append_assoc pre, ← List.append_assoc (pre ++ _)]
      exact beField_append (by simp [hpos]) (length_toBe ..) _
    have hfit : ¬ (pre ++ (t.fields fmt ++ post)).length < pos + 16 := by
      simp only [List.length_append]
      omega
    rw [readTag, if_pos hv3, if_neg hfit, hlo, hfl, hhi, hlen]
    dsimp only
    rw [hsplit]
    rfl
  · rw [if_neg hv3] at hflags
    have hfl : slice (pre ++ (t.fields fmt ++ post)) (pos + 6) 2 = .ok (toBe 2 t.flags) := by
      rw [fields, if_neg hv3]
      simp only [List.append_assoc]
      rw [← List.append_assoc pre, ← List.append_assoc (pre ++ _)]
      exact slice_append (by simp [hpos]) (length_toBe ..)
    have hbe : be (toBe 2 t.flags) = t.flags := be_toBe hflags
    have hfit : ¬ (pre ++ (t.fields fmt ++ post)).length < pos + 8 := by
      have hlen := t.length_fields fmt
      simp only [List.length_append]
      omega
    rw [readTag, if_neg hv3, if_neg hfit, hlo, hfl]
    by_cases h64 : fmt.is64bit = true
    · rw [if_pos (.inr h64)] at hblock
      have hlen : (t.fields fmt).length = 12 := by simp [fields, hv3, h64]
      have hhi : beField (pre ++ (t.fields fmt ++ post)) (pos + 8) 4 = t.fsBlock / 2 ^ 32 := by
        rw [← be_toBe (show t.fsBlock / 2 ^ 32 < 256 ^ 4 by omega), fields, if_neg hv3, if_pos h64]
        simp only [List.append_assoc]
        rw [← List.append_assoc pre, ← List.append_assoc (pre ++ _), ← List.append_assoc (pre ++ _ ++ _)]
        exact beField_append (by simp [hpos]) (length_toBe ..) _
      have hfit : ¬ (pre ++ (t.fields fmt ++ post)).length < pos + 12 := by
        simp only [List.length_append]
        omega
      change (if fmt.is64bit = true then _ else _) = _
      rw [if_pos h64, if_neg hfit, hhi, hbe, hsplit, hlen]
      rfl
    · rw [if_neg (not_or.mpr ⟨hv3, h64⟩)] at hblock
      have hlen : (t.fields fmt).length = 8 := by simp [fields, hv3, h64]
      change (if fmt.is64bit = true then _ else _) = _
      rw [if_neg h64, hbe, hlen, Nat.mod_eq_of_lt hblock]
      rfl

/-- A tag leads to the place behind its UUID, unless it is the last one. -/
theorem tagStep_bytes (hfits : t.Fits fmt) (hpos : pre.length = pos) (done : List ℕ) (post : List UInt8) :
    tagStep fmt (pre ++ (t.bytes fmt ++ post)) (pos, done) =
      if t.flags &&& JBD2_FLAG_LAST_TAG ≠ 0 then .done (.ok (done ++ [t.fsBlock]))
      else if (pre ++ (t.bytes fmt ++ post)).length ≤ pos + (t.bytes fmt).length ∨
          100000 < (done ++ [t.fsBlock]).length then .done (.ok (done ++ [t.fsBlock]))
      else .next (pos + (t.bytes fmt).length, done ++ [t.fsBlock]) := by
  have hread := readTag_fields hfits hpos ((if t.flags &&& JBD2_FLAG_SAME_UUID = 0 then t.uuid else []) ++ post)
  have hnext : (if t.flags &&& JBD2_FLAG_SAME_UUID = 0 then pos + (t.fields fmt).length + 16
      else pos + (t.fields fmt).length) = pos + (t.bytes fmt).length := by
    unfold bytes
    split_ifs <;> simp [hfits.uuid_length, Nat.add_assoc]
  rw [← List.append_assoc (t.fields fmt)] at hread
  change readTag fmt (pre ++ (t.bytes fmt ++ post)) pos = _ at hread
  simp only [tagStep, hread, hnext]

end FlaggedTag

variable {fmt : TagFormat} {pre : List UInt8} {pos : ℕ}

/-- Tags of which the last one only says so are read as they were written. -/
theorem tagLoop_flagged {init : List FlaggedTag} {last : FlaggedTag}
    (hinit : ∀ t ∈ init, t.Fits fmt ∧ t.flags &&& JBD2_FLAG_LAST_TAG = 0)
    (hfits : last.Fits fmt) (hlast : last.flags &&& JBD2_FLAG_LAST_TAG ≠ 0) (hpos : pre.length = pos)
    {done : List ℕ} (hdone : 8 * done.length ≤ pos) (post : List UInt8)
    (hsize : (pre ++ ((init ++ [last]).flatMap (FlaggedTag.bytes fmt) ++ post)).length ≤ 2 ^ 16) :
    (tagLoop fmt (pre ++ ((init ++ [last]).flatMap (FlaggedTag.bytes fmt) ++ post))).eval (pos, done) =
      .ok (done ++ (init ++ [last]).map FlaggedTag.fsBlock) := by
  induction init generalizing pre pos done with
  | nil =>
    have hstep := FlaggedTag.tagStep_bytes hfits hpos done post
    rw [if_pos hlast] at hstep
    rw [List.nil_append, List.flatMap_singleton]
    exact (tagLoop fmt _).eval_done hstep
  | cons t rest ih =>
    obtain ⟨⟨ht, hmore⟩, hrest⟩ := List.forall_mem_cons.mp hinit
    have hstep := FlaggedTag.tagStep_bytes ht hpos done ((rest ++ [last]).flatMap (FlaggedTag.bytes fmt) ++ post)
    rw [List.cons_append, List.flatMap_cons, List.append_assoc] at hsize ⊢
    have hbytes : 8 ≤ (t.bytes fmt).length := (t.length_fields fmt).trans (by simp [FlaggedTag.bytes])
    have hnext : 8 ≤ ((rest ++ [last]).flatMap (FlaggedTag.bytes fmt)).length := by
      have hlen : 8 ≤ (last.bytes fmt).length := (last.length_fields fmt).trans (by simp [FlaggedTag.bytes])
      rw [List.flatMap_append, List.flatMap_singleton, List.length_append]
      omega
    have hgo : ¬ ((pre ++ (t.bytes fmt ++ ((rest ++ [last]).flatMap (FlaggedTag.bytes fmt) ++ post))).length ≤
        pos + (t.bytes fmt).length ∨ 100000 < (done ++ [t.fsBlock]).length) := by
      simp only [List.length_append, List.length_singleton] at hsize ⊢
      omega
    rw [if_neg (not_not.mpr hmore), if_neg hgo] at hstep
    have hpre : (pre ++ t.bytes fmt).length = pos + (t.bytes fmt).length := by rw [List.length_append, hpos]
    have hcount : 8 * (done ++ [t.fsBlock]).length ≤ pos + (t.bytes fmt).length := by
      rw [List.length_append, List.length_singleton]
      omega
    have hread := ih hrest hpre hcount (by rwa [List.append_assoc])
    rw [List.append_assoc] at hread
    rw [(tagLoop fmt _).eval_next hstep, hread, List.map_cons, List.append_assoc, List.singleton_append]

theorem flagBits_spec : ∀ escaped sameUuid deleted last : Bool,
    flagBits escaped sameUuid deleted last < 16 ∧
    (flagBits escaped sameUuid deleted last &&& JBD2_FLAG_SAME_UUID = 0 ↔ sameUuid = false) ∧
    (flagBits escaped sameUuid deleted last &&& JBD2_FLAG_LAST_TAG ≠ 0 ↔ last = true) := by
  decide

/-- A tag with the flags that it has at its place. -/
def Tag.flagged (t : Tag) (last : Bool) : FlaggedTag := ⟨t.fsBlock, t.flags last, t.checksum, t.uuid⟩

theorem Tag.Fits.flagged {t : Tag} (h : t.Fits fmt) (last : Bool) : (t.flagged last).Fits fmt where
  block_lt := h.block_lt
  flags_lt := by
    have hflags : t.flags last < 16 := (flagBits_spec ..).1
    change t.flags last < _
    split <;> omega
  uuid_length := h.uuid_length

theorem Tag.bytes_flagged (t : Tag) (last : Bool) :
    (t.flagged last).bytes fmt = t.fields fmt last ++ if t.sameUuid then [] else t.uuid := by
  have hsame : t.flags last &&& JBD2_FLAG_SAME_UUID = 0 ↔ t.sameUuid = false := (flagBits_spec ..).2.1
  change t.fields fmt last ++ (if t.flags last &&& JBD2_FLAG_SAME_UUID = 0 then t.uuid else []) = _
  cases huuid : t.sameUuid <;> simp [hsame, huuid]

theorem tagBytes_flagged (init : List Tag) (last : Tag) : tagBytes fmt (init ++ [last]) =
    (init.map (Tag.flagged · false) ++ [last.flagged true]).flatMap (FlaggedTag.bytes fmt) := by
  induction init with
  | nil => simp [tagBytes, Tag.bytes_flagged]
  | cons t rest ih =>
    have hmore : (rest ++ [last]).isEmpty = false := by simp
    rw [List.cons_append, tagBytes, ih, hmore, List.map_cons, List.cons_append, List.flatMap_cons, Tag.bytes_flagged]

/-- The tags of a descriptor are read as they were written. -/
theorem tagLoop_tagBytes {tags : List Tag} (hne : tags ≠ []) (hfit : ∀ t ∈ tags, t.Fits fmt)
    (hpos : pre.length = pos) {done : List ℕ} (hdone : 8 * done.length ≤ pos) (post : List UInt8)
    (hsize : (pre ++ (tagBytes fmt tags ++ post)).length ≤ 2 ^ 16) :
    (tagLoop fmt (pre ++ (tagBytes fmt tags ++ post))).eval (pos, done) =
      .ok (done ++ tags.map Tag.fsBlock) := by
  obtain ⟨init, last, rfl⟩ : ∃ init last, tags = init ++ [last] :=
    ⟨tags.dropLast, tags.getLast hne, (List.dropLast_append_getLast hne).symm⟩
  have hinit : ∀ t ∈ init.map (Tag.flagged · false), t.Fits fmt ∧ t.flags &&& JBD2_FLAG_LAST_TAG = 0 := by
    intro t ht
    obtain ⟨u, hu, rfl⟩ := List.mem_map.mp ht
    have hmore : ¬ u.flags false &&& JBD2_FLAG_LAST_TAG ≠ 0 := fun h => (by cases (flagBits_spec ..).2.2.mp h)
    exact ⟨(hfit u (List.mem_append_left _ hu)).flagged false, not_not.mp hmore⟩
  have hlast : (last.flagged true).flags &&& JBD2_FLAG_LAST_TAG ≠ 0 := (flagBits_spec ..).2.2.mpr rfl
  have hfits := (hfit last (List.mem_append_right _ (List.mem_singleton_self last))).flagged true
  rw [tagBytes_flagged] at hsize ⊢
  rw [tagLoop_flagged hinit hfits hlast hpos hdone post hsize]
  simp [Tag.flagged, Function.comp_def]

/-- The descriptor of any blocks that fit in one block of the journal is read back, whatever the flags
of its tags other than the one for the last tag, their checksums and what is behind them. -/
theorem journal_tags_read (v : Volume) {init : List FlaggedTag} {last : FlaggedTag}
    (hinit : ∀ t ∈ init, t.Fits fmt ∧ t.flags &&& JBD2_FLAG_LAST_TAG = 0) (hfits : last.Fits fmt)
    (hlast : last.flags &&& JBD2_FLAG_LAST_TAG ≠ 0) {header : List UInt8} (hheader : header.length = 12)
    (rest : List UInt8)
    (hsize : (header ++ ((init ++ [last]).flatMap (FlaggedTag.bytes fmt) ++ rest)).length ≤ v.blockSize) :
    parseJournalTags fmt (header ++ ((init ++ [last]).flatMap (FlaggedTag.bytes fmt) ++ rest)) =
      .ok ((init ++ [last]).map FlaggedTag.fsBlock) := by
  have hdone : 8 * ([] : List ℕ).length ≤ 12 := by simp
  exact tagLoop_flagged hinit hfits hlast hheader hdone rest (hsize.trans v.block_le)

/-- A tag of another UUID and one of the same, with bits that mean nothing. -/
theorem two_tags_read : parseJournalTags ⟨false, true⟩
    ([1, 2, 3, 4, 5, 6, 7, 8, 9, 10, 11, 12] ++
      (([⟨2 ^ 32 + 7, 0x10, 99, List.replicate 16 5⟩] ++ [⟨8, 0x4A, 100, List.replicate 16 6⟩] :
        List FlaggedTag).flatMap (FlaggedTag.bytes ⟨false, true⟩) ++ [13, 14])) = .ok [2 ^ 32 + 7, 8] :=
  journal_tags_read ⟨0, 1024, 128, 8, false, 9, 1, [], 9, 1, le_rfl, by decide, le_rfl, by decide, by decide, by decide⟩
    (by simpa using ⟨⟨by decide, by decide, by decide⟩, by decide⟩) ⟨by decide, by decide, by decide⟩ (by decide) rfl _
    (by decide)

end Parse

section Slots

variable {fmt : TagFormat} {blockSize : ℕ}

theorem beField_header (blocktype sequence : ℕ) (post : List UInt8) (htype : blocktype < 256 ^ 4) :
    beField (blockHeader blocktype sequence ++ post) 0 4 = JBD2_MAGIC ∧
      beField (blockHeader blocktype sequence ++ post) 4 4 = blocktype := by
  have hmagic := be_toBe (show JBD2_MAGIC < 256 ^ 4 by decide)
  have hfirst := beField_append (@List.length_nil UInt8) (length_toBe 4 JBD2_MAGIC)
    (toBe 4 blocktype ++ (toBe 4 sequence ++ post))
  have hsecond := beField_append (length_toBe 4 JBD2_MAGIC) (length_toBe 4 blocktype)
    (toBe 4 sequence ++ post)
  rw [List.nil_append, hmagic] at hfirst
  rw [be_toBe htype] at hsecond
  unfold blockHeader
  simp only [List.append_assoc]
  exact ⟨hfirst, hsecond⟩

theorem length_blockHeader (blocktype sequence : ℕ) : (blockHeader blocktype sequence).length = 12 := by
  simp [blockHeader]

theorem Batch.slotOf_descriptor {d : Batch} {sequence : ℕ} (hd : d.WellFormed fmt blockSize sequence)
    (hsize : blockSize ≤ 2 ^ 16) : slotOf fmt (d.descriptor fmt sequence) = some (d.tags.map Tag.fsBlock) := by
  have hlen := hd.descriptor_length
  have hhead := length_blockHeader JBD2_DESCRIPTOR_BLOCK sequence
  obtain ⟨hmagic, htype⟩ := beField_header JBD2_DESCRIPTOR_BLOCK sequence (tagBytes fmt d.tags ++ d.tail) (by decide)
  have hsmall : (blockHeader JBD2_DESCRIPTOR_BLOCK sequence ++ (tagBytes fmt d.tags ++ d.tail)).length ≤ 2 ^ 16 := by
    rw [← List.append_assoc, ← Batch.descriptor, hlen]
    exact hsize
  have hparse := tagLoop_tagBytes hd.tags_ne hd.tags_fit hhead (show 8 * ([] : List ℕ).length ≤ 12 by simp) d.tail hsmall
  have hlong : ¬ (blockHeader JBD2_DESCRIPTOR_BLOCK sequence ++ (tagBytes fmt d.tags ++ d.tail)).length < 12 := by
    rw [List.length_append, hhead]
    omega
  rw [Batch.descriptor, List.append_assoc, slotOf, if_neg, parseJournalTags, hparse]
  · rfl
  · simp only [hmagic, htype, hlong, ne_eq, not_true_eq_false, or_self, not_false_eq_true]

theorem slotOf_plain {block : List UInt8} (h : Plain block) : slotOf fmt block = none :=
  if_pos (.inr (.inl h))

theorem slotOf_commit (sequence : ℕ) (commit : List UInt8) :
    slotOf fmt (blockHeader JBD2_COMMIT_BLOCK sequence ++ commit) = none := by
  have htype := (beField_header JBD2_COMMIT_BLOCK sequence commit (by decide)).2
  apply if_pos
  right
  right
  rw [htype]
  decide

theorem Transaction.map_slotOf {t : Transaction} (ht : t.WellFormed fmt blockSize) (hsize : blockSize ≤ 2 ^ 16) :
    (t.blocks fmt).map (slotOf fmt) = t.slots := by
  rw [blocks, slots, List.map_append, List.map_flatMap, List.map_singleton, slotOf_commit]
  congr 1
  apply List.flatMap_congr
  intro d hd
  have hd := ht.batches d hd
  rw [List.map_cons, Batch.slotOf_descriptor hd hsize]
  congr 1
  apply List.map_congr_left
  intro copy hcopy
  exact slotOf_plain (hd.copies_plain copy hcopy)

theorem Transaction.whole_slots {t : Transaction} (ht : t.WellFormed fmt blockSize) : Whole t.slots := by
  have hbatches : ∀ l : List Batch, (∀ d ∈ l, d.WellFormed fmt blockSize t.sequence) →
      Whole (l.flatMap fun d => some (d.tags.map Tag.fsBlock) :: d.copies.map fun _ => none) := by
    intro l hl
    induction l with
    | nil => trivial
    | cons d rest ih =>
      rw [List.flatMap_cons]
      apply Whole.append _ (ih fun e he => hl e (List.mem_cons_of_mem _ he))
      have hlen := (hl d (List.mem_cons_self ..)).copies_length
      rw [List.map_const', hlen, ← List.length_map Tag.fsBlock]
      exact whole_head _
  apply (hbatches t.batches ht.batches).append
  exact ⟨Nat.zero_le _, nofun, trivial⟩

theorem whole_history {history : List Transaction} (h : ∀ t ∈ history, t.WellFormed fmt blockSize) :
    Whole (history.flatMap Transaction.slots) := by
  induction history with
  | nil => trivial
  | cons t rest ih =>
    rw [List.flatMap_cons]
    exact (Transaction.whole_slots (h t (List.mem_cons_self ..))).append
      (ih fun u hu => h u (List.mem_cons_of_mem _ hu))

theorem history_slots {history : List Transaction} (h : ∀ t ∈ history, t.WellFormed fmt blockSize)
    (hsize : blockSize ≤ 2 ^ 16) : (history.flatMap (Transaction.blocks fmt)).map (slotOf fmt) =
      history.flatMap Transaction.slots := by
  rw [List.map_flatMap]
  apply List.flatMap_congr
  intro t ht
  exact Transaction.map_slotOf (h t ht) hsize

end Slots

end Unearth.Ext
