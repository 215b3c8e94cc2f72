import Unearth.Btrfs

/-!
# The subvolumes are those of the root tree

A volume whose two trees are leaves gives the names of its references, unless the chunk of one of the trees
reaches the largest address or the chunk of the root is not kept. Nothing else in any bytes stops the program.
-/

namespace Unearth.Btrfs
open Bytes Word Post Utf8 Lines

section Volumes

/-- An item of the chunk tree that is a chunk. -/
def Item.IsChunk (item : Item) : Prop :=
  item.ktype = CHUNK_ITEM_KEY ∧ 56 + 8 ≤ item.data.length ∧ le16 item.data 44 ≠ 0 ∧ le64 item.data 0 ≠ 0

instance (item : Item) : Decidable item.IsChunk := inferInstanceAs (Decidable (_ ∧ _))

def Item.chunk (item : Item) : Chunk := ⟨item.keyOff, le64 item.data 0, le64 item.data 56⟩

/-- An item of the root tree that is the reference to a tree, its name included. -/
def Item.IsRef (item : Item) : Prop := item.ktype = ROOT_REF_KEY ∧ 18 + le16 item.data 16 ≤ item.data.length

instance (item : Item) : Decidable item.IsRef := inferInstanceAs (Decidable (_ ∧ _))

def Item.refName (item : Item) : List UInt8 := window item.data 18 (le16 item.data 16)

/-- A volume of one device with a chunk tree and a root tree of one leaf each. -/
structure SimpleVolume (src : Source) (offset : ℕ) (sb : Superblock) (nodesize : ℕ) where
  reliable : src.Reliable
  front : List UInt8
  records : List SysRecord
  behind : List UInt8
  bytes_eq : sb.bytes = front ++ records.flatMap SysRecord.bytes ++ behind
  front_length : front.length = SYS_CHUNK_ARRAY
  array_size : le32 sb.bytes SYS_CHUNK_ARRAY_SIZE = (records.flatMap SysRecord.bytes).length
  chunkNode : List UInt8
  chunkItems : List Item
  chunkLeaf : Leaf chunkNode chunkItems
  chunkNode_length : chunkNode.length = nodesize
  rootNode : List UInt8
  rootItems : List Item
  rootLeaf : Leaf rootNode rootItems
  rootNode_length : rootNode.length = nodesize
  chunks : List Chunk
  chunks_eq : chunks = records.map SysRecord.chunk ++ (chunkItems.filter (·.IsChunk)).map Item.chunk
  fit : ∀ c ∈ chunks, c.logical + c.length ≤ 2 ^ 64
  disjoint : ∀ c ∈ chunks, ∀ d ∈ chunks, ∀ a, c.Covers a → d.Covers a → c = d
  chunkAt : Chunk
  chunkAt_mem : chunkAt ∈ records.map SysRecord.chunk
  chunkAt_covers : chunkAt.Covers (le64 sb.bytes CHUNK_ROOT_LOGICAL)
  chunkStored :
    Stored src (offset + (chunkAt.physical + (le64 sb.bytes CHUNK_ROOT_LOGICAL - chunkAt.logical))) chunkNode
  rootAt : Chunk
  rootAt_mem : rootAt ∈ chunks
  rootAt_covers : rootAt.Covers (le64 sb.bytes ROOT_LOGICAL)
  rootStored : Stored src (offset + (rootAt.physical + (le64 sb.bytes ROOT_LOGICAL - rootAt.logical))) rootNode

theorem map_filter_eq {α β : Type} {p : α → Prop} [DecidablePred p] (f : α → β) (l : List α) :
    (l.filter (p ·)).map f = l.filterMap fun x => if p x then some (f x) else none := by
  induction l with
  | nil => rfl
  | cons x l ih =>
    rw [List.filterMap_cons, ← ih]
    by_cases hx : p x
    · rw [List.filter_cons_of_pos (by simpa using hx), List.map_cons, if_pos hx]
    · rw [List.filter_cons_of_neg (by simpa using hx), if_neg hx]

theorem parseChunk_eq (item : Item) (hkey : item.ktype = CHUNK_ITEM_KEY) (map : List Chunk)
    (hroom : map.length < MAX_CHUNKS) :
    parseChunk item.data item.keyOff map = map ++ (if item.IsChunk then some item.chunk else none).toList := by
  unfold parseChunk
  by_cases hshort : item.data.length < 56 + 8
  · have hno : ¬ item.IsChunk := fun h => absurd h.2.1 (not_le.mpr hshort)
    rw [if_pos hshort, if_neg hno, Option.toList_none, List.append_nil]
  · rw [if_neg hshort]
    by_cases hnone : le16 item.data 44 = 0 ∨ le64 item.data 0 = 0
    · have hno : ¬ item.IsChunk := fun h => hnone.elim h.2.2.1 h.2.2.2
      rw [if_pos hnone, if_neg hno, Option.toList_none, List.append_nil]
    · have hyes : item.IsChunk := ⟨hkey, not_lt.mp hshort, not_or.mp hnone⟩
      rw [if_neg hnone, if_pos hroom, if_pos hyes, Option.toList_some, Item.chunk]

theorem addChunk_eq (map : List Chunk) (item : Item) : addChunk map item =
    if map.length < MAX_CHUNKS then map ++ (if item.IsChunk then some item.chunk else none).toList else map := by
  unfold addChunk
  by_cases hroom : map.length < MAX_CHUNKS
  · rw [if_pos hroom]
    by_cases hkey : item.ktype = CHUNK_ITEM_KEY
    · rw [if_pos ⟨hkey, hroom⟩, parseChunk_eq item hkey map hroom]
    · have hno : ¬ item.IsChunk := fun h => hkey h.1
      rw [if_neg fun h => hkey h.1, if_neg hno, Option.toList_none, List.append_nil]
  · rw [if_neg fun h => hroom h.2, if_neg hroom]

theorem rootRefName_eq (item : Item) (hkey : item.ktype = ROOT_REF_KEY) : rootRefName item.data =
    if item.IsRef ∧ item.refName ≠ [] then some (fromUtf8Lossy item.refName) else none := by
  have hdef : window item.data 18 (le16 item.data 16) = item.refName := rfl
  unfold rootRefName
  rw [hdef]
  by_cases hin : 18 + le16 item.data 16 ≤ item.data.length
  · rw [if_neg (by omega)]
    by_cases hname : item.refName = []
    · rw [if_pos (Or.inr hname), if_neg fun h => h.2 hname]
    · have hyes : item.IsRef ∧ item.refName ≠ [] := ⟨⟨hkey, hin⟩, hname⟩
      rw [if_neg fun h => h.elim (by omega) hname, if_pos hyes]
  · have hno : ¬ (item.IsRef ∧ item.refName ≠ []) := fun h => hin h.1.2
    rw [if_pos (Or.inl (not_le.mp hin)), ite_self, if_neg hno]

theorem addName_eq (names : List Text) (item : Item) : addName names item =
    if names.length < MAX_SUBVOLUMES then
      names ++ (if item.IsRef ∧ item.refName ≠ [] then some (fromUtf8Lossy item.refName) else none).toList
    else names := by
  unfold addName
  by_cases hroom : names.length < MAX_SUBVOLUMES
  · rw [if_pos hroom]
    by_cases hkey : item.ktype = ROOT_REF_KEY
    · rw [if_pos ⟨hkey, hroom⟩, rootRefName_eq item hkey]
    · have hno : ¬ (item.IsRef ∧ item.refName ≠ []) := fun h => hkey h.1.1
      rw [if_neg fun h => hkey h.1, if_neg hno, Option.toList_none, List.append_nil]
  · rw [if_neg fun h => hroom h.2, if_neg hroom]

namespace SimpleVolume

variable {src : Source} {offset : ℕ} {sb : Superblock} {nodesize : ℕ} (v : SimpleVolume src offset sb nodesize)

/-- The chunks of the array in the superblock. -/
def system : List Chunk := v.records.map SysRecord.chunk

/-- The chunks that are kept of all there are. -/
def map : List Chunk := v.chunks.take MAX_CHUNKS

/-- The names that are not empty, in order. -/
def names : List Text :=
  ((((v.rootItems.filter (·.IsRef)).map Item.refName).filter (· ≠ [])).map fromUtf8Lossy).take MAX_SUBVOLUMES

def result : Option (List Text) := if v.names = [] then none else some v.names

/-- Both nodes are found where the chunks that cover them put them, and the names are those of the references. -/
def Exact (b : Build) : Prop :=
  systemChunks b sb = .ok v.system ∧
  readChunkNode b src offset sb nodesize v.system = .ok (some v.chunkNode) ∧
  chunkMap b src offset sb nodesize v.system = .ok (some v.map) ∧
  readRootNode b src offset sb nodesize v.map = .ok (some v.rootNode) ∧
  enumerateSubvolumes b src offset sb nodesize = .ok v.result

/-- Neither node is in a chunk that reaches the largest address, and the root is in one that is kept. -/
def Served : Prop := v.chunkAt.Below ∧ v.rootAt.Below ∧ v.rootAt ∈ v.map

end SimpleVolume

end Volumes

section Reads

variable {b : Build} {src : Source} {offset logical len : ℕ} {map : List Chunk} {node : List UInt8}

theorem readFull_stored (hrel : src.Reliable) {pos : ℕ} (hstored : Stored src pos node) (hlen : node.length = len) :
    readFull src pos len = .ok (some node) := by
  unfold readFull
  rw [hstored.readAt hrel hlen]
  change (.ok (if node.length < len then none else some node) : Exec _) = _
  rw [if_neg (by omega)]

theorem readFull_ok (src : Source) (byte len : ℕ) : ∃ r, readFull src byte len = .ok r := by
  unfold readFull
  cases hread : src.readAt byte len with
  | error e =>
    rw [Source.readAt_error hread]
    exact ⟨none, rfl⟩
  | ok bytes => exact ⟨if bytes.length < len then none else some bytes, rfl⟩

theorem length_of_readFull {byte : ℕ} (h : readFull src byte len = .ok (some node)) : node.length = len := by
  unfold readFull at h
  cases hread : src.readAt byte len with
  | error e =>
    rw [hread, Source.readAt_error hread] at h
    cases h
  | ok bytes =>
    have hle : bytes.length ≤ len := by
      rw [Source.readAt_ok hread, length_window]
      exact min_le_left _ _
    rw [hread] at h
    have hsome : (if bytes.length < len then none else some bytes) = some node := Except.ok.inj h
    split_ifs at hsome with hshort
    cases hsome
    omega

theorem readLogical_stored {c : Chunk} (hrel : src.Reliable) (hword : logical < 2 ^ 64)
    (hcovering : covering map logical = some c) (hbelow : c.Below)
    (hstored : Stored src (offset + (c.physical + (logical - c.logical))) node) (hne : node ≠ [])
    (hlen : node.length = len) : readLogical b src offset map logical len = .ok (some node) := by
  have hend := hstored.end_lt hne
  have hfind : findChunk b logical map = .ok (some c) := by
    rw [findChunk_below hword (fun d hd => ?_), hcovering]
    rw [hcovering] at hd
    cases hd
    exact hbelow
  have hbyte : (checkedAdd c.physical (logical - c.logical)).bind (checkedAdd offset) =
      some (offset + (c.physical + (logical - c.logical))) := by
    rw [checkedAdd_eq_some.mpr ⟨by omega, rfl⟩, Option.bind_some, checkedAdd_eq_some.mpr ⟨by omega, rfl⟩]
  unfold readLogical
  rw [hfind, exec_ok_bind]
  dsimp only
  rw [hbyte]
  exact readFull_stored hrel hstored hlen

/-- What is read at an address is in the first chunk that covers it. -/
theorem below_of_readLogical {c : Chunk} (hword : logical < 2 ^ 64) (hfit : ∀ d ∈ map, d.logical + d.length ≤ 2 ^ 64)
    (honly : ∀ d ∈ map, d.Covers logical → d = c) (h : readLogical b src offset map logical len = .ok (some node)) :
    c.Below ∧ c ∈ map := by
  unfold readLogical at h
  cases hcovering : covering map logical with
  | none =>
    have hbelow : ∀ d, covering map logical = some d → d.Below := fun d hd => by
      rw [hcovering] at hd
      cases hd
    rw [findChunk_below hword hbelow, hcovering] at h
    cases h
  | some d =>
    have hmem : d ∈ map := List.mem_of_find?_eq_some hcovering
    have hcovers : d.Covers logical := by simpa using List.find?_some hcovering
    obtain rfl := honly d hmem hcovers
    refine ⟨?_, hmem⟩
    by_contra htop
    cases b with
    | debug =>
      rw [findChunk_top hword hcovering htop] at h
      cases h
    | release =>
      rw [findChunk_wrapped hword hfit fun e he hcover => by rwa [honly e he hcover]] at h
      cases h

theorem length_of_readLogical (h : readLogical b src offset map logical len = .ok (some node)) : node.length = len := by
  unfold readLogical at h
  obtain ⟨c, -, h⟩ := exec_bind_ok h
  cases c with
  | none => cases h
  | some c =>
    dsimp only at h
    split at h
    · cases h
    · exact length_of_readFull h

/-- A read stops the program only at a chunk that reaches the largest address. -/
theorem readLogical_ok_iff (hword : logical < 2 ^ 64) : (∃ r, readLogical .debug src offset map logical len = .ok r) ↔
    ∀ c, covering map logical = some c → c.Below := by
  constructor
  · rintro ⟨r, hr⟩ c hc
    by_contra htop
    unfold readLogical at hr
    rw [findChunk_top hword hc htop] at hr
    cases hr
  · intro hbelow
    unfold readLogical
    rw [findChunk_below hword hbelow, exec_ok_bind]
    cases covering map logical with
    | none => exact ⟨none, rfl⟩
    | some c =>
      dsimp only
      cases (checkedAdd c.physical (logical - c.logical)).bind (checkedAdd offset) with
      | none => exact ⟨none, rfl⟩
      | some byte => exact readFull_ok src byte len

end Reads

section Exactness

variable {b : Build} {src : Source} {offset nodesize : ℕ} {sb : Superblock}

theorem address_lt (sb : Superblock) (off : ℕ) : le64 sb.bytes off < 2 ^ 64 := leField_lt 8 _ _

namespace SimpleVolume

variable (v : SimpleVolume src offset sb nodesize)

theorem length_records_le : v.records.length ≤ (v.records.flatMap SysRecord.bytes).length := by
  induction v.records with
  | nil => exact Nat.zero_le _
  | cons r rest ih =>
    have hkey : DISK_KEY_LEN = 17 := rfl
    have hlength := r.length_bytes
    rw [List.flatMap_cons, List.length_append, List.length_cons]
    omega

theorem systemChunks_eq : systemChunks b sb = .ok v.system := by
  have hfew := v.length_records_le
  have hlength := congrArg List.length v.bytes_eq
  have hsb : sb.bytes.length = 4096 := sb.length_eq
  have hfront := v.front_length
  have hstart : SYS_CHUNK_ARRAY = 811 := rfl
  have hmax : MAX_CHUNKS = 4096 := rfl
  simp only [List.length_append] at hlength
  unfold systemChunks parseChunkArray
  rw [v.array_size, word_eq (by omega), exec_ok_bind, min_eq_left (by omega)]
  have hstop := @eval_records b v.records v.front v.behind []
    (SYS_CHUNK_ARRAY + (v.records.flatMap SysRecord.bytes).length) (by rw [hfront]) (by omega)
    (by rw [List.length_nil]; omega)
  rw [hfront, List.nil_append, ← v.bytes_eq] at hstop
  exact hstop

theorem system_subset {c : Chunk} (hc : c ∈ v.system) : c ∈ v.chunks := by
  rw [v.chunks_eq]
  exact List.mem_append_left _ hc

theorem foldl_addChunk : v.chunkItems.foldl addChunk v.system = v.map := by
  have hfew := v.length_records_le
  have hlength := congrArg List.length v.bytes_eq
  have hsb : sb.bytes.length = 4096 := sb.length_eq
  have hmax : MAX_CHUNKS = 4096 := rfl
  simp only [List.length_append] at hlength
  have hsystem : v.system.length ≤ MAX_CHUNKS := by
    rw [system, List.length_map]
    omega
  rw [foldl_capped addChunk_eq v.chunkItems hsystem, ← map_filter_eq, map, v.chunks_eq, system]

theorem foldl_addName : v.rootItems.foldl addName [] = v.names := by
  have hnames : (((v.rootItems.filter (·.IsRef)).map Item.refName).filter (· ≠ [])).map fromUtf8Lossy =
      (v.rootItems.filter fun item => item.IsRef ∧ item.refName ≠ []).map fun item => fromUtf8Lossy item.refName := by
    rw [List.filter_map, List.filter_filter, List.map_map]
    congr 1
    refine List.filter_congr fun item _ => ?_
    rw [Bool.decide_and, Bool.and_comm]
    rfl
  rw [foldl_capped addName_eq v.rootItems (Nat.zero_le _), List.nil_append, ← map_filter_eq, ← hnames, names]

theorem exact_iff : v.Exact b ↔ v.Served := by
  have hchunkNe := v.chunkLeaf.ne_nil
  have hrootNe := v.rootLeaf.ne_nil
  have hmapMem : ∀ c ∈ v.map, c ∈ v.chunks := fun c hc => List.mem_of_mem_take hc
  have hsystemNe : v.system ≠ [] := List.ne_nil_of_mem v.chunkAt_mem
  have hchunkOnly : ∀ d ∈ v.system, d.Covers (le64 sb.bytes CHUNK_ROOT_LOGICAL) → d = v.chunkAt := fun d hd hcovers =>
    v.disjoint d (v.system_subset hd) _ (v.system_subset v.chunkAt_mem) _ hcovers v.chunkAt_covers
  have hrootOnly : ∀ d ∈ v.map, d.Covers (le64 sb.bytes ROOT_LOGICAL) → d = v.rootAt := fun d hd hcovers =>
    v.disjoint d (hmapMem d hd) _ v.rootAt_mem _ hcovers v.rootAt_covers
  constructor
  · rintro ⟨-, hchunk, -, hroot, -⟩
    rw [readChunkNode, if_neg hsystemNe] at hchunk
    have hchunkAt := below_of_readLogical (address_lt sb _) (fun d hd => v.fit d (v.system_subset hd)) hchunkOnly hchunk
    have hrootAt := below_of_readLogical (address_lt sb _) (fun d hd => v.fit d (hmapMem d hd)) hrootOnly hroot
    exact ⟨hchunkAt.1, hrootAt⟩
  · rintro ⟨hchunkBelow, hrootBelow, hrootMem⟩
    have hchunk : readChunkNode b src offset sb nodesize v.system = .ok (some v.chunkNode) := by
      rw [readChunkNode, if_neg hsystemNe]
      exact readLogical_stored v.reliable (address_lt sb _) (covering_of_mem v.chunkAt_mem v.chunkAt_covers hchunkOnly)
        hchunkBelow v.chunkStored hchunkNe v.chunkNode_length
    have hmap : chunkMap b src offset sb nodesize v.system = .ok (some v.map) := by
      rw [chunkMap, hchunk, exec_ok_bind]
      dsimp only
      rw [forEachLeafItem_leaf v.chunkLeaf, v.foldl_addChunk]
    have hroot : readRootNode b src offset sb nodesize v.map = .ok (some v.rootNode) :=
      readLogical_stored v.reliable (address_lt sb _) (covering_of_mem hrootMem v.rootAt_covers hrootOnly) hrootBelow
        v.rootStored hrootNe v.rootNode_length
    refine ⟨v.systemChunks_eq, hchunk, hmap, hroot, ?_⟩
    rw [enumerateSubvolumes, v.systemChunks_eq, exec_ok_bind, hmap, exec_ok_bind]
    dsimp only
    rw [hroot, exec_ok_bind]
    dsimp only
    rw [forEachLeafItem_leaf v.rootLeaf, exec_ok_bind, v.foldl_addName, result]
    split_ifs with hnames
    · rw [hnames]
      rfl
    · rw [Option.filter_some, if_pos (by simpa using hnames)]
      rfl

end SimpleVolume

/-- No address of a tree is in a chunk that reaches the largest address and is the first to cover it. -/
def NoTop (src : Source) (offset : ℕ) (sb : Superblock) (nodesize : ℕ) : Prop :=
  ∀ system, systemChunks .debug sb = .ok system →
    (∀ c, covering system (le64 sb.bytes CHUNK_ROOT_LOGICAL) = some c → c.Below) ∧
    ∀ map, chunkMap .debug src offset sb nodesize system = .ok (some map) →
      ∀ c, covering map (le64 sb.bytes ROOT_LOGICAL) = some c → c.Below

theorem readChunkNode_ok_iff {system : List Chunk} :
    (∃ r, readChunkNode .debug src offset sb nodesize system = .ok r) ↔
      ∀ c, covering system (le64 sb.bytes CHUNK_ROOT_LOGICAL) = some c → c.Below := by
  unfold readChunkNode
  split_ifs with hempty
  · subst hempty
    constructor
    · intro _ c hc
      cases hc
    · exact fun _ => ⟨none, rfl⟩
  · exact readLogical_ok_iff (address_lt sb _)

theorem length_of_readChunkNode {system : List Chunk} {node : List UInt8}
    (h : readChunkNode b src offset sb nodesize system = .ok (some node)) : node.length = nodesize := by
  unfold readChunkNode at h
  split_ifs at h with hempty
  · cases h
  · exact length_of_readLogical h

/-- No step stops the program but the lookups of the two addresses. -/
theorem enumerateSubvolumes_ok_iff (hnode : nodesize < 2 ^ 32) :
    (∃ r, enumerateSubvolumes .debug src offset sb nodesize = .ok r) ↔ NoTop src offset sb nodesize := by
  obtain ⟨system, hsystem⟩ := systemChunks_ok .debug sb
  have hno : NoTop src offset sb nodesize ↔
      (∃ r, readChunkNode .debug src offset sb nodesize system = .ok r) ∧
        ∀ map, chunkMap .debug src offset sb nodesize system = .ok (some map) →
          ∃ r, readRootNode .debug src offset sb nodesize map = .ok r := by
    have hone : NoTop src offset sb nodesize ↔
        (∀ c, covering system (le64 sb.bytes CHUNK_ROOT_LOGICAL) = some c → c.Below) ∧
          ∀ map, chunkMap .debug src offset sb nodesize system = .ok (some map) →
            ∀ c, covering map (le64 sb.bytes ROOT_LOGICAL) = some c → c.Below := by
      refine ⟨fun h => h system hsystem, fun h other hother => ?_⟩
      rw [hsystem] at hother
      cases hother
      exact h
    rw [hone, readChunkNode_ok_iff]
    refine and_congr_right fun _ => forall₂_congr fun map _ => (readLogical_ok_iff (address_lt sb _)).symm
  rw [hno, enumerateSubvolumes, hsystem, exec_ok_bind]
  constructor
  · rintro ⟨r, hr⟩
    obtain ⟨m, hm, hr⟩ := exec_bind_ok hr
    constructor
    · unfold chunkMap at hm
      obtain ⟨node, hread, -⟩ := exec_bind_ok hm
      exact ⟨node, hread⟩
    · intro map hmap
      rw [hmap] at hm
      cases hm
      obtain ⟨node, hread, -⟩ := exec_bind_ok hr
      exact ⟨node, hread⟩
  · rintro ⟨⟨r, hread⟩, hroot⟩
    have hmap : ∃ m, chunkMap .debug src offset sb nodesize system = .ok m := by
      unfold chunkMap
      rw [hread, exec_ok_bind]
      cases r with
      | none => exact ⟨none, rfl⟩
      | some node =>
        have hlength := length_of_readChunkNode hread
        exact forEachLeafItem_ok (by omega) _ _
    obtain ⟨m, hm⟩ := hmap
    rw [hm, exec_ok_bind]
    cases m with
    | none => exact ⟨none, rfl⟩
    | some map =>
      obtain ⟨r, hrootRead⟩ := hroot map hm
      dsimp only
      rw [hrootRead, exec_ok_bind]
      cases r with
      | none => exact ⟨none, rfl⟩
      | some node =>
        have hlength := length_of_readLogical hrootRead
        obtain ⟨names, hnames⟩ := @forEachLeafItem_ok .debug node _ (by omega) addName []
        dsimp only
        rw [hnames]
        exact ⟨_, rfl⟩

/-- The program stops only at a tree whose chunk reaches the largest address, and a volume of two leaves is read
exactly where neither of its trees is in such a chunk and the root is in one that is kept. -/
theorem subvolumes_exact (src : Source) (offset : ℕ) (sb : Superblock) (nodesize : ℕ) (hnode : nodesize < 2 ^ 32) :
    ((∃ r, enumerateSubvolumes .debug src offset sb nodesize = .ok r) ↔ NoTop src offset sb nodesize) ∧
      ∀ (v : SimpleVolume src offset sb nodesize) (b : Build), v.Exact b ↔ v.Served :=
  ⟨enumerateSubvolumes_ok_iff hnode, fun v _ => v.exact_iff⟩

end Exactness

section Sample

theorem leField_toLe (before behind : List UInt8) {l : List UInt8} {n off x : ℕ} (h : l = before ++ toLe n x ++ behind)
    (hoff : before.length = off) (hx : x < 256 ^ n) : leField n l off = x := by
  have hin : off + n ≤ l.length := by
    rw [h, List.length_append, List.length_append, length_toLe, hoff]
    exact Nat.le_add_right _ _
  have hwindow := window_append before (toLe n x) behind
  rw [length_toLe, hoff] at hwindow
  rw [leField, if_pos hin, h, hwindow, le_toLe hx]

/-- The key of an item and the place of its data, right behind it. -/
def itemHead (item : Item) : List (List UInt8) :=
  [toLe 8 item.objectid, [item.ktype], toLe 8 item.keyOff, toLe 4 ITEM_LEN, toLe 4 item.data.length]

/-- A leaf with one item. -/
def oneLeaf (item : Item) (n : ℕ) : List UInt8 :=
  List.replicate 96 0 ++ toLe 4 1 ++ [0] ++ (itemHead item).flatten ++ item.data ++ List.replicate n 0

theorem length_oneLeaf (item : Item) (n : ℕ) :
    (oneLeaf item n).length = HEADER_LEN + ITEM_LEN + item.data.length + n := by
  simp only [oneLeaf, itemHead, List.flatten_cons, List.flatten_nil, List.length_append, List.length_replicate,
    length_toLe, List.length_singleton, List.length_nil]
  rfl

theorem getElem_behind (before behind : List UInt8) {l : List UInt8} {i : ℕ} {x : UInt8}
    (h : l = before ++ [x] ++ behind) (hi : before.length = i) : l[i]? = some x := by
  rw [h, List.append_assoc, ← hi, List.getElem?_append_right le_rfl, Nat.sub_self]
  rfl

theorem leaf_oneLeaf {item : Item} {n : ℕ} (hobject : item.objectid < 2 ^ 64) (hkey : item.keyOff < 2 ^ 64)
    (hdata : item.data.length < 2 ^ 32) (hn : n < 2 ^ 32) : Leaf (oneLeaf item n) [item] := by
  have hlength := length_oneLeaf item n
  have hheader : HEADER_LEN = 101 := rfl
  have hsize : ITEM_LEN = 25 := rfl
  -- the bytes around each of the fields, the header in front of them
  obtain ⟨header, hdef⟩ : ∃ header, header = List.replicate 96 0 ++ toLe 4 1 ++ [0] := ⟨_, rfl⟩
  have hlong : header.length = 101 := by
    rw [hdef]
    rfl
  have hleaf : oneLeaf item n = header ++ toLe 8 item.objectid ++ [item.ktype] ++ toLe 8 item.keyOff ++
      toLe 4 ITEM_LEN ++ toLe 4 item.data.length ++ item.data ++ List.replicate n 0 := by
    simp only [oneLeaf, itemHead, hdef, List.flatten_cons, List.flatten_nil, List.append_nil, List.append_assoc]
  have hcount : le32 (oneLeaf item n) 96 = 1 := by
    refine leField_toLe (List.replicate 96 0) ([0] ++ (itemHead item).flatten ++ item.data ++ List.replicate n 0) ?_
      List.length_replicate (by decide)
    simp only [oneLeaf, List.append_assoc]
  have hlevel : (oneLeaf item n)[100]? = some 0 := by
    refine getElem_behind (List.replicate 96 0 ++ toLe 4 1)
      ((itemHead item).flatten ++ item.data ++ List.replicate n 0) ?_ rfl
    simp only [oneLeaf, List.append_assoc]
  have hobjectid : le64 (oneLeaf item n) 101 = item.objectid := by
    refine leField_toLe header ([item.ktype] ++ toLe 8 item.keyOff ++ toLe 4 ITEM_LEN ++ toLe 4 item.data.length ++
      item.data ++ List.replicate n 0) ?_ hlong hobject
    simp only [hleaf, List.append_assoc]
  have hktype : (oneLeaf item n)[109]? = some item.ktype := by
    refine getElem_behind (header ++ toLe 8 item.objectid) (toLe 8 item.keyOff ++ toLe 4 ITEM_LEN ++
      toLe 4 item.data.length ++ item.data ++ List.replicate n 0) ?_ ?_
    · simp only [hleaf, List.append_assoc]
    · simp only [List.length_append, length_toLe, hlong]
  have hkeyOff : le64 (oneLeaf item n) 110 = item.keyOff := by
    refine leField_toLe (header ++ toLe 8 item.objectid ++ [item.ktype]) (toLe 4 ITEM_LEN ++
      toLe 4 item.data.length ++ item.data ++ List.replicate n 0) ?_ ?_ hkey
    · simp only [hleaf, List.append_assoc]
    · simp only [List.length_append, length_toLe, List.length_singleton, hlong]
  have hoff : le32 (oneLeaf item n) 118 = ITEM_LEN := by
    refine leField_toLe (header ++ toLe 8 item.objectid ++ [item.ktype] ++ toLe 8 item.keyOff)
      (toLe 4 item.data.length ++ item.data ++ List.replicate n 0) ?_ ?_ (by decide)
    · simp only [hleaf, List.append_assoc]
    · simp only [List.length_append, length_toLe, List.length_singleton, hlong]
  have hdataSize : le32 (oneLeaf item n) 122 = item.data.length := by
    refine leField_toLe (header ++ toLe 8 item.objectid ++ [item.ktype] ++ toLe 8 item.keyOff ++ toLe 4 ITEM_LEN)
      (item.data ++ List.replicate n 0) ?_ ?_ hdata
    · simp only [hleaf, List.append_assoc]
    · simp only [List.length_append, length_toLe, List.length_singleton, hlong]
  have hwindow : window (oneLeaf item n) 126 item.data.length = item.data := by
    have hfront : (header ++ toLe 8 item.objectid ++ [item.ktype] ++ toLe 8 item.keyOff ++ toLe 4 ITEM_LEN ++
        toLe 4 item.data.length).length = 126 := by
      simp only [List.length_append, length_toLe, List.length_singleton, hlong]
    rw [hleaf, List.append_assoc _ item.data, window_behind hfront le_rfl, window_whole rfl]
  refine ⟨by omega, by omega, hcount, hlevel, by rw [List.length_singleton]; omega, fun i other hi => ?_⟩
  cases i with
  | succ i => cases hi
  | zero =>
    cases hi
    exact ⟨ITEM_LEN, hobjectid, hktype, hkeyOff, hoff, hdataSize, by omega, hwindow⟩

/-- A chunk of 1024 bytes at the beginning of the device. -/
def chunkBody : List UInt8 :=
  toLe 8 1024 ++ List.replicate 36 0 ++ toLe 2 1 ++ List.replicate 10 0 ++ toLe 8 0 ++ List.replicate 16 0

variable {base : ℕ}

theorem chunkBody_written (base : ℕ) : ChunkBytes ⟨base, 1024, 0⟩ chunkBody := by
  refine ⟨?_, ?_, ?_, (by decide : (1024 : ℕ) ≠ 0), ?_⟩
  · decide +kernel
  · decide +kernel
  · change le64 chunkBody 0 = 1024
    decide +kernel
  · change le64 chunkBody 56 = 0
    decide +kernel

theorem length_chunkBody : chunkBody.length = 80 := by decide +kernel

def oneRecord (hbase : base < 2 ^ 64) : SysRecord where
  chunk := ⟨base, 1024, 0⟩
  objectid := List.replicate 8 0
  offset := toLe 8 base
  body := chunkBody
  objectid_length := rfl
  offset_length := length_toLe 8 base
  offset_written := le_toLe hbase
  written := chunkBody_written base
  body_length := by decide +kernel

def chunkItem (base : ℕ) : Item := ⟨0, CHUNK_ITEM_KEY, base, chunkBody⟩

def homeItem : Item := ⟨5, ROOT_REF_KEY, 256, List.replicate 16 0 ++ toLe 2 4 ++ [0x68, 0x6f, 0x6d, 0x65]⟩

/-- A device with a leaf of the chunk tree and a leaf of the root tree. -/
def twoLeaves (base : ℕ) : List UInt8 := oneLeaf (chunkItem base) 306 ++ oneLeaf homeItem 364

theorem length_twoLeaves (base : ℕ) : (twoLeaves base).length = 1024 := by
  rw [twoLeaves, List.length_append, length_oneLeaf, length_oneLeaf]
  rfl

def BTRFS_MAGIC : List UInt8 := [0x5f, 0x42, 0x48, 0x52, 0x66, 0x53, 0x5f, 0x4d]

/-- The fields of a superblock in front of its array of chunks. -/
def beforeArray (base : ℕ) : List UInt8 :=
  List.replicate 64 0 ++ BTRFS_MAGIC ++ List.replicate 8 0 ++ toLe 8 (base + 512) ++ toLe 8 base ++
    List.replicate 16 0 ++ toLe 8 69632 ++ List.replicate 24 0 ++ toLe 4 4096 ++ toLe 4 512 ++ List.replicate 8 0 ++
    toLe 4 97 ++ List.replicate 647 0

theorem length_beforeArray (base : ℕ) : (beforeArray base).length = SYS_CHUNK_ARRAY := by
  simp only [beforeArray, List.length_append, List.length_replicate, length_toLe]
  rfl

def oneChunk (hbase : base < 2 ^ 64) : Superblock where
  bytes := beforeArray base ++ (oneRecord hbase).bytes ++ List.replicate 3188 0
  length_eq := by
    rw [List.length_append, List.length_append, length_beforeArray, SysRecord.length_bytes, List.length_replicate]
    rfl

/-- The leaves, and the superblock at its place behind them. -/
def volumeBytes (hbase : base < 2 ^ 64) : List UInt8 :=
  twoLeaves base ++ (List.replicate 64512 0 ++ (oneChunk hbase).bytes)

theorem length_volumeBytes (hbase : base < 2 ^ 64) : (volumeBytes hbase).length = 69632 := by
  rw [volumeBytes, List.length_append, List.length_append, length_twoLeaves, (oneChunk hbase).length_eq,
    List.length_replicate]
  rfl

def twoLeafDevice (hbase : base < 2 ^ 64) : Source where
  data := volumeBytes hbase
  size_lt := by
    rw [length_volumeBytes]
    decide

theorem oneChunk_fields (hbase : base + 1024 ≤ 2 ^ 64) (hword : base < 2 ^ 64) :
    le64 (oneChunk hword).bytes ROOT_LOGICAL = base + 512 ∧ le64 (oneChunk hword).bytes CHUNK_ROOT_LOGICAL = base ∧
      le32 (oneChunk hword).bytes SYS_CHUNK_ARRAY_SIZE = 97 := by
  obtain ⟨behind, hbehind⟩ : ∃ behind, behind =
      List.replicate 647 0 ++ (oneRecord hword).bytes ++ List.replicate 3188 0 := ⟨_, rfl⟩
  obtain ⟨sizes, hsizes⟩ : ∃ sizes, sizes = List.replicate 16 0 ++ toLe 8 69632 ++ List.replicate 24 0 ++
      toLe 4 4096 ++ toLe 4 512 ++ List.replicate 8 0 := ⟨_, rfl⟩
  obtain ⟨front, hfront⟩ : ∃ front, front = List.replicate 64 0 ++ BTRFS_MAGIC ++ List.replicate 8 0 := ⟨_, rfl⟩
  have hlong : front.length = 80 := by
    rw [hfront]
    rfl
  have hsizesLong : sizes.length = 64 := by
    rw [hsizes]
    rfl
  have hbytes : (oneChunk hword).bytes =
      front ++ toLe 8 (base + 512) ++ toLe 8 base ++ sizes ++ toLe 4 97 ++ behind := by
    simp only [oneChunk, beforeArray, hbehind, hsizes, hfront, List.append_assoc]
  refine ⟨?_, ?_, ?_⟩
  · refine leField_toLe front (toLe 8 base ++ sizes ++ toLe 4 97 ++ behind) ?_ hlong (by omega)
    simp only [hbytes, List.append_assoc]
  · refine leField_toLe (front ++ toLe 8 (base + 512)) (sizes ++ toLe 4 97 ++ behind) ?_ ?_ (by omega)
    · simp only [hbytes, List.append_assoc]
    · rw [List.length_append, length_toLe, hlong]
      rfl
  · refine leField_toLe (front ++ toLe 8 (base + 512) ++ toLe 8 base ++ sizes) behind hbytes ?_ (by decide)
    simp only [List.length_append, length_toLe, hlong, hsizesLong]
    rfl

theorem covers_oneChunk {a : ℕ} (ha : base ≤ a) (hlt : a < base + 1024) : (⟨base, 1024, 0⟩ : Chunk).Covers a :=
  ⟨ha, hlt⟩

theorem chunk_chunkItem (base : ℕ) : ([chunkItem base].filter (·.IsChunk)).map Item.chunk = [⟨base, 1024, 0⟩] := by
  have hchunk : (chunkItem base).IsChunk := by
    change CHUNK_ITEM_KEY = CHUNK_ITEM_KEY ∧ 56 + 8 ≤ chunkBody.length ∧ le16 chunkBody 44 ≠ 0 ∧ le64 chunkBody 0 ≠ 0
    decide +kernel
  have heq : (chunkItem base).chunk = ⟨base, 1024, 0⟩ := by
    have hwritten := chunkBody_written base
    unfold Item.chunk chunkItem
    rw [hwritten.length_written, hwritten.physical_written]
  rw [List.filter_cons_of_pos (by simpa using hchunk), List.map_cons, heq]
  rfl

theorem eq_of_mem_twice {c : Chunk} (hc : c ∈ [(⟨base, 1024, 0⟩ : Chunk), ⟨base, 1024, 0⟩]) : c = ⟨base, 1024, 0⟩ := by
  simpa using hc

theorem stored_leaves (hword : base < 2 ^ 64) : Stored (twoLeafDevice hword) 0 (oneLeaf (chunkItem base) 306) ∧
    Stored (twoLeafDevice hword) 512 (oneLeaf homeItem 364) := by
  have hstored : Stored (twoLeafDevice hword) 0 (twoLeaves base) := List.prefix_append _ _
  have hlength : (oneLeaf (chunkItem base) 306).length = 512 := by
    rw [length_oneLeaf]
    rfl
  have hright := hstored.right
  rw [hlength] at hright
  exact ⟨hstored.left, hright⟩

/-- A volume whose one chunk begins at an address. -/
def oneChunkVolume (hbase : base + 1024 ≤ 2 ^ 64) (hword : base < 2 ^ 64) :
    SimpleVolume (twoLeafDevice hword) 0 (oneChunk hword) 512 where
  reliable _ _ := rfl
  front := beforeArray base
  records := [oneRecord hword]
  behind := List.replicate 3188 0
  bytes_eq := by rw [List.flatMap_singleton]; rfl
  front_length := length_beforeArray base
  array_size := by
    rw [(oneChunk_fields hbase hword).2.2, List.flatMap_singleton, SysRecord.length_bytes]
    rfl
  chunkNode := oneLeaf (chunkItem base) 306
  chunkItems := [chunkItem base]
  chunkLeaf := leaf_oneLeaf (Nat.two_pow_pos 64) hword (length_chunkBody.trans_lt (by decide)) (by decide)
  chunkNode_length := by
    rw [length_oneLeaf]
    rfl
  rootNode := oneLeaf homeItem 364
  rootItems := [homeItem]
  rootLeaf := leaf_oneLeaf (by decide) (by decide) (by decide +kernel) (by decide)
  rootNode_length := by decide +kernel
  chunks := [⟨base, 1024, 0⟩, ⟨base, 1024, 0⟩]
  chunks_eq := by
    rw [chunk_chunkItem]
    rfl
  fit c hc := by
    rw [eq_of_mem_twice hc]
    exact hbase
  disjoint c hc d hd _ _ _ := (eq_of_mem_twice hc).trans (eq_of_mem_twice hd).symm
  chunkAt := ⟨base, 1024, 0⟩
  chunkAt_mem := List.mem_singleton_self _
  chunkAt_covers := by
    rw [(oneChunk_fields hbase hword).2.1]
    exact covers_oneChunk le_rfl (by omega)
  chunkStored := by
    rw [(oneChunk_fields hbase hword).2.1]
    simpa using (stored_leaves hword).1
  rootAt := ⟨base, 1024, 0⟩
  rootAt_mem := List.mem_cons_self
  rootAt_covers := by
    rw [(oneChunk_fields hbase hword).1]
    exact covers_oneChunk (by omega) (by omega)
  rootStored := by
    rw [(oneChunk_fields hbase hword).1]
    simpa using (stored_leaves hword).2

theorem served_oneChunk (hbase : base + 1024 < 2 ^ 64) (hword : base < 2 ^ 64) :
    (oneChunkVolume hbase.le hword).Served := by
  refine ⟨hbase, hbase, ?_⟩
  change (⟨base, 1024, 0⟩ : Chunk) ∈ [(⟨base, 1024, 0⟩ : Chunk), ⟨base, 1024, 0⟩].take MAX_CHUNKS
  have hfew : [(⟨base, 1024, 0⟩ : Chunk), ⟨base, 1024, 0⟩].length ≤ MAX_CHUNKS := (by decide : 2 ≤ 4096)
  rw [List.take_of_length_le hfew]
  exact List.mem_cons_self

theorem zero_lt_word : 0 < 2 ^ 64 := by decide
theorem zero_fits : 0 + 1024 ≤ 2 ^ 64 := by decide
theorem top_lt_word : 2 ^ 64 - 1024 < 2 ^ 64 := by decide
theorem top_fits : 2 ^ 64 - 1024 + 1024 ≤ 2 ^ 64 := by decide

/-- The volume is read where its chunk begins at zero. -/
theorem home_at_zero : (oneChunkVolume zero_fits zero_lt_word).Exact .debug ∧
    (oneChunkVolume zero_fits zero_lt_word).result = some ["home".toList] :=
  ⟨((subvolumes_exact _ _ _ _ (by decide)).2 _ _).mpr (served_oneChunk (by decide) zero_lt_word), by decide +kernel⟩

/-- The same volume with its chunk at the end of the addresses stops a program with checks, and nothing reads it. -/
theorem home_at_top :
    enumerateSubvolumes .debug (twoLeafDevice top_lt_word) 0 (oneChunk top_lt_word) 512 = .error .overflow ∧
      ∀ b, ¬ (oneChunkVolume top_fits top_lt_word).Exact b := by
  have hcovering : covering (oneChunkVolume top_fits top_lt_word).system
      (le64 (oneChunk top_lt_word).bytes CHUNK_ROOT_LOGICAL) = some ⟨2 ^ 64 - 1024, 1024, 0⟩ := by
    rw [(oneChunk_fields top_fits top_lt_word).2.1]
    decide
  have htop : ¬ (⟨2 ^ 64 - 1024, 1024, 0⟩ : Chunk).Below := lt_irrefl (2 ^ 64)
  have hne : (oneChunkVolume top_fits top_lt_word).system ≠ [] := List.cons_ne_nil _ _
  constructor
  · rw [enumerateSubvolumes, (oneChunkVolume top_fits top_lt_word).systemChunks_eq, exec_ok_bind, chunkMap,
      readChunkNode, if_neg hne, readLogical, findChunk_top (address_lt _ _) hcovering htop]
    rfl
  · intro b hexact
    exact htop ((oneChunkVolume top_fits top_lt_word).exact_iff.mp hexact).1

end Sample

end Unearth.Btrfs
