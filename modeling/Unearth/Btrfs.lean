import Unearth.Stored
import Unearth.Lib.Utf8

/-!
# The subvolumes of a Btrfs volume

An address of a tree is a logical one. The array of chunks in the superblock says where the chunk tree is, whose
leaf says where the rest is; the names of the subvolumes are in the leaf of the root tree.
-/

namespace Unearth.Btrfs
open Bytes Word Loop Post Utf8 Lines

/-- A range of logical addresses and where it begins on the device. -/
structure Chunk where
  logical : ℕ
  length : ℕ
  physical : ℕ
  deriving DecidableEq

structure Item where
  objectid : ℕ
  ktype : UInt8
  keyOff : ℕ
  data : List UInt8
  deriving DecidableEq

def ROOT_LOGICAL : ℕ := 80
def CHUNK_ROOT_LOGICAL : ℕ := 88
def SYS_CHUNK_ARRAY_SIZE : ℕ := 160
def SYS_CHUNK_ARRAY : ℕ := 811
def SUPERBLOCK_LEN : ℕ := 4096
def HEADER_LEN : ℕ := 101
def ITEM_LEN : ℕ := 25
def DISK_KEY_LEN : ℕ := 17
def CHUNK_ITEM_KEY : UInt8 := 228
def ROOT_REF_KEY : UInt8 := 156
def MAX_CHUNKS : ℕ := 4096
def MAX_SUBVOLUMES : ℕ := 4096

structure Superblock where
  bytes : List UInt8
  length_eq : bytes.length = SUPERBLOCK_LEN

section Fields

/-- A field of `n` bytes, the lowest first; zero where the buffer ends before. -/
def leField (n : ℕ) (bytes : List UInt8) (off : ℕ) : ℕ :=
  if off + n ≤ bytes.length then le (window bytes off n) else 0

def le16 : List UInt8 → ℕ → ℕ := leField 2
def le32 : List UInt8 → ℕ → ℕ := leField 4
def le64 : List UInt8 → ℕ → ℕ := leField 8

def index (bytes : List UInt8) (i : ℕ) : Exec UInt8 :=
  match bytes[i]? with
  | some x => .ok x
  | none => .error .slice

theorem leField_lt (n : ℕ) (bytes : List UInt8) (off : ℕ) : leField n bytes off < 256 ^ n := by
  unfold leField
  split_ifs
  · exact le_window_lt bytes off n
  · exact Nat.pow_pos (by decide)

end Fields

section Chunks

/-- A chunk from its bytes. -/
def parseChunk (chunk : List UInt8) (logical : ℕ) (map : List Chunk) : List Chunk :=
  if chunk.length < 56 + 8 then map
  else if le16 chunk 44 = 0 ∨ le64 chunk 0 = 0 then map
  else if map.length < MAX_CHUNKS then map ++ [⟨logical, le64 chunk 0, le64 chunk 56⟩]
  else map

variable (b : Build) (buf : List UInt8) (stop : ℕ)

/-- The logical address and the bytes of the chunk behind a key. -/
def chunkRecord (p : ℕ) : Exec (Option (ℕ × List UInt8)) :=
  let chunk := p + DISK_KEY_LEN
  if buf.getD (p + 8) 0 ≠ CHUNK_ITEM_KEY ∨ stop < chunk + 48 then return none
  else do
    let numStripes := le16 buf (chunk + 44)
    let consumed ← word 64 b (48 + numStripes * 32)
    if numStripes = 0 ∨ stop < (← word 64 b (chunk + consumed)) then return none
    else return some (le64 buf (p + 9), ← slice buf chunk consumed)

def arrayStep : ℕ × List Chunk → Exec (ℕ × List Chunk ⊕ List Chunk)
  | (p, map) =>
    if stop < p + DISK_KEY_LEN ∨ MAX_CHUNKS ≤ map.length then return .inr map
    else do
      match ← chunkRecord b buf stop p with
      | none => return .inr map
      | some (logical, chunk) => return .inl (p + DISK_KEY_LEN + chunk.length, parseChunk chunk logical map)

theorem arrayStep_decreases (s s' : ℕ × List Chunk) (h : arrayStep b buf stop s = .ok (.inl s')) :
    stop - s'.1 < stop - s.1 := by
  obtain ⟨p, map⟩ := s
  unfold arrayStep at h
  dsimp only at h
  split_ifs at h with hend
  · cases h
  · rw [not_or, not_lt] at hend
    obtain ⟨r, -, h⟩ := exec_bind_ok h
    cases r with
    | none => cases h
    | some r =>
      cases h
      have hkey : 0 < DISK_KEY_LEN := by decide
      dsimp only
      omega

def arrayLoop : Until Fault (ℕ × List Chunk) (List Chunk) where
  step := arrayStep b buf stop
  measure s := stop - s.1
  decreases := arrayStep_decreases b buf stop

variable {b buf stop} {s s' : ℕ × List Chunk} {map : List Chunk}

theorem arrayLoop_next (h : arrayStep b buf stop s = .ok (.inl s')) :
    (arrayLoop b buf stop).eval s = (arrayLoop b buf stop).eval s' := (arrayLoop b buf stop).eval_next h

theorem arrayLoop_done (h : arrayStep b buf stop s = .ok (.inr map)) : (arrayLoop b buf stop).eval s = .ok map :=
  (arrayLoop b buf stop).eval_done h

end Chunks

section Volume

variable (b : Build) (src : Source) (offset : ℕ) (sb : Superblock) (nodesize : ℕ)

def parseChunkArray (start size : ℕ) (map : List Chunk) : Exec (List Chunk) := do
  let stop := min (← word 64 b (start + size)) sb.bytes.length
  (arrayLoop b sb.bytes stop).eval (start, map)

/-- The first chunk whose range has an address. -/
def findChunk (logical : ℕ) : List Chunk → Exec (Option Chunk)
  | [] => return none
  | c :: rest =>
    if c.logical ≤ logical then do
      if logical < (← plus b c.logical c.length) then return some c else findChunk logical rest
    else findChunk logical rest

/-- A buffer that is filled, or nothing. -/
def readFull (byte len : ℕ) : Exec (Option (List UInt8)) := do
  match ← tolerated none (some <$> src.readAt byte len) with
  | none => return none
  | some buf => return if buf.length < len then none else some buf

def readLogical (map : List Chunk) (logical len : ℕ) : Exec (Option (List UInt8)) := do
  match ← findChunk b logical map with
  | none => return none
  | some c =>
    match (checkedAdd c.physical (logical - c.logical)).bind (checkedAdd offset) with
    | none => return none
    | some byte => readFull src byte len

/-- The item of a leaf with a number; no item where its data are not in the node. -/
def itemAt (node : List UInt8) (i : ℕ) : Exec (Option (Option Item)) := do
  let item ← word 64 b (HEADER_LEN + (← word 64 b (i * ITEM_LEN)))
  let ktype ← index node (← word 64 b (item + 8))
  let dataOff := le32 node (← word 64 b (item + 17))
  let dataSize := le32 node (← word 64 b (item + 21))
  let start ← word 64 b (HEADER_LEN + dataOff)
  match checkedAdd start dataSize with
  | none => return none
  | some endpos =>
    if node.length < endpos then return some none
    else return some (some ⟨le64 node item, ktype, le64 node (← word 64 b (item + 9)), ← slice node start dataSize⟩)

def nextItem {σ : Type} (node : List UInt8) (f : σ → Item → σ) (s : Option σ) (i : ℕ) : Exec (Option σ) :=
  match s with
  | none => return none
  | some s => do return (← itemAt b node i).map fun item => item.elim s (f s)

def forEachLeafItem {σ : Type} (node : List UInt8) (f : σ → Item → σ) (s : σ) : Exec (Option σ) :=
  if node.length < HEADER_LEN then return none
  else do
    let nritems := le32 node 96
    if (← index node 100) ≠ 0 then return none
    else if (node.length - HEADER_LEN) / ITEM_LEN < nritems then return none
    else (List.range nritems).foldlM (nextItem b node f) (some s)

def addChunk (map : List Chunk) (item : Item) : List Chunk :=
  if item.ktype = CHUNK_ITEM_KEY ∧ map.length < MAX_CHUNKS then parseChunk item.data item.keyOff map else map

def rootRefName (data : List UInt8) : Option Text :=
  if data.length < 18 then none
  else if data.length < 18 + le16 data 16 ∨ window data 18 (le16 data 16) = [] then none
  else some (fromUtf8Lossy (window data 18 (le16 data 16)))

def addName (names : List Text) (item : Item) : List Text :=
  if item.ktype = ROOT_REF_KEY ∧ names.length < MAX_SUBVOLUMES then names ++ (rootRefName item.data).toList else names

/-- The chunks of the array in the superblock. -/
def systemChunks : Exec (List Chunk) :=
  parseChunkArray b sb SYS_CHUNK_ARRAY (le32 sb.bytes SYS_CHUNK_ARRAY_SIZE) []

def readChunkNode (map : List Chunk) : Exec (Option (List UInt8)) :=
  if map = [] then return none else readLogical b src offset map (le64 sb.bytes CHUNK_ROOT_LOGICAL) nodesize

/-- The chunks of the array and those of the chunk tree. -/
def chunkMap (map : List Chunk) : Exec (Option (List Chunk)) := do
  match ← readChunkNode b src offset sb nodesize map with
  | none => return none
  | some node => forEachLeafItem b node addChunk map

def readRootNode (map : List Chunk) : Exec (Option (List UInt8)) :=
  readLogical b src offset map (le64 sb.bytes ROOT_LOGICAL) nodesize

def enumerateSubvolumes : Exec (Option (List Text)) := do
  match ← chunkMap b src offset sb nodesize (← systemChunks b sb) with
  | none => return none
  | some map =>
    match ← readRootNode b src offset sb nodesize map with
    | none => return none
    | some node => return (← forEachLeafItem b node addName []).filter (· ≠ [])

end Volume

section Lookup

/-- An address is in the range of a chunk. -/
def Chunk.Covers (c : Chunk) (logical : ℕ) : Prop := c.logical ≤ logical ∧ logical < c.logical + c.length

instance (c : Chunk) (logical : ℕ) : Decidable (c.Covers logical) := inferInstanceAs (Decidable (_ ∧ _))

/-- The first chunk that covers an address. -/
def covering (map : List Chunk) (logical : ℕ) : Option Chunk := map.find? (·.Covers logical)

variable {b : Build} {map : List Chunk} {logical : ℕ}

/-- The range of a chunk ends below the largest address. -/
def Chunk.Below (c : Chunk) : Prop := c.logical + c.length < 2 ^ 64

theorem findChunk_skip {c : Chunk} (hword : logical < 2 ^ 64) (hno : ¬ c.Covers logical) :
    findChunk b logical (c :: map) = findChunk b logical map := by
  unfold Chunk.Covers at hno
  rw [findChunk]
  by_cases hle : c.logical ≤ logical
  · rw [if_pos hle, plus_eq (by omega), exec_ok_bind, if_neg (by omega)]
  · rw [if_neg hle]

theorem findChunk_below (hword : logical < 2 ^ 64) (hbelow : ∀ c, covering map logical = some c → c.Below) :
    findChunk b logical map = .ok (covering map logical) := by
  induction map with
  | nil => rfl
  | cons c rest ih =>
    unfold covering at hbelow ih ⊢
    by_cases hc : c.Covers logical
    · rw [List.find?_cons_of_pos (by simpa using hc)] at hbelow ⊢
      have hsum : c.logical + c.length < 2 ^ 64 := hbelow c rfl
      rw [findChunk, if_pos hc.1, plus_eq hsum, exec_ok_bind, if_pos hc.2]
      rfl
    · rw [List.find?_cons_of_neg (by simpa using hc)] at hbelow ⊢
      rw [findChunk_skip hword hc, ih hbelow]

/-- The lookup overflows at a range that reaches the largest address. -/
theorem findChunk_top {c : Chunk} (hword : logical < 2 ^ 64) (hc : covering map logical = some c) (htop : ¬ c.Below) :
    findChunk .debug logical map = .error .overflow := by
  induction map with
  | nil => cases hc
  | cons d rest ih =>
    unfold covering at hc ih
    by_cases hd : d.Covers logical
    · rw [List.find?_cons_of_pos (by simpa using hd)] at hc
      cases hc
      rw [findChunk, if_pos hd.1, plus_debug (not_lt.mp htop)]
      rfl
    · rw [List.find?_cons_of_neg (by simpa using hd)] at hc
      rw [findChunk_skip hword hd, ih hc]

/-- A build without checks finds no such range. -/
theorem findChunk_wrapped (hword : logical < 2 ^ 64) (hfit : ∀ c ∈ map, c.logical + c.length ≤ 2 ^ 64)
    (htop : ∀ c ∈ map, c.Covers logical → ¬ c.Below) : findChunk .release logical map = .ok none := by
  induction map with
  | nil => rfl
  | cons c rest ih =>
    obtain ⟨hown, hfit⟩ := List.forall_mem_cons.mp hfit
    obtain ⟨htopOwn, htop⟩ := List.forall_mem_cons.mp htop
    by_cases hc : c.Covers logical
    · have hsum : c.logical + c.length = 2 ^ 64 := le_antisymm hown (not_lt.mp (htopOwn hc))
      have hplus : plus .release c.logical c.length = .ok 0 := by
        unfold plus wrapAdd
        rw [if_neg (by omega), hsum]
        rfl
      rw [findChunk, if_pos hc.1, hplus, exec_ok_bind, if_neg (Nat.not_lt_zero _), ih hfit htop]
    · rw [findChunk_skip hword hc, ih hfit htop]

theorem covering_of_mem {c : Chunk} (hc : c ∈ map) (hcovers : c.Covers logical)
    (honly : ∀ d ∈ map, d.Covers logical → d = c) : covering map logical = some c := by
  unfold covering
  cases hfind : map.find? (·.Covers logical) with
  | none => exact absurd hcovers (by simpa using List.find?_eq_none.mp hfind c hc)
  | some d =>
    have hd : d.Covers logical := by simpa using List.find?_some hfind
    rw [honly d (List.mem_of_find?_eq_some hfind) hd]

end Lookup

section Capped

/-- What is pushed while there is room is the front of all of it. -/
theorem foldl_capped {α β : Type} {f : List β → α → List β} {g : α → Option β} {n : ℕ}
    (hf : ∀ l x, f l x = if l.length < n then l ++ (g x).toList else l) (xs : List α) {l : List β}
    (hl : l.length ≤ n) : xs.foldl f l = (l ++ xs.filterMap g).take n := by
  induction xs generalizing l with
  | nil => rw [List.foldl_nil, List.filterMap_nil, List.append_nil, List.take_of_length_le hl]
  | cons x xs ih =>
    rw [List.foldl_cons, hf]
    by_cases hroom : l.length < n
    · rw [if_pos hroom]
      cases hx : g x with
      | none => rw [List.filterMap_cons_none hx, Option.toList_none, List.append_nil, ih hl]
      | some y =>
        rw [List.filterMap_cons_some hx, Option.toList_some, ih (by rw [List.length_append]; exact hroom),
          List.append_assoc, List.singleton_append]
    · have hfull : l.length = n := by omega
      rw [if_neg hroom, ih hl, List.take_append_of_le_length hfull.ge, List.take_append_of_le_length hfull.ge]

end Capped

section Leaves

/-- A node is a leaf with items whose data are in it. -/
structure Leaf (node : List UInt8) (items : List Item) : Prop where
  length_lt : node.length < 2 ^ 63
  header : HEADER_LEN ≤ node.length
  count : le32 node 96 = items.length
  level : node[100]? = some 0
  fit : items.length * ITEM_LEN ≤ node.length - HEADER_LEN
  item : ∀ i item, items[i]? = some item → ∃ dataOff,
    le64 node (HEADER_LEN + i * ITEM_LEN) = item.objectid ∧
    node[HEADER_LEN + i * ITEM_LEN + 8]? = some item.ktype ∧
    le64 node (HEADER_LEN + i * ITEM_LEN + 9) = item.keyOff ∧
    le32 node (HEADER_LEN + i * ITEM_LEN + 17) = dataOff ∧
    le32 node (HEADER_LEN + i * ITEM_LEN + 21) = item.data.length ∧
    HEADER_LEN + dataOff + item.data.length ≤ node.length ∧
    window node (HEADER_LEN + dataOff) item.data.length = item.data

variable {b : Build} {node : List UInt8} {σ : Type}

theorem Leaf.ne_nil {items : List Item} (h : Leaf node items) : node ≠ [] :=
  List.ne_nil_of_length_pos ((by decide : 0 < HEADER_LEN).trans_le h.header)

theorem index_eq {bytes : List UInt8} {i : ℕ} {x : UInt8} (h : bytes[i]? = some x) : index bytes i = .ok x := by
  rw [index, h]

theorem itemAt_leaf {items : List Item} (h : Leaf node items) {i : ℕ} {item : Item} (hi : items[i]? = some item) :
    itemAt b node i = .ok (some (some item)) := by
  have hlt := h.length_lt
  have hfit := h.fit
  have hheader := h.header
  have hlen : i < items.length := (List.getElem?_eq_some_iff.mp hi).1
  have hplace : i * ITEM_LEN + ITEM_LEN ≤ items.length * ITEM_LEN := by
    rw [← Nat.succ_mul]
    exact Nat.mul_le_mul_right _ hlen
  have hsize : ITEM_LEN = 25 := rfl
  obtain ⟨dataOff, hobject, hktype, hkey, hoff, hdata, hin, hwindow⟩ := h.item i item hi
  unfold itemAt
  rw [word_eq (by omega), exec_ok_bind, word_eq (by omega), exec_ok_bind, word_eq (by omega), exec_ok_bind,
    index_eq hktype, exec_ok_bind, word_eq (by omega), exec_ok_bind, word_eq (by omega), exec_ok_bind, hoff, hdata,
    word_eq (by omega), exec_ok_bind, checkedAdd_eq_some.mpr ⟨by omega, rfl⟩]
  dsimp only
  rw [if_neg (by omega), word_eq (by omega), exec_ok_bind, slice_eq (by omega), exec_ok_bind, hobject, hkey, hwindow]
  rfl

theorem foldlM_items (f : σ → Item → σ) (items : List Item) (k : ℕ)
    (h : ∀ i item, items[i]? = some item → itemAt b node (k + i) = .ok (some (some item))) (s : σ) :
    (List.range' k items.length).foldlM (nextItem b node f) (some s) = .ok (some (items.foldl f s)) := by
  induction items generalizing k s with
  | nil => rfl
  | cons item rest ih =>
    have hfirst := h 0 item rfl
    rw [List.length_cons, List.range'_succ, List.foldlM_cons, nextItem, ← Nat.add_zero k, hfirst, exec_ok_bind]
    refine ih (k + 0 + 1) (fun i item hi => ?_) (f s item)
    have hnext := h (i + 1) item hi
    rwa [Nat.add_zero, Nat.add_assoc, Nat.add_comm 1 i]

/-- The items of a leaf are taken in order. -/
theorem forEachLeafItem_leaf {items : List Item} (h : Leaf node items) (f : σ → Item → σ) (s : σ) :
    forEachLeafItem b node f s = .ok (some (items.foldl f s)) := by
  have hcount : ¬ (node.length - HEADER_LEN) / ITEM_LEN < items.length := by
    have hsize : ITEM_LEN = 25 := rfl
    have hfit := h.fit
    rw [not_lt, Nat.le_div_iff_mul_le (by decide)]
    exact hfit
  unfold forEachLeafItem
  rw [if_neg (not_lt.mpr h.header), index_eq h.level, exec_ok_bind, if_neg (by decide), h.count, if_neg hcount,
    List.range_eq_range']
  refine foldlM_items f items 0 (fun i item hi => ?_) s
  rw [Nat.zero_add]
  exact itemAt_leaf h hi

/-- Nothing in a node overflows a word or leaves the node. -/
theorem itemAt_ok (hlt : node.length < 2 ^ 63) {i : ℕ} (hi : HEADER_LEN + i * ITEM_LEN + ITEM_LEN ≤ node.length) :
    ∃ r, itemAt b node i = .ok r := by
  have hsize : ITEM_LEN = 25 := rfl
  have hheader : HEADER_LEN = 101 := rfl
  have hkey : node[HEADER_LEN + i * ITEM_LEN + 8]? = some node[HEADER_LEN + i * ITEM_LEN + 8] :=
    List.getElem?_eq_getElem (by omega)
  have hoff : le32 node (HEADER_LEN + i * ITEM_LEN + 17) < 256 ^ 4 := leField_lt 4 _ _
  unfold itemAt
  rw [word_eq (by omega), exec_ok_bind, word_eq (by omega), exec_ok_bind, word_eq (by omega), exec_ok_bind,
    index_eq hkey, exec_ok_bind, word_eq (by omega), exec_ok_bind, word_eq (by omega), exec_ok_bind,
    word_eq (by omega), exec_ok_bind]
  generalize le32 node (HEADER_LEN + i * ITEM_LEN + 17) = dataOff at hoff ⊢
  cases hsum : checkedAdd (HEADER_LEN + dataOff) (le32 node (HEADER_LEN + i * ITEM_LEN + 21)) with
  | none => exact ⟨_, rfl⟩
  | some endpos =>
    obtain ⟨-, rfl⟩ := checkedAdd_eq_some.mp hsum
    dsimp only
    split_ifs with hin
    · exact ⟨_, rfl⟩
    · rw [word_eq (by omega), exec_ok_bind, slice_eq (by omega)]
      exact ⟨_, rfl⟩

theorem forEachLeafItem_ok (hlt : node.length < 2 ^ 63) (f : σ → Item → σ) (s : σ) :
    ∃ r, forEachLeafItem b node f s = .ok r := by
  unfold forEachLeafItem
  split_ifs with hshort
  · exact ⟨_, rfl⟩
  have hheader : HEADER_LEN = 101 := rfl
  have hsize : ITEM_LEN = 25 := rfl
  have hlevel : node[100]? = some node[100] := List.getElem?_eq_getElem (by omega)
  rw [index_eq hlevel, exec_ok_bind]
  split_ifs with hleaf hcount
  · exact ⟨_, rfl⟩
  · exact ⟨_, rfl⟩
  have hitems : Ends (fun _ => False) (fun _ => True)
      ((List.range (le32 node 96)).foldlM (nextItem b node f) (some s)) := by
    refine Ends.foldlM (I := fun _ => True) (fun t _ i hi => ?_) trivial
    have hi := List.mem_range.mp hi
    have hplace : i * ITEM_LEN + ITEM_LEN ≤ node.length - HEADER_LEN := by
      rw [← Nat.succ_mul]
      exact (Nat.le_div_iff_mul_le (by decide)).mp (hi.trans_le (not_lt.mp hcount))
    cases t with
    | none => trivial
    | some t =>
      obtain ⟨r, hr⟩ := itemAt_ok (b := b) hlt (i := i) (by omega)
      rw [nextItem, hr]
      trivial
  obtain ⟨r, hr, -⟩ := hitems.exists_ok
  exact ⟨r, hr⟩

end Leaves

section Array

variable {b : Build} {sb : Superblock}

/-- The bytes of a chunk. -/
structure ChunkBytes (c : Chunk) (bytes : List UInt8) : Prop where
  long : 56 + 8 ≤ bytes.length
  stripes : le16 bytes 44 ≠ 0
  length_written : le64 bytes 0 = c.length
  length_ne : c.length ≠ 0
  physical_written : le64 bytes 56 = c.physical

theorem parseChunk_bytes {c : Chunk} {bytes : List UInt8} (h : ChunkBytes c bytes) (map : List Chunk) :
    parseChunk bytes c.logical map = if map.length < MAX_CHUNKS then map ++ [c] else map := by
  have hsome : ¬ (le16 bytes 44 = 0 ∨ le64 bytes 0 = 0) := by
    rw [h.length_written, not_or]
    exact ⟨h.stripes, h.length_ne⟩
  rw [parseChunk, if_neg (not_lt.mpr h.long), if_neg hsome, h.length_written, h.physical_written]

/-- A chunk of the array in the superblock, behind its key. -/
structure SysRecord where
  chunk : Chunk
  objectid : List UInt8
  offset : List UInt8
  body : List UInt8
  objectid_length : objectid.length = 8
  offset_length : offset.length = 8
  offset_written : le offset = chunk.logical
  written : ChunkBytes chunk body
  body_length : body.length = 48 + le16 body 44 * 32

def SysRecord.bytes (r : SysRecord) : List UInt8 := r.objectid ++ [CHUNK_ITEM_KEY] ++ r.offset ++ r.body

theorem SysRecord.length_bytes (r : SysRecord) : r.bytes.length = DISK_KEY_LEN + r.body.length := by
  simp only [bytes, List.length_append, List.length_singleton, r.objectid_length, r.offset_length]
  rfl

/-- A field of a part of a buffer. -/
theorem leField_part {n i : ℕ} {before part behind : List UInt8} (h : i + n ≤ part.length) :
    leField n (before ++ part ++ behind) (before.length + i) = leField n part i := by
  have hwindow : window (before ++ part ++ behind) (before.length + i) n = window part i n := by
    rw [List.append_assoc, window_behind rfl (Nat.le_add_right _ _), Nat.add_sub_cancel_left, window_within rfl h]
  unfold leField
  rw [hwindow, if_pos h, if_pos (by simp only [List.length_append]; omega)]

/-- The key of a record and what is behind it. -/
theorem SysRecord.key_behind (r : SysRecord) : r.bytes = r.objectid ++ (CHUNK_ITEM_KEY :: (r.offset ++ r.body)) := by
  rw [bytes, List.append_assoc, List.append_assoc, List.singleton_append]

theorem SysRecord.offset_within (r : SysRecord) :
    r.bytes = (r.objectid ++ [CHUNK_ITEM_KEY]) ++ r.offset ++ r.body := rfl

theorem SysRecord.body_lt (r : SysRecord) : r.body.length < 2 ^ 22 := by
  have hstripes : le16 r.body 44 < 256 ^ 2 := leField_lt 2 _ _
  have hbody := r.body_length
  omega

theorem chunkRecord_bytes (r : SysRecord) {before behind : List UInt8} {stop : ℕ}
    (hstop : before.length + r.bytes.length ≤ stop) (hlt : stop < 2 ^ 63) :
    chunkRecord b (before ++ r.bytes ++ behind) stop before.length = .ok (some (r.chunk.logical, r.body)) := by
  have hkey : DISK_KEY_LEN = 17 := rfl
  have hbytes := r.length_bytes
  have hbody := r.body_length
  have hlong := r.written.long
  have htype : (before ++ r.bytes ++ behind).getD (before.length + 8) 0 = CHUNK_ITEM_KEY := by
    have hlast : r.bytes.getD 8 0 = CHUNK_ITEM_KEY := by
      rw [r.key_behind, List.getD_append_right _ _ _ _ r.objectid_length.le, r.objectid_length]
      rfl
    rw [List.append_assoc, List.getD_append_right _ _ _ _ (Nat.le_add_right _ _), Nat.add_sub_cancel_left,
      List.getD_append _ _ _ _ (by omega), hlast]
  have hstripes : le16 (before ++ r.bytes ++ behind) (before.length + DISK_KEY_LEN + 44) = le16 r.body 44 := by
    have hwithin : le16 r.bytes (DISK_KEY_LEN + 44) = le16 r.body 44 := by
      have hpart := @leField_part 2 44 (r.objectid ++ [CHUNK_ITEM_KEY] ++ r.offset) r.body [] (by omega)
      rw [List.append_nil] at hpart
      have hfront : (r.objectid ++ [CHUNK_ITEM_KEY] ++ r.offset).length = DISK_KEY_LEN := by
        simp only [List.length_append, List.length_singleton, r.objectid_length, r.offset_length]
        rfl
      rw [hfront] at hpart
      exact hpart
    rw [Nat.add_assoc, le16, leField_part (by omega)]
    exact hwithin
  have hlogical : le64 (before ++ r.bytes ++ behind) (before.length + 9) = r.chunk.logical := by
    rw [le64, leField_part (by omega)]
    have hpart := @leField_part 8 0 (r.objectid ++ [CHUNK_ITEM_KEY]) r.offset r.body (by rw [r.offset_length])
    have hfront : (r.objectid ++ [CHUNK_ITEM_KEY]).length = 9 := by
      rw [List.length_append, r.objectid_length, List.length_singleton]
    rw [hfront, Nat.add_zero] at hpart
    rw [r.offset_within, hpart, leField, if_pos (by rw [r.offset_length]), ← r.offset_written, window, List.drop_zero,
      List.take_of_length_le r.offset_length.le]
  have hslice : slice (before ++ r.bytes ++ behind) (before.length + DISK_KEY_LEN) r.body.length = .ok r.body := by
    have hfront : (before ++ (r.objectid ++ [CHUNK_ITEM_KEY] ++ r.offset)).length = before.length + DISK_KEY_LEN := by
      simp only [List.length_append, List.length_singleton, r.objectid_length, r.offset_length]
      rfl
    rw [slice_eq (by simp only [List.length_append]; omega)]
    have hwhole : before ++ r.bytes ++ behind =
        (before ++ (r.objectid ++ [CHUNK_ITEM_KEY] ++ r.offset)) ++ (r.body ++ behind) := by
      simp only [SysRecord.bytes, List.append_assoc]
    rw [hwhole, window_behind hfront le_rfl, Nat.sub_self, window_whole rfl]
  unfold chunkRecord
  dsimp only
  have hfew := r.body_lt
  have hsome := r.written.stripes
  rw [if_neg (not_or.mpr ⟨not_not.mpr htype, by omega⟩), hstripes, ← hbody, word_eq (by omega), exec_ok_bind,
    word_eq (by omega), exec_ok_bind, if_neg (by omega), hlogical, hslice]
  rfl

theorem eval_records (records : List SysRecord) {before behind : List UInt8} {map : List Chunk} {stop : ℕ}
    (hstop : before.length + (records.flatMap SysRecord.bytes).length = stop) (hlt : stop < 2 ^ 63)
    (hmap : map.length + records.length ≤ MAX_CHUNKS) :
    (arrayLoop b (before ++ records.flatMap SysRecord.bytes ++ behind) stop).eval (before.length, map) =
      .ok (map ++ records.map SysRecord.chunk) := by
  have hkey : DISK_KEY_LEN = 17 := rfl
  induction records generalizing before map with
  | nil =>
    rw [List.flatMap_nil, List.length_nil, Nat.add_zero] at hstop
    have hend : arrayStep b (before ++ [] ++ behind) stop (before.length, map) = .ok (.inr map) := by
      rw [arrayStep, if_pos (Or.inl (by omega))]
      rfl
    rw [List.flatMap_nil, arrayLoop_done hend, List.map_nil, List.append_nil]
  | cons r rest ih =>
    rw [List.length_cons] at hmap
    have hparts : before ++ (r :: rest).flatMap SysRecord.bytes ++ behind =
        before ++ r.bytes ++ (rest.flatMap SysRecord.bytes ++ behind) := by
      simp only [List.flatMap_cons, List.append_assoc]
    have hnext : before ++ r.bytes ++ (rest.flatMap SysRecord.bytes ++ behind) =
        (before ++ r.bytes) ++ rest.flatMap SysRecord.bytes ++ behind := (List.append_assoc _ _ _).symm
    rw [List.flatMap_cons, List.length_append] at hstop
    have hbytes := r.length_bytes
    have hstep : arrayStep b (before ++ r.bytes ++ (rest.flatMap SysRecord.bytes ++ behind)) stop (before.length, map) =
        .ok (.inl ((before ++ r.bytes).length, map ++ [r.chunk])) := by
      rw [arrayStep, if_neg (by omega), chunkRecord_bytes r (by omega) hlt, exec_ok_bind]
      dsimp only
      rw [parseChunk_bytes r.written, if_pos (by omega), List.length_append, hbytes, Nat.add_assoc]
      rfl
    rw [hparts, arrayLoop_next hstep, hnext, ih (by rw [List.length_append]; omega)
      (by rw [List.length_append, List.length_singleton]; omega), List.map_cons, List.append_assoc,
      List.singleton_append]

/-- Nothing in the array overflows a word or leaves the superblock. -/
theorem systemChunks_ok (b : Build) (sb : Superblock) : ∃ map, systemChunks b sb = .ok map := by
  have hkey : DISK_KEY_LEN = 17 := rfl
  have hsize : le32 sb.bytes SYS_CHUNK_ARRAY_SIZE < 256 ^ 4 := leField_lt 4 _ _
  have hlength : sb.bytes.length = 4096 := sb.length_eq
  have hstart : SYS_CHUNK_ARRAY = 811 := rfl
  unfold systemChunks parseChunkArray
  rw [word_eq (by omega), exec_ok_bind]
  generalize hstop : min (SYS_CHUNK_ARRAY + le32 sb.bytes SYS_CHUNK_ARRAY_SIZE) sb.bytes.length = stop
  have hends : Ends (fun _ => False) (fun _ => True) ((arrayLoop b sb.bytes stop).eval (SYS_CHUNK_ARRAY, [])) := by
    refine Until.ends_eval (I := fun _ => True) (fun s _ => ?_) trivial
    obtain ⟨p, map⟩ := s
    change Ends _ _ (arrayStep b sb.bytes stop (p, map))
    rw [arrayStep]
    split_ifs with hend
    · trivial
    · have hrecord : ∃ r, chunkRecord b sb.bytes stop p = .ok r := by
        unfold chunkRecord
        dsimp only
        split_ifs with htype
        · exact ⟨_, rfl⟩
        have hstripes : le16 sb.bytes (p + DISK_KEY_LEN + 44) < 256 ^ 2 := leField_lt 2 _ _
        rw [word_eq (by omega), exec_ok_bind, word_eq (by omega), exec_ok_bind]
        split_ifs with hnone
        · exact ⟨_, rfl⟩
        · rw [slice_eq (by omega)]
          exact ⟨_, rfl⟩
      obtain ⟨r, hr⟩ := hrecord
      rw [hr, exec_ok_bind]
      cases r with
      | none => trivial
      | some r => trivial
  obtain ⟨map, hmap, -⟩ := hends.exists_ok
  exact ⟨map, hmap⟩

end Array

end Unearth.Btrfs
