import Unearth.ExtJournalRing
import Unearth.ExtTrees
import Unearth.Lib.EntryWalk

/-!
# The nodes that are visited for the extents of a file

Each entry of an index node is entered, whatever block it names, down to the depth at which the
walk gives up. The blocks that are visited are logged, which changes nothing else, and the log is
that of a walk over the entries.
-/

namespace Unearth.Ext
open Bytes Word Post EntryWalk

/-- A computation with a log of the blocks that it visits. -/
abbrev Logged := ExceptT Fault (StateM (List ℕ))

def unlogged {α : Type} (x : Exec α) : Logged α := ExceptT.mk (pure x)

/-- The entries of an index node, by the blocks that they name. -/
def children (node : List UInt8) : List ℕ :=
  if node.length < 12 ∨ le (window node 0 2) ≠ EXTENT_MAGIC ∨ le (window node 6 2) = 0 then []
  else
    (List.range (min (le (window node 2 2)) ((node.length - 12) / 12))).map fun i => childBlock (nodeEntry node i)

namespace Volume

variable (v : Volume) (src : Source)

def visitBlock (block : ℕ) : Logged (List UInt8) := do
  modify (· ++ [block])
  unlogged (v.readBlock src block)

/-- What is done for an entry of a node, with what is done for the nodes below it. -/
def entryLogged (node : List UInt8) (below : List UInt8 → Extents → Logged Extents) (map : Extents) (i : ℕ) :
    Logged Extents := do
  let e ← unlogged (slice node (12 + i * 12) 12)
  if le (window node 6 2) = 0 then return addExtent e map
  else
    let block ← v.visitBlock src (2 ^ 32 * le (window e 8 2) + le (window e 4 4))
    below block map

/-- The extents below a node, with a log of the blocks that are read as nodes. -/
def collectLogged : ℕ → List UInt8 → Extents → Logged Extents
  | 0, _, map => return map
  | fuel + 1, node, map =>
    if node.length < 12 ∨ le (window node 0 2) ≠ EXTENT_MAGIC then return map
    else
      let entries := min (le (window node 2 2)) ((node.length - 12) / 12)
      (List.range entries).foldlM (v.entryLogged src node (collectLogged fuel)) map

def mapLogged (inode : List UInt8) (n : ℕ) : Logged (List ℕ) := do
  let flags ← unlogged (inodeFlags inode)
  let iBlock ← unlogged (slice inode 0x28 60)
  if flags &&& FLAG_EXTENTS ≠ 0 then
    let map ← v.collectLogged src (MAX_EXTENT_DEPTH + 1) iBlock []
    unlogged do
      request (v.limit src) n
      map.foldlM (placeExtent n) (List.replicate n 0)
  else unlogged (v.mapIndirect src iBlock n)

/-- The blocks that are visited as nodes while the first `n` blocks of a file are mapped. -/
def visited (inode : List UInt8) (n : ℕ) : List ℕ := ((v.mapLogged src inode n).run.run []).2

/-- The node that a block is, if it can be read. -/
def nodeIn (block : ℕ) : Option (List UInt8) := (v.readBlock src block).toOption

end Volume

section Logs

/-- What a computation makes of a log. -/
def Logs {α : Type} (m : Logged α) (x : Exec α) (blocks : List ℕ) : Prop := ∀ log, m.run.run log = (x, log ++ blocks)

variable {α β : Type} {m : Logged α} {f : α → Logged β} {x : Exec α} {y : Exec β} {a : α} {blocks later : List ℕ}

theorem logs_unlogged (x : Exec α) : Logs (unlogged x) x [] := by
  intro log
  rw [List.append_nil]
  rfl

theorem logs_pure (a : α) : Logs (pure a) (.ok a) [] := logs_unlogged (.ok a)

theorem Logs.bind (hm : Logs m (.ok a) blocks) (hf : Logs (f a) y later) : Logs (m >>= f) y (blocks ++ later) := by
  intro log
  have hrun : (m >>= f).run.run log = (f a).run.run (log ++ blocks) := by
    rw [ExceptT.run_bind, StateT.run_bind, hm log]
    rfl
  rw [hrun, hf, List.append_assoc]

theorem Logs.bind_error {e : Fault} (hm : Logs m (.error e) blocks) : Logs (m >>= f) (.error e) blocks := by
  intro log
  rw [ExceptT.run_bind, StateT.run_bind, hm log]
  rfl

theorem logs_visitBlock (v : Volume) (src : Source) (block : ℕ) :
    Logs (v.visitBlock src block) (v.readBlock src block) [block] := fun _ => rfl

end Logs

namespace Volume

variable {v : Volume} {src : Source} {node : List UInt8}

variable (v src node) in
/-- What is done for an entry of a node without a log. -/
def entryStep (below : List UInt8 → Extents → Exec Extents) (map : Extents) (i : ℕ) : Exec Extents := do
  let e ← slice node (12 + i * 12) 12
  if le (window node 6 2) = 0 then return addExtent e map
  else
    let block ← v.readBlock src (2 ^ 32 * le (window e 8 2) + le (window e 4 4))
    below block map

/-- A log and a result that a walk accounts for. -/
structure Agrees (logged : Extents → Logged Extents) (plain : Extents → Exec Extents)
    (walked : List (List ℕ × ℕ) × Bool) : Prop where
  logs : ∀ map, Logs (logged map) (plain map) (walked.1.map Prod.snd)
  finished : ∀ map, walked.2 = true ↔ ∃ m, plain map = .ok m

section Entries

variable {logged : List UInt8 → Extents → Logged Extents} {plain : List UInt8 → Extents → Exec Extents}
  {below : List UInt8 → List (List ℕ × ℕ) × Bool} {i : ℕ}

variable (logged plain) in
theorem entry_unread (hdepth : le (window node 6 2) ≠ 0) (hi : 12 + i * 12 + 12 ≤ node.length) {e : Fault}
    (hread : v.readBlock src (childBlock (nodeEntry node i)) = .error e) (map : Extents) :
    Logs (v.entryLogged src node logged map i) (.error e) [childBlock (nodeEntry node i)] ∧
      v.entryStep src node plain map i = .error e := by
  have hslice : slice node (12 + i * 12) 12 = .ok (nodeEntry node i) := slice_eq hi
  have hvisit := logs_visitBlock v src (childBlock (nodeEntry node i))
  have hfirst := logs_unlogged (slice node (12 + i * 12) 12)
  rw [hread] at hvisit
  rw [hslice] at hfirst
  constructor
  · rw [entryLogged, hslice]
    refine hfirst.bind ?_
    rw [if_neg hdepth]
    exact hvisit.bind_error
  · rw [entryStep, hslice, exec_ok_bind, if_neg hdepth, ← childBlock, hread]
    rfl

theorem entry_read (hdepth : le (window node 6 2) ≠ 0) (hi : 12 + i * 12 + 12 ≤ node.length) {child : List UInt8}
    (hread : v.readBlock src (childBlock (nodeEntry node i)) = .ok child)
    (hbelow : Agrees (logged child) (plain child) (below child)) (map : Extents) :
    Logs (v.entryLogged src node logged map i) (plain child map)
        (childBlock (nodeEntry node i) :: (below child).1.map Prod.snd) ∧
      v.entryStep src node plain map i = plain child map := by
  have hslice : slice node (12 + i * 12) 12 = .ok (nodeEntry node i) := slice_eq hi
  have hvisit := logs_visitBlock v src (childBlock (nodeEntry node i))
  have hfirst := logs_unlogged (slice node (12 + i * 12) 12)
  rw [hread] at hvisit
  rw [hslice] at hfirst
  constructor
  · rw [entryLogged, hslice]
    refine hfirst.bind ?_
    rw [if_neg hdepth]
    exact hvisit.bind (hbelow.logs map)
  · rw [entryStep, hslice, exec_ok_bind, if_neg hdepth, ← childBlock, hread, exec_ok_bind]

/-- The entries of an index node are logged in the order of the walk, each with what is below it. -/
theorem entries_agree (hdepth : le (window node 6 2) ≠ 0)
    (hbelow : ∀ child, Agrees (logged child) (plain child) (below child)) {l : List ℕ}
    (hl : ∀ i ∈ l, 12 + i * 12 + 12 ≤ node.length) (j : ℕ) :
    Agrees (fun map => l.foldlM (v.entryLogged src node logged) map)
      (fun map => l.foldlM (v.entryStep src node plain) map)
      (walkEntries (v.nodeIn src) below j (l.map fun i => childBlock (nodeEntry node i))) := by
  induction l generalizing j with
  | nil => exact ⟨logs_pure, fun map => iff_of_true rfl ⟨map, rfl⟩⟩
  | cons i l ih =>
    obtain ⟨hi, hl⟩ := List.forall_mem_cons.mp hl
    have hrest := ih hl (j + 1)
    rw [List.map_cons, walkEntries]
    cases hread : v.readBlock src (childBlock (nodeEntry node i)) with
    | error e =>
      rw [nodeIn, hread]
      refine ⟨fun map => ?_, fun map => ?_⟩
      · obtain ⟨hlogs, hstep⟩ := entry_unread logged plain hdepth hi hread map
        rw [List.foldlM_cons, List.foldlM_cons, hstep]
        exact hlogs.bind_error
      · obtain ⟨-, hstep⟩ := entry_unread logged plain hdepth hi hread map
        rw [List.foldlM_cons, hstep]
        refine iff_of_false Bool.false_ne_true fun h => ?_
        obtain ⟨m, hm⟩ := h
        cases hm
    | ok child =>
      have hentry := entry_read hdepth hi hread (hbelow child)
      have hown : (([j], childBlock (nodeEntry node i)) :: (below child).1.map (Prod.map (j :: ·) id)).map Prod.snd =
          childBlock (nodeEntry node i) :: (below child).1.map Prod.snd := by simp [Function.comp_def]
      have henter : v.nodeIn src (childBlock (nodeEntry node i)) = some child := by
        rw [nodeIn, hread]
        rfl
      rw [henter]
      dsimp only
      by_cases hfinished : (below child).2 = true
      · rw [if_pos hfinished]
        have hplain (map : Extents) : ∃ m, plain child map = .ok m := ((hbelow child).finished map).mp hfinished
        refine ⟨fun map => ?_, fun map => ?_⟩
        · obtain ⟨hlogs, hstep⟩ := hentry map
          obtain ⟨m, hm⟩ := hplain map
          rw [hm] at hlogs hstep
          rw [List.foldlM_cons, List.foldlM_cons, hstep, exec_ok_bind, List.map_append, hown]
          exact hlogs.bind (hrest.logs m)
        · obtain ⟨-, hstep⟩ := hentry map
          obtain ⟨m, hm⟩ := hplain map
          rw [List.foldlM_cons, hstep, hm, exec_ok_bind]
          exact hrest.finished m
      · rw [if_neg hfinished]
        have hplain (map : Extents) : ∃ e, plain child map = .error e := by
          cases hp : plain child map with
          | error e => exact ⟨e, rfl⟩
          | ok m => exact absurd (((hbelow child).finished map).mpr ⟨m, hp⟩) hfinished
        refine ⟨fun map => ?_, fun map => ?_⟩
        · obtain ⟨hlogs, hstep⟩ := hentry map
          obtain ⟨e, he⟩ := hplain map
          rw [he] at hlogs hstep
          rw [List.foldlM_cons, List.foldlM_cons, hstep, hown]
          exact hlogs.bind_error
        · obtain ⟨-, hstep⟩ := hentry map
          obtain ⟨e, he⟩ := hplain map
          rw [List.foldlM_cons, hstep, he]
          refine iff_of_false Bool.false_ne_true fun h => ?_
          obtain ⟨m, hm⟩ := h
          cases hm

/-- The entries of a leaf are logged nowhere. -/
theorem leaf_agrees (hdepth : le (window node 6 2) = 0) {l : List ℕ} (hl : ∀ i ∈ l, 12 + i * 12 + 12 ≤ node.length) :
    Agrees (fun map => l.foldlM (v.entryLogged src node logged) map)
      (fun map => l.foldlM (v.entryStep src node plain) map) ([], true) := by
  induction l with
  | nil => exact ⟨logs_pure, fun map => iff_of_true rfl ⟨map, rfl⟩⟩
  | cons i l ih =>
    obtain ⟨hi, hl⟩ := List.forall_mem_cons.mp hl
    have hslice : slice node (12 + i * 12) 12 = .ok (nodeEntry node i) := slice_eq hi
    have hstep (map : Extents) : v.entryStep src node plain map i = .ok (addExtent (nodeEntry node i) map) := by
      rw [entryStep, hslice, exec_ok_bind, if_pos hdepth]
      rfl
    have hlogs (map : Extents) :
        Logs (v.entryLogged src node logged map i) (.ok (addExtent (nodeEntry node i) map)) [] := by
      rw [entryLogged, hslice]
      refine (logs_unlogged (.ok (nodeEntry node i))).bind ?_
      rw [if_pos hdepth]
      exact logs_pure _
    refine ⟨fun map => ?_, fun map => ?_⟩
    · rw [List.foldlM_cons, List.foldlM_cons, hstep, exec_ok_bind]
      exact (hlogs map).bind ((ih hl).logs _)
    · rw [List.foldlM_cons, hstep, exec_ok_bind]
      exact (ih hl).finished _

end Entries

/-- The log of the extents below a node is the walk over the entries below it, which gets to its end
when no block that it names fails to be read. -/
theorem collect_agrees (v : Volume) (src : Source) (fuel : ℕ) (node : List UInt8) :
    Agrees (v.collectLogged src fuel node) (v.collectExtents src fuel node)
      (EntryWalk.walk children (v.nodeIn src) fuel node) := by
  induction fuel generalizing node with
  | zero => exact ⟨logs_pure, fun map => iff_of_true rfl ⟨map, rfl⟩⟩
  | succ fuel ih =>
    by_cases hmagic : node.length < 12 ∨ le (window node 0 2) ≠ EXTENT_MAGIC
    · have hlogged : v.collectLogged src (fuel + 1) node = pure := funext fun map => if_pos hmagic
      have hplain : v.collectExtents src (fuel + 1) node = pure := funext fun map => if_pos hmagic
      have hnone : children node = [] := if_pos (or_assoc.mp (.inl hmagic))
      rw [EntryWalk.walk, hnone, walkEntries, hlogged, hplain]
      exact ⟨logs_pure, fun map => iff_of_true rfl ⟨map, rfl⟩⟩
    have hlogged : v.collectLogged src (fuel + 1) node = fun map =>
        (List.range (min (le (window node 2 2)) ((node.length - 12) / 12))).foldlM
          (v.entryLogged src node (v.collectLogged src fuel)) map := funext fun map => if_neg hmagic
    have hplain : v.collectExtents src (fuel + 1) node = fun map =>
        (List.range (min (le (window node 2 2)) ((node.length - 12) / 12))).foldlM
          (v.entryStep src node (v.collectExtents src fuel)) map := funext fun map => if_neg hmagic
    have hinside : ∀ i ∈ List.range (min (le (window node 2 2)) ((node.length - 12) / 12)),
        12 + i * 12 + 12 ≤ node.length := by
      intro i hi
      rw [List.mem_range] at hi
      omega
    rw [hlogged, hplain, EntryWalk.walk]
    by_cases hdepth : le (window node 6 2) = 0
    · have hnone : children node = [] := if_pos (.inr (.inr hdepth))
      rw [hnone, walkEntries]
      exact leaf_agrees hdepth hinside
    · have hsome : children node = (List.range (min (le (window node 2 2)) ((node.length - 12) / 12))).map
          fun i => childBlock (nodeEntry node i) :=
        if_neg fun h => (or_assoc.mpr h).elim hmagic hdepth
      rw [hsome]
      exact entries_agree hdepth ih hinside 0

variable {inode : List UInt8}

/-- A map by extents logs what is visited below the inode. -/
theorem mapLogged_logs (hlen : 0x28 + 60 ≤ inode.length) (hflag : le (window inode 0x20 4) &&& FLAG_EXTENTS ≠ 0)
    (n : ℕ) :
    Logs (v.mapLogged src inode n) (v.mapBlocks src inode n)
      ((EntryWalk.walk children (v.nodeIn src) (MAX_EXTENT_DEPTH + 1) (window inode 0x28 60)).1.map Prod.snd) := by
  have hflags : inodeFlags inode = .ok (le (window inode 0x20 4)) := field_eq (by omega)
  have hblock : slice inode 0x28 60 = .ok (window inode 0x28 60) := slice_eq hlen
  have hcollect := (collect_agrees v src (MAX_EXTENT_DEPTH + 1) (window inode 0x28 60)).logs []
  rw [mapLogged, mapBlocks, hflags, hblock, exec_ok_bind, exec_ok_bind, if_pos hflag]
  refine (logs_unlogged _).bind ((logs_unlogged _).bind ?_)
  rw [if_pos hflag]
  cases hmap : v.collectExtents src (MAX_EXTENT_DEPTH + 1) (window inode 0x28 60) [] with
  | error e =>
    rw [hmap] at hcollect
    exact hcollect.bind_error
  | ok map =>
    rw [hmap] at hcollect
    rw [exec_ok_bind, ← List.append_nil (List.map _ _)]
    exact hcollect.bind (logs_unlogged _)

/-- A map by pointers logs nothing. -/
theorem mapLogged_unlogged (h : ¬ (0x28 + 60 ≤ inode.length ∧ le (window inode 0x20 4) &&& FLAG_EXTENTS ≠ 0)) (n : ℕ) :
    Logs (v.mapLogged src inode n) (v.mapBlocks src inode n) [] := by
  rw [mapLogged, mapBlocks]
  cases hflags : inodeFlags inode with
  | error e => exact (logs_unlogged _).bind_error
  | ok flags =>
    rw [exec_ok_bind]
    refine (logs_unlogged _).bind ?_
    by_cases hlen : 0x28 + 60 ≤ inode.length
    · have heq : flags = le (window inode 0x20 4) := Except.ok.inj (hflags.symm.trans (field_eq (by omega)))
      have hflag : ¬ flags &&& FLAG_EXTENTS ≠ 0 := fun hflag => h ⟨hlen, heq ▸ hflag⟩
      rw [slice_eq hlen, exec_ok_bind, if_neg hflag]
      refine (logs_unlogged _).bind ?_
      rw [if_neg hflag]
      exact logs_unlogged _
    · have hslice : slice inode 0x28 60 = .error .slice := if_neg hlen
      rw [hslice]
      exact (logs_unlogged _).bind_error

/-- The log takes nothing away from the map and adds nothing to it. -/
theorem mapLogged_eq (inode : List UInt8) (n : ℕ) :
    ((v.mapLogged src inode n).run.run []).1 = v.mapBlocks src inode n := by
  by_cases h : 0x28 + 60 ≤ inode.length ∧ le (window inode 0x20 4) &&& FLAG_EXTENTS ≠ 0
  · rw [mapLogged_logs h.1 h.2 n]
  · rw [mapLogged_unlogged h n]

end Volume

section Looping

/-- An index node with two entries, both for the block that it is in. -/
def loopNode : List UInt8 :=
  blockOf [(0x00, [0x0A, 0xF3]), (0x02, [2]), (0x06, [1]), (0x10, [4]), (0x1C, [4])]

/-- The second inode is that of a regular file whose one index entry is for block 4. -/
def loopInodes : List UInt8 :=
  blockOf [(0x80, [0x00, 0x80]), (0xA2, [8]), (0xA8, [0x0A, 0xF3]), (0xAA, [1]), (0xAE, [1]), (0xB8, [4])]

def loopBlocks : List (List UInt8) := [blockOf [], superBlock, blockOf [(0x08, [3])], loopInodes, loopNode]

theorem length_loopBlocks : ∀ b ∈ loopBlocks, b.length = 1024 := by
  have hblank : (blockOf []).length = 1024 := length_blockOf (by decide)
  have hsuper : superBlock.length = 1024 := length_blockOf (by decide)
  have hgroup : (blockOf [(0x08, [3])]).length = 1024 := length_blockOf (by decide)
  have hinodes : loopInodes.length = 1024 := length_blockOf (by decide)
  have hnode : loopNode.length = 1024 := length_blockOf (by decide)
  simp [loopBlocks, hblank, hsuper, hgroup, hinodes, hnode]

theorem loop_size : loopBlocks.flatten.length < 2 ^ 63 := by
  rw [List.length_flatten, List.map_congr_left length_loopBlocks]
  decide

def loopSource : Source where
  data := loopBlocks.flatten
  size_lt := loop_size

end Looping

end Unearth.Ext
