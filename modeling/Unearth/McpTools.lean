import Unearth.JsonNumbers

/-!
# The tools of the server

What the server offers is a constant: the names by which a tool is called, and for each of them
what it does and the arguments that it takes.
-/

namespace Unearth.Mcp
open Lines Json

def s (t : String) : Json := .str t.toList

def obj (members : List (String × Json)) : Json := ofMembers (members.map fun m => (m.1.toList, m.2))

def TOOL_NAMES : List String :=
  ["list_types", "list_volumes", "scan", "image", "undelete", "verify", "read_file", "triage", "identify",
    "scan_status", "scan_cancel"]

def strProp (desc : String) : Json := obj [("type", s "string"), ("description", s desc)]
def boolProp (desc : String) : Json := obj [("type", s "boolean"), ("description", s desc)]
def intProp (desc : String) : Json := obj [("type", s "integer"), ("description", s desc)]

def schema (props : List (String × Json)) (required : List String) : Json :=
  obj [("type", s "object"), ("properties", obj props), ("required", .arr (required.map s))]

def tool (name desc : String) (schema : Json) : Json :=
  obj [("name", s name), ("description", s desc), ("inputSchema", schema)]

def toolDefinitions : Json := .arr [
  tool "list_types"
    ("List the file types signature carving can recover. Each entry has its extension, description, and category " ++
      "(image/audio/video/document/archive/executable/font/system/volume) — a category name can be passed to " ++
      "`scan` to select that whole class.")
    (schema [] []),
  tool "list_volumes"
    ("Detect the partitions/filesystems in a source (disk image or device). The result includes the partition " ++
      "table (partition_scheme plus a partitions array of type/name/start/size) and the detected filesystems. " ++
      "Each volume reports its free (unallocated) space as free_bytes (null when the filesystem's allocation map " ++
      "is not parsed). Set deleted=true to also count recoverable deleted files per volume. Set scan=true to " ++
      "find lost/orphaned volumes by a whole-source signature scan when the partition table is missing or " ++
      "corrupt.")
    (schema [
      ("source", strProp "Path to a disk image or device (read-only)."),
      ("deleted", boolProp "Also count recoverable deleted files."),
      ("scan", boolProp
        "Find lost partitions via a whole-source signature scan (default false); may be slow on a large device."),
      ("scan_step", intProp "Alignment in bytes for --scan probes (default 1 MiB).")]
      ["source"]),
  tool "scan"
    ("Start carving files from a source by signature into output_dir (filesystem-agnostic). Runs as a background " ++
      "job (carving a large drive is slow): returns a job_id — poll scan_status, and use scan_cancel to stop it. " ++
      "Extra file types the tool doesn't know natively can be injected for this scan via custom_carvers (a magic " ++
      "plus a declarative length rule).")
    (schema [
      ("source", strProp "Path to a disk image or device (read-only)."),
      ("output_dir", strProp "Directory to write recovered files into."),
      ("types", obj [
        ("type", s "array"),
        ("items", obj [("type", s "string")]),
        ("description", s
          ("File types to recover (default: all). Each entry is an extension (e.g. \"jpg\") or a category that " ++
            "expands to a whole class: \"image\", \"audio\", \"video\", \"document\", \"archive\", " ++
            "\"executable\", \"font\", \"system\", or \"volume\" (whole filesystem images; the only category " ++
            "left out of the default)."))]),
      ("min_size", intProp "Ignore carved files smaller than this many bytes."),
      ("max_size", intProp "Ignore carved files larger than this many bytes."),
      ("align", intProp
        ("Only carve files starting on a multiple of this many bytes (e.g. 512); cuts false positives. Default 1 " ++
          "(any offset).")),
      ("include_files", boolProp "Include the per-file list with SHA-256 (default true)."),
      ("validate", boolProp "Structural validation (default true)."),
      ("dedup", boolProp "Skip byte-identical duplicates (default false)."),
      ("organize", boolProp "Group recovered files into per-type subdirectories (default false)."),
      ("dry_run", boolProp
        ("Preview only: tally what would be recovered (counts, sizes, per-type, file list) without writing any " ++
          "files (default false).")),
      ("checkpoint", strProp "Checkpoint file for resume (default: <output_dir>.checkpoint)."),
      ("resume", boolProp "Resume from the checkpoint if present (default false)."),
      ("custom_carvers", obj [
        ("type", s "array"),
        ("items", obj [("type", s "object")]),
        ("description", s
          ("Extra carvers to use for this scan only, for file types not built in. Each item is an object: " ++
            "\x7b\"name\": str, \"ext\": str (letters/digits/_/- , used as the output extension), \"magic\": hex " ++
            "string (e.g. \"89 50 4E 47\"), \"magic_offset\": int (default 0), optional \"secondary\": " ++
            "\x7b\"offset\": int, \"bytes\": hex\x7d, \"max_size\": int (required cap in bytes), and \"length\": " ++
            "a declarative size rule — one of: \x7b\"strategy\":\"fixed\",\"size\":N\x7d; " ++
            "\x7b\"strategy\":\"size_field\",\"offset\":O,\"width\":8|16|32|64,\"endian\":\"le\"|\"be\",\"mul\":M,\"add\":K\x7d " ++
            "→ size = value*mul+add; or \x7b\"strategy\":\"footer\",\"marker\":hex,\"trailing\":N\x7d. The size " ++
            "is always computed exactly and bounds-checked, so a custom carver never emits a wrong length."))])]
      ["source", "output_dir"]),
  tool "image"
    ("Copy a source (disk image or device) to an image file, read-only and bad-sector tolerant. Best practice " ++
      "for a failing drive: image it once, then scan/undelete the image. Runs as a background job: returns a " ++
      "job_id — poll scan_status, and use scan_cancel to stop it.")
    (schema [
      ("source", strProp "Path to a disk image or device (read-only)."),
      ("output", strProp "Image file to create (overwritten)."),
      ("start", intProp "Start byte offset (default 0)."),
      ("end", intProp "Exclusive end byte offset (default: device end)."),
      ("sparse", boolProp "Skip zero runs, leaving holes (default true)."),
      ("sector_size", intProp "Bad-sector retry granularity in bytes (default 512)."),
      ("map", strProp "Checkpoint/map file for resume (default: <output>.map)."),
      ("resume", boolProp "Resume from the map file if present (default false)."),
      ("retries", intProp "Extra passes to re-read unreadable regions (default 0).")]
      ["source", "output"]),
  tool "undelete"
    ("Recover deleted files from a FAT/exFAT/NTFS/ext/HFS+ volume into output_dir, keeping original names where " ++
      "possible.")
    (schema [
      ("source", strProp "Path to a disk image or device (read-only)."),
      ("output_dir", strProp "Directory to write recovered files into."),
      ("offset", intProp "Byte offset of the volume (default: auto-detect)."),
      ("min_size", intProp "Ignore deleted files smaller than this many bytes."),
      ("max_size", intProp "Ignore deleted files larger than this many bytes."),
      ("modified_after", strProp "Only recover files modified at/after this UTC date (YYYY-MM-DD[THH:MM:SS])."),
      ("modified_before", strProp "Only recover files modified at/before this UTC date (YYYY-MM-DD[THH:MM:SS])."),
      ("names", obj [
        ("type", s "array"),
        ("items", obj [("type", s "string")]),
        ("description", s "Only recover files whose name matches one of these case-insensitive globs (* and ?), e.g. \"*.jpg\".")]),
      ("exclude_names", obj [
        ("type", s "array"),
        ("items", obj [("type", s "string")]),
        ("description", s "Skip files whose name matches one of these globs (applied after `names`), e.g. \"*.tmp\".")]),
      ("dry_run", boolProp "Report what would be recovered without writing."),
      ("include_files", boolProp "Include the per-file list with SHA-256 (default true).")]
      ["source", "output_dir"]),
  tool "verify"
    "Re-hash recovered files against a scan/undelete --report manifest."
    (schema [
      ("manifest", strProp "Path to a .json or .csv report manifest."),
      ("base", strProp "Directory the recovered files live in.")]
      ["manifest", "base"]),
  tool "read_file"
    ("Read the contents of a recovered file (base64), so the agent can inspect it. Capped at 1 MiB; use " ++
      "max_bytes for a smaller preview.")
    (schema [
      ("path", strProp "Path to the file to read."),
      ("max_bytes", intProp "Maximum bytes to return (default 65536, cap 1 MiB).")]
      ["path"]),
  tool "triage"
    ("Summarize a directory of recovered files: counts and bytes per type, the largest files, content " ++
      "duplicates, and empty files.")
    (schema [
      ("dir", strProp "Directory of recovered files to summarize."),
      ("top", intProp "How many of the largest files to list (default 10).")]
      ["dir"]),
  tool "identify"
    "Identify a file's type from its contents (signature + structural check), independent of its extension."
    (schema [("path", strProp "Path to the file to identify.")] ["path"]),
  tool "scan_status"
    ("Check a background job started by `scan` or `image`: running flag, bytes processed / total, and the full " ++
      "result once done.")
    (schema [("job_id", intProp "Job id returned by scan or image.")] ["job_id"]),
  tool "scan_cancel"
    ("Request cancellation of a running scan/image job; it stops at the next chunk and keeps whatever was " ++
      "already produced.")
    (schema [("job_id", intProp "Job id returned by scan or image.")] ["job_id"])]

theorem get_insert (k key : Text) (v : Json) (fields : List (Text × Json)) :
    (Json.obj (SortedMap.insert k v fields)).get key = if key = k then some v else (Json.obj fields).get key := by
  have hcons : ∀ (j : Text) (w : Json) (rest : List (Text × Json)),
      (Json.obj ((j, w) :: rest)).get key = if key = j then some w else (Json.obj rest).get key := by
    intro j w rest
    unfold Json.get
    dsimp only
    rw [List.find?_cons]
    by_cases h : j = key
    · rw [if_pos h.symm, decide_eq_true h]
      rfl
    · rw [if_neg (Ne.symm h), decide_eq_false h]
  induction fields with
  | nil => exact hcons k v []
  | cons p rest ih =>
    obtain ⟨j, w⟩ := p
    unfold SortedMap.insert
    by_cases hlt : k < j
    · rw [if_pos hlt, hcons]
    · by_cases heq : k = j
      · rw [if_neg hlt, if_pos heq, hcons, hcons, ← heq]
        split_ifs <;> rfl
      · rw [if_neg hlt, if_neg heq, hcons, hcons, ih]
        by_cases hkey : key = k
        · rw [if_pos hkey, if_pos hkey, if_neg (hkey ▸ heq)]
        · rw [if_neg hkey, if_neg hkey]

theorem get_obj_two (k₁ k₂ : String) (v₁ v₂ : Json) (key : String) :
    (obj [(k₁, v₁), (k₂, v₂)]).get key.toList = if key = k₂ then some v₂ else if key = k₁ then some v₁ else none := by
  simp only [obj, ofMembers, List.map_cons, List.map_nil, List.foldl_cons, List.foldl_nil, get_insert,
    String.toList_inj]
  rfl

/-- Of the members with a key the last one counts. -/
theorem get_obj_three (k₁ k₂ k₃ : String) (v₁ v₂ v₃ : Json) (key : String) :
    (obj [(k₁, v₁), (k₂, v₂), (k₃, v₃)]).get key.toList =
      if key = k₃ then some v₃ else if key = k₂ then some v₂ else if key = k₁ then some v₁ else none := by
  simp only [obj, ofMembers, List.map_cons, List.map_nil, List.foldl_cons, List.foldl_nil, get_insert,
    String.toList_inj]
  rfl

variable {display : Option ℚ → Text} {k : ℕ}

theorem legible_members {members : List (String × Json)} (h : ∀ p ∈ members, Legible display k p.2) :
    Legible display (k + 1) (obj members) := by
  refine legible_ofMembers fun p hp => ?_
  obtain ⟨m, hm, rfl⟩ := List.mem_map.mp hp
  exact h m hm

theorem legible_schema {props : List (String × Json)} (required : List String)
    (h : ∀ p ∈ props, Legible display k p.2) : Legible display (k + 2) (schema props required) := by
  refine legible_members (List.forall_mem_cons.mpr ⟨legible_str _, List.forall_mem_cons.mpr ⟨legible_members h, ?_⟩⟩)
  refine List.forall_mem_singleton.mpr (legible_arr fun v hv => ?_)
  obtain ⟨r, -, rfl⟩ := List.mem_map.mp hv
  exact legible_str _

theorem legible_typed (type desc : String) : Legible display (k + 1) (obj [("type", s type), ("description", s desc)]) :=
  legible_members (List.forall_mem_cons.mpr ⟨legible_str _, List.forall_mem_singleton.mpr (legible_str _)⟩)

theorem legible_items (type item desc : String) :
    Legible display (k + 2) (obj [("type", s type), ("items", obj [("type", s item)]), ("description", s desc)]) := by
  refine legible_members (List.forall_mem_cons.mpr ⟨legible_str _, List.forall_mem_cons.mpr
    ⟨legible_members ?_, List.forall_mem_singleton.mpr (legible_str _)⟩⟩)
  exact List.forall_mem_singleton.mpr (legible_str _)

theorem legible_tool (name desc : String) {schema : Json} (h : Legible display k schema) :
    Legible display (k + 1) (tool name desc schema) :=
  legible_members (List.forall_mem_cons.mpr ⟨legible_str _,
    List.forall_mem_cons.mpr ⟨legible_str _, List.forall_mem_singleton.mpr h⟩⟩)

theorem legible_toolDefinitions : Legible display 6 toolDefinitions := by
  refine legible_arr fun t ht => ?_
  simp only [List.mem_cons, List.not_mem_nil, or_false] at ht
  rcases ht with rfl | rfl | rfl | rfl | rfl | rfl | rfl | rfl | rfl | rfl | rfl
  all_goals
    refine legible_tool _ _ (legible_schema (k := 2) _ ?_)
    simp only [List.forall_mem_cons, strProp, boolProp, intProp, legible_typed, legible_items, List.not_mem_nil,
      false_imp_iff, implies_true, and_self]

end Unearth.Mcp
