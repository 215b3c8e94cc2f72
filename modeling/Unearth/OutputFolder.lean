import Unearth.Lib.Lines
import Unearth.Lib.Decimal
import Unearth.Source

/-!
# The output folder

What is in the output folder, by the path below it. A file is created under a path that is
free, with a counter when the wanted one is taken, and never through a link or in the place
of something that is there.
-/

namespace Unearth
open Lines Decimal

inductive Node
  | file (content : List UInt8)
  | dir
  | link
  deriving DecidableEq

abbrev Path := List Text

abbrev Folder := List (Path × Node)

namespace Folder

def lookup (folder : Folder) (path : Path) : Option Node :=
  (folder.find? (·.1 = path)).map Prod.snd

def remove (folder : Folder) (path : Path) : Folder := folder.filter (·.1 ≠ path)

/-- The bytes of a file that has been created. -/
def fill (folder : Folder) (path : Path) (content : List UInt8) : Folder :=
  folder.map fun e => if e.1 = path then (path, .file content) else e

/-- The directories on the way to a file; one that is missing is created. -/
def createParents (folder : Folder) (done : Path) : Path → Exec Folder
  | [] => return folder
  | comp :: rest =>
    let dir := done ++ [comp]
    match folder.lookup dir with
    | some .dir => createParents folder dir rest
    | none => createParents (folder ++ [(dir, .dir)]) dir rest
    | some (.file _) => throw .refused
    | some .link => throw .refused

/-- The name without its extension, and the extension. -/
def splitName (name : Text) : Text × Option Text :=
  match rsplitOnce '.' name with
  | some (stem, ext) => if stem = [] then (name, none) else (stem, some ext)
  | none => (name, none)

def numbered (name : Text) (i : ℕ) : Text :=
  if i = 0 then name
  else match splitName name with
    | (stem, some ext) => stem ++ '_' :: (decimal i ++ '.' :: ext)
    | (stem, none) => stem ++ '_' :: decimal i

/-- The first free name of a directory, of as many as the folder has entries and one more. -/
def freeName (folder : Folder) (dir : Path) (name : Text) : Option Path :=
  ((List.range (folder.length + 1)).map fun i => dir ++ [numbered name i]).find? fun path =>
    folder.lookup path = none

theorem splitName_eq (name : Text) :
    name = (splitName name).1 ++ ((splitName name).2.elim [] ('.' :: ·)) := by
  unfold splitName
  split
  · rename_i stem ext h
    split_ifs
    · simp
    · exact rsplitOnce_some h
  · simp

theorem numbered_injective (name : Text) : Function.Injective (numbered name) := by
  have hlen {i : ℕ} (hi : i ≠ 0) : name.length < (numbered name i).length := by
    have hname := congrArg List.length (splitName_eq name)
    simp only [numbered, if_neg hi]
    rcases hs : splitName name with ⟨stem, _ | ext⟩
    · simp only [hs, Option.elim_none, List.length_append, List.length_nil, List.length_cons]
        at hname ⊢
      omega
    · simp only [hs, Option.elim_some, List.length_append, List.length_cons] at hname ⊢
      omega
  intro i j h
  by_cases hi : i = 0
  · by_cases hj : j = 0
    · rw [hi, hj]
    · have hlt := hlen hj
      rw [← h, hi, numbered, if_pos rfl] at hlt
      omega
  · by_cases hj : j = 0
    · have hlt := hlen hi
      rw [h, hj, numbered, if_pos rfl] at hlt
      omega
    · have hdecimal : decimal i = decimal j := by
        simp only [numbered, if_neg hi, if_neg hj] at h
        rcases hs : splitName name with ⟨stem, _ | ext⟩
        · simpa only [hs, List.append_cancel_left_eq, List.cons.injEq, true_and] using h
        · simpa only [hs, List.append_cancel_left_eq, List.cons.injEq, true_and,
            List.append_cancel_right_eq] using h
      rw [← ofDigitChars_decimal i, hdecimal, ofDigitChars_decimal]

theorem mem_of_lookup {folder : Folder} {path : Path} (h : folder.lookup path ≠ none) :
    path ∈ folder.map Prod.fst := by
  unfold lookup at h
  cases hf : folder.find? (·.1 = path) with
  | none => simp [hf] at h
  | some e =>
    have he : e.1 = path := by simpa using List.find?_some hf
    rw [← he]
    exact List.mem_map_of_mem (List.mem_of_find?_eq_some hf)

/-- Among more names than there are entries, one is new. -/
theorem exists_unused {α : Type} {f : ℕ → α} (hf : Function.Injective f) (l : List α) :
    ∃ i ∈ List.range (l.length + 1), f i ∉ l := by
  by_contra hall
  push Not at hall
  have hnodup : ((List.range (l.length + 1)).map f).Nodup := List.nodup_range.map hf
  have hsub : (List.range (l.length + 1)).map f ⊆ l := by
    intro x hx
    obtain ⟨i, hi, rfl⟩ := List.mem_map.mp hx
    exact hall i hi
  have hle := (List.subperm_of_subset hnodup hsub).length_le
  rw [List.length_map, List.length_range] at hle
  omega

/-- There are more names than entries, so that one of them is free. -/
theorem exists_freeName (folder : Folder) (dir : Path) (name : Text) :
    ∃ path, folder.freeName dir name = some path ∧ folder.lookup path = none := by
  cases hf : folder.freeName dir name with
  | some path => exact ⟨path, rfl, by simpa using List.find?_some hf⟩
  | none =>
    have hinj : Function.Injective fun i => dir ++ [numbered name i] := by
      intro i j h
      exact numbered_injective name (by simpa using h)
    obtain ⟨i, hi, hnew⟩ := exists_unused hinj (folder.map Prod.fst)
    rw [List.length_map] at hi
    have htaken := List.find?_eq_none.mp hf _ (List.mem_map_of_mem hi)
    exact absurd (mem_of_lookup (by simpa using htaken)) hnew

end Folder

/-- The components of a path that are names. -/
def confine (rel : Path) : Path := rel.filter fun c => c ≠ [] ∧ c ≠ ['.'] ∧ c ≠ ['.', '.']

/-- A new, empty file at a path below the folder, or next to it when the path is taken. -/
def createOutputFile (folder : Folder) (rel : Path) : Exec (Path × Folder) := do
  let rel := if confine rel = [] then ["_recovered".toList] else confine rel
  let dir := rel.dropLast
  let folder ← folder.createParents [] dir
  match folder.freeName dir (rel.getLastD []) with
  | none => throw .refused
  | some path => return (path, folder ++ [(path, .file [])])

end Unearth
