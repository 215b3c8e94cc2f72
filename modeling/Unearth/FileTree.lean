import Unearth.Slices

/-!
# Directories with links in them

The system follows a link wherever it comes to one on its way through a path, and gives up on a path of too many
steps. A directory is listed by the names in it; the tree below it has regular files, links and directories.
-/

namespace Unearth.FileTree

abbrev Name := List UInt8

/-- A part of a path, as the system takes it. -/
inductive Step
  | root
  | parent
  | name (name : Name)
  deriving DecidableEq

inductive Kind
  | file (content : List UInt8) (modified : Option ℕ)
  | dir
  | symlink (target : List Step)
  deriving DecidableEq

/-- What is where, by the true path from the root, and how many steps the system takes through one path. -/
structure FileSystem where
  entries : List (List Name × Kind)
  cwd : List Name
  steps : ℕ

namespace FileSystem

variable (fs : FileSystem)

def lookup (path : List Name) : Option Kind :=
  if path = [] then some .dir else (fs.entries.find? (·.1 = path)).map Prod.snd

/-- The true path of what a path leads to. A link is followed from where it is. -/
def resolveFrom : ℕ → List Name → List Step → Option (List Name)
  | _, place, [] => some place
  | 0, _, _ :: _ => none
  | n + 1, _, .root :: rest => resolveFrom n [] rest
  | n + 1, place, .parent :: rest => resolveFrom n place.dropLast rest
  | n + 1, place, .name name :: rest =>
    match fs.lookup (place ++ [name]) with
    | some .dir => resolveFrom n (place ++ [name]) rest
    | some (.symlink target) => resolveFrom n place (target ++ rest)
    | some (.file _ _) => if rest = [] then some (place ++ [name]) else none
    | none => none

def resolve (path : List Step) : Option (List Name) := fs.resolveFrom fs.steps fs.cwd path

/-- What a path leads to, links followed. -/
def metadata (path : List Step) : Option Kind := (fs.resolve path).bind fs.lookup

def isDir (path : List Step) : Bool := fs.metadata path = some .dir

/-- The names in a directory, in the order in which the system gives them. -/
def namesIn (place : List Name) : List Name :=
  fs.entries.filterMap fun e => if e.1.dropLast = place then e.1.getLast? else none

def readDir (path : List Step) : Exec (List Name) :=
  match fs.resolve path with
  | some place => if fs.lookup place = some .dir then .ok (fs.namesIn place) else .error .io
  | none => .error .io

/-- The content of a file that is opened and read to its end. -/
def read (path : List Step) : Exec (List UInt8) :=
  match fs.metadata path with
  | some (.file content _) => .ok content
  | _ => .error .io

def modified (path : List Step) : Option ℕ :=
  match fs.metadata path with
  | some (.file _ modified) => modified
  | _ => none

/-- A link is followed from the directory that it is in. -/
example : read ⟨[([[1]], .dir), ([[1], [2]], .symlink [.parent, .name [3]]), ([[3]], .file [7] none)], [], 9⟩
    [.name [1], .name [2]] = .ok [7] := by
  simp [read, metadata, resolve, resolveFrom, lookup]

variable {fs} {n k : ℕ} {place found : List Name} {path rest : List Step}

/-- Every part of a path takes a step. -/
theorem length_le_of_resolveFrom (h : fs.resolveFrom n place path = some found) : path.length ≤ n := by
  induction n generalizing place path with
  | zero =>
    cases path with
    | nil => exact le_rfl
    | cons step rest =>
      rw [resolveFrom] at h
      cases h
  | succ n ih =>
    cases path with
    | nil => exact Nat.zero_le _
    | cons step rest =>
      rw [List.length_cons]
      cases step with
      | root => exact Nat.succ_le_succ (ih h)
      | parent => exact Nat.succ_le_succ (ih h)
      | name name =>
        rw [resolveFrom] at h
        split at h
        · exact Nat.succ_le_succ (ih h)
        · have hlength := ih h
          rw [List.length_append] at hlength
          omega
        · split_ifs at h with hrest
          rw [hrest, List.length_nil]
          omega
        · cases h

theorem length_le_of_isDir (h : fs.isDir path = true) : path.length ≤ fs.steps := by
  have hmeta : (fs.resolve path).bind fs.lookup = some .dir := of_decide_eq_true h
  obtain ⟨place, hresolve, -⟩ := Option.bind_eq_some_iff.mp hmeta
  exact length_le_of_resolveFrom hresolve

/-- A path goes on where a directory was found, with the steps that were to spare. -/
theorem resolveFrom_append (h : fs.resolveFrom n place path = some found) (hdir : fs.lookup found = some .dir) :
    ∃ m, k ≤ m ∧ fs.resolveFrom (n + k) place (path ++ rest) = fs.resolveFrom m found rest := by
  induction n generalizing place path with
  | zero =>
    cases path with
    | nil =>
      rw [resolveFrom] at h
      cases h
      exact ⟨0 + k, by omega, rfl⟩
    | cons step path =>
      rw [resolveFrom] at h
      cases h
  | succ n ih =>
    have hsum : n + 1 + k = (n + k) + 1 := by omega
    cases path with
    | nil =>
      rw [resolveFrom] at h
      cases h
      exact ⟨n + 1 + k, by omega, rfl⟩
    | cons step path =>
      rw [List.cons_append, hsum]
      cases step with
      | root => exact ih h
      | parent => exact ih h
      | name name =>
        rw [resolveFrom] at h ⊢
        split at h
        · exact ih h
        · rw [← List.append_assoc]
          exact ih h
        · rename_i content modified hfile
          split_ifs at h with hrest
          cases h
          rw [hfile] at hdir
          cases hdir
        · cases h

/-- Where a directory of the tree is one step takes to what it has under a name. -/
theorem resolveFrom_name {name : Name} {kind : Kind} (hkind : fs.lookup (place ++ [name]) = some kind)
    (hplain : ∀ target, kind ≠ .symlink target) (hpos : 0 < n) :
    fs.resolveFrom n place [.name name] = some (place ++ [name]) := by
  obtain ⟨m, rfl⟩ : ∃ m, n = m + 1 := ⟨n - 1, by omega⟩
  rw [resolveFrom, hkind]
  cases kind with
  | file content modified => rw [if_pos rfl]
  | dir => rw [resolveFrom]
  | symlink target => exact absurd rfl (hplain target)

end FileSystem

/-- What is in a directory, in the order in which the system gives it. -/
inductive Listing
  | nil
  | file (name : Name) (content : List UInt8) (modified : Option ℕ) (rest : Listing)
  | symlink (name : Name) (target : List Step) (rest : Listing)
  | dir (name : Name) (inner rest : Listing)

/-- A regular file, by its path below a directory. -/
structure File where
  path : List Name
  content : List UInt8
  modified : Option ℕ

namespace Listing

def names : Listing → List Name
  | nil => []
  | file name _ _ rest => name :: rest.names
  | symlink name _ rest => name :: rest.names
  | dir name _ rest => name :: rest.names

/-- The regular files of the tree. -/
def files (rel : List Name) : Listing → List File
  | nil => []
  | file name content modified rest => ⟨rel ++ [name], content, modified⟩ :: rest.files rel
  | symlink _ _ rest => rest.files rel
  | dir name inner rest => inner.files (rel ++ [name]) ++ rest.files rel

/-- The links of the tree. -/
def links (rel : List Name) : Listing → List (List Name)
  | nil => []
  | file _ _ _ rest => rest.links rel
  | symlink name _ rest => (rel ++ [name]) :: rest.links rel
  | dir name inner rest => inner.links (rel ++ [name]) ++ rest.links rel

def depth : Listing → ℕ
  | nil => 0
  | file _ _ _ rest => max 1 rest.depth
  | symlink _ _ rest => rest.depth
  | dir _ inner rest => max (inner.depth + 1) rest.depth

/-- What the system has at the true path of a directory. -/
def At (fs : FileSystem) (place : List Name) : Listing → Prop
  | nil => True
  | file name content modified rest =>
    fs.lookup (place ++ [name]) = some (.file content modified) ∧ rest.At fs place
  | symlink name target rest => fs.lookup (place ++ [name]) = some (.symlink target) ∧ rest.At fs place
  | dir name inner rest =>
    fs.lookup (place ++ [name]) = some .dir ∧ fs.namesIn (place ++ [name]) = inner.names ∧
      inner.At fs (place ++ [name]) ∧ rest.At fs place

end Listing

/-- A directory at a path, the tree below it, and steps to spare for all of it. -/
structure Folder (fs : FileSystem) (dir : List Step) where
  place : List Name
  listing : Listing
  place_dir : fs.lookup place = some .dir
  names_eq : fs.namesIn place = listing.names
  listing_at : listing.At fs place
  depth_le : listing.depth ≤ fs.steps
  resolved : fs.resolveFrom (fs.steps - listing.depth) fs.cwd dir = some place

end Unearth.FileTree
