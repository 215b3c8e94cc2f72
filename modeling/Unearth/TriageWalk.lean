import Unearth.Triage

/-!
# What the walk of a directory finds

The files of the tree are found, each once and in order, and besides them whatever the links lead to. The links
lead to nothing exactly where each of them is a directory with nothing but directories below it.
-/

namespace Unearth.Triage
open FileTree FileSystem Post

/-- A directory below which the system finds nothing but directories, links followed. -/
inductive Bare (fs : FileSystem) : List Step → Prop
  | mk {path : List Step} {place : List Name} (hresolve : fs.resolve path = some place)
      (hdir : fs.lookup place = some .dir)
      (hbare : ∀ name ∈ fs.namesIn place, Bare fs (path ++ [.name name])) : Bare fs path

section Collect

variable {fs : FileSystem} {dir path : List Step} {rel : List Name} {place : List Name}

theorem isDir_iff : fs.isDir path = true ↔ ∃ place, fs.resolve path = some place ∧ fs.lookup place = some .dir := by
  rw [isDir, decide_eq_true_iff, metadata, Option.bind_eq_some_iff]

theorem metadata_eq {kind : Kind} (hresolve : fs.resolve path = some place) (hkind : fs.lookup place = some kind) :
    fs.metadata path = some kind := by
  rw [metadata, hresolve]
  exact hkind

theorem readDir_eq (hresolve : fs.resolve path = some place) (hdir : fs.lookup place = some .dir) :
    fs.readDir path = .ok (fs.namesIn place) := by
  rw [readDir, hresolve]
  exact if_pos hdir

theorem below_concat (dir : List Step) (rel : List Name) (name : Name) :
    below dir (rel ++ [name]) = below dir rel ++ [.name name] := by
  rw [below, List.map_append, ← List.append_assoc]
  rfl

/-- What an entry of a directory adds to the paths. -/
def entryPaths (fs : FileSystem) (dir : List Step) (rel : List Name) (name : Name) : Exec (List (List Name)) :=
  if fs.isDir (below dir (rel ++ [name])) then collect fs dir (rel ++ [name]) else .ok [rel ++ [name]]

theorem foldlM_parts {α β : Type} (f : α → Exec (List β)) (l : List α) (out : List β) :
    l.foldlM (fun out x => do return out ++ (← f x)) out = do return out ++ (← l.mapM f).flatten := by
  induction l generalizing out with
  | nil =>
    rw [List.foldlM_nil, List.mapM_nil]
    change (.ok out : Exec (List β)) = .ok (out ++ [])
    rw [List.append_nil]
  | cons x rest ih =>
    rw [List.foldlM_cons, List.mapM_cons]
    cases hx : f x with
    | error e => rfl
    | ok part =>
      rw [exec_ok_bind]
      change rest.foldlM _ (out ++ part) = _
      rw [ih]
      cases hrest : rest.mapM f with
      | error e => rfl
      | ok parts =>
        change (.ok (out ++ part ++ parts.flatten) : Exec (List β)) = .ok (out ++ (part :: parts).flatten)
        rw [List.flatten_cons, List.append_assoc]

theorem collect_eq (hresolve : fs.resolve (below dir rel) = some place) (hdir : fs.lookup place = some .dir) :
    collect fs dir rel = do return (← (fs.namesIn place).mapM (entryPaths fs dir rel)).flatten := by
  have hparts := foldlM_parts (entryPaths fs dir rel) (fs.namesIn place) []
  simp only [List.nil_append] at hparts
  rw [collect, readDir_eq hresolve hdir, exec_ok_bind, ← hparts]
  congr 1
  funext out name
  unfold entryPaths
  split_ifs with hname
  · rfl
  · rfl

/-- What the entries add, as far as they are walked to the end. -/
theorem collect_parts (hresolve : fs.resolve (below dir rel) = some place) (hdir : fs.lookup place = some .dir)
    {part : Name → List (List Name)} (hpart : ∀ name ∈ fs.namesIn place, entryPaths fs dir rel name = .ok (part name)) :
    collect fs dir rel = .ok ((fs.namesIn place).flatMap part) := by
  rw [collect_eq hresolve hdir, mapM_ok hpart]
  rfl

/-- A directory is walked to the end: a path has no more parts than the system takes steps. -/
theorem collect_ok (h : fs.isDir (below dir rel) = true) : ∃ l, collect fs dir rel = .ok l := by
  induction hm : fs.steps - (below dir rel).length using Nat.strong_induction_on generalizing rel with
  | _ m ih =>
    obtain ⟨place, hresolve, hdir⟩ := isDir_iff.mp h
    have hentries : ∀ name ∈ fs.namesIn place, ∃ l, entryPaths fs dir rel name = .ok l := by
      intro name _
      unfold entryPaths
      split_ifs with hname
      · have hle := length_le_of_isDir hname
        refine ih _ ?_ hname rfl
        rw [below_concat, List.length_append, List.length_singleton] at hle ⊢
        omega
      · exact ⟨_, rfl⟩
    choose! part hpart using hentries
    exact ⟨_, collect_parts hresolve hdir hpart⟩

theorem entryPaths_ok (fs : FileSystem) (dir : List Step) (rel : List Name) (name : Name) :
    ∃ l, entryPaths fs dir rel name = .ok l := by
  unfold entryPaths
  split_ifs with hname
  · exact collect_ok hname
  · exact ⟨_, rfl⟩

/-- Where nothing is found there is nothing but directories. -/
theorem bare_of_collect (h : fs.isDir (below dir rel) = true) (hnil : collect fs dir rel = .ok []) :
    Bare fs (below dir rel) := by
  induction hm : fs.steps - (below dir rel).length using Nat.strong_induction_on generalizing rel with
  | _ m ih =>
    obtain ⟨place, hresolve, hdir⟩ := isDir_iff.mp h
    choose part hpart using entryPaths_ok fs dir rel
    rw [collect_parts hresolve hdir fun name _ => hpart name] at hnil
    have hempty := List.flatMap_eq_nil_iff.mp (Except.ok.inj hnil)
    refine Bare.mk hresolve hdir fun name hname => ?_
    have hentry := hpart name
    rw [hempty name hname, entryPaths] at hentry
    split_ifs at hentry with hchild
    · have hle := length_le_of_isDir hchild
      rw [← below_concat]
      refine ih _ ?_ hchild hentry rfl
      rw [below_concat, List.length_append, List.length_singleton] at hle ⊢
      omega
    · cases hentry

theorem collect_bare (h : Bare fs (below dir rel)) : fs.isDir (below dir rel) = true ∧ collect fs dir rel = .ok [] := by
  generalize hpath : below dir rel = path at h
  induction h generalizing rel with
  | @mk path place hresolve hdir hbare ih =>
    subst hpath
    refine ⟨isDir_iff.mpr ⟨place, hresolve, hdir⟩, ?_⟩
    have hentries : ∀ name ∈ fs.namesIn place, entryPaths fs dir rel name = .ok [] := by
      intro name hname
      obtain ⟨hchild, hnil⟩ := ih name hname (below_concat dir rel name)
      rw [← below_concat] at hchild
      rw [entryPaths, if_pos hchild, hnil]
    rw [collect_parts hresolve hdir hentries]
    simp

/-- A link adds nothing to the paths exactly where there is nothing but directories. -/
theorem entryPaths_nil_iff {name : Name} :
    entryPaths fs dir rel name = .ok [] ↔ Bare fs (below dir (rel ++ [name])) := by
  constructor
  · intro h
    unfold entryPaths at h
    split_ifs at h with hname
    · exact bare_of_collect hname h
    · cases h
  · intro h
    obtain ⟨hname, hnil⟩ := collect_bare h
    rw [entryPaths, if_pos hname, hnil]

end Collect

section Tree

variable {fs : FileSystem} {dir : List Step} {rel : List Name} {place : List Name} {k : ℕ} {name : Name}

/-- An entry of a directory that is reached with steps to spare is where it seems to be. -/
theorem resolve_child {kind : Kind} (hplace : fs.lookup place = some .dir)
    (hres : fs.resolveFrom (fs.steps - k) fs.cwd (below dir rel) = some place) (hk : k ≤ fs.steps) (hpos : 0 < k)
    (hkind : fs.lookup (place ++ [name]) = some kind) (hplain : ∀ target, kind ≠ .symlink target) :
    fs.resolve (below dir (rel ++ [name])) = some (place ++ [name]) ∧
      fs.resolveFrom (fs.steps - (k - 1)) fs.cwd (below dir (rel ++ [name])) = some (place ++ [name]) := by
  have hreach : ∀ j, 0 < j → fs.resolveFrom (fs.steps - k + j) fs.cwd (below dir (rel ++ [name])) =
      some (place ++ [name]) := by
    intro j hj
    obtain ⟨m, hm, happend⟩ := @resolveFrom_append _ _ j _ _ _ [.name name] hres hplace
    rw [below_concat, happend]
    exact resolveFrom_name hkind hplain (by omega)
  have hall := hreach k hpos
  rw [Nat.sub_add_cancel hk] at hall
  have hspare := hreach 1 (by decide)
  rw [show fs.steps - k + 1 = fs.steps - (k - 1) by omega] at hspare
  exact ⟨hall, hspare⟩

/-- Paths are those of files, unless links lead to more. -/
structure Walked (fs : FileSystem) (dir : List Step) (paths : List (List Name)) (files : List File)
    (links : List (List Name)) : Prop where
  exact : (∀ link ∈ links, Bare fs (below dir link)) → paths = files.map File.path
  le : files.length ≤ paths.length
  bare : paths.length = files.length → ∀ link ∈ links, Bare fs (below dir link)

theorem Walked.append {paths more : List (List Name)} {files others : List File} {links rest : List (List Name)}
    (h : Walked fs dir paths files links) (h' : Walked fs dir more others rest) :
    Walked fs dir (paths ++ more) (files ++ others) (links ++ rest) := by
  have hle := h.le
  have hle' := h'.le
  refine ⟨fun hall => ?_, ?_, fun hlength => ?_⟩
  · rw [h.exact fun link hlink => hall link (List.mem_append_left _ hlink),
      h'.exact fun link hlink => hall link (List.mem_append_right _ hlink), List.map_append]
  · rw [List.length_append, List.length_append]
    omega
  · rw [List.length_append, List.length_append] at hlength
    intro link hlink
    rcases List.mem_append.mp hlink with hlink | hlink
    · exact h.bare (by omega) link hlink
    · exact h'.bare (by omega) link hlink

variable {part : List Name → Name → List (List Name)}

/-- The paths of a tree, by induction on what is in its directories. -/
theorem listing_walked (hpart : ∀ rel name, entryPaths fs dir rel name = .ok (part rel name)) (l : Listing)
    (hplace : fs.lookup place = some .dir)
    (hres : fs.resolveFrom (fs.steps - k) fs.cwd (below dir rel) = some place) (hk : k ≤ fs.steps)
    (hdepth : l.depth ≤ k) (hat : l.At fs place) :
    Walked fs dir (l.names.flatMap (part rel)) (l.files rel) (l.links rel) := by
  induction l generalizing rel place k with
  | nil => exact ⟨fun _ => rfl, le_rfl, fun _ link hlink => by cases hlink⟩
  | file name content modified rest ih =>
    obtain ⟨hkind, hat⟩ := hat
    have hlevel : 1 ≤ k := (le_max_left _ _).trans hdepth
    obtain ⟨hresolve, -⟩ := resolve_child hplace hres hk hlevel hkind (fun target h => by cases h)
    have hpath : part rel name = [rel ++ [name]] := by
      have hentry := hpart rel name
      have hfile : ¬ fs.isDir (below dir (rel ++ [name])) = true := by
        rw [isDir, metadata_eq hresolve hkind]
        simp
      rw [entryPaths, if_neg hfile] at hentry
      exact (Except.ok.inj hentry).symm
    have hone : Walked fs dir [rel ++ [name]] [⟨rel ++ [name], content, modified⟩] [] :=
      ⟨fun _ => rfl, le_rfl, fun _ link hlink => by cases hlink⟩
    rw [Listing.names, List.flatMap_cons, hpath]
    exact hone.append (ih hplace hres hk ((le_max_right _ _).trans hdepth) hat)
  | symlink name target rest ih =>
    obtain ⟨-, hat⟩ := hat
    have hnil : part rel name = [] ↔ Bare fs (below dir (rel ++ [name])) := by
      rw [← entryPaths_nil_iff, hpart rel name]
      exact ⟨fun h => by rw [h], Except.ok.inj⟩
    have hone : Walked fs dir (part rel name) [] [rel ++ [name]] := by
      refine ⟨fun hall => ?_, Nat.zero_le _, fun hlength link hlink => ?_⟩
      · exact hnil.mpr (hall _ (List.mem_singleton_self _))
      · rw [List.mem_singleton.mp hlink]
        exact hnil.mp (List.length_eq_zero_iff.mp hlength)
    rw [Listing.names, List.flatMap_cons]
    exact hone.append (ih hplace hres hk hdepth hat)
  | dir name inner rest ihInner ihRest =>
    obtain ⟨hkind, hnames, hinner, hat⟩ := hat
    have hlevel : inner.depth + 1 ≤ k := (le_max_left _ _).trans hdepth
    obtain ⟨hresolve, hspare⟩ := resolve_child hplace hres hk (by omega) hkind (fun target h => by cases h)
    have hdir : fs.isDir (below dir (rel ++ [name])) = true := isDir_iff.mpr ⟨_, hresolve, hkind⟩
    have hpaths : part rel name = inner.names.flatMap (part (rel ++ [name])) := by
      have hentry := hpart rel name
      rw [entryPaths, if_pos hdir, collect_parts hresolve hkind fun n _ => hpart (rel ++ [name]) n, hnames] at hentry
      exact (Except.ok.inj hentry).symm
    rw [Listing.names, List.flatMap_cons, hpaths]
    exact (ihInner hkind hspare (by omega) (by omega) hinner).append
      (ihRest hplace hres hk ((le_max_right _ _).trans hdepth) hat)

/-- Every file of the tree is read. -/
theorem listing_read (l : Listing) (hplace : fs.lookup place = some .dir)
    (hres : fs.resolveFrom (fs.steps - k) fs.cwd (below dir rel) = some place) (hk : k ≤ fs.steps)
    (hdepth : l.depth ≤ k) (hat : l.At fs place) {f : File} (hf : f ∈ l.files rel) :
    readFile fs dir f.path = .ok f := by
  induction l generalizing rel place k with
  | nil => cases hf
  | file name content modified rest ih =>
    obtain ⟨hkind, hat⟩ := hat
    have hlevel : 1 ≤ k := (le_max_left _ _).trans hdepth
    rcases List.mem_cons.mp hf with rfl | hf
    · obtain ⟨hresolve, -⟩ := resolve_child hplace hres hk hlevel hkind (fun target h => by cases h)
      have hmeta := metadata_eq hresolve hkind
      rw [readFile, FileSystem.read, FileSystem.modified, hmeta]
      rfl
    · exact ih hplace hres hk ((le_max_right _ _).trans hdepth) hat hf
  | symlink name target rest ih => exact ih hplace hres hk hdepth hat.2 hf
  | dir name inner rest ihInner ihRest =>
    obtain ⟨hkind, -, hinner, hat⟩ := hat
    have hlevel : inner.depth + 1 ≤ k := (le_max_left _ _).trans hdepth
    obtain ⟨-, hspare⟩ := resolve_child hplace hres hk (by omega) hkind (fun target h => by cases h)
    rcases List.mem_append.mp hf with hf | hf
    · exact ihInner hkind hspare (by omega) (by omega) hinner hf
    · exact ihRest hplace hres hk ((le_max_right _ _).trans hdepth) hat hf

variable (folder : FileTree.Folder fs dir)

/-- The paths of a folder, and that its files are read. -/
theorem folder_walked : ∃ paths, collect fs dir [] = .ok paths ∧
    Walked fs dir paths (folder.listing.files []) (folder.listing.links []) ∧
    ∀ f ∈ folder.listing.files [], readFile fs dir f.path = .ok f := by
  choose part hpart using entryPaths_ok fs dir
  have hbelow : below dir [] = dir := List.append_nil dir
  have hspare := folder.resolved
  have hresolve : fs.resolve dir = some folder.place := by
    obtain ⟨m, -, happend⟩ := @resolveFrom_append _ _ folder.listing.depth _ _ _ [] hspare folder.place_dir
    rw [Nat.sub_add_cancel folder.depth_le, List.append_nil] at happend
    rw [resolve, happend, resolveFrom]
  have hroot : fs.resolve (below dir []) = some folder.place := by rwa [hbelow]
  have hstart : fs.resolveFrom (fs.steps - folder.listing.depth) fs.cwd (below dir []) = some folder.place := by
    rwa [hbelow]
  refine ⟨folder.listing.names.flatMap (part []), ?_, ?_, fun f hf => ?_⟩
  · rw [collect_parts hroot folder.place_dir fun name _ => hpart [] name, folder.names_eq]
  · exact listing_walked hpart _ folder.place_dir hstart folder.depth_le le_rfl folder.listing_at
  · exact listing_read _ folder.place_dir hstart folder.depth_le le_rfl folder.listing_at hf

end Tree

end Unearth.Triage
