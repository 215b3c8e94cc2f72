import Unearth.Undelete

/-!
# The output folder in a file system with links

The system follows a link wherever it comes to one on its way through a path. A file is created
behind directories that were looked at without following them, so that what the system resolves
below the output folder is where the path says.
-/

namespace Unearth.OutputTree
open Lines Decimal

section Paths

/-- A part of a path, as the system takes it. -/
inductive PathPart
  | root
  | cur
  | parent
  | normal (name : Text)
  deriving DecidableEq

abbrev Parts := List PathPart

/-- The pieces of a path between its separators. -/
def pieces : Text → List Text
  | [] => [[]]
  | c :: t => if c = '/' then [] :: pieces t else consFirst c (pieces t)

def partOf (piece : Text) : Option PathPart :=
  if piece = [] ∨ piece = ['.'] then none
  else if piece = ['.', '.'] then some .parent
  else some (.normal piece)

/-- The parts of a path. A single dot counts only where the path begins with it. -/
def components (path : Text) : Parts :=
  let parts := (pieces path).filterMap partOf
  if path.head? = some '/' then .root :: parts
  else if (pieces path).head? = some ['.'] then .cur :: parts
  else parts

def PathPart.name : PathPart → Option Text
  | .normal name => some name
  | _ => none

def confine (rel : Text) : List Text := (components rel).filterMap PathPart.name

/-- A name that leads one level down. -/
structure PlainName (name : Text) : Prop where
  ne_nil : name ≠ []
  ne_dot : name ≠ ['.']
  ne_dots : name ≠ ['.', '.']
  no_separator : '/' ∉ name

end Paths

section System

inductive TreeEntry
  | file (content : List UInt8)
  | dir
  | symlink (target : Text)
  deriving DecidableEq

inductive OsError
  | notFound
  | alreadyExists
  | other
  deriving DecidableEq

/-- What is where, by the true path from the root; where the system refuses to look and to create
something, and how many steps it takes through one path. -/
structure FileSystem where
  entries : List (List Text × TreeEntry)
  cwd : List Text
  hidden : List Text → Bool
  locked : List Text → Bool
  steps : ℕ

namespace FileSystem

variable (fs : FileSystem)

def lookup (path : List Text) : Option TreeEntry :=
  if path = [] then some .dir else (fs.entries.find? (·.1 = path)).map Prod.snd

/-- The true path of a directory. A link is followed from where it is. -/
def resolveFrom : ℕ → List Text → Parts → Except OsError (List Text)
  | _, dir, [] => .ok dir
  | 0, _, _ :: _ => .error .other
  | n + 1, _, .root :: rest => resolveFrom n [] rest
  | n + 1, dir, .cur :: rest => resolveFrom n dir rest
  | n + 1, dir, .parent :: rest => resolveFrom n dir.dropLast rest
  | n + 1, dir, .normal name :: rest =>
    match fs.lookup (dir ++ [name]) with
    | some .dir => resolveFrom n (dir ++ [name]) rest
    | some (.symlink target) => resolveFrom n dir (components target ++ rest)
    | some (.file _) => .error .other
    | none => .error .notFound

def resolve (path : Parts) : Except OsError (List Text) := fs.resolveFrom fs.steps fs.cwd path

/-- What is at a name of a directory; a link there is not followed. -/
def symlinkMetadata (dir : Parts) (name : Text) : Except OsError TreeEntry := do
  let parent ← fs.resolve dir
  if fs.hidden (parent ++ [name]) then throw .other
  else
    match fs.lookup (parent ++ [name]) with
    | some e => return e
    | none => throw .notFound

/-- Something new at a name of a directory, unless there is anything at it. -/
def create (dir : Parts) (name : Text) (e : TreeEntry) : Except OsError FileSystem := do
  let parent ← fs.resolve dir
  if (fs.lookup (parent ++ [name])).isSome then throw .alreadyExists
  else if fs.locked (parent ++ [name]) then throw .other
  else return { fs with entries := fs.entries ++ [(parent ++ [name], e)] }

/-- The directories of a path that does not lead to one. -/
def createMissing (fs : FileSystem) (done : Parts) : Parts → Except OsError FileSystem
  | [] => return fs
  | part :: rest =>
    match fs.resolve (done ++ [part]) with
    | .ok _ => createMissing fs (done ++ [part]) rest
    | .error e =>
      match part with
      | .normal name => do createMissing (← fs.create done name .dir) (done ++ [part]) rest
      | _ => throw e

def createDirAll (path : Parts) : Except OsError FileSystem :=
  match fs.resolve path with
  | .ok _ => return fs
  | .error _ => fs.createMissing [] path

end FileSystem

end System

section Create

/-- Why no file was created. -/
inductive Failure
  | throughLink (dir : Parts)
  | inTheWay (dir : Parts)
  | creating (path : Parts) (e : OsError)
  | inspecting (dir : Parts) (e : OsError)
  | unreachable
  deriving DecidableEq

/-- One try at a directory; when it has appeared by itself, another one may follow. -/
def tryDir (again : FileSystem → Except Failure FileSystem) (fs : FileSystem) (dir : Parts) (name : Text) :
    Except Failure FileSystem :=
  match fs.symlinkMetadata dir name with
  | .ok (.symlink _) => .error (.throughLink (dir ++ [.normal name]))
  | .ok .dir => .ok fs
  | .ok (.file _) => .error (.inTheWay (dir ++ [.normal name]))
  | .error .notFound =>
    match fs.create dir name .dir with
    | .ok fs => .ok fs
    | .error .alreadyExists => again fs
    | .error e => .error (.creating (dir ++ [.normal name]) e)
  | .error e => .error (.inspecting (dir ++ [.normal name]) e)

def createParent (fs : FileSystem) (dir : Parts) (name : Text) : Except Failure FileSystem :=
  tryDir (fun fs => tryDir (fun _ => .error (.creating (dir ++ [.normal name]) .alreadyExists)) fs dir name)
    fs dir name

def createParents (fs : FileSystem) (dir : Parts) : List Text → Except Failure FileSystem
  | [] => return fs
  | name :: rest => do createParents (← createParent fs dir name) (dir ++ [.normal name]) rest

/-- The first name that is free, of those with some counters. -/
def createNumbered (fs : FileSystem) (dir : Parts) (name : Text) : List ℕ → Except Failure (Parts × FileSystem)
  | [] => .error .unreachable
  | i :: rest =>
    match fs.create dir (Folder.numbered name i) (.file []) with
    | .ok fs => .ok (dir ++ [.normal (Folder.numbered name i)], fs)
    | .error .alreadyExists => createNumbered fs dir name rest
    | .error e => .error (.creating (dir ++ [.normal (Folder.numbered name i)]) e)

/-- The names below the output folder. -/
def namesOf (rel : Text) : List Text := if confine rel = [] then ["_recovered".toList] else confine rel

def createOutputFile (fs : FileSystem) (outDir rel : Text) : Except Failure (Parts × FileSystem) := do
  let out := components outDir
  match fs.createDirAll out with
  | .error e => .error (.creating out e)
  | .ok fs =>
    let fs ← createParents fs out (namesOf rel).dropLast
    -- There are more counters than entries, and one of them is free.
    createNumbered fs (out ++ (namesOf rel).dropLast.map .normal) ((namesOf rel).getLastD [])
      (List.range (fs.entries.length + 1))

end Create

section Names

theorem mem_pieces {path piece : Text} (h : piece ∈ pieces path) : '/' ∉ piece := by
  induction path generalizing piece with
  | nil =>
    rw [pieces, List.mem_singleton] at h
    rw [h]
    exact List.not_mem_nil
  | cons c t ih =>
    rw [pieces] at h
    split_ifs at h with hc
    · rcases List.mem_cons.mp h with rfl | h
      · exact List.not_mem_nil
      · exact ih h
    · have hfirst : ∀ first ∈ pieces t, '/' ∉ c :: first := by
        intro first hmem hsep
        rcases List.mem_cons.mp hsep with rfl | hsep
        · exact hc rfl
        · exact ih hmem hsep
      cases hp : pieces t with
      | nil =>
        rw [hp, consFirst, List.mem_singleton] at h
        rw [h, List.mem_singleton]
        exact fun hsep => hc hsep.symm
      | cons first rest =>
        rw [hp, consFirst] at h
        rcases List.mem_cons.mp h with rfl | h
        · exact hfirst first (hp ▸ List.mem_cons_self)
        · exact ih (hp ▸ List.mem_cons_of_mem _ h)

theorem plain_of_confine {rel name : Text} (h : name ∈ confine rel) : PlainName name := by
  obtain ⟨part, hpart, hname⟩ := List.mem_filterMap.mp h
  have hnormal : PathPart.normal name ∈ (pieces rel).filterMap partOf := by
    cases part with
    | normal n =>
      cases hname
      unfold components at hpart
      dsimp only at hpart
      split_ifs at hpart
      · exact (List.mem_cons.mp hpart).resolve_left fun h => (by cases h)
      · exact (List.mem_cons.mp hpart).resolve_left fun h => (by cases h)
      · exact hpart
    | _ => cases hname
  obtain ⟨piece, hpiece, hpart⟩ := List.mem_filterMap.mp hnormal
  unfold partOf at hpart
  split_ifs at hpart with hempty hdots
  · cases hpart
  · cases hpart
    exact ⟨fun h => hempty (.inl h), fun h => hempty (.inr h), hdots, mem_pieces hpiece⟩

theorem plain_namesOf {rel name : Text} (h : name ∈ namesOf rel) : PlainName name := by
  unfold namesOf at h
  split_ifs at h
  · rw [List.mem_singleton.mp h]
    exact ⟨by decide, by decide, by decide, by decide⟩
  · exact plain_of_confine h

theorem pieces_of_no_separator {name : Text} (h : '/' ∉ name) : pieces name = [name] := by
  induction name with
  | nil => rfl
  | cons c t ih =>
    rw [List.mem_cons, not_or] at h
    rw [pieces, if_neg (Ne.symm h.1), ih h.2, consFirst]

theorem PlainName.components {name : Text} (h : PlainName name) : components name = [.normal name] := by
  have hpart : partOf name = some (.normal name) := by
    rw [partOf, if_neg (not_or.mpr ⟨h.ne_nil, h.ne_dot⟩), if_neg h.ne_dots]
  have hroot : name.head? ≠ some '/' := fun hhead => h.no_separator (List.mem_of_mem_head? hhead)
  have hcur : (pieces name).head? ≠ some ['.'] := by
    rw [pieces_of_no_separator h.no_separator]
    simpa using h.ne_dot
  rw [OutputTree.components, if_neg hroot, if_neg hcur, pieces_of_no_separator h.no_separator, List.filterMap_cons,
    hpart]
  rfl

theorem namesOf_ne_nil (rel : Text) : namesOf rel ≠ [] := by
  unfold namesOf
  split_ifs with h
  · exact List.cons_ne_nil _ _
  · exact h

end Names

section Resolve

variable {fs fs' : FileSystem} {dir path : List Text} {n : ℕ}

/-- What the system does at a name: it goes down, or it follows a link. -/
theorem resolveFrom_normal (fs : FileSystem) (n : ℕ) (dir : List Text) (name : Text) (rest : Parts) :
    fs.resolveFrom (n + 1) dir (.normal name :: rest) =
      match fs.lookup (dir ++ [name]) with
      | some .dir => fs.resolveFrom n (dir ++ [name]) rest
      | some (.symlink target) => fs.resolveFrom n dir (components target ++ rest)
      | some (.file _) => .error .other
      | none => .error .notFound := rfl

theorem resolveFrom_exists (fs : FileSystem) (n : ℕ) (dir : List Text) (parts : Parts) :
    fs.resolveFrom n dir parts ≠ .error .alreadyExists := by
  induction n generalizing dir parts with
  | zero =>
    cases parts with
    | nil => exact fun h => (by cases h)
    | cons part rest => exact fun h => (by cases h)
  | succ n ih =>
    cases parts with
    | nil => exact fun h => (by cases h)
    | cons part rest =>
      cases part with
      | root => exact ih [] rest
      | cur => exact ih dir rest
      | parent => exact ih dir.dropLast rest
      | normal name =>
        rw [resolveFrom_normal]
        cases fs.lookup (dir ++ [name]) with
        | none => exact fun h => (by cases h)
        | some e =>
          cases e with
          | file content => exact fun h => (by cases h)
          | dir => exact ih _ rest
          | symlink target => exact ih dir _

/-- All that was there is still there. -/
structure Extends (fs fs' : FileSystem) : Prop where
  kept : ∀ path e, fs.lookup path = some e → fs'.lookup path = some e
  cwd : fs'.cwd = fs.cwd
  steps : fs'.steps = fs.steps

theorem Extends.refl (fs : FileSystem) : Extends fs fs := ⟨fun _ _ h => h, rfl, rfl⟩

theorem Extends.trans {fs'' : FileSystem} (h : Extends fs fs') (h' : Extends fs' fs'') : Extends fs fs'' :=
  ⟨fun path e he => h'.kept path e (h.kept path e he), h'.cwd.trans h.cwd, h'.steps.trans h.steps⟩

/-- What leads to a directory goes on leading there. -/
theorem Extends.resolveFrom {parts : Parts} (h : Extends fs fs') (hpath : fs.resolveFrom n dir parts = .ok path) :
    fs'.resolveFrom n dir parts = .ok path := by
  induction n generalizing dir parts with
  | zero =>
    cases parts with
    | nil => exact hpath
    | cons part rest => cases hpath
  | succ n ih =>
    cases parts with
    | nil => exact hpath
    | cons part rest =>
      cases part with
      | root => exact ih hpath
      | cur => exact ih hpath
      | parent => exact ih hpath
      | normal name =>
        rw [resolveFrom_normal] at hpath ⊢
        cases he : fs.lookup (dir ++ [name]) with
        | none =>
          rw [he] at hpath
          cases hpath
        | some e =>
          rw [he] at hpath
          rw [h.kept _ _ he]
          cases e with
          | file content => cases hpath
          | dir => exact ih hpath
          | symlink target => exact ih hpath

theorem Extends.resolve {parts : Parts} (h : Extends fs fs') (hpath : fs.resolve parts = .ok path) :
    fs'.resolve parts = .ok path := by
  unfold FileSystem.resolve at hpath ⊢
  rw [h.cwd, h.steps]
  exact h.resolveFrom hpath

/-- A longer path goes through what a shorter one leads to. -/
theorem resolveFrom_append {front back : Parts} (h : fs.resolveFrom n dir (front ++ back) = .ok path) :
    ∃ m mid, fs.resolveFrom n dir front = .ok mid ∧ fs.resolveFrom m mid back = .ok path := by
  induction n generalizing dir front with
  | zero =>
    cases front with
    | nil => exact ⟨0, dir, rfl, h⟩
    | cons part rest => cases h
  | succ n ih =>
    cases front with
    | nil => exact ⟨n + 1, dir, rfl, h⟩
    | cons part rest =>
      rw [List.cons_append] at h
      cases part with
      | root => exact ih h
      | cur => exact ih h
      | parent => exact ih h
      | normal name =>
        rw [resolveFrom_normal] at h ⊢
        cases he : fs.lookup (dir ++ [name]) with
        | none =>
          rw [he] at h
          cases h
        | some e =>
          rw [he] at h
          cases e with
          | file content => cases h
          | dir => exact ih h
          | symlink target =>
            dsimp only at h ⊢
            rw [← List.append_assoc] at h
            exact ih h

/-- The names of directories that are none of them links lead one level down each. -/
theorem resolveFrom_names {names : List Text}
    (hdirs : ∀ k < names.length, fs.lookup (dir ++ names.take (k + 1)) = some .dir)
    (h : fs.resolveFrom n dir (names.map .normal) = .ok path) : path = dir ++ names := by
  induction names generalizing n dir with
  | nil =>
    rw [List.map_nil, FileSystem.resolveFrom] at h
    cases h
    exact (List.append_nil _).symm
  | cons name rest ih =>
    cases n with
    | zero => cases h
    | succ n =>
      have hfirst : fs.lookup (dir ++ [name]) = some .dir := hdirs 0 (Nat.succ_pos _)
      rw [List.map_cons, resolveFrom_normal, hfirst] at h
      have hrest := ih (fun k hk => ?_) h
      · rw [hrest, List.append_assoc, List.singleton_append]
      · have hnext := hdirs (k + 1) (Nat.succ_lt_succ hk)
        rwa [List.take_succ_cons, ← List.singleton_append, ← List.append_assoc] at hnext

end Resolve

section Steps

variable {fs fs' : FileSystem} {dir : Parts} {name : Text} {path out : List Text} {e : TreeEntry}

theorem lookup_append (hpath : path ≠ []) (hfree : fs.lookup path = none) (e : TreeEntry) (q : List Text) :
    ({ fs with entries := fs.entries ++ [(path, e)] } : FileSystem).lookup q =
      if q = path then some e else fs.lookup q := by
  unfold FileSystem.lookup at hfree ⊢
  rw [if_neg hpath, Option.map_eq_none_iff] at hfree
  rw [List.find?_append]
  by_cases hq : q = path
  · subst hq
    rw [if_pos rfl, if_neg hpath, hfree]
    simp
  · have hlast : List.find? (fun entry => decide (entry.1 = q)) [(path, e)] = none := by
      simp [Ne.symm hq]
    rw [if_neg hq, hlast, Option.or_none]

/-- Something was created where nothing was, and nothing else changed. -/
structure CreatedAt (fs : FileSystem) (dir : Parts) (name : Text) (e : TreeEntry) (fs' : FileSystem)
    (parent : List Text) : Prop where
  resolved : fs.resolve dir = .ok parent
  free : fs.lookup (parent ++ [name]) = none
  there : fs'.lookup (parent ++ [name]) = some e
  extends_ : Extends fs fs'

theorem create_ok (h : fs.create dir name e = .ok fs') : ∃ parent, CreatedAt fs dir name e fs' parent := by
  unfold FileSystem.create at h
  cases hparent : fs.resolve dir with
  | error err =>
    rw [hparent] at h
    cases h
  | ok parent =>
    rw [hparent] at h
    change (if (fs.lookup (parent ++ [name])).isSome then _ else _) = _ at h
    split_ifs at h with htaken
    cases h
    have hfree : fs.lookup (parent ++ [name]) = none := by simpa using htaken
    have hlookup := lookup_append (by simp) hfree e
    refine ⟨parent, hparent, hfree, ?_, fun q e' he' => ?_, rfl, rfl⟩
    · rw [hlookup, if_pos rfl]
    · rw [hlookup, if_neg, he']
      rintro rfl
      rw [hfree] at he'
      cases he'

theorem create_taken (h : fs.create dir name e = .error .alreadyExists) (hdir : fs.resolve dir = .ok path) :
    fs.lookup (path ++ [name]) ≠ none := by
  unfold FileSystem.create at h
  rw [hdir] at h
  change (if (fs.lookup (path ++ [name])).isSome then _ else _) = _ at h
  split_ifs at h with htaken
  · exact Option.ne_none_iff_isSome.mpr htaken
  · cases h
  · cases h

/-- A directory that is gone through is a real one. -/
structure Entered (fs : FileSystem) (dir : Parts) (name : Text) (fs' : FileSystem) : Prop where
  extends_ : Extends fs fs'
  real : ∃ parent, fs.resolve dir = .ok parent ∧ fs'.lookup (parent ++ [name]) = some .dir

theorem tryDir_entered {again : FileSystem → Except Failure FileSystem} (h : tryDir again fs dir name = .ok fs')
    (hagain : ∀ fs', again fs = .ok fs' → Entered fs dir name fs') : Entered fs dir name fs' := by
  unfold tryDir at h
  split at h
  · cases h
  · rename_i hmeta
    cases h
    unfold FileSystem.symlinkMetadata at hmeta
    cases hparent : fs.resolve dir with
    | error err =>
      rw [hparent] at hmeta
      cases hmeta
    | ok parent =>
      rw [hparent] at hmeta
      refine ⟨.refl fs, parent, hparent, ?_⟩
      change (if fs.hidden (parent ++ [name]) then _ else _) = _ at hmeta
      split_ifs at hmeta
      cases he : fs.lookup (parent ++ [name]) with
      | none =>
        rw [he] at hmeta
        cases hmeta
      | some e =>
        rw [he] at hmeta
        cases hmeta
        rfl
  · cases h
  · split at h
    · rename_i hcreate
      cases h
      obtain ⟨parent, hcreated⟩ := create_ok hcreate
      exact ⟨hcreated.extends_, parent, hcreated.resolved, hcreated.there⟩
    · exact hagain fs' h
    · cases h
  · cases h

theorem createParent_entered (h : createParent fs dir name = .ok fs') : Entered fs dir name fs' :=
  tryDir_entered h fun _ hagain => tryDir_entered hagain fun _ hlast => (by cases hlast)

/-- The directories below the output folder are real ones, and the way to the last of them leads there. -/
theorem createParents_spec {outDir : Parts} (done : List Text) {names : List Text} (hout : fs.resolve outDir = .ok out)
    (hdone : ∀ k < done.length, fs.lookup (out ++ done.take (k + 1)) = some .dir)
    (h : createParents fs (outDir ++ done.map .normal) names = .ok fs') :
    Extends fs fs' ∧
      ∀ k < (done ++ names).length, fs'.lookup (out ++ (done ++ names).take (k + 1)) = some .dir := by
  induction names generalizing fs done with
  | nil =>
    cases h
    rw [List.append_nil]
    exact ⟨.refl _, hdone⟩
  | cons name rest ih =>
    unfold createParents at h
    cases hfirst : createParent fs (outDir ++ done.map .normal) name with
    | error e =>
      rw [hfirst] at h
      cases h
    | ok fs₁ =>
      rw [hfirst] at h
      obtain ⟨hextends, parent, hparent, hreal⟩ := createParent_entered hfirst
      obtain ⟨m, mid, hmid, hnames⟩ := resolveFrom_append hparent
      obtain rfl : mid = out := Except.ok.inj (hmid.symm.trans hout)
      rw [resolveFrom_names hdone hnames] at hreal
      have hdone' : ∀ k < (done ++ [name]).length,
          fs₁.lookup (mid ++ (done ++ [name]).take (k + 1)) = some .dir := by
        intro k hk
        rw [List.length_append, List.length_singleton] at hk
        rcases Nat.lt_succ_iff_lt_or_eq.mp hk with hlt | rfl
        · rw [List.take_append_of_le_length hlt]
          exact hextends.kept _ _ (hdone k hlt)
        · rw [List.take_of_length_le (by rw [List.length_append, List.length_singleton]), ← List.append_assoc]
          exact hreal
      have hstep : createParents fs₁ (outDir ++ (done ++ [name]).map .normal) rest = .ok fs' := by
        rw [List.map_append, ← List.append_assoc]
        exact h
      obtain ⟨hextends', hall⟩ := ih (done ++ [name]) (hextends.resolve hout) hdone' hstep
      rw [List.append_assoc, List.singleton_append] at hall
      exact ⟨hextends.trans hextends', hall⟩

theorem tryDir_reachable {again : FileSystem → Except Failure FileSystem}
    (hagain : ∀ fs, again fs ≠ .error .unreachable) : tryDir again fs dir name ≠ .error .unreachable := by
  intro h
  unfold tryDir at h
  split at h
  · cases h
  · cases h
  · cases h
  · split at h
    · cases h
    · exact hagain fs h
    · cases h
  · cases h

theorem createParents_reachable (fs : FileSystem) (dir : Parts) (names : List Text) :
    createParents fs dir names ≠ .error .unreachable := by
  induction names generalizing fs dir with
  | nil => exact fun h => (by cases h)
  | cons name rest ih =>
    intro h
    unfold createParents at h
    cases hfirst : createParent fs dir name with
    | error e =>
      have htry : createParent fs dir name ≠ .error .unreachable :=
        tryDir_reachable fun fs => tryDir_reachable fun _ hlast => (by cases hlast)
      rw [hfirst] at h htry
      cases h
      exact htry rfl
    | ok fs₁ =>
      rw [hfirst] at h
      have hrest : createParents fs₁ (dir ++ [.normal name]) rest = .error .unreachable := h
      exact ih fs₁ _ hrest

theorem createNumbered_spec {counters : List ℕ} {result : Parts}
    (h : createNumbered fs dir name counters = .ok (result, fs')) :
    ∃ i ∈ counters, result = dir ++ [.normal (Folder.numbered name i)] ∧
      fs.create dir (Folder.numbered name i) (.file []) = .ok fs' := by
  induction counters with
  | nil => cases h
  | cons i rest ih =>
    unfold createNumbered at h
    split at h
    · rename_i hcreate
      cases h
      exact ⟨i, List.mem_cons_self, rfl, hcreate⟩
    · obtain ⟨j, hj, hresult⟩ := ih h
      exact ⟨j, List.mem_cons_of_mem _ hj, hresult⟩
    · cases h

/-- When no counter is left, each of the names is taken. -/
theorem createNumbered_unreachable {counters : List ℕ}
    (h : createNumbered fs dir name counters = .error .unreachable) :
    ∀ i ∈ counters, fs.create dir (Folder.numbered name i) (.file []) = .error .alreadyExists := by
  induction counters with
  | nil => exact fun i hi => (by cases hi)
  | cons i rest ih =>
    unfold createNumbered at h
    split at h
    · cases h
    · rename_i htaken
      exact List.forall_mem_cons.mpr ⟨htaken, ih h⟩
    · cases h

/-- There are more names than entries, so that one of them is free. -/
theorem createNumbered_reachable (fs : FileSystem) (dir : Parts) (name : Text) :
    createNumbered fs dir name (List.range (fs.entries.length + 1)) ≠ .error .unreachable := by
  intro h
  have htaken := createNumbered_unreachable h
  cases hdir : fs.resolve dir with
  | error e =>
    have hzero := htaken 0 (List.mem_range.mpr (Nat.succ_pos _))
    unfold FileSystem.create at hzero
    rw [hdir] at hzero
    cases hzero
    exact resolveFrom_exists fs fs.steps fs.cwd dir hdir
  | ok path =>
    have hinj : Function.Injective fun i => path ++ [Folder.numbered name i] := by
      intro i j hij
      exact Folder.numbered_injective name (by simpa using hij)
    obtain ⟨i, hi, hnew⟩ := Folder.exists_unused hinj (fs.entries.map Prod.fst)
    rw [List.length_map] at hi
    have hthere := create_taken (htaken i hi) hdir
    unfold FileSystem.lookup at hthere
    rw [if_neg (by simp), Ne, Option.map_eq_none_iff] at hthere
    obtain ⟨entry, hentry⟩ := Option.ne_none_iff_exists'.mp hthere
    have hfst : entry.1 = path ++ [Folder.numbered name i] := by simpa using List.find?_some hentry
    apply hnew
    rw [← hfst]
    exact List.mem_map_of_mem (List.mem_of_find?_eq_some hentry)

end Steps

section Confined

variable {fs : FileSystem}

/-- A new file strictly below a directory: the directories on the way to it are real ones, nothing
was where it is, and nothing else has changed. -/
structure CreatedBelow (fs : FileSystem) (outDir : Parts) (out : List Text) (path : Parts) (fs' : FileSystem)
    (names : List Text) : Prop where
  path : path = outDir ++ names.map .normal
  below : names ≠ []
  plain : ∀ name ∈ names, PlainName name
  parents : ∀ k, 0 < k → k < names.length → fs'.lookup (out ++ names.take k) = some .dir
  new : fs.lookup (out ++ names) = none
  there : fs'.lookup (out ++ names) = some (.file [])
  kept : ∀ q e, fs.lookup q = some e → fs'.lookup q = some e

theorem plain_numbered {name : Text} (h : PlainName name) (i : ℕ) : PlainName (Folder.numbered name i) := by
  by_cases hi : i = 0
  · rw [Folder.numbered, if_pos hi]
    exact h
  have hdecimal : ∀ c ∈ decimal i, c.isDigit := fun c hc => isDigit_of_mem_decimal hc
  have hsep : '/' ∉ decimal i := fun hmem => absurd (hdecimal _ hmem) (by decide)
  have hname := Folder.splitName_eq name
  have hstem : '/' ∉ (Folder.splitName name).1 := by
    intro hmem
    apply h.no_separator
    rw [hname]
    exact List.mem_append_left _ hmem
  have hunder : '_' ∈ Folder.numbered name i := by
    unfold Folder.numbered
    rw [if_neg hi]
    split
    · exact List.mem_append_right _ List.mem_cons_self
    · exact List.mem_append_right _ List.mem_cons_self
  refine ⟨List.ne_nil_of_mem hunder, fun heq => ?_, fun heq => ?_, ?_⟩
  · rw [heq] at hunder
    exact absurd hunder (by decide)
  · rw [heq] at hunder
    exact absurd hunder (by decide)
  · unfold Folder.numbered
    rw [if_neg hi]
    split
    · rename_i stem ext hsplit
      rw [hsplit] at hstem hname
      have hext : '/' ∉ ext := by
        intro hmem
        apply h.no_separator
        rw [hname]
        exact List.mem_append_right _ (List.mem_cons_of_mem _ hmem)
      simp only [List.mem_append, List.mem_cons, not_or]
      exact ⟨hstem, by decide, hsep, by decide, hext⟩
    · rename_i stem hsplit
      rw [hsplit] at hstem
      simp only [List.mem_append, List.mem_cons, not_or]
      exact ⟨hstem, by decide, hsep⟩

theorem createOutputFile_spec {outDir rel : Text} {out : List Text} (hout : fs.resolve (components outDir) = .ok out) :
    (∃ e, createOutputFile fs outDir rel = .error e ∧ e ≠ .unreachable) ∨
      ∃ path fs' names, createOutputFile fs outDir rel = .ok (path, fs') ∧
        CreatedBelow fs (components outDir) out path fs' names := by
  have hne := namesOf_ne_nil rel
  have hlast : (namesOf rel).getLastD [] = (namesOf rel).getLast hne := by
    rw [List.getLastD_eq_getLast?, List.getLast?_eq_some_getLast hne, Option.getD_some]
  have hplain : ∀ name ∈ namesOf rel, PlainName name := fun name hname => plain_namesOf hname
  have hdirAll : fs.createDirAll (components outDir) = .ok fs := by
    rw [FileSystem.createDirAll, hout]
    rfl
  unfold createOutputFile
  dsimp only
  rw [hdirAll]
  dsimp only
  cases hparents : createParents fs (components outDir) (namesOf rel).dropLast with
  | error e =>
    refine .inl ⟨e, rfl, ?_⟩
    rintro rfl
    exact createParents_reachable fs _ _ hparents
  | ok fs₁ =>
    change (∃ e, createNumbered fs₁ _ _ _ = .error e ∧ _) ∨
      ∃ path fs' names, createNumbered fs₁ _ _ _ = .ok _ ∧ _
    obtain ⟨hextends, hdirs⟩ := createParents_spec [] hout (fun k hk => (by cases hk)) (by
      rw [List.map_nil, List.append_nil]
      exact hparents)
    rw [List.nil_append] at hdirs
    cases hfile : createNumbered fs₁ (components outDir ++ (namesOf rel).dropLast.map .normal)
        ((namesOf rel).getLastD []) (List.range (fs₁.entries.length + 1)) with
    | error e =>
      refine .inl ⟨e, rfl, ?_⟩
      rintro rfl
      exact createNumbered_reachable fs₁ _ _ hfile
    | ok result =>
      obtain ⟨path, fs'⟩ := result
      right
      obtain ⟨i, -, rfl, hcreate⟩ := createNumbered_spec hfile
      obtain ⟨parent, hresolved, hfree, hthere, hkept⟩ := create_ok hcreate
      obtain ⟨m, mid, hmid, hnames⟩ := resolveFrom_append hresolved
      obtain rfl : mid = out := Except.ok.inj (hmid.symm.trans (hextends.resolve hout))
      obtain rfl := resolveFrom_names hdirs hnames
      rw [List.append_assoc] at hfree hthere
      have hnew : PlainName (Folder.numbered ((namesOf rel).getLastD []) i) := by
        rw [hlast]
        exact plain_numbered (hplain _ (List.getLast_mem hne)) i
      set last := Folder.numbered ((namesOf rel).getLastD []) i
      refine ⟨_, fs', (namesOf rel).dropLast ++ [last], rfl, ?_, ?_, ?_, ?_, ?_, hthere,
        fun q e he => hkept.kept q e (hextends.kept q e he)⟩
      · rw [List.map_append, List.append_assoc]
        rfl
      · simp
      · intro name hname
        rcases List.mem_append.mp hname with hname | hname
        · exact hplain name (List.mem_of_mem_dropLast hname)
        · rw [List.mem_singleton.mp hname]
          exact hnew
      · intro k hpos hk
        rw [List.length_append, List.length_singleton] at hk
        rw [List.take_append_of_le_length (by omega)]
        have hdir := hdirs (k - 1) (by omega)
        rw [Nat.sub_add_cancel hpos] at hdir
        exact hkept.kept _ _ hdir
      · cases hold : fs.lookup (mid ++ ((namesOf rel).dropLast ++ [last])) with
        | none => rfl
        | some e =>
          rw [hextends.kept _ e hold] at hfree
          cases hfree

theorem sanitizeComponent_plain (windows : Bool) (name : Text) : PlainName (sanitizeComponent windows name) :=
  have h := sanitizeComponent_component windows name
  ⟨h.ne_nil, h.ne_dot, h.ne_dots, h.no_separator.1⟩

end Confined

/-- Below a directory that is there, a file is created that is new, behind real directories, and
nothing that was there changes; a name from a disk is one component, and stays as it is. -/
theorem recovered_files_confined :
    (∀ fs outDir rel out, FileSystem.resolve fs (components outDir) = .ok out →
      (∃ e, createOutputFile fs outDir rel = .error e ∧ e ≠ .unreachable) ∨
        ∃ path fs' names, createOutputFile fs outDir rel = .ok (path, fs') ∧
          CreatedBelow fs (components outDir) out path fs' names) ∧
    ∀ name, Component (sanitizeComponent false name) ∧
      components (sanitizeComponent false name) = [.normal (sanitizeComponent false name)] ∧
      sanitizeComponent false (sanitizeComponent false name) = sanitizeComponent false name :=
  ⟨fun _ _ _ _ hout => createOutputFile_spec hout, fun name =>
    ⟨sanitizeComponent_component false name, (sanitizeComponent_plain false name).components,
      sanitizeComponent_idempotent name⟩⟩

/-- An output folder behind a link, where the wanted name is taken. -/
def takenTree : FileSystem where
  entries := [(["link".toList], .symlink "/out".toList), (["out".toList], .dir),
    (["out".toList, "a.txt".toList], .file [1])]
  cwd := []
  hidden _ := false
  locked _ := false
  steps := 40

theorem taken_name_confined :
    (createOutputFile takenTree "link".toList "../a.txt".toList).map Prod.fst =
        .ok [.normal "link".toList, .normal "a_1.txt".toList] ∧
      ((∃ e, createOutputFile takenTree "link".toList "../a.txt".toList = .error e ∧ e ≠ .unreachable) ∨
        ∃ path fs' names, createOutputFile takenTree "link".toList "../a.txt".toList = .ok (path, fs') ∧
          CreatedBelow takenTree (components "link".toList) ["out".toList] path fs' names) :=
  ⟨by decide, recovered_files_confined.1 takenTree "link".toList "../a.txt".toList ["out".toList] (by decide)⟩

end Unearth.OutputTree
