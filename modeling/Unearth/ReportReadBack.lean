import Unearth.Manifest

/-!
# Reports that are read back

Every report of cells is read back as it was written. A report of objects is, as long as it has a
row and no path of a file with a digest ends in the name of the key of the digest.
-/

namespace Unearth.Manifest
open Lines Report Decimal Hex

section Entries

/-- Rows that are written cell by cell are read as the values of two of their columns. -/
theorem parse_csvReport {α : Type} {header : List String} {rows : List α} {cells values : α → List Text}
    {i j : ℕ} (hheader : ∀ c ∈ header.map String.toList, OneLine c ∧ ',' ∉ c ∧ '"' ∉ c)
    (hlen : 2 ≤ header.length)
    (hpath : (header.map String.toList).findIdx? (fun c => c = "name".toList ∨ c = "path".toList) = some i)
    (hsha : (header.map String.toList).findIdx? (· = "sha256".toList) = some j)
    (hcells : ∀ r ∈ rows, List.Forall₂ Prints (cells r) (values r) ∧ 2 ≤ (cells r).length ∧
      ∀ c ∈ cells r, OneLine c) :
    parse (csvReport header (rows.map cells)) false = .ok (rows.filterMap fun r =>
      (values r)[i]?.map fun path => ⟨path, (values r)[j]?.bind nonempty⟩) := by
  have hkept : ∀ {l : List Text}, 2 ≤ l.length → trim (csvLine l) ≠ [] ∧ l ≠ [] := by
    intro l hl
    obtain ⟨a, b, rest, rfl⟩ : ∃ a b rest, l = a :: b :: rest := by
      match l, hl with
      | a :: b :: rest, _ => exact ⟨a, b, rest, rfl⟩
    exact ⟨trim_ne_nil comma_mem_csvLine (by decide), List.cons_ne_nil _ _⟩
  have hprints : List.Forall₂ Prints (header.map String.toList) (header.map String.toList) :=
    List.forall₂_same.mpr fun c hc => .plain (hheader c hc).2.1 (hheader c hc).2.2
  have hlenh : 2 ≤ (header.map String.toList).length := by rwa [List.length_map]
  have hlines : lines (csvReport header (rows.map cells)) =
      csvLine (header.map String.toList) :: rows.map fun r => csvLine (cells r) := by
    rw [csvReport, List.map_map, lines_unlines]
    · rfl
    · intro l hl
      rcases List.mem_cons.mp hl with rfl | hl
      · exact oneLine_csvLine fun c hc => (hheader c hc).1
      · obtain ⟨r, hr, rfl⟩ := List.mem_map.mp hl
        exact oneLine_csvLine (hcells r hr).2.2
  have hfilter : (csvLine (header.map String.toList) :: rows.map fun r => csvLine (cells r)).filter
      (fun l => trim l ≠ []) =
        csvLine (header.map String.toList) :: rows.map fun r => csvLine (cells r) := by
    refine List.filter_eq_self.mpr fun l hl => decide_eq_true ?_
    rcases List.mem_cons.mp hl with rfl | hl
    · exact (hkept hlenh).1
    · obtain ⟨r, hr, rfl⟩ := List.mem_map.mp hl
      exact (hkept (hcells r hr).2.1).1
  rw [parse, if_neg (by decide), parseCsv, hlines, hfilter]
  dsimp only
  rw [splitCsvLine_csvLine hprints (hkept hlenh).2, hpath]
  dsimp only
  rw [hsha]
  dsimp only
  rw [List.filterMap_map]
  congr 1
  refine List.filterMap_congr fun r hr => ?_
  rw [Function.comp_apply, splitCsvLine_csvLine (hcells r hr).1 (hkept (hcells r hr).2.1).2]

/-- The entries of a report of objects are those that its rows ask for, if there is a row and each of
them is found as it was written. -/
theorem parse_jsonReport_iff {α : Type} {rows : List α} {fields : α → List JsonField}
    {found entry : α → Entry} (hread : ∀ r, ∀ f ∈ fields r, Readable f)
    (hfound : ∀ r, objectEntry (fields r) = some (found r)) :
    parse (jsonReport (rows.map fields)) true = .ok (rows.map entry) ↔
      rows ≠ [] ∧ ∀ r ∈ rows, found r = entry r := by
  have hrows : (rows.map fields).filterMap objectEntry = rows.map found := by
    rw [List.filterMap_map, ← List.filterMap_eq_map]
    exact List.filterMap_congr fun r _ => hfound r
  rw [parse_jsonReport (fun r hr => by
    obtain ⟨a, -, rfl⟩ := List.mem_map.mp hr
    exact hread a), hrows]
  split_ifs with hnil
  · simp [List.map_eq_nil_iff.mp hnil]
  · rw [Except.ok.injEq, List.map_inj_left]
    exact ⟨fun h => ⟨fun hr => hnil (by rw [hr]; rfl), h⟩, fun h => h.2⟩

theorem plain_of_token {t : Text} (h : ∀ c ∈ t, isWhitespace c = false ∧ c ≠ ',' ∧ c ≠ '"' ∧ c ≠ '\\') :
    Plain t where
  oneLine := oneLine_of_forall fun c hc => by
    have hspace := (h c hc).1
    refine ⟨fun heq => ?_, fun heq => ?_⟩
    · rw [heq] at hspace
      exact absurd hspace (by decide)
    · rw [heq] at hspace
      exact absurd hspace (by decide)
  comma hc := (h _ hc).2.1 rfl
  quote hc := (h _ hc).2.2.1 rfl
  backslash hc := (h _ hc).2.2.2 rfl

theorem plain_decimal (n : ℕ) : Plain (decimal n) := by
  refine plain_of_token fun c hc => ?_
  have hdigit := isDigit_of_mem_decimal hc
  refine ⟨isWhitespace_of_isDigit hdigit, ?_, ?_, ?_⟩ <;> rintro rfl <;> cases hdigit

theorem plain_digitChar (n : ℕ) : Nat.digitChar n ≠ ',' ∧ Nat.digitChar n ≠ '"' ∧ Nat.digitChar n ≠ '\\' := by
  by_cases h : n < 16
  · interval_cases n <;> decide
  · have hstar : Nat.digitChar n = '*' := by
      unfold Nat.digitChar
      iterate 16 rw [if_neg (by omega)]
    rw [hstar]
    decide

theorem plain_toHex (bytes : List UInt8) : Plain (toHex bytes) := by
  refine plain_of_token fun c hc => ⟨toHex_noSpace hc, ?_⟩
  simp only [toHex, List.mem_flatMap, hexOf, List.mem_cons, List.not_mem_nil, or_false] at hc
  obtain ⟨byte, -, rfl | rfl⟩ := hc
  · exact plain_digitChar _
  · exact plain_digitChar _

theorem plain_digestText (d : Option Digest) : Plain (digestText d) := by
  cases d with
  | none => exact ⟨by decide, List.not_mem_nil, List.not_mem_nil, List.not_mem_nil⟩
  | some d => exact plain_toHex d.1

theorem plain_boolText (b : Bool) : Plain (boolText b) := by
  cases b <;> constructor <;> decide

theorem plain_confidence (c : Confidence) : Plain c.asStr := by
  cases c <;> constructor <;> decide

theorem prints_plain {t : Text} (h : Plain t) : Prints t t := .plain h.comma h.quote

theorem plain_kind (r : RecoverRow) : Plain r.kind := by
  unfold RecoverRow.kind
  split_ifs <;> constructor <;> decide

theorem plain_grade (r : RecoverRow) : Plain r.confidence := by
  unfold RecoverRow.confidence
  split
  · constructor <;> decide
  · exact plain_confidence _

/-- The digest that is read where one was written. -/
theorem nonempty_digestText (d : Option Digest) : nonempty (digestText d) = d.map fun d => toHex d.1 := by
  cases d with
  | none => rfl
  | some d =>
    refine if_neg fun h => ?_
    have hlen := length_toHex d.1
    rw [show toHex d.1 = [] from h, d.2] at hlen
    cases hlen

end Entries

/-- What a row asks to be read back. -/
def undeleteEntry (r : UndeleteRow) : Entry := ⟨r.path, r.sha256.map fun d => toHex d.1⟩
def recoverEntry (r : RecoverRow) : Entry := ⟨r.path, r.sha256.map fun d => toHex d.1⟩
def carveEntry (r : CarveRow) : Entry := ⟨r.file.name, some (toHex r.file.sha256.1)⟩

/-- A path that is mistaken for the key of the digest, as it ends in the name of the key behind its
last quote. -/
abbrev Shadows (path : Text) : Prop := afterQuotes path = "sha256".toList

section Objects

theorem readable_name {key : String} {t : Text} (hkey : Key key.toList) (hline : OneLine key.toList)
    (ht : OneLine t) : Readable ⟨key.toList, .name t⟩ := ⟨hkey, hline, .name ht⟩

theorem readable_word {key : String} {t : Text} (hkey : Key key.toList) (hline : OneLine key.toList)
    (ht : Plain t) : Readable ⟨key.toList, .word t⟩ := ⟨hkey, hline, .word ht.oneLine ht.quote ht.backslash⟩

theorem readable_number {key : String} {t : Text} (hkey : Key key.toList) (hline : OneLine key.toList)
    (ht : Plain t) : Readable ⟨key.toList, .number t⟩ := ⟨hkey, hline, .number ht.oneLine ht.quote⟩

theorem undelete_readable (r : UndeleteRow) : ∀ f ∈ r.fields, Readable f := by
  simp only [UndeleteRow.fields, List.forall_mem_cons]
  refine ⟨readable_name ?_ ?_ r.filesystem_plain.oneLine, readable_number ?_ ?_ (plain_decimal _),
    readable_name ?_ ?_ r.path_line, readable_number ?_ ?_ (plain_decimal _),
    readable_number ?_ ?_ (plain_boolText _), readable_word ?_ ?_ (plain_digestText _),
    List.forall_mem_nil _⟩
  all_goals first | decide | constructor <;> decide

/-- What is found in the line of a row. -/
def undeleteFound (r : UndeleteRow) : Entry :=
  ⟨r.path, if Shadows r.path then none else r.sha256.map fun d => toHex d.1⟩

theorem objectEntry_undelete (r : UndeleteRow) : objectEntry r.fields = some (undeleteFound r) := by
  have hlast := afterQuotes_of_not_mem r.filesystem_plain.quote
  have hfs : r.filesystem ≠ ['n', 'a', 'm', 'e'] ∧ r.filesystem ≠ ['p', 'a', 't', 'h'] ∧
      r.filesystem ≠ ['s', 'h', 'a', '2', '5', '6'] := by
    simpa using r.filesystem_ne
  have hname : valueOf "name".toList r.fields = none := by
    simp [UndeleteRow.fields, valueOf_name, valueOf_word, valueOf_number, told, hlast, hfs, valueOf_nil]
  have hpath : valueOf "path".toList r.fields = some r.path := by
    simp [UndeleteRow.fields, valueOf_name, valueOf_number, hlast, hfs]
  have hsha : valueOf "sha256".toList r.fields =
      if Shadows r.path then none else some (digestText r.sha256) := by
    simp [UndeleteRow.fields, valueOf_name, valueOf_word, valueOf_number, told, hlast, hfs, Shadows]
  rw [objectEntry, hname, hpath, hsha, Option.none_or, undeleteFound]
  split_ifs
  · rfl
  · rw [Option.bind_some, nonempty_digestText]
    rfl

theorem recover_readable (r : RecoverRow) : ∀ f ∈ r.fields, Readable f := by
  simp only [RecoverRow.fields, List.forall_mem_cons]
  refine ⟨readable_word ?_ ?_ (plain_kind r), readable_name ?_ ?_ r.path_line,
    readable_number ?_ ?_ (plain_decimal _), readable_word ?_ ?_ (plain_digestText _),
    readable_word ?_ ?_ (plain_grade r), List.forall_mem_nil _⟩
  all_goals first | decide | constructor <;> decide

def recoverFound (r : RecoverRow) : Entry :=
  ⟨r.path, if Shadows r.path then none else r.sha256.map fun d => toHex d.1⟩

theorem objectEntry_recover (r : RecoverRow) : objectEntry r.fields = some (recoverFound r) := by
  have hkind : r.kind ≠ ['n', 'a', 'm', 'e'] ∧ r.kind ≠ ['p', 'a', 't', 'h'] ∧
      r.kind ≠ ['s', 'h', 'a', '2', '5', '6'] := by
    unfold RecoverRow.kind
    split_ifs <;> decide
  have hconfidence : r.confidence ≠ ['n', 'a', 'm', 'e'] := by
    unfold RecoverRow.confidence
    split
    · decide
    · rename_i c _
      cases c <;> decide
  have hdigest : digestText r.sha256 ≠ ['n', 'a', 'm', 'e'] := by
    intro h
    have hlen := congrArg List.length h
    cases hd : r.sha256 with
    | none =>
      rw [hd] at hlen
      cases hlen
    | some d =>
      rw [hd, digestText, length_toHex, d.2] at hlen
      cases hlen
  have hname : valueOf "name".toList r.fields = none := by
    simp [RecoverRow.fields, valueOf_name, valueOf_word, valueOf_number, told, hkind, hdigest,
      hconfidence, valueOf_nil]
  have hpath : valueOf "path".toList r.fields = some r.path := by
    simp [RecoverRow.fields, valueOf_name, valueOf_word, hkind]
  have hsha : valueOf "sha256".toList r.fields =
      if Shadows r.path then none else some (digestText r.sha256) := by
    simp [RecoverRow.fields, valueOf_name, valueOf_word, valueOf_number, told, hkind, Shadows]
  rw [objectEntry, hname, hpath, hsha, Option.none_or, recoverFound]
  split_ifs
  · rfl
  · rw [Option.bind_some, nonempty_digestText]
    rfl

theorem carve_readable (r : CarveRow) : ∀ f ∈ r.fields, Readable f := by
  simp only [CarveRow.fields, List.forall_mem_cons]
  refine ⟨readable_name ?_ ?_ r.name_line, readable_word ?_ ?_ r.ext_plain,
    readable_number ?_ ?_ (plain_decimal _), readable_number ?_ ?_ (plain_decimal _),
    readable_word ?_ ?_ (plain_toHex _), readable_word ?_ ?_ (plain_confidence _),
    List.forall_mem_nil _⟩
  all_goals first | decide | constructor <;> decide

/-- The digest of a row whose name is mistaken for its key is the extension. -/
def carveFound (r : CarveRow) : Entry :=
  ⟨r.file.name, if Shadows r.file.name then nonempty r.file.ext else some (toHex r.file.sha256.1)⟩

theorem objectEntry_carve (r : CarveRow) : objectEntry r.fields = some (carveFound r) := by
  have hext : r.file.ext ≠ ['s', 'h', 'a', '2', '5', '6'] := by
    simpa using r.ext_ne
  have hname : valueOf "name".toList r.fields = some r.file.name := by
    simp [CarveRow.fields, valueOf_name]
  have hsha : valueOf "sha256".toList r.fields =
      if Shadows r.file.name then some r.file.ext else some (toHex r.file.sha256.1) := by
    simp [CarveRow.fields, valueOf_name, valueOf_word, valueOf_number, told, hext, Shadows]
  have hdigest := nonempty_digestText (some r.file.sha256)
  rw [objectEntry, hname, hsha, Option.some_or, carveFound]
  split_ifs
  · rfl
  · rw [Option.bind_some, show toHex r.file.sha256.1 = digestText (some r.file.sha256) from rfl, hdigest]
    rfl

end Objects

section Cells

theorem prints_cells {cells : List Text} (h : ∀ c ∈ cells, Plain c) : List.Forall₂ Prints cells cells :=
  List.forall₂_same.mpr fun c hc => prints_plain (h c hc)

theorem undelete_cells (r : UndeleteRow) : List.Forall₂ Prints r.cells [r.filesystem,
    decimal r.volumeOffset, r.path, decimal r.size, boolText r.recovered, digestText r.sha256] ∧
      2 ≤ r.cells.length ∧ ∀ c ∈ r.cells, OneLine c := by
  refine ⟨?_, by simp [UndeleteRow.cells], ?_⟩
  · exact .cons (prints_plain r.filesystem_plain) <| .cons (prints_plain (plain_decimal _)) <|
      .cons (.escaped _) <| prints_cells <| by
        simp only [List.forall_mem_cons]
        exact ⟨plain_decimal _, plain_boolText _, plain_digestText _, List.forall_mem_nil _⟩
  · simp only [UndeleteRow.cells, List.forall_mem_cons]
    exact ⟨r.filesystem_plain.oneLine, (plain_decimal _).oneLine, oneLine_csvEscape r.path_line,
      (plain_decimal _).oneLine, (plain_boolText _).oneLine, (plain_digestText _).oneLine,
      List.forall_mem_nil _⟩

theorem recover_cells (r : RecoverRow) : List.Forall₂ Prints r.cells [r.kind, r.path, decimal r.size,
    digestText r.sha256, r.confidence] ∧ 2 ≤ r.cells.length ∧ ∀ c ∈ r.cells, OneLine c := by
  refine ⟨?_, by simp [RecoverRow.cells], ?_⟩
  · exact .cons (prints_plain (plain_kind r)) <| .cons (.escaped _) <| prints_cells <| by
      simp only [List.forall_mem_cons]
      exact ⟨plain_decimal _, plain_digestText _, plain_grade r, List.forall_mem_nil _⟩
  · simp only [RecoverRow.cells, List.forall_mem_cons]
    exact ⟨(plain_kind r).oneLine, oneLine_csvEscape r.path_line, (plain_decimal _).oneLine,
      (plain_digestText _).oneLine, (plain_grade r).oneLine, List.forall_mem_nil _⟩

theorem carve_cells (r : CarveRow) : List.Forall₂ Prints r.cells [r.file.name, r.file.ext,
    decimal r.file.offset, decimal r.file.size, toHex r.file.sha256.1, r.file.confidence.asStr] ∧
      2 ≤ r.cells.length ∧ ∀ c ∈ r.cells, OneLine c := by
  refine ⟨?_, by simp [CarveRow.cells], ?_⟩
  · exact .cons (.escaped _) <| prints_cells <| by
      simp only [List.forall_mem_cons]
      exact ⟨r.ext_plain, plain_decimal _, plain_decimal _, plain_toHex _, plain_confidence _,
        List.forall_mem_nil _⟩
  · simp only [CarveRow.cells, List.forall_mem_cons]
    exact ⟨oneLine_csvEscape r.name_line, r.ext_plain.oneLine, (plain_decimal _).oneLine,
      (plain_decimal _).oneLine, (plain_toHex _).oneLine, (plain_confidence _).oneLine,
      List.forall_mem_nil _⟩

end Cells

section Reports

theorem parse_writeReport_csv (rows : List UndeleteRow) :
    parse (writeReport false rows) false = .ok (rows.map undeleteEntry) := by
  have hparse := @parse_csvReport _ ["filesystem", "volume_offset", "path", "size", "recovered",
    "sha256"] rows UndeleteRow.cells _ 2 5 (by decide) (by decide) (by decide) (by decide)
    fun r _ => undelete_cells r
  rw [writeReport, if_neg (by decide), hparse, ← List.filterMap_eq_map]
  congr 1
  refine List.filterMap_congr fun r _ => ?_
  simp [nonempty_digestText, undeleteEntry]

theorem parse_writeRecoverReport_csv (rows : List RecoverRow) :
    parse (writeRecoverReport false rows) false = .ok (rows.map recoverEntry) := by
  have hparse := @parse_csvReport _ ["kind", "path", "size", "sha256", "confidence"] rows
    RecoverRow.cells _ 1 3 (by decide) (by decide) (by decide) (by decide) fun r _ => recover_cells r
  rw [writeRecoverReport, if_neg (by decide), hparse, ← List.filterMap_eq_map]
  congr 1
  refine List.filterMap_congr fun r _ => ?_
  simp [nonempty_digestText, recoverEntry]

theorem parse_writeCarveReport_csv (rows : List CarveRow) :
    parse (writeCarveReport false rows) false = .ok (rows.map carveEntry) := by
  have hparse := @parse_csvReport _ ["name", "type", "offset", "size", "sha256", "confidence"] rows
    CarveRow.cells _ 0 4 (by decide) (by decide) (by decide) (by decide) fun r _ => carve_cells r
  rw [writeCarveReport, if_neg (by decide), hparse, ← List.filterMap_eq_map]
  congr 1
  refine List.filterMap_congr fun r _ => ?_
  have hdigest := nonempty_digestText (some r.file.sha256)
  rw [digestText] at hdigest
  simp [hdigest, carveEntry]

/-- The digest of a row is lost where its path shadows the key and it has a digest. -/
theorem found_eq_iff {path : Text} {d : Option Digest} :
    (⟨path, if Shadows path then none else d.map fun d => toHex d.1⟩ : Entry) =
      ⟨path, d.map fun d => toHex d.1⟩ ↔ (d.isSome → ¬ Shadows path) := by
  rw [Entry.mk.injEq]
  by_cases hpath : Shadows path
  · rw [if_pos hpath]
    cases d with
    | none => simp
    | some d => simp [hpath]
  · simp [hpath]

theorem carveFound_eq_iff (r : CarveRow) : carveFound r = carveEntry r ↔ ¬ Shadows r.file.name := by
  rw [carveFound, carveEntry, Entry.mk.injEq]
  by_cases hname : Shadows r.file.name
  · rw [if_pos hname]
    refine ⟨fun h => absurd h.2 fun hext => ?_, fun h => absurd hname h⟩
    have hlen := r.ext_short
    unfold nonempty at hext
    split_ifs at hext with hnil
    rw [Option.some.inj hext, length_toHex, r.file.sha256.2] at hlen
    exact absurd hlen (by decide)
  · simp [hname]

/-- A report is read back as it was written exactly if, where it is written as objects, it has a
row and no path with a digest shadows the key of the digest. -/
theorem verify_reads_back_iff (json : Bool) :
    (∀ rows : List UndeleteRow,
      parse (writeReport json rows) json = .ok (rows.map undeleteEntry) ↔
        (json = true → rows ≠ [] ∧ ∀ r ∈ rows, r.sha256.isSome → ¬ Shadows r.path)) ∧
    (∀ rows : List RecoverRow,
      parse (writeRecoverReport json rows) json = .ok (rows.map recoverEntry) ↔
        (json = true → rows ≠ [] ∧ ∀ r ∈ rows, r.sha256.isSome → ¬ Shadows r.path)) ∧
    ∀ rows : List CarveRow,
      parse (writeCarveReport json rows) json = .ok (rows.map carveEntry) ↔
        (json = true → rows ≠ [] ∧ ∀ r ∈ rows, ¬ Shadows r.file.name) := by
  cases json with
  | false =>
    refine ⟨fun rows => ?_, fun rows => ?_, fun rows => ?_⟩
    · exact iff_of_true (parse_writeReport_csv rows) fun h => absurd h (by decide)
    · exact iff_of_true (parse_writeRecoverReport_csv rows) fun h => absurd h (by decide)
    · exact iff_of_true (parse_writeCarveReport_csv rows) fun h => absurd h (by decide)
  | true =>
    simp only [forall_true_left]
    refine ⟨fun rows => ?_, fun rows => ?_, fun rows => ?_⟩
    · rw [writeReport, if_pos rfl, parse_jsonReport_iff undelete_readable objectEntry_undelete]
      exact and_congr_right fun _ => forall₂_congr fun r _ => found_eq_iff
    · rw [writeRecoverReport, if_pos rfl, parse_jsonReport_iff recover_readable objectEntry_recover]
      exact and_congr_right fun _ => forall₂_congr fun r _ => found_eq_iff
    · rw [writeCarveReport, if_pos rfl, parse_jsonReport_iff carve_readable objectEntry_carve]
      exact and_congr_right fun _ => forall₂_congr fun r _ => carveFound_eq_iff r

theorem fat_plain : Plain "FAT16".toList := by
  constructor <;> decide

theorem fat_ne : "FAT16".toList ∉ ["name".toList, "path".toList, "sha256".toList] := by decide

theorem zeros_length : (List.replicate 32 (0 : UInt8)).length = 32 := List.length_replicate

theorem shadow_line : OneLine "sha256".toList := by decide

/-- A deleted file that was called like the key of the digest. -/
def shadowRow : UndeleteRow where
  filesystem := "FAT16".toList
  volumeOffset := 0
  path := "sha256".toList
  size := 1
  recovered := true
  sha256 := some ⟨List.replicate 32 0, zeros_length⟩
  filesystem_plain := fat_plain
  filesystem_ne := fat_ne
  path_line := shadow_line

/-- An empty report is refused, and the digest of a file called `sha256` is not found. -/
theorem report_misread :
    parse (writeReport true []) true = .error "no entries found in JSON manifest".toList ∧
      parse (writeReport true [shadowRow]) true = .ok [⟨"sha256".toList, none⟩] ∧
      undeleteEntry shadowRow = ⟨"sha256".toList, some (List.replicate 64 '0')⟩ := by
  decide +kernel

end Reports

end Unearth.Manifest
