import Unearth.JsonAccept

/-!
# The printers of JSON values

Both printers, the one on a single line and the one with a line for each item and member, make
texts of the grammar that denote what is printed. The parser reads them back.
-/

namespace Unearth
open Lines Loop Decimal Hex JsonGrammar Utf16 Json.Parser

namespace Json

def intText (n : ℤ) : Text := if n < 0 then '-' :: decimal n.natAbs else decimal n.natAbs

def escapeChar (c : Char) : Text :=
  if c = '"' then ['\\', '"']
  else if c = '\\' then ['\\', '\\']
  else if c = '\n' then ['\\', 'n']
  else if c = '\r' then ['\\', 'r']
  else if c = '\t' then ['\\', 't']
  else if c = '\x08' then ['\\', 'b']
  else if c = '\x0c' then ['\\', 'f']
  else if c.toNat < 0x20 then '\\' :: 'u' :: pad 4 (hex c.toNat)
  else [c]

def writeEscaped (s : Text) : Text := '"' :: (s.flatMap escapeChar ++ ['"'])

def indent (depth : ℕ) : Text := (List.replicate depth [' ', ' ']).flatten

section Write

variable (display : Option ℚ → Text)

/-- A number is printed as an integer where it is one and not too large. -/
def numText : Option ℚ → Text
  | some q => if q.den = 1 ∧ |q| < 10 ^ 15 then intText q.num else display (some q)
  | none => display none

mutual

def write : Json → Text
  | .null => "null".toList
  | .bool b => if b then "true".toList else "false".toList
  | .num n => numText display n
  | .str s => writeEscaped s
  | .arr items => '[' :: (writeItems items ++ [']'])
  | .obj fields => '{' :: (writeFields fields ++ ['}'])

def writeItems : List Json → Text
  | [] => []
  | [v] => write v
  | v :: rest => write v ++ ',' :: writeItems rest

def writeFields : List (Text × Json) → Text
  | [] => []
  | [(k, v)] => writeEscaped k ++ ':' :: write v
  | (k, v) :: rest => writeEscaped k ++ ':' :: (write v ++ ',' :: writeFields rest)

end

mutual

def writePretty (depth : ℕ) : Json → Text
  | .arr (v :: rest) =>
    '[' :: '\n' :: (prettyItems (depth + 1) (v :: rest) ++ ('\n' :: (indent depth ++ [']'])))
  | .obj (p :: rest) =>
    '{' :: '\n' :: (prettyFields (depth + 1) (p :: rest) ++ ('\n' :: (indent depth ++ ['}'])))
  | other => write display other

def prettyItems (depth : ℕ) : List Json → Text
  | [] => []
  | [v] => indent depth ++ writePretty depth v
  | v :: rest => indent depth ++ (writePretty depth v ++ (",\n".toList ++ prettyItems depth rest))

def prettyFields (depth : ℕ) : List (Text × Json) → Text
  | [] => []
  | [(k, v)] => indent depth ++ (writeEscaped k ++ (": ".toList ++ writePretty depth v))
  | (k, v) :: rest =>
    indent depth ++ (writeEscaped k ++ (": ".toList ++ (writePretty depth v ++ (",\n".toList ++ prettyFields depth rest))))

end

def toString (v : Json) : Text := write display v
def toPrettyString (v : Json) : Text := writePretty display 0 v ++ ['\n']

end Write

/-- A value that may be printed and read back: its containers are nested in at most so many levels,
the keys of an object ascend, and its numbers are integers that are not too large. -/
inductive Printable : ℕ → Json → Prop
  | null {k : ℕ} : Printable k .null
  | bool {k : ℕ} (b : Bool) : Printable k (.bool b)
  | num {k : ℕ} {n : ℤ} (h : n.natAbs < 10 ^ 15) : Printable k (.num (some n))
  | str {k : ℕ} (s : Text) : Printable k (.str s)
  | arr {k : ℕ} {items : List Json} (h : ∀ v ∈ items, Printable k v) : Printable (k + 1) (.arr items)
  | obj {k : ℕ} {fields : List (Text × Json)} (sorted : fields.Pairwise fun p q => p.1 < q.1)
      (h : ∀ p ∈ fields, Printable k p.2) : Printable (k + 1) (.obj fields)

/-- The text is one of the grammar that denotes the value. -/
structure Spells (x : Tree) (t : Text) (v : Json) (k : ℕ) : Prop where
  text : x.text = t
  meaning : meaning chars x = some v
  whole : x.All Item.Whole
  depth : x.depth ≤ k

section Strings

theorem exists_item (c : Char) : ∃ i : Item, i.text = escapeChar c ∧ i.alone = some c := by
  unfold escapeChar
  split_ifs with hquote hback hn hr ht hb hf hcontrol
  · exact ⟨.short .quote, rfl, hquote ▸ rfl⟩
  · exact ⟨.short .backslash, rfl, hback ▸ rfl⟩
  · exact ⟨.short .lineFeed, rfl, hn ▸ rfl⟩
  · exact ⟨.short .carriageReturn, rfl, hr ▸ rfl⟩
  · exact ⟨.short .tab, rfl, ht ▸ rfl⟩
  · exact ⟨.short .backspace, rfl, hb ▸ rfl⟩
  · exact ⟨.short .formFeed, rfl, hf ▸ rfl⟩
  · have hcode : ∀ n : Fin 0x20, (Item.code (.of 0) (.of 0) (.of (Fin.ofNat 16 (n / 16))) (.of (Fin.ofNat 16 n))).text =
        '\\' :: 'u' :: pad 4 (hex n) ∧
        (Item.code (.of 0) (.of 0) (.of (Fin.ofNat 16 (n / 16))) (.of (Fin.ofNat 16 n))).alone = some (Char.ofNat n) := by
      decide +kernel
    obtain ⟨htext, halone⟩ := hcode ⟨c.toNat, hcontrol⟩
    rw [Char.ofNat_toNat] at halone
    exact ⟨_, htext, halone⟩
  · exact ⟨.char c (not_lt.mp hcontrol) hquote hback, rfl, rfl⟩

/-- What is printed of a text are the items of a string that denotes it. -/
theorem exists_items_of_text (s : Text) :
    ∃ items : List Item, quoted items = writeEscaped s ∧ chars items = some s ∧ ∀ i ∈ items, i.Whole := by
  choose item htext halone using exists_item
  have hwhole : ∀ i ∈ s.map item, i.Whole := by
    intro i hi
    obtain ⟨c, -, rfl⟩ := List.mem_map.mp hi
    by_contra hno
    have hnone := Item.alone_eq_none.mpr hno
    rw [halone] at hnone
    cases hnone
  refine ⟨s.map item, ?_, ?_, hwhole⟩
  · rw [quoted, writeEscaped, List.flatMap_map]
    congr 2
    exact List.flatMap_congr fun c _ => htext c
  · rw [chars_of_whole hwhole]
    induction s with
    | nil => rfl
    | cons c s ih =>
      rw [List.map_cons, List.mapM_cons, halone, ih fun i hi => hwhole i (List.mem_cons_of_mem _ hi)]
      rfl

end Strings

section Numbers

theorem ofInt_text (n : ℤ) : (Number.ofInt n).text = intText n := by
  have htext : (Number.ofInt n).text = (Number.ofInt n).wholeText ++ [] := rfl
  rw [htext, List.append_nil, Number.wholeText, intText]
  by_cases hneg : n < 0
  · rw [if_pos hneg, if_pos (show (Number.ofInt n).neg = true from decide_eq_true hneg)]
    rfl
  · rw [if_neg hneg, if_neg (show ¬ (Number.ofInt n).neg = true from by simpa [Number.ofInt] using hneg)]
    rfl

theorem numText_int (display : Option ℚ → Text) {n : ℤ} (h : n.natAbs < 10 ^ 15) :
    numText display (some n) = intText n := by
  have habs : |(n : ℚ)| < 10 ^ 15 := by
    have hint : |n| < 10 ^ 15 := by
      rw [Int.abs_eq_natAbs]
      exact_mod_cast h
    exact_mod_cast hint
  rw [numText, if_pos ⟨Rat.den_intCast n, habs⟩, Rat.num_intCast]

theorem spells_num (display : Option ℚ → Text) {n : ℤ} (h : n.natAbs < 10 ^ 15) (k : ℕ) :
    Spells (.num (.ofInt n)) (numText display (some n)) (.num (some n)) k := by
  refine ⟨?_, ?_, trivial, Nat.zero_le k⟩
  · rw [Tree.text, ofInt_text, numText_int display h]
  · rw [meaning, Number.ofInt_value, Double.finite_intCast (h.trans (by decide))]
    rfl

end Numbers

section Containers

variable {k : ℕ} {display : Option ℚ → Text}

/-- Items with a comma between two of them, each behind the same text. -/
def joined (before : Text) (w : Json → Text) : List Json → Text
  | [] => []
  | [v] => before ++ w v
  | v :: rest => before ++ (w v ++ ',' :: joined before w rest)

def joinedFields (before ahead : Text) (w : Json → Text) : List (Text × Json) → Text
  | [] => []
  | [(key, v)] => before ++ (writeEscaped key ++ ':' :: (ahead ++ w v))
  | (key, v) :: rest => before ++ (writeEscaped key ++ ':' :: (ahead ++ (w v ++ ',' :: joinedFields before ahead w rest)))

theorem writeItems_eq (items : List Json) : writeItems display items = joined [] (write display) items := by
  induction items with
  | nil => rfl
  | cons v rest ih =>
    cases rest with
    | nil => rfl
    | cons w rest => rw [writeItems, joined, ih, List.nil_append] <;> exact List.cons_ne_nil _ _

theorem prettyItems_eq (depth : ℕ) {items : List Json} (hne : items ≠ []) :
    '\n' :: prettyItems display depth items = joined ('\n' :: indent depth) (writePretty display depth) items := by
  induction items with
  | nil => exact absurd rfl hne
  | cons v rest ih =>
    cases rest with
    | nil => rfl
    | cons w rest =>
      rw [prettyItems, joined, ← ih (List.cons_ne_nil _ _)] <;> first | exact List.cons_ne_nil _ _ | rfl

theorem writeFields_eq (fields : List (Text × Json)) :
    writeFields display fields = joinedFields [] [] (write display) fields := by
  induction fields with
  | nil => rfl
  | cons p rest ih =>
    cases rest with
    | nil => rfl
    | cons q rest => rw [writeFields, joinedFields, ih, List.nil_append, List.nil_append] <;> exact List.cons_ne_nil _ _

theorem prettyFields_eq (depth : ℕ) {fields : List (Text × Json)} (hne : fields ≠ []) :
    '\n' :: prettyFields display depth fields =
      joinedFields ('\n' :: indent depth) [' '] (writePretty display depth) fields := by
  induction fields with
  | nil => exact absurd rfl hne
  | cons p rest ih =>
    cases rest with
    | nil => rfl
    | cons q rest =>
      rw [prettyFields, joinedFields, ← ih (List.cons_ne_nil _ _)] <;> first | exact List.cons_ne_nil _ _ | rfl

/-- Items that are printed each as a text that denotes it make up the items of an array. -/
theorem exists_items (before after : Space) {w : Json → Text} {items : List Json} (hne : items ≠ [])
    (h : ∀ v ∈ items, ∃ x, Spells x (w v) v k) :
    ∃ xs : Items, xs.text = joined before.text w items ++ after.text ∧ itemMeanings chars xs = some items ∧
      xs.All Item.Whole ∧ xs.depth ≤ k := by
  induction items with
  | nil => exact absurd rfl hne
  | cons v rest ih =>
    obtain ⟨x, hx⟩ := h v List.mem_cons_self
    cases rest with
    | nil =>
      refine ⟨.last before x after, ?_, ?_, hx.whole, hx.depth⟩
      · rw [Items.text, joined, hx.text, List.append_assoc]
      · rw [itemMeanings, hx.meaning]
        rfl
    | cons u rest =>
      obtain ⟨xs, htext, hmeaning, hwhole, hdepth⟩ := ih (List.cons_ne_nil _ _) fun v hv => h v (List.mem_cons_of_mem _ hv)
      refine ⟨.cons before x .none xs, ?_, ?_, ⟨hx.whole, hwhole⟩, max_le hx.depth hdepth⟩
      · rw [Items.text, joined, hx.text, htext]
        · simp only [Space.none, List.append_assoc, List.nil_append, List.cons_append]
        · exact List.cons_ne_nil _ _
      · rw [itemMeanings, hx.meaning, hmeaning]
        rfl

theorem exists_members (before ahead after : Space) {w : Json → Text} {fields : List (Text × Json)} (hne : fields ≠ [])
    (h : ∀ p ∈ fields, ∃ x, Spells x (w p.2) p.2 k) :
    ∃ xs : Members, xs.text = joinedFields before.text ahead.text w fields ++ after.text ∧
      memberMeanings chars xs = some fields ∧ xs.All Item.Whole ∧ xs.depth ≤ k := by
  induction fields with
  | nil => exact absurd rfl hne
  | cons p rest ih =>
    obtain ⟨name, v⟩ := p
    obtain ⟨x, hx⟩ := h (name, v) List.mem_cons_self
    obtain ⟨key, hkey, hname, hkeyWhole⟩ := exists_items_of_text name
    cases rest with
    | nil =>
      refine ⟨.last before key .none ahead x after, ?_, ?_, ⟨hkeyWhole, hx.whole⟩, hx.depth⟩
      · rw [Members.text, joinedFields, hkey, hx.text]
        simp only [Space.none, List.append_assoc, List.nil_append, List.cons_append]
      · rw [memberMeanings, hname, hx.meaning]
        rfl
    | cons q rest =>
      obtain ⟨xs, htext, hmeaning, hwhole, hdepth⟩ := ih (List.cons_ne_nil _ _) fun p hp => h p (List.mem_cons_of_mem _ hp)
      refine ⟨.cons before key .none ahead x .none xs, ?_, ?_, ⟨hkeyWhole, hx.whole, hwhole⟩, max_le hx.depth hdepth⟩
      · rw [Members.text, joinedFields, hkey, hx.text, htext]
        · simp only [Space.none, List.append_assoc, List.nil_append, List.cons_append]
        · exact List.cons_ne_nil _ _
      · rw [memberMeanings, hname, hx.meaning, hmeaning]
        rfl

theorem exists_arr (before after : Space) {w : Json → Text} {items : List Json} (hne : items ≠ [])
    (h : ∀ v ∈ items, ∃ x, Spells x (w v) v k) :
    ∃ x, Spells x ('[' :: (joined before.text w items ++ after.text ++ [']'])) (.arr items) (k + 1) := by
  obtain ⟨xs, htext, hmeaning, hwhole, hdepth⟩ := exists_items before after hne h
  refine ⟨.arr xs, ?_, ?_, hwhole, Nat.succ_le_succ hdepth⟩
  · rw [Tree.text, htext]
  · rw [meaning, hmeaning]
    rfl

theorem exists_obj (before ahead after : Space) {w : Json → Text} {fields : List (Text × Json)} (hne : fields ≠ [])
    (sorted : fields.Pairwise fun p q => p.1 < q.1) (h : ∀ p ∈ fields, ∃ x, Spells x (w p.2) p.2 k) :
    ∃ x, Spells x ('{' :: (joinedFields before.text ahead.text w fields ++ after.text ++ ['}'])) (.obj fields) (k + 1) := by
  obtain ⟨xs, htext, hmeaning, hwhole, hdepth⟩ := exists_members before ahead after hne h
  refine ⟨.obj xs, ?_, ?_, hwhole, Nat.succ_le_succ hdepth⟩
  · rw [Tree.text, htext]
  · rw [meaning, hmeaning, Option.map_some, ofMembers, SortedMap.foldl_insert_sorted sorted]

theorem isSpace_of_mem_indent {depth : ℕ} {c : Char} (h : c ∈ indent depth) : isSpace c = true := by
  obtain ⟨l, hl, hc⟩ := List.mem_flatten.mp h
  rw [List.eq_of_mem_replicate hl] at hc
  simp only [List.mem_cons, List.not_mem_nil, or_false, or_self] at hc
  rw [hc]
  rfl

def lineBreak (depth : ℕ) : Space := ⟨'\n' :: indent depth, List.forall_mem_cons.mpr ⟨rfl, fun _ => isSpace_of_mem_indent⟩⟩

variable (display)

/-- What is printed on a line is a text of the grammar that denotes the value. -/
theorem exists_compact {v : Json} (h : Printable k v) : ∃ x, Spells x (write display v) v k := by
  induction h with
  | null => exact ⟨.null, rfl, rfl, trivial, Nat.zero_le _⟩
  | bool b => exact ⟨.bool b, rfl, rfl, trivial, Nat.zero_le _⟩
  | num h => exact ⟨_, spells_num display h _⟩
  | str s =>
    obtain ⟨items, htext, hchars, hwhole⟩ := exists_items_of_text s
    refine ⟨.str items, htext, ?_, hwhole, Nat.zero_le _⟩
    rw [meaning, hchars]
    rfl
  | @arr k items _ ih =>
    by_cases hne : items = []
    · subst hne
      exact ⟨.emptyArr .none, rfl, rfl, trivial, Nat.succ_le_succ (Nat.zero_le _)⟩
    · have harr := exists_arr .none .none hne ih
      rw [write, writeItems_eq]
      simpa only [Space.none, List.append_nil] using harr
  | @obj k fields sorted _ ih =>
    by_cases hne : fields = []
    · subst hne
      exact ⟨.emptyObj .none, rfl, rfl, trivial, Nat.succ_le_succ (Nat.zero_le _)⟩
    · have hobj := exists_obj .none .none .none hne sorted ih
      rw [write, writeFields_eq]
      simpa only [Space.none, List.append_nil] using hobj

/-- So is what is printed with a line for each item, at every depth. -/
theorem exists_pretty {v : Json} (h : Printable k v) (depth : ℕ) : ∃ x, Spells x (writePretty display depth v) v k := by
  induction h generalizing depth with
  | null => exact exists_compact display .null
  | bool b => exact exists_compact display (.bool b)
  | num h => exact exists_compact display (.num h)
  | str s => exact exists_compact display (.str s)
  | @arr k items h ih =>
    cases items with
    | nil => exact exists_compact display (.arr h)
    | cons v rest =>
      have harr := exists_arr (lineBreak (depth + 1)) (lineBreak depth) (List.cons_ne_nil v rest)
        fun u hu => ih u hu (depth + 1)
      rw [lineBreak, ← prettyItems_eq (depth + 1) (List.cons_ne_nil v rest)] at harr
      rw [writePretty]
      simpa only [lineBreak, List.cons_append, List.append_assoc] using harr
  | @obj k fields sorted h ih =>
    cases fields with
    | nil => exact exists_compact display (.obj sorted h)
    | cons p rest =>
      have hobj := exists_obj (lineBreak (depth + 1)) .blank (lineBreak depth) (List.cons_ne_nil p rest) sorted
        fun q hq => ih q hq (depth + 1)
      rw [lineBreak, Space.blank, ← prettyFields_eq (depth + 1) (List.cons_ne_nil p rest)] at hobj
      rw [writePretty]
      simpa only [lineBreak, List.cons_append, List.append_assoc] using hobj

end Containers

/-- A text of the grammar with nothing but spaces around it is read as what it denotes. -/
theorem Spells.parse {x : Tree} {t : Text} {v : Json} (h : Spells x t v MAX_DEPTH) (after : Space) :
    parse (t ++ after.text) = .ok v := by
  have hparse := (parse_ok_iff ⟨.none, x, after⟩ h.depth h.meaning).mpr h.whole
  have htext : Document.text ⟨.none, x, after⟩ = t ++ after.text := by
    rw [Document.text, h.text]
    rfl
  rwa [htext] at hparse

/-- What either printer makes of a value is read as that value. -/
theorem parse_printed (display : Option ℚ → Text) {v : Json} (h : Printable MAX_DEPTH v) :
    parse (toString display v) = .ok v ∧ parse (toPrettyString display v) = .ok v := by
  obtain ⟨x, hx⟩ := exists_compact display h
  obtain ⟨y, hy⟩ := exists_pretty display h 0
  refine ⟨?_, hy.parse ⟨['\n'], List.forall_mem_singleton.mpr rfl⟩⟩
  have hparse := hx.parse .none
  rwa [Space.none, List.append_nil] at hparse

/-- Keys and strings with marks that have to be escaped, and a negative number. -/
def printed : Json :=
  .obj [("\"\n".toList, .arr [.num (some (-15 : ℤ)), .str "\x01\\/😀".toList]), ("key".toList, .arr [])]

theorem printed_printable : Printable MAX_DEPTH printed := by
  refine .obj (k := 127) ?_ (List.forall_mem_cons.mpr ⟨?_, List.forall_mem_singleton.mpr ?_⟩)
  · exact List.pairwise_pair.mpr (by decide)
  · exact .arr (k := 126) (List.forall_mem_cons.mpr ⟨.num (by decide), List.forall_mem_singleton.mpr (.str _)⟩)
  · exact .arr (k := 126) nofun

theorem printed_read_back : parse (toString (fun _ => []) printed) = .ok printed ∧
    parse (toPrettyString (fun _ => []) printed) = .ok printed :=
  parse_printed _ printed_printable

end Json

end Unearth
