import Unearth.TiffFields

/-!
# A visit to a directory

A visit goes over the fields, puts the directories that they name on the stack, and notes the fields that have the
offsets and the lengths of strips and tiles, whatever their order.
-/

namespace Unearth.TiffFormat
open Bytes Word TiffWalk

section Fields

variable {src : Source} {r : Room} {l : Layout} {e : ℕ} {fs : List Field}

/-- Fields one behind the other. -/
def FieldsAt (src : Source) (r : Room) (l : Layout) : ℕ → List Field → Prop
  | _, [] => True
  | e, f :: rest => FieldAt src r l e f ∧ FieldsAt src r l (e + l.fieldSize) rest

theorem fieldsAt_of_stored (hstored : Stored src (r.start + e) (fs.flatMap (Field.bytes l)))
    (hstop : e + fs.length * l.fieldSize ≤ r.avail) (hwf : ∀ f ∈ fs, f.WellFormed l)
    (hdata : ∀ f ∈ fs, ¬ f.Inline l → Stored src (r.start + f.place) (f.data l) ∧ f.place + f.size ≤ r.avail) :
    FieldsAt src r l e fs := by
  induction fs generalizing e with
  | nil => trivial
  | cons f rest ih =>
    obtain ⟨hf, hrest⟩ := List.forall_mem_cons.mp hwf
    obtain ⟨hfData, hrestData⟩ := List.forall_mem_cons.mp hdata
    rw [List.flatMap_cons] at hstored
    have hbehind := hstored.right
    rw [Field.length_bytes hf, Nat.add_assoc] at hbehind
    rw [List.length_cons, add_one_mul] at hstop
    exact ⟨⟨hf, hstored.left, by omega, fun h => (hfData h).1, fun h => (hfData h).2⟩,
      ih hbehind (by omega) hrest hrestData⟩

/-- The fields that are noted on the way. -/
def noted (l : Layout) : ℕ → List Field → TiffTags → TiffTags
  | _, [], tags => tags
  | e, f :: rest, tags => noted l (e + l.fieldSize) rest (note tags f.tag (f.entry e))

variable {b : Build}

/-- The fields of a directory, as far as the budget goes. -/
theorem entries_eq (hrel : src.Reliable) {ifd count i budget : ℕ} (hcount : count = i + fs.length)
    (hbudget : fs.length ≤ budget) (hfields : FieldsAt src r l (ifd + l.countSize + i * l.fieldSize) fs)
    (hsub : ∀ f ∈ fs, f.tag = 330 → f.values.length ≤ 64) (w : TiffWalk) (tags : TiffTags) :
    entries b (reader src r l) ifd count budget i w tags =
      .ok ({ w with
        queue := (fs.flatMap Field.links).reverse ++ w.queue
        budget := budget - fs.length
        maxEnd := max w.maxEnd (furthest (fs.flatMap (Field.stops l))) },
        noted l (ifd + l.countSize + i * l.fieldSize) fs tags) := by
  induction fs generalizing i budget w tags with
  | nil =>
    have hmax : max w.maxEnd (furthest []) = w.maxEnd := Nat.max_zero _
    cases budget with
    | zero =>
      rw [entries, List.flatMap_nil, List.flatMap_nil, hmax]
      rfl
    | succ budget =>
      have hend : ¬ i < count := by
        rw [hcount, List.length_nil]
        omega
      rw [entries, if_neg hend, List.flatMap_nil, List.flatMap_nil, hmax]
      rfl
  | cons f rest ih =>
    obtain ⟨hfield, hfields⟩ := hfields
    obtain ⟨hsubField, hsub⟩ := List.forall_mem_cons.mp hsub
    have havail := avail_lt r
    have hstop := hfield.stop_le
    rw [List.length_cons] at hcount hbudget
    obtain ⟨budget, rfl⟩ : ∃ n, budget = n + 1 := ⟨budget - 1, by omega⟩
    have hplace : plus b ifd (reader src r l).cntSize = .ok (ifd + l.countSize) := by
      change plus b ifd l.countSize = _
      exact plus_eq (by omega)
    have hentry : plus b (ifd + l.countSize) (i * (reader src r l).entrySize) =
        .ok (ifd + l.countSize + i * l.fieldSize) := by
      change plus b _ (i * l.fieldSize) = _
      exact plus_eq (by omega)
    have hnext : ifd + l.countSize + (i + 1) * l.fieldSize = ifd + l.countSize + i * l.fieldSize + l.fieldSize := by
      rw [add_one_mul, Nat.add_assoc _ _ l.fieldSize]
    rw [entries, if_pos (by omega), hplace, exec_ok_bind, hentry, exec_ok_bind, hfield.readEntry_eq hrel, exec_ok_bind]
    dsimp only
    rw [hfield.outOfLine_eq hrel, exec_ok_bind, hfield.subDirectories_eq hrel hsubField, exec_ok_bind]
    rw [← hnext] at hfields
    rw [ih (by omega) (by omega) hfields hsub, noted, hnext]
    simp only [reach, push, List.flatMap_cons, List.reverse_append, List.append_assoc, List.length_cons,
      furthest_append, max_assoc, Nat.add_sub_add_right]

end Fields

section Noted

variable {src : Source} {r : Room} {l : Layout} {e : ℕ} {fs : List Field} {tags : TiffTags} {k : ℕ}

/-- What is noted is a field of the directory. -/
inductive Names (src : Source) (r : Room) (l : Layout) : Option TiffEntry → Option Field → Prop
  | none : Names src r l none none
  | some {e : ℕ} {f : Field} (h : FieldAt src r l e f) : Names src r l (some (f.entry e)) (some f)

/-- One of the fields that are noted is the last one with a tag. -/
def Notes (p : TiffTags → Option TiffEntry) (k : ℕ) : Prop :=
  ∀ tags tag entry, p (note tags tag entry) = if tag = k then some entry else p tags

theorem notes_stripOff : Notes TiffTags.stripOff 273 := by
  intro tags tag entry
  unfold note
  split_ifs <;> rfl

theorem notes_stripCnt : Notes TiffTags.stripCnt 279 := by
  intro tags tag entry
  unfold note
  split_ifs <;> first | rfl | omega

theorem notes_tileOff : Notes TiffTags.tileOff 324 := by
  intro tags tag entry
  unfold note
  split_ifs <;> first | rfl | omega

theorem notes_tileCnt : Notes TiffTags.tileCnt 325 := by
  intro tags tag entry
  unfold note
  split_ifs <;> first | rfl | omega

variable {p : TiffTags → Option TiffEntry}

theorem noted_of_not_mem (hp : Notes p k) (hk : k ∉ fs.map Field.tag) : p (noted l e fs tags) = p tags := by
  induction fs generalizing e tags with
  | nil => rfl
  | cons f rest ih =>
    rw [List.map_cons, List.mem_cons, not_or] at hk
    rw [noted, ih hk.2, hp, if_neg (Ne.symm hk.1)]

/-- Where no two fields have one tag, the field with a tag is noted. -/
theorem noted_names (hp : Notes p k) (hfields : FieldsAt src r l e fs) (hnodup : (fs.map Field.tag).Nodup)
    (hnone : p tags = none) : Names src r l (p (noted l e fs tags)) (fs.find? (·.tag = k)) := by
  induction fs generalizing e tags with
  | nil =>
    rw [noted, hnone]
    exact .none
  | cons f rest ih =>
    obtain ⟨hfield, hfields⟩ := hfields
    rw [List.map_cons, List.nodup_cons] at hnodup
    by_cases htag : f.tag = k
    · rw [List.find?_cons_of_pos (by simpa using htag), noted, noted_of_not_mem hp (htag ▸ hnodup.1), hp, if_pos htag]
      exact .some hfield
    · rw [List.find?_cons_of_neg (by simpa using htag), noted]
      refine ih hfields hnodup.2 ?_
      rw [hp, if_neg htag, hnone]

end Noted

section Visit

variable {b : Build} {src : Source} {r : Room} {l : Layout} {d : Directory}

theorem zip_satAdd {xs ys : List ℕ} (h : ∀ x ∈ List.zipWith (· + ·) xs ys, x < 2 ^ 64) :
    (xs.zip ys).map (fun p => satAdd p.1 p.2) = List.zipWith (· + ·) xs ys := by
  induction xs generalizing ys with
  | nil => rfl
  | cons x xs ih =>
    cases ys with
    | nil => rfl
    | cons y ys =>
      rw [List.zipWith_cons_cons, List.forall_mem_cons] at h
      rw [List.zip_cons_cons, List.map_cons, List.zipWith_cons_cons, ih h.2, satAdd_eq h.1]

/-- Strips or tiles end where the field with their offsets and that with their lengths say. -/
theorem stripTileEnd_eq (hrel : src.Reliable) {offsets lengths : Option TiffEntry} {i j cap : ℕ}
    (hoffsets : Names src r l offsets (d.fields.find? (·.tag = i)))
    (hlengths : Names src r l lengths (d.fields.find? (·.tag = j)))
    (hcap : ∀ f ∈ d.fields, f.tag = i ∨ f.tag = j → f.values.length ≤ cap)
    (hle : ∀ x ∈ d.pieces i j, x ≤ r.avail) :
    stripTileEnd b (reader src r l) offsets lengths cap = .ok (furthest (d.pieces i j)) := by
  have havail := avail_lt r
  unfold Directory.pieces Directory.values at hle ⊢
  generalize hi : d.fields.find? (·.tag = i) = oi at hoffsets hle ⊢
  generalize hj : d.fields.find? (·.tag = j) = oj at hlengths hle ⊢
  cases hoffsets with
  | none => rfl
  | @some e f hf =>
    have hfTag : f.tag = i := by simpa using List.find?_some hi
    have hfValues : (reader src r l).entryArray b e f.type.code f.values.length cap = .ok f.values :=
      hf.entryArray_eq hrel (hcap f (List.mem_of_find?_eq_some hi) (.inl hfTag))
    cases hlengths with
    | none =>
      simp only [Option.map_none, Option.getD_none, List.zipWith_nil_right]
      rfl
    | @some e' g hg =>
      have hgTag : g.tag = j := by simpa using List.find?_some hj
      have hgValues : (reader src r l).entryArray b e' g.type.code g.values.length cap = .ok g.values :=
        hg.entryArray_eq hrel (hcap g (List.mem_of_find?_eq_some hj) (.inr hgTag))
      simp only [Option.map_some, Option.getD_some] at hle ⊢
      unfold stripTileEnd Field.entry
      dsimp only
      rw [hfValues, exec_ok_bind, hgValues, exec_ok_bind, zip_satAdd fun x hx => (hle x hx).trans_lt (by omega)]
      rfl

/-- A directory is where it says, with its fields and their values, and all that it refers to ends where it has to. -/
structure DirectoryAt (src : Source) (r : Room) (l : Layout) (d : Directory) : Prop where
  well_formed : d.WellFormed l
  count : Stored src (r.start + d.place) (l.number l.countSize d.fields.length)
  fields : FieldsAt src r l (d.place + l.countSize) d.fields
  next : Stored src (r.start + (d.place + l.countSize + d.fields.length * l.fieldSize)) (l.number l.offsetSize d.next)
  next_lt : d.next < 256 ^ l.offsetSize
  stops_le : ∀ x ∈ d.stops l, x ≤ r.avail
  sub_le : ∀ f ∈ d.fields, f.tag = 330 → f.values.length ≤ 64
  pieces_le : ∀ f ∈ d.fields, f.tag ∈ [273, 279, 324, 325] → f.values.length ≤ 2 ^ 20

namespace DirectoryAt

variable (h : DirectoryAt src r l d)
include h

theorem stop_le : d.place + l.countSize + d.fields.length * l.fieldSize + l.offsetSize ≤ r.avail :=
  h.stops_le _ List.mem_cons_self

theorem span_eq : satAdd (satAdd (satAdd d.place (reader src r l).cntSize)
    (satMul d.fields.length (reader src r l).entrySize)) (reader src r l).ptrSize = d.stop l := by
  have havail := avail_lt r
  have hstop := h.stop_le
  change satAdd (satAdd (satAdd d.place l.countSize) (satMul d.fields.length l.fieldSize)) l.offsetSize = _
  rw [satMul_eq (by omega), satAdd_eq (x := d.place) (by omega),
    satAdd_eq (y := d.fields.length * l.fieldSize) (by omega), satAdd_eq (by omega)]
  rfl

end DirectoryAt

/-- The walk behind a visit to a directory. -/
def visited (l : Layout) (d : Directory) (w : TiffWalk) : TiffWalk where
  queue := (d.fields.flatMap Field.links).reverse ++ w.queue
  visited := w.visited
  processed := w.processed + 1
  budget := w.budget - d.fields.length
  maxEnd := max w.maxEnd (furthest (d.stops l))

theorem visit_eq (hrel : src.Reliable) (h : DirectoryAt src r l d) (w : TiffWalk)
    (hbudget : d.fields.length ≤ w.budget) :
    w.visit b (reader src r l) d.place = .ok (some (d.fields.length, visited l d w)) := by
  have hstop := h.stop_le
  have hcount : (reader src r l).count b d.place = .ok (some d.fields.length) :=
    count_stored hrel h.count h.well_formed.count_lt (by omega)
  have hspan : d.stop l ≤ (reader src r l).avail := h.stop_le
  have hfields : FieldsAt src r l (d.place + l.countSize + 0 * l.fieldSize) d.fields := by
    rw [Nat.zero_mul]
    exact h.fields
  have hpieces : ∀ {i j}, i ∈ [273, 279, 324, 325] → j ∈ [273, 279, 324, 325] →
      ∀ f ∈ d.fields, f.tag = i ∨ f.tag = j → f.values.length ≤ MAX_STRIPS := by
    rintro i j hi hj f hf (rfl | rfl)
    · exact h.pieces_le f hf hi
    · exact h.pieces_le f hf hj
  have hstrips : ∀ x ∈ d.pieces 273 279, x ≤ r.avail := fun x hx =>
    h.stops_le x (List.mem_cons_of_mem _ (List.mem_append_right _ (List.mem_append_left _ hx)))
  have htiles : ∀ x ∈ d.pieces 324 325, x ≤ r.avail := fun x hx =>
    h.stops_le x (List.mem_cons_of_mem _ (List.mem_append_right _ (List.mem_append_right _ hx)))
  have hnodup := h.well_formed.tags_nodup
  rw [TiffWalk.visit, hcount, exec_ok_bind]
  dsimp only
  rw [h.span_eq, if_pos hspan]
  dsimp only [reach]
  rw [entries_eq hrel (Nat.zero_add _).symm hbudget hfields h.sub_le, exec_ok_bind]
  dsimp only
  rw [stripTileEnd_eq hrel (noted_names notes_stripOff hfields hnodup rfl)
      (noted_names notes_stripCnt hfields hnodup rfl) (hpieces (by decide) (by decide)) hstrips, exec_ok_bind,
    stripTileEnd_eq hrel (noted_names notes_tileOff hfields hnodup rfl)
      (noted_names notes_tileCnt hfields hnodup rfl) (hpieces (by decide) (by decide)) htiles, exec_ok_bind]
  simp only [visited, Directory.stops, furthest_cons, furthest_append, max_assoc]
  rfl

theorem next_eq (hrel : src.Reliable) (h : DirectoryAt src r l d) (w : TiffWalk) :
    w.next b (reader src r l) d.place d.fields.length = .ok (w.push (if d.next = 0 then [] else [d.next])) := by
  have havail := avail_lt r
  have hstop := h.stop_le
  have hplace : plus b d.place (reader src r l).cntSize = .ok (d.place + l.countSize) := by
    change plus b d.place l.countSize = _
    exact plus_eq (by omega)
  have hfields : plus b (d.place + l.countSize) (satMul d.fields.length (reader src r l).entrySize) =
      .ok (d.place + l.countSize + d.fields.length * l.fieldSize) := by
    change plus b _ (satMul d.fields.length l.fieldSize) = _
    rw [satMul_eq (by omega)]
    exact plus_eq (by omega)
  rw [TiffWalk.next, hplace, exec_ok_bind, hfields, exec_ok_bind, ptr_stored hrel h.next h.next_lt hstop, exec_ok_bind]
  dsimp only
  split_ifs
  · rfl
  · rfl

end Visit

end Unearth.TiffFormat
