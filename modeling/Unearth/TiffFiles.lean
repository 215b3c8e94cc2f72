import Unearth.TiffDirectories

/-!
# The walk comes to every directory

The walk visits each directory once, whatever names it and however often, and is left when it has visited all of
them. What it returns is the furthest end of all that a file refers to but JPEG streams.
-/

namespace Unearth.TiffFormat
open Bytes Word Loop TiffWalk

section Stored

variable {src : Source} {r : Room} {file : TiffFile} {d : Directory}

theorem TiffFile.mem_stops (hd : d ∈ file.directories) {x : ℕ} (hx : x ∈ d.stops file.layout) : x ∈ file.stops :=
  List.mem_cons_of_mem _ (List.mem_flatMap.mpr ⟨d, hd, hx⟩)

theorem TiffFile.StoredIn.stop_le (h : file.StoredIn src r) {x : ℕ} (hx : x ∈ file.stops) : x ≤ r.avail :=
  (le_furthest (List.mem_append_left _ hx)).trans h.within

theorem length_fields {l : Layout} {fs : List Field} (h : ∀ f ∈ fs, f.WellFormed l) :
    (fs.flatMap (Field.bytes l)).length = fs.length * l.fieldSize := by
  induction fs with
  | nil => rw [List.flatMap_nil, List.length_nil, List.length_nil, Nat.zero_mul]
  | cons f rest ih =>
    obtain ⟨hf, hrest⟩ := List.forall_mem_cons.mp h
    rw [List.flatMap_cons, List.length_append, Field.length_bytes hf, ih hrest, List.length_cons, add_one_mul,
      Nat.add_comm]

theorem TiffFile.next_lt (hd : d ∈ file.directories) : d.next < 256 ^ file.layout.offsetSize := by
  by_cases hnext : d.next = 0
  · rw [hnext]
    exact Nat.pow_pos (by decide)
  · have hlink : d.next ∈ d.links := by simp [Directory.links, hnext]
    obtain ⟨d', hd', hplace⟩ := List.mem_map.mp (file.links_mem d hd _ hlink)
    rw [← hplace]
    exact (file.well_formed d' hd').place_lt

theorem TiffFile.StoredIn.directoryAt (h : file.StoredIn src r) (hlimited : file.Limited) (hd : d ∈ file.directories) :
    DirectoryAt src r file.layout d := by
  have hwf := file.well_formed d hd
  have hstops : ∀ x ∈ d.stops file.layout, x ≤ r.avail := fun x hx => h.stop_le (TiffFile.mem_stops hd hx)
  have hstop : d.stop file.layout ≤ r.avail := hstops _ List.mem_cons_self
  unfold Directory.stop at hstop
  have hbytes := h.directory d hd
  have hfields := hbytes.right.left
  have hnext := hbytes.right.right
  rw [Layout.length_number] at hfields hnext
  rw [length_fields hwf.fields] at hnext
  rw [Nat.add_assoc] at hfields
  refine ⟨hwf, hbytes.left, fieldsAt_of_stored hfields (by omega) hwf.fields fun f hf hout => ?_, ?_,
    TiffFile.next_lt hd, hstops, hlimited.subDirectories d hd, hlimited.pieces d hd⟩
  · have hmem : f.place + f.size ∈ f.stops file.layout := by
      rw [Field.stops, if_neg hout]
      exact List.mem_singleton_self _
    refine ⟨h.data d hd f hf hout, hstops _ (List.mem_cons_of_mem _ (List.mem_append_left _ ?_))⟩
    exact List.mem_flatMap.mpr ⟨f, hf, hmem⟩
  · rwa [← Nat.add_assoc, ← Nat.add_assoc]

end Stored

section Walk

variable {b : Build} {src : Source} {r : Room} {file : TiffFile} {w : TiffWalk} {ds : List Directory} {d : Directory}

/-- The walk when it has visited some of the directories. -/
structure Walked (file : TiffFile) (w : TiffWalk) (ds : List Directory) : Prop where
  subset : ds ⊆ file.directories
  nodup : ds.Nodup
  visited : w.visited = ds.map Directory.place
  processed : w.processed = ds.length
  budget : w.budget + (ds.map (·.fields.length)).sum = 2 ^ 20
  max_end : w.maxEnd = max file.layout.headerSize (furthest (ds.flatMap (Directory.stops file.layout)))
  queue : ∀ x ∈ w.queue, x ∈ file.directories.map Directory.place
  first : file.first ∈ w.visited ∨ file.first ∈ w.queue
  links : ∀ d ∈ ds, ∀ x ∈ d.links, x ∈ w.visited ∨ x ∈ w.queue

theorem walked_start (src : Source) (r : Room) (file : TiffFile) :
    Walked file (start (reader src r file.layout) file.first) [] where
  subset := List.nil_subset _
  nodup := List.nodup_nil
  visited := rfl
  processed := rfl
  budget := Nat.add_zero _
  max_end := (Nat.max_zero _).symm
  queue := fun x hx => by
    rw [List.mem_singleton.mp hx]
    exact file.first_mem
  first := .inr (List.mem_singleton_self _)
  links := fun d hd => by cases hd

theorem sum_of_subset {α : Type} {xs ys : List α} (hnodup : xs.Nodup) (hsub : xs ⊆ ys) (w : α → ℕ) :
    (xs.map w).sum ≤ (ys.map w).sum := by
  obtain ⟨zs, hperm, hsublist⟩ := hnodup.subperm hsub
  rw [← (hperm.map w).sum_eq]
  exact (hsublist.map w).sum_le_sum fun _ _ => Nat.zero_le _

/-- A directory of the file is the only one at its place. -/
theorem eq_of_place {d' : Directory} (hd : d ∈ file.directories) (hd' : d' ∈ file.directories)
    (h : d.place = d'.place) : d = d' := List.inj_on_of_nodup_map file.places_nodup hd hd' h

/-- An offset that was there before is taken from the stack. -/
theorem Walked.skip {x : ℕ} {queue : List ℕ} (h : Walked file w ds) (hqueue : w.queue = x :: queue)
    (hx : x ∈ w.visited) : Walked file { w with queue := queue } ds := by
  have hkept : ∀ {y}, y ∈ w.visited ∨ y ∈ w.queue → y ∈ w.visited ∨ y ∈ queue := by
    intro y hy
    rw [hqueue, List.mem_cons] at hy
    rcases hy with hy | rfl | hy
    · exact .inl hy
    · exact .inl hx
    · exact .inr hy
  refine ⟨h.subset, h.nodup, h.visited, h.processed, h.budget, h.max_end, fun y hy => ?_, hkept h.first,
    fun d hd y hy => hkept (h.links d hd y hy)⟩
  apply h.queue
  rw [hqueue]
  exact List.mem_cons_of_mem _ hy

/-- The walk behind a new directory. -/
def after (l : Layout) (d : Directory) (queue : List ℕ) (w : TiffWalk) : TiffWalk where
  queue := d.links.reverse ++ queue
  visited := d.place :: w.visited
  processed := w.processed + 1
  budget := w.budget - d.fields.length
  maxEnd := max w.maxEnd (furthest (d.stops l))

theorem Walked.budget_le (h : Walked file w ds) (hlimited : file.Limited) (hd : d ∈ file.directories) (hnew : d ∉ ds) :
    d.fields.length ≤ w.budget := by
  have hsum := sum_of_subset (List.nodup_cons.mpr ⟨hnew, h.nodup⟩) (List.cons_subset.mpr ⟨hd, h.subset⟩)
    (·.fields.length)
  have hfields := hlimited.fields
  have hbudget := h.budget
  rw [List.map_cons, List.sum_cons] at hsum
  omega

theorem Walked.processed_lt (h : Walked file w ds) (hlimited : file.Limited) (hd : d ∈ file.directories)
    (hnew : d ∉ ds) :
    w.processed < MAX_IFDS := by
  have hlength := ((List.nodup_cons.mpr ⟨hnew, h.nodup⟩).subperm (List.cons_subset.mpr ⟨hd, h.subset⟩)).length_le
  have hdirectories := hlimited.directories
  rw [h.processed]
  change ds.length < 4096
  rw [List.length_cons] at hlength
  omega

theorem Walked.after {queue : List ℕ} (h : Walked file w ds) (hqueue : w.queue = d.place :: queue)
    (hlimited : file.Limited) (hd : d ∈ file.directories) (hnew : d ∉ ds) :
    Walked file (after file.layout d queue w) (d :: ds) := by
  have hbudget := h.budget_le hlimited hd hnew
  have hsum := h.budget
  have hkept : ∀ {y}, y ∈ w.visited ∨ y ∈ w.queue → y ∈ d.place :: w.visited ∨ y ∈ d.links.reverse ++ queue := by
    intro y hy
    rw [hqueue, List.mem_cons] at hy
    rcases hy with hy | rfl | hy
    · exact .inl (List.mem_cons_of_mem _ hy)
    · exact .inl List.mem_cons_self
    · exact .inr (List.mem_append_right _ hy)
  refine ⟨List.cons_subset.mpr ⟨hd, h.subset⟩, List.nodup_cons.mpr ⟨hnew, h.nodup⟩, ?_, ?_, ?_, ?_, fun y hy => ?_,
    hkept h.first, fun d' hd' y hy => ?_⟩
  · exact congrArg (d.place :: ·) h.visited
  · exact congrArg (· + 1) h.processed
  · rw [List.map_cons, List.sum_cons]
    change w.budget - d.fields.length + _ = _
    omega
  · change max w.maxEnd _ = _
    rw [h.max_end, List.flatMap_cons, furthest_append, max_assoc, max_comm (furthest (d.stops file.layout))]
  · rcases List.mem_append.mp hy with hy | hy
    · exact file.links_mem d hd y (List.mem_reverse.mp hy)
    · apply h.queue
      rw [hqueue]
      exact List.mem_cons_of_mem _ hy
  · rcases List.mem_cons.mp hd' with rfl | hd'
    · exact .inr (List.mem_append_left _ (List.mem_reverse.mpr hy))
    · exact hkept (h.links d' hd' y hy)

theorem body_visit (hrel : src.Reliable) (hat : DirectoryAt src r file.layout d) {queue : List ℕ}
    (hqueue : w.queue = d.place :: queue) (hnew : d.place ∉ w.visited) (hprocessed : w.processed < MAX_IFDS)
    (hbudget : d.fields.length ≤ w.budget) :
    body b (reader src r file.layout) w = .next (after file.layout d queue w) := by
  have hplace : ¬ d.place < (reader src r file.layout).headerEnd := not_lt.mpr hat.well_formed.place_le
  have hpop : w.pop (reader src r file.layout) =
      some (some d.place, { w with queue := queue, visited := d.place :: w.visited }) := by
    unfold pop
    rw [hqueue]
    dsimp only
    rw [if_neg (by simp only [hplace, hnew, or_self, not_false_eq_true]), if_neg (not_le.mpr hprocessed)]
  have hvisit := @visit_eq b _ _ _ _ hrel hat { w with queue := queue, visited := d.place :: w.visited } hbudget
  rw [body, hpop]
  dsimp only
  rw [hvisit]
  dsimp only
  rw [next_eq hrel hat]
  have hreverse : (if d.next = 0 then [] else [d.next]).reverse ++ ((d.fields.flatMap Field.links).reverse ++ queue) =
      d.links.reverse ++ queue := by
    rw [Directory.links, List.reverse_append, List.append_assoc]
  simp only [push, TiffFormat.visited, TiffFormat.after, hreverse]

/-- A step of the walk, which is left when there is nothing more on the stack. -/
theorem Walked.step (hrel : src.Reliable) (hstored : file.StoredIn src r) (hlimited : file.Limited)
    (h : Walked file w ds) :
    (w.queue = [] ∧ body b (reader src r file.layout) w = .done (.ok w)) ∨
      ∃ w' ds', body b (reader src r file.layout) w = .next w' ∧ Walked file w' ds' := by
  cases hqueue : w.queue with
  | nil =>
    refine .inl ⟨rfl, ?_⟩
    simp only [body, pop, hqueue]
  | cons x queue =>
    right
    have hx := h.queue x (by rw [hqueue]; exact List.mem_cons_self)
    obtain ⟨d, hd, rfl⟩ := List.mem_map.mp hx
    have hat := hstored.directoryAt hlimited hd
    by_cases hold : d.place ∈ w.visited
    · refine ⟨{ w with queue := queue }, ds, ?_, h.skip hqueue hold⟩
      have hpop : w.pop (reader src r file.layout) = some (none, { w with queue := queue }) := by
        unfold pop
        rw [hqueue]
        exact if_pos (.inr hold)
      rw [body, hpop]
    · have hnew : d ∉ ds := by
        intro hmem
        apply hold
        rw [h.visited]
        exact List.mem_map_of_mem hmem
      exact ⟨_, d :: ds, body_visit hrel hat hqueue hold (h.processed_lt hlimited hd hnew)
        (h.budget_le hlimited hd hnew), h.after hqueue hlimited hd hnew⟩

/-- The walk that is left has visited every directory. -/
theorem Walked.all (h : Walked file w ds) (hqueue : w.queue = []) : file.directories ⊆ ds := by
  have hclosed : ∀ x, x ∈ w.visited ∨ x ∈ w.queue ↔ x ∈ ds.map Directory.place := by
    intro x
    rw [hqueue, h.visited]
    simp
  have hreached : ∀ x, Relation.ReflTransGen (Link file.directories) file.first x → x ∈ ds.map Directory.place := by
    intro x hx
    induction hx with
    | refl => exact (hclosed _).mp h.first
    | tail _ hlink ih =>
      obtain ⟨d', hd', rfl, hy⟩ := hlink
      obtain ⟨d'', hd'', hplace⟩ := List.mem_map.mp ih
      rw [← eq_of_place (h.subset hd'') hd' hplace] at hy
      exact (hclosed _).mp (h.links d'' hd'' _ hy)
  intro d hd
  obtain ⟨d', hd', hplace⟩ := List.mem_map.mp (hreached _ (file.reachable d hd))
  rwa [← eq_of_place (h.subset hd') hd hplace]

theorem loop_eval (hrel : src.Reliable) (hstored : file.StoredIn src r) (hlimited : file.Limited) :
    ∃ w, (loop b (reader src r file.layout)).eval (start (reader src r file.layout) file.first) = .ok w ∧
      w.processed ≠ 0 ∧ w.maxEnd = furthest file.stops := by
  have hinv : ∀ w, (∃ ds, Walked file w ds) →
      ((loop b (reader src r file.layout)).body w).Sat (fun w => ∃ ds, Walked file w ds)
        fun res => ∃ w, res = .ok w ∧ w.queue = [] ∧ ∃ ds, Walked file w ds := by
    rintro w ⟨ds, h⟩
    obtain ⟨hqueue, hbody⟩ | ⟨w', ds', hbody, h'⟩ := @Walked.step b _ _ _ _ _ hrel hstored hlimited h
    · change (body b (reader src r file.layout) w).Sat _ _
      rw [hbody]
      exact ⟨w, rfl, hqueue, ds, h⟩
    · change (body b (reader src r file.layout) w).Sat _ _
      rw [hbody]
      exact ⟨ds', h'⟩
  obtain ⟨w, heval, hqueue, ds, h⟩ := While.eval_inv _ hinv ⟨[], walked_start src r file⟩
  have hall := h.all hqueue
  refine ⟨w, heval, ?_, ?_⟩
  · obtain ⟨d, hd, -⟩ := List.mem_map.mp file.first_mem
    have hpos := List.length_pos_of_mem (hall hd)
    rw [h.processed]
    omega
  · have hflat : ∀ {xs ys : List Directory}, xs ⊆ ys →
        xs.flatMap (Directory.stops file.layout) ⊆ ys.flatMap (Directory.stops file.layout) := by
      intro xs ys hsub x hx
      obtain ⟨d, hd, hx⟩ := List.mem_flatMap.mp hx
      exact List.mem_flatMap.mpr ⟨d, hsub hd, hx⟩
    rw [h.max_end, TiffFile.stops, furthest_cons,
      le_antisymm (furthest_mono (hflat h.subset)) (furthest_mono (hflat hall))]

end Walk

section Exactness

variable {b : Build} {src : Source} {r : Room} {file : TiffFile} {l : Layout}

theorem length_mark (l : Layout) : l.mark.length = 2 := by
  unfold Layout.mark
  split_ifs
  · rfl
  · rfl

theorem tiffReader_eq (src : Source) (r : Room) (l : Layout) (rest : List UInt8) :
    tiffReader src r.start r.limit (l.mark ++ (l.number 2 l.version ++ rest)) = some (reader src r l) := by
  have hmark := length_mark l
  have hwhole : window (l.mark ++ (l.number 2 l.version ++ rest)) 0 2 = l.mark := window_whole hmark _
  have hversion : window (l.mark ++ (l.number 2 l.version ++ rest)) 2 2 = l.number 2 l.version := by
    rw [window_behind hmark le_rfl]
    exact window_whole (l.length_number _ _) _
  have hnum : num l.le (l.number 2 l.version) = l.version := by
    apply Layout.num_number
    unfold Layout.version
    split_ifs
    · decide
    · decide
  unfold tiffReader
  rw [hwhole, hversion]
  obtain ⟨le, big⟩ := l
  cases le with
  | true =>
    have hmarks : (⟨true, big⟩ : Layout).mark = ascii "II" := rfl
    dsimp only at hnum ⊢
    rw [if_pos hmarks, hnum]
    cases big with
    | true => rfl
    | false => rfl
  | false =>
    have hmarks : (⟨false, big⟩ : Layout).mark = ascii "MM" := rfl
    have hother : (⟨false, big⟩ : Layout).mark ≠ ascii "II" := by
      rw [hmarks]
      decide
    dsimp only at hnum ⊢
    rw [if_neg hother, if_pos hmarks, hnum]
    cases big with
    | true => rfl
    | false => rfl

theorem headerSize_le (hstored : file.StoredIn src r) : file.layout.headerSize ≤ r.avail :=
  hstored.stop_le List.mem_cons_self

/-- The header states the width of the offsets of a big file, and where the first directory is. -/
theorem header_read (hrel : src.Reliable) (hstored : file.StoredIn src r) :
    (reader src r file.layout).bigHeader b = .ok true ∧
      (reader src r file.layout).firstIfd b = .ok (some file.first) := by
  have hsize := headerSize_le hstored
  have hfirst : file.first < 256 ^ file.layout.offsetSize := by
    obtain ⟨d, hd, hplace⟩ := List.mem_map.mp file.first_mem
    rw [← hplace]
    exact (file.well_formed d hd).place_lt
  have hbehind := hstored.header.right.right
  rw [length_mark, Layout.length_number, Nat.add_assoc] at hbehind
  unfold Tiff.bigHeader Tiff.firstIfd
  unfold Layout.headerSize at hsize
  unfold Layout.offsetWidth Layout.offsetSize at hbehind
  unfold Layout.offsetSize at hfirst
  by_cases hbig : file.layout.big = true
  · rw [if_pos hbig] at hsize hbehind hfirst
    rw [if_pos hbig] at hbehind
    have hwidth : (reader src r file.layout).u16 b 4 = .ok (some 8) :=
      uint_stored hrel hbehind.left.left (by decide) (by omega)
    have hzero := hbehind.left.right
    have hplace := hbehind.right
    rw [Layout.length_number, Nat.add_assoc] at hzero
    rw [List.length_append, Layout.length_number, Layout.length_number, Nat.add_assoc] at hplace
    have hreserved : (reader src r file.layout).u16 b 6 = .ok (some 0) :=
      uint_stored hrel hzero (by decide) (by omega)
    have hread : (reader src r file.layout).u64 b 8 = .ok (some file.first) :=
      uint_stored hrel hplace hfirst (by omega)
    change (if file.layout.big = true then _ else _) = _ ∧ (if file.layout.big = true then _ else _) = _
    rw [if_pos hbig, if_pos hbig, hwidth, exec_ok_bind, if_neg (by decide), hreserved]
    exact ⟨rfl, hread⟩
  · rw [if_neg hbig] at hsize hbehind hfirst
    rw [if_neg hbig] at hbehind
    have hread : (reader src r file.layout).u32 b 4 = .ok (some file.first) :=
      uint_stored hrel hbehind hfirst (by omega)
    change (if file.layout.big = true then _ else _) = _ ∧ (if file.layout.big = true then _ else _) = _
    rw [if_neg hbig, if_neg hbig]
    exact ⟨rfl, hread⟩

/-- The first eight bytes have the mark and the version. -/
theorem header_eight (file : TiffFile) : ∃ rest more, rest.length = 4 ∧
    file.header = (file.layout.mark ++ (file.layout.number 2 file.layout.version ++ rest)) ++ more := by
  unfold TiffFile.header Layout.offsetWidth Layout.offsetSize
  dsimp only
  by_cases hbig : file.layout.big = true
  · refine ⟨file.layout.number 2 8 ++ file.layout.number 2 0, file.layout.number 8 file.first, ?_, ?_⟩
    · rw [List.length_append, Layout.length_number, Layout.length_number]
    · rw [if_pos hbig, if_pos hbig]
      simp only [List.append_assoc]
  · refine ⟨file.layout.number 4 file.first, [], Layout.length_number _ _ _, ?_⟩
    rw [if_neg hbig, if_neg hbig]
    simp only [List.nil_append, List.append_nil]

/-- The length that is found is where the file ends but for its JPEG streams. -/
theorem tiffLength_stored (hrel : src.Reliable) (hlimited : file.Limited) (hstored : file.StoredIn src r) :
    tiffLength b src r.start r.limit = .ok (some (furthest file.stops)) := by
  have havail := avail_lt r
  have hstart := r.start_le
  have hlimit := r.limit_lt
  obtain ⟨rest, more, hlength, hheader⟩ := header_eight file
  have hhdr := hstored.header
  rw [hheader] at hhdr
  have height : (file.layout.mark ++ (file.layout.number 2 file.layout.version ++ rest)).length = 8 := by
    rw [List.length_append, List.length_append, length_mark, Layout.length_number, hlength]
  obtain ⟨hbig, hfirst⟩ := @header_read b _ _ _ hrel hstored
  obtain ⟨w, heval, hprocessed, hend⟩ := @loop_eval b _ _ _ hrel hstored hlimited
  have hle : furthest file.stops ≤ r.avail := furthest_le_iff.mpr fun x hx => hstored.stop_le hx
  have hbeyond : file.layout.headerSize < furthest file.stops := by
    obtain ⟨d, hd, -⟩ := List.mem_map.mp file.first_mem
    have hplace := (file.well_formed d hd).place_le
    have hstop : d.stop file.layout ≤ furthest file.stops :=
      le_furthest (TiffFile.mem_stops hd List.mem_cons_self)
    have hpos : 0 < file.layout.offsetSize := by
      unfold Layout.offsetSize
      split_ifs
      · decide
      · decide
    unfold Directory.stop at hstop
    omega
  have hfit : fitting b r.start r.limit (some (furthest file.stops)) = .ok (some (furthest file.stops)) := by
    unfold Room.avail at hle havail
    rw [fitting, plus_eq (by omega), exec_ok_bind, if_neg (by omega)]
    rfl
  rw [tiffLength, hhdr.left.readAt hrel height, exec_ok_bind, if_neg (by omega), tiffReader_eq]
  dsimp only
  rw [Tiff.length, hbig, exec_ok_bind, if_pos rfl, hfirst, exec_ok_bind]
  dsimp only
  have hfound : ¬ (w.processed = 0 ∨ furthest file.stops ≤ (reader src r file.layout).headerEnd) :=
    not_or.mpr ⟨hprocessed, not_le.mpr hbeyond⟩
  rw [heval, exec_ok_bind, TiffWalk.length, hend, if_neg hfound]
  exact hfit

theorem le_furthest_iff {stops : List ℕ} {n : ℕ} (hne : stops ≠ []) : n ≤ furthest stops ↔ ∃ x ∈ stops, n ≤ x := by
  constructor
  · intro h
    by_contra hno
    push Not at hno
    obtain ⟨x, rest, rfl⟩ := List.exists_cons_of_ne_nil hne
    have hpos : 0 < n := (Nat.zero_le x).trans_lt (hno x List.mem_cons_self)
    have hlt : furthest (x :: rest) ≤ n - 1 := furthest_le_iff.mpr fun y hy => Nat.le_sub_one_of_lt (hno y hy)
    omega
  · rintro ⟨x, hx, hle⟩
    exact hle.trans (le_furthest hx)

/-- A file is carved to its end exactly where each of its JPEG streams ends before something else does. -/
theorem tiffLength_exact (b : Build) (src : Source) (r : Room) (file : TiffFile) (hrel : src.Reliable)
    (hlimited : file.Limited) (hstored : file.StoredIn src r) :
    tiffLength b src r.start r.limit = .ok (some file.stop) ↔
      ∀ jpeg ∈ file.jpegStops, ∃ other ∈ file.stops, jpeg ≤ other := by
  have hne : file.stops ≠ [] := List.cons_ne_nil _ _
  have hcover : file.stop = furthest file.stops ↔ ∀ jpeg ∈ file.jpegStops, ∃ other ∈ file.stops, jpeg ≤ other := by
    rw [TiffFile.stop, furthest_append, max_eq_left_iff, furthest_le_iff]
    simp only [le_furthest_iff hne]
  rw [tiffLength_stored hrel hlimited hstored, ← hcover]
  constructor
  · intro h
    exact (Option.some.inj (Except.ok.inj h)).symm
  · intro h
    rw [h]

end Exactness

section Sample

def little : Layout := ⟨true, false⟩

/-- Two fields of one number each: the offset and the length of a JPEG stream, or of a strip. -/
def piece (jpeg : Bool) : Directory where
  place := 8
  fields := [⟨if jpeg then 513 else 273, .long, [38], 0, []⟩, ⟨if jpeg then 514 else 279, .long, [2], 0, []⟩]
  next := 8

theorem piece_fields (jpeg : Bool) :
    ∀ f ∈ (piece jpeg).fields, f.WellFormed little ∧ f.Inline little ∧ f.values.length = 1 := by
  intro f hf
  rcases List.mem_cons.mp hf with rfl | hf
  · cases jpeg <;> exact ⟨⟨by decide, by decide, by decide, by decide, by decide, by decide⟩, by decide, rfl⟩
  · rw [List.mem_singleton.mp hf]
    cases jpeg <;> exact ⟨⟨by decide, by decide, by decide, by decide, by decide, by decide⟩, by decide, rfl⟩

theorem piece_well_formed (jpeg : Bool) : (piece jpeg).WellFormed little where
  place_le := le_refl 8
  place_lt := show 8 < 256 ^ 4 by decide
  count_lt := show 2 < 256 ^ 2 by decide
  fields := fun f hf => (piece_fields jpeg f hf).1
  tags_nodup := by cases jpeg <;> decide

theorem links_piece (jpeg : Bool) : (piece jpeg).links = [8] := by cases jpeg <;> rfl

/-- A file of one directory, which is its own next one. -/
def pieceFile (jpeg : Bool) : TiffFile where
  layout := little
  first := 8
  directories := [piece jpeg]
  well_formed := List.forall_mem_singleton.mpr (piece_well_formed jpeg)
  places_nodup := List.nodup_singleton _
  first_mem := List.mem_singleton_self _
  links_mem := List.forall_mem_singleton.mpr fun x hx => by rwa [links_piece] at hx
  reachable := List.forall_mem_singleton.mpr .refl

theorem pieceFile_limited (jpeg : Bool) : (pieceFile jpeg).Limited where
  directories := show 1 ≤ 4096 by decide
  fields := show 2 ≤ 2 ^ 20 by decide
  subDirectories := List.forall_mem_singleton.mpr fun f hf _ => (piece_fields jpeg f hf).2.2.trans_le (by decide)
  pieces := List.forall_mem_singleton.mpr fun f hf _ => (piece_fields jpeg f hf).2.2.trans_le (by decide)

theorem length_pieceBytes (jpeg : Bool) :
    ((pieceFile jpeg).header ++ ((piece jpeg).bytes little ++ [0xff, 0xd8])).length < 2 ^ 63 := by
  cases jpeg <;> decide

def pieceSource (jpeg : Bool) : Source where
  data := (pieceFile jpeg).header ++ ((piece jpeg).bytes little ++ [0xff, 0xd8])
  size_lt := length_pieceBytes jpeg

def pieceRoom : Room := ⟨0, 40, by decide, by decide⟩

theorem pieceFile_stored (jpeg : Bool) : (pieceFile jpeg).StoredIn (pieceSource jpeg) pieceRoom where
  header := (stored_of_data [] rfl).left
  directory := List.forall_mem_singleton.mpr (by
    have hbehind : Stored (pieceSource jpeg) 0
        ((pieceFile jpeg).header ++ ((piece jpeg).bytes little ++ [0xff, 0xd8])) := List.prefix_refl _
    have hlength : (pieceFile jpeg).header.length = 8 := by cases jpeg <;> rfl
    have hdirectory := hbehind.right.left
    rwa [hlength] at hdirectory)
  data := List.forall_mem_singleton.mpr fun f hf hout => absurd (piece_fields jpeg f hf).2.1 hout
  within := by cases jpeg <;> decide

/-- A file that ends with a strip is carved to the end of the strip. -/
theorem strip_carved : tiffLength .release (pieceSource false) 0 40 = .ok (some 40) :=
  (tiffLength_exact .release (pieceSource false) pieceRoom (pieceFile false) (fun _ _ => rfl) (pieceFile_limited false)
    (pieceFile_stored false)).mpr (by decide)

/-- A JPEG stream at the end of a file is cut off. -/
theorem jpeg_cut : tiffLength .release (pieceSource true) 0 40 = .ok (some 38) ∧ (pieceFile true).stop = 40 ∧
    (pieceFile true).Limited ∧ (pieceFile true).StoredIn (pieceSource true) pieceRoom ∧ (pieceSource true).Reliable :=
  ⟨tiffLength_stored (fun _ _ => rfl) (pieceFile_limited true) (pieceFile_stored true), rfl, pieceFile_limited true,
    pieceFile_stored true, fun _ _ => rfl⟩

end Sample

end Unearth.TiffFormat
