import Unearth.CarveDisjoint

/-!
# Stopping at a limit of files

A run that finds as many files as it may ends inside of a chunk, and its checkpoint says the
start of that chunk. The run that resumes comes to the matches of the chunk again, and it
asks for the limit only when it has written a file.
-/

namespace Unearth
open Word Loop

/-- No match is decided twice, except as a copy. -/
def Once (log : List Decision) : Prop :=
  ((log.filter (·.outcome ≠ .duplicate)).map Decision.magicAbs).Nodup

section Limit

variable (b : Build) (fmt : Formats) (src : Source)

/-- The positions of the matches that a run comes to. -/
def Attempt.positions (a : Attempt) (disk : CarveDisk) : Set ℕ :=
  {q | ∃ s sig c, a.Visits b fmt src disk s q sig c}

/-- A run that starts with the limit reached finds no file to write, and no match that an
earlier run came to is decided again, except as a copy. -/
def Attempt.Careful (a : Attempt) (m : ℕ) (disk : CarveDisk) (c₀ : Carving) (V : Set ℕ) : Prop :=
  ∀ s q sig c fileStart len outcome, a.Visits b fmt src disk s q sig c →
    Weighs b fmt src a.opts (a.opts.stop src) sig q c fileStart len →
      Judged fmt src a.opts sig c fileStart len outcome →
        (m ≤ c₀.stats.filesRecovered → outcome ≠ .recovered) ∧ (q ∈ V → outcome = .duplicate)

/-- Runs with the same types and options and a limit of `m` files, each resumed from the
checkpoint of the one before; `V` holds the positions that they came to. -/
inductive Limited (active : List Signature) (opts : CarveOptions) (m : ℕ) :
    CarveDisk → Carving → Set ℕ → Prop
  | fresh (folder : Folder) : Limited active opts m ⟨none, folder, []⟩ {} ∅
  | next {disk : CarveDisk} {c₀ : Carving} {V : Set ℕ} (h : Limited active opts m disk c₀ V)
      (cancelled : ℕ → Bool) (seed : List Digest)
      (hcareful : (Attempt.mk active opts cancelled seed).Careful b fmt src m disk c₀ V)
      {t : CarveState} (ht : (Attempt.mk active opts cancelled seed).Ends b fmt src disk t) :
      Limited active opts m t.disk t.carving
        (V ∪ (Attempt.mk active opts cancelled seed).positions b fmt src disk)

variable {b fmt src} {a : Attempt} {disk : CarveDisk} {m : ℕ} {c₀ : Carving} {V : Set ℕ}

theorem filesRecovered_countConfidence (s : CarveStats) (conf : Confidence) :
    (s.countConfidence conf).filesRecovered = s.filesRecovered := by
  cases conf <;> rfl

theorem Tallied.filesRecovered {fileStart : ℕ} {s s' : CarveStats} {outcome : Outcome}
    (h : Tallied b fileStart s outcome s') :
    s'.filesRecovered = if outcome = .recovered then tick s.filesRecovered else s.filesRecovered := by
  cases h with
  | skippedLarge => rfl
  | rejected => rfl
  | duplicate => rfl
  | recovered f bytes hf hstart hbytes => exact filesRecovered_countConfidence _ _

theorem tick_le (n : ℕ) : tick n ≤ n + 1 := Nat.mod_le _ _

theorem Once.append {log : List Decision} (h : Once log) {d : Decision}
    (hd : d.outcome ≠ .duplicate → ∀ e ∈ log, e.magicAbs ≠ d.magicAbs) : Once (log ++ [d]) := by
  unfold Once at *
  by_cases hdup : d.outcome = .duplicate
  · simpa [List.filter_append, hdup] using h
  · have hone : [d].filter (·.outcome ≠ .duplicate) = [d] := by simp [hdup]
    rw [List.filter_append, hone, List.map_append, List.nodup_append]
    refine ⟨h, List.nodup_singleton _, ?_⟩
    intro q hq q' hq'
    obtain ⟨e, he, rfl⟩ := List.mem_map.mp hq
    rw [List.map_singleton, List.mem_singleton] at hq'
    rw [hq']
    exact hd hdup e (List.mem_of_mem_filter he)

/-- The decisions below `p`, of this run or of an earlier one. -/
structure Decided (b : Build) (fmt : Formats) (src : Source) (a : Attempt) (disk : CarveDisk)
    (V : Set ℕ) (p : ℕ) (c : Carving) : Prop where
  once : Once c.log
  positions : ∀ d ∈ c.log, d.magicAbs ∈ V ∨ d.magicAbs < p ∧ d.magicAbs ∈ a.positions b fmt src disk

/-- The limit has not been reached, or it was when the run started. -/
def Below (m : ℕ) (c₀ c : Carving) : Prop :=
  c.stats.filesRecovered < m ∨ m ≤ c₀.stats.filesRecovered ∧ c.stats.filesRecovered ≤ m

theorem Decided.judge (hcareful : a.Careful b fmt src m disk c₀ V) (hmax : a.opts.maxFiles = some m)
    {s : CarveState} {q : ℕ} {sig : Signature} {c c' : Carving} {full : Bool}
    (hv : a.Visits b fmt src disk s q sig c) (h : Decided b fmt src a disk V q c) (hb : Below m c₀ c)
    (hj : a.judge b fmt src sig q c = .ok (c', full)) :
    Decided b fmt src a disk V (q + 1) c' ∧ c'.stats.filesRecovered ≤ m ∧
      (full = false → Below m c₀ c') := by
  rcases candidate_cases hv.lt hj with ⟨rfl, -⟩ | ⟨fileStart, len, outcome, stats, skipUntil, folder,
    seen, hw, hjudged, ht, -, hfull, -, rfl⟩
  · refine ⟨⟨h.once, fun d hd => ?_⟩, ?_, fun _ => hb⟩
    · exact (h.positions d hd).imp_right fun ⟨hlt, hp⟩ => ⟨by omega, hp⟩
    · rcases hb with hb | hb
      · exact hb.le
      · exact hb.2
  · obtain ⟨hlimit, hagain⟩ := hcareful s q sig c fileStart len outcome hv hw hjudged
    refine ⟨⟨?_, fun d hd => ?_⟩, ?_⟩
    · apply h.once.append
      intro hne e he heq
      rcases h.positions e he with hV | ⟨hlt, -⟩
      · rw [heq] at hV
        exact hne (hagain hV)
      · simp only at heq
        omega
    · rcases List.mem_append.mp hd with hd | hd
      · exact (h.positions d hd).imp_right fun ⟨hlt, hp⟩ => ⟨by omega, hp⟩
      · rw [List.mem_singleton.mp hd]
        exact .inr ⟨Nat.lt_succ_self q, s, sig, c, hv⟩
    · have hfiles := ht.filesRecovered
      by_cases ho : outcome = .recovered
      · rw [if_pos ho] at hfiles
        have hlt : c.stats.filesRecovered < m := by
          rcases hb with hb | ⟨hb, -⟩
          · exact hb
          · exact absurd ho (hlimit hb)
        have htick := tick_le c.stats.filesRecovered
        refine ⟨by simp only; omega, fun hnot => .inl ?_⟩
        simp only
        by_contra hge
        have hyes := hfull.mpr ⟨.inr ho, by simpa [hmax] using hge⟩
        rw [hyes] at hnot
        cases hnot
      · rw [if_neg ho] at hfiles
        have hbelow : Below m c₀ ⟨stats, skipUntil, seen, folder,
            c.log ++ [⟨q, fileStart, len, outcome⟩]⟩ := by
          unfold Below
          simp only
          rwa [hfiles]
        refine ⟨?_, fun _ => hbelow⟩
        rcases hbelow with hb | hb
        · exact hb.le
        · exact hb.2

/-- What is left by runs with a limit. -/
structure LimitKept (m : ℕ) (disk : CarveDisk) (c₀ : Carving) (V : Set ℕ) : Prop where
  saved : Saved disk c₀
  files : c₀.stats.filesRecovered ≤ m
  once : Once disk.log
  positions : ∀ d ∈ disk.log, d.magicAbs ∈ V

theorem LimitKept.kept (h : LimitKept m disk c₀ V) (hresume : a.opts.resume = true)
    (hkeep : a.opts.checkpoint = true) (hmax : a.opts.maxFiles = some m)
    (hcareful : a.Careful b fmt src m disk c₀ V) :
    a.Kept b fmt src disk (fun p c => Decided b fmt src a disk V p c ∧ Below m c₀ c)
      fun p c => Decided b fmt src a disk V p c ∧ c.stats.filesRecovered ≤ m where
  mono p q c hle h := by
    refine ⟨⟨h.1.once, fun d hd => ?_⟩, h.2⟩
    exact (h.1.positions d hd).imp_right fun ⟨hlt, hp⟩ => ⟨hlt.trans_le hle, hp⟩
  scanned _ _ _ h := ⟨⟨h.1.once, h.1.positions⟩, h.2⟩
  next _ _ _ _ _ hv h hj := by
    obtain ⟨hd, -, hb⟩ := h.1.judge hcareful hmax hv h.2 hj
    exact ⟨hd, hb rfl⟩
  full _ _ _ _ _ hv h hj := by
    obtain ⟨hd, hm, -⟩ := h.1.judge hcareful hmax hv h.2 hj
    exact ⟨hd, hm⟩
  weaken _ _ h := by
    refine ⟨h.1, ?_⟩
    rcases h.2 with hb | hb
    · exact hb.le
    · exact hb.2
  start := by
    obtain ⟨seen, hs⟩ := @Saved.resumes src _ _ _ h.saved (.inl ⟨hresume, hkeep⟩)
    rw [hs]
    refine ⟨⟨h.once, fun d hd => .inl (h.positions d hd)⟩, ?_⟩
    have hfiles : c₀.stats.restored.filesRecovered = c₀.stats.filesRecovered := rfl
    unfold Below
    simp only [hfiles]
    have := h.files
    omega

theorem Limited.kept {active : List Signature} {opts : CarveOptions} (hresume : opts.resume = true)
    (hkeep : opts.checkpoint = true) (hmax : opts.maxFiles = some m)
    (h : Limited b fmt src active opts m disk c₀ V) : LimitKept m disk c₀ V := by
  induction h with
  | fresh folder =>
    exact ⟨.fresh folder, Nat.zero_le m, List.nodup_nil, fun d hd => absurd hd List.not_mem_nil⟩
  | next h cancelled seed hcareful ht ih =>
    have hkept := ih.kept hresume hkeep hmax hcareful
    obtain ⟨p, -, hd, hm⟩ := hkept.ends ht
    refine ⟨ih.saved.next hkeep (.inr ht) ht.saved _, hm, hd.once, fun d hmem => ?_⟩
    exact (hd.positions d hmem).imp_right And.right

end Limit

/-- The digest of a cell. -/
def cellDigest : Digest :=
  ⟨[0x0E, 0xE0, 0x1F, 0x4E, 0x20, 0xA7, 0x96, 0xE9, 0xCB, 0xC6, 0x5C, 0x2E, 0xE2, 0x51, 0xE3, 0x50,
    0xC8, 0x58, 0x0C, 0xAC, 0x23, 0x8D, 0xA4, 0x42, 0x40, 0x65, 0x3C, 0x59, 0x28, 0xD9, 0xD6, 0xD3], rfl⟩

def cellFormats : Formats := unchecked (fun _ _ _ _ _ => .ok none) fun _ => cellDigest

/-- The end of a run of two chunks at most. -/
def Attempt.short (a : Attempt) (fmt : Formats) (src : Source) (disk : CarveDisk) : Option CarveState :=
  match carve .release fmt src a.active a.opts a.cancelled a.seed disk 2 with
  | some (.ok t) => some t
  | _ => none

end Unearth
