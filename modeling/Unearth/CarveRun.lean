import Unearth.CarveSteps

/-!
# Runs and sessions

A run passes through the states at the heads of its chunks and comes to matches inside of
them. What every match preserves holds all along the run and when it ends. A session is a
row of runs of which each resumes from a checkpoint of the one before.
-/

namespace Unearth
open Bytes Word Loop

/-- One run: what it looks for and how, when it is cancelled and what it is seeded with. -/
structure Attempt where
  active : List Signature
  opts : CarveOptions
  cancelled : ℕ → Bool := fun _ => false
  seed : List Digest := []

section Attempts

variable (b : Build) (fmt : Formats) (src : Source)

namespace Attempt

def start (a : Attempt) (disk : CarveDisk) : CarveState := startState src a.opts a.seed disk

def body (a : Attempt) (sc : Scanner) : CarveState → Ctl CarveState (Exec CarveState) :=
  carveBody b fmt src a.opts a.cancelled sc

/-- The run comes to the head of a chunk in state `s`. -/
def Reach (a : Attempt) (disk : CarveDisk) (s : CarveState) : Prop :=
  ∃ sc, Scanner.build b a.active SCAN_CHUNK = .ok sc ∧
    Reaches (a.body b fmt src sc) (a.start src disk) s

/-- The run comes to a match at position `q` with the variables `c`, in a chunk at `abs`. -/
def Visits (a : Attempt) (disk : CarveDisk) (s : CarveState) (q : ℕ) (sig : Signature)
    (c : Carving) : Prop :=
  ∃ sc, Scanner.build b a.active SCAN_CHUNK = .ok sc ∧
    Reaches (a.body b fmt src sc) (a.start src disk) s ∧
    s.abs < a.opts.stop src ∧ a.cancelled s.polls = false ∧
    ChunkVisits b src sc (a.opts.stop src) (visit b fmt src a.opts (a.opts.stop src)) s.abs s.carving
      q sig c

def Ends (a : Attempt) (disk : CarveDisk) (t : CarveState) : Prop :=
  ∃ fuel, carve b fmt src a.active a.opts a.cancelled a.seed disk fuel = some (.ok t)

/-- The decision of the run about a match. -/
def judge (a : Attempt) (sig : Signature) (q : ℕ) (c : Carving) : Exec (Carving × Bool) :=
  candidate b fmt src a.opts (a.opts.stop src) sig q c

end Attempt

end Attempts

section Steps

variable {b : Build} {fmt : Formats} {src : Source} {a : Attempt} {disk : CarveDisk}

theorem stop_le (opts : CarveOptions) : opts.stop src ≤ src.size := min_le_right _ _

theorem stop_lt (opts : CarveOptions) : opts.stop src < 2 ^ 64 :=
  ((stop_le opts).trans_lt src.size_lt).trans (by decide)

theorem first_le (opts : CarveOptions) : opts.first src ≤ opts.stop src := min_le_right _ _

@[simp] theorem save_abs (s : CarveState) (opts : CarveOptions) : (s.save src opts).abs = s.abs := by
  unfold CarveState.save
  split_ifs <;> rfl

@[simp] theorem save_carving (s : CarveState) (opts : CarveOptions) :
    (s.save src opts).carving = s.carving := by
  unfold CarveState.save
  split_ifs <;> rfl

@[simp] theorem save_polls (s : CarveState) (opts : CarveOptions) :
    (s.save src opts).polls = s.polls := by
  unfold CarveState.save
  split_ifs <;> rfl

theorem save_checkpoint {opts : CarveOptions} (h : opts.checkpoint = true) (s : CarveState) :
    (s.save src opts).checkpoint = some (writeCheckpoint s.abs (opts.stop src) s.carving.skipUntil
      s.carving.stats s.carving.seen opts.dedup) := by
  rw [CarveState.save, if_pos h]

theorem save_save (s : CarveState) (opts : CarveOptions) :
    (s.save src opts).save src opts = s.save src opts := by
  unfold CarveState.save
  split_ifs <;> rfl

@[simp] theorem advance_abs (s : CarveState) (opts : CarveOptions) (abs : ℕ) (c : Carving) :
    (s.advance src opts abs c).abs = abs := by
  unfold CarveState.advance
  dsimp only
  split_ifs <;> simp

@[simp] theorem advance_polls (s : CarveState) (opts : CarveOptions) (abs : ℕ) (c : Carving) :
    (s.advance src opts abs c).polls = s.polls + 1 := by
  unfold CarveState.advance
  dsimp only
  split_ifs <;> simp

@[simp] theorem advance_carving (s : CarveState) (opts : CarveOptions) (abs : ℕ) (c : Carving) :
    (s.advance src opts abs c).carving =
      { c with stats := { c.stats with bytesScanned := abs - opts.first src } } := by
  unfold CarveState.advance
  dsimp only
  split_ifs <;> simp

theorem carveBody_next {opts : CarveOptions} {cancelled : ℕ → Bool} {sc : Scanner}
    {s s' : CarveState} (h : carveBody b fmt src opts cancelled sc s = .next s') :
    s.abs < opts.stop src ∧ cancelled s.polls = false ∧ ∃ abs c,
      scanChunk b src sc (opts.stop src) (visit b fmt src opts (opts.stop src)) s.abs s.carving =
        .advance abs c ∧ s' = s.advance src opts abs c := by
  unfold carveBody at h
  split_ifs at h with habs hc
  split at h
  · cases h
  · cases h
  · cases h
  · rename_i abs c hscan
    cases h
    exact ⟨habs, by simpa using hc, abs, c, hscan, rfl⟩

theorem carveBody_done {opts : CarveOptions} {cancelled : ℕ → Bool} {sc : Scanner}
    {s t : CarveState} (h : carveBody b fmt src opts cancelled sc s = .done (.ok t)) :
    t = s.save src opts ∨ (s.abs < opts.stop src ∧ cancelled s.polls = false ∧ ∃ c,
      scanChunk b src sc (opts.stop src) (visit b fmt src opts (opts.stop src)) s.abs s.carving =
        .exit (.ok c) ∧ t = { s with carving := c }.save src opts) := by
  unfold carveBody at h
  split_ifs at h with habs hc
  · cases h
    exact .inl rfl
  · split at h
    · cases h
    · rename_i c hscan
      cases h
      exact .inr ⟨habs, by simpa using hc, c, hscan, rfl⟩
    · cases h
      exact .inl rfl
    · cases h
  · cases h
    exact .inl rfl

theorem visit_next {opts : CarveOptions} {scanEnd q : ℕ} {sig : Signature} {c c' : Carving}
    (h : visit b fmt src opts scanEnd q sig c = .next c') :
    candidate b fmt src opts scanEnd sig q c = .ok (c', false) := by
  unfold visit at h
  split at h
  · cases h
  · rename_i hc
    cases h
    exact hc
  · cases h

theorem visit_done {opts : CarveOptions} {scanEnd q : ℕ} {sig : Signature} {c c' : Carving}
    (h : visit b fmt src opts scanEnd q sig c = .done (.ok c')) :
    candidate b fmt src opts scanEnd sig q c = .ok (c', true) := by
  unfold visit at h
  split at h
  · cases h
  · cases h
  · rename_i hc
    cases h
    exact hc

/-- A chunk ends no later than the scan. -/
theorem scanChunk_le {sc : Scanner} {scanEnd abs abs' : ℕ} {s s' : Carving}
    {visit : Visit Carving Carving} (habs : abs ≤ scanEnd)
    (h : scanChunk b src sc scanEnd visit abs s = .advance abs' s') : abs' ≤ scanEnd := by
  unfold scanChunk at h
  split at h
  · cases h
  · cases h
  · rename_i buf limit hne hread
    split at h
    · cases h
      obtain ⟨bytes, hb, hread⟩ := exec_bind_ok hread
      have hlen : bytes.length ≤ scanEnd - abs := by
        rw [Source.readAt_ok hb, length_window]
        omega
      cases hread
      split_ifs <;> omega
    · cases h

namespace Attempt

theorem start_le : (a.start src disk).abs ≤ a.opts.stop src := by
  have hfirst : a.opts.first src ≤ a.opts.stop src := first_le a.opts
  unfold start startState
  split
  · exact hfirst
  · exact max_le hfirst (min_le_right _ _)

theorem Reach.abs_le {s : CarveState} (h : a.Reach b fmt src disk s) : s.abs ≤ a.opts.stop src := by
  obtain ⟨sc, -, hr⟩ := h
  refine hr.inv (I := fun s => s.abs ≤ a.opts.stop src) (fun s s' hs hb => ?_) start_le
  obtain ⟨-, -, abs, c, hscan, rfl⟩ := carveBody_next hb
  rw [advance_abs]
  exact scanChunk_le hs hscan

theorem Visits.reach {s : CarveState} {q : ℕ} {sig : Signature} {c : Carving}
    (h : a.Visits b fmt src disk s q sig c) : a.Reach b fmt src disk s := by
  obtain ⟨sc, hb, hr, -⟩ := h
  exact ⟨sc, hb, hr⟩

theorem Visits.bounds {s : CarveState} {q : ℕ} {sig : Signature} {c : Carving}
    (h : a.Visits b fmt src disk s q sig c) : s.abs ≤ q ∧ q < a.opts.stop src := by
  obtain ⟨sc, -, -, habs, -, hv⟩ := h
  exact chunkVisits_bounds habs hv

theorem Visits.lt {s : CarveState} {q : ℕ} {sig : Signature} {c : Carving}
    (h : a.Visits b fmt src disk s q sig c) : q < 2 ^ 64 := h.bounds.2.trans (stop_lt _)

theorem Visits.active {s : CarveState} {q : ℕ} {sig : Signature} {c : Carving}
    (h : a.Visits b fmt src disk s q sig c) : sig ∈ a.active := by
  obtain ⟨sc, hb, -, -, -, hv⟩ := h
  exact chunkVisits_active hb hv

variable (b fmt src a disk) in
/-- What every match of a run preserves: `I` when the run goes on and `J` when it ends. They
speak of positions below `p`, and of nothing that the count of the scanned bytes changes. -/
structure Kept (I J : ℕ → Carving → Prop) : Prop where
  mono : ∀ p q c, p ≤ q → I p c → I q c
  scanned : ∀ p c n, I p c → I p { c with stats := { c.stats with bytesScanned := n } }
  next : ∀ s q sig c c', a.Visits b fmt src disk s q sig c → I q c →
    a.judge b fmt src sig q c = .ok (c', false) → I (q + 1) c'
  full : ∀ s q sig c c', a.Visits b fmt src disk s q sig c → I q c →
    a.judge b fmt src sig q c = .ok (c', true) → J (q + 1) c'
  weaken : ∀ p c, I p c → J p c
  start : I (a.start src disk).abs (a.start src disk).carving

namespace Kept

variable {I J : ℕ → Carving → Prop} (k : a.Kept b fmt src disk I J)

include k in
/-- By induction on the chunks that were scanned. -/
theorem reach {s : CarveState} (h : a.Reach b fmt src disk s) : I s.abs s.carving := by
  obtain ⟨sc, hb, hr⟩ := h
  induction hr with
  | refl => exact k.start
  | @tail s s' hr hbody ih =>
    obtain ⟨habs, hc, abs, c, hscan, rfl⟩ := carveBody_next hbody
    have hchunk := scanChunk_inv k.mono
      (fun q sig c c' hv hI hn => k.next s q sig c c' ⟨sc, hb, hr, habs, hc, hv⟩ hI
        (visit_next hn)) ih
    rw [hscan] at hchunk
    rw [advance_abs, advance_carving]
    exact k.scanned _ _ _ hchunk.2

include k in
theorem visits {s : CarveState} {q : ℕ} {sig : Signature} {c : Carving}
    (h : a.Visits b fmt src disk s q sig c) : I q c := by
  have hs := k.reach h.reach
  obtain ⟨sc, hb, hr, habs, hc, hv⟩ := h
  exact chunkVisits_inv k.mono (fun q sig c c' hv hI hn =>
    k.next s q sig c c' ⟨sc, hb, hr, habs, hc, hv⟩ hI (visit_next hn)) hs hv

end Kept

/-- A run ends at the head of a chunk, or inside of one with the match that fills the limit. -/
theorem Ends.cases {t : CarveState} (h : a.Ends b fmt src disk t) :
    ∃ s, a.Reach b fmt src disk s ∧ (t = s.save src a.opts ∨
      ∃ q sig c c', a.Visits b fmt src disk s q sig c ∧
        a.judge b fmt src sig q c = .ok (c', true) ∧ t = { s with carving := c' }.save src a.opts) := by
  obtain ⟨fuel, hrun⟩ := h
  unfold carve at hrun
  split at hrun
  · cases hrun
  · rename_i sc hb
    obtain ⟨s, hr, hd⟩ := exists_reaches_of_run hrun
    refine ⟨s, ⟨sc, hb, hr⟩, ?_⟩
    rcases carveBody_done hd with ht | ⟨habs, hc, c, hscan, ht⟩
    · exact .inl ht
    · have htrivial : ∀ q sig (c c' : Carving), ChunkVisits b src sc (a.opts.stop src)
          (visit b fmt src a.opts (a.opts.stop src)) s.abs s.carving q sig c → True →
            visit b fmt src a.opts (a.opts.stop src) q sig c = .next c' → True :=
        fun _ _ _ _ _ _ _ => trivial
      have hchunk := scanChunk_inv (I := fun _ _ => True) (fun _ _ _ _ _ => trivial) htrivial trivial
      rw [hscan] at hchunk
      rcases hchunk with ⟨f, hf⟩ | ⟨q, sig, c₀, hv, hdone⟩
      · cases hf
      · exact .inr ⟨q, sig, c₀, c, ⟨sc, hb, hr, habs, hc, hv⟩, visit_done hdone, ht⟩

theorem Ends.saved {t : CarveState} (h : a.Ends b fmt src disk t) : t.save src a.opts = t := by
  obtain ⟨s, -, ht | ⟨q, sig, c, c', -, -, ht⟩⟩ := h.cases
  · rw [ht, save_save]
  · rw [ht, save_save]

theorem Ends.abs_le {t : CarveState} (h : a.Ends b fmt src disk t) : t.abs ≤ a.opts.stop src := by
  obtain ⟨s, hs, ht | ⟨q, sig, c, c', -, -, ht⟩⟩ := h.cases
  · rw [ht, save_abs]
    exact hs.abs_le
  · rw [ht, save_abs]
    exact hs.abs_le

theorem Kept.ends {I J : ℕ → Carving → Prop} (k : a.Kept b fmt src disk I J) {t : CarveState}
    (h : a.Ends b fmt src disk t) : ∃ p, t.abs ≤ p ∧ J p t.carving := by
  obtain ⟨s, hs, ht | ⟨q, sig, c, c', hv, hd, ht⟩⟩ := h.cases
  · exact ⟨s.abs, by simp [ht], by simpa [ht] using k.weaken _ _ (k.reach hs)⟩
  · refine ⟨q + 1, ?_, ?_⟩
    · have := hv.bounds.1
      simp only [ht, save_abs]
      omega
    · simpa [ht] using k.full s q sig c c' hv (k.visits hv) hd

variable (b fmt src a disk) in
/-- A state at the head of a chunk or at the end of the run. -/
def Leaves (t : CarveState) : Prop := a.Reach b fmt src disk t ∨ a.Ends b fmt src disk t

theorem Leaves.abs_le {t : CarveState} (h : a.Leaves b fmt src disk t) :
    t.abs ≤ a.opts.stop src := h.elim Reach.abs_le Ends.abs_le

theorem Kept.leaves {I J : ℕ → Carving → Prop} (k : a.Kept b fmt src disk I J) {t : CarveState}
    (h : a.Leaves b fmt src disk t) : ∃ p, t.abs ≤ p ∧ J p t.carving := by
  rcases h with h | h
  · exact ⟨t.abs, le_rfl, k.weaken _ _ (k.reach h)⟩
  · exact k.ends h

end Attempt

/-- The run goes on from the checkpoint on the disk, if there is one. -/
def Attempt.Resumes (a : Attempt) (disk : CarveDisk) : Prop :=
  (a.opts.resume = true ∧ a.opts.checkpoint = true) ∨ disk.checkpoint = none

/-- What is left of a row of runs, of which each meets `P` at every match it comes to, and
the variables of the last one at its checkpoint. A run may go on from any checkpoint of the
one before, also when that one never ended. -/
inductive Session (b : Build) (fmt : Formats) (src : Source) (Fit : Attempt → Prop)
    (P : Attempt → CarveDisk → ℕ → Signature → Carving → Prop) : CarveDisk → Carving → Prop
  | fresh (folder : Folder) : Session b fmt src Fit P ⟨none, folder, []⟩ {}
  | next {disk : CarveDisk} {c : Carving} (h : Session b fmt src Fit P disk c)
      (a : Attempt) (hfit : Fit a) (hkeep : a.opts.checkpoint = true)
      (hresume : a.Resumes disk)
      (hP : ∀ s q sig c, a.Visits b fmt src disk s q sig c → P a disk q sig c)
      {t : CarveState} (ht : a.Leaves b fmt src disk t) (hs : t.save src a.opts = t)
      (folder : Folder) :
      Session b fmt src Fit P ⟨t.checkpoint, folder, t.carving.log⟩ t.carving

end Steps

end Unearth
