import Unearth.LengthFields

/-!
# The update sequence of an NTFS record

Every sector of a record ends in the number that its update sequence array starts with, and
the array holds the bytes that belong there. A tail that differs is a torn write: the record
is rejected and left as it is.
-/

namespace Unearth.Ntfs
open Bytes Word

def usaOff (rec : List UInt8) : ℕ := le (window rec 4 2)
def usaCount (rec : List UInt8) : ℕ := le (window rec 6 2)

section Fixup

variable (off bps : ℕ)

/-- The `i`-th entry of the array and the `i`-th sector lie in a record of this length. -/
def InRecord (len i : ℕ) : Prop := off + i * 2 + 2 ≤ len ∧ 2 ≤ i * bps ∧ i * bps ≤ len

instance (len i : ℕ) : Decidable (InRecord off bps len i) := inferInstanceAs (Decidable (_ ∧ _ ∧ _))

/-- The tails of the sectors from the `i`-th one on hold the sequence number. -/
def tailsMatch (rec usn : List UInt8) : ℕ → ℕ → Bool
  | _, 0 => true
  | i, n + 1 =>
    if InRecord off bps rec.length i then
      window rec (i * bps - 2) 2 = usn && tailsMatch rec usn (i + 1) n
    else true

/-- The tails of the sectors from the `i`-th one on, put in place. -/
def patchTails : ℕ → ℕ → List UInt8 → List UInt8
  | _, 0, rec => rec
  | i, n + 1, rec =>
    if InRecord off bps rec.length i then
      patchTails (i + 1) n (writeAt rec (i * bps - 2) (window rec (off + i * 2) 2))
    else rec

end Fixup

def applyFixup (rec : List UInt8) (bps : ℕ) : Bool × List UInt8 :=
  if rec.length < 8 then (true, rec)
  else
    let off := usaOff rec
    let count := usaCount rec
    if count = 0 ∨ rec.length < off + 2 then (true, rec)
    else if tailsMatch off bps rec (window rec off 2) 1 (count - 1) then
      (true, patchTails off bps 1 (count - 1) rec)
    else (false, rec)

/-- The `i`-th sector lies in the record, and so does the entry of the array for it. -/
structure Covered (rec : List UInt8) (bps i : ℕ) : Prop where
  header : 8 ≤ rec.length
  sector : 2 ≤ bps
  counted : 1 ≤ i ∧ i < usaCount rec
  entry : usaOff rec + i * 2 + 2 ≤ rec.length
  tail : i * bps ≤ rec.length

/-- The record is rejected and left alone, or the tails of its sectors, and nothing else, are
replaced by the bytes that the array of the record holds for them. -/
structure AllOrNothing (rec : List UInt8) (bps : ℕ) : Prop where
  rejected : (applyFixup rec bps).1 = false → (applyFixup rec bps).2 = rec
  length : (applyFixup rec bps).2.length = rec.length
  tails : (applyFixup rec bps).1 = true → ∀ i, Covered rec bps i → ∀ s < 2,
    byteAt (applyFixup rec bps).2 (i * bps - 2 + s) = byteAt rec (usaOff rec + i * 2 + s)
  others : ∀ k, (∀ i, Covered rec bps i → ∀ s < 2, k ≠ i * bps - 2 + s) →
    byteAt (applyFixup rec bps).2 k = byteAt rec k

/-- Every sector that the array covers ends in the sequence number. -/
def Whole (rec : List UInt8) (bps : ℕ) : Prop :=
  ∀ i, Covered rec bps i → window rec (i * bps - 2) 2 = window rec (usaOff rec) 2

/-- An entry of the array that lies across the tail of a sector before its own holds there
what the array holds for that tail. -/
def Unlapped (rec : List UInt8) (bps : ℕ) : Prop :=
  Whole rec bps → ∀ i j, Covered rec bps i → Covered rec bps j → j < i → ∀ s < 2, ∀ t < 2,
    usaOff rec + i * 2 + t = j * bps - 2 + s →
    byteAt rec (usaOff rec + i * 2 + t) = byteAt rec (usaOff rec + j * 2 + s)

section Patch

variable {rec usn : List UInt8} {off bps : ℕ}

theorem InRecord.mono {len i j : ℕ} (h : InRecord off bps len j) (hi : 1 ≤ i) (hij : i ≤ j)
    (hbps : 2 ≤ bps) : InRecord off bps len i := by
  obtain ⟨hentry, -, htail⟩ := h
  have hle := Nat.mul_le_mul_right bps hij
  have hone := Nat.mul_le_mul_right bps hi
  exact ⟨by omega, by omega, by omega⟩

/-- The tails of two sectors have no byte in common. -/
theorem tail_ne {i j s t : ℕ} (hbps : 2 ≤ bps) (hi : 1 ≤ i) (hij : i < j) (hs : s < 2) :
    i * bps - 2 + s ≠ j * bps - 2 + t := by
  have hle := Nat.mul_le_mul_right bps (show i + 1 ≤ j by omega)
  have hone := Nat.mul_le_mul_right bps hi
  rw [Nat.add_mul] at hle
  omega

theorem tailsMatch_iff {i n : ℕ} (hi : 1 ≤ i) (hbps : 2 ≤ bps) :
    tailsMatch off bps rec usn i n = true ↔
      ∀ j, i ≤ j → j < i + n → InRecord off bps rec.length j → window rec (j * bps - 2) 2 = usn := by
  induction n generalizing i with
  | zero =>
    refine iff_of_true rfl fun j hij hj => ?_
    omega
  | succ n ih =>
    unfold tailsMatch
    by_cases hin : InRecord off bps rec.length i
    · rw [if_pos hin, Bool.and_eq_true, decide_eq_true_iff, ih (by omega)]
      constructor
      · rintro ⟨hfirst, hrest⟩ j hij hj hjin
        by_cases hji : j = i
        · rw [hji]
          exact hfirst
        · exact hrest j (by omega) (by omega) hjin
      · intro h
        exact ⟨h i le_rfl (by omega) hin, fun j hij hj => h j (by omega) (by omega)⟩
    · rw [if_neg hin]
      refine iff_of_true rfl fun j hij hj hjin => ?_
      exact absurd (hjin.mono hi hij hbps) hin

/-- What one patch changes. -/
theorem patch_step {i : ℕ} {r : List UInt8} (hin : InRecord off bps r.length i) :
    (writeAt r (i * bps - 2) (window r (off + i * 2) 2)).length = r.length ∧
    (∀ t < 2, byteAt (writeAt r (i * bps - 2) (window r (off + i * 2) 2)) (i * bps - 2 + t) =
      byteAt r (off + i * 2 + t)) ∧
    ∀ k, (∀ s < 2, k ≠ i * bps - 2 + s) →
      byteAt (writeAt r (i * bps - 2) (window r (off + i * 2) 2)) k = byteAt r k := by
  obtain ⟨hentry, hsector, htail⟩ := hin
  have hlen : (window r (off + i * 2) 2).length = 2 := by
    rw [length_window]
    omega
  refine ⟨length_writeAt (by omega), fun t ht => ?_, fun k hk => ?_⟩
  · rw [byteAt_writeAt, if_pos (by omega), byteAt_window, Nat.add_sub_cancel_left, if_pos ht]
  · have h0 := hk 0 (by omega)
    have h1 := hk 1 (by omega)
    rw [byteAt_writeAt, if_neg (by omega)]

/-- The record before the `j`-th patch, seen from the record after all of them: it differs
from the one before them only in the tails patched so far, which have their last bytes. -/
structure Midway (off bps : ℕ) (r r' q : List UInt8) (i j : ℕ) : Prop where
  patched : ∀ t < 2, byteAt r' (j * bps - 2 + t) = byteAt q (off + j * 2 + t)
  kept : ∀ k, (∀ l, i ≤ l → l < j → ∀ s < 2, k ≠ l * bps - 2 + s) → byteAt q k = byteAt r k
  final : ∀ l, i ≤ l → l < j → ∀ s < 2, byteAt q (l * bps - 2 + s) = byteAt r' (l * bps - 2 + s)

theorem patchTails_kept (off bps i n : ℕ) (r : List UInt8) :
    (patchTails off bps i n r).length = r.length ∧
    ∀ k, (∀ j, i ≤ j → j < i + n → (∀ l, i ≤ l → l ≤ j → InRecord off bps r.length l) →
      ∀ s < 2, k ≠ j * bps - 2 + s) → byteAt (patchTails off bps i n r) k = byteAt r k := by
  induction n generalizing i r with
  | zero => exact ⟨rfl, fun _ _ => rfl⟩
  | succ n ih =>
    unfold patchTails
    by_cases hin : InRecord off bps r.length i
    · rw [if_pos hin]
      obtain ⟨hlen, -, hothers⟩ := patch_step hin
      obtain ⟨ihlen, ihkept⟩ := ih (i + 1) (writeAt r (i * bps - 2) (window r (off + i * 2) 2))
      refine ⟨ihlen.trans hlen, fun k hk => ?_⟩
      rw [ihkept k fun j hij hj hcov s hs => ?_, hothers k fun s hs => ?_]
      · exact hk i le_rfl (by omega) (fun l hil hli => (le_antisymm hli hil) ▸ hin) s hs
      · apply hk j (by omega) (by omega) _ s hs
        intro l hil hlj
        by_cases hli : l = i
        · rw [hli]
          exact hin
        · rw [← hlen]
          exact hcov l (by omega) hlj
    · rw [if_neg hin]
      exact ⟨rfl, fun _ _ => rfl⟩

theorem patchTails_midway {i n : ℕ} {r : List UInt8} (hi : 1 ≤ i) (hbps : 2 ≤ bps) {j : ℕ} (hij : i ≤ j)
    (hj : j < i + n) (hin : InRecord off bps r.length j) :
    ∃ q, Midway off bps r (patchTails off bps i n r) q i j := by
  induction n generalizing i r with
  | zero => omega
  | succ n ih =>
    have hfirst := hin.mono hi hij hbps
    unfold patchTails
    rw [if_pos hfirst]
    obtain ⟨hlen, htail, hothers⟩ := patch_step hfirst
    generalize writeAt r (i * bps - 2) (window r (off + i * 2) 2) = r₁ at hlen htail hothers ⊢
    -- The tail of the first sector is left alone by the later patches.
    have hkeep : ∀ s < 2, byteAt (patchTails off bps (i + 1) n r₁) (i * bps - 2 + s) =
        byteAt r₁ (i * bps - 2 + s) := by
      intro s hs
      apply (patchTails_kept off bps (i + 1) n r₁).2
      intro j' hij' _ _ s' _
      exact tail_ne hbps hi (by omega) hs
    by_cases hji : j = i
    · subst hji
      refine ⟨r, fun t ht => ?_, fun _ _ => rfl, fun l hl hlj => ?_⟩
      · rw [hkeep t ht, htail t ht]
      · omega
    · obtain ⟨q, hq⟩ := ih (i := i + 1) (r := r₁) (by omega) (by omega) (by omega) (hlen ▸ hin)
      refine ⟨q, hq.patched, fun k hk => ?_, fun l hl hlj s hs => ?_⟩
      · rw [hq.kept k fun l hl hlj => hk l (by omega) hlj]
        exact hothers k (hk i le_rfl (by omega))
      · by_cases hli : l = i
        · subst hli
          rw [hkeep s hs]
          apply hq.kept
          intro l' hl' _ s' _
          exact tail_ne hbps hi (by omega) hs
        · exact hq.final l (by omega) hlj s hs

end Patch

section Verdict

variable {rec : List UInt8} {bps : ℕ}

theorem Covered.inRecord {i : ℕ} (h : Covered rec bps i) :
    InRecord (usaOff rec) bps rec.length i := by
  obtain ⟨-, hsector, ⟨hi, -⟩, hentry, htail⟩ := h
  have hone := Nat.mul_le_mul_right bps hi
  exact ⟨hentry, by omega, htail⟩

theorem covered_of_inRecord {i : ℕ} (hlen : 8 ≤ rec.length) (hbps : 2 ≤ bps) (hi : 1 ≤ i)
    (hcount : i < 1 + (usaCount rec - 1)) (h : InRecord (usaOff rec) bps rec.length i) :
    Covered rec bps i :=
  ⟨hlen, hbps, ⟨hi, by omega⟩, h.1, h.2.2⟩

/-- A record without an array is accepted, and one with an array is when it is whole. -/
theorem applyFixup_eq (rec : List UInt8) (bps : ℕ) :
    (¬ Whole rec bps ∧ applyFixup rec bps = (false, rec)) ∨
    (Whole rec bps ∧ (∃ i, Covered rec bps i) ∧
      applyFixup rec bps = (true, patchTails (usaOff rec) bps 1 (usaCount rec - 1) rec)) ∨
    (Whole rec bps ∧ (¬ ∃ i, Covered rec bps i) ∧ applyFixup rec bps = (true, rec)) := by
  by_cases hcov : ∃ i, Covered rec bps i
  · obtain ⟨i, hi⟩ := hcov
    have hentry := hi.entry
    have hwhole : tailsMatch (usaOff rec) bps rec (window rec (usaOff rec) 2) 1 (usaCount rec - 1) = true ↔
        Whole rec bps := by
      rw [tailsMatch_iff le_rfl hi.sector]
      constructor
      · intro h j hj
        have hcounted := hj.counted
        exact h j hj.counted.1 (by omega) hj.inRecord
      · intro h j h1j hj hin
        exact h j (covered_of_inRecord hi.header hi.sector h1j hj hin)
    have hcounted := hi.counted
    have hheader := hi.header
    unfold applyFixup
    dsimp only
    rw [if_neg (by omega), if_neg (by omega)]
    by_cases hw : Whole rec bps
    · right
      left
      exact ⟨hw, ⟨i, hi⟩, if_pos (hwhole.mpr hw)⟩
    · left
      exact ⟨hw, if_neg fun h => hw (hwhole.mp h)⟩
  · right
    right
    refine ⟨fun i hi => absurd ⟨i, hi⟩ hcov, hcov, ?_⟩
    have hnone : ¬ InRecord (usaOff rec) bps rec.length 1 ∨ usaCount rec - 1 = 0 ∨ rec.length < 8 := by
      by_contra hsome
      simp only [not_or, not_not] at hsome
      obtain ⟨hin, hcount, hlen⟩ := hsome
      have hbps := hin.2.1
      exact hcov ⟨1, covered_of_inRecord (by omega) (by omega) le_rfl (by omega) hin⟩
    unfold applyFixup
    dsimp only
    by_cases hlen : rec.length < 8
    · rw [if_pos hlen]
    rw [if_neg hlen]
    by_cases hcount : usaCount rec = 0 ∨ rec.length < usaOff rec + 2
    · rw [if_pos hcount]
    rw [if_neg hcount]
    cases hn : usaCount rec - 1 with
    | zero => exact if_pos rfl
    | succ n =>
      have hin : ¬ InRecord (usaOff rec) bps rec.length 1 := by
        rcases hnone with h | h | h
        · exact h
        · omega
        · omega
      simp only [tailsMatch, patchTails, hin, if_false, if_true]

theorem applyFixup_accepts_iff : (applyFixup rec bps).1 = true ↔ Whole rec bps := by
  obtain ⟨hwhole, heq⟩ | ⟨hwhole, -, heq⟩ | ⟨hwhole, -, heq⟩ := applyFixup_eq rec bps
  · rw [heq]
    exact iff_of_false nofun hwhole
  · rw [heq]
    exact iff_of_true rfl hwhole
  · rw [heq]
    exact iff_of_true rfl hwhole

theorem applyFixup_rejected (h : (applyFixup rec bps).1 = false) : applyFixup rec bps = (false, rec) := by
  obtain ⟨-, heq⟩ | ⟨-, -, heq⟩ | ⟨-, -, heq⟩ := applyFixup_eq rec bps
  · exact heq
  · rw [heq] at h
    cases h
  · rw [heq] at h
    cases h

theorem unlapped_of_allOrNothing (h : AllOrNothing rec bps) : Unlapped rec bps := by
  intro hwhole i j hi hj hji s hs t ht hpos
  have haccept := applyFixup_accepts_iff.mpr hwhole
  obtain ⟨hnot, -⟩ | ⟨-, -, heq⟩ | ⟨-, hnone, -⟩ := applyFixup_eq rec bps
  · exact absurd hwhole hnot
  · have hcounted := hi.counted
    obtain ⟨q, hq⟩ := patchTails_midway (r := rec) (n := usaCount rec - 1) le_rfl hi.sector
      hi.counted.1 (by omega) hi.inRecord
    rw [← h.tails haccept i hi t ht, ← h.tails haccept j hj s hs, heq, hq.patched t ht, hpos]
    exact hq.final j hj.counted.1 hji s hs
  · exact absurd ⟨i, hi⟩ hnone

theorem allOrNothing_of_unlapped (h : Unlapped rec bps) : AllOrNothing rec bps := by
  obtain ⟨-, heq⟩ | ⟨hwhole, ⟨i₀, hi₀⟩, heq⟩ | ⟨-, hnone, heq⟩ := applyFixup_eq rec bps
  · refine ⟨fun _ => by rw [heq], by rw [heq], fun haccept => ?_, fun _ _ => by rw [heq]⟩
    rw [heq] at haccept
    cases haccept
  · have hkept := patchTails_kept (usaOff rec) bps 1 (usaCount rec - 1) rec
    refine ⟨fun hreject => ?_, by rw [heq]; exact hkept.1, fun _ => ?_, fun k hk => ?_⟩
    · rw [heq] at hreject
      cases hreject
    · rw [heq]
      intro i
      induction i using Nat.strong_induction_on with
      | _ i ih =>
        intro hi t ht
        have hcounted := hi.counted
        obtain ⟨q, hq⟩ := patchTails_midway (r := rec) (n := usaCount rec - 1) le_rfl hi.sector
          hi.counted.1 (by omega) hi.inRecord
        dsimp only at ih ⊢
        rw [hq.patched t ht]
        by_cases hlap : ∃ l, 1 ≤ l ∧ l < i ∧ ∃ s < 2, usaOff rec + i * 2 + t = l * bps - 2 + s
        · obtain ⟨l, hl, hli, s, hs, hpos⟩ := hlap
          have hcov := covered_of_inRecord hi.header hi.sector hl (by omega)
            (hi.inRecord.mono hl hli.le hi.sector)
          rw [h hwhole i l hi hcov hli s hs t ht hpos, hpos, hq.final l hl hli s hs]
          exact ih l hli hcov s hs
        · apply hq.kept
          intro l hl hli s hs hpos
          exact hlap ⟨l, hl, hli, s, hs, hpos⟩
    · rw [heq]
      apply hkept.2
      intro j hj hjn hcov s hs
      exact hk j (covered_of_inRecord hi₀.header hi₀.sector hj hjn (hcov j hj le_rfl)) s hs
  · refine ⟨fun _ => by rw [heq], by rw [heq], fun _ i hi => ?_, fun _ _ => by rw [heq]⟩
    exact absurd ⟨i, hi⟩ hnone

end Verdict

section Protect

variable {rec usn : List UInt8} {bps : ℕ}

/-- The array lies in the first sector, clear of the fields that locate it and of the tail. -/
structure Protectable (rec : List UInt8) (bps : ℕ) : Prop where
  counted : 1 ≤ usaCount rec
  after_fields : 8 ≤ usaOff rec
  before_tail : usaOff rec + usaCount rec * 2 + 2 ≤ bps

/-- The record with the tails of its sectors saved in the array, and the sequence number in
their place and before them. -/
def protect (rec usn : List UInt8) (bps : ℕ) : List UInt8 :=
  let off := usaOff rec
  let count := usaCount rec
  (List.range rec.length).map fun k =>
    let i := (k - off) / 2
    let sector := (k + 2) / bps
    if off ≤ k ∧ k < off + 2 then byteAt usn (k - off)
    else if off ≤ k ∧ i < count ∧ i * bps ≤ rec.length then byteAt rec (i * bps - 2 + (k - off) % 2)
    else if 1 ≤ sector ∧ sector < count ∧ (k + 2) % bps < 2 ∧ sector * bps ≤ rec.length then
      byteAt usn ((k + 2) % bps)
    else byteAt rec k

/-- The fixup of a protected record puts back what was there before. -/
structure Restored (rec usn : List UInt8) (bps : ℕ) : Prop where
  accepted : (applyFixup (protect rec usn bps) bps).1 = true
  length : (applyFixup (protect rec usn bps) bps).2.length = rec.length
  bytes : ∀ k, k < usaOff rec ∨ usaOff rec + usaCount rec * 2 ≤ k →
    byteAt (applyFixup (protect rec usn bps) bps).2 k = byteAt rec k

theorem length_protect : (protect rec usn bps).length = rec.length := by
  simp only [protect, List.length_map, List.length_range]

theorem byteAt_protect {k : ℕ} (hk : k < rec.length) : byteAt (protect rec usn bps) k =
    if usaOff rec ≤ k ∧ k < usaOff rec + 2 then byteAt usn (k - usaOff rec)
    else if usaOff rec ≤ k ∧ (k - usaOff rec) / 2 < usaCount rec ∧
        (k - usaOff rec) / 2 * bps ≤ rec.length then
      byteAt rec ((k - usaOff rec) / 2 * bps - 2 + (k - usaOff rec) % 2)
    else if 1 ≤ (k + 2) / bps ∧ (k + 2) / bps < usaCount rec ∧ (k + 2) % bps < 2 ∧
        (k + 2) / bps * bps ≤ rec.length then byteAt usn ((k + 2) % bps)
    else byteAt rec k := by
  rw [byteAt, List.getD_eq_getElem?_getD, protect, List.getElem?_map, List.getElem?_range hk]
  rfl

/-- The fields that locate the array are not in it, and in no tail. -/
theorem byteAt_protect_fields {k : ℕ} (h : Protectable rec bps) (hk : k < 8) :
    byteAt (protect rec usn bps) k = byteAt rec k := by
  obtain ⟨hcounted, hafter, hbefore⟩ := h
  by_cases hlen : k < rec.length
  · have hsector : (k + 2) / bps = 0 := Nat.div_eq_of_lt (by omega)
    rw [byteAt_protect hlen, if_neg (by omega), if_neg (by omega), if_neg (by omega)]
  · have hplen : (protect rec usn bps).length = rec.length := length_protect
    rw [byteAt_of_length_le (by omega), byteAt_of_length_le (by omega)]

theorem byteAt_protect_tail {i s : ℕ} (h : Protectable rec bps) (hi : Covered rec bps i) (hs : s < 2) :
    byteAt (protect rec usn bps) (i * bps - 2 + s) = byteAt usn s := by
  obtain ⟨hcounted, hafter, hbefore⟩ := h
  have htail := hi.tail
  have hone := Nat.mul_le_mul_right bps hi.counted.1
  have hsum : i * bps - 2 + s + 2 = s + bps * i := by
    rw [Nat.mul_comm bps]
    omega
  have hdiv : (i * bps - 2 + s + 2) / bps = i := by
    rw [hsum, Nat.add_mul_div_left _ _ (by omega), Nat.div_eq_of_lt (by omega), Nat.zero_add]
  have hmod : (i * bps - 2 + s + 2) % bps = s := by
    rw [hsum, Nat.add_mul_mod_self_left, Nat.mod_eq_of_lt (by omega)]
  rw [byteAt_protect (by omega), if_neg (by omega), if_neg (by omega), hdiv, hmod,
    if_pos ⟨hi.counted.1, hi.counted.2, hs, htail⟩]

theorem byteAt_protect_entry {i t : ℕ} (h : Covered rec bps i) (ht : t < 2) :
    byteAt (protect rec usn bps) (usaOff rec + i * 2 + t) = byteAt rec (i * bps - 2 + t) := by
  have hi := h.counted
  have hentry := h.entry
  have hdiv : (usaOff rec + i * 2 + t - usaOff rec) / 2 = i := by omega
  have hmod : (usaOff rec + i * 2 + t - usaOff rec) % 2 = t := by omega
  rw [byteAt_protect (by omega), if_neg (by omega), hdiv, hmod, if_pos ⟨by omega, hi.2, h.tail⟩]

/-- Outside of the array and of the tails, a protected record is what it was. -/
theorem byteAt_protect_other {k : ℕ} (h : Protectable rec bps)
    (hk : k < usaOff rec ∨ usaOff rec + usaCount rec * 2 ≤ k)
    (htails : ∀ i, Covered rec bps i → ∀ s < 2, k ≠ i * bps - 2 + s) :
    byteAt (protect rec usn bps) k = byteAt rec k := by
  obtain ⟨hcounted, hafter, hbefore⟩ := h
  by_cases hlen : k < rec.length
  · rw [byteAt_protect hlen, if_neg (by omega), if_neg (by omega), if_neg]
    rintro ⟨hsector, hcount, hmod, htail⟩
    have hone := Nat.mul_le_mul_right bps hsector
    have hdiv := Nat.div_add_mod (k + 2) bps
    rw [Nat.mul_comm] at hdiv
    exact htails ((k + 2) / bps) ⟨by omega, by omega, ⟨hsector, hcount⟩, by omega, htail⟩ _ hmod
      (by omega)
  · have hplen : (protect rec usn bps).length = rec.length := length_protect
    rw [byteAt_of_length_le (by omega), byteAt_of_length_le (by omega)]

theorem window_eq {f g : List UInt8} {a b n : ℕ} (hf : a + n ≤ f.length) (hg : b + n ≤ g.length)
    (h : ∀ i < n, byteAt f (a + i) = byteAt g (b + i)) : window f a n = window g b n := by
  have hget {f : List UInt8} {a i : ℕ} (hi : a + i < f.length) : f[a + i] = byteAt f (a + i) := by
    rw [byteAt, List.getD_eq_getElem?_getD, List.getElem?_eq_getElem hi, Option.getD_some]
  apply List.ext_getElem
  · rw [length_window, length_window]
    omega
  · intro i hi _
    rw [length_window] at hi
    simp only [window, List.getElem_take, List.getElem_drop]
    rw [hget, hget]
    exact h i (by omega)

theorem protect_fields (usn : List UInt8) (h : Protectable rec bps) (hlen : 8 ≤ rec.length) :
    usaOff (protect rec usn bps) = usaOff rec ∧ usaCount (protect rec usn bps) = usaCount rec := by
  have hplen : (protect rec usn bps).length = rec.length := length_protect
  constructor
  · unfold usaOff
    rw [window_eq (by omega) (by omega) fun i hi => byteAt_protect_fields h (by omega)]
  · unfold usaCount
    rw [window_eq (by omega) (by omega) fun i hi => byteAt_protect_fields h (by omega)]

/-- Fixing up a protected record restores it. -/
theorem protect_restored (h : Protectable rec bps) : Restored rec usn bps := by
  have hplen : (protect rec usn bps).length = rec.length := length_protect
  by_cases hlen : 8 ≤ rec.length
  · obtain ⟨hoff, hcount⟩ := protect_fields usn h hlen
    have hcovered : ∀ i, Covered (protect rec usn bps) bps i ↔ Covered rec bps i := by
      intro i
      constructor
      · rintro ⟨hheader, hsector, hcounted, hentry, htail⟩
        rw [hoff, hplen] at hentry
        rw [hcount] at hcounted
        exact ⟨hlen, hsector, hcounted, hentry, hplen ▸ htail⟩
      · rintro ⟨hheader, hsector, hcounted, hentry, htail⟩
        exact ⟨by omega, hsector, by rwa [hcount], by rwa [hoff, hplen], by rwa [hplen]⟩
    have hwhole : Whole (protect rec usn bps) bps := by
      intro i hi
      rw [hcovered] at hi
      have hone := Nat.mul_le_mul_right bps hi.counted.1
      have htail := hi.tail
      have hentry := hi.entry
      have hsector := hi.sector
      rw [hoff]
      apply window_eq (by omega) (by omega)
      intro s hs
      rw [byteAt_protect_tail h hi hs, byteAt_protect (by omega), if_pos (by omega),
        Nat.add_sub_cancel_left]
    have hunlapped : Unlapped (protect rec usn bps) bps := by
      intro _ i j hi hj _ s _ t ht hpos
      rw [hcovered] at hi hj
      rw [hoff] at hpos
      have hone := Nat.mul_le_mul_right bps hj.counted.1
      have hcounted := hi.counted
      have hbefore := h.before_tail
      omega
    have hfixed := allOrNothing_of_unlapped hunlapped
    have haccept := applyFixup_accepts_iff.mpr hwhole
    refine ⟨haccept, hfixed.length.trans hplen, fun k hk => ?_⟩
    by_cases htail : ∃ i, Covered rec bps i ∧ ∃ s < 2, k = i * bps - 2 + s
    · obtain ⟨i, hi, s, hs, rfl⟩ := htail
      rw [hfixed.tails haccept i ((hcovered i).mpr hi) s hs, hoff]
      exact byteAt_protect_entry hi hs
    · rw [hfixed.others k fun i hi s hs hpos => htail ⟨i, (hcovered i).mp hi, s, hs, hpos⟩]
      exact byteAt_protect_other h hk fun i hi s hs hpos => htail ⟨i, hi, s, hs, hpos⟩
  · -- A record that is too short for the fields of the array has no array.
    have heq : applyFixup (protect rec usn bps) bps = (true, protect rec usn bps) :=
      if_pos (by omega)
    refine ⟨by rw [heq], by rw [heq, hplen], fun k hk => ?_⟩
    rw [heq]
    exact byteAt_protect_other h hk fun i hi _ _ _ => hlen hi.header

end Protect

end Unearth.Ntfs
