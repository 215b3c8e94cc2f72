import Unearth.Lib.Until
import Unearth.Lib.Varint
import Unearth.LengthGguf

/-!
# Avro object containers

The metadata are a map in blocks, the data are in blocks that each end with the sync marker that
follows the metadata. The walk over the data ends before the first block that does not.
-/

namespace Unearth.Avro
open Bytes Word Loop Post Cursors Cursors.Cursor Signed

def MAGIC : List UInt8 := [0x4F, 0x62, 0x6A, 1]

def SYNC_SIZE : ℕ := 16

/-- The entries that a block of metadata may have. -/
def MAX_ENTRIES : ℕ := 2 ^ 20

section Walk

variable (b : Build) (src : Source) (r : Room)

def avroByte : Cursor Fault UInt8 := fun pos =>
  if r.limit ≤ pos then return none
  else do
    match (← src.readAt pos 1).head? with
    | none => return none
    | some x => return some (x, ← plus b pos 1)

/-- At most `n` more digits of seven bits. -/
def avroDigits : ℕ → ℕ → ℕ → Cursor Fault ℕ
  | 0, _, _ => fail
  | n + 1, shift, result => do
    let x ← avroByte b src r
    let result := result ||| ((x &&& 0x7F).toNat <<< shift) % 2 ^ 64
    if x &&& 0x80 = 0 then return result else avroDigits n (shift + 7) result

def zigzagDecode (result : ℕ) : ℤ := ((BitVec.ofNat 64 result >>> 1) ^^^ -(BitVec.ofNat 64 result &&& 1)).toInt

def avroLong : Cursor Fault ℤ := do return zigzagDecode (← avroDigits b src r 10 0 0)

/-- A length and as many bytes. -/
def avroSkip : Cursor Fault Unit := do
  let len ← avroLong b src r
  if len < 0 then fail else ggufSkip r len.toNat

/-- The entries of a block of the metadata; `false` for the end of the map. -/
def avroEntries (count : ℤ) : Cursor Fault Bool :=
  if count = 0 then return false
  else if MAX_ENTRIES < count.natAbs then fail
  else if count < 0 then do
    avroSkip b src r
    return true
  else do
    iterate (fun _ => avroSkip b src r) (satMul count.natAbs 2) ()
    return true

def avroMetaBlock : Cursor Fault Bool := do avroEntries b src r (← avroLong b src r)

def avroSync : Cursor Fault (List UInt8) := fun pos =>
  if r.limit < satAdd pos SYNC_SIZE then return none
  else do
    let sync ← src.readAt pos SYNC_SIZE
    if sync.length < SYNC_SIZE then return none
    else return some (sync, ← plus b pos SYNC_SIZE)

/-- The bytes of a data block and the sync marker again. -/
def avroObjects (sync : List UInt8) : Cursor Fault Unit := do
  avroSkip b src r
  let sm ← avroSync b src r
  if sm = sync then return () else fail

def avroBlock (sync : List UInt8) : Cursor Fault Unit := do
  let _ ← avroLong b src r
  avroObjects b src r sync

variable {b src r}

theorem avroByte_next {pos q : ℕ} {x : UInt8} (h : avroByte b src r pos = .ok (some (x, q))) :
    Stored src pos [x] ∧ q = pos + 1 ∧ q ≤ r.limit := by
  have hlimit := r.limit_lt
  unfold avroByte at h
  split_ifs at h with hend
  · cases h
  obtain ⟨bytes, hread, h⟩ := exec_bind_ok h
  have hbytes := Source.readAt_ok hread
  cases bytes with
  | nil => cases h
  | cons y rest =>
    obtain ⟨z, hz, h⟩ := exec_bind_ok h
    rw [plus_eq (by omega)] at hz
    cases hz
    cases h
    refine ⟨?_, rfl, by omega⟩
    unfold Stored
    have hprefix : x :: rest <+: src.data.drop pos := hbytes ▸ List.take_prefix _ _
    exact (List.prefix_append [x] rest).trans hprefix

/-- A read that succeeds, or fails as it is allowed to. -/
theorem ends_readAt_of {E : Fault → Prop} (hread : src.Reliable ∨ E .io) {off : ℕ} (hoff : off < 2 ^ 63) {len : ℕ} :
    Ends E (fun _ => True) (src.readAt off len) := by
  obtain hrel | hio := hread
  · rw [hrel.readAt hoff]
    trivial
  · cases h : src.readAt off len with
    | error e =>
      rw [Source.readAt_error h]
      exact hio
    | ok bytes => trivial

theorem moves_avroByte {E : Fault → Prop} (hread : src.Reliable ∨ E .io) :
    Moves E r.limit (fun _ => True) (avroByte b src r) := by
  intro pos
  have hlimit := r.limit_lt
  unfold avroByte
  refine Ends.ite (fun _ => Ends.ok fun _ _ h => (by cases h)) fun hend => ?_
  refine (ends_readAt_of hread (by omega)).bind fun bytes _ => ?_
  cases bytes.head? with
  | none => exact Ends.ok fun _ _ h => (by cases h)
  | some x =>
    dsimp only
    rw [plus_eq (by omega), exec_ok_bind]
    refine Ends.ok fun a q heq => ?_
    cases heq
    exact ⟨by omega, .inr (by omega), trivial⟩

theorem moves_avroDigits {E : Fault → Prop} (hread : src.Reliable ∨ E .io) (n shift result : ℕ) :
    Moves E r.limit (fun _ => True) (avroDigits b src r n shift result) := by
  induction n generalizing shift result with
  | zero => exact Moves.fail
  | succ n ih =>
    refine (moves_avroByte hread).bind fun x _ => ?_
    exact Moves.ite (fun _ => Moves.pure trivial) fun _ => ih _ _

theorem moves_avroLong {E : Fault → Prop} (hread : src.Reliable ∨ E .io) :
    Moves E r.limit (fun _ => True) (avroLong b src r) :=
  (moves_avroDigits hread 10 0 0).bind fun _ _ => Moves.pure trivial

theorem moves_avroSkip {E : Fault → Prop} (hread : src.Reliable ∨ E .io) :
    Moves E r.limit (fun _ => True) (avroSkip b src r) :=
  (moves_avroLong hread).bind fun len _ => Moves.ite (fun _ => Moves.fail) fun _ => moves_ggufSkip len.toNat

theorem moves_avroEntries {E : Fault → Prop} (hread : src.Reliable ∨ E .io) (count : ℤ) :
    Moves E r.limit (fun _ => True) (avroEntries b src r count) := by
  refine Moves.ite (fun _ => Moves.pure trivial) fun _ => Moves.ite (fun _ => Moves.fail) fun _ => ?_
  refine Moves.ite (fun _ => ?_) fun _ => ?_
  · exact (moves_avroSkip hread).bind fun _ _ => Moves.pure trivial
  · exact (Moves.iterate (fun _ _ => moves_avroSkip hread) _ trivial).bind fun _ _ => Moves.pure trivial

theorem moves_avroSync {E : Fault → Prop} (hread : src.Reliable ∨ E .io) :
    Moves E r.limit (fun _ => True) (avroSync b src r) := by
  intro pos
  have hlimit := r.limit_lt
  have hsize : SYNC_SIZE = 16 := rfl
  unfold avroSync
  refine Ends.ite (fun _ => Ends.ok fun _ _ h => (by cases h)) fun hend => ?_
  unfold satAdd at hend
  refine (ends_readAt_of hread (by omega)).bind fun sync _ => ?_
  refine Ends.ite (fun _ => Ends.ok fun _ _ h => (by cases h)) fun _ => ?_
  rw [plus_eq (by omega), exec_ok_bind]
  refine Ends.ok fun a q heq => ?_
  cases heq
  exact ⟨Nat.le_add_right _ _, .inr (by omega), trivial⟩

theorem moves_avroObjects {E : Fault → Prop} (hread : src.Reliable ∨ E .io) (sync : List UInt8) :
    Moves E r.limit (fun _ => True) (avroObjects b src r sync) :=
  (moves_avroSkip hread).bind fun _ _ => (moves_avroSync hread).bind fun _ _ =>
    Moves.ite (fun _ => Moves.pure trivial) fun _ => Moves.fail

theorem avroDigits_next {n shift result pos q x : ℕ} (h : avroDigits b src r n shift result pos = .ok (some (x, q))) :
    pos < q ∧ q ≤ r.limit := by
  cases n with
  | zero => cases h
  | succ n =>
    obtain ⟨y, next, hbyte, hrest⟩ := bind_ok h
    obtain ⟨-, rfl, hle⟩ := avroByte_next hbyte
    have hmove : Moves (fun _ => True) r.limit (fun _ => True)
        (if y &&& 0x80 = 0 then pure (result ||| ((y &&& 0x7F).toNat <<< shift) % 2 ^ 64)
          else avroDigits b src r n (shift + 7) (result ||| ((y &&& 0x7F).toNat <<< shift) % 2 ^ 64)) :=
      Moves.ite (fun _ => Moves.pure trivial) fun _ => moves_avroDigits (.inr trivial) n _ _
    obtain ⟨hnext, hend, -⟩ := (hmove (pos + 1)).of_ok hrest x q rfl
    omega

theorem avroLong_next {pos q : ℕ} {x : ℤ} (h : avroLong b src r pos = .ok (some (x, q))) : pos < q ∧ q ≤ r.limit := by
  obtain ⟨n, next, hdigits, hpure⟩ := bind_ok h
  cases hpure
  exact avroDigits_next hdigits

/-- What begins with a number ends behind its place. -/
theorem next_of_long {α : Type} {f : ℤ → Cursor Fault α} (hf : ∀ x, Moves (fun _ => True) r.limit (fun _ => True) (f x))
    {pos q : ℕ} {a : α} (h : (avroLong b src r >>= f) pos = .ok (some (a, q))) : pos < q ∧ q ≤ r.limit := by
  obtain ⟨x, next, hlong, hrest⟩ := bind_ok h
  obtain ⟨hlt, hle⟩ := avroLong_next hlong
  obtain ⟨hnext, hend, -⟩ := (hf x next).of_ok hrest a q rfl
  omega

variable (b src r)

def metaStep (pos : ℕ) : Exec (ℕ ⊕ Option ℕ) := do
  match ← avroMetaBlock b src r pos with
  | none => return .inr none
  | some (true, next) => return .inl next
  | some (false, next) => return .inr (some next)

def metaBlocks : Until Fault ℕ (Option ℕ) where
  step := metaStep b src r
  measure pos := r.limit - pos
  decreases pos next h := by
    unfold metaStep at h
    obtain ⟨o, ho, h⟩ := exec_bind_ok h
    cases o with
    | none => cases h
    | some x =>
      obtain ⟨more, q⟩ := x
      cases more with
      | false => cases h
      | true =>
        cases h
        obtain ⟨hlt, hle⟩ := next_of_long (moves_avroEntries (.inr trivial)) ho
        omega

/-- A block that is not one ends the data at its place. -/
def dataStep (sync : List UInt8) (pos : ℕ) : Exec (ℕ ⊕ ℕ) := do
  match ← avroBlock b src r sync pos with
  | none => return .inr pos
  | some (_, next) => return .inl next

def dataBlocks (sync : List UInt8) : Until Fault ℕ ℕ where
  step := dataStep b src r sync
  measure pos := r.limit - pos
  decreases pos next h := by
    unfold dataStep at h
    obtain ⟨o, ho, h⟩ := exec_bind_ok h
    cases o with
    | none => cases h
    | some x =>
      cases h
      obtain ⟨hlt, hle⟩ := next_of_long (fun _ => moves_avroObjects (.inr trivial) sync) ho
      omega

def avroLength : Exec (Option ℕ) := do
  let magic ← src.readAt r.start 4
  if magic.length < 4 ∨ magic ≠ MAGIC then return none
  else
    match ← (metaBlocks b src r).eval (← plus b r.start 4) with
    | none => return none
    | some pos =>
      match ← avroSync b src r pos with
      | none => return none
      | some (sync, pos) =>
        let stop ← (dataBlocks b src r sync).eval pos
        return some (← minus b stop r.start)

end Walk

section Numbers

variable {b : Build} {src : Source} {r : Room}

/-- A number in at most ten digits; what is beyond the word is lost. -/
structure Long where
  digits : List (Fin 128)
  ne : digits ≠ []
  length_le : digits.length ≤ 10

namespace Long

def bytes (v : Long) : List UInt8 := Varint.bytes v.digits

def value (v : Long) : ℤ := Varint.unzigzag (Varint.value v.digits % 2 ^ 64)

end Long

/-- The shortest bytes of a number. -/
def encodeLong (x : ℤ) : List UInt8 := Varint.bytes (Varint.digits (Varint.zigzag x))

theorem last_digit : ∀ d : Fin 128, (UInt8.ofNat d &&& 0x7F).toNat = d ∧ UInt8.ofNat d &&& 0x80 = 0 := by decide

theorem further_digit : ∀ d : Fin 128,
    (UInt8.ofNat (d + 128) &&& 0x7F).toNat = d ∧ UInt8.ofNat (d + 128) &&& 0x80 ≠ 0 := by decide

theorem digit_of_byte (x : UInt8) : ∃ d : Fin 128,
    x &&& 0x80 = 0 ∧ x = UInt8.ofNat d ∨ x &&& 0x80 ≠ 0 ∧ x = UInt8.ofNat (d + 128) := by
  have hx := x.toNat_lt
  have hself : x = UInt8.ofNat x.toNat := (UInt8.ofNat_toNat).symm
  by_cases hlow : x.toNat < 128
  · refine ⟨⟨x.toNat, hlow⟩, .inl ⟨?_, hself⟩⟩
    rw [hself]
    exact (last_digit ⟨x.toNat, hlow⟩).2
  · have hhigh : x = UInt8.ofNat (((⟨x.toNat - 128, by omega⟩ : Fin 128) : ℕ) + 128) := by
      rw [Nat.sub_add_cancel (not_lt.mp hlow)]
      exact hself
    refine ⟨⟨x.toNat - 128, by omega⟩, .inr ⟨?_, hhigh⟩⟩
    rw [hhigh]
    exact (further_digit _).2

theorem reads_avroByte {x : UInt8} (hrel : src.Reliable) : Reads src.tape r.limit (avroByte b src r) [x] x := by
  intro pos h hfit
  have hlimit := r.limit_lt
  have hread : src.readAt pos 1 = .ok [x] := Stored.readAt h hrel rfl
  rw [List.length_singleton] at hfit
  unfold avroByte
  rw [if_neg (by omega), hread, exec_ok_bind]
  dsimp only [List.head?]
  rw [plus_eq (by omega)]
  rfl

/-- The digits are put together as long as another one follows. -/
theorem reads_avroDigits {l : List (Fin 128)} {n s result : ℕ} (hrel : src.Reliable) (hne : l ≠ []) (hle : l.length ≤ n)
    (hs : s + 7 * n = 70) (hresult : result < 2 ^ s) :
    Reads src.tape r.limit (avroDigits b src r n s result) (Varint.bytes l)
      ((result + Varint.value l * 2 ^ s) % 2 ^ 64) := by
  induction l generalizing n s result with
  | nil => exact absurd rfl hne
  | cons d l ih =>
    cases n with
    | zero => exact absurd hle (by simp)
    | succ n =>
      cases l with
      | nil =>
        obtain ⟨hdigit, hstop⟩ := last_digit d
        have hbyte := reads_avroByte (b := b) (r := r) (x := UInt8.ofNat d) hrel
        have hlast := hbyte.bind (m := [])
          (f := fun (x : UInt8) => if x &&& 0x80 = 0 then pure (result ||| ((x &&& 0x7F).toNat <<< s) % 2 ^ 64)
            else avroDigits b src r n (s + 7) (result ||| ((x &&& 0x7F).toNat <<< s) % 2 ^ 64))
          (c := (result + d * 2 ^ s) % 2 ^ 64)
          (by
            rw [if_pos hstop, hdigit, Varint.or_shift d hresult (by omega)]
            exact Reads.pure _)
        have hvalue : Varint.value [d] = d := by simp [Varint.value]
        rw [List.append_nil] at hlast
        rw [hvalue]
        exact hlast
      | cons e l =>
        obtain ⟨hdigit, hgo⟩ := further_digit d
        have hword : result + d * 2 ^ s < 2 ^ (s + 7) := by
          have hd := Nat.mul_le_mul_right (2 ^ s) (Nat.le_of_lt_succ d.isLt)
          rw [Nat.pow_add]
          omega
        have hsmall : 2 ^ (s + 7) ≤ 2 ^ 63 := by
          rw [List.length_cons, List.length_cons] at hle
          exact Nat.pow_le_pow_right (by decide) (by omega)
        have hnext := @ih n (s + 7) (result + d * 2 ^ s) (List.cons_ne_nil e l) (Nat.le_of_succ_le_succ hle)
          (by omega) hword
        have hvalue : result + d * 2 ^ s + Varint.value (e :: l) * 2 ^ (s + 7) =
            result + Varint.value (d :: e :: l) * 2 ^ s := by
          have hcons : Varint.value (d :: e :: l) = d + 128 * Varint.value (e :: l) := rfl
          rw [hcons, Nat.pow_add]
          ring
        rw [hvalue] at hnext
        refine (reads_avroByte hrel).bind (m := Varint.bytes (e :: l)) ?_
        rw [if_neg hgo, hdigit, Varint.or_shift d hresult (by omega), Nat.mod_eq_of_lt (by omega)]
        exact hnext

theorem reads_long (v : Long) (hrel : src.Reliable) : Reads src.tape r.limit (avroLong b src r) v.bytes v.value := by
  have hdigits := @reads_avroDigits b src r v.digits 10 0 0 hrel v.ne v.length_le rfl (by decide)
  rw [Nat.zero_add, Nat.pow_zero, Nat.mul_one] at hdigits
  have hvalue : zigzagDecode (Varint.value v.digits % 2 ^ 64) = v.value :=
    Varint.unzigzag_word (Nat.mod_lt _ (Nat.two_pow_pos 64))
  have hmap := hdigits.map (f := zigzagDecode)
  rwa [hvalue] at hmap

theorem reads_encodeLong {x : ℤ} (hrel : src.Reliable) (hx : InRange x) :
    Reads src.tape r.limit (avroLong b src r) (encodeLong x) x := by
  have hlt := Varint.zigzag_lt hx
  have hle : (Varint.digits (Varint.zigzag x)).length ≤ 9 + 1 := Varint.length_digits (hlt.trans (by norm_num))
  have hread := reads_long (b := b) (r := r) ⟨Varint.digits (Varint.zigzag x), Varint.digits_ne _, hle⟩ hrel
  have hvalue : Long.value ⟨Varint.digits (Varint.zigzag x), Varint.digits_ne _, hle⟩ = x := by
    rw [Long.value, Varint.value_digits, Nat.mod_eq_of_lt hlt, Varint.unzigzag_zigzag]
  rwa [hvalue] at hread

/-- What was read as a number is one. -/
theorem exists_digits {n s result pos q x : ℕ} (h : avroDigits b src r n s result pos = .ok (some (x, q))) :
    ∃ l : List (Fin 128), l ≠ [] ∧ l.length ≤ n ∧ Stored src pos (Varint.bytes l) ∧ q = pos + l.length ∧
      q ≤ r.limit := by
  induction n generalizing s result pos with
  | zero => cases h
  | succ n ih =>
    obtain ⟨y, next, hbyte, hrest⟩ := bind_ok h
    obtain ⟨hstored, rfl, hle⟩ := avroByte_next hbyte
    obtain ⟨d, ⟨hstop, hy⟩ | ⟨hgo, hy⟩⟩ := digit_of_byte y
    · rw [if_pos hstop] at hrest
      cases hrest
      rw [hy] at hstored
      exact ⟨[d], List.cons_ne_nil _ _, Nat.le_add_left 1 n, hstored, rfl, hle⟩
    · rw [if_neg hgo] at hrest
      obtain ⟨l, hne, hlength, htail, hq, hend⟩ := ih hrest
      obtain ⟨e, l, rfl⟩ := List.exists_cons_of_ne_nil hne
      rw [hy] at hstored
      refine ⟨d :: e :: l, List.cons_ne_nil _ _, Nat.succ_le_succ hlength, stored_append.mpr ⟨hstored, htail⟩, ?_, hend⟩
      rw [hq, List.length_cons (a := d)]
      omega

theorem exists_long {pos q : ℕ} {x : ℤ} (hrel : src.Reliable) (h : avroLong b src r pos = .ok (some (x, q))) :
    ∃ v : Long, Stored src pos v.bytes ∧ q = pos + v.bytes.length ∧ q ≤ r.limit ∧ v.value = x := by
  obtain ⟨n, next, hdigits, hpure⟩ := bind_ok h
  cases hpure
  obtain ⟨l, hne, hle, hstored, hq, hend⟩ := exists_digits hdigits
  have hlength := Varint.length_bytes l
  have hread := reads_long (b := b) (r := r) ⟨l, hne, hle⟩ hrel pos hstored
    (show pos + (Varint.bytes l).length ≤ r.limit by omega)
  rw [h, Except.ok.injEq, Option.some.injEq, Prod.mk.injEq] at hread
  exact ⟨⟨l, hne, hle⟩, hstored, hread.2, hend, hread.1.symm⟩

end Numbers

section Files

/-- Bytes behind their length. -/
structure Sized where
  len : Long
  data : List UInt8
  len_eq : len.value = data.length

def Sized.bytes (s : Sized) : List UInt8 := s.len.bytes ++ s.data

/-- A key and its value. -/
def entryBytes (e : Sized × Sized) : List UInt8 := e.1.bytes ++ e.2.bytes

/-- A block of the metadata, whose count is negative when its size is stated as well. -/
inductive MetaBlock
  | counted (count : Long) (entries : List (Sized × Sized)) (entries_ne : entries ≠ [])
      (count_eq : count.value = entries.length)
  | sized (count size : Long) (entries : List (Sized × Sized)) (entries_ne : entries ≠ [])
      (count_eq : count.value = -entries.length) (size_eq : size.value = (entries.flatMap entryBytes).length)

namespace MetaBlock

def entries : MetaBlock → List (Sized × Sized)
  | counted _ entries _ _ => entries
  | sized _ _ entries _ _ _ => entries

def bytes : MetaBlock → List UInt8
  | counted count entries _ _ => count.bytes ++ entries.flatMap entryBytes
  | sized count size entries _ _ _ => count.bytes ++ (size.bytes ++ entries.flatMap entryBytes)

end MetaBlock

structure DataBlock where
  count : Long
  content : Sized

def DataBlock.bytes (sync : List UInt8) (d : DataBlock) : List UInt8 := d.count.bytes ++ (d.content.bytes ++ sync)

structure Container where
  metadata : List MetaBlock
  stop : Long
  sync : List UInt8
  blocks : List DataBlock
  stop_eq : stop.value = 0
  sync_length : sync.length = SYNC_SIZE

def Container.bytes (f : Container) : List UInt8 :=
  MAGIC ++ (f.metadata.flatMap MetaBlock.bytes ++ f.stop.bytes ++ (f.sync ++ f.blocks.flatMap (DataBlock.bytes f.sync)))

variable {b : Build} {src : Source} {r : Room}

theorem Long.length_pos (v : Long) : 0 < v.bytes.length := by
  rw [bytes, Varint.length_bytes]
  exact List.length_pos_of_ne_nil v.ne

theorem reads_sized (s : Sized) (hrel : src.Reliable) : Reads src.tape r.limit (avroSkip b src r) s.bytes () := by
  refine (reads_long s.len hrel).bind ?_
  rw [s.len_eq, if_neg (not_lt.mpr (Int.natCast_nonneg _)), Int.toNat_natCast]
  exact reads_ggufSkip

theorem reads_entries (l : List (Sized × Sized)) (hrel : src.Reliable) :
    Reads src.tape r.limit (iterate (fun _ => avroSkip b src r) (l.length * 2) ()) (l.flatMap entryBytes) () := by
  have hpairs : l.length * 2 = (l.flatMap fun e => [e.1, e.2]).length := by
    rw [List.length_flatMap]
    simp
  have hbytes : l.flatMap entryBytes = (l.flatMap fun e => [e.1, e.2]).flatMap Sized.bytes := by
    rw [List.flatMap_assoc]
    congr 1
    funext e
    simp [entryBytes]
  rw [hpairs, hbytes]
  exact Reads.iterate (fun _ _ => ()) (fun _ s _ => reads_sized s hrel) ()

/-- A block of the metadata is passed, unless it has too many entries. -/
theorem reads_metaBlock (m : MetaBlock) (hrel : src.Reliable) (hfew : m.entries.length ≤ MAX_ENTRIES) :
    Reads src.tape r.limit (avroMetaBlock b src r) m.bytes true := by
  have hmax : MAX_ENTRIES = 2 ^ 20 := rfl
  cases m with
  | counted count entries entries_ne count_eq =>
    have hpos := List.length_pos_of_ne_nil entries_ne
    change entries.length ≤ MAX_ENTRIES at hfew
    refine (reads_long count hrel).bind ?_
    unfold avroEntries
    rw [count_eq, if_neg (by omega), Int.natAbs_natCast, if_neg (by omega), if_neg (by omega), satMul_eq (by omega)]
    exact (reads_entries entries hrel).map (f := fun _ => true)
  | sized count size entries entries_ne count_eq size_eq =>
    have hpos := List.length_pos_of_ne_nil entries_ne
    change entries.length ≤ MAX_ENTRIES at hfew
    refine (reads_long count hrel).bind ?_
    unfold avroEntries
    rw [count_eq, if_neg (by omega), Int.natAbs_neg, Int.natAbs_natCast, if_neg (by omega), if_pos (by omega)]
    exact (reads_sized ⟨size, entries.flatMap entryBytes, size_eq⟩ hrel).map (f := fun _ => true)

theorem reads_stop (f : Container) (hrel : src.Reliable) :
    Reads src.tape r.limit (avroMetaBlock b src r) f.stop.bytes false := by
  have h := (reads_long (b := b) (r := r) f.stop hrel).bind (m := []) (f := avroEntries b src r) (c := false) (by
    rw [f.stop_eq]
    exact Reads.pure false)
  rwa [List.append_nil] at h

theorem reads_sync {sync : List UInt8} (hrel : src.Reliable) (hsync : sync.length = SYNC_SIZE) :
    Reads src.tape r.limit (avroSync b src r) sync sync := by
  intro pos h hfit
  have hlimit := r.limit_lt
  have hread : src.readAt pos SYNC_SIZE = .ok sync := Stored.readAt h hrel hsync
  rw [hsync] at hfit ⊢
  unfold avroSync
  rw [satAdd_eq (by omega), if_neg (not_lt.mpr hfit), hread, exec_ok_bind, if_neg (by omega), plus_eq (by omega)]
  rfl

theorem reads_dataBlock {sync : List UInt8} (d : DataBlock) (hrel : src.Reliable) (hsync : sync.length = SYNC_SIZE) :
    Reads src.tape r.limit (avroBlock b src r sync) (d.bytes sync) () := by
  refine (reads_long d.count hrel).bind ((reads_sized d.content hrel).bind ?_)
  have h := (reads_sync (b := b) (r := r) hrel hsync).bind (m := [])
    (f := fun sm => if sm = sync then pure () else fail) (c := ()) (by
      rw [if_pos rfl]
      exact Reads.pure ())
  rwa [List.append_nil] at h

/-- A block of the metadata with more entries ends the reading. -/
theorem metaBlock_crowded {m : MetaBlock} {pos : ℕ} (hrel : src.Reliable) (hmany : MAX_ENTRIES < m.entries.length)
    (h : Stored src pos m.bytes) (hfit : pos + m.bytes.length ≤ r.limit) :
    avroMetaBlock b src r pos = .ok none := by
  have hcrowded : ∀ {count : Long}, count.value.natAbs = m.entries.length → Stored src pos count.bytes →
      pos + count.bytes.length ≤ r.limit → avroMetaBlock b src r pos = .ok none := by
    intro count hcount hstored hroom
    have hzero : count.value ≠ 0 := by omega
    unfold avroMetaBlock
    change onward _ (avroLong b src r pos) = _
    rw [reads_long count hrel pos hstored hroom]
    dsimp only [onward]
    unfold avroEntries
    rw [if_neg hzero, if_pos (by omega)]
    rfl
  cases m with
  | counted count entries entries_ne count_eq =>
    rw [MetaBlock.bytes, List.length_append] at hfit
    exact hcrowded (by rw [count_eq, Int.natAbs_natCast, MetaBlock.entries]) h.left (by omega)
  | sized count size entries entries_ne count_eq size_eq =>
    rw [MetaBlock.bytes, List.length_append] at hfit
    exact hcrowded (by rw [count_eq, Int.natAbs_neg, Int.natAbs_natCast, MetaBlock.entries]) h.left (by omega)

/-- The map ends with an empty block. -/
theorem eval_metaBlocks {f : Container} {l : List MetaBlock} {pos : ℕ} (hrel : src.Reliable)
    (hfew : ∀ m ∈ l, m.entries.length ≤ MAX_ENTRIES)
    (h : Stored src pos (l.flatMap MetaBlock.bytes ++ f.stop.bytes))
    (hfit : pos + (l.flatMap MetaBlock.bytes ++ f.stop.bytes).length ≤ r.limit) :
    (metaBlocks b src r).eval pos = .ok (some (pos + (l.flatMap MetaBlock.bytes ++ f.stop.bytes).length)) := by
  induction l generalizing pos with
  | nil =>
    have hstop := reads_stop (b := b) (r := r) f hrel pos h hfit
    refine Until.eval_done ?_
    change metaStep b src r pos = _
    unfold metaStep
    rw [hstop]
    rfl
  | cons m l ih =>
    rw [List.flatMap_cons, List.append_assoc] at h hfit ⊢
    rw [List.length_append, ← Nat.add_assoc] at hfit ⊢
    have hblock := reads_metaBlock (b := b) (r := r) m hrel (hfew m List.mem_cons_self) pos h.left (by omega)
    have hstep : (metaBlocks b src r).step pos = .ok (.inl (pos + m.bytes.length)) := by
      change metaStep b src r pos = _
      unfold metaStep
      rw [hblock]
      rfl
    rw [Until.eval_next hstep]
    exact ih (fun x hx => hfew x (List.mem_cons_of_mem m hx)) h.right hfit

theorem exists_sized {pos q : ℕ} (hrel : src.Reliable) (h : avroSkip b src r pos = .ok (some ((), q)))
    (hinside : q ≤ src.data.length) : ∃ s : Sized, Stored src pos s.bytes ∧ q = pos + s.bytes.length := by
  unfold avroSkip at h
  obtain ⟨len, dataAt, hlen, h⟩ := bind_ok h
  obtain ⟨w, hw, rfl, -, hvalue⟩ := exists_long hrel hlen
  by_cases hneg : len < 0
  · rw [if_pos hneg] at h
    cases h
  rw [if_neg hneg] at h
  unfold ggufSkip at h
  cases hend : checkedAdd (pos + w.bytes.length) len.toNat with
  | none =>
    rw [hend] at h
    cases h
  | some dataEnd =>
    obtain ⟨-, rfl⟩ := checkedAdd_eq_some.mp hend
    rw [hend] at h
    dsimp only at h
    split_ifs at h with hroom
    · cases h
      have hlength : (window src.data (pos + w.bytes.length) len.toNat).length = len.toNat := by
        rw [length_window]
        omega
      refine ⟨⟨w, window src.data (pos + w.bytes.length) len.toNat, ?_⟩, ?_, ?_⟩
      · rw [hvalue, hlength]
        omega
      · exact stored_append.mpr ⟨hw, List.take_prefix _ _⟩
      · rw [Sized.bytes, List.length_append]
        dsimp only
        rw [hlength, Nat.add_assoc]
    · cases h

theorem sync_of_ok {pos q : ℕ} {sm : List UInt8} (h : avroSync b src r pos = .ok (some (sm, q))) :
    Stored src pos sm ∧ sm.length = SYNC_SIZE ∧ q = pos + SYNC_SIZE ∧ q ≤ r.limit := by
  have hlimit := r.limit_lt
  have hsize : SYNC_SIZE = 16 := rfl
  unfold avroSync at h
  split_ifs at h with hroom
  · cases h
  unfold satAdd at hroom
  obtain ⟨bytes, hread, h⟩ := exec_bind_ok h
  have hbytes := Source.readAt_ok hread
  split_ifs at h with hshort
  · cases h
  rw [plus_eq (by omega), exec_ok_bind] at h
  cases h
  have hle : sm.length ≤ SYNC_SIZE := hbytes ▸ List.length_take_le _ _
  refine ⟨?_, by omega, rfl, by omega⟩
  unfold Stored
  rw [hbytes]
  exact List.take_prefix _ _

/-- What was passed with the sync marker behind it is a data block. -/
theorem exists_dataBlock {sync : List UInt8} {pos q : ℕ} (hrel : src.Reliable)
    (h : avroBlock b src r sync pos = .ok (some ((), q))) :
    ∃ d : DataBlock, Stored src pos (d.bytes sync) ∧ pos + (d.bytes sync).length ≤ r.limit := by
  have hsize : SYNC_SIZE = 16 := rfl
  unfold avroBlock at h
  obtain ⟨count, contentAt, hcount, h⟩ := bind_ok h
  unfold avroObjects at h
  obtain ⟨_, syncAt, hskip, h⟩ := bind_ok h
  obtain ⟨sm, stop, hsm, h⟩ := bind_ok h
  obtain ⟨hstored, hlength, rfl, hle⟩ := sync_of_ok hsm
  by_cases heq : sm = sync
  · subst heq
    have hinside := hstored.end_le (List.ne_nil_of_length_pos (by omega))
    obtain ⟨v, hv, rfl, -, -⟩ := exists_long hrel hcount
    obtain ⟨s, hs, rfl⟩ := exists_sized hrel hskip (by omega)
    refine ⟨⟨v, s⟩, stored_append.mpr ⟨hv, stored_append.mpr ⟨hs, hstored⟩⟩, ?_⟩
    rw [DataBlock.bytes, List.length_append, List.length_append, hlength]
    dsimp only
    omega
  · rw [if_neg heq] at h
    cases h

theorem eval_dataBlocks {sync : List UInt8} {l : List DataBlock} {pos : ℕ} (hrel : src.Reliable)
    (hsync : sync.length = SYNC_SIZE) (h : Stored src pos (l.flatMap (DataBlock.bytes sync)))
    (hfit : pos + (l.flatMap (DataBlock.bytes sync)).length ≤ r.limit)
    (hend : ∀ d : DataBlock, Stored src (pos + (l.flatMap (DataBlock.bytes sync)).length) (d.bytes sync) →
      r.limit < pos + (l.flatMap (DataBlock.bytes sync)).length + (d.bytes sync).length) :
    (dataBlocks b src r sync).eval pos = .ok (pos + (l.flatMap (DataBlock.bytes sync)).length) := by
  induction l generalizing pos with
  | nil =>
    have hmoves : Moves (fun _ => False) r.limit (fun _ => True) (avroBlock b src r sync) :=
      (moves_avroLong (.inl hrel)).bind fun _ _ => moves_avroObjects (.inl hrel) sync
    obtain ⟨o, ho, -⟩ := (hmoves pos).exists_ok
    have hnone : o = none := by
      cases o with
      | none => rfl
      | some x =>
        obtain ⟨d, hd, hle⟩ := exists_dataBlock hrel ho
        exact absurd (hend d hd) (not_lt.mpr hle)
    rw [hnone] at ho
    refine Until.eval_done ?_
    change dataStep b src r sync pos = _
    unfold dataStep
    rw [ho]
    rfl
  | cons d l ih =>
    rw [List.flatMap_cons] at h hfit hend ⊢
    rw [List.length_append, ← Nat.add_assoc] at hfit hend ⊢
    have hblock := reads_dataBlock (b := b) (r := r) d hrel hsync pos h.left (by omega)
    have hstep : (dataBlocks b src r sync).step pos = .ok (.inl (pos + (d.bytes sync).length)) := by
      change dataStep b src r sync pos = _
      unfold dataStep
      rw [hblock]
      rfl
    rw [Until.eval_next hstep]
    exact ih h.right hfit hend

end Files

/-- The length of a container whose blocks of metadata have up to 2^20 entries is found, when no further
block with its sync marker is behind it; every signed number is read back from its shortest bytes. -/
theorem avro_length_exact :
    (∀ (b : Build) (src : Source) (r : Room) (f : Container), src.Reliable → Stored src r.start f.bytes →
      r.start + f.bytes.length ≤ r.limit → (∀ m ∈ f.metadata, m.entries.length ≤ MAX_ENTRIES) →
      (∀ d : DataBlock, Stored src (r.start + f.bytes.length) (d.bytes f.sync) →
        r.limit < r.start + f.bytes.length + (d.bytes f.sync).length) →
      avroLength b src r = .ok (some f.bytes.length)) ∧
    ∀ (b : Build) (src : Source) (r : Room) (x : ℤ), InRange x → src.Reliable →
      Reads src.tape r.limit (avroLong b src r) (encodeLong x) x := by
  refine ⟨?_, fun b src r x hx hrel => reads_encodeLong hrel hx⟩
  intro b src r f hrel h hfit hfew hend
  have hlimit := r.limit_lt
  have hmagic : MAGIC.length = 4 := rfl
  have hsplit : f.bytes.length = 4 + (f.metadata.flatMap MetaBlock.bytes ++ f.stop.bytes).length +
      (SYNC_SIZE + (f.blocks.flatMap (DataBlock.bytes f.sync)).length) := by
    simp only [Container.bytes, List.length_append, hmagic, f.sync_length]
    omega
  have hrest : Stored src (r.start + 4) (f.metadata.flatMap MetaBlock.bytes ++ f.stop.bytes ++
      (f.sync ++ f.blocks.flatMap (DataBlock.bytes f.sync))) := h.right
  have hmeta := eval_metaBlocks (b := b) (r := r) hrel hfew hrest.left (by omega)
  have hsync := reads_sync (b := b) (r := r) hrel f.sync_length _ hrest.right.left (by rw [f.sync_length]; omega)
  rw [f.sync_length] at hsync
  have hplace : r.start + f.bytes.length = r.start + 4 + (f.metadata.flatMap MetaBlock.bytes ++ f.stop.bytes).length +
      SYNC_SIZE + (f.blocks.flatMap (DataBlock.bytes f.sync)).length := by omega
  rw [hplace] at hend
  have hblocks := hrest.right.right
  rw [f.sync_length] at hblocks
  have hdata := eval_dataBlocks (b := b) (r := r) hrel f.sync_length hblocks (by omega) hend
  unfold avroLength
  rw [Stored.readAt (Stored.left h) hrel hmagic, exec_ok_bind, if_neg (by simp [MAGIC]), plus_eq (by omega),
    exec_ok_bind, hmeta, exec_ok_bind]
  dsimp only
  rw [hsync, exec_ok_bind]
  dsimp only
  rw [hdata, exec_ok_bind, ← hplace, minus_eq (Nat.le_add_right _ _), exec_ok_bind, Nat.add_sub_cancel_left]
  rfl

section Sample

def long (digit : Fin 128) : Long := ⟨[digit], List.cons_ne_nil _ _, by simp⟩

def keyed (k v : UInt8) : Sized × Sized := (⟨long 2, [k], rfl⟩, ⟨long 2, [v], rfl⟩)

def sampleContainer : Container where
  metadata := [.counted (long 2) [keyed 0x78 0x79] (List.cons_ne_nil _ _) rfl,
    .sized (long 1) (long 8) [keyed 0x7A 0x7A] (List.cons_ne_nil _ _) rfl rfl]
  stop := long 0
  sync := List.replicate 16 0xAB
  blocks := [⟨long 10, ⟨long 4, [0, 0], rfl⟩⟩]
  stop_eq := rfl
  sync_length := rfl

def sampleSource : Source where
  data := [7] ++ sampleContainer.bytes ++ [2, 0, 0xEE]
  size_lt := by decide +kernel

/-- The room ends behind the container and three bytes. -/
def sampleRoom : Room := ⟨1, 56, by decide, by decide⟩

theorem sample_avro_length : avroLength .debug sampleSource sampleRoom = .ok (some 52) ∧
    Reads sampleSource.tape sampleRoom.limit (avroLong .debug sampleSource sampleRoom) (encodeLong (-64)) (-64) := by
  have hrel : sampleSource.Reliable := fun _ _ => rfl
  have hdata : sampleSource.data = [7] ++ sampleContainer.bytes ++ [2, 0, 0xEE] := rfl
  have hlength : sampleContainer.bytes.length = 52 := by decide
  have hstart : sampleRoom.start = 1 := rfl
  have hlimit : sampleRoom.limit = 56 := rfl
  have hfound := avro_length_exact.1 .debug sampleSource sampleRoom sampleContainer hrel
    (stored_of_data [7] hdata).left (by rw [hlength]; decide) (by decide) (by
      intro d _
      rw [hlength, hstart, hlimit, DataBlock.bytes, List.length_append, List.length_append, sampleContainer.sync_length]
      have hcount := d.count.length_pos
      have hcontent := d.content.len.length_pos
      have hsize : SYNC_SIZE = 16 := rfl
      omega)
  rw [hlength] at hfound
  exact ⟨hfound, avro_length_exact.2 .debug sampleSource sampleRoom (-64) (by decide) hrel⟩

def emptyEntry : Sized × Sized := (⟨long 0, [], rfl⟩, ⟨long 0, [], rfl⟩)

theorem crowded_value : Varint.unzigzag (Varint.value [2, 0, 0, 1] % 2 ^ 64) = (2 ^ 20 + 1 : ℕ) := by decide

/-- One entry more than a block may have. -/
def crowdedBlock : MetaBlock :=
  .counted ⟨[2, 0, 0, 1], List.cons_ne_nil _ _, by simp⟩ (List.replicate (2 ^ 20 + 1) emptyEntry)
    (List.ne_nil_of_length_pos (by rw [List.length_replicate]; omega))
    (by rw [List.length_replicate]; exact crowded_value)

def crowdedContainer : Container := { sampleContainer with metadata := [crowdedBlock], blocks := [] }

theorem length_entries (n : ℕ) : ((List.replicate n emptyEntry).flatMap entryBytes).length = n * 2 := by
  have hentry : (entryBytes emptyEntry).length = 2 := rfl
  rw [List.length_flatMap, List.map_replicate, List.sum_replicate, hentry, smul_eq_mul]

theorem length_crowdedBlock : crowdedBlock.bytes.length = 2097158 := by
  rw [crowdedBlock, MetaBlock.bytes, List.length_append, length_entries, Long.bytes, Varint.length_bytes]
  simp only [List.length_cons, List.length_nil]
  omega

theorem bytes_crowdedContainer :
    crowdedContainer.bytes = MAGIC ++ (crowdedBlock.bytes ++ ((long 0).bytes ++ List.replicate 16 0xAB)) := by
  have hparts : crowdedContainer.metadata = [crowdedBlock] ∧ crowdedContainer.stop = long 0 ∧
    crowdedContainer.sync = List.replicate 16 0xAB ∧ crowdedContainer.blocks = [] := ⟨rfl, rfl, rfl, rfl⟩
  obtain ⟨hmetadata, hstop, hsync, hblocks⟩ := hparts
  rw [Container.bytes, hmetadata, hstop, hsync, hblocks, List.flatMap_singleton, List.flatMap_nil, List.append_nil,
    List.append_assoc]

theorem length_crowdedContainer : crowdedContainer.bytes.length = 2097179 := by
  have hmagic : MAGIC.length = 4 := rfl
  have hstop : (long 0).bytes.length = 1 := rfl
  rw [bytes_crowdedContainer]
  simp only [List.length_append, length_crowdedBlock, hmagic, hstop, List.length_replicate]

def crowdedSource : Source where
  data := crowdedContainer.bytes
  size_lt := by
    rw [length_crowdedContainer]
    omega

def crowdedRoom : Room := ⟨0, 2097179, by decide, by decide⟩

/-- A container is refused that has a block of metadata with more than 2^20 entries. -/
theorem crowded_container_refused : ¬ ∀ (b : Build) (src : Source) (r : Room) (f : Container), src.Reliable →
    Stored src r.start f.bytes → r.start + f.bytes.length ≤ r.limit →
    (∀ d : DataBlock, Stored src (r.start + f.bytes.length) (d.bytes f.sync) →
      r.limit < r.start + f.bytes.length + (d.bytes f.sync).length) →
    avroLength b src r = .ok (some f.bytes.length) := by
  intro hall
  have hrel : crowdedSource.Reliable := fun _ _ => rfl
  have hlength := length_crowdedContainer
  have hstart : crowdedRoom.start = 0 := rfl
  have hlimit : crowdedRoom.limit = 2097179 := rfl
  have hstored : Stored crowdedSource 0 crowdedContainer.bytes := List.prefix_refl _
  have hparts := hstored
  rw [bytes_crowdedContainer] at hparts
  have hfound := hall .debug crowdedSource crowdedRoom crowdedContainer hrel hstored (by omega) (by
    intro d _
    have hcount := d.count.length_pos
    rw [hlength, hstart, hlimit, DataBlock.bytes, List.length_append]
    omega)
  have hblock : avroMetaBlock .debug crowdedSource crowdedRoom 4 = .ok none := by
    refine metaBlock_crowded (m := crowdedBlock) hrel ?_ hparts.right.left ?_
    · rw [crowdedBlock, MetaBlock.entries, List.length_replicate]
      exact Nat.lt_succ_self _
    · rw [length_crowdedBlock, hlimit]
      omega
  have hnone : avroLength .debug crowdedSource crowdedRoom = .ok none := by
    have hmagic : MAGIC.length = 4 := rfl
    have hwalk : (metaBlocks .debug crowdedSource crowdedRoom).eval 4 = .ok none := by
      refine Until.eval_done ?_
      change metaStep _ _ _ 4 = _
      unfold metaStep
      rw [hblock]
      rfl
    unfold avroLength
    rw [hstart, Stored.readAt hparts.left hrel hmagic, exec_ok_bind, if_neg (by simp [MAGIC]), plus_eq (by omega),
      exec_ok_bind, hwalk]
    rfl
  rw [hnone] at hfound
  cases hfound

end Sample

end Unearth.Avro
