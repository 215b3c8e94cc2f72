import Unearth.Lib.Fips180
import Unearth.Lib.Hex
import Unearth.Slices

/-!
# Hashing what is streamed

Bytes are buffered up to a block, and blocks are compressed as they come. What is buffered and what is
compressed is at any time what the standard makes of the message so far, however it was cut.
-/

namespace Unearth.Hash
open Bytes Word Blocks Lines Fips180

def H0 : Vars :=
  ⟨0x6a09e667, 0xbb67ae85, 0x3c6ef372, 0xa54ff53a, 0x510e527f, 0x9b05688c, 0x1f83d9ab, 0x5be0cd19⟩

def K : List Word := [
  0x428a2f98, 0x71374491, 0xb5c0fbcf, 0xe9b5dba5, 0x3956c25b, 0x59f111f1, 0x923f82a4, 0xab1c5ed5,
  0xd807aa98, 0x12835b01, 0x243185be, 0x550c7dc3, 0x72be5d74, 0x80deb1fe, 0x9bdc06a7, 0xc19bf174,
  0xe49b69c1, 0xefbe4786, 0x0fc19dc6, 0x240ca1cc, 0x2de92c6f, 0x4a7484aa, 0x5cb0a9dc, 0x76f988da,
  0x983e5152, 0xa831c66d, 0xb00327c8, 0xbf597fc7, 0xc6e00bf3, 0xd5a79147, 0x06ca6351, 0x14292967,
  0x27b70a85, 0x2e1b2138, 0x4d2c6dfc, 0x53380d13, 0x650a7354, 0x766a0abb, 0x81c2c92e, 0x92722c85,
  0xa2bfe8a1, 0xa81a664b, 0xc24b8b70, 0xc76c51a3, 0xd192e819, 0xd6990624, 0xf40e3585, 0x106aa070,
  0x19a4c116, 0x1e376c08, 0x2748774c, 0x34b0bcb5, 0x391c0cb3, 0x4ed8aa4a, 0x5b9cca4f, 0x682e6ff3,
  0x748f82ee, 0x78a5636f, 0x84c87814, 0x8cc70208, 0x90befffa, 0xa4506ceb, 0xbef9a3f7, 0xc67178f2]

section Compress

def firstWords (block : List UInt8) : List Word :=
  (List.range 64).map fun i => if i < 16 then BitVec.ofNat 32 (be (window block (4 * i) 4)) else 0

def extend (w : List Word) (i : ℕ) : List Word :=
  let entry j := w.getD j 0
  let s0 := (entry (i - 15)).rotateRight 7 ^^^ (entry (i - 15)).rotateRight 18 ^^^ entry (i - 15) >>> 3
  let s1 := (entry (i - 2)).rotateRight 17 ^^^ (entry (i - 2)).rotateRight 19 ^^^ entry (i - 2) >>> 10
  w.set i (entry (i - 16) + s0 + entry (i - 7) + s1)

def messageWords (block : List UInt8) : List Word := (List.range' 16 48).foldl extend (firstWords block)

/-- One round in place: the new values of `d` and `h`. -/
def round (a b c d e f g h k w : Word) : Word × Word :=
  let s1 := e.rotateRight 6 ^^^ e.rotateRight 11 ^^^ e.rotateRight 25
  let ch := (e &&& f) ^^^ (~~~e &&& g)
  let t1 := h + s1 + ch + k + w
  let s0 := a.rotateRight 2 ^^^ a.rotateRight 13 ^^^ a.rotateRight 22
  let maj := (a &&& b) ^^^ (a &&& c) ^^^ (b &&& c)
  (d + t1, t1 + (s0 + maj))

/-- Eight rounds, after which every variable is back in its role. -/
def eightRounds (w : List Word) (i : ℕ) (v : Vars) : Vars :=
  let kw j (a b c d e f g h : Word) := round a b c d e f g h (K.getD (i + j) 0) (w.getD (i + j) 0)
  let ⟨a, b, c, d, e, f, g, h⟩ := v
  let (d, h) := kw 0 a b c d e f g h
  let (c, g) := kw 1 h a b c d e f g
  let (b, f) := kw 2 g h a b c d e f
  let (a, e) := kw 3 f g h a b c d e
  let (h, d) := kw 4 e f g h a b c d
  let (g, c) := kw 5 d e f g h a b c
  let (f, b) := kw 6 c d e f g h a b
  let (e, a) := kw 7 b c d e f g h a
  ⟨a, b, c, d, e, f, g, h⟩

def compress (state : Vars) (block : List UInt8) : Vars :=
  state.add ((List.range 8).foldl (fun v j => eightRounds (messageWords block) (8 * j) v) state)

end Compress

/-- A hasher: the hash value so far, the bytes towards the next block, and how many bytes it was given. -/
structure Sha256 where
  state : Vars
  buf : List UInt8
  bufLen : ℕ
  totalLen : ℕ

namespace Sha256

def new : Sha256 := ⟨H0, List.replicate 64 0, 0, 0⟩

variable (x : Sha256) (data : List UInt8)

/-- What is buffered is filled up first; a full buffer is a block. -/
def fill : Sha256 × List UInt8 :=
  if 0 < x.bufLen then
    let take := min (64 - x.bufLen) data.length
    let buf := writeAt x.buf x.bufLen (data.take take)
    if x.bufLen + take = 64 then ({ x with state := compress x.state buf, buf, bufLen := 0 }, data.drop take)
    else ({ x with buf, bufLen := x.bufLen + take }, data.drop take)
  else (x, data)

/-- Whole blocks are compressed as they are, and the rest is buffered. -/
def takeBlocks : Sha256 :=
  let (state, rest) := feed 64 compress x.state data
  if rest = [] then { x with state } else { x with state, buf := writeAt x.buf 0 rest, bufLen := rest.length }

def process : Sha256 := (x.fill data).1.takeBlocks (x.fill data).2

def update : Sha256 := { x with totalLen := wrapAdd x.totalLen data.length }.process data

def padLen : ℕ := if x.bufLen < 56 then 56 - x.bufLen else 120 - x.bufLen

/-- The hasher after the padding and the length, where nothing is asserted to be buffered. -/
def padded : Sha256 :=
  (x.process ((0x80 :: List.replicate 63 0).take x.padLen)).process (toBe 8 (x.totalLen * 8 % 2 ^ 64))

def finalize : List UInt8 := x.padded.state.words.flatMap fun w => toBe 4 w.toNat

end Sha256

def digest (data : List UInt8) : List UInt8 := (Sha256.new.update data).finalize

def HEX : List Char := "0123456789abcdef".toList

def toHex (digest : List UInt8) : Text :=
  digest.flatMap fun (b : UInt8) => [HEX.getD (b >>> 4).toNat '0', HEX.getD (b &&& 0x0f).toNat '0']

section Rounds

theorem K_eq (t : ℕ) (ht : t < 64) : K.getD t 0 = constant t := by
  have hall : ∀ t < 64, K.getD t 0 = constant t := by decide +kernel
  exact hall t ht

theorem H0_eq : H0 = initial := by decide +kernel

variable {a b c d e f g h k w d' h' : Word}

theorem step_of_round (hround : round a b c d e f g h k w = (d', h')) :
    step k w ⟨a, b, c, d, e, f, g, h⟩ = ⟨h', a, b, c, d', e, f, g⟩ := by
  obtain ⟨rfl, rfl⟩ := Prod.mk.inj hround
  rfl

/-- Renaming the variables instead of moving them makes eight steps of the standard. -/
theorem eightRounds_eq (w : List Word) (i : ℕ) (v : Vars) : eightRounds w i v =
    (List.range' i 8).foldl (fun v t => step (K.getD t 0) (w.getD t 0) v) v := by
  obtain ⟨a, b, c, d, e, f, g, h⟩ := v
  have hrange : List.range' i 8 = [i, i + 1, i + 2, i + 3, i + 4, i + 5, i + 6, i + 7] := rfl
  unfold eightRounds
  rw [hrange]
  simp only [List.foldl_cons, List.foldl_nil, Nat.add_zero]
  generalize K.getD i 0 = k0, K.getD (i + 1) 0 = k1, K.getD (i + 2) 0 = k2, K.getD (i + 3) 0 = k3,
    K.getD (i + 4) 0 = k4, K.getD (i + 5) 0 = k5, K.getD (i + 6) 0 = k6, K.getD (i + 7) 0 = k7
  generalize w.getD i 0 = w0, w.getD (i + 1) 0 = w1, w.getD (i + 2) 0 = w2, w.getD (i + 3) 0 = w3,
    w.getD (i + 4) 0 = w4, w.getD (i + 5) 0 = w5, w.getD (i + 6) 0 = w6, w.getD (i + 7) 0 = w7
  rcases h0 : round a b c d e f g h k0 w0 with ⟨d, h⟩
  rw [step_of_round h0]
  rcases h1 : round h a b c d e f g k1 w1 with ⟨c, g⟩
  rw [step_of_round h1]
  rcases h2 : round g h a b c d e f k2 w2 with ⟨b, f⟩
  rw [step_of_round h2]
  rcases h3 : round f g h a b c d e k3 w3 with ⟨a, e⟩
  rw [step_of_round h3]
  rcases h4 : round e f g h a b c d k4 w4 with ⟨h, d⟩
  rw [step_of_round h4]
  rcases h5 : round d e f g h a b c k5 w5 with ⟨g, c⟩
  rw [step_of_round h5]
  rcases h6 : round c d e f g h a b k6 w6 with ⟨f, b⟩
  rw [step_of_round h6]
  rcases h7 : round b c d e f g h a k7 w7 with ⟨e, a⟩
  rw [step_of_round h7]

theorem foldl_groups {α : Type} (f : α → ℕ → α) (n m : ℕ) (x : α) :
    (List.range m).foldl (fun x j => (List.range' (n * j) n).foldl f x) x = (List.range (n * m)).foldl f x := by
  induction m with
  | zero => rfl
  | succ m ih =>
    rw [List.range_succ, List.foldl_append, ih, List.foldl_cons, List.foldl_nil, Nat.mul_succ, List.range_eq_range',
      List.range_eq_range', ← List.range'_append_1, List.foldl_append, Nat.zero_add]

theorem schedule_first {block : List UInt8} {t : ℕ} (h : t < 16) : schedule block t = blockWord block t := by
  rw [schedule, if_pos h]

theorem schedule_next {block : List UInt8} {t : ℕ} (h : 16 ≤ t) : schedule block t =
    schedule block (t - 16) + smallSigma0 (schedule block (t - 15)) + schedule block (t - 7) +
      smallSigma1 (schedule block (t - 2)) := by
  rw [schedule, if_neg (by omega)]
  ac_rfl

/-- Each word is written once, when all those before it are there. -/
theorem extend_spec (block : List UInt8) {n : ℕ} (hn : n ≤ 48) :
    ((List.range' 16 n).foldl extend (firstWords block)).length = 64 ∧
      ∀ t < 16 + n, ((List.range' 16 n).foldl extend (firstWords block)).getD t 0 = schedule block t := by
  induction n with
  | zero =>
    refine ⟨by simp [firstWords], fun t ht => ?_⟩
    have hfirst : (firstWords block).getD t 0 = blockWord block t := by
      rw [firstWords, List.getD_eq_getElem _ _ (by simp; omega), List.getElem_map, List.getElem_range, if_pos ht]
      rfl
    rw [schedule_first ht]
    exact hfirst
  | succ n ih =>
    obtain ⟨hlength, hwords⟩ := ih (by omega)
    rw [List.range'_concat, List.foldl_append, Nat.one_mul]
    generalize (List.range' 16 n).foldl extend (firstWords block) = w at hlength hwords ⊢
    rw [List.foldl_cons, List.foldl_nil, extend]
    refine ⟨by rw [List.length_set, hlength], fun t ht => ?_⟩
    by_cases heq : 16 + n = t
    · subst heq
      rw [List.getD_eq_getElem _ _ (by rw [List.length_set]; omega), List.getElem_set_self, schedule_next (by omega)]
      dsimp only
      rw [hwords _ (by omega), hwords _ (by omega), hwords _ (by omega), hwords _ (by omega)]
      rfl
    · rw [List.getD_eq_getElem?_getD, List.getElem?_set_ne heq, ← List.getD_eq_getElem?_getD]
      exact hwords t (by omega)

theorem foldl_eightRounds (w : List Word) (v : Vars) : (List.range 8).foldl (fun v j => eightRounds w (8 * j) v) v =
    (List.range 64).foldl (fun v t => step (K.getD t 0) (w.getD t 0) v) v := by
  have hgroups := foldl_groups (fun v t => step (K.getD t 0) (w.getD t 0) v) 8 8 v
  rw [← hgroups]
  exact List.foldl_ext _ _ _ fun v j _ => eightRounds_eq w (8 * j) v

theorem compress_eq (state : Vars) (block : List UInt8) : compress state block = hashBlock state block := by
  have hwords := (extend_spec block le_rfl).2
  have hsteps : (List.range 64).foldl (fun v t => step (K.getD t 0) ((messageWords block).getD t 0) v) state =
      steps (schedule block) 64 state := by
    refine List.foldl_ext _ _ _ fun v t ht => ?_
    have hlt := List.mem_range.mp ht
    rw [K_eq t hlt, messageWords, hwords t hlt]
  rw [compress, foldl_eightRounds, hsteps, hashBlock]

end Rounds

section Streaming

/-- A hasher has taken in whole blocks, and holds what is left. -/
structure Took (x : Sha256) (p : Vars × List UInt8) : Prop where
  buf_length : x.buf.length = 64
  state_eq : x.state = p.1
  bufLen_eq : x.bufLen = p.2.length
  held : x.buf.take x.bufLen = p.2

variable {x : Sha256} {p : Vars × List UInt8}

theorem took_new : Took Sha256.new (initial, []) := ⟨rfl, H0_eq, rfl, rfl⟩

/-- What is copied in stands behind what is held. -/
theorem take_writeAt {buf part : List UInt8} {off : ℕ} (hfit : off + part.length ≤ buf.length) :
    (writeAt buf off part).take (off + part.length) = buf.take off ++ part := by
  have hoff : (buf.take off).length = off := List.length_take_of_le (by omega)
  unfold writeAt
  split_ifs with hnil
  · rw [hnil, List.length_nil, Nat.add_zero, List.append_nil]
  · rw [Nat.sub_eq_zero_of_le (by omega), List.replicate_zero, List.append_nil]
    exact List.take_left' (by rw [List.length_append, hoff])

theorem takeBlocks_took {s : Vars} (h : Took x (s, [])) (data : List UInt8) :
    Took (x.takeBlocks data) (feed 64 compress s data) := by
  have hlt := @length_feed_lt _ _ 64 compress (by decide) s data
  have hstate : x.state = s := h.state_eq
  have hempty : x.bufLen = 0 := h.bufLen_eq
  unfold Sha256.takeBlocks
  rw [hstate]
  generalize feed 64 compress s data = fed at hlt ⊢
  obtain ⟨state, rest⟩ := fed
  dsimp only at hlt ⊢
  split_ifs with hrest
  · subst hrest
    exact ⟨h.buf_length, rfl, hempty, by rw [hempty]; rfl⟩
  · have hfit : 0 + rest.length ≤ x.buf.length := by
      rw [h.buf_length]
      omega
    have htake := take_writeAt hfit
    rw [Nat.zero_add, List.take_zero, List.nil_append] at htake
    exact ⟨(length_writeAt hfit).trans h.buf_length, rfl, rfl, htake⟩

theorem process_took (h : Took x p) (hlt : p.2.length < 64) (data : List UInt8) :
    Took (x.process data) (feed 64 compress p.1 (p.2 ++ data)) := by
  obtain ⟨s, held⟩ := p
  replace hlt : held.length < 64 := hlt
  have hlen : x.bufLen = held.length := h.bufLen_eq
  have hheld : x.buf.take x.bufLen = held := h.held
  have hstate : x.state = s := h.state_eq
  have hbuf := h.buf_length
  unfold Sha256.process Sha256.fill
  split_ifs with hsome
  · dsimp only
    generalize htake : min (64 - x.bufLen) data.length = take
    have hpart : (data.take take).length = take := List.length_take_of_le (by omega)
    have hfit : x.bufLen + (data.take take).length ≤ x.buf.length := by
      rw [hpart, hbuf]
      omega
    have hwritten := take_writeAt hfit
    have hlong := (length_writeAt hfit).trans hbuf
    rw [hpart, hheld] at hwritten
    split_ifs with hfull
    · -- the buffer is a block, and the rest begins a new one
      have hblock : writeAt x.buf x.bufLen (data.take take) = held ++ data.take take := by
        rw [← hwritten, hfull, List.take_of_length_le hlong.le]
      have hsplit : held ++ data = (held ++ data.take take) ++ data.drop take := by
        rw [List.append_assoc, List.take_append_drop]
      dsimp only
      rw [hsplit, feed_block (by decide) (by rw [List.length_append, hpart]; omega)]
      refine takeBlocks_took ⟨hlong, ?_, rfl, rfl⟩ _
      rw [hblock, hstate]
    · -- everything fits behind what is held
      have hall : take = data.length := by omega
      rw [hall, List.take_length] at hwritten hlong ⊢
      dsimp only
      have hshort : (held ++ data).length < 64 := by
        rw [List.length_append]
        omega
      have hnothing : data.drop data.length = [] := List.drop_length
      rw [feed_short hshort, hnothing]
      unfold Sha256.takeBlocks
      rw [feed_short (l := []) (by decide)]
      exact ⟨hlong, hstate, by rw [List.length_append, ← hlen]; rfl, hwritten⟩
  · have hnil : held = [] := List.length_eq_zero_iff.mp (by omega)
    subst hnil
    exact takeBlocks_took h data

/-- What a hasher has taken in is all that it was given, as one message. -/
theorem update_took {message : List UInt8} (h : Took x (feed 64 compress initial message)) (data : List UInt8) :
    Took (x.update data) (feed 64 compress initial (message ++ data)) := by
  have htook : Took { x with totalLen := wrapAdd x.totalLen data.length } (feed 64 compress initial message) :=
    ⟨h.buf_length, h.state_eq, h.bufLen_eq, h.held⟩
  rw [feed_append (by decide)]
  exact process_took htook (length_feed_lt (by decide) _ _) data

end Streaming

section Finish

theorem toBe_eq (n x : ℕ) : toBe n x = bytesOf n x := by
  induction n generalizing x with
  | zero => rfl
  | succ n ih =>
    have hlast : UInt8.ofNat (x % 256) = UInt8.ofNat (x / 256 ^ (n + 1 - 1 - n)) := by
      rw [Nat.add_sub_cancel, Nat.sub_self, Nat.pow_zero, Nat.div_one]
      exact UInt8.toNat_inj.mp (by simp)
    have hfront : bytesOf n (x / 256) = (List.range n).map fun i => UInt8.ofNat (x / 256 ^ (n + 1 - 1 - i)) := by
      refine List.map_congr_left fun i hi => ?_
      have hlt := List.mem_range.mp hi
      rw [Nat.div_div_eq_div_mul, ← Nat.pow_succ', Nat.add_sub_cancel]
      congr 3
      omega
    rw [toBe, ih, hfront, hlast, bytesOf, List.range_succ, List.map_append, List.map_singleton]

variable {x : Sha256} {message : List UInt8}

theorem padding_eq (h : Took x (feed 64 compress initial message)) : (0x80 :: List.replicate 63 0).take x.padLen =
    (0x80 :: List.replicate ((119 - message.length % 64) % 64) 0 : List UInt8) := by
  have hlen : x.bufLen = message.length % 64 := h.bufLen_eq.trans (length_feed (by decide) _ _)
  have hpad : x.padLen = (119 - message.length % 64) % 64 + 1 := by
    unfold Sha256.padLen
    rw [hlen]
    split_ifs with hshort <;> omega
  rw [hpad, List.take_succ_cons, List.take_replicate, min_eq_left (by omega)]

/-- The padding fills the last block, so that nothing is left to be hashed. -/
theorem padded_took (h : Took x (feed 64 compress initial message)) (htotal : x.totalLen = message.length)
    (hlen : message.length < 2 ^ 61) : Took x.padded (feed 64 compress initial (pad message)) := by
  have hbits : x.totalLen * 8 % 2 ^ 64 = 8 * message.length := by
    rw [htotal]
    omega
  have hfirst := process_took h (length_feed_lt (by decide) _ _) ((0x80 :: List.replicate 63 0).take x.padLen)
  rw [← feed_append (by decide), padding_eq h] at hfirst
  have hsecond := process_took hfirst (length_feed_lt (by decide) _ _) (bytesOf 8 (8 * message.length))
  rw [← feed_append (by decide)] at hsecond
  rw [Sha256.padded, padding_eq h, hbits, toBe_eq]
  exact hsecond

theorem finalize_eq (h : Took x (feed 64 compress initial message)) (htotal : x.totalLen = message.length)
    (hlen : message.length < 2 ^ 61) : x.padded.bufLen = 0 ∧ x.finalize = sha256 message := by
  have hpadded := padded_took h htotal hlen
  have hcompress : compress = hashBlock := funext fun s => funext fun block => compress_eq s block
  constructor
  · rw [hpadded.bufLen_eq, feed_whole (by decide) (length_pad message)]
    rfl
  · rw [Sha256.finalize, hpadded.state_eq, hcompress, sha256]
    simp only [toBe_eq]

theorem totalLen_with (x : Sha256) (state : Vars) (buf : List UInt8) (bufLen : ℕ) :
    ({ x with state, buf, bufLen } : Sha256).totalLen = x.totalLen := rfl

theorem totalLen_takeBlocks (x : Sha256) (data : List UInt8) : (x.takeBlocks data).totalLen = x.totalLen := by
  unfold Sha256.takeBlocks
  generalize feed 64 compress x.state data = fed
  obtain ⟨state, rest⟩ := fed
  dsimp only
  split_ifs with hrest
  · rfl
  · rfl

theorem totalLen_fill (x : Sha256) (data : List UInt8) : (x.fill data).1.totalLen = x.totalLen := by
  unfold Sha256.fill
  split_ifs with hsome
  · dsimp only
    -- the states are not compared: that would compute a block
    split_ifs with hfull
    · exact totalLen_with x _ _ _
    · exact totalLen_with x _ _ _
  · rfl

theorem totalLen_process (x : Sha256) (data : List UInt8) : (x.process data).totalLen = x.totalLen := by
  rw [Sha256.process, totalLen_takeBlocks, totalLen_fill]

theorem took_updates {pieces : List (List UInt8)} (hx : Took x (feed 64 compress initial message))
    (htotal : x.totalLen = message.length) (hlen : (message ++ pieces.flatten).length < 2 ^ 61) :
    Took (pieces.foldl Sha256.update x) (feed 64 compress initial (message ++ pieces.flatten)) ∧
      (pieces.foldl Sha256.update x).totalLen = (message ++ pieces.flatten).length := by
  induction pieces generalizing x message with
  | nil =>
    rw [List.flatten_nil, List.append_nil]
    exact ⟨hx, htotal⟩
  | cons data rest ih =>
    rw [List.flatten_cons, ← List.append_assoc] at hlen ⊢
    refine ih (update_took hx data) ?_ hlen
    rw [List.length_append, List.length_append] at hlen
    rw [Sha256.update, totalLen_process, htotal, List.length_append]
    exact Nat.mod_eq_of_lt (by omega)

/-- However a message is cut, its digest is that of the standard, and nothing is buffered at the end. -/
theorem finalize_updates {pieces : List (List UInt8)} (hlen : pieces.flatten.length < 2 ^ 61) :
    (pieces.foldl Sha256.update .new).padded.bufLen = 0 ∧
      (pieces.foldl Sha256.update .new).finalize = sha256 pieces.flatten := by
  have hnew : Took .new (feed 64 compress initial []) := by
    rw [feed_short (l := []) (by decide)]
    exact took_new
  obtain ⟨htook, htotal⟩ := @took_updates _ [] pieces hnew rfl hlen
  exact finalize_eq htook htotal hlen

theorem toHex_eq (bytes : List UInt8) : toHex bytes = Hex.toHex bytes := by
  have hall : ∀ n < 256, [HEX.getD (UInt8.ofNat n >>> 4).toNat '0', HEX.getD (UInt8.ofNat n &&& 0x0f).toNat '0'] =
      Hex.hexOf (UInt8.ofNat n) := by decide +kernel
  refine List.flatMap_congr fun b _ => ?_
  have hb := hall b.toNat b.toNat_lt
  rwa [UInt8.ofNat_toNat] at hb

end Finish

section Writer

/-- What bytes are written to: some of those offered are taken, and at least one if any are. -/
structure Inner (τ : Type) where
  write : τ → List UInt8 → ℕ × τ
  pos : ∀ t buf, buf ≠ [] → 0 < (write t buf).1
  le : ∀ t buf, (write t buf).1 ≤ buf.length

structure HashingWriter (τ : Type) where
  inner : τ
  hasher : Sha256

variable {τ : Type} (w : Inner τ)

def HashingWriter.new (t : τ) : HashingWriter τ := ⟨t, .new⟩

/-- What is taken is hashed. -/
def HashingWriter.write (x : HashingWriter τ) (buf : List UInt8) : ℕ × HashingWriter τ :=
  let taken := w.write x.inner buf
  (taken.1, ⟨taken.2, x.hasher.update (buf.take taken.1)⟩)

theorem hasher_write (x : HashingWriter τ) (buf : List UInt8) :
    (x.write w buf).2.hasher = x.hasher.update (buf.take (x.write w buf).1) := by
  unfold HashingWriter.write
  rfl

/-- What was not taken is offered again. -/
def HashingWriter.writeAll (x : HashingWriter τ) (buf : List UInt8) : HashingWriter τ :=
  if buf = [] then x
  else HashingWriter.writeAll (x.write w buf).2 (buf.drop (x.write w buf).1)
termination_by buf.length
decreasing_by
  rename_i h
  have hpos : 0 < (x.write w buf).1 := w.pos x.inner buf h
  have hlen := List.length_pos_of_ne_nil h
  rw [List.length_drop]
  omega

def HashingWriter.intoParts (x : HashingWriter τ) : τ × List UInt8 := (x.inner, x.hasher.finalize)

/-- A buffer is hashed in the pieces in which it was taken. -/
theorem hasher_writeAll (x : HashingWriter τ) (buf : List UInt8) : ∃ pieces : List (List UInt8),
    pieces.flatten = buf ∧ (x.writeAll w buf).hasher = pieces.foldl Sha256.update x.hasher := by
  induction x, buf using HashingWriter.writeAll.induct w with
  | case1 x =>
    rw [HashingWriter.writeAll, if_pos rfl]
    exact ⟨[], rfl, rfl⟩
  | case2 x buf hne ih =>
    obtain ⟨pieces, hflatten, hhasher⟩ := ih
    rw [HashingWriter.writeAll, if_neg hne]
    refine ⟨buf.take (x.write w buf).1 :: pieces, ?_, ?_⟩
    · rw [List.flatten_cons, hflatten, List.take_append_drop]
    · rw [hhasher, List.foldl_cons, hasher_write]

theorem hasher_writes (x : HashingWriter τ) (bufs : List (List UInt8)) : ∃ pieces : List (List UInt8),
    pieces.flatten = bufs.flatten ∧
      (bufs.foldl (HashingWriter.writeAll w) x).hasher = pieces.foldl Sha256.update x.hasher := by
  induction bufs generalizing x with
  | nil => exact ⟨[], rfl, rfl⟩
  | cons buf rest ih =>
    obtain ⟨front, hfront, hwritten⟩ := hasher_writeAll w x buf
    obtain ⟨behind, hbehind, hhasher⟩ := ih (x.writeAll w buf)
    refine ⟨front ++ behind, ?_, ?_⟩
    · rw [List.flatten_append, hfront, hbehind, List.flatten_cons]
    · rw [List.foldl_cons, hhasher, hwritten, List.foldl_append]

end Writer

/-- The digest of a message is that of the standard, however it is cut and however much of it is taken at a time. -/
theorem sha256_exact (pieces : List (List UInt8)) (hlen : pieces.flatten.length < 2 ^ 61) :
    ((pieces.foldl Sha256.update .new).padded.bufLen = 0 ∧
      (pieces.foldl Sha256.update .new).finalize = sha256 pieces.flatten ∧
      toHex (pieces.foldl Sha256.update .new).finalize = Hex.toHex (sha256 pieces.flatten)) ∧
    ∀ (τ : Type) (w : Inner τ) (t : τ),
      (pieces.foldl (HashingWriter.writeAll w) (.new t)).intoParts.2 = sha256 pieces.flatten := by
  obtain ⟨hnone, hdigest⟩ := finalize_updates hlen
  refine ⟨⟨hnone, hdigest, by rw [toHex_eq, hdigest]⟩, fun τ w t => ?_⟩
  obtain ⟨taken, hflatten, hhasher⟩ := hasher_writes w (.new t) pieces
  rw [HashingWriter.intoParts, hhasher, ← hflatten]
  exact (finalize_updates (by rwa [hflatten])).2

def abcPieces : List (List UInt8) := [[0x61], [], [0x62, 0x63]]

theorem length_abc : abcPieces.flatten.length < 2 ^ 61 := by decide

/-- A message in three pieces, one of them empty. -/
theorem sha256_abc : abcPieces.flatten = [0x61, 0x62, 0x63] ∧
    (abcPieces.foldl Sha256.update .new).finalize = sha256 abcPieces.flatten :=
  ⟨rfl, (sha256_exact abcPieces length_abc).1.2.1⟩

end Unearth.Hash
