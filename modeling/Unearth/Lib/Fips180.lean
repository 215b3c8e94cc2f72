import Unearth.Lib.Blocks

/-!
# The hash function SHA-256 of FIPS 180-4

The functions and constants of the standard, its message schedule, its sixty-four steps on eight rotating
variables, and the padding of a message of whole bytes.
-/

namespace Unearth.Fips180
open Blocks

abbrev Word := BitVec 32

/-- The eight words of a hash value, or the eight working variables. -/
structure Vars where
  a : Word
  b : Word
  c : Word
  d : Word
  e : Word
  f : Word
  g : Word
  h : Word
  deriving DecidableEq

namespace Vars

def add (v w : Vars) : Vars := ⟨v.a + w.a, v.b + w.b, v.c + w.c, v.d + w.d, v.e + w.e, v.f + w.f, v.g + w.g, v.h + w.h⟩

def words (v : Vars) : List Word := [v.a, v.b, v.c, v.d, v.e, v.f, v.g, v.h]

end Vars

def ch (x y z : Word) : Word := (x &&& y) ^^^ (~~~x &&& z)
def maj (x y z : Word) : Word := (x &&& y) ^^^ (x &&& z) ^^^ (y &&& z)
def bigSigma0 (x : Word) : Word := x.rotateRight 2 ^^^ x.rotateRight 13 ^^^ x.rotateRight 22
def bigSigma1 (x : Word) : Word := x.rotateRight 6 ^^^ x.rotateRight 11 ^^^ x.rotateRight 25
def smallSigma0 (x : Word) : Word := x.rotateRight 7 ^^^ x.rotateRight 18 ^^^ x >>> 3
def smallSigma1 (x : Word) : Word := x.rotateRight 17 ^^^ x.rotateRight 19 ^^^ x >>> 10

/-- The first sixty-four primes. -/
def primes : List ℕ := (List.range 312).filter Nat.Prime

/-- The first thirty-two bits of the fractional part of a root. -/
def fraction (degree x : ℕ) : Word := BitVec.ofNat 32 (Nat.nthRoot degree (x * 2 ^ (32 * degree)))

/-- The constants, from the cube roots of the primes. -/
def constant (t : ℕ) : Word := fraction 3 (primes.getD t 0)

/-- The hash value before the first block, from the square roots of the first eight primes. -/
def initial : Vars :=
  let root i := fraction 2 (primes.getD i 0)
  ⟨root 0, root 1, root 2, root 3, root 4, root 5, root 6, root 7⟩

/-- The number that bytes are, the highest first. -/
def number (bytes : List UInt8) : ℕ := bytes.foldl (fun n x => 256 * n + x.toNat) 0

/-- The bytes of a number, the highest first. -/
def bytesOf (n x : ℕ) : List UInt8 := (List.range n).map fun i => UInt8.ofNat (x / 256 ^ (n - 1 - i))

/-- The words of a block. -/
def blockWord (block : List UInt8) (t : ℕ) : Word := BitVec.ofNat 32 (number ((block.drop (4 * t)).take 4))

def schedule (block : List UInt8) (t : ℕ) : Word :=
  if t < 16 then blockWord block t
  else smallSigma1 (schedule block (t - 2)) + schedule block (t - 7) + smallSigma0 (schedule block (t - 15)) +
    schedule block (t - 16)

/-- One step: every variable takes the place of the next. -/
def step (k w : Word) (v : Vars) : Vars :=
  let t1 := v.h + bigSigma1 v.e + ch v.e v.f v.g + k + w
  let t2 := bigSigma0 v.a + maj v.a v.b v.c
  ⟨t1 + t2, v.a, v.b, v.c, v.d + t1, v.e, v.f, v.g⟩

def steps (w : ℕ → Word) (n : ℕ) (v : Vars) : Vars :=
  (List.range n).foldl (fun v t => step (constant t) (w t) v) v

def hashBlock (v : Vars) (block : List UInt8) : Vars := v.add (steps (schedule block) 64 v)

/-- A one bit, zeros up to eight bytes before the end of a block, and the number of bits. -/
def pad (message : List UInt8) : List UInt8 :=
  message ++ 0x80 :: List.replicate ((119 - message.length % 64) % 64) 0 ++ bytesOf 8 (8 * message.length)

theorem length_bytesOf (n x : ℕ) : (bytesOf n x).length = n := by
  rw [bytesOf, List.length_map, List.length_range]

theorem length_pad (message : List UInt8) : 64 ∣ (pad message).length := by
  simp only [pad, List.length_append, List.length_cons, List.length_replicate, length_bytesOf]
  omega

def sha256 (message : List UInt8) : List UInt8 :=
  (feed 64 hashBlock initial (pad message)).1.words.flatMap fun w => bytesOf 4 w.toNat

end Unearth.Fips180
