-- SUMMARY: The reference definition of SipHash: little-endian words, a compression for each word, and a finalization.
import Mathlib.Data.Nat.Digits.Defs

/-!
# SipHash

The family of keyed hashes with `c` rounds for each word and `d` rounds in the end, over
words of 64 bits.
-/

namespace SipHash

structure State where
  v0 : BitVec 64
  v1 : BitVec 64
  v2 : BitVec 64
  v3 : BitVec 64
  deriving DecidableEq

/-- The additions of each half of a round are made side by side. -/
def sipRound (s : State) : State :=
  let v0 := s.v0 + s.v1
  let v2 := s.v2 + s.v3
  let v1 := s.v1.rotateLeft 13 ^^^ v0
  let v3 := s.v3.rotateLeft 16 ^^^ v2
  let v0 := v0.rotateLeft 32 + v3
  let v2 := v2 + v1
  let v1 := v1.rotateLeft 17 ^^^ v2
  let v3 := v3.rotateLeft 21 ^^^ v0
  ⟨v0, v1, v2.rotateLeft 32, v3⟩

def initial (k0 k1 : BitVec 64) : State where
  v0 := k0 ^^^ 0x736f6d6570736575
  v1 := k1 ^^^ 0x646f72616e646f6d
  v2 := k0 ^^^ 0x6c7967656e657261
  v3 := k1 ^^^ 0x7465646279746573

def compress (c : Nat) (s : State) (m : BitVec 64) : State :=
  let s := sipRound^[c] { s with v3 := s.v3 ^^^ m }
  { s with v0 := s.v0 ^^^ m }

def finalize (d : Nat) (s : State) : BitVec 64 :=
  let s := sipRound^[d] { s with v2 := s.v2 ^^^ 0xff }
  s.v0 ^^^ s.v1 ^^^ s.v2 ^^^ s.v3

/-! ## Words -/

/-- The number whose digits are the bytes, the lowest first. -/
def littleEndian (bytes : List UInt8) : Nat := Nat.ofDigits 256 (bytes.map UInt8.toNat)

def word (bytes : List UInt8) : BitVec 64 := .ofNat 64 (littleEndian bytes)

/-- The bytes that fill no word, zeros, and the length modulo 256 in the top byte. -/
def lastWord (message : List UInt8) : BitVec 64 :=
  word (message.drop (8 * (message.length / 8)) ++ .replicate (7 - message.length % 8) 0 ++
    [UInt8.ofNat message.length])

def fullWords (message : List UInt8) : List (BitVec 64) :=
  (List.range (message.length / 8)).map fun i => word ((message.drop (8 * i)).take 8)

/-- The words of a message. There is one more than it fills. -/
def words (message : List UInt8) : List (BitVec 64) := fullWords message ++ [lastWord message]

/-- The hash of a message under the key of the words `k0` and `k1`. -/
def hash (c d : Nat) (k0 k1 : BitVec 64) (message : List UInt8) : BitVec 64 :=
  finalize d ((words message).foldl (compress c) (initial k0 k1))

/-! ## Laws of the words -/

theorem littleEndian_nil : littleEndian [] = 0 := rfl

theorem littleEndian_cons (byte : UInt8) (bytes : List UInt8) :
    littleEndian (byte :: bytes) = byte.toNat + 256 * littleEndian bytes :=
  Nat.ofDigits_cons

theorem littleEndian_append (bytes bytes' : List UInt8) :
    littleEndian (bytes ++ bytes') =
      littleEndian bytes + 256 ^ bytes.length * littleEndian bytes' := by
  unfold littleEndian
  rw [List.map_append, Nat.ofDigits_append, List.length_map]

theorem littleEndian_replicate_zero (n : Nat) : littleEndian (.replicate n 0) = 0 := by
  unfold littleEndian
  rw [List.map_replicate]
  exact Nat.ofDigits_replicate_zero

theorem littleEndian_lt (bytes : List UInt8) : littleEndian bytes < 256 ^ bytes.length := by
  have h := Nat.ofDigits_lt_base_pow_length (b := 256) (l := bytes.map UInt8.toNat) (by decide) ?_
  · rwa [List.length_map] at h
  · intro digit hdigit
    obtain ⟨byte, -, rfl⟩ := List.mem_map.mp hdigit
    exact byte.toNat_lt

theorem fullWords_of_lt {message : List UInt8} (h : message.length < 8) :
    fullWords message = [] := by
  unfold fullWords
  rw [Nat.div_eq_of_lt h]
  rfl

/-- A message of a word or more has its first word, then those of the rest. -/
theorem fullWords_of_le {message : List UInt8} (h : 8 ≤ message.length) :
    fullWords message = word (message.take 8) :: fullWords (message.drop 8) := by
  have hlength : message.length / 8 = (message.drop 8).length / 8 + 1 := by
    rw [List.length_drop]
    omega
  unfold fullWords
  rw [hlength, List.range_succ_eq_map, List.map_cons, List.map_map]
  simp only [Function.comp_def, List.drop_drop, Nat.mul_succ, Nat.mul_zero, List.drop_zero,
    Nat.add_comm]

end SipHash
