-- SUMMARY: The 64-bit hash of a buffer of bytes, computed in place over a shrinking buffer.
import Mathlib.Tactic.Ring
import Bpt.Base.SipHash

/-!
# SipHash

The constructor of `siphash64` takes words from the front of the buffer and adds what is
left of it to a last word.
-/

namespace Bpt.Siphash64

/-- The four variables of the constructor. -/
structure Vars where
  v0 : UInt64
  v1 : UInt64
  v2 : UInt64
  v3 : UInt64

def rotl (x : UInt64) (n : Nat) : UInt64 := x <<< .ofNat n ||| x >>> .ofNat (64 - n)

/-- Read a little-endian integer from the bytes that fit into it, the last of them first. -/
def readU64Le (buf : List UInt8) : UInt64 :=
  let bytes := (buf ++ .replicate 8 0).take 8
  bytes.foldr (fun byte m => m <<< 8 ||| byte.toUInt64) 0

def siphashRound (v : Vars) : Vars :=
  let v0 := v.v0 + v.v1
  let v1 := rotl v.v1 13
  let v1 := v1 ^^^ v0
  let v0 := rotl v0 32
  let v2 := v.v2 + v.v3
  let v3 := rotl v.v3 16
  let v3 := v3 ^^^ v2
  let v0 := v0 + v3
  let v3 := rotl v3 21
  let v3 := v3 ^^^ v0
  let v2 := v2 + v1
  let v1 := rotl v1 17
  let v1 := v1 ^^^ v2
  let v2 := rotl v2 32
  ⟨v0, v1, v2, v3⟩

def cRounds : Nat := 2

def dRounds : Nat := 4

/-- What is done with each word, and with the last one. -/
def addWord (v : Vars) (m : UInt64) : Vars :=
  let v := siphashRound^[cRounds] { v with v3 := v.v3 ^^^ m }
  { v with v0 := v.v0 ^^^ m }

/-- The loop that takes words from the buffer, as long as there are eight bytes. -/
def addWords (buf : List UInt8) (v : Vars) : List UInt8 × Vars :=
  if 8 ≤ buf.length then addWords (buf.drop 8) (addWord v (readU64Le buf)) else (buf, v)
termination_by buf.length
decreasing_by
  rw [List.length_drop]
  omega

/-- The switch: the case of `n + 1` adds the byte at `n` and falls through to that of `n`. -/
def remainingBytes (buf : List UInt8) : Nat → UInt64 → UInt64
  | 0, b => b
  | n + 1, b => remainingBytes buf n (b ||| (buf.getD n 0).toUInt64 <<< .ofNat (8 * n))

def initial (key0 key1 : UInt64) : Vars where
  v0 := 0x736f6d6570736575 ^^^ key0
  v1 := 0x646f72616e646f6d ^^^ key1
  v2 := 0x6c7967656e657261 ^^^ key0
  v3 := 0x7465646279746573 ^^^ key1

def finish (v : Vars) : UInt64 :=
  let v := siphashRound^[dRounds] { v with v2 := v.v2 ^^^ 0xff }
  v.v0 ^^^ v.v1 ^^^ v.v2 ^^^ v.v3

/-- The digest that the constructor leaves. -/
def siphash64 (key0 key1 : UInt64) (buf : List UInt8) : UInt64 :=
  -- the low byte of the size, in the high bits
  let b := UInt64.ofNat buf.length <<< 56
  let (buf, v) := addWords buf (initial key0 key1)
  finish (addWord v (remainingBytes buf buf.length b))

/-! ## Rounds -/

/-- The variables as the state of the reference definition. -/
def Vars.toState (v : Vars) : SipHash.State where
  v0 := v.v0.toBitVec
  v1 := v.v1.toBitVec
  v2 := v.v2.toBitVec
  v3 := v.v3.toBitVec

theorem toBitVec_rotl {n : Nat} (x : UInt64) (hpos : 0 < n) (hn : n < 64) :
    (rotl x n).toBitVec = x.toBitVec.rotateLeft n := by
  have hshift : ∀ k < 64, ((UInt64.ofNat k).toBitVec % 64).toNat = k := by
    intro k hk
    rw [BitVec.toNat_umod, UInt64.toNat_toBitVec, UInt64.toNat_ofNat']
    exact (congrArg (· % 64) (Nat.mod_eq_of_lt (by omega))).trans (Nat.mod_eq_of_lt hk)
  unfold rotl BitVec.rotateLeft BitVec.rotateLeftAux
  rw [UInt64.toBitVec_or, UInt64.toBitVec_shiftLeft, UInt64.toBitVec_shiftRight,
    BitVec.shiftLeft_eq', BitVec.ushiftRight_eq', hshift n hn, hshift (64 - n) (by omega),
    Nat.mod_eq_of_lt hn]

theorem toState_siphashRound (v : Vars) :
    (siphashRound v).toState = SipHash.sipRound v.toState := by
  simp only [Vars.toState, siphashRound, SipHash.sipRound, UInt64.toBitVec_add,
    UInt64.toBitVec_xor, toBitVec_rotl _ (show 0 < 13 by decide) (show 13 < 64 by decide),
    toBitVec_rotl _ (show 0 < 16 by decide) (show 16 < 64 by decide),
    toBitVec_rotl _ (show 0 < 17 by decide) (show 17 < 64 by decide),
    toBitVec_rotl _ (show 0 < 21 by decide) (show 21 < 64 by decide),
    toBitVec_rotl _ (show 0 < 32 by decide) (show 32 < 64 by decide)]

theorem toState_rounds (n : Nat) (v : Vars) :
    (siphashRound^[n] v).toState = SipHash.sipRound^[n] v.toState :=
  Function.Semiconj.iterate_right toState_siphashRound n v

theorem toState_addWord (v : Vars) (m : UInt64) :
    (addWord v m).toState = SipHash.compress cRounds v.toState m.toBitVec := by
  have hrounds := toState_rounds cRounds { v with v3 := v.v3 ^^^ m }
  unfold SipHash.compress
  rw [show ({ v.toState with v3 := v.toState.v3 ^^^ m.toBitVec } : SipHash.State) =
    Vars.toState { v with v3 := v.v3 ^^^ m } from rfl, ← hrounds]
  rfl

theorem toState_initial (key0 key1 : UInt64) :
    (initial key0 key1).toState = SipHash.initial key0.toBitVec key1.toBitVec := by
  simp only [Vars.toState, initial, SipHash.initial, UInt64.toBitVec_xor, BitVec.xor_comm]
  rfl

theorem toBitVec_finish (v : Vars) : (finish v).toBitVec = SipHash.finalize dRounds v.toState := by
  have hrounds := toState_rounds dRounds { v with v2 := v.v2 ^^^ 0xff }
  unfold SipHash.finalize
  rw [show ({ v.toState with v2 := v.toState.v2 ^^^ 0xff } : SipHash.State) =
    Vars.toState { v with v2 := v.v2 ^^^ 0xff } from rfl, ← hrounds]
  rfl

/-! ## Words -/

theorem toNat_foldr_bytes {bytes : List UInt8} (h : bytes.length ≤ 8) :
    (bytes.foldr (fun byte (m : UInt64) => m <<< 8 ||| byte.toUInt64) 0).toNat =
      SipHash.littleEndian bytes := by
  induction bytes with
  | nil => rfl
  | cons byte bytes ih =>
    have hlt : SipHash.littleEndian bytes < 256 ^ 7 :=
      (SipHash.littleEndian_lt bytes).trans_le
        (Nat.pow_le_pow_right (by decide) (Nat.le_of_succ_le_succ h))
    have hbyte : byte.toNat < 2 ^ 8 := byte.toNat_lt
    rw [List.foldr_cons, UInt64.toNat_or, UInt64.toNat_shiftLeft, ih (Nat.le_of_succ_le h),
      UInt8.toNat_toUInt64, SipHash.littleEndian_cons]
    rw [show (8 : UInt64).toNat % 64 = 8 from rfl, Nat.mod_eq_of_lt (by
      rw [Nat.shiftLeft_eq]
      omega), ← Nat.shiftLeft_add_eq_or_of_lt hbyte, Nat.shiftLeft_eq]
    omega

theorem toBitVec_readU64Le {buf : List UInt8} (h : 8 ≤ buf.length) :
    (readU64Le buf).toBitVec = SipHash.word (buf.take 8) := by
  have hbytes : (buf ++ .replicate 8 0).take 8 = buf.take 8 := List.take_append_of_le_length h
  unfold readU64Le SipHash.word
  rw [hbytes, ← toNat_foldr_bytes (List.length_take_le 8 buf), ← UInt64.toNat_toBitVec,
    BitVec.ofNat_toNat, BitVec.setWidth_eq]

/-- The loop over the buffer compresses the words that are full, and leaves the rest. -/
theorem addWords_eq (buf : List UInt8) (v : Vars) :
    (addWords buf v).1 = buf.drop (8 * (buf.length / 8)) ∧
      (addWords buf v).2.toState =
        (SipHash.fullWords buf).foldl (SipHash.compress cRounds) v.toState := by
  fun_induction addWords buf v with
  | case1 buf v h ih =>
    rw [SipHash.fullWords_of_le h, List.foldl_cons, ← toBitVec_readU64Le h, ← toState_addWord]
    refine ⟨?_, ih.2⟩
    rw [ih.1, List.drop_drop, List.length_drop]
    congr 1
    omega
  | case2 buf v h =>
    rw [SipHash.fullWords_of_lt (by omega), Nat.div_eq_of_lt (by omega)]
    exact ⟨rfl, rfl⟩

/-- What falls through adds the lower bytes to a number that has none of them. -/
theorem toNat_remainingBytes (buf : List UInt8) (n : Nat) {q : Nat} {b : UInt64}
    (hn : n ≤ buf.length) (hle : n ≤ 7) (hb : b.toNat = q <<< (8 * n)) :
    (remainingBytes buf n b).toNat = b.toNat + SipHash.littleEndian (buf.take n) := by
  induction n generalizing b q with
  | zero => rfl
  | succ n ih =>
    have hbyte : buf[n].toNat < 2 ^ 8 := buf[n].toNat_lt
    have hshift : (buf[n].toUInt64 <<< UInt64.ofNat (8 * n)).toNat = buf[n].toNat <<< (8 * n) := by
      have hbits : 2 ^ (8 * n) ≤ 2 ^ 48 := Nat.pow_le_pow_right (by decide) (by omega)
      rw [UInt64.toNat_shiftLeft, UInt8.toNat_toUInt64, UInt64.toNat_ofNat',
        Nat.mod_eq_of_lt (show 8 * n < 2 ^ 64 by omega),
        Nat.mod_eq_of_lt (show 8 * n < 64 by omega)]
      apply Nat.mod_eq_of_lt
      rw [Nat.shiftLeft_eq]
      calc buf[n].toNat * 2 ^ (8 * n) < 2 ^ 8 * 2 ^ (8 * n) :=
            Nat.mul_lt_mul_of_pos_right hbyte (Nat.two_pow_pos _)
        _ ≤ 2 ^ 8 * 2 ^ 48 := Nat.mul_le_mul_left _ hbits
        _ ≤ 2 ^ 64 := by decide
    have hor : (b ||| buf[n].toUInt64 <<< UInt64.ofNat (8 * n)).toNat =
        (2 ^ 8 * q + buf[n].toNat) <<< (8 * n) := by
      rw [UInt64.toNat_or, hb, hshift, Nat.mul_succ, Nat.add_comm, Nat.shiftLeft_add,
        ← Nat.shiftLeft_or_distrib, ← Nat.shiftLeft_add_eq_or_of_lt hbyte, Nat.shiftLeft_eq q,
        Nat.mul_comm q]
    have htake : SipHash.littleEndian (buf.take (n + 1)) =
        SipHash.littleEndian (buf.take n) + 256 ^ n * buf[n].toNat := by
      rw [List.take_succ_eq_append_getElem hn, SipHash.littleEndian_append,
        List.length_take_of_le (Nat.le_of_succ_le hn), SipHash.littleEndian_cons,
        SipHash.littleEndian_nil, Nat.mul_zero, Nat.add_zero]
    unfold remainingBytes
    rw [List.getD_eq_getElem?_getD, List.getElem?_eq_getElem hn, Option.getD_some,
      ih (Nat.le_of_succ_le hn) (Nat.le_of_succ_le hle) hor, hor,
      htake, hb, Nat.shiftLeft_eq, Nat.shiftLeft_eq, Nat.mul_succ, Nat.pow_add, Nat.pow_mul]
    ring

/-- The last word is what remains of the buffer, below the length. -/
theorem toBitVec_remainingBytes (buf : List UInt8) :
    (remainingBytes (buf.drop (8 * (buf.length / 8))) (buf.drop (8 * (buf.length / 8))).length
      (UInt64.ofNat buf.length <<< 56)).toBitVec = SipHash.lastWord buf := by
  have hlength : (buf.drop (8 * (buf.length / 8))).length = buf.length % 8 := by
    rw [List.length_drop]
    omega
  have htop : (UInt64.ofNat buf.length <<< 56).toNat = (buf.length % 256) * 2 ^ 56 := by
    rw [UInt64.toNat_shiftLeft, UInt64.toNat_ofNat', show (56 : UInt64).toNat % 64 = 56 from rfl,
      Nat.shiftLeft_eq]
    omega
  have htop' : (UInt64.ofNat buf.length <<< 56).toNat =
      ((buf.length % 256) <<< (56 - 8 * (buf.length % 8))) <<< (8 * (buf.length % 8)) := by
    rw [htop, ← Nat.shiftLeft_add, Nat.shiftLeft_eq, Nat.sub_add_cancel (by omega)]
  have hremaining := toNat_remainingBytes (buf.drop (8 * (buf.length / 8)))
    (buf.length % 8) hlength.ge (by omega) htop'
  rw [List.take_of_length_le hlength.le, htop] at hremaining
  unfold SipHash.lastWord SipHash.word
  rw [SipHash.littleEndian_append, SipHash.littleEndian_append,
    SipHash.littleEndian_replicate_zero, List.length_append, hlength, List.length_replicate,
    SipHash.littleEndian_cons, SipHash.littleEndian_nil, UInt8.toNat_ofNat',
    show buf.length % 8 + (7 - buf.length % 8) = 7 by omega]
  apply BitVec.eq_of_toNat_eq
  rw [UInt64.toNat_toBitVec, hremaining, BitVec.toNat_ofNat]
  have hlt := SipHash.littleEndian_lt (buf.drop (8 * (buf.length / 8)))
  have hpow : 256 ^ (buf.drop (8 * (buf.length / 8))).length ≤ 256 ^ 7 :=
    Nat.pow_le_pow_right (by decide) (by omega)
  omega

/-! ## The digest -/

/-- The digest is the reference hash with two rounds for a word and four in the end. -/
theorem siphash64_eq_hash (key0 key1 : UInt64) (buf : List UInt8) :
    (siphash64 key0 key1 buf).toBitVec = SipHash.hash 2 4 key0.toBitVec key1.toBitVec buf := by
  obtain ⟨hbuf, hwords⟩ := addWords_eq buf (initial key0 key1)
  unfold siphash64 SipHash.hash SipHash.words
  rw [toBitVec_finish, toState_addWord, hbuf, toBitVec_remainingBytes, hwords, toState_initial,
    List.foldl_append]
  rfl

example : siphash64 0x0706050403020100 0x0f0e0d0c0b0a0908 [0, 1, 2] = 0x85676696d7fb7e2d := by
  unfold siphash64 addWords
  decide

end Bpt.Siphash64
