import Njs.Crypto.Objects

/-!
# Digests of messages

For any transformation of the blocks, a message that comes in chunks ends in the state that the
transformation comes to from the blocks of the padded message. The padding is stated in terms of
numbers here: the fewest zeros, and the digits of the bit length.
-/

namespace Njs.Crypto

open Njs.Lib

/-- The transformation with another loop body. -/
def Transformation.withBlock {W : Type} (t : Transformation W) (block : W → List UInt8 → W) :
    Transformation W :=
  { t with block := block }

/-- The eight digits of a number in base 256, the least significant first. -/
def bytesOf (n : ℕ) : List UInt8 := (List.range 8).map fun i => UInt8.ofNat (n / 256 ^ i)

/-- The 64-bit bit length of a message of so many bytes. -/
def Alg.bitLength : Alg → ℕ → List UInt8
  | md5, n => bytesOf (8 * n)
  | sha1, n => (bytesOf (8 * n)).reverse
  | sha256, n => (bytesOf (8 * n)).reverse

/-- So many zeros fill the last block of a message of `n` bytes. -/
def Fills (n zeros : ℕ) : Prop := (n + 1 + zeros + 8) % blockSize = 0

/-- The padded message. -/
def Alg.padded (alg : Alg) (message : List UInt8) (zeros : ℕ) : List UInt8 :=
  message ++ [0x80] ++ List.replicate zeros 0 ++ alg.bitLength message.length

/-- A byte of the bit length, which is less than `2 ^ 64`. -/
theorem lengthByte_shift {n : ℕ} (h : n < 2 ^ 61) {i : ℕ} (hi : i < 8) :
    lengthByte (n.toUInt64 <<< 3) (8 * i).toUInt64 = UInt8.ofNat (8 * n / 256 ^ i) := by
  have hn : (n.toUInt64 <<< 3).toNat = 8 * n := by
    have hmod : n.toUInt64.toNat = n := Nat.mod_eq_of_lt (by omega)
    have hthree : (3 : UInt64).toNat % 64 = 3 := rfl
    rw [UInt64.toNat_shiftLeft, hmod, hthree, Nat.shiftLeft_eq]
    omega
  have hshift : (8 * i).toUInt64.toNat = 8 * i := by
    have hmod : (8 * i).toUInt64.toNat = 8 * i % 2 ^ 64 := rfl
    omega
  apply UInt8.toNat_inj.mp
  unfold lengthByte
  rw [UInt64.toNat_toUInt8, UInt64.toNat_shiftRight, hn, hshift, UInt8.toNat_ofNat',
    Nat.shiftRight_eq_div_pow, Nat.mod_eq_of_lt (show 8 * i < 64 by omega), Nat.pow_mul]

theorem lengthLittleEndian_eq {n : ℕ} (h : n < 2 ^ 61) :
    lengthLittleEndian (n.toUInt64 <<< 3) = bytesOf (8 * n) := by
  have hbytes : ∀ i < 8, lengthByte (n.toUInt64 <<< 3) (8 * i).toUInt64 =
      UInt8.ofNat (8 * n / 256 ^ i) := fun i hi => lengthByte_shift h hi
  have hshifts : ([0, 8, 16, 24, 32, 40, 48, 56] : List UInt64) =
      (List.range 8).map fun i => (8 * i).toUInt64 := rfl
  unfold lengthLittleEndian bytesOf
  rw [hshifts, List.map_map]
  apply List.map_congr_left
  intro i hi
  exact hbytes i (List.mem_range.mp hi)

theorem lengthBigEndian_eq {n : ℕ} (h : n < 2 ^ 61) :
    lengthBigEndian (n.toUInt64 <<< 3) = (bytesOf (8 * n)).reverse := by
  have hshifts : ([56, 48, 40, 32, 24, 16, 8, 0] : List UInt64) =
      ([0, 8, 16, 24, 32, 40, 48, 56] : List UInt64).reverse := rfl
  unfold lengthBigEndian
  rw [hshifts, List.map_reverse, ← lengthLittleEndian, lengthLittleEndian_eq h]

/-- The bit length at the end of the last block. -/
theorem lengthBytes_eq (alg : Alg) {n : ℕ} (h : n < 2 ^ 61) :
    alg.transformation.lengthBytes (n.toUInt64 <<< 3) = alg.bitLength n := by
  cases alg with
  | md5 => exact lengthLittleEndian_eq h
  | sha1 => exact lengthBigEndian_eq h
  | sha256 => exact lengthBigEndian_eq h

/-- The zeros of the padding are the fewest that fill the last block. -/
theorem fills_padding (n : ℕ) : Fills n ((119 - n % blockSize) % blockSize) ∧
    ∀ zeros, Fills n zeros → (119 - n % blockSize) % blockSize ≤ zeros := by
  unfold Fills
  simp only [blockSize]
  constructor
  · omega
  · intro zeros h
    omega

theorem padded_eq (alg : Alg) (block : alg.Words → List UInt8 → alg.Words)
    {message : List UInt8} (h : message.length < 2 ^ 61) :
    message ++ padding (alg.transformation.withBlock block) message.length =
      alg.padded message ((119 - message.length % blockSize) % blockSize) := by
  have hbytes := lengthBytes_eq alg h
  unfold padding Alg.padded
  rw [← hbytes]
  simp [Transformation.withBlock]

/-- With any transformation of the blocks, the digest of a message that comes in chunks, however
it is cut, is that of the state to which the transformation comes from the blocks of the padded
message. No chunk is written beyond the buffer. -/
theorem streaming_state (alg : Alg) (block : alg.Words → List UInt8 → alg.Words)
    (ctx : HashContext alg.Words) (chunks : List (List UInt8))
    (h : chunks.flatten.length < 2 ^ 61) :
    ∃ zeros taken left, Fills chunks.flatten.length zeros ∧
      (∀ fewer, Fills chunks.flatten.length fewer → zeros ≤ fewer) ∧
      chunks.foldlM (hashUpdate (alg.transformation.withBlock block))
        (hashInit (alg.transformation.withBlock block) ctx) = .ok taken ∧
      hashFinal (alg.transformation.withBlock block) taken =
        .ok (alg.transformation.result (absorbAll block blockSize alg.transformation.initial
          (alg.padded chunks.flatten zeros)), left) := by
  obtain ⟨taken, left, htaken, hfinal⟩ :=
    @stream_digest _ (alg.transformation.withBlock block) ctx chunks
  obtain ⟨hfills, hleast⟩ := fills_padding chunks.flatten.length
  refine ⟨_, taken, left, hfills, hleast, htaken, ?_⟩
  rw [hfinal, digest, padded_eq alg block h]
  rfl

/-- The text `abc` in two chunks, with any context before. -/
theorem streaming_state_abc :
    ∃ zeros taken left, Fills 3 zeros ∧ (∀ fewer, Fills 3 fewer → zeros ≤ fewer) ∧
      [[97], [98, 99]].foldlM (hashUpdate (Alg.sha256.transformation.withBlock sha2Block))
        (hashInit (Alg.sha256.transformation.withBlock sha2Block)
          ⟨7, sha2.zero, Buffer.zero⟩) = .ok taken ∧
      hashFinal (Alg.sha256.transformation.withBlock sha2Block) taken =
        .ok (sha2.result (absorbAll sha2Block blockSize sha2.initial
          (Alg.sha256.padded [97, 98, 99] zeros)), left) :=
  streaming_state .sha256 sha2Block ⟨7, sha2.zero, Buffer.zero⟩ [[97], [98, 99]] (by decide)

end Njs.Crypto
