import Eidnara.Lib.Words

/-!
# Words of byte lanes

A word whose bytes are each a function of the byte of another word.  The bitwise operations
act on every lane alone; so do addition and subtraction where no lane carries or borrows.
-/

namespace Eidnara.Lib.Words

open List

def lanes (f : UInt8 → UInt8) (bytes : List UInt8) : Nat := littleEndian (bytes.map f)

section

variable (f g : UInt8 → UInt8) (byte : UInt8) (bytes : List UInt8)

theorem lanes_nil : lanes f [] = 0 := rfl

theorem lanes_cons : lanes f (byte :: bytes) = 256 * lanes f bytes + (f byte).toNat := by
  rw [lanes, map_cons, littleEndian, Nat.add_comm]
  rfl

theorem lanes_id : lanes id bytes = littleEndian bytes := by
  rw [lanes, map_id]

theorem lanes_lt : lanes f bytes < 256 ^ bytes.length := by
  have h := littleEndian_lt (bytes.map f)
  rwa [length_map] at h

theorem lanes_append (rest : List UInt8) :
    lanes f (bytes ++ rest) = lanes f bytes + 256 ^ bytes.length * lanes f rest := by
  rw [lanes, map_append, littleEndian_append, length_map]
  rfl

theorem lanes_congr {f g : UInt8 → UInt8} {bytes : List UInt8}
    (h : ∀ byte ∈ bytes, f byte = g byte) :
    lanes f bytes = lanes g bytes := by
  rw [lanes, lanes, map_congr_left h]

theorem lanes_inj {f g : UInt8 → UInt8} {bytes : List UInt8} :
    lanes f bytes = lanes g bytes ↔ ∀ byte ∈ bytes, f byte = g byte := by
  refine ⟨fun h => ?_, lanes_congr⟩
  have hmap := littleEndian_injective (by simp) h
  exact map_inj_left.mp hmap

theorem lanes_and : lanes f bytes &&& lanes g bytes = lanes (fun b => f b &&& g b) bytes := by
  induction bytes with
  | nil => simp only [lanes_nil, Nat.and_self]
  | cons byte bytes ih =>
    rw [lanes_cons, lanes_cons, lanes_cons, and_split (f byte).toNat_lt (g byte).toNat_lt, ih,
      UInt8.toNat_and]

theorem lanes_or : lanes f bytes ||| lanes g bytes = lanes (fun b => f b ||| g b) bytes := by
  induction bytes with
  | nil => simp only [lanes_nil, Nat.or_self]
  | cons byte bytes ih =>
    rw [lanes_cons, lanes_cons, lanes_cons, or_split (f byte).toNat_lt (g byte).toNat_lt, ih,
      UInt8.toNat_or]

theorem lanes_xor : lanes f bytes ^^^ lanes g bytes = lanes (fun b => f b ^^^ g b) bytes := by
  induction bytes with
  | nil => simp only [lanes_nil, Nat.xor_self]
  | cons byte bytes ih =>
    rw [lanes_cons, lanes_cons, lanes_cons, xor_split (f byte).toNat_lt (g byte).toNat_lt, ih,
      UInt8.toNat_xor]

theorem lanes_complement :
    complement (256 ^ bytes.length) (lanes f bytes) = lanes (fun b => ~~~ f b) bytes := by
  induction bytes with
  | nil => rfl
  | cons byte bytes ih =>
    have hlow : complement 256 (f byte).toNat = (~~~ f byte).toNat := by
      rw [UInt8.toNat_not, complement]
    rw [lanes_cons, lanes_cons, length_cons, Nat.pow_succ, Nat.mul_comm,
      complement_split (lanes_lt f bytes) (f byte).toNat_lt, ih, hlow]

end

variable {f g : UInt8 → UInt8} {bytes : List UInt8}

theorem lanes_add (h : ∀ byte ∈ bytes, (f byte).toNat + (g byte).toNat < 256) :
    lanes f bytes + lanes g bytes = lanes (fun b => f b + g b) bytes := by
  induction bytes with
  | nil => rfl
  | cons byte bytes ih =>
    rw [forall_mem_cons] at h
    have hlow : (f byte + g byte).toNat = (f byte).toNat + (g byte).toNat := by
      exact Nat.mod_eq_of_lt h.1
    rw [lanes_cons, lanes_cons, lanes_cons, hlow, ← ih h.2]
    omega

theorem lanes_sub (h : ∀ byte ∈ bytes, (g byte).toNat ≤ (f byte).toNat) :
    wrappingSub (256 ^ bytes.length) (lanes f bytes) (lanes g bytes) =
      lanes (fun b => f b - g b) bytes := by
  induction bytes with
  | nil => simp [lanes_nil, wrappingSub]
  | cons byte bytes ih =>
    rw [forall_mem_cons] at h
    have hlow : (f byte - g byte).toNat = (f byte).toNat - (g byte).toNat :=
      UInt8.toNat_sub_of_le _ _ h.1
    rw [lanes_cons, lanes_cons, lanes_cons, hlow, ← ih h.2, length_cons, Nat.pow_succ,
      Nat.mul_comm]
    exact wrappingSub_split (lanes_lt g bytes) (f byte).toNat_lt h.1

/-- The lowest bit of a word whose first marked lane is marked in its top bit. -/
theorem trailingZeros_lanes {before after : List UInt8} {byte : UInt8}
    (hbefore : ∀ b ∈ before, f b = 0) (hbyte : f byte = 0x80) :
    trailingZeros (8 * (before ++ byte :: after).length) (lanes f (before ++ byte :: after)) =
      8 * before.length + 7 := by
  have hzero : lanes f before = 0 := by
    have hall : lanes f before = lanes (fun _ => 0) before := lanes_congr hbefore
    rw [hall]
    clear hbefore hall
    induction before with
    | nil => rfl
    | cons b before ih => rw [lanes_cons, ih]; rfl
  have hpow : 256 ^ before.length = 2 ^ (8 * before.length) := by rw [Nat.pow_mul]
  have hbits : ∀ j, (lanes f (before ++ byte :: after)).testBit j =
      (decide (8 * before.length ≤ j) &&
        if j - 8 * before.length < 8 then Nat.testBit 0x80 (j - 8 * before.length)
        else (lanes f after).testBit (j - 8 * before.length - 8)) := by
    intro j
    have hlow : (0x80 : UInt8).toNat = 0x80 := rfl
    rw [lanes_append, hzero, Nat.zero_add, hpow, Nat.testBit_two_pow_mul, lanes_cons, hbyte,
      testBit_split (by decide), hlow]
  refine trailingZeros_eq ?_ ?_ ?_
  · simp only [length_append, length_cons]
    omega
  · rw [hbits]
    have htop : Nat.testBit 0x80 7 = true := by decide
    simp [htop]
  · intro j hj
    rw [hbits]
    by_cases hle : 8 * before.length ≤ j
    · have hbit : ∀ k < 7, Nat.testBit 0x80 k = false := by decide
      rw [if_pos (by omega), hbit _ (by omega), Bool.and_false]
    · simp [hle]

end Eidnara.Lib.Words
