import Eidnara.Lib.Slices
import Mathlib.Tactic.Ring

/-!
# Machine words as naturals

Wrapping subtraction, complement and the lowest set bit of a word, and how the
bitwise operations act on a word that is split into its lowest byte and the rest.
-/

namespace Eidnara.Lib.Words

open List

theorem forall_byte {P : UInt8 → Prop} (h : ∀ n < 256, P (UInt8.ofNat n)) (byte : UInt8) :
    P byte := by
  have hbyte := h byte.toNat byte.toNat_lt
  rwa [UInt8.ofNat_toNat] at hbyte

def wrappingSub (m a b : Nat) : Nat := (a + (m - b)) % m

/-- The complement of a word below `m`, a power of two. -/
def complement (m a : Nat) : Nat := m - 1 - a

def trailingZeros (width n : Nat) : Nat :=
  ((List.range width).find? n.testBit).getD width

theorem trailingZeros_eq {width n k : Nat} (hk : k < width) (hset : n.testBit k = true)
    (hlow : ∀ j < k, n.testBit j = false) : trailingZeros width n = k := by
  have hfind : (List.range width).find? n.testBit = some k := by
    rw [find?_range_eq_some]
    exact ⟨hset, mem_range.mpr hk, fun j hj => by simp [hlow j hj]⟩
  rw [trailingZeros, hfind]
  rfl

def littleEndian : List UInt8 → Nat
  | [] => 0
  | byte :: bytes => byte.toNat + 256 * littleEndian bytes

theorem littleEndian_lt (bytes : List UInt8) : littleEndian bytes < 256 ^ bytes.length := by
  induction bytes with
  | nil => decide
  | cons byte bytes ih =>
    have hbyte := byte.toNat_lt
    rw [littleEndian, length_cons, Nat.pow_succ]
    omega

theorem littleEndian_append (bytes rest : List UInt8) :
    littleEndian (bytes ++ rest) =
      littleEndian bytes + 256 ^ bytes.length * littleEndian rest := by
  induction bytes with
  | nil => simp [littleEndian]
  | cons byte bytes ih =>
    rw [cons_append, littleEndian, ih, littleEndian, length_cons, Nat.pow_succ]
    ring

theorem littleEndian_injective {a b : List UInt8} (hlength : a.length = b.length)
    (h : littleEndian a = littleEndian b) : a = b := by
  induction a generalizing b with
  | nil => exact (eq_nil_of_length_eq_zero hlength.symm).symm
  | cons x a ih =>
    obtain ⟨y, b, rfl⟩ := exists_cons_of_length_eq_add_one hlength.symm
    have hx := x.toNat_lt
    have hy := y.toNat_lt
    simp only [littleEndian] at h
    rw [UInt8.toNat.inj (show x.toNat = y.toNat by omega),
      ih (Nat.succ.inj hlength) (by omega)]

def toLittleEndian : Nat → Nat → List UInt8
  | 0, _ => []
  | width + 1, n => UInt8.ofNat n :: toLittleEndian width (n / 256)

theorem length_toLittleEndian (width n : Nat) : (toLittleEndian width n).length = width := by
  induction width generalizing n with
  | zero => rfl
  | succ width ih => rw [toLittleEndian, length_cons, ih]

theorem littleEndian_toLittleEndian {width n : Nat} (h : n < 256 ^ width) :
    littleEndian (toLittleEndian width n) = n := by
  induction width generalizing n with
  | zero =>
    rw [toLittleEndian, littleEndian]
    omega
  | succ width ih =>
    rw [Nat.pow_succ, Nat.mul_comm] at h
    rw [toLittleEndian, littleEndian, ih (Nat.div_lt_of_lt_mul h), UInt8.toNat_ofNat']
    omega

theorem toLittleEndian_littleEndian (bytes : List UInt8) :
    toLittleEndian bytes.length (littleEndian bytes) = bytes := by
  refine littleEndian_injective (length_toLittleEndian _ _) ?_
  exact littleEndian_toLittleEndian (littleEndian_lt bytes)

section Field

variable {bytes : List UInt8} {offset width : Nat}

theorem littleEndian_slice_lt (h : offset + width ≤ bytes.length) :
    littleEndian (slice bytes offset (offset + width)) < 256 ^ width := by
  have hlt := littleEndian_lt (slice bytes offset (offset + width))
  rwa [length_slice h, Nat.add_sub_cancel_left] at hlt

theorem toLittleEndian_slice (h : offset + width ≤ bytes.length) :
    toLittleEndian width (littleEndian (slice bytes offset (offset + width))) =
      slice bytes offset (offset + width) := by
  have hback := toLittleEndian_littleEndian (slice bytes offset (offset + width))
  rwa [length_slice h, Nat.add_sub_cancel_left] at hback

theorem littleEndian_slice_of_occurs {n : Nat} (hn : n < 256 ^ width)
    (h : OccursAt bytes offset (toLittleEndian width n)) :
    littleEndian (slice bytes offset (offset + width)) = n := by
  have hslice := h.slice_eq
  rw [length_toLittleEndian] at hslice
  rw [hslice, littleEndian_toLittleEndian hn]

end Field

/-! ## Byte by byte -/

section Split

variable {a c b d : Nat}

theorem testBit_split (hb : b < 256) (j : Nat) :
    (256 * a + b).testBit j = if j < 8 then b.testBit j else a.testBit (j - 8) :=
  Nat.testBit_two_pow_mul_add a (i := 8) hb j

theorem bitwise_split {f : Bool → Bool → Bool} (hf : f false false = false) (hb : b < 256)
    (hd : d < 256) : Nat.bitwise f (256 * a + b) (256 * c + d) =
      256 * Nat.bitwise f a c + Nat.bitwise f b d := by
  have hlt : Nat.bitwise f b d < 256 := Nat.bitwise_lt_two_pow (n := 8) hb hd
  apply Nat.eq_of_testBit_eq
  intro j
  rw [testBit_split hlt]
  simp only [Nat.testBit_bitwise hf, testBit_split hb, testBit_split hd]
  split <;> rfl

theorem xor_split (hb : b < 256) (hd : d < 256) :
    (256 * a + b) ^^^ (256 * c + d) = 256 * (a ^^^ c) + (b ^^^ d) :=
  bitwise_split rfl hb hd

theorem and_split (hb : b < 256) (hd : d < 256) :
    (256 * a + b) &&& (256 * c + d) = 256 * (a &&& c) + (b &&& d) :=
  bitwise_split rfl hb hd

theorem or_split (hb : b < 256) (hd : d < 256) :
    (256 * a + b) ||| (256 * c + d) = 256 * (a ||| c) + (b ||| d) :=
  bitwise_split rfl hb hd

variable {m : Nat}

theorem complement_split (ha : a < m) (hb : b < 256) :
    complement (256 * m) (256 * a + b) = 256 * complement m a + complement 256 b := by
  simp only [complement]
  omega

/-- Without a borrow from the lowest byte, the bytes above subtract alone. -/
theorem wrappingSub_split (hc : c < m) (hb : b < 256) (hd : d ≤ b) :
    wrappingSub (256 * m) (256 * a + b) (256 * c + d) =
      256 * wrappingSub m a c + (b - d) := by
  have hsum : 256 * a + b + (256 * m - (256 * c + d)) = 256 * (a + (m - c)) + (b - d) := by
    omega
  have hdiv : (256 * (a + (m - c)) + (b - d)) / 256 = a + (m - c) := by omega
  have hmod : (256 * (a + (m - c)) + (b - d)) % 256 = b - d := by omega
  rw [wrappingSub, hsum, Nat.mod_mul, hdiv, hmod, wrappingSub]
  omega

theorem wrappingSub_mod (hc : 256 * c + d ≤ 256 * m) (hd : d < 256) :
    wrappingSub (256 * m) (256 * a + b) (256 * c + d) % 256 = wrappingSub 256 b d := by
  rw [wrappingSub, Nat.mod_mul_right_mod, wrappingSub]
  omega

end Split

end Eidnara.Lib.Words
