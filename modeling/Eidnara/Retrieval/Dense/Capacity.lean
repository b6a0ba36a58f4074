import Eidnara.Lib.Checked
import Mathlib.Data.Rat.Floor

/-!
# The size of the candidate pool

`dense/capacity.rs`: `R = ceil(alpha * K)` from the bits of alpha, in exact integer arithmetic.
An outer `none` stands for a panic: a failed `expect`, a product past `u128` or a shift by the
word width.
-/

namespace Eidnara.Retrieval.Dense

open Lib

/-! ## Doubles by their bits -/

abbrev F64 : Type := UInt64

namespace F64

def biased (x : F64) : Nat := x.toNat / 2 ^ 52 % 2 ^ 11

def fraction (x : F64) : Nat := x.toNat % 2 ^ 52

def isNegative (x : F64) : Prop := 2 ^ 63 ≤ x.toNat

instance (x : F64) : Decidable x.isNegative := inferInstanceAs (Decidable (_ ≤ _))

def isFinite (x : F64) : Prop := x.biased ≠ 2047

instance (x : F64) : Decidable x.isFinite := inferInstanceAs (Decidable (_ ≠ _))

/-- The magnitude of a finite double; a biased exponent of zero is subnormal. -/
def magnitude (x : F64) : ℚ :=
  if x.biased = 0 then x.fraction / 2 ^ 1074
  else if 1075 ≤ x.biased then (2 ^ 52 + x.fraction : ℕ) * 2 ^ (x.biased - 1075)
  else (2 ^ 52 + x.fraction : ℕ) / 2 ^ (1075 - x.biased)

def value (x : F64) : ℚ := if x.isNegative then -x.magnitude else x.magnitude

end F64

/-! ## The source -/

structure NonZeroUsize where
  get : Nat
  pos : 0 < get
  fits : get < 2 ^ 64
deriving DecidableEq, Repr

def NonZeroUsize.new (n : Nat) : Option NonZeroUsize :=
  if h : 0 < n ∧ n < 2 ^ 64 then some ⟨n, h.1, h.2⟩ else none

structure CandidatePolicy where
  alpha : F64
  cap : NonZeroUsize

inductive CapacityRefusal where
  | alpha (alpha : F64)
  | unrepresentable (alpha : F64) (k : Nat)
  | overCap (candidates cap : Nat)
deriving DecidableEq, Repr

structure CandidateCapacity where
  k : NonZeroUsize
  candidates : NonZeroUsize
deriving DecidableEq, Repr

/-- `u128::div_ceil`. -/
def divCeil (a b : Nat) : Nat := if a % b > 0 then a / b + 1 else a / b

/-- `<<` on `u128`, which panics on a shift by the width and loses what is shifted out. -/
def shl128 (n shift : Nat) : Option Nat :=
  if shift < 128 then some (n * 2 ^ shift % 2 ^ 128) else none

/-- `i32::try_from` of a `u64`. -/
def tryI32 (n : Nat) : Option Int := if n < 2 ^ 31 then some (n : Int) else none

/-- `u32::try_from` of an `i32`. -/
def tryU32 (n : Int) : Option Nat := if 0 ≤ n then some n.toNat else none

def tryUsize (n : Nat) : Option Nat := if n < 2 ^ 64 then some n else none

def ceilProduct (alpha : F64) (k : Nat) : Option (Option Nat) := do
  let biased ← tryI32 alpha.biased
  let mantissa := alpha.fraction ||| 2 ^ 52
  let exponent := biased - 1075
  let product ← checkedMul 128 mantissa k
  if 0 ≤ exponent then
    let shift ← tryU32 exponent
    if shift ≥ 128 ∨ product > (2 ^ 128 - 1) / 2 ^ shift then some none
    else do
      let scaled ← shl128 product shift
      some (tryUsize scaled)
  else do
    let unit ← shl128 1 exponent.natAbs
    some (tryUsize (divCeil product unit))

def CandidateCapacity.new (k : Nat) (policy : CandidatePolicy) :
    Option (Except CapacityRefusal (Option CandidateCapacity)) :=
  if policy.alpha.isFinite ∧ 1 ≤ policy.alpha.value then
    match NonZeroUsize.new k with
    | none => some (.ok none)
    | some k => do
      match ← ceilProduct policy.alpha k.get with
      | none => some (.error (.unrepresentable policy.alpha k.get))
      | some candidates =>
        let candidates ← NonZeroUsize.new candidates
        if policy.cap.get < candidates.get then
          some (.error (.overCap candidates.get policy.cap.get))
        else some (.ok (some ⟨k, candidates⟩))
  else some (.error (.alpha policy.alpha))

/-! ## Exactness -/

theorem F64.fraction_lt (x : F64) : x.fraction < 2 ^ 52 := Nat.mod_lt _ (by decide)

theorem F64.fraction_or (x : F64) : x.fraction ||| 2 ^ 52 = 2 ^ 52 + x.fraction := by
  rw [Nat.or_comm]
  exact (Nat.two_pow_add_eq_or_of_lt x.fraction_lt 1).symm

theorem F64.tryI32_biased (x : F64) : tryI32 x.biased = some (x.biased : Int) :=
  if_pos ((Nat.mod_lt _ (by decide)).trans (by decide))

theorem div_two_pow_lt_one {n shift : Nat} (hn : n < 2 ^ 53) (hshift : 53 ≤ shift) :
    (n : ℚ) / 2 ^ shift < 1 := by
  have hlt : n < 2 ^ shift := hn.trans_le (Nat.pow_le_pow_right (by decide) hshift)
  rw [div_lt_one (by positivity)]
  exact_mod_cast hlt

theorem F64.biased_of_one_le {x : F64} (h : 1 ≤ x.value) :
    1023 ≤ x.biased ∧ x.value = x.magnitude := by
  have hfraction := x.fraction_lt
  have hnonneg : 0 ≤ x.magnitude := by
    unfold F64.magnitude
    split_ifs <;> positivity
  have hpositive : x.value = x.magnitude := by
    unfold F64.value at h ⊢
    split_ifs at h ⊢
    · linarith
    · rfl
  refine ⟨?_, hpositive⟩
  by_contra hsmall
  rw [hpositive, F64.magnitude] at h
  split_ifs at h
  · exact absurd h (not_le.mpr (div_two_pow_lt_one (by omega) (by decide)))
  · omega
  · exact absurd h (not_le.mpr (div_two_pow_lt_one (by omega) (by omega)))

theorem le_mul_iff_divCeil_le (a n : Nat) {b : Nat} (hb : 0 < b) : a ≤ n * b ↔ divCeil a b ≤ n := by
  have hdiv := Nat.div_add_mod a b
  have hmod := Nat.mod_lt a hb
  rcases Nat.lt_or_ge (a / b) n with hlt | hge
  · have hle : b * (a / b + 1) ≤ b * n := Nat.mul_le_mul_left b hlt
    rw [Nat.mul_add, Nat.mul_comm b n] at hle
    unfold divCeil
    split_ifs <;> omega
  · have hle : b * n ≤ b * (a / b) := Nat.mul_le_mul_left b hge
    rw [Nat.mul_comm b n] at hle
    unfold divCeil
    split_ifs with hrest
    · omega
    · rcases Nat.eq_or_lt_of_le hge with rfl | hgt
      · rw [Nat.mul_comm] at hdiv
        omega
      · have hless : b * n < b * (a / b) := Nat.mul_lt_mul_of_pos_left hgt hb
        rw [Nat.mul_comm b n] at hless
        omega

theorem ceil_div_eq_divCeil (a : Nat) {b : Nat} (hb : 0 < b) :
    ⌈(a : ℚ) / b⌉₊ = divCeil a b := by
  have hpos : (0 : ℚ) < b := by exact_mod_cast hb
  refine eq_of_forall_ge_iff fun n => ?_
  rw [Nat.ceil_le, div_le_iff₀ hpos, ← le_mul_iff_divCeil_le a n hb]
  exact_mod_cast Iff.rfl

variable {alpha : F64} {k : Nat}

theorem ceilProduct_up {product : Nat} (hbiased : 1075 ≤ alpha.biased)
    (hproduct : product = (2 ^ 52 + alpha.fraction) * k) (hfits : product < 2 ^ 128)
    (hpos : 0 < product) :
    ceilProduct alpha k = some (tryUsize (product * 2 ^ (alpha.biased - 1075))) := by
  obtain ⟨shift, hshift⟩ : ∃ shift, alpha.biased = 1075 + shift :=
    ⟨_, (Nat.add_sub_cancel' hbiased).symm⟩
  have hexponent : ((alpha.biased : Int) - 1075) = shift := by omega
  have htwo : 0 < 2 ^ shift := Nat.two_pow_pos shift
  rw [ceilProduct, F64.fraction_or, F64.tryI32_biased, hshift, Nat.add_sub_cancel_left, ← hshift]
  simp only [checkedMul_of_lt (hproduct ▸ hfits), ← hproduct, Option.bind_eq_bind,
    Option.bind_some, hexponent, tryU32, Int.natCast_nonneg, if_true, Int.toNat_natCast]
  by_cases hover : product * 2 ^ shift < 2 ^ 128
  · have hshort : shift < 128 := by
      by_contra hlong
      have hle : 2 ^ 128 ≤ 2 ^ shift := Nat.pow_le_pow_right (by decide) (Nat.le_of_not_lt hlong)
      have hmul : 2 ^ shift ≤ product * 2 ^ shift := Nat.le_mul_of_pos_left _ hpos
      omega
    have hle : product ≤ (2 ^ 128 - 1) / 2 ^ shift :=
      (Nat.le_div_iff_mul_le htwo).mpr (Nat.le_sub_one_of_lt hover)
    rw [if_neg (by omega), shl128, if_pos hshort, Nat.mod_eq_of_lt hover, Option.bind_some]
  · have hgt : (2 ^ 128 - 1) / 2 ^ shift < product :=
      (Nat.div_lt_iff_lt_mul htwo).mpr (by omega)
    rw [if_pos (.inr hgt), tryUsize, if_neg (by omega)]

theorem ceilProduct_down {product : Nat} (hnormal : 1023 ≤ alpha.biased)
    (hbiased : alpha.biased < 1075) (hproduct : product = (2 ^ 52 + alpha.fraction) * k)
    (hfits : product < 2 ^ 128) :
    ceilProduct alpha k = some (tryUsize (divCeil product (2 ^ (1075 - alpha.biased)))) := by
  have hexponent : ¬ (0 : Int) ≤ alpha.biased - 1075 := by omega
  have habs : ((alpha.biased : Int) - 1075).natAbs = 1075 - alpha.biased := by omega
  have hunit : 2 ^ (1075 - alpha.biased) < 2 ^ 128 := Nat.pow_lt_pow_right (by decide) (by omega)
  have hshl : shl128 1 (1075 - alpha.biased) = some (2 ^ (1075 - alpha.biased)) := by
    rw [shl128, if_pos (by omega), Nat.one_mul, Nat.mod_eq_of_lt hunit]
  rw [ceilProduct, F64.fraction_or, F64.tryI32_biased]
  simp only [checkedMul_of_lt (hproduct ▸ hfits), ← hproduct, habs, hshl, some_bind, hexponent,
    if_false]

theorem ceilProduct_eq (hone : 1 ≤ alpha.value) (hk : 1 ≤ k) (hfits : k < 2 ^ 64) :
    ceilProduct alpha k = some (tryUsize ⌈alpha.value * k⌉₊) := by
  obtain ⟨hnormal, hvalue⟩ := F64.biased_of_one_le hone
  have hfraction := alpha.fraction_lt
  have hproduct : (2 ^ 52 + alpha.fraction) * k < 2 ^ 128 := by
    have hle : (2 ^ 52 + alpha.fraction) * k ≤ 2 ^ 53 * 2 ^ 64 :=
      Nat.mul_le_mul (by omega) hfits.le
    omega
  rw [hvalue, F64.magnitude, if_neg (by omega)]
  by_cases hup : 1075 ≤ alpha.biased
  · have hexact : ((2 ^ 52 + alpha.fraction : ℕ) : ℚ) * 2 ^ (alpha.biased - 1075) * k =
        ((2 ^ 52 + alpha.fraction) * k * 2 ^ (alpha.biased - 1075) : ℕ) := by
      push_cast
      ring
    rw [if_pos hup, ceilProduct_up hup rfl hproduct (Nat.mul_pos (by omega) hk), hexact,
      Nat.ceil_natCast]
  · have hexact : ((2 ^ 52 + alpha.fraction : ℕ) : ℚ) / 2 ^ (1075 - alpha.biased) * k =
        ((2 ^ 52 + alpha.fraction) * k : ℕ) / (2 ^ (1075 - alpha.biased) : ℕ) := by
      push_cast
      ring
    rw [if_neg hup, ceilProduct_down hnormal (Nat.lt_of_not_le hup) rfl hproduct, hexact,
      ceil_div_eq_divCeil _ (Nat.two_pow_pos _)]

/-- The pool size is the exact ceiling, or is refused where it does not fit; no `expect`, product
or shift fails; and a capacity holds `k`, at least as many candidates, and no more than the cap. -/
theorem pool_size_exact :
    (∀ (alpha : F64) (k : Nat), alpha.isFinite → 1 ≤ alpha.value → 1 ≤ k → k < 2 ^ 64 →
      ceilProduct alpha k =
        some (if ⌈alpha.value * k⌉₊ < 2 ^ 64 then some ⌈alpha.value * k⌉₊ else none)) ∧
    (∀ (k : Nat) (policy : CandidatePolicy), k < 2 ^ 64 →
      ∃ result, CandidateCapacity.new k policy = some result ∧
        ∀ capacity, result = .ok (some capacity) →
          capacity.k.get = k ∧ k ≤ capacity.candidates.get ∧
            capacity.candidates.get ≤ policy.cap.get) := by
  refine ⟨fun alpha k _ hone hk hfits => ceilProduct_eq hone hk hfits, fun k policy hfits => ?_⟩
  unfold CandidateCapacity.new
  split_ifs with halpha
  · rcases Nat.eq_zero_or_pos k with rfl | hk
    · exact ⟨_, rfl, nofun⟩
    · have hnew : NonZeroUsize.new k = some ⟨k, hk, hfits⟩ := dif_pos ⟨hk, hfits⟩
      rw [hnew]
      simp only [ceilProduct_eq halpha.2 hk hfits, Option.bind_eq_bind, Option.bind_some]
      have hle : k ≤ ⌈policy.alpha.value * k⌉₊ := by
        have hmul : (k : ℚ) ≤ policy.alpha.value * k :=
          le_mul_of_one_le_left (by positivity) halpha.2
        exact_mod_cast hmul.trans (Nat.le_ceil _)
      unfold tryUsize
      split_ifs with hceil
      · have hcandidates : NonZeroUsize.new ⌈policy.alpha.value * k⌉₊ =
            some ⟨_, hk.trans_le hle, hceil⟩ := dif_pos ⟨hk.trans_le hle, hceil⟩
        simp only [hcandidates, Option.bind_some]
        split_ifs with hcap
        · exact ⟨_, rfl, nofun⟩
        · refine ⟨_, rfl, fun capacity hcapacity => ?_⟩
          obtain rfl := Option.some.inj (Except.ok.inj hcapacity)
          exact ⟨rfl, hle, Nat.le_of_not_lt hcap⟩
      · exact ⟨_, rfl, nofun⟩
  · exact ⟨_, rfl, nofun⟩

/-- Three times one and a half, rounded up. -/
theorem pool_size_exact_three_halves :
    F64.value 0x3FF8000000000000 = 3 / 2 ∧
      ceilProduct 0x3FF8000000000000 3 = some (some 5) ∧
      ⌈F64.value 0x3FF8000000000000 * 3⌉₊ = 5 := by
  have hvalue : F64.value 0x3FF8000000000000 = 3 / 2 := by decide +kernel
  have hone : (1 : ℚ) ≤ F64.value 0x3FF8000000000000 := by rw [hvalue]; norm_num
  have hfive : ceilProduct 0x3FF8000000000000 3 = some (some 5) := by decide +kernel
  refine ⟨hvalue, hfive, ?_⟩
  have hexact := pool_size_exact.1 0x3FF8000000000000 3 (by decide +kernel) hone (by decide)
    (by decide)
  split_ifs at hexact
  · exact_mod_cast (Option.some.inj (Option.some.inj hexact)).symm
  · cases hexact

end Eidnara.Retrieval.Dense
