import Mathlib.Algebra.Ring.Nat

/-!
# Length-delimited fields

A field is its length as a fixed number of big-endian bytes, and then its bytes.  Fields
written one after the other can be read back in only one way.  A text may be delimited by a
separator that it does not contain instead, as a decimal number is by any other character.
-/

namespace Eidnara.Lib.Framing

open List

/-- The `width` low bytes of a number, the highest first. -/
def bigEndian : Nat → Nat → List UInt8
  | 0, _ => []
  | width + 1, n => bigEndian width (n / 256) ++ [UInt8.ofNat n]

theorem length_bigEndian (width n : Nat) : (bigEndian width n).length = width := by
  induction width generalizing n with
  | zero => rfl
  | succ width ih => simp [bigEndian, ih]

theorem bigEndian_injective {width m n : Nat} (hm : m < 256 ^ width) (hn : n < 256 ^ width)
    (h : bigEndian width m = bigEndian width n) : m = n := by
  induction width generalizing m n with
  | zero =>
    omega
  | succ width ih =>
    obtain ⟨hhigh, hlow⟩ := append_inj h (by simp only [length_bigEndian])
    have hdiv := ih (Nat.div_lt_of_lt_mul (by omega)) (Nat.div_lt_of_lt_mul (by omega)) hhigh
    have hmod : m % 256 = n % 256 := by
      have := congrArg UInt8.toNat (List.cons.inj hlow).1
      simpa using this
    omega

variable {rest rest' : List UInt8}

theorem bigEndian_append_inj {width m n : Nat} (hm : m < 256 ^ width) (hn : n < 256 ^ width) :
    bigEndian width m ++ rest = bigEndian width n ++ rest' ↔ m = n ∧ rest = rest' := by
  constructor
  · intro h
    obtain ⟨hnumber, hrest⟩ := append_inj h (by simp only [length_bigEndian])
    exact ⟨bigEndian_injective hm hn hnumber, hrest⟩
  · rintro ⟨rfl, rfl⟩
    rfl

def field (bytes : List UInt8) : List UInt8 := bigEndian 4 bytes.length ++ bytes

def Short (bytes : List UInt8) : Prop := bytes.length < 256 ^ 4

theorem field_append_inj {a b : List UInt8} (ha : Short a) (hb : Short b) :
    field a ++ rest = field b ++ rest' ↔ a = b ∧ rest = rest' := by
  rw [field, field, append_assoc, append_assoc, bigEndian_append_inj ha hb]
  constructor
  · rintro ⟨hlength, hrest⟩
    exact append_inj hrest hlength
  · rintro ⟨rfl, rfl⟩
    exact ⟨rfl, rfl⟩

/-- Items that can each be read off the front of what follows, in two lists of one length. -/
theorem flatMap_append_inj {α : Type*} {encode : α → List UInt8}
    (hencode : ∀ {a b rest rest'}, encode a ++ rest = encode b ++ rest' → a = b ∧ rest = rest')
    {xs ys : List α} (hlength : xs.length = ys.length)
    (h : xs.flatMap encode ++ rest = ys.flatMap encode ++ rest') : xs = ys ∧ rest = rest' := by
  induction xs generalizing ys with
  | nil =>
    obtain rfl := eq_nil_of_length_eq_zero hlength.symm
    exact ⟨rfl, h⟩
  | cons x xs ih =>
    obtain ⟨y, ys, rfl⟩ := exists_cons_of_length_eq_add_one hlength.symm
    simp only [flatMap_cons, append_assoc] at h
    obtain ⟨rfl, htail⟩ := hencode h
    obtain ⟨rfl, hrest⟩ := ih (Nat.succ.inj hlength) htail
    exact ⟨rfl, hrest⟩

/-- Items that can each be read off the front of what follows, none of them empty. -/
theorem flatMap_inj {α : Type*} {encode : α → List UInt8}
    (hencode : ∀ {a b rest rest'}, encode a ++ rest = encode b ++ rest' → a = b ∧ rest = rest')
    (hfull : ∀ a, encode a ≠ []) {xs ys : List α} (h : xs.flatMap encode = ys.flatMap encode) :
    xs = ys := by
  induction xs generalizing ys with
  | nil =>
    cases ys with
    | nil => rfl
    | cons y ys => exact absurd (append_eq_nil_iff.mp h.symm).1 (hfull y)
  | cons x xs ih =>
    cases ys with
    | nil => exact absurd (append_eq_nil_iff.mp h).1 (hfull x)
    | cons y ys =>
      obtain ⟨rfl, htail⟩ := hencode h
      rw [ih htail]

/-! ## Separators -/

theorem append_separator_inj {α : Type*} {sep : α} {a b rest rest' : List α} (ha : sep ∉ a)
    (hb : sep ∉ b) (h : a ++ sep :: rest = b ++ sep :: rest') : a = b ∧ rest = rest' := by
  induction a generalizing b with
  | nil =>
    cases b with
    | nil => exact ⟨rfl, (List.cons.inj h).2⟩
    | cons c b => exact absurd (mem_cons.mpr (.inl (List.cons.inj h).1)) hb
  | cons c a ih =>
    cases b with
    | nil => exact absurd (mem_cons.mpr (.inl (List.cons.inj h).1.symm)) ha
    | cons c' b =>
      obtain ⟨rfl, htail⟩ := List.cons.inj h
      obtain ⟨rfl, hrest⟩ := ih (fun hmem => ha (mem_cons_of_mem _ hmem))
        (fun hmem => hb (mem_cons_of_mem _ hmem)) htail
      exact ⟨rfl, hrest⟩

theorem toList_toString (n : Nat) : (toString n).toList = Nat.toDigits 10 n := by
  rw [Nat.toString_eq_ofList_toDigits, String.toList_ofList]

theorem notMem_toString {c : Char} (hc : c.isDigit = false) (n : Nat) :
    c ∉ (toString n).toList := by
  intro hmem
  rw [toList_toString] at hmem
  have hdigit := Nat.isDigit_of_mem_toDigits (by omega) (by omega) hmem
  exact Bool.false_ne_true (hc.symm.trans hdigit)

theorem toString_inj {m n : Nat} (h : (toString m).toList = (toString n).toList) : m = n := by
  rw [toList_toString, toList_toString] at h
  have hvalue := congrArg (Nat.ofDigitChars 10 · 0) h
  simpa only [Nat.ofDigitChars_ten_toDigits] using hvalue

end Eidnara.Lib.Framing
