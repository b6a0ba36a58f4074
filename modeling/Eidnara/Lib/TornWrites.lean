import Eidnara.Lib.Checked
import Mathlib.Tactic.Ring

/-!
# Ordered byte writes and numbers of fixed width

A write to a file is an ordered list of single positions; one that is cut short leaves the
effect of some first part of that list.  A number stored with a fixed number of digits, most
significant first, can be overwritten in this way by a larger one: whatever the cut, the digits
read back never name a smaller number than before.
-/

namespace Eidnara.Lib

open List

/-! ## Ordered writes -/

section Writes

variable {α : Type}

/-- One position written; the position just after the end extends the content. -/
def writeByte (content : List α) (write : Nat × α) : List α :=
  content.take write.1 ++ write.2 :: content.drop (write.1 + 1)

def writesAt (offset : Nat) : List α → List (Nat × α)
  | [] => []
  | byte :: rest => (offset, byte) :: writesAt (offset + 1) rest

def performWrites (content : List α) (writes : List (Nat × α)) : List α :=
  writes.foldl writeByte content

theorem length_writesAt (offset : Nat) (bytes : List α) :
    (writesAt offset bytes).length = bytes.length := by
  induction bytes generalizing offset with
  | nil => rfl
  | cons byte rest ih => simp [writesAt, ih]

theorem take_writesAt (offset cut : Nat) (bytes : List α) :
    (writesAt offset bytes).take cut = writesAt offset (bytes.take cut) := by
  induction bytes generalizing offset cut with
  | nil => simp [writesAt]
  | cons byte rest ih =>
    cases cut with
    | zero => rfl
    | succ cut => simp [writesAt, ih]

theorem performWrites_append (content : List α) (first second : List (Nat × α)) :
    performWrites content (first ++ second) = performWrites (performWrites content first) second :=
  foldl_append

theorem performWrites_writesAt {offset : Nat} {content : List α} (bytes : List α)
    (h : offset ≤ content.length) :
    performWrites content (writesAt offset bytes) =
      content.take offset ++ bytes ++ content.drop (offset + bytes.length) := by
  induction bytes generalizing offset content with
  | nil => simp [writesAt, performWrites]
  | cons byte rest ih =>
    have hlength : (content.take offset).length = offset := length_take_of_le h
    have hwritten : offset + 1 ≤ (writeByte content (offset, byte)).length := by
      simp only [writeByte, length_append, hlength, length_cons]
      omega
    have htake : (writeByte content (offset, byte)).take (offset + 1) =
        content.take offset ++ [byte] := by
      simp only [writeByte]
      rw [take_append, hlength, Nat.add_sub_cancel_left,
        take_of_length_le (by omega), take_succ_cons, take_zero]
    have hdrop : (writeByte content (offset, byte)).drop (offset + 1 + rest.length) =
        content.drop (offset + (rest.length + 1)) := by
      simp only [writeByte]
      rw [drop_append, hlength, drop_of_length_le (by omega), nil_append,
        show offset + 1 + rest.length - offset = rest.length + 1 by omega, drop_succ_cons,
        drop_drop]
      congr 1
      omega
    have hrest := ih hwritten
    rw [htake, hdrop] at hrest
    change performWrites (writeByte content (offset, byte)) (writesAt (offset + 1) rest) = _
    rw [hrest, length_cons, append_assoc, append_assoc, singleton_append,
      append_assoc, cons_append]

end Writes

/-! ## Digits, most significant first -/

section Digits

variable {base : Nat}

def value (base : Nat) (digits : List Nat) : Nat :=
  digits.foldl (fun total digit => total * base + digit) 0

def digitsOf (base : Nat) : Nat → Nat → List Nat
  | 0, _ => []
  | width + 1, n => n / base ^ width % base :: digitsOf base width n

theorem foldl_value (start : Nat) (digits : List Nat) :
    digits.foldl (fun total digit => total * base + digit) start =
      start * base ^ digits.length + value base digits := by
  induction digits generalizing start with
  | nil => simp [value]
  | cons digit rest ih =>
    unfold value
    rw [foldl_cons, foldl_cons, ih, ih, length_cons, Nat.zero_mul, Nat.zero_add]
    ring

theorem value_cons (digit : Nat) (rest : List Nat) :
    value base (digit :: rest) = digit * base ^ rest.length + value base rest := by
  rw [value, foldl_cons, foldl_value, Nat.zero_mul, Nat.zero_add]

theorem value_append (first second : List Nat) :
    value base (first ++ second) = value base first * base ^ second.length + value base second := by
  rw [value, foldl_append, foldl_value]
  rfl

theorem value_lt {digits : List Nat} (h : ∀ digit ∈ digits, digit < base) :
    value base digits < base ^ digits.length := by
  induction digits with
  | nil => simp [value]
  | cons digit rest ih =>
    have hdigit : digit + 1 ≤ base := h digit mem_cons_self
    have hrest := ih fun d hd => h d (mem_cons_of_mem _ hd)
    have hmul : (digit + 1) * base ^ rest.length ≤ base * base ^ rest.length :=
      Nat.mul_le_mul_right _ hdigit
    rw [value_cons, length_cons, Nat.pow_succ, Nat.mul_comm (base ^ rest.length)]
    rw [Nat.add_mul, Nat.one_mul] at hmul
    omega

@[simp] theorem length_digitsOf (width n : Nat) : (digitsOf base width n).length = width := by
  induction width with
  | zero => rfl
  | succ width ih => simp [digitsOf, ih]

variable {width : Nat}

theorem digitsOf_lt {n digit : Nat} (hbase : 0 < base) (h : digit ∈ digitsOf base width n) :
    digit < base := by
  induction width with
  | zero => cases h
  | succ width ih =>
    rcases mem_cons.mp h with rfl | h
    · exact Nat.mod_lt _ hbase
    · exact ih h

theorem value_digitsOf (width n : Nat) : value base (digitsOf base width n) = n % base ^ width := by
  induction width with
  | zero => simp [digitsOf, value, Nat.mod_one]
  | succ width ih =>
    rw [digitsOf, value_cons, length_digitsOf, ih, Nat.mod_pow_succ]
    ring

theorem value_split {digits : List Nat} (cut : Nat) (h : ∀ digit ∈ digits, digit < base) :
    value base (digits.take cut) = value base digits / base ^ (digits.length - cut) ∧
      value base (digits.drop cut) = value base digits % base ^ (digits.length - cut) := by
  have hdrop : value base (digits.drop cut) < base ^ (digits.drop cut).length :=
    value_lt fun d hd => h d (mem_of_mem_drop hd)
  have happend : value base (digits.take cut ++ digits.drop cut) =
      value base (digits.take cut) * base ^ (digits.drop cut).length +
        value base (digits.drop cut) := value_append _ _
  rw [take_append_drop] at happend
  rw [length_drop] at hdrop happend
  have hpos : 0 < base ^ (digits.length - cut) := Nat.lt_of_le_of_lt (Nat.zero_le _) hdrop
  rw [happend, Nat.mul_comm]
  constructor
  · rw [Nat.mul_add_div hpos, Nat.div_eq_of_lt hdrop, Nat.add_zero]
  · rw [Nat.mul_add_mod, Nat.mod_eq_of_lt hdrop]

/-- A larger number written over a smaller one, cut anywhere, reads back no smaller. -/
theorem value_le_torn {old new : List Nat} (cut : Nat) (hlength : new.length = old.length)
    (hold : ∀ digit ∈ old, digit < base) (hnew : ∀ digit ∈ new, digit < base)
    (hle : value base old ≤ value base new) :
    value base old ≤ value base (new.take cut ++ old.drop cut) := by
  rw [value_append, (value_split cut hnew).1, (value_split cut hold).2, length_drop, hlength]
  calc value base old
      = value base old / base ^ (old.length - cut) * base ^ (old.length - cut) +
          value base old % base ^ (old.length - cut) := (Nat.div_add_mod' _ _).symm
    _ ≤ _ := Nat.add_le_add_right (Nat.mul_le_mul_right _ (Nat.div_le_div_right hle)) _

/-- The value of a digit list in a machine integer of `width` bits. -/
def checkedValue (width base : Nat) (digits : List Nat) : Option Nat :=
  digits.foldlM (fun total digit => do checkedAdd width (← checkedMul width total base) digit) 0

theorem foldlM_checkedValue {start : Nat} (digits : List Nat) (hbase : 0 < base)
    (hstart : start < 2 ^ width) :
    digits.foldlM (fun total digit => do checkedAdd width (← checkedMul width total base) digit)
        start =
      if start * base ^ digits.length + value base digits < 2 ^ width then
        some (start * base ^ digits.length + value base digits) else none := by
  induction digits generalizing start with
  | nil => simp [value, hstart]
  | cons digit rest ih =>
    have htotal : start * base ^ (digit :: rest).length + value base (digit :: rest) =
        (start * base + digit) * base ^ rest.length + value base rest := by
      rw [value_cons, length_cons]
      ring
    have hgrow : start * base + digit ≤
        (start * base + digit) * base ^ rest.length + value base rest :=
      (Nat.le_mul_of_pos_right _ (Nat.pow_pos hbase)).trans (Nat.le_add_right _ _)
    rw [foldlM_cons, htotal]
    by_cases hmul : start * base < 2 ^ width
    · rw [checkedMul_of_lt hmul]
      rcases checkedAdd_cases width (start * base) digit with ⟨hadd, hlt⟩ | ⟨hadd, hge⟩
      · simp only [some_bind, hadd]
        exact ih hlt
      · simp only [Option.bind_eq_bind, Option.bind_some, hadd, Option.bind_none]
        rw [if_neg (by omega)]
    · rw [show checkedMul width start base = none from if_neg hmul]
      simp only [Option.bind_eq_bind, Option.bind_none]
      rw [if_neg (by omega)]

theorem checkedValue_eq (digits : List Nat) (hbase : 0 < base) :
    checkedValue width base digits =
      if value base digits < 2 ^ width then some (value base digits) else none := by
  rw [checkedValue, foldlM_checkedValue digits hbase (Nat.pow_pos (by decide)), Nat.zero_mul,
    Nat.zero_add]

end Digits

end Eidnara.Lib
