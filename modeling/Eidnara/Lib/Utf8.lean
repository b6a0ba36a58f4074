import Mathlib.Data.Char
import Mathlib.Data.List.Lex
import Mathlib.Order.Monotone.Basic

/-!
# UTF-8 keeps the order of texts

Texts compared scalar by scalar and their UTF-8 encodings compared byte by byte
come in the same order.
-/

namespace Eidnara.Lib.Utf8

open List

abbrev Bytes := List UInt8

def utf8 (text : List Char) : Bytes := text.flatMap String.utf8EncodeChar

/-- What bytes are compared by. -/
def byteOrder (bytes : Bytes) : List Nat := bytes.map UInt8.toNat

theorem byteOrder_append (a b : Bytes) : byteOrder (a ++ b) = byteOrder a ++ byteOrder b :=
  map_append

def encodeScalar (v : Nat) : List Nat :=
  if v ≤ 0x7f then [v]
  else if v ≤ 0x7ff then [v / 64 % 32 + 192, v % 64 + 128]
  else if v ≤ 0xffff then [v / 4096 % 16 + 224, v / 64 % 64 + 128, v % 64 + 128]
  else [v / 262144 % 8 + 240, v / 4096 % 64 + 128, v / 64 % 64 + 128, v % 64 + 128]

theorem byteOrder_utf8EncodeChar (c : Char) :
    byteOrder (String.utf8EncodeChar c) = encodeScalar c.toNat := by
  have hval : c.val.toNat = c.toNat := rfl
  unfold String.utf8EncodeChar encodeScalar byteOrder
  simp only [hval]
  split_ifs <;> simp <;> omega

theorem encodeScalar_lt {v w : Nat} (h : v < w) (hw : w < 0x110000) (s t : List Nat) :
    encodeScalar v ++ s < encodeScalar w ++ t := by
  have htop : v / 262144 % 8 = v / 262144 ∧ w / 262144 % 8 = w / 262144 := by omega
  unfold encodeScalar
  split_ifs <;> simp only [cons_append, nil_append, cons_lt_cons_iff] <;> omega

theorem utf8_cons (c : Char) (text : List Char) :
    byteOrder (utf8 (c :: text)) = encodeScalar c.toNat ++ byteOrder (utf8 text) := by
  rw [utf8, flatMap_cons, byteOrder_append, byteOrder_utf8EncodeChar]
  rfl

theorem encodeScalar_ne_nil (v : Nat) : encodeScalar v ≠ [] := by
  unfold encodeScalar
  split_ifs <;> simp

theorem append_lt_append_left {a b : List Nat} (p : List Nat) (h : a < b) : p ++ a < p ++ b := by
  induction p with
  | nil => exact h
  | cons x p ih => exact cons_lt_cons_iff.mpr (.inr ⟨rfl, ih⟩)

theorem toNat_lt (c : Char) : c.toNat < 0x110000 := by
  have hvalid := c.valid
  have hval : c.val.toNat = c.toNat := rfl
  omega

theorem utf8_strictMono : ∀ {a b : List Char}, a < b → byteOrder (utf8 a) < byteOrder (utf8 b)
  | [], [], h => absurd h (lt_irrefl _)
  | [], d :: b, _ => by
    rw [utf8_cons]
    cases hd : encodeScalar d.toNat with
    | nil => exact absurd hd (encodeScalar_ne_nil _)
    | cons x rest => exact nil_lt_cons _ _
  | c :: a, [], h => absurd h (not_lt_nil _)
  | c :: a, d :: b, h => by
    rw [utf8_cons, utf8_cons]
    rcases cons_lt_cons_iff.mp h with hcd | ⟨rfl, hab⟩
    · exact encodeScalar_lt hcd (toNat_lt d) _ _
    · exact append_lt_append_left _ (utf8_strictMono hab)

variable {b : List Char}

theorem utf8_le_iff {a : List Char} : byteOrder (utf8 a) ≤ byteOrder (utf8 b) ↔ a ≤ b :=
  StrictMono.le_iff_le (f := byteOrder ∘ utf8) fun _ _ => utf8_strictMono

theorem utf8_inj {a : List Char} : utf8 a = utf8 b ↔ a = b := by
  constructor
  · intro h
    exact le_antisymm (utf8_le_iff.mp (by rw [h])) (utf8_le_iff.mp (by rw [h]))
  · rintro rfl
    rfl

/-! ## Bytes of a character -/

theorem utf8_append (a b : List Char) : utf8 (a ++ b) = utf8 a ++ utf8 b :=
  flatMap_append

theorem utf8_singleton (c : Char) : utf8 [c] = String.utf8EncodeChar c := by
  simp [utf8]

theorem length_utf8_cons (c : Char) (text : List Char) :
    (utf8 (c :: text)).length = (utf8 [c]).length + (utf8 text).length := by
  rw [← singleton_append, utf8_append, length_append]

/-- The bytes of a character, by their number. -/
theorem utf8_singleton_cases (c : Char) :
    (c.toNat < 0x80 ∧ ∃ b0, utf8 [c] = [b0] ∧ b0.toNat = c.toNat) ∨
      (0x80 ≤ c.toNat ∧ c.toNat < 0x800 ∧ ∃ b0 b1, utf8 [c] = [b0, b1] ∧
        b0.toNat = c.toNat / 64 + 192 ∧ b1.toNat = c.toNat % 64 + 128) ∨
      (0x800 ≤ c.toNat ∧ c.toNat < 0x10000 ∧ ∃ b0 b1 b2, utf8 [c] = [b0, b1, b2] ∧
        b0.toNat = c.toNat / 4096 + 224 ∧ b1.toNat = c.toNat / 64 % 64 + 128 ∧
        b2.toNat = c.toNat % 64 + 128) ∨
      (0x10000 ≤ c.toNat ∧ ∃ b0 b1 b2 b3, utf8 [c] = [b0, b1, b2, b3] ∧
        b0.toNat = c.toNat / 262144 + 240 ∧ b1.toNat = c.toNat / 4096 % 64 + 128 ∧
        b2.toNat = c.toNat / 64 % 64 + 128 ∧ b3.toNat = c.toNat % 64 + 128) := by
  have hbound := toNat_lt c
  have hval : c.val.toNat = c.toNat := rfl
  rw [utf8_singleton, String.utf8EncodeChar]
  split_ifs with h1 h2 h3
  · exact .inl ⟨by omega, _, rfl, by simp; omega⟩
  · exact .inr (.inl ⟨by omega, by omega, _, _, rfl, by simp; omega, by simp; omega⟩)
  · exact .inr (.inr (.inl ⟨by omega, by omega, _, _, _, rfl, by simp; omega, by simp; omega,
      by simp; omega⟩))
  · exact .inr (.inr (.inr ⟨by omega, _, _, _, _, rfl, by simp; omega, by simp; omega,
      by simp; omega, by simp; omega⟩))

/-- The characters `text` stand in `bytes` from `i` to the end. -/
structure At (bytes : Bytes) (i : Nat) (text : List Char) : Prop where
  drop_eq : bytes.drop i = utf8 text
  le : i ≤ bytes.length

theorem at_zero (text : List Char) : At (utf8 text) 0 text := ⟨rfl, Nat.zero_le _⟩

namespace At

variable {bytes : Bytes} {i : Nat} {text rest : List Char}

theorem length_eq (h : At bytes i text) : bytes.length = i + (utf8 text).length := by
  have hlength := congrArg List.length h.drop_eq
  have hle := h.le
  rw [length_drop] at hlength
  omega

theorem length_nil (h : At bytes i []) : bytes.length ≤ i := by
  rw [h.length_eq]
  simp [utf8]

theorem step (h : At bytes i (text ++ rest)) : At bytes (i + (utf8 text).length) rest := by
  refine ⟨?_, ?_⟩
  · rw [← drop_drop, h.drop_eq, utf8_append, drop_left]
  · rw [h.length_eq, utf8_append, length_append]
    omega

theorem next {c : Char} (h : At bytes i (c :: rest)) : At bytes (i + (utf8 [c]).length) rest :=
  h.step

theorem byte {c : Char} (h : At bytes i (c :: rest)) {k : Nat} {b : UInt8}
    (hb : (utf8 [c])[k]? = some b) : bytes[i + k]? = some b := by
  have hk := (List.getElem?_eq_some_iff.mp hb).1
  rw [← getElem?_drop, h.drop_eq, ← singleton_append, utf8_append, getElem?_append_left hk, hb]

end At

/-! ## Byte offsets in a text -/

theorem utf8_length_pos (c : Char) : 0 < (utf8 [c]).length := by
  rcases utf8_singleton_cases c with ⟨-, b0, h, -⟩ | ⟨-, -, b0, b1, h, -⟩ |
    ⟨-, -, b0, b1, b2, h, -⟩ | ⟨-, b0, b1, b2, b3, h, -⟩ <;> simp [h]

theorem utf8_length_le_four (c : Char) : (utf8 [c]).length ≤ 4 := by
  rcases utf8_singleton_cases c with ⟨-, b0, h, -⟩ | ⟨-, -, b0, b1, h, -⟩ |
    ⟨-, -, b0, b1, b2, h, -⟩ | ⟨-, b0, b1, b2, b3, h, -⟩ <;> simp [h]

variable {text : List Char}

theorem length_utf8_eq_zero : (utf8 text).length = 0 ↔ text = [] := by
  cases text with
  | nil => simp [utf8]
  | cons c text =>
    have hpos := utf8_length_pos c
    rw [length_utf8_cons]
    exact iff_of_false (by omega) (cons_ne_nil c text)

theorem length_le_utf8 (text : List Char) : text.length ≤ (utf8 text).length := by
  induction text with
  | nil => exact le_rfl
  | cons c text ih =>
    have hpos := utf8_length_pos c
    rw [length_utf8_cons, length_cons]
    omega

/-- What follows the byte offset `n`, where that is a character boundary. -/
def sliceFrom : List Char → Nat → Option (List Char)
  | text, 0 => some text
  | [], _ + 1 => none
  | c :: text, n + 1 =>
    if (utf8 [c]).length ≤ n + 1 then sliceFrom text (n + 1 - (utf8 [c]).length) else none

def sliceChars (text : List Char) (start stop : Nat) : Option (List Char) := do
  let rest ← sliceFrom text start
  let tail ← sliceFrom text stop
  some (rest.take (rest.length - tail.length))

def isCharBoundary (text : List Char) (n : Nat) : Bool := (sliceFrom text n).isSome

def floorCharBoundary (text : List Char) : Nat → Nat
  | 0 => 0
  | n + 1 => if isCharBoundary text (n + 1) then n + 1 else floorCharBoundary text n

theorem sliceFrom_append (a b : List Char) : sliceFrom (a ++ b) (utf8 a).length = some b := by
  induction a with
  | nil => simp [utf8, sliceFrom]
  | cons c a ih =>
    have hpos := utf8_length_pos c
    obtain ⟨n, hn⟩ : ∃ n, (utf8 (c :: a)).length = n + 1 :=
      ⟨_, (Nat.succ_pred_eq_of_pos (by rw [length_utf8_cons]; omega)).symm⟩
    have hrest : n + 1 - (utf8 [c]).length = (utf8 a).length := by
      rw [length_utf8_cons] at hn
      omega
    have hle : (utf8 [c]).length ≤ n + 1 := by
      rw [length_utf8_cons] at hn
      omega
    rw [hn, cons_append, sliceFrom, if_pos hle, hrest, ih]

variable {n : Nat}

theorem sliceFrom_eq_some (h : sliceFrom text n = some b) :
    ∃ a, text = a ++ b ∧ (utf8 a).length = n := by
  induction text generalizing n with
  | nil =>
    cases n with
    | zero => exact ⟨[], by simpa [sliceFrom] using h, rfl⟩
    | succ n => cases h
  | cons c text ih =>
    cases n with
    | zero => exact ⟨[], by simpa [sliceFrom] using h, rfl⟩
    | succ n =>
      rw [sliceFrom] at h
      split_ifs at h with hle
      obtain ⟨a, rfl, ha⟩ := ih h
      exact ⟨c :: a, rfl, by rw [length_utf8_cons]; omega⟩

theorem sliceChars_append (a b c : List Char) :
    sliceChars (a ++ b ++ c) (utf8 a).length ((utf8 a).length + (utf8 b).length) = some b := by
  have hstart := sliceFrom_append a (b ++ c)
  have hstop := sliceFrom_append (a ++ b) c
  rw [utf8_append, length_append] at hstop
  rw [← append_assoc] at hstart
  rw [sliceChars, hstart, hstop, Option.bind_eq_bind, Option.bind_some, Option.bind_some,
    length_append, Nat.add_sub_cancel, take_left]

theorem isCharBoundary_iff :
    isCharBoundary text n = true ↔ ∃ a b, text = a ++ b ∧ (utf8 a).length = n := by
  rw [isCharBoundary, Option.isSome_iff_exists]
  constructor
  · rintro ⟨b, hb⟩
    obtain ⟨a, ha⟩ := sliceFrom_eq_some hb
    exact ⟨a, b, ha⟩
  · rintro ⟨a, b, rfl, rfl⟩
    exact ⟨b, sliceFrom_append a b⟩

theorem isCharBoundary_zero (text : List Char) : isCharBoundary text 0 = true :=
  isCharBoundary_iff.mpr ⟨[], text, rfl, rfl⟩

theorem isCharBoundary_append (h : isCharBoundary text n = true) (s : List Char) :
    isCharBoundary (text ++ s) n = true := by
  obtain ⟨a, b, rfl, ha⟩ := isCharBoundary_iff.mp h
  exact isCharBoundary_iff.mpr ⟨a, b ++ s, append_assoc .., ha⟩

theorem isCharBoundary_length (text : List Char) : isCharBoundary text (utf8 text).length = true :=
  isCharBoundary_iff.mpr ⟨text, [], (append_nil text).symm, rfl⟩

theorem exists_cut {i j : Nat} (hi : isCharBoundary text i = true)
    (hj : isCharBoundary text j = true) (hij : i ≤ j) :
    ∃ a b c, text = a ++ b ++ c ∧ (utf8 a).length = i ∧ (utf8 a).length + (utf8 b).length = j := by
  obtain ⟨a, rest, rfl, ha⟩ := isCharBoundary_iff.mp hi
  obtain ⟨ab, c, heq, hab⟩ := isCharBoundary_iff.mp hj
  rcases append_eq_append_iff.mp heq with ⟨b, rfl, rfl⟩ | ⟨b, rfl, rfl⟩
  · rw [utf8_append, length_append] at hab
    exact ⟨a, b, c, (append_assoc ..).symm, ha, hab⟩
  · rw [utf8_append, length_append] at ha
    have hb : b = [] := length_utf8_eq_zero.mp (by omega)
    subst hb
    exact ⟨ab, [], rest, by simp, by simpa [utf8] using ha, by simpa [utf8] using hab⟩

/-- A character has at most four bytes, so a boundary is never more than three away. -/
theorem exists_isCharBoundary (h : n ≤ (utf8 text).length) :
    ∃ m ≤ n, n ≤ m + 3 ∧ isCharBoundary text m = true := by
  induction text generalizing n with
  | nil => exact ⟨n, le_rfl, by omega, Nat.le_zero.mp h ▸ isCharBoundary_zero []⟩
  | cons c text ih =>
    by_cases hc : (utf8 [c]).length ≤ n
    · rw [length_utf8_cons] at h
      obtain ⟨m, hm, hclose, hbound⟩ := @ih (n - (utf8 [c]).length) (by omega)
      obtain ⟨a, b, rfl, ha⟩ := isCharBoundary_iff.mp hbound
      refine ⟨(utf8 [c]).length + m, by omega, by omega, ?_⟩
      exact isCharBoundary_iff.mpr ⟨c :: a, b, rfl, by rw [length_utf8_cons]; omega⟩
    · have hfour := utf8_length_le_four c
      exact ⟨0, Nat.zero_le n, by omega, isCharBoundary_zero _⟩

theorem floorCharBoundary_spec (text : List Char) (n : Nat) :
    isCharBoundary text (floorCharBoundary text n) = true ∧ floorCharBoundary text n ≤ n ∧
      ∀ m ≤ n, isCharBoundary text m = true → m ≤ floorCharBoundary text n := by
  induction n with
  | zero =>
    refine ⟨?_, le_rfl, fun m hm _ => hm⟩
    cases text <;> rfl
  | succ n ih =>
    rw [floorCharBoundary]
    by_cases h : isCharBoundary text (n + 1) = true
    · rw [if_pos h]
      exact ⟨h, le_rfl, fun m hm _ => hm⟩
    · rw [if_neg h]
      refine ⟨ih.1, ih.2.1.trans (Nat.le_succ n), fun m hm hbound => ?_⟩
      rcases Nat.lt_or_eq_of_le hm with hlt | rfl
      · exact ih.2.2 m (by omega) hbound
      · exact absurd hbound h

end Eidnara.Lib.Utf8
