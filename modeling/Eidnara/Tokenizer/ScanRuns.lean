import Eidnara.Tokenizer.Scan

/-!
# Runs of one class

The masks of a word of eight ASCII bytes mark exactly the bytes of a class, so the scan by
words ends where the scan by characters does; on a text both end after the characters of
the class.
-/

namespace Eidnara.Tokenizer

open Lib Utf8 Words List

/-! ## Masks -/

/-- The byte of a lane that is marked or not. -/
def mark (p : Prop) [Decidable p] : UInt8 := if p then 0x80 else 0

theorem and_high : ∀ y : UInt8, y &&& 0x80 = mark (0x80 ≤ y.toNat) :=
  forall_byte (by decide +kernel)

theorem mark_and (p q : Prop) [Decidable p] [Decidable q] : mark p &&& mark q = mark (p ∧ q) := by
  by_cases hp : p <;> by_cases hq : q <;> simp [mark, hp, hq]

theorem mark_or (p q : Prop) [Decidable p] [Decidable q] : mark p ||| mark q = mark (p ∨ q) := by
  by_cases hp : p <;> by_cases hq : q <;> simp [mark, hp, hq]

theorem not_mark_and (p : Prop) [Decidable p] : ~~~ mark p &&& 0x80 = mark (¬ p) := by
  by_cases hp : p <;> simp [mark, hp]

theorem and_and_high (a b : UInt8) :
    a &&& b &&& 0x80 = mark (0x80 ≤ a.toNat ∧ 0x80 ≤ b.toNat) := by
  calc a &&& b &&& 0x80 = a &&& b &&& (0x80 &&& 0x80) := rfl
    _ = (a &&& 0x80) &&& (b &&& 0x80) := by ac_rfl
    _ = mark (0x80 ≤ a.toNat ∧ 0x80 ≤ b.toNat) := by rw [and_high, and_high, mark_and]

theorem mark_congr {p q : Prop} [Decidable p] [Decidable q] (h : p ↔ q) : mark p = mark q := by
  simp [mark, h]

section Word

variable {chunk : Bytes} (hlength : chunk.length = 8)

include hlength

theorem lo_mul {c : Nat} (hc : c < 256) : lo * c = lanes (fun _ => UInt8.ofNat c) chunk := by
  have hconst : ∀ bytes : Bytes, lanes (fun _ => UInt8.ofNat c) bytes =
      lanes (fun _ => 1) bytes * c := by
    intro bytes
    induction bytes with
    | nil => simp [lanes_nil]
    | cons byte bytes ih =>
      have hone : (1 : UInt8).toNat = 1 := rfl
      rw [lanes_cons, lanes_cons, ih, hone, UInt8.toNat_ofNat_of_lt' hc]
      ring
  have hones : lanes (fun _ => 1) chunk = lo := by
    rw [lanes, map_const', hlength]
    decide
  rw [hconst, hones]

theorem hi_eq : hi = lanes (fun _ => 0x80) chunk :=
  lo_mul hlength (c := 0x80) (by decide)

theorem size_eq : 2 ^ 64 = 256 ^ chunk.length := by
  rw [hlength]
  decide

theorem lanes_mod (f : UInt8 → UInt8) : lanes f chunk % 2 ^ 64 = lanes f chunk := by
  rw [size_eq hlength]
  exact Nat.mod_eq_of_lt (lanes_lt f chunk)

theorem between_lanes {f : UInt8 → UInt8} (hf : ∀ b ∈ chunk, (f b).toNat < 0x80) {m n : Nat}
    (hm : m < 0x80) (hn : n < 0x80) (hpos : 0 < n) :
    between (lanes f chunk) m n =
      lanes (fun b => mark (m < (f b).toNat ∧ (f b).toNat < n)) chunk := by
  have hbelow : (UInt8.ofNat (0x7F + n)).toNat = 0x7F + n :=
    UInt8.toNat_ofNat_of_lt' (show 0x7F + n < 256 by omega)
  have habove : (UInt8.ofNat (0x7F - m)).toNat = 0x7F - m :=
    UInt8.toNat_ofNat_of_lt' (show 0x7F - m < 256 by omega)
  rw [between, lo_mul hlength (show 0x7F + n < 256 by omega),
    lo_mul hlength (show 0x7F - m < 256 by omega), hi_eq hlength, size_eq hlength,
    lanes_sub (fun b hb => by have := hf b hb; omega),
    lanes_add (fun b hb => by have := hf b hb; omega), ← size_eq hlength, lanes_mod hlength,
    lanes_and, lanes_and]
  refine lanes_congr fun b hb => ?_
  have hb := hf b hb
  rw [and_and_high]
  refine mark_congr ?_
  rw [UInt8.toNat_sub_of_le _ _ (by rw [UInt8.le_iff_toNat_le]; omega), UInt8.toNat_add, hbelow,
    habove]
  omega

theorem eqMask_lanes (hchunk : ∀ b ∈ chunk, b.toNat < 0x80) {v : Nat} (hv : v < 0x80) :
    eqMask (littleEndian chunk) v = lanes (fun b => mark (b.toNat = v)) chunk := by
  have hxor : ∀ b ∈ chunk, (b ^^^ UInt8.ofNat v).toNat < 0x80 := by
    intro b hb
    rw [UInt8.toNat_xor, UInt8.toNat_ofNat_of_lt' (show v < 256 by omega)]
    exact Nat.xor_lt_two_pow (n := 7) (hchunk b hb) hv
  rw [eqMask, ← lanes_id, lo_mul hlength (show v < 256 by omega),
    lo_mul hlength (show 0x7F < 256 by decide), lanes_xor,
    lanes_add (fun b hb => by
      have := hxor b hb
      have hconst : (UInt8.ofNat 0x7F).toNat = 0x7F := rfl
      simp only [id]
      omega),
    lanes_mod hlength, size_eq hlength, lanes_complement, hi_eq hlength, lanes_and]
  refine lanes_congr fun b hb => ?_
  have hlane := hxor b hb
  have hzero : (b ^^^ UInt8.ofNat v).toNat = 0 ↔ b.toNat = v := by
    rw [UInt8.toNat_xor, UInt8.toNat_ofNat_of_lt' (show v < 256 by omega)]
    constructor
    · intro h
      simpa [Nat.xor_assoc] using congrArg (· ^^^ v) h
    · rintro rfl
      exact Nat.xor_self _
  have hconst : (UInt8.ofNat 0x7F).toNat = 0x7F := rfl
  rw [and_high]
  refine mark_congr ?_
  have hsize : UInt8.size = 256 := rfl
  rw [UInt8.toNat_not, UInt8.toNat_add, hconst, ← hzero, hsize]
  simp only [id]
  omega

end Word

theorem asciiClass_tests : ∀ b < 0x80,
    ((0x60 < b ||| 0x20 ∧ b ||| 0x20 < 0x7B) ↔ asciiClass b = .letter) ∧
      ((0x2F < b ∧ b < 0x3A) ↔ asciiClass b = .number) ∧
      ((0x08 < b ∧ b < 0x0E ∨ b = 0x20) ↔ asciiClass b = .space) ∧ b ||| 0x20 < 0x80 := by
  decide

theorem other_iff (cls : Class) :
    ¬ ((cls = .letter ∨ cls = .number) ∨ cls = .space) ↔ cls = .other := by
  cases cls <;> simp

theorem asciiClassMask_lanes {chunk : Bytes} (hlength : chunk.length = 8)
    (hchunk : ∀ b ∈ chunk, b.toNat < 0x80) (cls : Class) :
    asciiClassMask (littleEndian chunk) cls =
      lanes (fun b => mark (asciiClass b.toNat = cls)) chunk := by
  have hconst : (UInt8.ofNat 0x20).toNat = 0x20 := rfl
  have hletters : between (littleEndian chunk ||| lo * 0x20) 0x60 0x7B =
      lanes (fun b => mark (asciiClass b.toNat = .letter)) chunk := by
    rw [← lanes_id, lo_mul hlength (show 0x20 < 256 by decide), lanes_or,
      between_lanes hlength ?_ (by decide) (by decide) (by decide)]
    · refine lanes_congr fun b hb => mark_congr ?_
      exact (asciiClass_tests b.toNat (hchunk b hb)).1
    · intro b hb
      exact (asciiClass_tests b.toNat (hchunk b hb)).2.2.2
  have hnumbers : between (littleEndian chunk) 0x2F 0x3A =
      lanes (fun b => mark (asciiClass b.toNat = .number)) chunk := by
    rw [← lanes_id, between_lanes (f := id) hlength hchunk (by decide) (by decide) (by decide)]
    exact lanes_congr fun b hb => mark_congr (asciiClass_tests b.toNat (hchunk b hb)).2.1
  have hspaces : between (littleEndian chunk) 0x08 0x0E ||| eqMask (littleEndian chunk) 0x20 =
      lanes (fun b => mark (asciiClass b.toNat = .space)) chunk := by
    rw [eqMask_lanes hlength hchunk (by decide), ← lanes_id,
      between_lanes (f := id) hlength hchunk (by decide) (by decide) (by decide), lanes_or]
    refine lanes_congr fun b hb => ?_
    rw [mark_or]
    exact mark_congr (asciiClass_tests b.toNat (hchunk b hb)).2.2.1
  cases cls with
  | letter => exact hletters
  | number => exact hnumbers
  | space => exact hspaces
  | other =>
    rw [asciiClassMask, Nat.or_assoc, hletters, hnumbers, hspaces, lanes_or, lanes_or,
      size_eq hlength, lanes_complement, hi_eq hlength, lanes_and]
    refine lanes_congr fun b hb => ?_
    rw [mark_or, mark_or, not_mark_and]
    exact mark_congr (other_iff _)

theorem ascii_of_and_hi {chunk : Bytes} (hlength : chunk.length = 8)
    (h : littleEndian chunk &&& hi = 0) : ∀ b ∈ chunk, b.toNat < 0x80 := by
  have hzero : (0 : Nat) = lanes (fun _ => 0) chunk := lo_mul hlength (c := 0) (by decide)
  rw [← lanes_id, hi_eq hlength, lanes_and, hzero, lanes_inj] at h
  intro b hb
  have hmark := h b hb
  rw [and_high] at hmark
  by_contra hge
  rw [mark, id, if_pos (by omega)] at hmark
  exact absurd hmark (by decide)

/-- Either every byte of the word is of the class, or the lowest unmarked lane is that of the
first byte that is not. -/
theorem asciiClassMask_cases {chunk : Bytes} (hlength : chunk.length = 8)
    (hchunk : ∀ b ∈ chunk, b.toNat < 0x80) (cls : Class) :
    (asciiClassMask (littleEndian chunk) cls = hi ∧ ∀ b ∈ chunk, asciiClass b.toNat = cls) ∨
      (asciiClassMask (littleEndian chunk) cls ≠ hi ∧ ∃ before b after,
        chunk = before ++ b :: after ∧ (∀ x ∈ before, asciiClass x.toNat = cls) ∧
          asciiClass b.toNat ≠ cls ∧
          trailingZeros 64
              (complement (2 ^ 64) (asciiClassMask (littleEndian chunk) cls) &&& hi) / 8 =
            before.length) := by
  have hmask := asciiClassMask_lanes hlength hchunk cls
  have hmarked : ∀ b : UInt8, mark (asciiClass b.toNat = cls) = 0x80 ↔
      asciiClass b.toNat = cls := by
    intro b
    by_cases h : asciiClass b.toNat = cls <;> simp [mark, h]
  have hall : asciiClassMask (littleEndian chunk) cls = hi ↔
      ∀ b ∈ chunk, asciiClass b.toNat = cls := by
    rw [hmask, hi_eq hlength, lanes_inj]
    exact forall₂_congr fun b _ => hmarked b
  by_cases h : ∀ b ∈ chunk, asciiClass b.toNat = cls
  · exact .inl ⟨hall.mpr h, h⟩
  · refine .inr ⟨fun hhi => h (hall.mp hhi), ?_⟩
    push Not at h
    obtain ⟨x, hx, hxcls⟩ := h
    obtain ⟨b, hfound⟩ : ∃ b, chunk.find? (fun b => decide (asciiClass b.toNat ≠ cls)) = some b :=
      Option.isSome_iff_exists.mp (find?_isSome.mpr ⟨x, hx, by simpa using hxcls⟩)
    obtain ⟨hb, before, after, hsplit, hbefore⟩ := find?_eq_some_iff_append.mp hfound
    rw [decide_eq_true_eq] at hb
    simp only [decide_not, Bool.not_not, decide_eq_true_eq] at hbefore
    refine ⟨before, b, after, hsplit, hbefore, hb, ?_⟩
    have hbits : 64 = 8 * chunk.length := by rw [hlength]
    rw [hmask, size_eq hlength, lanes_complement, hi_eq hlength, lanes_and, hbits, hsplit,
      trailingZeros_lanes]
    · omega
    · intro x hx
      rw [not_mark_and, mark, if_neg (by simpa using hbefore x hx)]
    · rw [not_mark_and, mark, if_pos hb]

/-! ## Runs -/

section

variable {classes : Classes} {bytes : Bytes} {cls : Class}

theorem classAt_pos {i len : Nat} {c : Class} (h : classAt classes bytes i = some (c, len)) :
    0 < len := by
  unfold classAt at h
  simp only [Option.bind_eq_bind, Option.bind_eq_some_iff] at h
  obtain ⟨b0, -, h⟩ := h
  split_ifs at h
  · cases h
    decide
  · obtain ⟨b1, -, h⟩ := Option.bind_eq_some_iff.mp h
    cases h
    decide
  · obtain ⟨b1, -, h⟩ := Option.bind_eq_some_iff.mp h
    obtain ⟨b2, -, h⟩ := Option.bind_eq_some_iff.mp h
    cases h
    decide
  · obtain ⟨b1, -, h⟩ := Option.bind_eq_some_iff.mp h
    obtain ⟨b2, -, h⟩ := Option.bind_eq_some_iff.mp h
    obtain ⟨b3, -, h⟩ := Option.bind_eq_some_iff.mp h
    cases h
    decide

theorem runChars_fuel {fuel fuel' i : Nat} (h : bytes.length ≤ i + fuel)
    (h' : bytes.length ≤ i + fuel') :
    runChars classes bytes cls fuel i = runChars classes bytes cls fuel' i := by
  induction fuel generalizing fuel' i with
  | zero =>
    unfold runChars
    rw [if_neg (by omega), if_neg (by omega)]
  | succ fuel ih =>
    unfold runChars
    by_cases hi : i < bytes.length
    · cases fuel' with
      | zero => omega
      | succ fuel' =>
        cases hclass : classAt classes bytes i with
        | none => rfl
        | some found =>
          have hpos := classAt_pos hclass
          simp only [some_bind]
          rw [@ih fuel' _ (by omega) (by omega)]
    · rw [if_neg hi, if_neg hi]

theorem runChars_step {i : Nat} {found : Class × Nat} (hi : i < bytes.length)
    (hclass : classAt classes bytes i = some found) :
    runChars classes bytes cls bytes.length i =
      if found.1 ≠ cls then some i
      else runChars classes bytes cls bytes.length (i + found.2) := by
  have hmore : runChars classes bytes cls bytes.length i =
      runChars classes bytes cls (bytes.length + 1) i :=
    runChars_fuel (Nat.le_add_left _ _) (by omega)
  rw [hmore]
  conv_lhs => unfold runChars
  rw [if_pos hi]
  simp only [hclass, some_bind]

theorem runChars_ascii {i : Nat} {plain rest : Bytes} (hdrop : bytes.drop i = plain ++ rest)
    (hplain : ∀ b ∈ plain, b.toNat < 0x80 ∧ asciiClass b.toNat = cls) :
    runChars classes bytes cls bytes.length i =
      runChars classes bytes cls bytes.length (i + plain.length) := by
  induction plain generalizing i with
  | nil => rfl
  | cons b plain ih =>
    rw [forall_mem_cons] at hplain
    have hb : bytes[i]? = some b := by
      have := congrArg (·[0]?) hdrop
      simpa using this
    have hi : i < bytes.length := (List.getElem?_eq_some_iff.mp hb).1
    have hclass : classAt classes bytes i = some (cls, 1) := by
      rw [classAt, hb, some_bind,
        if_pos (UInt8.lt_iff_toNat_lt.mpr hplain.1.1), hplain.1.2]
    have htail : bytes.drop (i + 1) = plain ++ rest := by
      rw [← drop_drop, hdrop]
      rfl
    rw [runChars_step hi hclass, if_neg (not_not.mpr rfl), ih htail hplain.2, length_cons]
    congr 1
    omega

/-- The scan by words ends where the scan by characters does. -/
theorem runWords_eq {fuel i : Nat} (h : bytes.length - i < fuel) :
    runWords classes bytes cls fuel i = runChars classes bytes cls bytes.length i := by
  induction fuel generalizing i with
  | zero => omega
  | succ fuel ih =>
    rw [runWords]
    by_cases hchunk : i + 8 ≤ bytes.length
    · rw [checkedSlice_eq_some (by omega) hchunk]
      have hlength : (slice bytes i (i + 8)).length = 8 := by
        rw [length_slice hchunk]
        omega
      have hdrop := (slice_append_drop bytes (show i ≤ i + 8 by omega)).symm
      by_cases hascii : littleEndian (slice bytes i (i + 8)) &&& hi = 0
      · have hall := ascii_of_and_hi hlength hascii
        simp only [hascii, ne_eq, not_true_eq_false, if_false]
        rcases asciiClassMask_cases hlength hall cls with
          ⟨hmask, hcls⟩ | ⟨hmask, before, b, after, hsplit, hbefore, hb, hindex⟩
        · rw [if_pos hmask, ih (by omega),
            runChars_ascii hdrop fun b hb => ⟨hall b hb, hcls b hb⟩, hlength]
        · rw [if_neg hmask, hindex]
          rw [hsplit, append_assoc] at hdrop
          rw [runChars_ascii hdrop fun x hx => ⟨hall x (by simp [hsplit, hx]), hbefore x hx⟩]
          have hnext : bytes[i + before.length]? = some b := by
            have := congrArg (·[before.length]?) hdrop
            simpa using this
          have hbound : i + before.length < bytes.length := (List.getElem?_eq_some_iff.mp hnext).1
          have hclass : classAt classes bytes (i + before.length) =
              some (asciiClass b.toNat, 1) := by
            rw [classAt, hnext, some_bind,
              if_pos (UInt8.lt_iff_toNat_lt.mpr (hall b (by simp [hsplit])))]
          rw [runChars_step hbound hclass, if_pos hb]
      · simp only [hascii, ne_eq, not_false_eq_true, if_true]
    · have hnone : checkedSlice bytes i (i + 8) = none := if_neg fun hin => hchunk hin.2
      rw [hnone]

theorem runEnd_eq_runChars (i : Nat) :
    runEnd classes bytes i cls = runChars classes bytes cls bytes.length i :=
  runWords_eq (by omega)

end

end Eidnara.Tokenizer
