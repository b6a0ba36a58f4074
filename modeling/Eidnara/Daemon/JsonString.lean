import Eidnara.Lib.Utf8
import Eidnara.Lib.Words
import Mathlib.Data.List.GetD

/-!
# JSON string spelling

`escape`, `escape_marks` and `push_escaped`: a string is written byte by byte
with the escapes of `serde_json`, scanned eight bytes at a time.  A word is a
natural below `2 ^ 64`.
-/

namespace Eidnara.Daemon

open Lib Utf8 Words List

/-! ## Escapes -/

/-- `HEX`. -/
def hexDigits : Bytes :=
  [0x30, 0x31, 0x32, 0x33, 0x34, 0x35, 0x36, 0x37, 0x38, 0x39, 0x61, 0x62, 0x63, 0x64, 0x65, 0x66]

def escape (byte : UInt8) : Bytes :=
  let short : UInt8 :=
    if byte = 0x22 then 0x22
    else if byte = 0x5c then 0x5c
    else if byte = 0x08 then 0x62
    else if byte = 0x09 then 0x74
    else if byte = 0x0a then 0x6e
    else if byte = 0x0c then 0x66
    else if byte = 0x0d then 0x72
    else 0
  if short ≠ 0 then [0x5c, short]
  else if byte < 0x20 then
    [0x5c, 0x75, 0x30, 0x30, hexDigits.getD (byte.toNat / 16) 0, hexDigits.getD (byte.toNat % 16) 0]
  else [byte]

def escapes (byte : UInt8) : Bool := (escape byte).length > 1

/-- A string as `serde_json` spells it. -/
def quoted (value : Bytes) : Bytes := 0x22 :: (value.flatMap escape ++ [0x22])

/-! ## Scanning a word at a time -/

/-- `ONES` and `HIGHS`. -/
def onesWord : Nat := 0x0101010101010101

def highsWord : Nat := 0x8080808080808080

/-- `escape_marks`: the high bit of every byte that is escaped, and perhaps of
bytes above the lowest of them. -/
def escapeMarks (word : Nat) : Nat :=
  let quote := word ^^^ (onesWord * 0x22)
  let backslash := word ^^^ (onesWord * 0x5c)
  (wrappingSub (2 ^ 64) word (onesWord * 0x20) |||
      (wrappingSub (2 ^ 64) quote onesWord &&& complement (2 ^ 64) quote) |||
      (wrappingSub (2 ^ 64) backslash onesWord &&& complement (2 ^ 64) backslash)) &&&
    complement (2 ^ 64) word &&& highsWord

def fromLeBytes : Bytes → Nat
  | [] => 0
  | byte :: rest => 256 * fromLeBytes rest + byte.toNat

/-- The second loop of `push_escaped`, over the last bytes. -/
def pushTail (bytes : Bytes) (start index : Nat) (out : Bytes) : Bytes :=
  if h : index < bytes.length then
    if escapes bytes[index] then
      pushTail bytes (index + 1) (index + 1) (out ++ slice bytes start index ++ escape bytes[index])
    else pushTail bytes start (index + 1) out
  else out ++ bytes.drop start
termination_by bytes.length - index

/-- The first loop of `push_escaped`: eight bytes at a time. -/
def pushWords (bytes : Bytes) (start index : Nat) (out : Bytes) : Bytes :=
  if index + 8 ≤ bytes.length then
    let flags := escapeMarks (fromLeBytes (slice bytes index (index + 8)))
    if flags = 0 then pushWords bytes start (index + 8) out
    else
      let index := index + trailingZeros 64 flags / 8
      if escapes (bytes.getD index 0) then
        pushWords bytes (index + 1) (index + 1)
          (out ++ slice bytes start index ++ escape (bytes.getD index 0))
      else pushWords bytes start (index + 1) out
  else pushTail bytes start index out
termination_by bytes.length - index

def pushEscaped (out value : Bytes) : Bytes :=
  pushWords value 0 0 (out ++ [0x22]) ++ [0x22]

def escapeGrowth (byte : UInt8) : Nat := (escape byte).length - 1

/-- The loop of `json_string_len` and the sum after it. -/
def jsonStringLenFrom (bytes : Bytes) (index len : Nat) : Nat :=
  if index + 8 ≤ bytes.length then
    let marks := escapeMarks (fromLeBytes (slice bytes index (index + 8)))
    if marks = 0 then jsonStringLenFrom bytes (index + 8) len
    else
      let index := index + trailingZeros 64 marks / 8
      jsonStringLenFrom bytes (index + 1) (len + escapeGrowth (bytes.getD index 0))
  else len + ((bytes.drop index).map escapeGrowth).sum
termination_by bytes.length - index

def jsonStringLen (value : Bytes) : Nat := jsonStringLenFrom value 0 (value.length + 2)

/-! ## The lowest mark -/

/-- A word of `n` bytes that are all one. -/
def ones : Nat → Nat
  | 0 => 0
  | n + 1 => 256 * ones n + 1

/-- `escape_marks` on words of `n` bytes. -/
def marks (n word : Nat) : Nat :=
  let quote := word ^^^ (ones n * 0x22)
  let backslash := word ^^^ (ones n * 0x5c)
  (wrappingSub (256 ^ n) word (ones n * 0x20) |||
      (wrappingSub (256 ^ n) quote (ones n) &&& complement (256 ^ n) quote) |||
      (wrappingSub (256 ^ n) backslash (ones n) &&& complement (256 ^ n) backslash)) &&&
    complement (256 ^ n) word &&& (ones n * 0x80)

theorem escapeMarks_eq_marks (word : Nat) : escapeMarks word = marks 8 word := rfl

def NeedsEscape (byte : Nat) : Prop := byte < 0x20 ∨ byte = 0x22 ∨ byte = 0x5c

instance (byte : Nat) : Decidable (NeedsEscape byte) := by
  unfold NeedsEscape
  infer_instance

/-- The mark of the lowest byte, which no borrow reaches. -/
def lowMark (b : Nat) : Nat :=
  (wrappingSub 256 b 0x20 |||
      (wrappingSub 256 (b ^^^ 0x22) 1 &&& complement 256 (b ^^^ 0x22)) |||
      (wrappingSub 256 (b ^^^ 0x5c) 1 &&& complement 256 (b ^^^ 0x5c))) &&&
    complement 256 b &&& 0x80

theorem lowMark_eq : ∀ b < 256, lowMark b = if NeedsEscape b then 0x80 else 0 := by
  decide +kernel

theorem xor_pos_of_not_needsEscape : ∀ b < 256, ¬ NeedsEscape b →
    0x20 ≤ b ∧ 1 ≤ b ^^^ 0x22 ∧ 1 ≤ b ^^^ 0x5c := by
  decide +kernel

theorem ones_mul_succ (n c : Nat) : ones (n + 1) * c = 256 * (ones n * c) + c := by
  rw [ones]
  ring

variable {c : Nat}

theorem ones_mul_lt (n : Nat) (hc : c < 256) : ones n * c < 256 ^ n := by
  have hones : ones n * 255 + 1 = 256 ^ n := by
    induction n with
    | zero => rfl
    | succ n ih =>
      rw [ones_mul_succ, pow_succ]
      omega
  have hle : ones n * c ≤ ones n * 255 := Nat.mul_le_mul_left _ (by omega)
  omega

variable {n w : Nat}

theorem xor_ones_lt (hw : w < 256 ^ n) (hc : c < 256) : w ^^^ (ones n * c) < 256 ^ n := by
  have hpow : 256 ^ n = 2 ^ (8 * n) := by rw [pow_mul]; rfl
  have hones := ones_mul_lt n hc
  rw [hpow] at hw hones ⊢
  exact Nat.xor_lt_two_pow hw hones

variable {b : Nat}

theorem xor_ones_succ (hb : b < 256) (hc : c < 256) :
    (256 * w + b) ^^^ (ones (n + 1) * c) = 256 * (w ^^^ (ones n * c)) + (b ^^^ c) := by
  rw [ones_mul_succ, xor_split hb hc]

theorem marks_succ_mod (hw : w < 256 ^ n) (hb : b < 256) :
    marks (n + 1) (256 * w + b) % 256 = lowMark b := by
  have hsub : ∀ x y c : Nat, c < 256 → wrappingSub (256 * 256 ^ n) (256 * x + y)
      (256 * (ones n * c) + c) % 2 ^ 8 = wrappingSub 256 y c := by
    intro x y c hc
    exact wrappingSub_mod (by have := ones_mul_lt n hc; omega) hc
  have hnot : ∀ x y : Nat, x < 256 ^ n → y < 256 →
      complement (256 * 256 ^ n) (256 * x + y) % 2 ^ 8 = complement 256 y := by
    intro x y hx hy
    rw [complement_split hx hy]
    simp only [complement]
    omega
  have hquote : b ^^^ 0x22 < 256 := Nat.xor_lt_two_pow (n := 8) hb (by decide)
  have hslash : b ^^^ 0x5c < 256 := Nat.xor_lt_two_pow (n := 8) hb (by decide)
  have hhigh : (256 * (ones n * 0x80) + 0x80) % 2 ^ 8 = 0x80 := by omega
  have hpow : 256 ^ (n + 1) = 256 * 256 ^ n := by ring
  have hone : ones (n + 1) = 256 * (ones n * 1) + 1 := by rw [ones, Nat.mul_one]
  have h256 : (256 : Nat) = 2 ^ 8 := rfl
  simp only [marks, xor_ones_succ hb (by decide : 0x22 < 256),
    xor_ones_succ hb (by decide : 0x5c < 256), hpow]
  rw [ones_mul_succ n 0x20, ones_mul_succ n 0x80, hone]
  conv_lhs => rhs; rw [h256]
  rw [Nat.and_mod_two_pow, Nat.and_mod_two_pow, Nat.or_mod_two_pow, Nat.or_mod_two_pow,
    Nat.and_mod_two_pow, Nat.and_mod_two_pow, hsub _ _ 0x20 (by decide), hsub _ _ 1 (by decide),
    hsub _ _ 1 (by decide), hnot _ _ hw hb, hnot _ _ (xor_ones_lt hw (by decide)) hquote,
    hnot _ _ (xor_ones_lt hw (by decide)) hslash, hhigh]
  rfl

/-- A plain lowest byte marks nothing and lends nothing. -/
theorem marks_succ (hw : w < 256 ^ n) (hb : b < 256) (hplain : ¬ NeedsEscape b) :
    marks (n + 1) (256 * w + b) = 256 * marks n w := by
  obtain ⟨hcontrol, hquote, hslash⟩ := xor_pos_of_not_needsEscape b hb hplain
  have hquote' : b ^^^ 0x22 < 256 := Nat.xor_lt_two_pow (n := 8) hb (by decide)
  have hslash' : b ^^^ 0x5c < 256 := Nat.xor_lt_two_pow (n := 8) hb (by decide)
  have hsub : ∀ x y c : Nat, y < 256 → c ≤ y → wrappingSub (256 * 256 ^ n) (256 * x + y)
      (256 * (ones n * c) + c) = 256 * wrappingSub (256 ^ n) x (ones n * c) + (y - c) := by
    intro x y c hy hc
    exact wrappingSub_split (ones_mul_lt n (by omega)) hy hc
  have hcomplement : ∀ y, complement 256 y < 256 := by
    intro y
    simp only [complement]
    omega
  have hpow : 256 ^ (n + 1) = 256 * 256 ^ n := by ring
  have hone : ones (n + 1) = 256 * (ones n * 1) + 1 := by rw [ones, Nat.mul_one]
  -- every operand is a byte below and the same operand of the shorter word above
  have hsplit : ∃ low < 256, marks (n + 1) (256 * w + b) = 256 * marks n w + low := by
    simp only [marks, xor_ones_succ hb (by decide : 0x22 < 256),
      xor_ones_succ hb (by decide : 0x5c < 256), hpow]
    rw [ones_mul_succ n 0x20, ones_mul_succ n 0x80, hone, hsub _ _ _ hb hcontrol,
      hsub _ _ _ hquote' hquote, hsub _ _ _ hslash' hslash, complement_split hw hb,
      complement_split (xor_ones_lt hw (by decide)) hquote',
      complement_split (xor_ones_lt hw (by decide)) hslash', Nat.mul_one]
    have hleft : ∀ {x y : Nat}, x < 256 → x &&& y < 256 := fun hx =>
      lt_of_le_of_lt Nat.and_le_left hx
    rw [and_split (by omega) (hcomplement _), and_split (by omega) (hcomplement _),
      or_split (by omega) (hleft (by omega)),
      or_split (Nat.or_lt_two_pow (n := 8) (by omega) (hleft (by omega))) (hleft (by omega)),
      and_split (Nat.or_lt_two_pow (n := 8)
        (Nat.or_lt_two_pow (n := 8) (by omega) (hleft (by omega))) (hleft (by omega)))
        (hcomplement _),
      and_split (lt_of_le_of_lt Nat.and_le_right (hcomplement _)) (by decide)]
    exact ⟨_, lt_of_le_of_lt Nat.and_le_right (by decide), rfl⟩
  obtain ⟨low, hlow, heq⟩ := hsplit
  have hmod := marks_succ_mod hw hb
  rw [lowMark_eq b hb, if_neg hplain, heq] at hmod
  omega

theorem fromLeBytes_lt (bytes : Bytes) : fromLeBytes bytes < 256 ^ bytes.length := by
  induction bytes with
  | nil => exact Nat.one_pos
  | cons byte rest ih =>
    have hbyte : byte.toNat < 256 := byte.toNat_lt
    rw [fromLeBytes, length_cons, pow_succ]
    omega

variable {bytes : Bytes}

theorem marks_plain (h : ∀ byte ∈ bytes, ¬ NeedsEscape byte.toNat) :
    marks bytes.length (fromLeBytes bytes) = 0 := by
  induction bytes with
  | nil => rfl
  | cons byte rest ih =>
    rw [length_cons, fromLeBytes,
      marks_succ (fromLeBytes_lt rest) byte.toNat_lt (h byte mem_cons_self),
      ih fun b hb => h b (mem_cons_of_mem _ hb)]

theorem marks_lowest {byte : UInt8} (hbyte : NeedsEscape byte.toNat) (rest : Bytes) :
    ∀ plain : Bytes, (∀ b ∈ plain, ¬ NeedsEscape b.toNat) →
    (marks (plain ++ byte :: rest).length (fromLeBytes (plain ++ byte :: rest))).testBit
        (8 * plain.length + 7) = true ∧
      ∀ j < 8 * plain.length + 7,
        (marks (plain ++ byte :: rest).length (fromLeBytes (plain ++ byte :: rest))).testBit j =
          false := by
  intro plain
  induction plain with
  | nil =>
    intro _
    have hmod := marks_succ_mod (fromLeBytes_lt rest) byte.toNat_lt
    rw [lowMark_eq _ byte.toNat_lt, if_pos hbyte] at hmod
    have hbit : ∀ j < 8, (marks (rest.length + 1)
        (256 * fromLeBytes rest + byte.toNat)).testBit j = Nat.testBit 0x80 j := by
      intro j hj
      rw [← hmod, show (256 : Nat) = 2 ^ 8 from rfl, Nat.testBit_mod_two_pow]
      simp [hj]
    refine ⟨?_, ?_⟩
    · exact hbit 7 (by decide)
    · intro j hj
      have hlow : ∀ j < 7, Nat.testBit 0x80 j = false := by decide
      exact (hbit j (by simp at hj; omega)).trans (hlow j (by simpa using hj))
  | cons b plain ih =>
    intro hplain
    obtain ⟨hset, hlow⟩ := ih fun x hx => hplain x (mem_cons_of_mem _ hx)
    rw [cons_append, length_cons, fromLeBytes,
      marks_succ (fromLeBytes_lt _) b.toNat_lt (hplain b mem_cons_self), length_cons]
    have hshift : ∀ a j, (256 * a).testBit j = (decide (8 ≤ j) && a.testBit (j - 8)) :=
      fun _ _ => Nat.testBit_two_pow_mul (i := 8)
    refine ⟨?_, ?_⟩
    · rw [hshift, show 8 * (plain.length + 1) + 7 - 8 = 8 * plain.length + 7 by omega, hset,
        Bool.and_true, decide_eq_true_eq]
      omega
    · intro j hj
      rw [hshift]
      by_cases hj8 : 8 ≤ j
      · rw [hlow _ (by omega), Bool.and_false]
      · simp [hj8]

theorem escapes_iff : ∀ byte : UInt8, escapes byte = true ↔ NeedsEscape byte.toNat :=
  forall_byte (by decide +kernel)

theorem escape_plain : ∀ {byte : UInt8}, ¬ escapes byte = true → escape byte = [byte] :=
  @(forall_byte (by decide +kernel))

theorem head?_escape : ∀ byte : UInt8,
    (escape byte).head? = some (if escapes byte = true then 0x5c else byte) :=
  forall_byte (by decide +kernel)

theorem flatMap_escape_plain (h : ∀ byte ∈ bytes, ¬ escapes byte = true) :
    bytes.flatMap escape = bytes := by
  induction bytes with
  | nil => rfl
  | cons byte rest ih =>
    rw [flatMap_cons, escape_plain (h byte mem_cons_self),
      ih fun b hb => h b (mem_cons_of_mem _ hb)]
    rfl

/-- What the marks of a chunk say: no byte is escaped, or the first that is stands
in the marked lane. -/
theorem escapeMarks_cases {chunk : Bytes} (hlength : chunk.length = 8) :
    (escapeMarks (fromLeBytes chunk) = 0 ∧ ∀ byte ∈ chunk, ¬ escapes byte = true) ∨
      (escapeMarks (fromLeBytes chunk) ≠ 0 ∧ ∃ plain byte rest, chunk = plain ++ byte :: rest ∧
        (∀ b ∈ plain, ¬ escapes b = true) ∧ escapes byte = true ∧
        trailingZeros 64 (escapeMarks (fromLeBytes chunk)) / 8 = plain.length) := by
  cases hfirst : chunk.find? escapes with
  | none =>
    have hplain := find?_eq_none.mp hfirst
    have hmarks := marks_plain fun byte hbyte => (escapes_iff byte).not.mp (hplain byte hbyte)
    rw [hlength, ← escapeMarks_eq_marks] at hmarks
    exact .inl ⟨hmarks, hplain⟩
  | some byte =>
    obtain ⟨hbyte, plain, rest, hsplit, hbefore⟩ := find?_eq_some_iff_append.mp hfirst
    replace hbefore : ∀ b ∈ plain, ¬ escapes b = true := by simpa using hbefore
    obtain ⟨hset, hlow⟩ := marks_lowest ((escapes_iff byte).mp hbyte) rest plain
      fun b hb => (escapes_iff b).not.mp (hbefore b hb)
    rw [← hsplit, hlength, ← escapeMarks_eq_marks] at hset hlow
    have hlane : plain.length < 8 := by
      rw [hsplit, length_append, length_cons] at hlength
      omega
    refine .inr ⟨?_, plain, byte, rest, hsplit, hbefore, hbyte, ?_⟩
    · intro hzero
      rw [hzero, Nat.zero_testBit] at hset
      cases hset
    · rw [trailingZeros_eq (by omega) hset hlow]
      omega

/-! ## The loops -/

variable {start index next : Nat}

theorem length_word (h : index + 8 ≤ bytes.length) :
    (slice bytes index (index + 8)).length = 8 := by
  rw [length_slice h]
  omega

theorem plain_of_unmarked (h : index + 8 ≤ bytes.length)
    (hzero : escapeMarks (fromLeBytes (slice bytes index (index + 8))) = 0) :
    ∀ byte ∈ slice bytes index (index + 8), ¬ escapes byte = true := by
  rcases escapeMarks_cases (length_word h) with ⟨-, hplain⟩ | ⟨hmarked, -⟩
  · exact hplain
  · exact absurd hzero hmarked

/-- Plain bytes are copied as they are. -/
theorem copied_append_escaped (hstart : start ≤ index) (hnext : index ≤ next)
    (hplain : ∀ byte ∈ slice bytes index next, ¬ escapes byte = true) :
    slice bytes start next ++ (bytes.drop next).flatMap escape =
      slice bytes start index ++ (bytes.drop index).flatMap escape := by
  rw [← slice_append_slice hstart hnext, ← slice_append_drop bytes hnext, flatMap_append,
    flatMap_escape_plain hplain, append_assoc]

/-- Plain bytes are copied and the byte after them is escaped. -/
theorem copied_append_escape (out : Bytes) (hstart : start ≤ index) (hnext : index ≤ next)
    (hplain : ∀ byte ∈ slice bytes index next, ¬ escapes byte = true)
    (hlt : next < bytes.length) :
    out ++ slice bytes start next ++ escape bytes[next] ++
        (slice bytes (next + 1) (next + 1) ++ (bytes.drop (next + 1)).flatMap escape) =
      out ++ (slice bytes start index ++ (bytes.drop index).flatMap escape) := by
  rw [← copied_append_escaped hstart hnext hplain, drop_eq_getElem_cons hlt, flatMap_cons,
    slice_self]
  simp only [nil_append, append_assoc]

theorem pushTail_eq (bytes : Bytes) (start index : Nat) (out : Bytes) (hstart : start ≤ index)
    (hindex : index ≤ bytes.length) :
    pushTail bytes start index out =
      out ++ (slice bytes start index ++ (bytes.drop index).flatMap escape) := by
  fun_induction pushTail bytes start index out with
  | case1 start index out hlt hescapes ih =>
    rw [ih (le_refl _) hlt, copied_append_escape out hstart (le_refl _) (by simp [slice_self]) hlt]
  | case2 start index out hlt hplain ih =>
    rw [ih (by omega) hlt, copied_append_escaped hstart (Nat.le_succ index)]
    rw [slice_one hlt]
    exact forall_mem_singleton.mpr hplain
  | case3 start index out hend =>
    obtain rfl : index = bytes.length := by omega
    simp [slice]

theorem marked_chunk (hchunk : index + 8 ≤ bytes.length)
    (hmarked : escapeMarks (fromLeBytes (slice bytes index (index + 8))) ≠ 0) :
    ∃ lane < 8, trailingZeros 64 (escapeMarks (fromLeBytes (slice bytes index (index + 8)))) / 8 =
        lane ∧ ∃ hlt : index + lane < bytes.length,
      (∀ byte ∈ slice bytes index (index + lane), ¬ escapes byte = true) ∧
        escapes bytes[index + lane] = true := by
  have hlength := length_word hchunk
  rcases escapeMarks_cases hlength with ⟨hzero, -⟩ | ⟨-, plain, byte, rest, hsplit, hbefore,
    hbyte, hlane⟩
  · exact absurd hzero hmarked
  · have hle : plain.length < 8 := by
      rw [hsplit, length_append, length_cons] at hlength
      omega
    have hlt : index + plain.length < bytes.length := by omega
    have hparts : plain ++ byte :: rest = slice bytes index (index + plain.length) ++
        ([bytes[index + plain.length]] ++
          slice bytes (index + plain.length + 1) (index + 8)) := by
      rw [← hsplit, ← slice_one hlt, slice_append_slice (by omega) (by omega),
        slice_append_slice (by omega) (by omega)]
    obtain ⟨hplain, htail⟩ := append_inj hparts (by
      rw [length_slice (by omega)]
      omega)
    refine ⟨plain.length, hle, hlane, hlt, hplain ▸ hbefore, ?_⟩
    rw [← (List.cons.inj htail).1]
    exact hbyte

theorem pushWords_eq (bytes : Bytes) (start index : Nat) (out : Bytes) (hstart : start ≤ index)
    (hindex : index ≤ bytes.length) :
    pushWords bytes start index out =
      out ++ (slice bytes start index ++ (bytes.drop index).flatMap escape) := by
  fun_induction pushWords bytes start index out with
  | case1 start index out hchunk flags hzero ih =>
    rw [ih (by omega) hchunk, copied_append_escaped hstart (Nat.le_add_right index 8)
      (plain_of_unmarked hchunk hzero)]
  | case2 start index out hchunk flags hmarked next hescapes ih =>
    obtain ⟨lane, -, hlane, hlt, hplain, -⟩ := marked_chunk hchunk hmarked
    have hnext : next = index + lane := congrArg (index + ·) hlane
    rw [hnext] at ih ⊢
    rw [ih (le_refl _) hlt, getD_eq_getElem _ _ hlt,
      copied_append_escape out hstart (Nat.le_add_right index lane) hplain hlt]
  | case3 start index out hchunk flags hmarked next hplain ih =>
    obtain ⟨lane, -, hlane, hlt, -, hescapes⟩ := marked_chunk hchunk hmarked
    have hnext : next = index + lane := congrArg (index + ·) hlane
    rw [hnext, getD_eq_getElem _ _ hlt] at hplain
    exact absurd hescapes hplain
  | case4 start index out hend => exact pushTail_eq bytes start index out hstart hindex

theorem pushEscaped_eq (out value : Bytes) : pushEscaped out value = out ++ quoted value := by
  rw [pushEscaped, pushWords_eq value 0 0 _ (le_refl _) (Nat.zero_le _), slice_self]
  simp [quoted]

/-! ## Lengths -/

theorem escape_length_pos : ∀ byte : UInt8, 1 ≤ (escape byte).length :=
  forall_byte (by decide +kernel)

theorem sum_escapeGrowth_plain (h : ∀ byte ∈ bytes, ¬ escapes byte = true) :
    (bytes.map escapeGrowth).sum = 0 := by
  induction bytes with
  | nil => rfl
  | cons byte rest ih =>
    rw [map_cons, sum_cons, ih fun b hb => h b (mem_cons_of_mem _ hb),
      escapeGrowth, escape_plain (h byte mem_cons_self)]
    rfl

theorem length_quoted (value : Bytes) :
    (quoted value).length = value.length + 2 + (value.map escapeGrowth).sum := by
  have hbody : (value.flatMap escape).length = value.length + (value.map escapeGrowth).sum := by
    induction value with
    | nil => rfl
    | cons byte rest ih =>
      have hpos := escape_length_pos byte
      rw [flatMap_cons, length_append, ih, map_cons, sum_cons,
        length_cons, escapeGrowth]
      omega
  rw [quoted, length_cons, length_append, hbody, length_singleton]
  omega

theorem jsonStringLenFrom_eq (bytes : Bytes) (index len : Nat) (hindex : index ≤ bytes.length) :
    jsonStringLenFrom bytes index len = len + ((bytes.drop index).map escapeGrowth).sum := by
  fun_induction jsonStringLenFrom bytes index len with
  | case1 index len hchunk marks hzero ih =>
    rw [ih hchunk, ← slice_append_drop bytes (Nat.le_add_right index 8), map_append,
      sum_append, sum_escapeGrowth_plain (plain_of_unmarked hchunk hzero), Nat.zero_add]
  | case2 index len hchunk marks hmarked next ih =>
    obtain ⟨lane, -, hlane, hlt, hplain, -⟩ := marked_chunk hchunk hmarked
    have hnext : next = index + lane := congrArg (index + ·) hlane
    rw [hnext] at ih ⊢
    rw [ih hlt, ← slice_append_drop bytes (Nat.le_add_right index lane), map_append,
      sum_append, sum_escapeGrowth_plain hplain, drop_eq_getElem_cons hlt,
      map_cons, sum_cons, getD_eq_getElem _ _ hlt]
    omega
  | case3 index len hend => rfl

theorem jsonStringLen_eq (value : Bytes) : jsonStringLen value = (quoted value).length := by
  rw [jsonStringLen, jsonStringLenFrom_eq value 0 _ (Nat.zero_le _), drop_zero, length_quoted]

end Eidnara.Daemon
