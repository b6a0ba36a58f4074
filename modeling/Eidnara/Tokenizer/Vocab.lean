import Eidnara.Lib.Utf8
import Eidnara.Lib.Words

/-!
# The vocabulary tables

`bpe.rs`: the rank of a byte string is looked up in one of five tables by its length; keys
of three to fifteen bytes are packed into one word.  A hash table is a list of its entries,
the newest first.  An index out of bounds is `none`.
-/

namespace Eidnara.Tokenizer

open Lib Utf8 Words List

/-- No vocabulary entry for this span: `u32::MAX`. -/
def noRank : Nat := 2 ^ 32 - 1

/-- A part merged into its left neighbour. -/
def dead : Nat := 2 ^ 32 - 2

structure Vocab where
  ranks : List (Bytes × Nat)
  short : List (Nat × Nat)
  mid : List (Nat × Nat)
  pair : Nat → Nat
  byte : Nat → Nat

/-- The word at `start`, loaded whole where the text extends that far. -/
def loadWord (width : Nat) (text : Bytes) (start len : Nat) : Option Nat :=
  match checkedSlice text start (start + width) with
  | some chunk => some (littleEndian chunk)
  | none =>
    (checkedSlice text start (start + len)).map fun token =>
      littleEndian (token ++ List.replicate (width - len) 0)

/-- The key of a token below `width` bytes: its bytes low in a word of that width, its length
in the top byte. -/
def packedKey (width : Nat) (text : Bytes) (start len : Nat) : Option Nat := do
  let word ← loadWord width text start len
  some ((word &&& ((2 ^ (8 * width) - 1) >>> (8 * width - 8 * len))) ||| len <<< (8 * (width - 1)))

def shortKey (text : Bytes) (start len : Nat) : Option Nat := packedKey 8 text start len

def midKey (text : Bytes) (start len : Nat) : Option Nat := packedKey 16 text start len

namespace Vocab

def empty : Vocab := ⟨[], [], [], fun _ => noRank, fun _ => noRank⟩

def insert (vocab : Vocab) (token : Bytes) (rank : Nat) : Vocab :=
  match token with
  | [a] => { vocab with byte := fun x => if x = a.toNat then rank else vocab.byte x }
  | [a, b] =>
    { vocab with
      pair := fun x => if x = a.toNat * 256 + b.toNat then rank else vocab.pair x }
  | _ =>
    if token.length ≤ 7 then
      match shortKey token 0 token.length with
      | none => vocab
      | some key => { vocab with short := (key, rank) :: vocab.short }
    else if token.length ≤ 15 then
      match midKey token 0 token.length with
      | none => vocab
      | some key => { vocab with mid := (key, rank) :: vocab.mid }
    else { vocab with ranks := (token, rank) :: vocab.ranks }

def fromTokens (tokens : List (Bytes × Nat)) : Vocab :=
  tokens.foldl (fun vocab token => vocab.insert token.1 token.2) empty

def rankOf (vocab : Vocab) (text : Bytes) (a b : Nat) : Option Nat := do
  let len ← checkedSub b a
  if len = 1 then
    let x ← text[a]?
    some (vocab.byte x.toNat)
  else if len = 2 then
    let x ← text[a]?
    let y ← text[a + 1]?
    some (vocab.pair (x.toNat * 256 + y.toNat))
  else if 3 ≤ len ∧ len ≤ 7 then
    let key ← shortKey text a len
    some ((vocab.short.lookup key).getD noRank)
  else if 8 ≤ len ∧ len ≤ 15 then
    let key ← midKey text a len
    some ((vocab.mid.lookup key).getD noRank)
  else
    let token ← checkedSlice text a b
    some ((vocab.ranks.lookup token).getD noRank)

end Vocab

/-! ## Packed keys -/

def keyOf (width : Nat) (token : Bytes) : Nat :=
  token.length * 256 ^ (width - 1) + littleEndian token

variable {width : Nat}

theorem keyOf_injective {a b : Bytes} (ha : a.length < width) (hb : b.length < width)
    (h : keyOf width a = keyOf width b) : a = b := by
  have hbound : ∀ token : Bytes, token.length < width → littleEndian token < 256 ^ (width - 1) :=
    fun token htoken => (littleEndian_lt token).trans_le
      (Nat.pow_le_pow_right (by decide) (by omega))
  have hpos : 0 < 256 ^ (width - 1) := Nat.pow_pos (by decide)
  have hlength : a.length = b.length := by
    have := congrArg (· / 256 ^ (width - 1)) h
    simpa [keyOf, Nat.mul_add_div, Nat.mul_comm _ (256 ^ (width - 1)), hpos,
      Nat.div_eq_of_lt (hbound a ha), Nat.div_eq_of_lt (hbound b hb)] using this
  refine littleEndian_injective hlength ?_
  simp only [keyOf, hlength] at h
  omega

theorem loadWord_eq {start len : Nat} {text : Bytes} (hlen : len < width)
    (htext : start + len ≤ text.length) :
    ∃ high, loadWord width text start len =
      some (littleEndian (slice text start (start + len)) + 256 ^ len * high) := by
  have htoken : (slice text start (start + len)).length = len := by
    rw [length_slice htext]
    omega
  unfold loadWord
  by_cases hlong : start + width ≤ text.length
  · refine ⟨littleEndian (slice text (start + len) (start + width)), ?_⟩
    rw [checkedSlice_eq_some (by omega) hlong,
      ← slice_append_slice (show start ≤ start + len by omega)
        (show start + len ≤ start + width by omega)]
    simp only [littleEndian_append, htoken]
  · refine ⟨littleEndian (List.replicate (width - len) 0), ?_⟩
    have hnone : checkedSlice text start (start + width) = none := if_neg fun h => hlong h.2
    rw [hnone, checkedSlice_eq_some (by omega) htext]
    simp only [Option.map_some, littleEndian_append, htoken]

theorem packedKey_eq {start len : Nat} {text : Bytes} (hlen : len < width)
    (htext : start + len ≤ text.length) :
    packedKey width text start len = some (keyOf width (slice text start (start + len))) := by
  have htoken : (slice text start (start + len)).length = len := by
    rw [length_slice htext]
    omega
  have hsmall := littleEndian_slice_lt htext
  obtain ⟨high, hword⟩ := loadWord_eq hlen htext
  have hmask : (2 ^ (8 * width) - 1) >>> (8 * width - 8 * len) = 2 ^ (8 * len) - 1 := by
    rw [Nat.shiftRight_eq_div_pow]
    have hsplit : 2 ^ (8 * width) = 2 ^ (8 * len) * 2 ^ (8 * width - 8 * len) := by
      rw [← Nat.pow_add]
      congr 1
      omega
    have hone : 0 < 2 ^ (8 * width - 8 * len) := Nat.pow_pos (by decide)
    have hlow : 0 < 2 ^ (8 * len) := Nat.pow_pos (by decide)
    rw [hsplit, Nat.div_eq_of_lt_le]
    · rw [Nat.sub_mul, Nat.one_mul]
      omega
    · rw [Nat.sub_add_cancel hlow]
      exact Nat.sub_lt (Nat.mul_pos hlow hone) Nat.one_pos
  have hbytes : ∀ k, 2 ^ (8 * k) = 256 ^ k := fun k => by rw [Nat.pow_mul]
  have hlow : (littleEndian (slice text start (start + len)) + 256 ^ len * high) % 2 ^ (8 * len) =
      littleEndian (slice text start (start + len)) := by
    rw [hbytes, Nat.add_mul_mod_self_left, Nat.mod_eq_of_lt hsmall]
  have hfits : littleEndian (slice text start (start + len)) < 2 ^ (8 * (width - 1)) := by
    rw [hbytes]
    exact hsmall.trans_le (Nat.pow_le_pow_right (by decide) (by omega))
  rw [packedKey, hword, some_bind, hmask,
    Nat.and_two_pow_sub_one_eq_mod, hlow, Nat.or_comm, Nat.shiftLeft_eq, Nat.mul_comm,
    ← Nat.two_pow_add_eq_or_of_lt hfits, keyOf, htoken, hbytes, Nat.mul_comm]

theorem packedKey_token {token : Bytes} (hlen : token.length < width) :
    packedKey width token 0 token.length = some (keyOf width token) := by
  rw [packedKey_eq hlen (by omega)]
  simp [slice]

/-! ## Lookup -/

namespace Vocab

variable {vocab : Vocab} {token other : Bytes} {rank : Nat}

def find (vocab : Vocab) (token : Bytes) : Nat :=
  match token with
  | [x] => vocab.byte x.toNat
  | [x, y] => vocab.pair (x.toNat * 256 + y.toNat)
  | _ =>
    if token.length ≤ 7 then (vocab.short.lookup (keyOf 8 token)).getD noRank
    else if token.length ≤ 15 then (vocab.mid.lookup (keyOf 16 token)).getD noRank
    else (vocab.ranks.lookup token).getD noRank

/-- Neither one byte nor two. -/
def Packed (token : Bytes) : Prop := token.length ≠ 1 ∧ token.length ≠ 2

theorem find_packed (h : Packed token) : vocab.find token =
    if token.length ≤ 7 then (vocab.short.lookup (keyOf 8 token)).getD noRank
    else if token.length ≤ 15 then (vocab.mid.lookup (keyOf 16 token)).getD noRank
    else (vocab.ranks.lookup token).getD noRank := by
  rcases token with _ | ⟨a, _ | ⟨b, _ | ⟨c, rest⟩⟩⟩
  · rfl
  · exact absurd rfl h.1
  · exact absurd rfl h.2
  · rfl

theorem insert_packed (h : Packed token) : vocab.insert token rank =
    if token.length ≤ 7 then { vocab with short := (keyOf 8 token, rank) :: vocab.short }
    else if token.length ≤ 15 then { vocab with mid := (keyOf 16 token, rank) :: vocab.mid }
    else { vocab with ranks := (token, rank) :: vocab.ranks } := by
  have hinsert : vocab.insert token rank =
      if token.length ≤ 7 then
        match shortKey token 0 token.length with
        | none => vocab
        | some key => { vocab with short := (key, rank) :: vocab.short }
      else if token.length ≤ 15 then
        match midKey token 0 token.length with
        | none => vocab
        | some key => { vocab with mid := (key, rank) :: vocab.mid }
      else { vocab with ranks := (token, rank) :: vocab.ranks } := by
    rcases token with _ | ⟨a, _ | ⟨b, _ | ⟨c, rest⟩⟩⟩
    · rfl
    · exact absurd rfl h.1
    · exact absurd rfl h.2
    · rfl
  rw [hinsert]
  split_ifs with hshort hmid
  · rw [shortKey, packedKey_token (by omega)]
  · rw [midKey, packedKey_token (by omega)]
  · rfl

theorem lookup_cons_getD {κ : Type} [BEq κ] [LawfulBEq κ] [DecidableEq κ] (table : List (κ × Nat))
    (key found : κ) :
    (((key, rank) :: table).lookup found).getD noRank =
      if found = key then rank else (table.lookup found).getD noRank := by
  rw [List.lookup_cons]
  by_cases h : found = key
  · simp [h]
  · rw [if_neg h, beq_false_of_ne h]

theorem find_insert_byte (a : UInt8) :
    (vocab.insert [a] rank).find other = if other = [a] then rank else vocab.find other := by
  rcases other with _ | ⟨x, _ | ⟨y, rest⟩⟩
  · rfl
  · simp [insert, find, UInt8.toNat_inj]
  · rw [if_neg (by simp)]
    cases rest <;> rfl

theorem find_insert_pair (a b : UInt8) :
    (vocab.insert [a, b] rank).find other = if other = [a, b] then rank else vocab.find other := by
  rcases other with _ | ⟨x, _ | ⟨y, _ | ⟨z, rest⟩⟩⟩
  · rfl
  · rw [if_neg (by simp)]
    rfl
  · have hindex : x.toNat * 256 + y.toNat = a.toNat * 256 + b.toNat ↔ [x, y] = [a, b] := by
      have hy := y.toNat_lt
      have hb := b.toNat_lt
      simp only [List.cons.injEq, and_true, ← UInt8.toNat_inj]
      omega
    simp only [insert, find, hindex]
  · rw [if_neg (by simp)]
    rfl

theorem find_insert_packed (htoken : Packed token) :
    (vocab.insert token rank).find other = if other = token then rank else vocab.find other := by
  rw [insert_packed htoken]
  by_cases hother : Packed other
  · rw [find_packed hother, find_packed hother]
    by_cases heq : other = token
    · subst heq
      rw [if_pos rfl]
      split_ifs <;> simp only [lookup_cons_getD, if_true]
    · have hkey : ∀ width, other.length < width → token.length < width →
          keyOf width other ≠ keyOf width token :=
        fun width ho ht h => heq (keyOf_injective ho ht h)
      rw [if_neg heq]
      by_cases hshort : token.length ≤ 7
      · rw [if_pos hshort]
        by_cases hshort' : other.length ≤ 7
        · rw [if_pos hshort', if_pos hshort', lookup_cons_getD,
            if_neg (hkey 8 (by omega) (by omega))]
        · rw [if_neg hshort', if_neg hshort']
      · rw [if_neg hshort]
        by_cases hmid : token.length ≤ 15
        · rw [if_pos hmid]
          by_cases hshort' : other.length ≤ 7
          · rw [if_pos hshort', if_pos hshort']
          · by_cases hmid' : other.length ≤ 15
            · rw [if_neg hshort', if_neg hshort', if_pos hmid', if_pos hmid', lookup_cons_getD,
                if_neg (hkey 16 (by omega) (by omega))]
            · rw [if_neg hshort', if_neg hshort', if_neg hmid', if_neg hmid']
        · rw [if_neg hmid, lookup_cons_getD, if_neg heq]
  · have hne : other ≠ token := fun h => hother (h ▸ htoken)
    rcases other with _ | ⟨x, _ | ⟨y, _ | ⟨z, rest⟩⟩⟩
    · exact absurd ⟨by decide, by decide⟩ hother
    · split_ifs <;> rfl
    · split_ifs <;> rfl
    · exact absurd ⟨by simp, by simp⟩ hother

/-- The table for the length of a token gains its entry, and no other lookup changes. -/
theorem find_insert :
    (vocab.insert token rank).find other = if other = token then rank else vocab.find other := by
  rcases token with _ | ⟨a, _ | ⟨b, _ | ⟨c, rest⟩⟩⟩
  · exact find_insert_packed ⟨by decide, by decide⟩
  · exact find_insert_byte a
  · exact find_insert_pair a b
  · exact find_insert_packed ⟨by simp, by simp⟩

theorem find_fromTokens {tokens : List (Bytes × Nat)} (hnodup : (tokens.map Prod.fst).Nodup)
    (token : Bytes) : (fromTokens tokens).find token = (tokens.lookup token).getD noRank := by
  have hfold : ∀ (tokens : List (Bytes × Nat)) (vocab : Vocab), (tokens.map Prod.fst).Nodup →
      (tokens.foldl (fun vocab token => vocab.insert token.1 token.2) vocab).find token =
        (tokens.lookup token).getD (vocab.find token) := by
    intro tokens
    induction tokens with
    | nil =>
      intro vocab _
      rfl
    | cons first tokens ih =>
      intro vocab hnodup
      rw [map_cons, nodup_cons] at hnodup
      rw [foldl_cons, ih _ hnodup.2, find_insert, List.lookup_cons]
      by_cases heq : token = first.1
      · have hnone : tokens.lookup token = none := by
          rw [lookup_eq_none_iff]
          intro entry hentry
          refine bne_iff_ne.mpr fun hsame => hnodup.1 ?_
          rw [← heq, hsame]
          exact mem_map_of_mem hentry
        simp [heq, heq ▸ hnone]
      · rw [if_neg heq, beq_false_of_ne heq]
  have hempty : Vocab.empty.find token = noRank := by
    by_cases hpacked : Packed token
    · rw [find_packed hpacked]
      split_ifs <;> rfl
    · rcases token with _ | ⟨x, _ | ⟨y, _ | ⟨z, rest⟩⟩⟩
      · rfl
      · rfl
      · rfl
      · exact absurd ⟨by simp, by simp⟩ hpacked
  rw [fromTokens, hfold tokens _ hnodup, hempty]

theorem rankOf_eq {text : Bytes} {a b : Nat} (hab : a < b) (hb : b ≤ text.length) :
    vocab.rankOf text a b = some (vocab.find (slice text a b)) := by
  have hlength : (slice text a b).length = b - a := length_slice hb
  rw [rankOf, checkedSub_of_le hab.le, some_bind]
  by_cases hone : b - a = 1
  · obtain rfl : b = a + 1 := by omega
    rw [if_pos hone, slice_one (by omega), getElem?_eq_getElem (by omega)]
    rfl
  by_cases htwo : b - a = 2
  · obtain rfl : b = a + 2 := by omega
    have hpair : slice text a (a + 2) = [text[a], text[a + 1]] := by
      rw [← slice_append_slice (show a ≤ a + 1 by omega) (show a + 1 ≤ a + 2 by omega),
        slice_one (by omega), slice_one (by omega)]
      rfl
    rw [if_neg hone, if_pos htwo, hpair, getElem?_eq_getElem (by omega),
      getElem?_eq_getElem (by omega)]
    rfl
  have hstop : a + (b - a) = b := by omega
  rw [if_neg hone, if_neg htwo, find_packed ⟨hlength ▸ hone, hlength ▸ htwo⟩, hlength]
  by_cases hshort : 3 ≤ b - a ∧ b - a ≤ 7
  · rw [if_pos hshort, if_pos hshort.2, shortKey, packedKey_eq (by omega) (by omega), hstop]
    rfl
  rw [if_neg hshort]
  by_cases hmid : 8 ≤ b - a ∧ b - a ≤ 15
  · rw [if_pos hmid, if_neg (by omega), if_pos hmid.2, midKey, packedKey_eq (by omega) (by omega),
      hstop]
    rfl
  rw [if_neg hmid, if_neg (by omega), if_neg (by omega), checkedSlice_eq_some hab.le hb]
  rfl

/-! ## Keys of spans -/

/-- The key of a span of three to fifteen bytes, short or mid by its length. -/
def spanKey (text : Bytes) (start len : Nat) : Option Nat :=
  if len ≤ 7 then shortKey text start len else midKey text start len

theorem spanKey_eq {text : Bytes} {start len : Nat} (hlen : len ≤ 15)
    (htext : start + len ≤ text.length) :
    spanKey text start len =
      some (keyOf (if len ≤ 7 then 8 else 16) (slice text start (start + len))) := by
  unfold spanKey
  split_ifs with hshort
  · exact packedKey_eq (by omega) htext
  · exact packedKey_eq (by omega) htext

/-- The length in the top byte lifts a mid key over every short one. -/
theorem keyOf_short_lt_mid {a b : Bytes} (ha : a.length ≤ 7) (hb : 8 ≤ b.length) :
    keyOf 8 a < keyOf 16 b := by
  have hbytes : littleEndian a < 256 ^ 7 :=
    (littleEndian_lt a).trans_le (Nat.pow_le_pow_right (by decide) ha)
  simp only [keyOf]
  omega

theorem keyOf_width_injective {a b : Bytes} (ha : a.length ≤ 15) (hb : b.length ≤ 15)
    (h : keyOf (if a.length ≤ 7 then 8 else 16) a = keyOf (if b.length ≤ 7 then 8 else 16) b) :
    a = b := by
  split_ifs at h with hshort hshort' hshort'
  · exact keyOf_injective (by omega) (by omega) h
  · exact absurd h (keyOf_short_lt_mid hshort (by omega)).ne
  · exact absurd h (keyOf_short_lt_mid hshort' (by omega)).ne'
  · exact keyOf_injective (by omega) (by omega) h

/-- The packed tables answer as the list of inserted tokens does, for every span of every text.
Two spans have one key only if they have the same bytes. -/
theorem rank_of_exact_lookup {tokens : List (Bytes × Nat)} (hnodup : (tokens.map Prod.fst).Nodup) :
    (∀ (text : Bytes) (a b : Nat), a < b → b ≤ text.length →
      (fromTokens tokens).rankOf text a b = some ((tokens.lookup (slice text a b)).getD noRank)) ∧
    ∀ (text other : Bytes) (start len start' len' : Nat), 3 ≤ len → len ≤ 15 →
      start + len ≤ text.length → 3 ≤ len' → len' ≤ 15 → start' + len' ≤ other.length →
      (spanKey text start len).isSome ∧
        (spanKey text start len = spanKey other start' len' ↔
          slice text start (start + len) = slice other start' (start' + len')) := by
  constructor
  · intro text a b hab hb
    rw [rankOf_eq hab hb, find_fromTokens hnodup]
  · intro text other start len start' len' _ hlen htext _ hlen' hother
    have hlength : (slice text start (start + len)).length = len := by
      rw [length_slice htext, Nat.add_sub_cancel_left]
    have hlength' : (slice other start' (start' + len')).length = len' := by
      rw [length_slice hother, Nat.add_sub_cancel_left]
    have hkey := spanKey_eq hlen htext
    have hkey' := spanKey_eq hlen' hother
    refine ⟨by rw [hkey]; rfl, fun h => ?_, fun h => ?_⟩
    · rw [hkey, hkey', Option.some.injEq] at h
      refine keyOf_width_injective (by omega) (by omega) ?_
      rw [hlength, hlength']
      exact h
    · have hsame : len = len' := by rw [← hlength, ← hlength', h]
      rw [hkey, hkey', h, hsame]

theorem rank_of_exact_lookup_abc :
    (fromTokens [([97, 98], 3), ([97, 98, 99], 7)]).rankOf [97, 98, 99, 100] 0 3 = some 7 :=
  (rank_of_exact_lookup (by decide)).1 [97, 98, 99, 100] 0 3 (by decide) (by decide)

end Vocab

end Eidnara.Tokenizer
