import Eidnara.Daemon.JsonString

/-!
# The string writer of the frame encoder

`push_json_string` skips plain blocks of sixteen bytes, then looks at one word, and copies a whole
word before it cuts the copy back to the marked lane.  It writes what `push_escaped` writes.
-/

namespace Eidnara.Daemon

open Lib Utf8 Words List

/-- The inner loop: blocks of two plain words are passed over. -/
def skipBlocks (bytes : Bytes) (index : Nat) : Nat :=
  if index + 16 ≤ bytes.length then
    let low := fromLeBytes (slice bytes index (index + 8))
    let high := fromLeBytes (slice bytes (index + 8) (index + 16))
    if escapeMarks low ||| escapeMarks high ≠ 0 then index else skipBlocks bytes (index + 16)
  else index
termination_by bytes.length - index

theorem le_skipBlocks (bytes : Bytes) (index : Nat) : index ≤ skipBlocks bytes index := by
  fun_induction skipBlocks bytes index with
  | case1 => exact le_refl _
  | case2 index hblock low high hplain ih => exact le_trans (Nat.le_add_right _ _) ih
  | case3 => exact le_refl _

/-- The loop over the last bytes. -/
def pushJsonTail (bytes : Bytes) (run index : Nat) (out : Bytes) : Bytes :=
  if h : index < bytes.length then
    if bytes[index] < 0x20 ∨ bytes[index] = 0x22 ∨ bytes[index] = 0x5c then
      pushJsonTail bytes (index + 1) (index + 1)
        (out ++ slice bytes run index ++ escape bytes[index])
    else pushJsonTail bytes run (index + 1) out
  else out ++ bytes.drop run
termination_by bytes.length - index

/-- The outer loop.  The marked word is copied whole and cut back to the marked lane. -/
def pushJsonWords (bytes : Bytes) (run index : Nat) (out : Bytes) : Bytes :=
  let block := skipBlocks bytes index
  if block + 8 ≤ bytes.length then
    let word := slice bytes block (block + 8)
    let marks := escapeMarks (fromLeBytes word)
    if marks = 0 then pushJsonWords bytes run (block + 8) out
    else
      let lane := trailingZeros 64 marks / 8
      pushJsonWords bytes (block + lane + 1) (block + lane + 1)
        (out ++ slice bytes run block ++ word.take lane ++ escape (word.getD lane 0))
  else pushJsonTail bytes run block out
termination_by bytes.length - index
decreasing_by
  all_goals
    have := le_skipBlocks bytes index
    omega

def pushJsonString (out value : Bytes) : Bytes :=
  pushJsonWords value 0 0 (out ++ [0x22]) ++ [0x22]

/-! ## What is skipped and what is written -/

variable {bytes : Bytes} {index : Nat}

theorem take_slice {xs : Bytes} {start stop n : Nat} (h : start + n ≤ stop)
    (hstop : stop ≤ xs.length) : (slice xs start stop).take n = slice xs start (start + n) := by
  rw [← slice_append_slice (Nat.le_add_right start n) h, take_left']
  rw [length_slice (le_trans h hstop)]
  omega

theorem skipBlocks_plain (bytes : Bytes) (index : Nat) (hindex : index ≤ bytes.length) :
    skipBlocks bytes index ≤ bytes.length ∧
      ∀ byte ∈ slice bytes index (skipBlocks bytes index), ¬ escapes byte = true := by
  fun_induction skipBlocks bytes index with
  | case1 => exact ⟨hindex, by simp [slice_self]⟩
  | case2 index hblock low high hplain ih =>
    obtain ⟨hle, hrest⟩ := ih hblock
    refine ⟨hle, ?_⟩
    have hzero : escapeMarks low = 0 ∧ escapeMarks high = 0 := by
      rw [not_not, Nat.or_eq_zero_iff] at hplain
      exact hplain
    rw [← slice_append_slice (Nat.le_add_right index 8) (le_trans (by omega)
        (le_skipBlocks bytes (index + 16))),
      ← slice_append_slice (Nat.add_le_add_left (by decide : 8 ≤ 16) index)
        (le_skipBlocks bytes (index + 16))]
    exact forall_mem_append.mpr ⟨plain_of_unmarked (by omega) hzero.1,
      forall_mem_append.mpr ⟨plain_of_unmarked (by omega) hzero.2, hrest⟩⟩
  | case3 => exact ⟨hindex, by simp [slice_self]⟩

theorem escapes_iff_compare :
    ∀ byte : UInt8, byte < 0x20 ∨ byte = 0x22 ∨ byte = 0x5c ↔ escapes byte = true :=
  forall_byte (by decide +kernel)

/-- The last bytes are written as `push_escaped` writes them. -/
theorem pushJsonTail_eq (bytes : Bytes) (run index : Nat) (out : Bytes) :
    pushJsonTail bytes run index out = pushTail bytes run index out := by
  fun_induction pushJsonTail bytes run index out with
  | case1 run index out hlt hescapes ih =>
    rw [ih, pushTail.eq_def bytes run, dif_pos hlt, if_pos ((escapes_iff_compare _).mp hescapes)]
  | case2 run index out hlt hplain ih =>
    rw [ih, pushTail.eq_def bytes run index, dif_pos hlt,
      if_neg (mt (escapes_iff_compare _).mpr hplain)]
  | case3 run index out hend => rw [pushTail, dif_neg hend]

theorem pushed_marked {out : Bytes} {run block lane : Nat} (hrun : run ≤ block) (hlane : lane < 8)
    (hword : block + 8 ≤ bytes.length) (hlt : block + lane < bytes.length)
    (hplain : ∀ byte ∈ slice bytes block (block + lane), ¬ escapes byte = true) :
    out ++ slice bytes run block ++ (slice bytes block (block + 8)).take lane ++
        escape ((slice bytes block (block + 8)).getD lane 0) ++
        (slice bytes (block + lane + 1) (block + lane + 1) ++
          (bytes.drop (block + lane + 1)).flatMap escape) =
      out ++ (slice bytes run block ++ (bytes.drop block).flatMap escape) := by
  have hbyte : (slice bytes block (block + 8)).getD lane 0 = bytes[block + lane] := by
    rw [getD_eq_getElem _ _ (by rw [length_word hword]; exact hlane)]
    simp [slice]
  rw [hbyte, take_slice (by omega) hword, append_assoc out,
    slice_append_slice hrun (Nat.le_add_right block lane),
    copied_append_escape out hrun (Nat.le_add_right block lane) hplain hlt]

theorem pushJsonWords_eq (bytes : Bytes) (run index : Nat) (out : Bytes) (hrun : run ≤ index)
    (hindex : index ≤ bytes.length) :
    pushJsonWords bytes run index out =
      out ++ (slice bytes run index ++ (bytes.drop index).flatMap escape) := by
  fun_induction pushJsonWords bytes run index out with
  | case1 run index out block hword word marks hzero ih =>
    obtain ⟨-, hskipped⟩ := skipBlocks_plain bytes index hindex
    have hle := le_skipBlocks bytes index
    rw [ih (by omega) hword, copied_append_escaped (le_trans hrun hle) (Nat.le_add_right _ 8),
      copied_append_escaped hrun hle hskipped]
    exact plain_of_unmarked hword hzero
  | case2 run index out block hword word marks hmarked lane ih =>
    obtain ⟨-, hskipped⟩ := skipBlocks_plain bytes index hindex
    have hle := le_skipBlocks bytes index
    obtain ⟨found, hlane8, hlane, hlt, hplain, -⟩ := marked_chunk hword hmarked
    have hfound : lane = found := hlane
    subst hfound
    rw [ih (le_refl _) hlt, pushed_marked (le_trans hrun hle) hlane8 hword hlt hplain,
      copied_append_escaped hrun hle hskipped]
  | case3 run index out block hend =>
    obtain ⟨hblock, hskipped⟩ := skipBlocks_plain bytes index hindex
    have hle := le_skipBlocks bytes index
    rw [pushJsonTail_eq, pushTail_eq bytes run _ out (le_trans hrun hle) hblock,
      copied_append_escaped hrun hle hskipped]

theorem pushJsonString_eq (out value : Bytes) : pushJsonString out value = out ++ quoted value := by
  rw [pushJsonString, pushJsonWords_eq value 0 0 _ (le_refl _) (Nat.zero_le _), slice_self]
  simp [quoted]

/-! ## The lanes of a word -/

def laneByte (word i : Nat) : UInt8 := UInt8.ofNat (word / 256 ^ i)

theorem fromLeBytes_lanes {n word : Nat} (h : word < 256 ^ n) :
    fromLeBytes ((List.range n).map (laneByte word)) = word := by
  induction n generalizing word with
  | zero => exact (Nat.lt_one_iff.mp h).symm
  | succ n ih =>
    have hshift : laneByte word ∘ Nat.succ = laneByte (word / 256) := by
      funext i
      simp only [laneByte, Function.comp_apply, Nat.succ_eq_add_one, pow_succ]
      rw [Nat.mul_comm, Nat.div_div_eq_div_mul]
    have hlow : (laneByte word 0).toNat = word % 256 := by simp [laneByte]
    rw [pow_succ] at h
    rw [range_succ_eq_map, map_cons, map_map, hshift, fromLeBytes,
      ih (Nat.div_lt_of_lt_mul (by rwa [Nat.mul_comm] at h)), hlow]
    omega

theorem escapeMarks_lanes {word : Nat} (hword : word < 2 ^ 64) :
    (escapeMarks word = 0 ↔ ∀ i < 8, escapes (laneByte word i) = false) ∧
      (escapeMarks word ≠ 0 → trailingZeros 64 (escapeMarks word) / 8 < 8 ∧
        escapes (laneByte word (trailingZeros 64 (escapeMarks word) / 8)) = true ∧
        ∀ j < trailingZeros 64 (escapeMarks word) / 8, escapes (laneByte word j) = false) := by
  have hchunk := fromLeBytes_lanes (n := 8) hword
  have hlength : ((List.range 8).map (laneByte word)).length = 8 := by simp
  have hcases := escapeMarks_cases hlength
  rw [hchunk] at hcases
  rcases hcases with ⟨hzero, hplain⟩ | ⟨hmarked, plain, byte, rest, hsplit, hbefore, hbyte, hlane⟩
  · refine ⟨⟨fun _ i hi => ?_, fun _ => hzero⟩, fun hmarked => absurd hzero hmarked⟩
    exact Bool.eq_false_iff.mpr (hplain _ (mem_map_of_mem (mem_range.mpr hi)))
  · have hlt : plain.length < 8 := by
      rw [hsplit, length_append, length_cons] at hlength
      omega
    have hget : ∀ i < 8, ((List.range 8).map (laneByte word))[i]? = some (laneByte word i) := by
      intro i hi
      simp [hi]
    have hat : escapes (laneByte word plain.length) = true := by
      have hfound := hget plain.length hlt
      rw [hsplit, getElem?_append_right (le_refl _)] at hfound
      simp only [Nat.sub_self, getElem?_cons_zero, Option.some.injEq] at hfound
      rwa [← hfound]
    rw [hlane]
    refine ⟨⟨fun hzero => absurd hzero hmarked, fun hall => ?_⟩,
      fun _ => ⟨hlt, hat, fun j hj => ?_⟩⟩
    · rw [hall plain.length hlt] at hat
      cases hat
    · have hfound := hget j (lt_trans hj hlt)
      rw [hsplit, getElem?_append_left hj] at hfound
      exact Bool.eq_false_iff.mpr (hbefore _ (mem_of_getElem? hfound))

/-- Both writers append the string byte by byte, its length is measured exactly, and a word's marks
find the lowest byte that is escaped. -/
theorem json_string_escaping :
    (∀ out value, pushJsonString out value = out ++ quoted value ∧
      pushEscaped out value = out ++ quoted value ∧
      jsonStringLen value = (quoted value).length) ∧
    ∀ word : UInt64,
      (escapeMarks word.toNat = 0 ↔ ∀ i < 8, escapes (laneByte word.toNat i) = false) ∧
      (escapeMarks word.toNat ≠ 0 → ∃ lane < 8,
        trailingZeros 64 (escapeMarks word.toNat) / 8 = lane ∧
        escapes (laneByte word.toNat lane) = true ∧
        ∀ j < lane, escapes (laneByte word.toNat j) = false) := by
  refine ⟨fun out value => ⟨pushJsonString_eq out value, pushEscaped_eq out value,
    jsonStringLen_eq value⟩, fun word => ?_⟩
  obtain ⟨hzero, hmarked⟩ := escapeMarks_lanes word.toNat_lt
  refine ⟨hzero, fun hne => ?_⟩
  obtain ⟨hlt, hat, hbelow⟩ := hmarked hne
  exact ⟨_, hlt, rfl, hat, hbelow⟩

end Eidnara.Daemon
