import Eidnara.Tokenizer.MergeHeap

/-!
# Both engines are the merge process

For a vocabulary with distinct ranks that covers every byte, both engines append the ids of
the merged parts of a span below four GiB.  Offsets are `u32`: at four GiB they wrap and
neither engine returns.
-/

namespace Eidnara.Tokenizer

open Lib Utf8 List

/-- Distinct ranks, none reserved, for distinct byte strings that cover every byte. -/
structure ValidTokens (tokens : List (Bytes × Nat)) : Prop where
  strings : (tokens.map Prod.fst).Nodup
  ranks : (tokens.map Prod.snd).Nodup
  real : ∀ token ∈ tokens, token.2 < dead
  bytes : ∀ byte : UInt8, [byte] ∈ tokens.map Prod.fst

def rankIn (tokens : List (Bytes × Nat)) (part : Bytes) : Option Nat := tokens.lookup part

def idOf (tokens : List (Bytes × Nat)) (part : Bytes) : Nat := (rankIn tokens part).getD noRank

def spelling (tokens : List (Bytes × Nat)) (id : Nat) : Bytes :=
  ((tokens.find? fun token => token.2 = id).map Prod.fst).getD []

variable {tokens : List (Bytes × Nat)} {part : Bytes}

theorem mem_of_rankIn {r : Nat} (h : rankIn tokens part = some r) : (part, r) ∈ tokens := by
  obtain ⟨before, after, rfl, -⟩ := lookup_eq_some_iff.mp h
  exact mem_append_right _ mem_cons_self

theorem exists_rankIn (h : part ∈ tokens.map Prod.fst) : ∃ r, rankIn tokens part = some r := by
  cases hlookup : rankIn tokens part with
  | some r => exact ⟨r, rfl⟩
  | none =>
    rw [rankIn, lookup_eq_none_iff] at hlookup
    obtain ⟨token, htoken, rfl⟩ := mem_map.mp h
    simpa using hlookup token htoken

theorem spelling_eq (hranks : (tokens.map Prod.snd).Nodup) {r : Nat} (h : (part, r) ∈ tokens) :
    spelling tokens r = part := by
  unfold spelling
  cases hfind : tokens.find? fun token => token.2 = r with
  | none =>
    rw [find?_eq_none] at hfind
    simpa using hfind _ h
  | some token =>
    have hrank : token.2 = r := by simpa using find?_some hfind
    have hsame : token = (part, r) :=
      inj_on_of_nodup_map hranks (mem_of_find?_eq_some hfind) h hrank
    rw [hsame]
    rfl

namespace ValidTokens

variable {tokens : List (Bytes × Nat)} (h : ValidTokens tokens)

include h

theorem vocabRanks : (Vocab.fromTokens tokens).Ranks (rankIn tokens) where
  find := Vocab.find_fromTokens h.strings
  real := fun _ _ hlookup => h.real _ (mem_of_rankIn hlookup)

theorem merged_rankIn {bytes : Bytes} {parts : List Bytes}
    (hmerges : Merges (rankIn tokens) (bytes.map ([·])) parts) :
    ∀ part ∈ parts, ∃ r, rankIn tokens part = some r := by
  refine hmerges.forall_mem (fun part hpart => ?_) fun x y r _ _ hr => ⟨r, hr⟩
  obtain ⟨byte, -, rfl⟩ := mem_map.mp hpart
  exact exists_rankIn (h.bytes byte)

theorem spelling_idOf {part : Bytes} (hpart : ∃ r, rankIn tokens part = some r) :
    spelling tokens (idOf tokens part) = part := by
  obtain ⟨r, hr⟩ := hpart
  rw [idOf, hr]
  exact spelling_eq h.ranks (mem_of_rankIn hr)

theorem idOf_real {part : Bytes} (hpart : ∃ r, rankIn tokens part = some r) :
    idOf tokens part ∈ tokens.map Prod.snd ∧ idOf tokens part ≠ noRank := by
  obtain ⟨r, hr⟩ := hpart
  have hmem := mem_of_rankIn hr
  have hreal := h.real _ hmem
  have hdead : dead < noRank := by decide
  rw [idOf, hr]
  refine ⟨mem_map_of_mem hmem, ?_⟩
  simp only [Option.getD_some] at hreal ⊢
  omega

end ValidTokens

def withBytes (tokens : List (Bytes × Nat)) : List (Bytes × Nat) :=
  (List.range 256).map (fun n => ([UInt8.ofNat n], n)) ++ tokens

theorem validTokens_withBytes (hstrings : (tokens.map Prod.fst).Nodup)
    (hranks : (tokens.map Prod.snd).Nodup)
    (hpairs : ∀ token ∈ tokens, 1 < token.1.length ∧ 256 ≤ token.2 ∧ token.2 < dead) :
    ValidTokens (withBytes tokens) where
  strings := by
    rw [withBytes, map_append, map_map]
    refine nodup_append.mpr ⟨nodup_range.map_on fun n hn m hm hsame => ?_, hstrings, ?_⟩
    · have hbyte := congrArg UInt8.toNat (head_eq_of_cons_eq hsame)
      rwa [UInt8.toNat_ofNat_of_lt' (mem_range.mp hn),
        UInt8.toNat_ofNat_of_lt' (mem_range.mp hm)] at hbyte
    · rintro _ hbyte _ hpair rfl
      obtain ⟨n, -, rfl⟩ := mem_map.mp hbyte
      obtain ⟨token, htoken, hsame⟩ := mem_map.mp hpair
      have hlong := (hpairs token htoken).1
      rw [hsame] at hlong
      exact absurd hlong (Nat.lt_irrefl 1)
  ranks := by
    rw [withBytes, map_append, map_map]
    refine nodup_append.mpr ⟨nodup_range.map_on fun n _ m _ hsame => hsame, hranks, ?_⟩
    rintro _ hbyte _ hpair rfl
    obtain ⟨n, hn, rfl⟩ := mem_map.mp hbyte
    obtain ⟨token, htoken, hsame⟩ := mem_map.mp hpair
    have hhigh := (hpairs token htoken).2.1
    rw [hsame] at hhigh
    exact absurd (mem_range.mp hn) (Nat.not_lt.mpr hhigh)
  real := by
    refine forall_mem_append.mpr ⟨fun token htoken => ?_, fun token h => (hpairs token h).2.2⟩
    obtain ⟨n, hn, rfl⟩ := mem_map.mp htoken
    exact (mem_range.mp hn).trans (by decide)
  bytes := by
    intro byte
    refine mem_map.mpr ⟨([byte], byte.toNat), mem_append_left _ ?_, rfl⟩
    exact mem_map.mpr ⟨byte.toNat, mem_range.mpr byte.toNat_lt, by simp⟩

/-- On a span of at least two bytes below four GiB both engines append the ids of the parts
of the merge process; every id is a real rank and the ids spell the span. -/
theorem engines_merge (tokens : List (Bytes × Nat)) (h : ValidTokens tokens) (text : Bytes)
    (start stop : Nat) (hstart : start + 2 ≤ stop) (hstop : stop ≤ text.length)
    (hlength : stop - start < 2 ^ 32) (scratch scratch' : Scratch) (out : List Nat) :
    ∃ parts, Merges (rankIn tokens) ((slice text start stop).map ([·])) parts ∧
      (∀ other, Merges (rankIn tokens) ((slice text start stop).map ([·])) other → other = parts) ∧
      (mergeScan (Vocab.fromTokens tokens) text start stop scratch out).map Prod.snd =
        some (out ++ parts.map (idOf tokens)) ∧
      (mergeHeap (Vocab.fromTokens tokens) text start stop scratch' out).map Prod.snd =
        some (out ++ parts.map (idOf tokens)) ∧
      (∀ id ∈ parts.map (idOf tokens), id ∈ tokens.map Prod.snd ∧ id ≠ noRank) ∧
      (parts.map (idOf tokens)).flatMap (spelling tokens) = slice text start stop := by
  have hranks := h.vocabRanks
  obtain ⟨parts, scanned, hmerges, hscan⟩ :=
    exists_mergeScan hranks hstart hstop hlength scratch out
  obtain ⟨parts', heaped, hmerges', hheap⟩ :=
    exists_mergeHeap hranks hstart hstop hlength scratch' out
  obtain rfl := hmerges.unique hmerges'
  have hids : parts.map (Vocab.fromTokens tokens).find = parts.map (idOf tokens) :=
    map_congr_left fun part _ => hranks.find part
  have hlookup := h.merged_rankIn hmerges
  refine ⟨parts, hmerges, fun other hother => hother.unique hmerges, ?_, ?_, ?_, ?_⟩
  · rw [hscan, Option.map_some, hids]
  · rw [hheap, Option.map_some, hids]
  · intro id hid
    obtain ⟨part, hpart, rfl⟩ := mem_map.mp hid
    exact h.idOf_real (hlookup part hpart)
  · have hspell : parts.map (spelling tokens ∘ idOf tokens) = parts.map id :=
      map_congr_left fun part hpart => h.spelling_idOf (hlookup part hpart)
    rw [flatMap_def, map_map, hspell, map_id, (merged_parts hmerges).1]

theorem engines_merge_ababc :
    ∃ parts, Merges (rankIn (withBytes [([97, 98], 256)])) ([97, 98, 97, 98, 99].map ([·])) parts ∧
      (mergeScan (Vocab.fromTokens (withBytes [([97, 98], 256)])) [97, 98, 97, 98, 99] 0 5
        ⟨[], [], [], [], []⟩ [7]).map Prod.snd =
          some ([7] ++ parts.map (idOf (withBytes [([97, 98], 256)]))) ∧
      (mergeHeap (Vocab.fromTokens (withBytes [([97, 98], 256)])) [97, 98, 97, 98, 99] 0 5
        ⟨[], [1], [2], [3], [4]⟩ [7]).map Prod.snd =
          some ([7] ++ parts.map (idOf (withBytes [([97, 98], 256)]))) := by
  obtain ⟨parts, hmerges, -, hscan, hheap, -⟩ :=
    engines_merge (withBytes [([97, 98], 256)])
      (validTokens_withBytes (by decide) (by decide) (by decide))
      [97, 98, 97, 98, 99] 0 5 (by decide) (by decide) (by decide)
      ⟨[], [], [], [], []⟩ ⟨[], [1], [2], [3], [4]⟩ [7]
  exact ⟨parts, hmerges, hscan, hheap⟩

/-! ## Four GiB -/

theorem leftmostMin_noRank {ranks : List Nat} (h : ∀ r ∈ ranks, r = noRank) :
    (leftmostMin ranks).1 = noRank := by
  induction ranks using List.reverseRecOn with
  | nil => rfl
  | append_singleton ranks last ih =>
    rw [leftmostMin_concat, h last (by simp), ih fun r hr => h r (by simp [hr])]
    simp [ih fun r hr => h r (by simp [hr])]

theorem mapM_eq_none {α β : Type} {f : α → Option β} {xs : List α} {x : α} (hx : x ∈ xs)
    (h : f x = none) : xs.mapM f = none := by
  cases hmap : xs.mapM f with
  | none => rfl
  | some ys =>
    have hmem : f x ∈ xs.map f := mem_map_of_mem hx
    rw [mapM_eq_some_iff.mp hmap, h] at hmem
    simp at hmem

theorem mem_zip_tail {α : Type} (xs : List α) (x y : α) :
    (x, y) ∈ (xs ++ [x, y]).zip (xs ++ [x, y]).tail := by
  induction xs with
  | nil => simp
  | cons z xs ih =>
    cases xs with
    | nil => simp
    | cons w xs =>
      exact mem_cons_of_mem _ ih

section Wrap

variable {vocab : Vocab} {text : Bytes} {n : Nat} (hsize : text.length = n) (hpos : 0 < n)
  (hwrap : asU32 n = 0)

include hsize hpos hwrap

/-- The offset after the last byte wraps to the first, so the last span has no length. -/
theorem mergeScan_wraps (hpairs : ∀ r ∈ bytePairs vocab.find text, r = noRank)
    (scratch : Scratch) (out : List Nat) :
    mergeScan vocab text 0 n scratch out = none := by
  have hslice : checkedSlice text 0 n = some text := by
    rw [checkedSlice_eq_some (Nat.zero_le _) hsize.ge, slice, ← hsize]
    simp
  have hranks := mapM_pairAt vocab text
  rw [hsize] at hranks
  have hlast : vocab.rankOf text (0 + asU32 (n - 1)) (0 + asU32 n) = none := by
    have hwide : ¬ 0 + asU32 (n - 1) ≤ 0 + asU32 n := by
      unfold asU32 at *
      omega
    rw [Vocab.rankOf, checkedSub, if_neg hwide]
    rfl
  simp only [mergeScan, hslice, hsize, checkedSub_of_le (show 1 ≤ n by omega), hranks,
    scanLoop_done (leftmostMin_noRank hpairs), some_bind]
  rw [windowIds, mapM_eq_none (mem_zip_tail _ _ _) hlast]
  rfl

theorem mergeHeap_wraps (scratch : Scratch) (out : List Nat) :
    mergeHeap vocab text 0 n scratch out = none := by
  have hslice : checkedSlice text 0 n = some text := by
    rw [checkedSlice_eq_some (Nat.zero_le _) hsize.ge, slice, ← hsize]
    simp
  have hlink : checkedSub (asU32 n) 1 = none := by
    rw [hwrap]
    rfl
  simp only [mergeHeap, hslice, hsize, checkedSub_of_le (show 1 ≤ n by omega), hlink,
    Option.bind_eq_bind, Option.bind_some, Option.bind_none]

end Wrap

theorem validTokens_bytes : ValidTokens (withBytes []) :=
  validTokens_withBytes (by decide) (by decide) (by decide)

theorem bytePairs_zeros (n : Nat) :
    ∀ r ∈ bytePairs (Vocab.fromTokens (withBytes [])).find (List.replicate n 0), r = noRank := by
  intro r hr
  have hnone : (withBytes []).lookup [0, 0] = none := by
    refine lookup_eq_none_iff.mpr fun token htoken => ?_
    rw [withBytes, append_nil] at htoken
    obtain ⟨n, -, rfl⟩ := mem_map.mp htoken
    simp
  have hfind : (Vocab.fromTokens (withBytes [])).find [0, 0] = noRank := by
    rw [Vocab.find_fromTokens validTokens_bytes.strings, hnone, Option.getD_none]
  obtain ⟨index, hindex⟩ := mem_iff_getElem?.mp hr
  rw [bytePairs, getElem?_zipWith_eq_some] at hindex
  obtain ⟨x, y, hx, hy, rfl⟩ := hindex
  rw [eq_of_mem_replicate (mem_of_getElem? hx),
    eq_of_mem_replicate (mem_of_mem_tail (mem_of_getElem? hy)), hfind]

/-- Neither engine returns on a span of four GiB. -/
theorem engines_wrap :
    ∃ n, n = 2 ^ 32 ∧ ValidTokens (withBytes []) ∧ 0 + 2 ≤ n ∧
      n ≤ (List.replicate n (0 : UInt8)).length ∧
      mergeScan (Vocab.fromTokens (withBytes [])) (List.replicate n 0) 0 n ⟨[], [], [], [], []⟩ [] =
        none ∧
      mergeHeap (Vocab.fromTokens (withBytes [])) (List.replicate n 0) 0 n ⟨[], [], [], [], []⟩ [] =
        none := by
  refine ⟨2 ^ 32, rfl, validTokens_bytes, by decide, length_replicate.ge, ?_, ?_⟩
  · exact mergeScan_wraps length_replicate (by decide) (by decide) (bytePairs_zeros _) _ _
  · exact mergeHeap_wraps length_replicate (by decide) (by decide) _ _

end Eidnara.Tokenizer
