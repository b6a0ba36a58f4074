import Eidnara.Lib.PairMerging
import Eidnara.Tokenizer.Bpe

/-!
# The rescanning engine

The list of parts of `mergeScan` is at every step the layout of the parts that the merge
process has reached, so its last one is the layout of the merged parts.
-/

namespace Eidnara.Tokenizer

open Lib Utf8 List

/-- A vocabulary whose tables say the ranks of `rank`, none of them reserved. -/
structure Vocab.Ranks (vocab : Vocab) (rank : Bytes → Option Nat) : Prop where
  find : ∀ token, vocab.find token = (rank token).getD noRank
  real : ∀ token r, rank token = some r → r < dead

namespace Vocab.Ranks

variable {vocab : Vocab} {rank : Bytes → Option Nat} (h : vocab.Ranks rank)

include h

variable {token : Bytes} {r : Nat}

theorem find_of_some (hrank : rank token = some r) : vocab.find token = r := by
  rw [h.find, hrank]
  rfl

theorem lt_noRank (hrank : rank token = some r) : r < noRank := by
  have := h.real token r hrank
  unfold dead at this
  unfold noRank
  omega

theorem rank_of_find_lt (hfind : vocab.find token < noRank) :
    rank token = some (vocab.find token) := by
  rw [h.find] at hfind ⊢
  cases hrank : rank token with
  | none =>
    rw [hrank] at hfind
    exact absurd hfind (lt_irrefl _)
  | some r => rfl

theorem find_le (token : Bytes) : vocab.find token ≤ noRank := by
  rw [h.find]
  cases hrank : rank token with
  | none => exact le_rfl
  | some r => exact (h.lt_noRank hrank).le

theorem rank_eq_none (hfind : noRank ≤ vocab.find token) : rank token = none := by
  cases hrank : rank token with
  | none => rfl
  | some r =>
    rw [h.find_of_some hrank] at hfind
    exact absurd (h.lt_noRank hrank) (Nat.not_lt.mpr hfind)

end Vocab.Ranks

variable {vocab : Vocab}

theorem rankOf_occurs {text token : Bytes} {start stop offset : Nat} (hstop : stop ≤ text.length)
    (hoccurs : OccursAt (slice text start stop) offset token) (htoken : token ≠ []) :
    vocab.rankOf text (start + offset) (start + (offset + token.length)) =
      some (vocab.find token) := by
  have hend := hoccurs.end_le
  rw [length_slice hstop] at hend
  have hpos := length_pos_of_ne_nil htoken
  rw [Vocab.rankOf_eq (by omega) (by omega)]
  congr 2
  conv_rhs => rw [← hoccurs.slice_eq]
  simp only [slice, drop_take, take_take, drop_drop]
  congr 1
  omega

/-! ## Layouts -/

section

variable (find : Bytes → Nat)

/-- The offsets of parts, each with the rank of the pair that starts there. -/
def layout : Nat → List Bytes → List (Nat × Nat)
  | offset, [] => [(offset, noRank)]
  | offset, [part] => [(offset, noRank), (offset + part.length, noRank)]
  | offset, part :: next :: parts =>
    (offset, find (part ++ next)) :: layout (offset + part.length) (next :: parts)

variable {find} {before after parts : List Bytes} {x y : Bytes} {offset : Nat}

variable (find) in
theorem layout_head (offset : Nat) (parts : List Bytes) :
    ∃ r tail, layout find offset parts = (offset, r) :: tail := by
  rcases parts with _ | ⟨part, _ | ⟨next, parts⟩⟩ <;> exact ⟨_, _, rfl⟩

variable (find) in
theorem layout_cons (offset : Nat) (part : Bytes) (parts : List Bytes) :
    ∃ r, layout find offset (part :: parts) =
      (offset, r) :: layout find (offset + part.length) parts := by
  cases parts <;> exact ⟨_, rfl⟩

def pairRanks (parts : List (Nat × Nat)) : List Nat := parts.dropLast.map Prod.snd

theorem pairRanks_cons (part next : Bytes) (parts : List Bytes) :
    pairRanks (layout find offset (part :: next :: parts)) =
      find (part ++ next) :: pairRanks (layout find (offset + part.length) (next :: parts)) := by
  obtain ⟨r, tail, htail⟩ := layout_head find (offset + part.length) (next :: parts)
  rw [layout, htail]
  rfl

variable (find) in
theorem pairRanks_split (offset : Nat) (before : List Bytes) (x y : Bytes) (after : List Bytes) :
    (pairRanks (layout find offset (before ++ x :: y :: after)))[before.length]? =
      some (find (x ++ y)) := by
  induction before generalizing offset with
  | nil =>
    rw [nil_append, pairRanks_cons]
    rfl
  | cons w before ih =>
    obtain ⟨next, rest, hrest⟩ : ∃ next rest, before ++ x :: y :: after = next :: rest := by
      cases before with
      | nil => exact ⟨x, _, rfl⟩
      | cons next before => exact ⟨next, _, rfl⟩
    rw [cons_append, hrest, pairRanks_cons, length_cons, getElem?_cons_succ,
      ← hrest]
    exact ih _

theorem exists_split {i r : Nat} (hr : r < noRank)
    (h : (pairRanks (layout find offset parts))[i]? = some r) :
    ∃ before x y after, parts = before ++ x :: y :: after ∧ before.length = i ∧
      r = find (x ++ y) := by
  induction parts generalizing offset i with
  | nil => simp [layout, pairRanks] at h
  | cons part parts ih =>
    cases parts with
    | nil =>
      cases i with
      | zero =>
        have hnone : noRank = r := Option.some.inj h
        omega
      | succ i => simp [layout, pairRanks] at h
    | cons next parts =>
      rw [pairRanks_cons] at h
      cases i with
      | zero => exact ⟨[], part, next, parts, rfl, rfl, (Option.some.inj h).symm⟩
      | succ i =>
        obtain ⟨before, x, y, after, hparts, hlength, heq⟩ := ih h
        exact ⟨part :: before, x, y, after, by rw [hparts]; rfl, by simp [hlength], heq⟩

end

/-! ## The leftmost minimum -/

structure IsLeftmostMin (ranks : List Nat) (best : Nat × Nat) : Prop where
  le : best.1 ≤ noRank
  at_index : best.1 < noRank → ranks[best.2]? = some best.1
  lowest : ∀ (j : Nat) (r : Nat), ranks[j]? = some r → best.1 ≤ r
  leftmost : ∀ (j : Nat) (r : Nat), j < best.2 → best.1 < noRank → ranks[j]? = some r → best.1 < r

theorem leftmostMin_concat (ranks : List Nat) (last : Nat) : leftmostMin (ranks ++ [last]) =
    if last < (leftmostMin ranks).1 then (last, ranks.length) else leftmostMin ranks := by
  rw [leftmostMin, zipIdx_append, foldl_append, Nat.zero_add]
  rfl

theorem isLeftmostMin_leftmostMin (ranks : List Nat) (hle : ∀ r ∈ ranks, r ≤ noRank) :
    IsLeftmostMin ranks (leftmostMin ranks) := by
  induction ranks using List.reverseRecOn with
  | nil =>
    refine ⟨le_rfl, fun h => absurd h (lt_irrefl _), ?_, ?_⟩ <;> intro j r <;> simp
  | append_singleton ranks last ih =>
    have hinit := ih fun r hr => hle r (mem_append_left _ hr)
    have hlast := hle last (by simp)
    have hget : ∀ {j r : Nat}, (ranks ++ [last])[j]? = some r →
        (j < ranks.length ∧ ranks[j]? = some r) ∨ (j = ranks.length ∧ r = last) := by
      intro j r hj
      rcases Nat.lt_trichotomy j ranks.length with hlt | heq | hgt
      · rw [getElem?_append_left hlt] at hj
        exact .inl ⟨hlt, hj⟩
      · subst heq
        simp at hj
        exact .inr ⟨rfl, hj.symm⟩
      · rw [getElem?_eq_none (by simp; omega)] at hj
        cases hj
    rw [leftmostMin_concat]
    by_cases hlt : last < (leftmostMin ranks).1
    · rw [if_pos hlt]
      refine ⟨hlast, fun _ => by simp, ?_, ?_⟩
      · intro j r hj
        rcases hget hj with ⟨-, hj⟩ | ⟨-, rfl⟩
        · exact (hlt.trans_le (hinit.lowest j r hj)).le
        · exact le_rfl
      · intro j r hj _ hr
        rcases hget hr with ⟨-, hr⟩ | ⟨rfl, -⟩
        · exact hlt.trans_le (hinit.lowest j r hr)
        · exact absurd hj (lt_irrefl _)
    · rw [if_neg hlt]
      refine ⟨hinit.le, fun hreal => ?_, ?_, ?_⟩
      · have hindex := hinit.at_index hreal
        have hbound := (List.getElem?_eq_some_iff.mp hindex).1
        rw [getElem?_append_left hbound, hindex]
      · intro j r hj
        rcases hget hj with ⟨-, hj⟩ | ⟨-, rfl⟩
        · exact hinit.lowest j r hj
        · omega
      · intro j r hj hreal hr
        have hbound := (List.getElem?_eq_some_iff.mp (hinit.at_index hreal)).1
        rcases hget hr with ⟨-, hr⟩ | ⟨rfl, -⟩
        · exact hinit.leftmost j r hj hreal hr
        · omega

variable {rank : Bytes → Option Nat} {parts : List Bytes} {best : Nat × Nat}

/-- The leftmost minimum of a layout is the next pair to join. -/
theorem isNext_of_leftmostMin (hranks : vocab.Ranks rank) {offset : Nat}
    (hbest : IsLeftmostMin (pairRanks (layout vocab.find offset parts)) best)
    (hreal : best.1 < noRank) :
    ∃ before x y after, parts = before ++ x :: y :: after ∧ before.length = best.2 ∧
      IsNext rank before x y after best.1 := by
  obtain ⟨before, x, y, after, rfl, hlength, heq⟩ := exists_split hreal (hbest.at_index hreal)
  refine ⟨before, x, y, after, rfl, hlength, ?_, ?_⟩
  · rw [heq]
    exact hranks.rank_of_find_lt (heq ▸ hreal)
  · intro b u v a s hparts hs
    have hother := pairRanks_split vocab.find offset b u v a
    rw [← hparts, hranks.find_of_some hs] at hother
    rcases (hbest.lowest _ _ hother).lt_or_eq with hlt | heq
    · exact .inl hlt
    · refine .inr ⟨heq, ?_⟩
      by_contra hleft
      have := hbest.leftmost b.length s (by omega) hreal hother
      omega

theorem settled_of_leftmostMin (hranks : vocab.Ranks rank) {offset : Nat}
    (hbest : IsLeftmostMin (pairRanks (layout vocab.find offset parts)) best)
    (hnone : best.1 = noRank) : Settled rank parts := by
  rintro b u v a rfl
  have hpair := hbest.lowest _ _ (pairRanks_split _ offset b u v a)
  rw [hnone] at hpair
  exact hranks.rank_eq_none hpair

/-! ## One merge -/

section

variable {vocab : Vocab} {text : Bytes} {start stop : Nat}

variable (vocab text start) in
theorem spanRank_cons (entry : Nat × Nat) (parts : List (Nat × Nat)) (i last : Nat) :
    spanRank vocab text start (entry :: parts) (i + 1) (last + 1) =
      spanRank vocab text start parts i last := by
  simp only [spanRank, length_cons, Nat.add_lt_add_iff_right, getElem?_cons_succ]

theorem setRank_cons (entry : Nat × Nat) (parts : List (Nat × Nat)) (i r : Nat) :
    setRank (entry :: parts) (i + 1) r = (setRank parts i r).map (entry :: ·) := by
  simp only [setRank, getElem?_cons_succ, Option.bind_eq_bind]
  cases parts[i]? with
  | none => rfl
  | some found => simp only [Option.bind_some, Vec.setAt_cons]

theorem mergeEntry_cons_succ (entry : Nat × Nat) (parts : List (Nat × Nat)) (i : Nat) :
    mergeEntry vocab text start (entry :: parts) (i + 2) =
      (mergeEntry vocab text start parts (i + 1)).map (entry :: ·) := by
  simp only [mergeEntry, Nat.zero_lt_succ, if_true, Option.bind_eq_bind, Nat.add_one_sub_one,
    Nat.reduceAdd, Nat.add_assoc, spanRank_cons, setRank_cons, Vec.removeAt_cons, Option.bind_map,
    Option.map_bind, Function.comp_def]

/-- A merge of the second and third parts changes the rank of the first entry. -/
theorem mergeEntry_cons_one (entry : Nat × Nat) (parts : List (Nat × Nat)) :
    mergeEntry vocab text start (entry :: parts) 1 =
      (spanRank vocab text start (entry :: parts) 0 3).bind fun r =>
        (mergeEntry vocab text start parts 0).map ((entry.1, r) :: ·) := by
  simp only [mergeEntry, Nat.zero_lt_succ, if_true, Nat.lt_irrefl, if_false, Option.bind_eq_bind]
  refine Option.bind_congr fun r hr => ?_
  have hset : setRank (entry :: parts) (1 - 1) r = some ((entry.1, r) :: parts) := by
    simp [setRank, Vec.setAt]
  have hspan := spanRank_cons vocab text start (entry.1, r) parts 0 3
  have hrank := setRank_cons (entry.1, r) parts 0
  rw [hset, Option.bind_some]
  simp only [hspan, hrank, Vec.removeAt_cons, Option.bind_some, Option.bind_map, Option.map_bind,
    Function.comp_def]

variable {offset : Nat}

variable (vocab) in
theorem spanRank_three {x y z : Bytes} {rest : List Bytes} (hstop : stop ≤ text.length)
    (hne : x ++ (y ++ z) ≠ [])
    (hoccurs : OccursAt (slice text start stop) offset (x :: y :: z :: rest).flatten) :
    spanRank vocab text start (layout vocab.find offset (x :: y :: z :: rest)) 0 3 =
      some (vocab.find (x ++ (y ++ z))) := by
  have hflatten : (x :: y :: z :: rest).flatten = x ++ (y ++ z) ++ rest.flatten := by simp
  rw [hflatten] at hoccurs
  obtain ⟨r, hlast⟩ := layout_cons vocab.find (offset + x.length + y.length) z rest
  obtain ⟨r', tail, hend⟩ := layout_head vocab.find (offset + x.length + y.length + z.length) rest
  rw [layout, layout, hlast, hend]
  simpa [spanRank, Nat.add_assoc] using rankOf_occurs hstop hoccurs.left hne

theorem mergeEntry_layout {before after : List Bytes} {x y : Bytes}
    (hstop : stop ≤ text.length) (hx : x ≠ [])
    (hoccurs : OccursAt (slice text start stop) offset (before ++ x :: y :: after).flatten) :
    mergeEntry vocab text start (layout vocab.find offset (before ++ x :: y :: after))
      before.length = some (layout vocab.find offset (before ++ (x ++ y) :: after)) := by
  induction before generalizing offset with
  | nil =>
    simp only [nil_append, length_nil, mergeEntry, Nat.lt_irrefl, if_false,
      some_bind, Nat.zero_add]
    cases after with
    | nil =>
      have hspan : spanRank vocab text start (layout vocab.find offset [x, y]) 0 3 =
          some noRank := rfl
      rw [hspan]
      simp [layout, setRank, Vec.setAt, Vec.removeAt, Nat.add_assoc]
    | cons z rest =>
      rw [spanRank_three vocab hstop (by simp [hx]) hoccurs]
      simp [layout, setRank, Vec.setAt, Vec.removeAt, Nat.add_assoc]
  | cons w before ih =>
    have hrest : OccursAt (slice text start stop) (offset + w.length)
        (before ++ x :: y :: after).flatten := by
      rw [cons_append, flatten_cons] at hoccurs
      exact hoccurs.right
    have hmerged := ih hrest
    cases before with
    | nil =>
      have hspan := spanRank_three vocab hstop (by simp [hx]) hoccurs
      simp only [nil_append, length_nil, length_singleton,
        singleton_append] at hmerged ⊢
      rw [layout] at hspan ⊢
      rw [mergeEntry_cons_one, hspan, hmerged]
      rfl
    | cons v before =>
      simp only [cons_append, length_cons] at hmerged ⊢
      rw [layout, mergeEntry_cons_succ, hmerged]
      rfl

/-! ## The loop -/

variable {rank : Bytes → Option Nat}

theorem pairRanks_le (hranks : vocab.Ranks rank) (offset : Nat) (parts : List Bytes) :
    ∀ r ∈ pairRanks (layout vocab.find offset parts), r ≤ noRank := by
  induction parts generalizing offset with
  | nil => simp [layout, pairRanks]
  | cons part parts ih =>
    cases parts with
    | nil => simp [layout, pairRanks]
    | cons next parts =>
      rw [pairRanks_cons, forall_mem_cons]
      exact ⟨hranks.find_le _, ih _⟩

variable {parts : List Bytes}

theorem scanLoop_done {fuel : Nat} {parts : List (Nat × Nat)} {best : Nat × Nat}
    (h : best.1 = noRank) : scanLoop vocab text start fuel parts best = some parts := by
  cases fuel <;> rw [scanLoop, if_pos h]

/-- With fuel for every merge the loop ends in the layout of the merged parts. -/
theorem exists_scanLoop (hranks : vocab.Ranks rank) (hstop : stop ≤ text.length) (fuel : Nat)
    (hfuel : parts.length ≤ fuel + 1) (hparts : ∀ part ∈ parts, part ≠ [])
    (hpiece : parts.flatten = slice text start stop) :
    ∃ final, Merges rank parts final ∧
      scanLoop vocab text start fuel (layout vocab.find 0 parts)
        (leftmostMin (pairRanks (layout vocab.find 0 parts))) =
          some (layout vocab.find 0 final) := by
  induction fuel generalizing parts with
  | zero =>
    have hbest := isLeftmostMin_leftmostMin _ (pairRanks_le hranks 0 parts)
    rcases hbest.le.lt_or_eq with hreal | hnone
    · obtain ⟨before, x, y, after, rfl, -⟩ := isNext_of_leftmostMin hranks hbest hreal
      simp only [length_append, length_cons] at hfuel
      omega
    · exact ⟨parts, .settled (settled_of_leftmostMin hranks hbest hnone), scanLoop_done hnone⟩
  | succ fuel ih =>
    have hbest := isLeftmostMin_leftmostMin _ (pairRanks_le hranks 0 parts)
    rcases hbest.le.lt_or_eq with hreal | hnone
    · obtain ⟨before, x, y, after, rfl, hlength, hnext⟩ :=
        isNext_of_leftmostMin hranks hbest hreal
      have hjoined : (before ++ (x ++ y) :: after).flatten =
          (before ++ x :: y :: after).flatten := by simp
      simp only [forall_mem_append, forall_mem_cons] at hparts
      obtain ⟨hbefore, hx, -, hafter⟩ := hparts
      have hmerged : ∀ part ∈ before ++ (x ++ y) :: after, part ≠ [] :=
        forall_mem_append.mpr ⟨hbefore, forall_mem_cons.mpr ⟨by simp [hx], hafter⟩⟩
      obtain ⟨final, hmerges, hloop⟩ :=
        ih (by simp at hfuel ⊢; omega) hmerged (hjoined.trans hpiece)
      refine ⟨final, .join hnext hmerges, ?_⟩
      have hoccurs : OccursAt (slice text start stop) 0 (before ++ x :: y :: after).flatten :=
        hpiece ▸ occursAt_self _
      rw [scanLoop, if_neg hreal.ne, ← hlength,
        mergeEntry_layout hstop hx hoccurs]
      exact hloop
    · exact ⟨parts, .settled (settled_of_leftmostMin hranks hbest hnone), scanLoop_done hnone⟩

/-! ## Start and end -/

variable (vocab) in
theorem windowIds_layout (hstop : stop ≤ text.length)
    (hparts : ∀ part ∈ parts, part ≠ [])
    (hoccurs : OccursAt (slice text start stop) offset parts.flatten) :
    windowIds vocab text start (layout vocab.find offset parts) = some (parts.map vocab.find) := by
  rw [windowIds, mapM_eq_some_iff]
  induction parts generalizing offset with
  | nil => rfl
  | cons part parts ih =>
    rw [forall_mem_cons] at hparts
    have hrest := ih hparts.2 hoccurs.right
    obtain ⟨r, hlayout⟩ := layout_cons vocab.find offset part parts
    obtain ⟨r', tail, htail⟩ := layout_head vocab.find (offset + part.length) parts
    rw [htail, tail_cons] at hrest
    rw [hlayout, htail, tail_cons, zip_cons_cons, map_cons, map_cons,
      map_cons, rankOf_occurs hstop hoccurs.left hparts.1, hrest]

def bytePairs (find : Bytes → Nat) (piece : Bytes) : List Nat :=
  List.zipWith (fun x y => find [x, y]) piece piece.tail

variable (vocab) in
theorem mapM_pairAt (piece : Bytes) :
    (List.range (piece.length - 1)).mapM (pairAt vocab piece) =
      some (bytePairs vocab.find piece) := by
  rw [mapM_eq_some_iff]
  refine ext_getElem? fun i => ?_
  rw [getElem?_map, getElem?_map, bytePairs, getElem?_zipWith, getElem?_tail]
  by_cases hi : i < piece.length - 1
  · rw [getElem?_range hi, getElem?_eq_getElem (by omega),
      getElem?_eq_getElem (by omega)]
    simp only [Option.map_some, pairAt, getElem?_eq_getElem (show i < piece.length by omega),
      getElem?_eq_getElem (show i + 1 < piece.length by omega), some_bind]
    rfl
  · rw [getElem?_eq_none (by rw [length_range]; omega),
      getElem?_eq_none (show piece.length ≤ i + 1 by omega)]
    cases piece[i]? <;> rfl

theorem layout_bytes (find : Bytes → Nat) (offset : Nat) (first : UInt8) (rest : Bytes) :
    layout find offset ((first :: rest).map ([·])) =
      ((bytePairs find (first :: rest)).zipIdx offset).map (fun entry => (entry.2, entry.1)) ++
        [(offset + rest.length, noRank), (offset + rest.length + 1, noRank)] := by
  induction rest generalizing first offset with
  | nil => rfl
  | cons next rest ih =>
    have htail := ih (offset + 1) next
    simp only [map_cons] at htail ⊢
    rw [layout, length_singleton, htail]
    simp only [bytePairs, tail_cons, zipWith_cons_cons, zipIdx_cons, map_cons,
      cons_append, nil_append, length_cons]
    rw [Nat.add_assoc offset, Nat.add_comm 1]

theorem length_bytePairs (find : Bytes → Nat) (first : UInt8) (rest : Bytes) :
    (bytePairs find (first :: rest)).length = rest.length := by
  simp [bytePairs]

theorem leftmostMin_layout (hranks : vocab.Ranks rank) (first : UInt8) (rest : Bytes) :
    leftmostMin (pairRanks (layout vocab.find 0 ((first :: rest).map ([·])))) =
      leftmostMin (bytePairs vocab.find (first :: rest)) := by
  have hpairs : pairRanks (layout vocab.find 0 ((first :: rest).map ([·]))) =
      bytePairs vocab.find (first :: rest) ++ [noRank] := by
    rw [layout_bytes, pairRanks, dropLast_append_cons, map_append, map_map]
    have hfst : (Prod.snd ∘ fun entry : Nat × Nat => (entry.2, entry.1)) = Prod.fst := rfl
    rw [hfst, zipIdx_map_fst]
    rfl
  have hle : (leftmostMin (bytePairs vocab.find (first :: rest))).1 ≤ noRank := by
    refine (isLeftmostMin_leftmostMin _ fun r hr => ?_).le
    have hall := pairRanks_le hranks 0 ((first :: rest).map ([·]))
    rw [hpairs] at hall
    exact hall r (mem_append_left _ hr)
  rw [hpairs, leftmostMin_concat, if_neg (by omega)]

theorem flatten_bytes (bytes : Bytes) : (bytes.map ([·])).flatten = bytes := by
  induction bytes with
  | nil => rfl
  | cons byte bytes ih => simp [ih]

theorem bytes_ne_nil (bytes : Bytes) : ∀ part ∈ bytes.map ([·]), part ≠ [] := by
  intro part hpart
  obtain ⟨byte, -, rfl⟩ := mem_map.mp hpart
  exact cons_ne_nil _ _

theorem merged_parts {bytes : Bytes} {final : List Bytes}
    (hmerges : Merges rank (bytes.map ([·])) final) :
    final.flatten = bytes ∧ ∀ part ∈ final, part ≠ [] := by
  refine ⟨by rw [hmerges.flatten_eq, flatten_bytes], ?_⟩
  exact hmerges.forall_mem (bytes_ne_nil bytes) fun x y r hx _ _ => by simp [hx]

theorem exists_mergeScan (hranks : vocab.Ranks rank) (hstart : start + 2 ≤ stop)
    (hstop : stop ≤ text.length) (hlength : stop - start < 2 ^ 32) (scratch : Scratch)
    (out : List Nat) :
    ∃ final scratch', Merges rank ((slice text start stop).map ([·])) final ∧
      mergeScan vocab text start stop scratch out =
        some (scratch', out ++ final.map vocab.find) := by
  have hsize : (slice text start stop).length = stop - start := length_slice hstop
  obtain ⟨first, rest, hpiece⟩ : ∃ first rest, slice text start stop = first :: rest :=
    exists_cons_of_length_pos (by omega)
  rw [hpiece, length_cons] at hsize
  obtain ⟨final, hmerges, hloop⟩ := exists_scanLoop hranks hstop (rest.length + 1)
    (by rw [hpiece]; simp) (bytes_ne_nil _) (flatten_bytes _)
  obtain ⟨hfinal, hnonempty⟩ := merged_parts hmerges
  have hoccurs : OccursAt (slice text start stop) 0 final.flatten := by
    rw [hfinal]
    exact occursAt_self _
  refine ⟨final, { scratch with parts := layout vocab.find 0 final }, hmerges, ?_⟩
  have hwindows := windowIds_layout vocab hstop hnonempty hoccurs
  rw [hpiece, leftmostMin_layout hranks, layout_bytes] at hloop
  have hoffsets : ((bytePairs vocab.find (first :: rest)).zipIdx.map fun entry =>
      (asU32 entry.2, entry.1)) = (bytePairs vocab.find (first :: rest)).zipIdx.map fun entry =>
        (entry.2, entry.1) := by
    refine map_congr_left fun entry hentry => ?_
    have hindex := snd_lt_of_mem_zipIdx hentry
    rw [length_bytePairs] at hindex
    rw [asU32, Nat.mod_eq_of_lt (by omega)]
  have hlast : asU32 rest.length = 0 + rest.length := by rw [asU32, Nat.mod_eq_of_lt] <;> omega
  have hn : asU32 (rest.length + 1) = 0 + rest.length + 1 := by
    rw [asU32, Nat.mod_eq_of_lt] <;> omega
  have hpairs := mapM_pairAt vocab (first :: rest)
  rw [length_cons, Nat.add_sub_cancel] at hpairs
  simp only [mergeScan, checkedSlice_eq_some (show start ≤ stop by omega) hstop, hpiece,
    length_cons, checkedSub_of_le (Nat.le_add_left 1 rest.length), Nat.add_sub_cancel, hpairs,
    hoffsets, hlast, hn, hloop, hwindows, some_bind]

end

end Eidnara.Tokenizer
