import Eidnara.Tokenizer.Engines
import Eidnara.Tokenizer.Parts

/-!
# Counting tokens

`lib.rs`: a text is cut into pieces, a piece above `MAX_PIECE_BYTES` into chunks, and each is
encoded alone.  The ids of a text are those of its pieces in a row, whatever stands around
each of them.
-/

namespace Eidnara.Tokenizer

open Lib Utf8 List

structure Encoder where
  classes : Classes
  tokens : List (Bytes × Nat)
  valid : ValidTokens tokens

def Encoder.vocab (encoder : Encoder) : Vocab := Vocab.fromTokens encoder.tokens

def maxPieceBytes : Nat := 4096

def Scratch.empty : Scratch := ⟨[], [], [], [], []⟩

def charChunks (maxBytes : Nat) : Nat → List Char → Option (List (List Char))
  | fuel, rest =>
    if rest = [] then some []
    else
      match fuel with
      | 0 => none
      | fuel + 1 => do
        let stop := floorCharBoundary rest (min (utf8 rest).length maxBytes)
        let head ← sliceChars rest 0 stop
        let tail ← sliceFrom rest stop
        let chunks ← charChunks maxBytes fuel tail
        some (head :: chunks)

section

variable (encoder : Encoder)

/-- The chunks of a long piece, the first of them at `at`. -/
def encodeChunks (bytes : Bytes) : Nat → List (List Char) → Scratch × List Nat →
    Option (Scratch × List Nat)
  | _, [], state => some state
  | start, chunk :: chunks, (scratch, out) => do
    let state ← encodePiece encoder.vocab bytes start (start + (utf8 chunk).length) scratch out
    encodeChunks bytes (start + (utf8 chunk).length) chunks state

def encodeSpan (text : List Char) (state : Scratch × List Nat) (span : Nat × Nat) :
    Option (Scratch × List Nat) :=
  if span.2 - span.1 ≤ maxPieceBytes then
    encodePiece encoder.vocab (utf8 text) span.1 span.2 state.1 state.2
  else do
    let piece ← sliceChars text span.1 span.2
    let chunks ← charChunks maxPieceBytes piece.length piece
    encodeChunks encoder (utf8 text) span.1 chunks state

def encodeBounded (text : List Char) : Option (List Nat) := do
  let spans ← pieces encoder.classes (utf8 text)
  let state ← spans.foldlM (encodeSpan encoder text) (Scratch.empty, [])
  some state.2

def estimateTokens (text : List Char) : Option Nat := (encodeBounded encoder text).map List.length

/-! ## The ids of a piece -/

/-- The ids of a piece: its own, or those of its merged parts. -/
def PieceIds (piece : Bytes) (ids : List Nat) : Prop :=
  (∃ r, rankIn encoder.tokens piece = some r ∧ ids = [r]) ∨
    (rankIn encoder.tokens piece = none ∧
      ∃ parts, Merges (rankIn encoder.tokens) (piece.map ([·])) parts ∧
        ids = parts.map (idOf encoder.tokens))

variable {encoder}

variable {piece : Bytes}

theorem PieceIds.unique {ids ids' : List Nat} (h : PieceIds encoder piece ids)
    (h' : PieceIds encoder piece ids') : ids = ids' := by
  rcases h with ⟨r, hr, rfl⟩ | ⟨hnone, parts, hmerges, rfl⟩ <;>
    rcases h' with ⟨r', hr', rfl⟩ | ⟨hnone', parts', hmerges', rfl⟩
  · rw [hr] at hr'
    rw [Option.some.inj hr']
  · rw [hr] at hnone'
    cases hnone'
  · rw [hr'] at hnone
    cases hnone
  · rw [hmerges.unique hmerges']

variable {bytes : Bytes} {start : Nat}

theorem exists_encodePiece (hoccurs : OccursAt bytes start piece) (hpiece : piece ≠ [])
    (hsize : piece.length < 2 ^ 32) (scratch : Scratch) (out : List Nat) :
    ∃ scratch' ids, encodePiece encoder.vocab bytes start (start + piece.length) scratch out =
      some (scratch', out ++ ids) ∧ PieceIds encoder piece ids := by
  have hranks := encoder.valid.vocabRanks
  have hpos := length_pos_of_ne_nil hpiece
  have hend := hoccurs.end_le
  have hslice := hoccurs.slice_eq
  have hwhole : encoder.vocab.rankOf bytes start (start + piece.length) =
      some (encoder.vocab.find piece) := by
    rw [Vocab.rankOf_eq (by omega) hend, hslice]
  rw [encodePiece, hwhole, some_bind]
  cases hrank : rankIn encoder.tokens piece with
  | some r =>
    have hfind : encoder.vocab.find piece = r := hranks.find_of_some hrank
    rw [hfind, if_pos (hranks.lt_noRank hrank).ne]
    exact ⟨scratch, [r], rfl, .inl ⟨r, hrank, rfl⟩⟩
  | none =>
    have hfind : encoder.vocab.find piece = noRank := by
      rw [Encoder.vocab, hranks.find, hrank]
      rfl
    obtain ⟨first, second, tail, rfl⟩ : ∃ first second tail, piece = first :: second :: tail := by
      match piece with
      | [] => exact absurd rfl hpiece
      | [byte] =>
        obtain ⟨r, hr⟩ := exists_rankIn (encoder.valid.bytes byte)
        rw [hr] at hrank
        cases hrank
      | first :: second :: tail => exact ⟨first, second, tail, rfl⟩
    have hlong : start + 2 ≤ start + (first :: second :: tail).length := by simp
    have hids : ∀ parts : List Bytes,
        parts.map encoder.vocab.find = parts.map (idOf encoder.tokens) := fun parts =>
      map_congr_left fun part _ => hranks.find part
    obtain ⟨merged, scanned, hmerges, hscan⟩ := exists_mergeScan hranks hlong hend
      (by omega) scratch out
    obtain ⟨merged', heaped, hmerges', hheap⟩ := exists_mergeHeap hranks hlong hend
      (by omega) scratch out
    rw [hslice] at hmerges hmerges'
    rw [hfind, if_neg (not_not.mpr rfl), checkedSlice_eq_some (by omega) hend, hslice]
    have hengine : ∀ threshold, ∃ scratch' ids,
        (if (first :: second :: tail).length ≤ threshold then
          mergeScan encoder.vocab bytes start (start + (first :: second :: tail).length) scratch out
        else
          mergeHeap encoder.vocab bytes start (start + (first :: second :: tail).length) scratch
            out) = some (scratch', out ++ ids) ∧
          PieceIds encoder (first :: second :: tail) ids := by
      intro threshold
      split_ifs
      · exact ⟨scanned, _, hscan, .inr ⟨hrank, merged, hmerges, hids merged⟩⟩
      · exact ⟨heaped, _, hheap, .inr ⟨hrank, merged', hmerges', hids merged'⟩⟩
    simp only [some_bind, getElem?_cons_zero]
    by_cases hfirst : first = 0x20
    · rw [if_pos hfirst]
      exact hengine _
    · rw [if_neg hfirst]
      exact hengine _

variable (encoder) in
def pieceIds (piece : Bytes) : List Nat :=
  ((encodePiece encoder.vocab piece 0 piece.length Scratch.empty []).map Prod.snd).getD []

theorem encodePiece_eq (hoccurs : OccursAt bytes start piece) (hpiece : piece ≠ [])
    (hsize : piece.length < 2 ^ 32) (scratch : Scratch) (out : List Nat) :
    ∃ scratch', encodePiece encoder.vocab bytes start (start + piece.length) scratch out =
      some (scratch', out ++ pieceIds encoder piece) := by
  obtain ⟨scratch', ids, hencode, hids⟩ := exists_encodePiece hoccurs hpiece hsize scratch out
  obtain ⟨scratch'', ids', hencode', hids'⟩ :=
    exists_encodePiece (occursAt_self piece) hpiece hsize Scratch.empty []
  have hpieceIds : pieceIds encoder piece = ids := by
    rw [Nat.zero_add] at hencode'
    rw [pieceIds, hencode', hids'.unique hids]
    rfl
  exact ⟨scratch', by rw [hencode, hpieceIds]⟩

/-! ## Chunks -/

theorem exists_charChunks {maxBytes : Nat} (hmax : 4 ≤ maxBytes) {fuel : Nat} {rest : List Char}
    (hfuel : rest.length ≤ fuel) : ∃ chunks, charChunks maxBytes fuel rest = some chunks ∧
      chunks.flatten = rest ∧ ∀ chunk ∈ chunks, chunk ≠ [] ∧ (utf8 chunk).length ≤ maxBytes := by
  induction fuel generalizing rest with
  | zero =>
    obtain rfl := eq_nil_of_length_eq_zero (Nat.le_zero.mp hfuel)
    exact ⟨[], by rw [charChunks, if_pos rfl], rfl, by simp⟩
  | succ fuel ih =>
    cases rest with
    | nil => exact ⟨[], by rw [charChunks, if_pos rfl], rfl, by simp⟩
    | cons c s =>
      generalize hstop : floorCharBoundary (c :: s) (min (utf8 (c :: s)).length maxBytes) = stop
      obtain ⟨hboundary, hle, hlast⟩ :=
        floorCharBoundary_spec (c :: s) (min (utf8 (c :: s)).length maxBytes)
      rw [hstop] at hboundary hle hlast
      obtain ⟨tail, htail⟩ := Option.isSome_iff_exists.mp hboundary
      obtain ⟨head, hhead, hlength⟩ := sliceFrom_eq_some htail
      -- the first character fits, so the chunk is not empty
      have hfirst : (utf8 [c]).length ≤ stop := by
        refine hlast _ (le_min ?_ ((utf8_length_le_four c).trans hmax)) ?_
        · rw [length_utf8_cons c s]
          omega
        · exact Option.isSome_iff_exists.mpr ⟨s, sliceFrom_append [c] s⟩
      have hpos := utf8_length_pos c
      have hne : head ≠ [] := by
        rintro rfl
        simp [utf8] at hlength
        omega
      have hslice : sliceChars (c :: s) 0 stop = some head := by
        have := sliceChars_append [] head tail
        rw [nil_append, ← hhead, hlength] at this
        simpa [utf8] using this
      obtain ⟨chunks, hchunks, hflatten, hall⟩ := @ih tail (by
        have := congrArg List.length hhead
        have := length_pos_of_ne_nil hne
        simp only [length_cons, length_append] at *
        omega)
      refine ⟨head :: chunks, ?_, by rw [flatten_cons, hflatten, hhead], ?_⟩
      · rw [charChunks, if_neg (cons_ne_nil _ _)]
        simp only [hstop, hslice, htail, hchunks, some_bind]
      · exact forall_mem_cons.mpr ⟨⟨hne, by omega⟩, hall⟩

def chunksOf (part : List Char) : List (List Char) :=
  if (utf8 part).length ≤ maxPieceBytes then [part]
  else (charChunks maxPieceBytes part.length part).getD []

variable (encoder) in
def partIds (part : List Char) : List Nat :=
  (chunksOf part).flatMap fun chunk => pieceIds encoder (utf8 chunk)

theorem utf8_ne_nil {text : List Char} (h : text ≠ []) : utf8 text ≠ [] := by
  intro hnil
  exact h (length_utf8_eq_zero.mp (by rw [hnil]; rfl))

theorem encodeChunks_eq {chunks : List (List Char)}
    (hoccurs : OccursAt bytes start (utf8 chunks.flatten))
    (hchunks : ∀ chunk ∈ chunks, chunk ≠ [] ∧ (utf8 chunk).length ≤ maxPieceBytes)
    (scratch : Scratch) (out : List Nat) : ∃ scratch',
      encodeChunks encoder bytes start chunks (scratch, out) =
        some (scratch', out ++ chunks.flatMap fun chunk => pieceIds encoder (utf8 chunk)) := by
  induction chunks generalizing start scratch out with
  | nil => exact ⟨scratch, by simp [encodeChunks]⟩
  | cons chunk chunks ih =>
    obtain ⟨⟨hne, hsize⟩, hrest⟩ := forall_mem_cons.mp hchunks
    rw [flatten_cons, utf8_append] at hoccurs
    unfold maxPieceBytes at hsize
    obtain ⟨scratch', hencode⟩ := encodePiece_eq hoccurs.left (utf8_ne_nil hne) (by omega)
      scratch out
    obtain ⟨final, hfinal⟩ := ih hoccurs.right hrest scratch' _
    refine ⟨final, ?_⟩
    rw [encodeChunks, hencode, some_bind, hfinal, append_assoc]
    rfl

theorem encodeSpan_eq {a part b : List Char} (hpart : part ≠ []) (state : Scratch × List Nat) :
    ∃ scratch', encodeSpan encoder (a ++ part ++ b) state
        ((utf8 a).length, (utf8 a).length + (utf8 part).length) =
      some (scratch', state.2 ++ partIds encoder part) := by
  have hoccurs : OccursAt (utf8 (a ++ part ++ b)) (utf8 a).length (utf8 part) := by
    rw [utf8_append, utf8_append]
    exact ⟨_, _, rfl, rfl⟩
  rw [encodeSpan, Nat.add_sub_cancel_left, partIds, chunksOf]
  by_cases hsize : (utf8 part).length ≤ maxPieceBytes
  · rw [if_pos hsize, if_pos hsize, flatMap_singleton]
    unfold maxPieceBytes at hsize
    exact encodePiece_eq hoccurs (utf8_ne_nil hpart) (by omega) state.1 state.2
  · obtain ⟨chunks, hchunks, hflatten, hall⟩ :=
      @exists_charChunks maxPieceBytes (by decide) _ _ (le_refl part.length)
    have hencode := @encodeChunks_eq encoder (utf8 (a ++ part ++ b)) (utf8 a).length chunks
      (by rwa [hflatten]) hall state.1 state.2
    rw [if_neg hsize, if_neg hsize, sliceChars_append, hchunks, some_bind, hchunks]
    exact hencode

theorem foldlM_encodeSpan {text a : List Char} {rest : List (List Char)}
    (htext : text = a ++ rest.flatten) (hrest : ∀ part ∈ rest, part ≠ [])
    (state : Scratch × List Nat) : ∃ scratch',
      (byteSpans (utf8 a).length rest).foldlM (encodeSpan encoder text) state =
        some (scratch', state.2 ++ rest.flatMap (partIds encoder)) := by
  induction rest generalizing a state with
  | nil => exact ⟨state.1, by simp [byteSpans]⟩
  | cons part rest ih =>
    obtain ⟨hpart, hrest⟩ := forall_mem_cons.mp hrest
    rw [flatten_cons, ← append_assoc] at htext
    obtain ⟨scratch', hspan⟩ := @encodeSpan_eq encoder a part rest.flatten hpart state
    obtain ⟨final, hfinal⟩ := ih htext hrest (scratch', state.2 ++ partIds encoder part)
    refine ⟨final, ?_⟩
    rw [utf8_append, length_append] at hfinal
    rw [byteSpans, foldlM_cons, htext, hspan, some_bind,
      ← htext, hfinal, flatMap_cons, append_assoc]

variable (encoder)

theorem encodeBounded_eq (text : List Char) : encodeBounded encoder text =
    some ((parts encoder.classes text).flatMap (partIds encoder)) := by
  obtain ⟨scratch', hfold⟩ := @foldlM_encodeSpan encoder text [] (parts encoder.classes text)
    (flatten_parts _ text).symm (fun _ => ne_nil_of_mem_parts) (Scratch.empty, [])
  have hzero : (utf8 []).length = 0 := rfl
  rw [hzero] at hfold
  rw [encodeBounded, pieces_eq_parts, some_bind, hfold]
  rfl

def tokensOf (ps : List (List Char)) : Nat := (ps.flatMap (partIds encoder)).length

theorem tokensOf_append (ps qs : List (List Char)) :
    tokensOf encoder (ps ++ qs) = tokensOf encoder ps + tokensOf encoder qs := by
  rw [tokensOf, flatMap_append, length_append]
  rfl

theorem estimateTokens_eq (text : List Char) :
    estimateTokens encoder text = some (tokensOf encoder (parts encoder.classes text)) := by
  rw [estimateTokens, encodeBounded_eq]
  rfl

/-! ## Spelling a text back -/

/-- Ids of the vocabulary that spell the bytes in a row. -/
def Spells (bytes : Bytes) (ids : List Nat) : Prop :=
  ids.flatMap (spelling encoder.tokens) = bytes ∧ ∀ id ∈ ids, id ∈ encoder.tokens.map Prod.snd

variable {encoder}

theorem PieceIds.spells {piece : Bytes} {ids : List Nat} (h : PieceIds encoder piece ids) :
    Spells encoder piece ids := by
  rcases h with ⟨r, hr, rfl⟩ | ⟨-, parts, hmerges, rfl⟩
  · have hmem := mem_of_rankIn hr
    rw [Spells, flatMap_singleton, spelling_eq encoder.valid.ranks hmem, forall_mem_singleton]
    exact ⟨rfl, mem_map_of_mem hmem⟩
  · have hranked := encoder.valid.merged_rankIn hmerges
    rw [Spells, flatMap_map, forall_mem_map,
      flatMap_congr fun part hpart => encoder.valid.spelling_idOf (hranked part hpart),
      flatMap_id', hmerges.flatten_eq, ← flatMap_def, flatMap_singleton']
    exact ⟨rfl, fun part hpart => (encoder.valid.idOf_real (hranked part hpart)).1⟩

theorem spells_flatMap {texts : List (List Char)} {ids : List Char → List Nat}
    (h : ∀ text ∈ texts, Spells encoder (utf8 text) (ids text)) :
    Spells encoder (utf8 texts.flatten) (texts.flatMap ids) := by
  rw [Spells, flatMap_assoc, flatMap_congr fun text htext => (h text htext).1, utf8,
    flatten_eq_flatMap, flatMap_assoc, forall_mem_flatMap]
  exact ⟨rfl, fun text htext => (h text htext).2⟩

theorem spells_partIds {part : List Char} (hpart : part ≠ []) :
    Spells encoder (utf8 part) (partIds encoder part) := by
  obtain ⟨hflatten, hall⟩ : (chunksOf part).flatten = part ∧
      ∀ chunk ∈ chunksOf part, chunk ≠ [] ∧ (utf8 chunk).length ≤ maxPieceBytes := by
    rw [chunksOf]
    split_ifs with hsize
    · simpa using ⟨hpart, hsize⟩
    · obtain ⟨chunks, hchunks, hspec⟩ :=
        @exists_charChunks maxPieceBytes (by decide) _ _ (le_refl part.length)
      rw [hchunks]
      exact hspec
  have hspells := spells_flatMap fun chunk hchunk =>
    show Spells encoder (utf8 chunk) (pieceIds encoder (utf8 chunk)) by
      obtain ⟨hne, hsize⟩ := hall chunk hchunk
      unfold maxPieceBytes at hsize
      obtain ⟨_, ids, hencode, hids⟩ := @exists_encodePiece encoder _ _ _
        (occursAt_self (utf8 chunk)) (utf8_ne_nil hne) (by omega) Scratch.empty []
      rw [Nat.zero_add] at hencode
      rw [pieceIds, hencode]
      exact hids.spells
  rwa [hflatten] at hspells

variable (encoder)

/-- Every text is encoded, by ids of the vocabulary that spell the text back. -/
theorem tokens_spell_text (text : List Char) : ∃ ids, encodeBounded encoder text = some ids ∧
    ids.flatMap (spelling encoder.tokens) = utf8 text ∧
    (∀ id ∈ ids, id ∈ encoder.tokens.map Prod.snd) ∧
    estimateTokens encoder text = some ids.length := by
  obtain ⟨hspelled, hreal⟩ := spells_flatMap fun part hpart =>
    @spells_partIds encoder part (@ne_nil_of_mem_parts encoder.classes text part hpart)
  rw [flatten_parts] at hspelled
  exact ⟨_, encodeBounded_eq encoder text, hspelled, hreal, estimateTokens_eq encoder text⟩

end

end Eidnara.Tokenizer
