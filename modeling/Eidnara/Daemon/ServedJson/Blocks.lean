import Eidnara.Daemon.ServedJson.Canonical
import Mathlib.Data.List.TakeWhile

/-!
# Content blocks inside a canonical message

`canonical_message_with_blocks` encodes a message once and finds where the text of
each content block lies in the canonical bytes.  The offsets are sums of recorded
span lengths: a field keeps its length when it moves, and an element of `content`
keeps its length when its own fields move.  So each range cuts out the canonical
text of its block, and a message without a `content` array of objects has none.
-/

namespace Eidnara.Daemon.ServedJson

open Lib Utf8 SortedEntries Eidnara.Json List

/-! ## The walk over the recorded spans -/

structure BlockRange where
  start : Nat
  stop : Nat
deriving DecidableEq, Repr

def contentName : Text := "content".toList

/-- The loop over the fields of the root: where the value of `content` starts in the
canonical text, and where it starts and stops in the serialized one. -/
def contentField (text : Bytes) : List Field → Nat → Option (Nat × Nat × Nat)
  | [], _ => none
  | field :: fields, offset =>
    if sliceChecked text (field.start + 1) (field.keyEnd - 1) = some (utf8 contentName) then
      some (offset + (field.keyEnd - field.start) + 1, field.keyEnd + 1, field.stop)
    else contentField text fields (offset + (field.stop - field.start) + 1)

def pastComma (text : Bytes) (position : Nat) : Nat :=
  if text[position]? = some 0x2c then 1 else 0

/-- The loop over the elements, with the position at which it stops.  The outer
option is `none` when the fuel runs out, the inner one when the source returns
`None`. -/
def elementRanges : Nat → Bytes → List ObjectSpans → Nat → Nat →
    Option (Option (List BlockRange × Nat))
  | 0, _, _, _, _ => none
  | fuel + 1, text, objects, position, offset =>
    if text[position]? = some 0x5d then some (some ([], position))
    else
      match (objects[partitionPoint objects position]?).filter (·.start = position) with
      | none => some none
      | some element => do
        let length := element.stop - element.start
        let comma := pastComma text element.stop
        let rest ← elementRanges fuel text objects (element.stop + comma)
          (offset + length + comma)
        some (rest.map fun (ranges, stop) => (⟨offset, offset + length⟩ :: ranges, stop))

def rangesOfContent (encoded : Encoded) :
    Option (Nat × Nat × Nat) → Option (Option (List BlockRange))
  | none => some none
  | some (offset, start, stop) =>
    if encoded.bytes[start]? ≠ some 0x5b then some none
    else do
      let walked ← elementRanges (encoded.objects.length + 1) encoded.bytes encoded.objects
        (start + 1) (offset + 1)
      some (walked.bind fun (ranges, position) =>
        if position + 1 = stop then some ranges else none)

def documentRoot (encoded : Encoded) : Option ObjectSpans :=
  encoded.objects.head?.filter fun root => root.start = 0 && root.stop = encoded.bytes.length

/-- `content_block_ranges`, on objects whose fields are sorted. -/
def contentBlockRanges (encoded : Encoded) : Option (Option (List BlockRange)) :=
  match documentRoot encoded with
  | none => some none
  | some root => rangesOfContent encoded (contentField encoded.bytes root.fields 1)

structure CanonicalMessage where
  bytes : Bytes
  nestingDepth : Nat
deriving DecidableEq, Repr

def canonicalMessageWithBlocks {ν : Type} (decode : Bytes → Option Bytes) (spell : ν → Bytes)
    (message : Json.Tree ν) : Option (CanonicalMessage × Option (List BlockRange)) := do
  let encoded ← serializeWithSpans spell message
  let (reordered, objects) ← sortAllFields decode encoded.bytes encoded.objects
  let blocks ← contentBlockRanges { encoded with objects }
  let bytes ←
    if reordered then
      copySortedRange (copyFuel objects) encoded.bytes objects 0 encoded.bytes.length []
    else some encoded.bytes
  some ({ bytes, nestingDepth := encoded.maxDepth }, blocks)

/-- `canonical_block_bytes`, which is `encode_text`. -/
def canonicalBlockBytes {ν : Type} (decode : Bytes → Option Bytes) (spell : ν → Bytes)
    (block : Json.Tree ν) : Option Bytes := do
  let encoded ← serializeWithSpans spell block
  finalize decode encoded

/-! ## The field `content` -/

variable {ν : Type} {spell : ν → Bytes}

theorem escaped_eq_contentName {key : Text} :
    (utf8 key).flatMap escape = utf8 contentName ↔ key = contentName := by
  have hplain : (utf8 contentName).flatMap escape = utf8 contentName := by decide
  constructor
  · intro h
    rw [flatMap_escape_of_no_backslash (by rw [h]; decide)] at h
    exact utf8_inj.mp h
  · rintro rfl
    exact hplain

variable {text : Bytes}

theorem KeyAt.names_content_iff {key : Text} {field : Field} (h : KeyAt text key field) :
    sliceChecked text (field.start + 1) (field.keyEnd - 1) = some (utf8 contentName) ↔
      key = contentName := by
  have hend := h.occurs.end_le
  have hlength : 2 ≤ (quoted (utf8 key)).length := by simp [quoted]
  have hbounds : field.start + 1 ≤ field.keyEnd - 1 ∧ field.keyEnd - 1 ≤ text.length := by
    rw [h.keyEnd_eq]
    omega
  rw [sliceChecked, if_pos hbounds, Option.some.injEq, ← rawKey, h.rawKey_eq,
    escaped_eq_contentName]

variable {pairs : List ((Text × Json.Tree ν) × Field)}

theorem contentField_missing (hkeys : ∀ pair ∈ pairs, KeyAt text pair.1.1 pair.2)
    (hmissing : ∀ pair ∈ pairs, pair.1.1 ≠ contentName) (offset : Nat) :
    contentField text (pairs.map Prod.snd) offset = none := by
  induction pairs generalizing offset with
  | nil => rfl
  | cons pair pairs ih =>
    have hother := (hkeys pair mem_cons_self).names_content_iff.not.mpr
      (hmissing pair mem_cons_self)
    rw [map_cons, contentField, if_neg hother]
    exact ih (fun p hp => hkeys p (mem_cons_of_mem _ hp))
      (fun p hp => hmissing p (mem_cons_of_mem _ hp)) _

variable {out : Bytes} {offset : Nat}

/-- In the canonical text `out` the entries stand in the order of `pairs` with
sorted values.  The walk adds up their lengths in the serialized text, and finds
the offset at which the sorted value of `content` stands. -/
theorem contentField_found (hentries : ∀ pair ∈ pairs, EntryAt spell text pair.1 pair.2)
    (hdistinct : ∀ pair ∈ pairs, pair.1.2.Distinct)
    (hfound : ∃ pair ∈ pairs, pair.1.1 = contentName) {first : Bool}
    (hout : OccursAt out offset
      (compactEntries spell ((pairs.map Prod.fst).map fun e => (e.1, e.2.sorted)) first)) :
    ∃ pair ∈ pairs, pair.1.1 = contentName ∧ ∃ valueOffset,
      contentField text (pairs.map Prod.snd) (skipComma first offset) =
        some (valueOffset, valueStart pair.1.1 pair.2.start, pair.2.stop) ∧
      OccursAt out valueOffset (compact spell pair.1.2.sorted) := by
  induction pairs generalizing first offset with
  | nil =>
    obtain ⟨pair, hpair, -⟩ := hfound
    cases hpair
  | cons pair pairs ih =>
    have hentry := hentries pair mem_cons_self
    obtain ⟨hhead, htail⟩ := occursAt_entry spell hout
    by_cases hname : pair.1.1 = contentName
    · refine ⟨pair, mem_cons_self, hname, valueStart pair.1.1 (skipComma first offset),
        ?_, ?_⟩
      · rw [map_cons, contentField, if_pos (hentry.key.names_content_iff.mpr hname),
          hentry.key.keyEnd_eq, Nat.add_sub_cancel_left]
        rfl
      · exact (occursAt_value hhead).2
    · have hrest : ∃ pair ∈ pairs, pair.1.1 = contentName := by simpa [hname] using hfound
      obtain ⟨found, hmem, hcontent, valueOffset, hwalk, hocc⟩ := ih
        (fun p hp => hentries p (mem_cons_of_mem _ hp))
        (fun p hp => hdistinct p (mem_cons_of_mem _ hp)) hrest htail
      refine ⟨found, mem_cons_of_mem _ hmem, hcontent, valueOffset, ?_, hocc⟩
      -- the field is as long in the serialized text as in the canonical one
      have hstep : skipComma first offset + (pair.2.stop - pair.2.start) + 1 =
          skipComma false (fieldStop spell pair.1.1 pair.1.2.sorted (skipComma first offset)) := by
        rw [hentry.stop_eq]
        simp only [fieldStop, valueStart, skipComma, Bool.false_eq_true, if_false,
          length_compact_sorted _ (hdistinct pair mem_cons_self)]
        omega
      rw [map_cons, contentField, if_neg (hentry.key.names_content_iff.not.mpr hname),
        hstep, hwalk]

/-! ## The elements of `content` -/

def isObject : Json.Tree ν → Bool
  | .obj _ => true
  | _ => false

/-- What the number formatter must not do: write nothing, or start as an array
starts or ends. -/
def PlainNumbers (spell : ν → Bytes) : Prop :=
  ∀ n, ∃ byte rest, spell n = byte :: rest ∧ byte ≠ 0x5b ∧ byte ≠ 0x5d

theorem occursAt_head {rest : Bytes} {byte : UInt8} (h : OccursAt text offset (byte :: rest)) :
    text[offset]? = some byte := by
  obtain ⟨left, right, rfl, rfl⟩ := h
  simp

theorem compact_head (hspell : PlainNumbers spell) (value : Json.Tree ν) :
    ∃ byte rest, compact spell value = byte :: rest ∧ byte ≠ 0x5d ∧
      (byte = 0x5b ↔ ∃ items, value = .arr items) := by
  cases value with
  | null => exact ⟨_, _, rfl, by decide, by simp⟩
  | bool b => cases b <;> exact ⟨_, _, rfl, by decide, by simp⟩
  | num n =>
    obtain ⟨byte, rest, heq, hopen, hclose⟩ := hspell n
    exact ⟨byte, rest, heq, hclose, by simp [hopen]⟩
  | str s | arr items | obj entries => exact ⟨_, _, rfl, by decide, by simp⟩

theorem length_compactItems_cons (item : Json.Tree ν) (items : List (Json.Tree ν)) :
    (compactItems spell (item :: items) true).length =
      (compact spell item).length + (compactItems spell items false).length := by
  simp [compactItems]

theorem compactItems_rest (item : Json.Tree ν) (items : List (Json.Tree ν)) :
    compactItems spell (item :: items) false = 0x2c :: compactItems spell (item :: items) true := by
  simp [compactItems]

/-- The elements still to walk: their text up to the closing bracket, and their
objects among all. -/
structure ElementsAt (spell : ν → Bytes) (text : Bytes) (objects : List ObjectSpans)
    (items : List (Json.Tree ν)) (position : Nat) : Prop where
  occurs : OccursAt text position (compactItems spell items true ++ [0x5d])
  objects_eq : ∃ before after,
    objects = before ++ sortedSpansItems spell items true position ++ after ∧
    (∀ object ∈ before, object.start < position) ∧
    (∀ object ∈ after,
      position + (compactItems spell items true).length ≤ object.start)

variable {objects : List ObjectSpans} {position : Nat}

theorem ElementsAt.done (h : ElementsAt spell text objects [] position) :
    text[position]? = some 0x5d :=
  occursAt_head (by simpa [compactItems] using h.occurs)

variable {item : Json.Tree ν} {items : List (Json.Tree ν)}

theorem ElementsAt.head (h : ElementsAt spell text objects (item :: items) position) :
    OccursAt text position (compact spell item) := by
  have hocc := h.occurs.left
  exact (occursAt_item spell hocc).1

theorem ElementsAt.more (hspell : PlainNumbers spell)
    (h : ElementsAt spell text objects (item :: items) position) :
    text[position]? ≠ some 0x5d := by
  obtain ⟨byte, rest, hhead, hbracket, -⟩ := compact_head hspell item
  have hfirst := h.head
  rw [hhead] at hfirst
  rw [occursAt_head hfirst]
  simpa using hbracket

theorem ElementsAt.tail (h : ElementsAt spell text objects (item :: items) position) :
    pastComma text (position + (compact spell item).length) = (if items = [] then 0 else 1) ∧
      ElementsAt spell text objects items (position + (compact spell item).length +
        pastComma text (position + (compact spell item).length)) := by
  obtain ⟨before, after, hobjects, hbefore, hafter⟩ := h.objects_eq
  have hocc := h.occurs
  rw [compactItems, if_pos rfl, nil_append, append_assoc] at hocc
  have hrest := hocc.right
  have hitem := sortedSpans_bounds spell item position
  rw [sortedSpansItems] at hobjects
  have hsplit : objects = (before ++ sortedSpans spell item position) ++
      sortedSpansItems spell items false (position + (compact spell item).length) ++ after := by
    rw [hobjects]
    simp [skipComma]
  have hstarts : ∀ object ∈ before ++ sortedSpans spell item position,
      object.start < position + (compact spell item).length := by
    refine forall_mem_append.mpr ⟨fun object hold => ?_, fun object hnew => (hitem object hnew).2⟩
    exact (hbefore object hold).trans_le (Nat.le_add_right _ _)
  cases items with
  | nil =>
    have hclose : text[position + (compact spell item).length]? = some 0x5d :=
      occursAt_head (by simpa [compactItems] using hrest)
    have hcomma : pastComma text (position + (compact spell item).length) = 0 := by
      simp [pastComma, hclose]
    refine ⟨by simp [hcomma], ?_⟩
    rw [hcomma, Nat.add_zero]
    refine ⟨by simpa [compactItems] using hrest, _, after, hsplit, hstarts, ?_⟩
    intro object hobject
    have hge := hafter object hobject
    rw [length_compactItems_cons] at hge
    simp only [compactItems, length_nil]
    omega
  | cons next items =>
    rw [compactItems_rest, cons_append] at hrest
    have hcomma : pastComma text (position + (compact spell item).length) = 1 := by
      simp [pastComma, occursAt_head hrest]
    refine ⟨by simp [hcomma], ?_⟩
    rw [hcomma]
    rw [← singleton_append] at hrest
    refine ⟨hrest.right, _, after, hsplit, ?_, ?_⟩
    · intro object hobject
      have hlt := hstarts object hobject
      omega
    · intro object hobject
      have hge := hafter object hobject
      rw [length_compactItems_cons, compactItems_rest, length_cons] at hge
      omega

variable {entries : List (Text × Json.Tree ν)}

theorem ElementsAt.found (h : ElementsAt spell text objects (.obj entries :: items) position) :
    (objects[partitionPoint objects position]?).filter (·.start = position) =
      some ⟨position, position + (compact spell (.obj entries)).length,
        sortedFields spell entries (position + 1)⟩ := by
  obtain ⟨before, after, hobjects, hbefore, hafter⟩ := h.objects_eq
  have hbounds := sortedSpansItems_bounds spell (.obj entries :: items) true position
  rw [append_assoc] at hobjects
  have hrest : ∀ object ∈ sortedSpansItems spell (.obj entries :: items) true position ++ after,
      position ≤ object.start :=
    forall_mem_append.mpr ⟨fun object hmine => (hbounds object hmine).1, fun object hlater =>
      (Nat.le_add_right _ _).trans (hafter object hlater)⟩
  rw [hobjects, getElem?_partitionPoint hbefore hrest, sortedSpansItems, sortedSpans]
  simp [skipComma]

theorem ElementsAt.not_found (hspell : PlainNumbers spell)
    (h : ElementsAt spell text objects (item :: items) position) (hitem : isObject item = false) :
    (objects[partitionPoint objects position]?).filter (·.start = position) = none := by
  obtain ⟨before, after, hobjects, hbefore, hafter⟩ := h.objects_eq
  obtain ⟨byte, rest, hhead, -⟩ := compact_head hspell item
  have hpos : 0 < (compact spell item).length := by simp [hhead]
  have hlength := @length_compactItems_cons _ spell item items
  have hinside : ∀ object ∈ sortedSpans spell item position, position < object.start := by
    intro object hobject
    cases item with
    | arr elements =>
      have hbounds := sortedSpansItems_bounds spell elements true (position + 1) object hobject
      omega
    | obj entries => cases hitem
    | _ => simp [sortedSpans] at hobject
  have hnone : ∀ object ∈ objects, object.start ≠ position := by
    intro object hobject
    rw [hobjects, sortedSpansItems, mem_append, mem_append, mem_append] at hobject
    rcases hobject with (hold | hmine | hnext) | hlater
    · exact (hbefore object hold).ne
    · exact (hinside object hmine).ne'
    · have hbounds := sortedSpansItems_bounds spell items false _ object hnext
      simp only [skipComma, if_true] at hbounds
      omega
    · have hge := hafter object hlater
      omega
  rw [Option.filter_eq_none_iff]
  intro object hobject
  simpa using hnone object (mem_of_getElem? hobject)

def Cuts (spell : ν → Bytes) (out : Bytes) (item : Json.Tree ν) (range : BlockRange) : Prop :=
  OccursAt out range.start (compact spell item.sorted) ∧
    range.stop = range.start + (compact spell item.sorted).length

theorem elementRanges_objects (hspell : PlainNumbers spell)
    (hobjects : ∀ item ∈ items, isObject item = true) (hdistinct : ∀ item ∈ items, item.Distinct) :
    ∀ {fuel position offset : Nat}, items.length < fuel →
      ElementsAt spell text objects items position →
      OccursAt out offset (compactItems spell (Tree.sortedItems items) true) →
      ∃ ranges, elementRanges fuel text objects position offset =
          some (some (ranges, position + (compactItems spell items true).length)) ∧
        List.Forall₂ (Cuts spell out) items ranges := by
  induction items with
  | nil =>
    intro fuel position offset hfuel hat hout
    obtain ⟨fuel, rfl⟩ := Nat.exists_eq_succ_of_ne_zero (Nat.ne_of_gt hfuel)
    exact ⟨[], by rw [elementRanges, if_pos hat.done]; rfl, List.Forall₂.nil⟩
  | cons item items ih =>
    intro fuel position offset hfuel hat hout
    obtain ⟨fuel, rfl⟩ := Nat.exists_eq_succ_of_ne_zero (Nat.ne_of_gt (Nat.zero_lt_of_lt hfuel))
    have hsame : (compact spell item.sorted).length = (compact spell item).length :=
      length_compact_sorted item (hdistinct item mem_cons_self)
    obtain ⟨hcomma, htail⟩ := hat.tail
    obtain ⟨hhere, hafter⟩ := occursAt_item spell hout
    rw [hsame] at hafter
    have hnext : OccursAt out (offset + (compact spell item).length +
        pastComma text (position + (compact spell item).length))
        (compactItems spell (Tree.sortedItems items) true) := by
      rw [hcomma]
      cases items with
      | nil => simpa [Tree.sortedItems, compactItems, skipComma] using hafter
      | cons next items =>
        rw [Tree.sortedItems, compactItems_rest, ← singleton_append] at hafter
        exact hafter.right
    obtain ⟨ranges, hwalk, hcuts⟩ := ih (fun i hi => hobjects i (mem_cons_of_mem _ hi))
      (fun i hi => hdistinct i (mem_cons_of_mem _ hi)) (Nat.lt_of_succ_lt_succ hfuel)
      htail hnext
    have hobject := hobjects item mem_cons_self
    cases item with
    | obj entries =>
      refine ⟨⟨offset, offset + (compact spell (.obj entries)).length⟩ :: ranges, ?_,
        List.Forall₂.cons ⟨hhere, by rw [hsame]⟩ hcuts⟩
      have hstop : position + (compact spell (.obj entries)).length +
          pastComma text (position + (compact spell (.obj entries)).length) +
          (compactItems spell items true).length =
          position + (compactItems spell (.obj entries :: items) true).length := by
        rw [hcomma]
        cases items with
        | nil => simp [compactItems]
        | cons next items =>
          simp [compactItems]
          omega
      rw [elementRanges, if_neg (hat.more hspell), hat.found]
      simp only [Nat.add_sub_cancel_left, hwalk, some_bind,
        Option.map_some, hstop]
    | _ => cases hobject

theorem elementRanges_stuck (hspell : PlainNumbers spell)
    (hstuck : ∃ item ∈ items, isObject item = false) :
    ∀ {fuel position offset : Nat}, (items.takeWhile isObject).length < fuel →
      ElementsAt spell text objects items position →
      elementRanges fuel text objects position offset = some none := by
  induction items with
  | nil =>
    obtain ⟨item, hitem, -⟩ := hstuck
    cases hitem
  | cons item items ih =>
    intro fuel position offset hfuel hat
    obtain ⟨fuel, rfl⟩ := Nat.exists_eq_succ_of_ne_zero (Nat.ne_of_gt (Nat.zero_lt_of_lt hfuel))
    have hopen := hat.more hspell
    cases hobject : isObject item with
    | true =>
      have hrest : ∃ item ∈ items, isObject item = false := by simpa [hobject] using hstuck
      have htail := hat.tail.2
      cases item with
      | obj entries =>
        rw [elementRanges, if_neg hopen, hat.found]
        simp only [Nat.add_sub_cancel_left, Option.bind_eq_bind,
          ih hrest (Nat.lt_of_succ_lt_succ hfuel) htail, Option.bind_some, Option.map_none]
      | _ => cases hobject
    | false => rw [elementRanges, if_neg hopen, hat.not_found hspell hobject]

/-! ## Messages -/

variable (spell) in
theorem length_takeWhile_le (items : List (Json.Tree ν)) (first : Bool) (offset : Nat) :
    (items.takeWhile isObject).length ≤ (sortedSpansItems spell items first offset).length := by
  induction items generalizing first offset with
  | nil => simp
  | cons item items ih =>
    have hrest := ih false (skipComma first offset + (compact spell item).length)
    cases item with
    | obj entries =>
      rw [takeWhile_cons_of_pos rfl, sortedSpansItems, sortedSpans,
        length_append, length_cons, length_cons]
      omega
    | _ => simp [isObject]

def HasContent (message : Json.Tree ν) (content : Json.Tree ν) : Prop :=
  ∃ entries, message = .obj entries ∧ (contentName, content) ∈ entries

variable {message : Json.Tree ν}

theorem HasContent.items_distinct (h : HasContent message (.arr items))
    (hdistinct : message.Distinct) : ∀ item ∈ items, item.Distinct := by
  obtain ⟨entries, rfl, hmem⟩ := h
  have hvalue := (distinctEntries_iff entries).mp hdistinct.2 _ hmem
  exact (distinctItems_iff items).mp hvalue

theorem HasContent.unique {items' : List (Json.Tree ν)} (h : HasContent message (.arr items))
    (hdistinct : message.Distinct) (h' : HasContent message (.arr items')) : items = items' := by
  obtain ⟨entries, rfl, hmem⟩ := h
  obtain ⟨entries', heq, hmem'⟩ := h'
  cases heq
  have hsame := inj_on_of_nodup_map hdistinct.1 hmem hmem' rfl
  exact Tree.arr.inj (Prod.mk.inj hsame).2

/-- The canonical text of a message cut at the value of `content`. -/
structure ContentAt (spell : ν → Bytes) (message content : Json.Tree ν)
    (offset start stop : Nat) : Prop where
  source : OccursAt (compact spell message) start (compact spell content)
  target : OccursAt (compact spell message.sorted) offset (compact spell content.sorted)
  stop_eq : stop = start + (compact spell content).length
  objects_eq : ∃ before after,
    sortedSpans spell message 0 = before ++ sortedSpans spell content start ++ after ∧
    (∀ object ∈ before, object.start < start) ∧ (∀ object ∈ after, stop ≤ object.start)

/-- The serialized message with sorted fields. -/
def sortedEncoding (spell : ν → Bytes) (message : Json.Tree ν) (depth : Nat) : Encoded :=
  ⟨compact spell message, sortedSpans spell message 0, depth⟩

theorem contentBlockRanges_object (entries : List (Text × Json.Tree ν)) (depth : Nat) :
    contentBlockRanges (sortedEncoding spell (.obj entries) depth) =
      rangesOfContent (sortedEncoding spell (.obj entries) depth)
        (contentField (compact spell (.obj entries)) (sortedFields spell entries 1) 1) := by
  have hroot : documentRoot (sortedEncoding spell (.obj entries) depth) =
      some ⟨0, 0 + (compact spell (.obj entries)).length, sortedFields spell entries 1⟩ := by
    rw [documentRoot, sortedEncoding, sortedSpans, head?_cons]
    exact Option.filter_some_pos (by simp)
  rw [contentBlockRanges, hroot]
  rfl

theorem contentBlockRanges_other (h : isObject message = false) (depth : Nat) :
    contentBlockRanges (sortedEncoding spell message depth) = some none := by
  have hroot : documentRoot (sortedEncoding spell message depth) = none := by
    rw [documentRoot, Option.filter_eq_none_iff]
    intro object hobject
    rw [sortedEncoding] at hobject
    cases message with
    | arr items =>
      have hbounds := sortedSpansItems_bounds spell items true 1 object (mem_of_head? hobject)
      simp
      omega
    | obj entries => cases h
    | _ => simp [sortedSpans] at hobject
  rw [contentBlockRanges, hroot]

theorem mem_sortPairs {pair : (Text × Json.Tree ν) × Field} :
    pair ∈ sortPairs pairs ↔ pair ∈ pairs :=
  (perm_insertionSort _ pairs).mem_iff

theorem occursAt_entries (entries : List (Text × Json.Tree ν)) :
    OccursAt (compact spell (.obj entries)) 1 (compactEntries spell entries true) :=
  occursAt_fields spell (occursAt_self _)

theorem contentField_sortedFields_missing (hmissing : ∀ entry ∈ entries, entry.1 ≠ contentName) :
    contentField (compact spell (.obj entries)) (sortedFields spell entries 1) 1 = none := by
  refine contentField_missing ?_ ?_ 1
  · intro pair hpair
    exact (entryAt_placed spell (occursAt_entries entries) pair (mem_sortPairs.mp hpair)).key
  · intro pair hpair
    have hentry : pair.1 ∈ (placed spell entries true 1).map Prod.fst :=
      mem_map_of_mem (mem_sortPairs.mp hpair)
    rw [map_fst_placed] at hentry
    exact hmissing pair.1 hentry

variable (spell) in
theorem contentField_sortedFields {content : Json.Tree ν}
    (hdistinct : (Json.Tree.obj entries).Distinct) (hmem : (contentName, content) ∈ entries) :
    ∃ offset start stop,
      contentField (compact spell (.obj entries)) (sortedFields spell entries 1) 1 =
        some (offset, start, stop) ∧
      ContentAt spell (.obj entries) content offset start stop := by
  obtain ⟨hnodup, hvalues⟩ := hdistinct
  have hentryAt := entryAt_placed spell (occursAt_entries entries)
  have hmemEntries : ∀ pair ∈ placed spell entries true 1, pair.1 ∈ entries := by
    intro pair hpair
    have hfst := mem_map_of_mem (f := Prod.fst) hpair
    rwa [map_fst_placed] at hfst
  have hout : OccursAt (compact spell (Json.Tree.obj entries).sorted) 1 (compactEntries spell
      (((sortPairs (placed spell entries true 1)).map Prod.fst).map
        fun e => (e.1, e.2.sorted)) true) := by
    rw [Tree.sorted, collect_sortedEntries spell hnodup true 1]
    exact occursAt_entries _
  have hexists : ∃ pair ∈ sortPairs (placed spell entries true 1), pair.1.1 = contentName := by
    rw [← map_fst_placed spell entries true 1] at hmem
    obtain ⟨pair, hpair, heq⟩ := mem_map.mp hmem
    exact ⟨pair, mem_sortPairs.mpr hpair, by rw [heq]⟩
  obtain ⟨pair, hpair, hname, offset, hwalk, htarget⟩ := contentField_found
    (fun p hp => hentryAt p (mem_sortPairs.mp hp))
    (fun p hp => (distinctEntries_iff entries).mp hvalues _
      (hmemEntries p (mem_sortPairs.mp hp))) hexists hout
  have hplaced := mem_sortPairs.mp hpair
  -- keys are distinct, so the entry found is the one asked for
  have hvalue : pair.1.2 = content := by
    have hentry := hmemEntries pair hplaced
    have hsame := inj_on_of_nodup_map hnodup hentry hmem hname
    rw [hsame]
  have hat := hentryAt pair hplaced
  refine ⟨offset, _, _, hwalk, ?_⟩
  rw [hvalue] at htarget
  obtain ⟨left, right, hsplit, hleft, hright⟩ :=
    sortedSpansEntries_split entries true 1 pair hplaced
  refine ⟨?_, htarget, ?_, ?_⟩
  · rw [← hvalue]
    exact (occursAt_value hat.occurs).2
  · rw [hat.stop_eq, fieldStop, hvalue]
  · refine ⟨⟨0, 0 + (compact spell (.obj entries)).length, sortedFields spell entries 1⟩ :: left,
      right, ?_, ?_, hright⟩
    · rw [sortedSpans, hsplit, hvalue]
      rfl
    · refine forall_mem_cons.mpr ⟨by simp [valueStart], fun object hobject => ?_⟩
      have hlt := hleft object hobject
      rw [valueStart]
      omega

theorem ContentAt.elementsAt {start stop : Nat}
    (h : ContentAt spell message (.arr items) offset start stop) :
    ElementsAt spell (compact spell message) (sortedSpans spell message 0) items (start + 1) := by
  have hsource := h.source
  obtain ⟨before, after, hobjects, hbefore, hafter⟩ := h.objects_eq
  refine ⟨?_, before, after, hobjects, ?_, ?_⟩
  · rw [compact, ← singleton_append] at hsource
    exact hsource.right
  · intro object hobject
    have hlt := hbefore object hobject
    omega
  · intro object hobject
    have hge := hafter object hobject
    rw [h.stop_eq, compact, length_cons, length_append] at hge
    omega

theorem ContentAt.fuel {start stop : Nat}
    (h : ContentAt spell message (.arr items) offset start stop) :
    (items.takeWhile isObject).length < (sortedSpans spell message 0).length + 1 := by
  obtain ⟨before, after, hobjects, -, -⟩ := h.objects_eq
  have hlength := length_takeWhile_le spell items true (start + 1)
  rw [hobjects, sortedSpans, length_append, length_append]
  omega

theorem contentBlockRanges_objects (hspell : PlainNumbers spell) (hdistinct : message.Distinct)
    (hcontent : HasContent message (.arr items)) (hobjects : ∀ item ∈ items, isObject item = true)
    (depth : Nat) :
    ∃ ranges, contentBlockRanges (sortedEncoding spell message depth) = some (some ranges) ∧
      List.Forall₂ (Cuts spell (compact spell message.sorted)) items ranges := by
  have hitems := hcontent.items_distinct hdistinct
  obtain ⟨entries, rfl, hmem⟩ := hcontent
  obtain ⟨offset, start, stop, hfield, hat⟩ := contentField_sortedFields spell hdistinct hmem
  have hsource := hat.source
  have htarget := hat.target
  have hfuel := hat.fuel
  rw [takeWhile_eq_self_iff.mpr hobjects] at hfuel
  obtain ⟨ranges, hwalk, hcuts⟩ := elementRanges_objects hspell hobjects hitems hfuel
    hat.elementsAt (occursAt_inside htarget)
  refine ⟨ranges, ?_, hcuts⟩
  have hstop : start + 1 + (compactItems spell items true).length + 1 = stop := by
    rw [hat.stop_eq, compact, length_cons, length_append, length_singleton]
    omega
  rw [contentBlockRanges_object, hfield, rangesOfContent]
  simp only [sortedEncoding, occursAt_head hsource, ne_eq, not_true_eq_false, if_false, hwalk,
    Option.bind_eq_bind, Option.bind_some, hstop, if_true]

theorem contentBlockRanges_none (hspell : PlainNumbers spell) (hdistinct : message.Distinct)
    (hcontent : ¬ ∃ items, HasContent message (.arr items) ∧ ∀ item ∈ items, isObject item = true)
    (depth : Nat) : contentBlockRanges (sortedEncoding spell message depth) = some none := by
  cases hroot : isObject message with
  | false => exact contentBlockRanges_other hroot depth
  | true =>
    obtain ⟨entries, rfl⟩ : ∃ entries, message = .obj entries := by
      cases message with
      | obj entries => exact ⟨entries, rfl⟩
      | _ => cases hroot
    rw [contentBlockRanges_object]
    by_cases hname : ∃ content, (contentName, content) ∈ entries
    · obtain ⟨content, hmem⟩ := hname
      obtain ⟨offset, start, stop, hfield, hat⟩ := contentField_sortedFields spell hdistinct hmem
      obtain ⟨byte, rest, hhead, -, harray⟩ := compact_head hspell content
      have hsource := hat.source
      rw [hhead] at hsource
      rw [hfield, rangesOfContent]
      by_cases hbyte : byte = 0x5b
      · obtain ⟨items, rfl⟩ := harray.mp hbyte
        have hstuck : ∃ item ∈ items, isObject item = false := by
          by_contra hall
          refine hcontent ⟨items, ⟨entries, rfl, hmem⟩, fun item hitem => ?_⟩
          rw [← Bool.not_eq_false]
          exact fun hbad => hall ⟨item, hitem, hbad⟩
        simp only [sortedEncoding, occursAt_head hsource, hbyte, ne_eq, not_true_eq_false,
          if_false, elementRanges_stuck hspell hstuck hat.fuel hat.elementsAt,
          some_bind, Option.bind_none]
      · simp [sortedEncoding, occursAt_head hsource, hbyte]
    · rw [contentField_sortedFields_missing fun entry hentry heq =>
        hname ⟨entry.2, by rw [← heq]; exact hentry⟩]
      rfl

variable {decode : Bytes → Option Bytes}

theorem canonicalBlockBytes_eq (hdecode : ReadsQuoted decode) {block : Json.Tree ν}
    (hdistinct : block.Distinct) :
    canonicalBlockBytes decode spell block = some (compact spell block.sorted) := by
  obtain ⟨encoder, hserialize, hwrote⟩ := serialize_wrote spell block Encoder.new (Nat.zero_le _)
  obtain ⟨changed, hsort, hunmoved⟩ :=
    sortsTo_spans spell hdecode block 0 (occursAt_self (compact spell block))
  have htext : encoder.text = compact spell block := hwrote.text_eq
  have hlive : encoder.objects.items.take encoder.objects.len = spans spell block 0 :=
    hwrote.live_eq
  simp only [canonicalBlockBytes, serializeWithSpans, hserialize, finalize, htext, hlive, hsort,
    some_bind]
  cases changed with
  | false => rw [hunmoved rfl hdistinct]; rfl
  | true => exact copySortedRange_document spell block hdistinct

theorem Cuts.sliceChecked_eq {range : BlockRange} (h : Cuts spell out item range) :
    sliceChecked out range.start range.stop = some (compact spell item.sorted) := by
  obtain ⟨hocc, hstop⟩ := h
  rw [hstop, sliceChecked, if_pos ⟨Nat.le_add_right _ _, hocc.end_le⟩, hocc.slice_eq]

/-- The message encoded with its blocks: the canonical bytes, and the ranges the walk
finds on the sorted objects. -/
theorem canonicalMessageWithBlocks_eq (hdecode : ReadsQuoted decode)
    (hdistinct : message.Distinct) {blocks : Option (List BlockRange)}
    (hblocks : ∀ depth, contentBlockRanges (sortedEncoding spell message depth) = some blocks) :
    ∃ depth, canonicalMessageWithBlocks decode spell message =
      some (⟨compact spell message.sorted, depth⟩, blocks) := by
  obtain ⟨changed, hsort, hunmoved⟩ :=
    sortsTo_spans spell hdecode message 0 (occursAt_self (compact spell message))
  obtain ⟨encoder, hserialize, hwrote⟩ :=
    serialize_wrote spell message Encoder.new (Nat.zero_le _)
  have htext : encoder.text = compact spell message := hwrote.text_eq
  have hlive : encoder.objects.items.take encoder.objects.len = spans spell message 0 :=
    hwrote.live_eq
  refine ⟨encoder.maxDepth, ?_⟩
  simp only [canonicalMessageWithBlocks, serializeWithSpans, hserialize, Option.bind_eq_bind,
    Option.bind_some, htext, hlive, hsort]
  rw [← sortedEncoding, hblocks, Option.bind_some]
  cases changed with
  | false =>
    rw [if_neg (by simp), hunmoved rfl hdistinct]
  | true =>
    rw [if_pos rfl, copySortedRange_document spell message hdistinct, Option.bind_some]

/-- Block ranges cut the canonical message exactly.  Whatever else the message holds,
a `content` array of objects has one range per element in order, and each range cuts
out of the canonical bytes what encoding the element alone gives.  With no such array
there are no ranges. -/
theorem block_ranges_cut_message (hdecode : ReadsQuoted decode) (spell : ν → Bytes)
    (hspell : PlainNumbers spell) (message : Json.Tree ν) (hdistinct : message.Distinct) :
    ∃ canonical blocks,
      canonicalMessageWithBlocks decode spell message = some (canonical, blocks) ∧
      canonicalBlockBytes decode spell message = some canonical.bytes ∧
      (∀ items, HasContent message (.arr items) → (∀ item ∈ items, isObject item = true) →
        ∃ ranges, blocks = some ranges ∧ List.Forall₂ (fun item (range : BlockRange) =>
          ∃ text, canonicalBlockBytes decode spell item = some text ∧
            sliceChecked canonical.bytes range.start range.stop = some text) items ranges) ∧
      ((¬ ∃ items, HasContent message (.arr items) ∧ ∀ item ∈ items, isObject item = true) →
        blocks = none) := by
  by_cases hcontent : ∃ items, HasContent message (.arr items) ∧
      ∀ item ∈ items, isObject item = true
  · obtain ⟨items, hhas, hobjects⟩ := hcontent
    obtain ⟨ranges, hranges, hcuts⟩ :=
      contentBlockRanges_objects hspell hdistinct hhas hobjects 0
    obtain ⟨depth, heq⟩ := canonicalMessageWithBlocks_eq hdecode hdistinct fun _ => hranges
    refine ⟨_, _, heq, canonicalBlockBytes_eq hdecode hdistinct, ?_, fun hnone =>
      absurd ⟨items, hhas, hobjects⟩ hnone⟩
    intro items' hhas' _
    obtain rfl := hhas.unique hdistinct hhas'
    have hitems := hhas.items_distinct hdistinct
    refine ⟨ranges, rfl, forall₂_iff_get.mpr ⟨hcuts.length_eq, fun i hi hi' => ?_⟩⟩
    have hcut := (forall₂_iff_get.mp hcuts).2 i hi hi'
    exact ⟨_, canonicalBlockBytes_eq hdecode (hitems _ (get_mem _ _)), hcut.sliceChecked_eq⟩
  · obtain ⟨depth, heq⟩ := canonicalMessageWithBlocks_eq hdecode hdistinct
      (contentBlockRanges_none hspell hdistinct hcontent)
    refine ⟨_, _, heq, canonicalBlockBytes_eq hdecode hdistinct, ?_, fun _ => rfl⟩
    intro items hhas hobjects
    exact absurd ⟨items, hhas, hobjects⟩ hcontent

/-- A message whose fields and whose first block are out of order, with an escaped key
in front of `content`. -/
def sampleMessage : Json.Tree Nat :=
  .obj [("role".toList, .str "u".toList),
    (contentName, .arr [.obj [(['t'], .num 1), (['a'], .arr [.obj []])], .obj []]),
    (['\n'], .num 2)]

def digitSpelling (n : Nat) : Bytes := [0x30 + UInt8.ofNat (n % 10)]

theorem plainNumbers_digitSpelling : PlainNumbers digitSpelling := by
  intro n
  have hbyte : ∀ d < 10, (0x30 : UInt8) + UInt8.ofNat d ≠ 0x5b ∧
      (0x30 : UInt8) + UInt8.ofNat d ≠ 0x5d := by decide
  exact ⟨_, [], rfl, (hbyte _ (Nat.mod_lt n (by decide))).1, (hbyte _ (Nat.mod_lt n (by decide))).2⟩

theorem block_ranges_cut_message_sample :
    ∃ canonical ranges,
      canonicalMessageWithBlocks quotedReader digitSpelling sampleMessage =
        some (canonical, some ranges) ∧
      ranges.length = 2 := by
  have hdistinct : sampleMessage.Distinct := by
    simp only [sampleMessage, Tree.Distinct, Tree.DistinctEntries, Tree.DistinctItems]
    decide
  obtain ⟨canonical, blocks, heq, -, hsome, -⟩ :=
    block_ranges_cut_message readsQuoted_quotedReader digitSpelling plainNumbers_digitSpelling
      sampleMessage hdistinct
  obtain ⟨ranges, rfl, hcuts⟩ := hsome
    [.obj [(['t'], .num 1), (['a'], .arr [.obj []])], .obj []]
    ⟨_, rfl, by simp⟩ (by simp [isObject])
  exact ⟨canonical, ranges, heq, hcuts.length_eq.symm⟩

/-! ## Key order -/

/-- Trees that differ in the order of entries only, in objects at any depth. -/
inductive Reordered : Json.Tree ν → Json.Tree ν → Prop
  | entries {a b : List (Text × Json.Tree ν)} (hkeys : (a.map Prod.fst).Nodup) (h : a.Perm b) :
      Reordered (.obj a) (.obj b)
  | value {before after key a b} (h : Reordered a b) :
      Reordered (.obj (before ++ (key, a) :: after)) (.obj (before ++ (key, b) :: after))
  | item {before after a b} (h : Reordered a b) :
      Reordered (.arr (before ++ a :: after)) (.arr (before ++ b :: after))
  | trans {a b c} (hab : Reordered a b) (hbc : Reordered b c) : Reordered a c

theorem sortedItems_eq_map (items : List (Json.Tree ν)) :
    Tree.sortedItems items = items.map Tree.sorted := by
  induction items with
  | nil => rfl
  | cons item items ih => rw [Tree.sortedItems, ih, map_cons]

theorem Reordered.sorted_eq {a b : Json.Tree ν} (h : Reordered a b) : a.sorted = b.sorted := by
  induction h with
  | entries hkeys hperm =>
    have hkeys' := (hperm.map Prod.fst).nodup_iff.mp hkeys
    rw [← keys_sortedEntries] at hkeys hkeys'
    have hsorted := hperm.map fun e => (e.1, e.2.sorted)
    rw [← sortedEntries_eq_map, ← sortedEntries_eq_map] at hsorted
    rw [Tree.sorted, Tree.sorted]
    refine congrArg _ (eq_of_perm_ascending (ascending_collectEntries _)
      (ascending_collectEntries _) ?_)
    exact (perm_collectEntries hkeys).trans (hsorted.trans (perm_collectEntries hkeys').symm)
  | value _ ih => simp [Tree.sorted, sortedEntries_eq_map, ih]
  | item _ ih => simp [Tree.sorted, sortedItems_eq_map, ih]
  | trans _ _ hab hbc => exact hab.trans hbc

/-- The served bytes of a block do not tell in which order its keys came, at any depth. -/
theorem key_order_unserved (hdecode : ReadsQuoted decode) {a b : Json.Tree ν}
    (h : Reordered a b) (ha : a.Distinct) (hb : b.Distinct) :
    ∃ bytes, canonicalBlockBytes decode spell a = some bytes ∧
      canonicalBlockBytes decode spell b = some bytes := by
  rw [canonicalBlockBytes_eq hdecode ha, canonicalBlockBytes_eq hdecode hb, h.sorted_eq]
  exact ⟨_, rfl, rfl⟩

theorem key_order_unserved_pair :
    ∃ bytes, canonicalBlockBytes quotedReader (fun _ : Unit => [0x30])
        (.obj [(['b'], .null), (['a'], .num ())]) = some bytes ∧
      canonicalBlockBytes quotedReader (fun _ : Unit => [0x30])
        (.obj [(['a'], .num ()), (['b'], .null)]) = some bytes :=
  key_order_unserved readsQuoted_quotedReader (.entries (by decide) (.swap _ _ _))
    ⟨by decide, trivial, trivial, trivial⟩ ⟨by decide, trivial, trivial, trivial⟩

end Eidnara.Daemon.ServedJson
