import Eidnara.Daemon.ServedJson.Spans
import Eidnara.Json.Normal
import Eidnara.Lib.Framing

/-!
# Sorting the recorded fields

`sort_fields` compares spelled keys when none holds an escape and decoded keys
otherwise.  Both are the scalar order of the keys, so the recorded fields of an
object come out in the order of its sorted entries; and when the encoder reports
that nothing moved, the entries were sorted.
-/

namespace Eidnara.Daemon.ServedJson

open Lib Utf8 SortedEntries Eidnara.Json List

/-! ## Keys as the comparators see them -/

theorem escape_of_front {a b : UInt8} (h : escape a <+: escape b) : a = b := by
  -- both start with a backslash or neither does, and the codes that do are few
  have hcodes : ∀ m < 93, escapes (UInt8.ofNat m) = true →
      ∀ n < 93, escapes (UInt8.ofNat n) = true →
        escape (UInt8.ofNat m) <+: escape (UInt8.ofNat n) → m = n := by decide +kernel
  have hbound : ∀ {byte : UInt8}, escapes byte = true → byte.toNat < 93 := by
    intro byte hbyte
    have hneeds := (escapes_iff byte).mp hbyte
    simp only [NeedsEscape] at hneeds
    omega
  have hheads := head?_escape b
  obtain ⟨rest, hrest⟩ := h
  rw [← hrest, head?_append, head?_escape, Option.some_or, Option.some.injEq] at hheads
  split_ifs at hheads with ha hb hb
  · refine UInt8.toNat.inj (hcodes _ (hbound ha) ?_ _ (hbound hb) ?_ ⟨rest, ?_⟩)
    · rwa [UInt8.ofNat_toNat]
    · rwa [UInt8.ofNat_toNat]
    · rwa [UInt8.ofNat_toNat, UInt8.ofNat_toNat]
  · exact absurd (hheads ▸ by decide) hb
  · exact absurd (hheads ▸ by decide) ha
  · exact hheads

theorem quoted_injective {a b : Bytes} (h : quoted a = quoted b) : a = b := by
  refine Framing.flatMap_inj ?_ ?_ (append_cancel_right (cons.inj h).2)
  · intro a b rest rest' heq
    have hsame : a = b := by
      rcases prefix_or_prefix_of_prefix (prefix_append (escape a) rest)
        (heq ▸ prefix_append (escape b) rest') with hab | hba
      · exact escape_of_front hab
      · exact (escape_of_front hba).symm
    subst hsame
    exact ⟨rfl, append_cancel_left heq⟩
  · intro byte hnil
    have hhead := head?_escape byte
    rw [hnil] at hhead
    cases hhead

theorem flatMap_escape_of_no_backslash {value : Bytes}
    (h : (value.flatMap escape).contains 0x5c = false) : value.flatMap escape = value := by
  apply flatMap_escape_plain
  intro byte hbyte hescape
  have hmem : (0x5c : UInt8) ∈ value.flatMap escape :=
    mem_flatMap.mpr ⟨byte, hbyte, mem_of_head? (by rw [head?_escape, if_pos hescape])⟩
  rw [contains_iff_mem.mpr hmem] at h
  cases h

/-- The text of an object's fields at a position, as the comparators read it. -/
structure KeyAt (text : Bytes) (key : Text) (field : Field) : Prop where
  occurs : OccursAt text field.start (quoted (utf8 key))
  keyEnd_eq : field.keyEnd = field.start + (quoted (utf8 key)).length

theorem KeyAt.rawKey_eq {text : Bytes} {key : Text} {field : Field} (h : KeyAt text key field) :
    rawKey text field = (utf8 key).flatMap escape := by
  have hinner : OccursAt text (field.start + 1) ((utf8 key).flatMap escape) := by
    have hocc := h.occurs
    rw [quoted, ← singleton_append] at hocc
    exact hocc.right.left
  rw [← hinner.slice_eq, rawKey, h.keyEnd_eq, quoted]
  congr 1
  simp only [length_cons, length_append, length_nil]
  omega

variable {decode : Bytes → Option Bytes}

theorem KeyAt.decodedKey_eq {text : Bytes} {key : Text} {field : Field}
    (h : KeyAt text key field) (hdecode : ReadsQuoted decode) :
    decodedKey decode text field = some (utf8 key) := by
  rw [decodedKey, h.keyEnd_eq, h.occurs.slice_eq, hdecode]

/-! ## One object -/

theorem pairwise_of_isSortedByKey {α : Type} {key : α → List Nat} : ∀ {xs : List α},
    isSortedByKey key xs = true → xs.Pairwise fun a b => key a ≤ key b
  | [], _ => List.Pairwise.nil
  | [_], _ => pairwise_singleton _ _
  | a :: b :: rest, h => by
    simp only [isSortedByKey, Bool.and_eq_true, decide_eq_true_eq] at h
    have htail := pairwise_of_isSortedByKey h.2
    refine pairwise_cons.mpr ⟨?_, htail⟩
    intro c hc
    rcases mem_cons.mp hc with rfl | hrest
    · exact h.1
    · exact h.1.trans ((pairwise_cons.mp htail).1 c hrest)

section Fields

variable {β : Type} {text : Bytes}

def sortPairs (pairs : List ((Text × β) × Field)) : List ((Text × β) × Field) :=
  pairs.insertionSort fun a b => a.1.1 ≤ b.1.1

variable {pairs : List ((Text × β) × Field)}

theorem mapM_decodedKey (hdecode : ReadsQuoted decode)
    (hkeys : ∀ pair ∈ pairs, KeyAt text pair.1.1 pair.2) :
    (pairs.map Prod.snd).mapM (decodedKey decode text) =
      some (pairs.map fun pair => utf8 pair.1.1) := by
  rw [mapM_eq_some_iff, map_map, map_map]
  exact map_congr_left fun pair hpair => (hkeys pair hpair).decodedKey_eq hdecode

theorem le_of_singleton_le {a b : Nat} (h : [a] ≤ [b]) : a ≤ b := by
  by_contra hlt
  exact absurd (cons_lt_cons_iff.mpr (.inl (not_le.mp hlt))) (not_lt.mpr h)

theorem eq_of_perm_of_starts {sorted : List ((Text × β) × Field)} (hperm : sorted.Perm pairs)
    (hstarts : pairs.Pairwise fun a b => a.2.start < b.2.start)
    (hsorted : sorted.Pairwise fun a b => a.2.start ≤ b.2.start) : sorted = pairs := by
  have hdistinct : (sorted.map fun pair => pair.2.start).Nodup :=
    (hperm.map fun pair => pair.2.start).nodup_iff.mpr
      (pairwise_map.mpr (hstarts.imp fun h => Nat.ne_of_lt h))
  have hstrict : sorted.Pairwise fun a b => a.2.start < b.2.start :=
    (hsorted.and (pairwise_map.mp hdistinct)).imp fun h => lt_of_le_of_ne h.1 h.2
  have hasymm : ∀ a b : (Text × β) × Field, a ∈ sorted → b ∈ pairs →
      a.2.start < b.2.start → b.2.start < a.2.start → a = b := by
    intro a b _ _ hab hba
    omega
  exact List.Perm.eq_of_pairwise hasymm hstrict hstarts hperm

/-- `sort_fields` puts the fields in the scalar order of their keys, and reports
no move only when they were in that order. -/
theorem sortFields_eq (hdecode : ReadsQuoted decode)
    (hkeys : ∀ pair ∈ pairs, KeyAt text pair.1.1 pair.2)
    (hstarts : pairs.Pairwise fun a b => a.2.start < b.2.start) :
    ∃ changed, sortFields decode text (pairs.map Prod.snd) =
        some (changed, (sortPairs pairs).map Prod.snd) ∧
      (changed = false → sortPairs pairs = pairs) := by
  have hrawOrder : (pairs.map Prod.snd).all
      (fun field => !(rawKey text field).contains 0x5c) = true → ∀ a ∈ pairs, ∀ b ∈ pairs,
      (byteOrder (rawKey text a.2) ≤ byteOrder (rawKey text b.2) ↔ a.1.1 ≤ b.1.1) := by
    intro hraw a ha b hb
    have hplain : ∀ pair ∈ pairs, rawKey text pair.2 = utf8 pair.1.1 := by
      intro pair hpair
      have hfree := all_eq_true.mp hraw pair.2 (mem_map_of_mem hpair)
      rw [(hkeys pair hpair).rawKey_eq] at hfree ⊢
      exact flatMap_escape_of_no_backslash (by simpa using hfree)
    rw [hplain a ha, hplain b hb, utf8_le_iff]
  unfold sortFields
  split_ifs with hshort hraw hsorted
  · -- fewer than two fields
    have hsame : sortPairs pairs = pairs := by
      match pairs, hshort with
      | [], _ => rfl
      | [_], _ => rfl
    exact ⟨false, by rw [hsame], fun _ => hsame⟩
  · -- spelled keys, already in order
    have hsame : sortPairs pairs = pairs := by
      have hpairwise := pairwise_map.mp (pairwise_of_isSortedByKey hsorted)
      refine List.Pairwise.insertionSort_eq (hpairwise.imp_of_mem ?_)
      intro a b ha hb hle
      exact (hrawOrder hraw a ha b hb).mp hle
    exact ⟨false, by rw [hsame], fun _ => hsame⟩
  · -- spelled keys
    refine ⟨true, ?_, by simp⟩
    rw [sortPairs, map_insertionSort (fun a b => a.1.1 ≤ b.1.1)
      (fun a b => byteOrder (rawKey text a) ≤ byteOrder (rawKey text b)) Prod.snd pairs
      fun a ha b hb => (hrawOrder hraw a ha b hb).symm]
  · -- decoded keys
    have hdecoded := mapM_decodedKey hdecode hkeys
    have hzip : (pairs.map fun pair => utf8 pair.1.1).zip (pairs.map Prod.snd) =
        pairs.map fun pair => (utf8 pair.1.1, pair.2) := zip_map'
    have hsort : (sortPairs pairs).map (fun pair => (utf8 pair.1.1, pair.2)) =
        (pairs.map fun pair => (utf8 pair.1.1, pair.2)).insertionSort fun a b =>
          byteOrder a.1 ≤ byteOrder b.1 :=
      map_insertionSort _ _ _ _ fun a _ b _ => utf8_le_iff.symm
    have hsecond : ((sortPairs pairs).map fun pair => (utf8 pair.1.1, pair.2)).map Prod.snd =
        (sortPairs pairs).map Prod.snd := by
      rw [map_map]
      rfl
    rw [hdecoded]
    simp only [some_bind, hzip, ← hsort, hsecond]
    refine ⟨_, rfl, ?_⟩
    intro hunmoved
    rw [Bool.not_eq_false'] at hunmoved
    exact eq_of_perm_of_starts (perm_insertionSort _ pairs) hstarts
      ((pairwise_map.mp (pairwise_of_isSortedByKey hunmoved)).imp le_of_singleton_le)

end Fields

/-! ## All objects of a tree -/

section Trees

variable {ν : Type} (spell : ν → Bytes)

def placed (entries : List (Text × Json.Tree ν)) (first : Bool) (offset : Nat) :
    List ((Text × Json.Tree ν) × Field) :=
  entries.zip (fieldSpans spell entries first offset)

theorem placed_cons (key : Text) (value : Json.Tree ν) (entries : List (Text × Json.Tree ν))
    (first : Bool)
    (offset : Nat) :
    placed spell ((key, value) :: entries) first offset =
      ((key, value), ⟨skipComma first offset, fieldStop spell key value (skipComma first offset),
        skipComma first offset + (quoted (utf8 key)).length⟩) ::
      placed spell entries false (fieldStop spell key value (skipComma first offset)) := rfl

theorem map_fst_placed (entries : List (Text × Json.Tree ν)) (first : Bool) (offset : Nat) :
    (placed spell entries first offset).map Prod.fst = entries := by
  induction entries generalizing first offset with
  | nil => rfl
  | cons entry entries ih =>
    rw [placed_cons, map_cons, ih]

theorem map_snd_placed (entries : List (Text × Json.Tree ν)) (first : Bool) (offset : Nat) :
    (placed spell entries first offset).map Prod.snd = fieldSpans spell entries first offset := by
  induction entries generalizing first offset with
  | nil => rfl
  | cons entry entries ih =>
    rw [placed_cons, map_cons, ih]
    rfl

structure EntryAt (text : Bytes) (entry : Text × Json.Tree ν) (field : Field) : Prop where
  key : KeyAt text entry.1 field
  occurs : OccursAt text field.start
    (quoted (utf8 entry.1) ++ 0x3a :: compact spell entry.2)
  stop_eq : field.stop = fieldStop spell entry.1 entry.2 field.start

theorem le_fieldStop (key : Text) (value : Json.Tree ν) (offset : Nat) :
    offset < fieldStop spell key value offset := by
  simp only [fieldStop, valueStart]
  omega

theorem le_skipComma (first : Bool) (offset : Nat) : offset ≤ skipComma first offset := by
  cases first <;> simp [skipComma]

variable {text : Bytes} {entries : List (Text × Json.Tree ν)} {first : Bool} {offset : Nat}

theorem occursAt_entry {key : Text} {value : Json.Tree ν}
    (h : OccursAt text offset (compactEntries spell ((key, value) :: entries) first)) :
    OccursAt text (skipComma first offset) (quoted (utf8 key) ++ 0x3a :: compact spell value) ∧
      OccursAt text (fieldStop spell key value (skipComma first offset))
        (compactEntries spell entries false) := by
  rw [compactEntries, append_assoc, append_assoc] at h
  have hrest := h.right
  rw [length_comma, ← append_assoc] at hrest
  refine ⟨hrest.left, ?_⟩
  have htail := hrest.right
  simp only [length_append, length_cons] at htail
  convert htail using 1
  simp only [fieldStop, valueStart]
  omega

theorem entryAt_placed : ∀ {entries : List (Text × Json.Tree ν)} {first : Bool}
    {offset : Nat}, OccursAt text offset (compactEntries spell entries first) →
    ∀ pair ∈ placed spell entries first offset, EntryAt spell text pair.1 pair.2
  | [], _, _, _, pair, hpair => by simp [placed] at hpair
  | (key, value) :: entries, first, offset, h, pair, hpair => by
    obtain ⟨hentry, hrest⟩ := occursAt_entry spell h
    rw [placed_cons] at hpair
    rcases mem_cons.mp hpair with rfl | hmem
    · exact ⟨⟨hentry.left, rfl⟩, hentry, rfl⟩
    · exact entryAt_placed hrest pair hmem

theorem start_placed :
    ∀ pair ∈ placed spell entries first offset, skipComma first offset ≤ pair.2.start := by
  induction entries generalizing first offset with
  | nil => intro pair hpair; simp [placed] at hpair
  | cons entry entries ih =>
    obtain ⟨key, value⟩ := entry
    intro pair hpair
    rcases mem_cons.mp hpair with rfl | hmem
    · exact le_refl _
    · have hlater := ih pair hmem
      have hstop := le_fieldStop spell key value (skipComma first offset)
      have hcomma := le_skipComma false (fieldStop spell key value (skipComma first offset))
      omega

theorem starts_placed (entries : List (Text × Json.Tree ν)) (first : Bool) (offset : Nat) :
    (placed spell entries first offset).Pairwise fun a b => a.2.start < b.2.start := by
  induction entries generalizing first offset with
  | nil => exact List.Pairwise.nil
  | cons entry entries ih =>
    obtain ⟨key, value⟩ := entry
    refine pairwise_cons.mpr ⟨?_, ih _ _⟩
    intro pair hpair
    have hlater := start_placed spell pair hpair
    have hstop := le_fieldStop spell key value (skipComma first offset)
    have hcomma := le_skipComma false (fieldStop spell key value (skipComma first offset))
    show skipComma first offset < pair.2.start
    omega

def sortedFields (entries : List (Text × Json.Tree ν)) (offset : Nat) : List Field :=
  (sortPairs (placed spell entries true offset)).map Prod.snd

mutual

def sortedSpans : Json.Tree ν → Nat → List ObjectSpans
  | .arr items, offset => sortedSpansItems items true (offset + 1)
  | .obj entries, offset =>
    ⟨offset, offset + (compact spell (.obj entries)).length,
      sortedFields spell entries (offset + 1)⟩ :: sortedSpansEntries entries true (offset + 1)
  | _, _ => []

def sortedSpansItems : List (Json.Tree ν) → Bool → Nat → List ObjectSpans
  | [], _, _ => []
  | item :: items, first, offset =>
    sortedSpans item (skipComma first offset) ++
      sortedSpansItems items false (skipComma first offset + (compact spell item).length)

def sortedSpansEntries : List (Text × Json.Tree ν) → Bool → Nat → List ObjectSpans
  | [], _, _ => []
  | (key, value) :: entries, first, offset =>
    sortedSpans value (valueStart key (skipComma first offset)) ++
      sortedSpansEntries entries false (fieldStop spell key value (skipComma first offset))

end

theorem map_fst_sortPairs {β : Type} (pairs : List ((Text × β) × Field)) :
    (sortPairs pairs).map Prod.fst =
      (pairs.map Prod.fst).insertionSort fun a b => a.1 ≤ b.1 :=
  map_insertionSort _ _ _ _ fun _ _ _ _ => Iff.rfl

theorem collect_sortedEntries (hnodup : (entries.map Prod.fst).Nodup) (first : Bool)
    (offset : Nat) :
    collectEntries (Tree.sortedEntries entries) =
      ((sortPairs (placed spell entries first offset)).map Prod.fst).map
        fun e => (e.1, e.2.sorted) := by
  rw [sortedEntries_eq_map,
    collectEntries_eq_insertionSort (by simpa [Function.comp_def] using hnodup),
    map_fst_sortPairs, map_fst_placed]
  symm
  apply map_insertionSort
  exact fun _ _ _ _ => Iff.rfl

/-- Sorting the recorded objects gives `sorted`; if nothing moved, `unmoved` holds. -/
def SortsTo (decode : Bytes → Option Bytes) (text : Bytes) (objects sorted : List ObjectSpans)
    (unmoved : Prop) : Prop :=
  ∃ changed, sortAllFields decode text objects = some (changed, sorted) ∧
    (changed = false → unmoved)

variable {p : Prop}

theorem SortsTo.append {a a' b b' : List ObjectSpans} {q : Prop} (ha : SortsTo decode text a a' p)
    (hb : SortsTo decode text b b' q) : SortsTo decode text (a ++ b) (a' ++ b') (p ∧ q) := by
  obtain ⟨changedB, hsortB, hunmovedB⟩ := hb
  induction a generalizing a' p with
  | nil =>
    obtain ⟨changedA, hsortA, hunmovedA⟩ := ha
    obtain ⟨rfl, rfl⟩ := Prod.mk.inj (Option.some.inj hsortA)
    exact ⟨changedB, hsortB, fun h => ⟨hunmovedA rfl, hunmovedB h⟩⟩
  | cons object a ih =>
    obtain ⟨changedA, hsortA, hunmovedA⟩ := ha
    simp only [sortAllFields, Option.bind_eq_bind, Option.bind_eq_some_iff,
      Option.some.injEq, Prod.mk.injEq] at hsortA
    obtain ⟨⟨changed, fields⟩, hfields, ⟨others, rest⟩, hrest, rfl, rfl⟩ := hsortA
    obtain ⟨changedRest, hsortRest, hunmovedRest⟩ := ih (p := others = false)
      ⟨others, hrest, id⟩
    refine ⟨changed || changedRest, ?_, ?_⟩
    · simp [sortAllFields, hfields, hsortRest]
    · intro h
      obtain ⟨hchanged, hrestUnmoved⟩ := Bool.or_eq_false_iff.mp h
      obtain ⟨hothers, hq⟩ := hunmovedRest hrestUnmoved
      exact ⟨hunmovedA (by simp [hchanged, hothers]), hq⟩

theorem SortsTo.imp {a a' : List ObjectSpans} {q : Prop} (h : SortsTo decode text a a' p)
    (hpq : p → q) :
    SortsTo decode text a a' q := by
  obtain ⟨changed, hsort, hunmoved⟩ := h
  exact ⟨changed, hsort, fun hc => hpq (hunmoved hc)⟩

theorem sortsTo_nil (text : Bytes) (hp : p) : SortsTo decode text [] [] p :=
  ⟨false, rfl, fun _ => hp⟩

theorem occursAt_item {item : Json.Tree ν} {items : List (Json.Tree ν)}
    (h : OccursAt text offset (compactItems spell (item :: items) first)) :
    OccursAt text (skipComma first offset) (compact spell item) ∧
      OccursAt text (skipComma first offset + (compact spell item).length)
        (compactItems spell items false) := by
  rw [compactItems, append_assoc] at h
  have hrest := h.right
  rw [length_comma] at hrest
  exact ⟨hrest.left, hrest.right⟩

theorem occursAt_inside {body : Bytes} {left right : UInt8}
    (h : OccursAt text offset (left :: (body ++ [right]))) : OccursAt text (offset + 1) body := by
  rw [← singleton_append] at h
  exact h.right.left

theorem occursAt_fields (h : OccursAt text offset (compact spell (.obj entries))) :
    OccursAt text (offset + 1) (compactEntries spell entries true) := by
  exact occursAt_inside h

/-- A field is its key with the colon, and its value. -/
theorem occursAt_value {key : Text} {value : Bytes}
    (h : OccursAt text offset (quoted (utf8 key) ++ 0x3a :: value)) :
    slice text offset (valueStart key offset) = quoted (utf8 key) ++ [0x3a] ∧
      OccursAt text (valueStart key offset) value := by
  have hlength : offset + (quoted (utf8 key) ++ [0x3a]).length = valueStart key offset := by
    rw [length_append, length_singleton, ← Nat.add_assoc, valueStart]
  rw [← singleton_append, ← append_assoc] at h
  exact hlength ▸ ⟨h.left.slice_eq, h.right⟩

theorem sortsTo_object (hdecode : ReadsQuoted decode)
    (h : OccursAt text offset (compact spell (.obj entries))) :
    SortsTo decode text
      [⟨offset, offset + (compact spell (.obj entries)).length,
        fieldSpans spell entries true (offset + 1)⟩]
      [⟨offset, offset + (compact spell (.obj entries)).length,
        sortedFields spell entries (offset + 1)⟩]
      (sortPairs (placed spell entries true (offset + 1)) =
        placed spell entries true (offset + 1)) := by
  obtain ⟨changed, hsort, hunmoved⟩ := sortFields_eq hdecode
    (fun pair hpair => (entryAt_placed spell (occursAt_fields spell h) pair hpair).key)
    (starts_placed spell entries true (offset + 1))
  rw [map_snd_placed] at hsort
  refine ⟨changed, ?_, hunmoved⟩
  simp [sortAllFields, hsort, sortedFields]

mutual

variable {text : Bytes}

theorem sortsTo_spans (hdecode : ReadsQuoted decode) : ∀ (value : Json.Tree ν) (offset : Nat),
    OccursAt text offset (compact spell value) →
    SortsTo decode text (spans spell value offset) (sortedSpans spell value offset)
      (value.Distinct → value.sorted = value)
  | .null, _, _ | .bool _, _, _ | .num _, _, _ | .str _, _, _ => sortsTo_nil text fun _ => rfl
  | .arr items, offset, h => by
    rw [compact] at h
    refine (sortsTo_spansItems hdecode items true (offset + 1) (occursAt_inside h)).imp ?_
    intro hitems hdistinct
    rw [Tree.Distinct] at hdistinct
    rw [Tree.sorted, hitems hdistinct]
  | .obj entries, offset, h => by
    have hobject := sortsTo_object spell hdecode h
    have hentries :=
      sortsTo_spansEntries hdecode entries true (offset + 1) (occursAt_fields spell h)
    refine (hobject.append hentries).imp ?_
    rintro ⟨hunmoved, hvalues⟩ hdistinct
    rw [Tree.Distinct] at hdistinct
    rw [Tree.sorted, hvalues hdistinct.2, collectEntries_eq_insertionSort hdistinct.1]
    have hfirst := map_fst_sortPairs (placed spell entries true (offset + 1))
    rw [hunmoved, map_fst_placed] at hfirst
    rw [← hfirst]

theorem sortsTo_spansItems (hdecode : ReadsQuoted decode) :
    ∀ (items : List (Json.Tree ν)) (first : Bool) (offset : Nat),
    OccursAt text offset (compactItems spell items first) →
    SortsTo decode text (spansItems spell items first offset)
      (sortedSpansItems spell items first offset)
      (Tree.DistinctItems items → Tree.sortedItems items = items)
  | [], _, _, _ => sortsTo_nil text fun _ => rfl
  | item :: items, first, offset, h => by
    obtain ⟨hitem, hrest⟩ := occursAt_item spell h
    refine ((sortsTo_spans hdecode item _ hitem).append
      (sortsTo_spansItems hdecode items false _ hrest)).imp ?_
    rintro ⟨hone, hmore⟩ hdistinct
    rw [Tree.DistinctItems] at hdistinct
    rw [Tree.sortedItems, hone hdistinct.1, hmore hdistinct.2]

theorem sortsTo_spansEntries (hdecode : ReadsQuoted decode) :
    ∀ (entries : List (Text × Json.Tree ν)) (first : Bool) (offset : Nat),
    OccursAt text offset (compactEntries spell entries first) →
    SortsTo decode text (spansEntries spell entries first offset)
      (sortedSpansEntries spell entries first offset)
      (Tree.DistinctEntries entries → Tree.sortedEntries entries = entries)
  | [], _, _, _ => sortsTo_nil text fun _ => rfl
  | (key, value) :: entries, first, offset, h => by
    obtain ⟨hentry, hrest⟩ := occursAt_entry spell h
    refine ((sortsTo_spans hdecode value _ (occursAt_value hentry).2).append
      (sortsTo_spansEntries hdecode entries false _ hrest)).imp ?_
    rintro ⟨hone, hmore⟩ hdistinct
    rw [Tree.DistinctEntries] at hdistinct
    rw [Tree.sortedEntries, hone hdistinct.1, hmore hdistinct.2]

end

end Trees

end Eidnara.Daemon.ServedJson
