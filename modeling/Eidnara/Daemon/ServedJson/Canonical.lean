import Eidnara.Daemon.ServedJson.Sorting

/-!
# Copying the sorted spans

`copy_sorted_range` walks the objects that are not inside another one, copies the
text between them verbatim and rewrites each from its sorted fields.  The result
over a whole document is the compact text of the key-sorted tree.
-/

namespace Eidnara.Daemon.ServedJson

open Lib Utf8 SortedEntries Eidnara.Json List

variable {ν : Type} (spell : ν → Bytes)

/-! ## Where objects start -/

mutual

theorem sortedSpans_bounds : ∀ (value : Json.Tree ν) (offset : Nat),
    ∀ object ∈ sortedSpans spell value offset,
      offset ≤ object.start ∧ object.start < offset + (compact spell value).length
  | .null, _, object, h | .bool _, _, object, h | .num _, _, object, h | .str _, _, object, h => by
      simp [sortedSpans] at h
  | .arr items, offset, object, h => by
    rw [sortedSpans] at h
    have hbounds := sortedSpansItems_bounds items true (offset + 1) object h
    simp only [compact, length_cons, length_append, length_nil]
    omega
  | .obj entries, offset, object, h => by
    rw [sortedSpans] at h
    rcases mem_cons.mp h with rfl | hrest
    · simp only [compact, length_cons]
      omega
    · have hbounds := sortedSpansEntries_bounds entries true (offset + 1) object hrest
      have hle := le_skipComma true (offset + 1)
      simp only [compact, length_cons, length_append, length_nil]
      omega

theorem sortedSpansItems_bounds : ∀ (items : List (Json.Tree ν)) (first : Bool) (offset : Nat),
    ∀ object ∈ sortedSpansItems spell items first offset,
      offset ≤ object.start ∧ object.start < offset + (compactItems spell items first).length
  | [], _, _, object, h => by simp [sortedSpansItems] at h
  | item :: items, first, offset, object, h => by
    have hcomma := length_comma first offset
    have hle := le_skipComma first offset
    simp only [compactItems, length_append]
    rw [sortedSpansItems] at h
    rcases mem_append.mp h with hitem | hrest
    · have hbounds := sortedSpans_bounds item _ object hitem
      omega
    · have hbounds := sortedSpansItems_bounds items false _ object hrest
      omega

theorem sortedSpansEntries_bounds : ∀ (entries : List (Text × Json.Tree ν)) (first : Bool)
    (offset : Nat), ∀ object ∈ sortedSpansEntries spell entries first offset,
      skipComma first offset < object.start ∧
        object.start < offset + (compactEntries spell entries first).length
  | [], _, _, object, h => by simp [sortedSpansEntries] at h
  | (key, value) :: entries, first, offset, object, h => by
    have hcomma := length_comma first offset
    simp only [compactEntries, length_append, length_cons]
    rw [sortedSpansEntries] at h
    simp only [fieldStop, valueStart] at h
    rcases mem_append.mp h with hvalue | hrest
    · have hbounds := sortedSpans_bounds value _ object hvalue
      omega
    · have hbounds := sortedSpansEntries_bounds entries false _ object hrest
      have hle := le_skipComma false (skipComma first offset + (quoted (utf8 key)).length + 1 +
        (compact spell value).length)
      omega

end

variable {position : Nat}

/-- The search for a position meets the first object that starts there or later. -/
theorem getElem?_partitionPoint {before rest : List ObjectSpans}
    (hbefore : ∀ object ∈ before, object.start < position)
    (hrest : ∀ object ∈ rest, position ≤ object.start) :
    (before ++ rest)[partitionPoint (before ++ rest) position]? = rest.head? := by
  have htake : ∀ object ∈ before, decide (object.start < position) = true :=
    fun object hobject => decide_eq_true (hbefore object hobject)
  have hstop : rest.takeWhile (fun object => decide (object.start < position)) = [] := by
    cases rest with
    | nil => rfl
    | cons object rest =>
      have hge := hrest object mem_cons_self
      simp [Nat.not_lt.mpr hge]
  rw [partitionPoint, takeWhile_append_of_pos htake, hstop, append_nil,
    getElem?_append_right (le_refl _), Nat.sub_self, head?_eq_getElem?]

/-! ## Objects that are not inside another one -/

structure Node (ν : Type) where
  entries : List (Text × Json.Tree ν)
  offset : Nat

def Node.stop (node : Node ν) : Nat :=
  node.offset + (compact spell (.obj node.entries)).length

def Node.spans (node : Node ν) : List ObjectSpans :=
  sortedSpans spell (.obj node.entries) node.offset

mutual

def outermost : Json.Tree ν → Nat → List (Node ν)
  | .arr items, offset => outermostItems items true (offset + 1)
  | .obj entries, offset => [⟨entries, offset⟩]
  | _, _ => []

def outermostItems : List (Json.Tree ν) → Bool → Nat → List (Node ν)
  | [], _, _ => []
  | item :: items, first, offset =>
    outermost item (skipComma first offset) ++
      outermostItems items false (skipComma first offset + (compact spell item).length)

end

mutual

theorem sortedSpans_eq_flatMap : ∀ (value : Json.Tree ν) (offset : Nat),
    sortedSpans spell value offset =
      (outermost spell value offset).flatMap (Node.spans spell)
  | .null, _ | .bool _, _ | .num _, _ | .str _, _ => rfl
  | .arr items, offset => by
    rw [sortedSpans, outermost]
    exact sortedSpansItems_eq_flatMap items true (offset + 1)
  | .obj entries, offset => by
    simp [outermost, Node.spans]

theorem sortedSpansItems_eq_flatMap : ∀ (items : List (Json.Tree ν)) (first : Bool) (offset : Nat),
    sortedSpansItems spell items first offset =
      (outermostItems spell items first offset).flatMap (Node.spans spell)
  | [], _, _ => rfl
  | item :: items, first, offset => by
    rw [sortedSpansItems, outermostItems, flatMap_append, sortedSpans_eq_flatMap item,
      sortedSpansItems_eq_flatMap items]

end

def Within (text : Bytes) : List (Node ν) → Nat → Nat → Prop
  | [], position, stop => position ≤ stop ∧ stop ≤ text.length
  | node :: nodes, position, stop =>
    position ≤ node.offset ∧ OccursAt text node.offset (compact spell (.obj node.entries)) ∧
      Within text nodes (node.stop spell) stop

/-- The text of a range with every outermost object replaced by its sorted text. -/
def splice (text : Bytes) : List (Node ν) → Nat → Nat → Bytes
  | [], position, stop => slice text position stop
  | node :: nodes, position, stop =>
    slice text position node.offset ++ compact spell (Tree.obj node.entries).sorted ++
      splice text nodes (node.stop spell) stop

variable {spell}

variable {text : Bytes}

theorem Within.le : ∀ {nodes : List (Node ν)} {position stop : Nat},
    Within spell text nodes position stop → position ≤ stop ∧ stop ≤ text.length
  | [], _, _, h => h
  | node :: nodes, position, stop, h => by
    obtain ⟨hle, -, hrest⟩ := h
    have hstop := hrest.le
    simp only [Node.stop] at hstop
    omega

variable {nodes : List (Node ν)} {stop : Nat}

theorem Within.earlier {start : Nat} (h : Within spell text nodes position stop)
    (hle : start ≤ position) : Within spell text nodes start stop := by
  cases nodes with
  | nil | cons node nodes => exact ⟨hle.trans h.1, h.2⟩

theorem splice_advance {start : Nat} (h : Within spell text nodes position stop)
    (hle : start ≤ position) :
    splice spell text nodes start stop =
      slice text start position ++ splice spell text nodes position stop := by
  cases nodes with
  | nil => exact (slice_append_slice hle h.1).symm
  | cons node nodes =>
    rw [splice, splice, ← slice_append_slice hle h.1]
    simp

theorem Node.spans_bounds (node : Node ν) : ∀ object ∈ node.spans spell,
    node.offset ≤ object.start ∧ object.start < node.stop spell :=
  sortedSpans_bounds spell (.obj node.entries) node.offset

theorem Within.starts : ∀ {nodes : List (Node ν)} {position stop : Nat},
    Within spell text nodes position stop →
    ∀ object ∈ nodes.flatMap (Node.spans spell), position ≤ object.start
  | [], _, _, _, object, h => by simp at h
  | node :: nodes, position, stop, hwithin, object, h => by
    obtain ⟨hle, -, hrest⟩ := hwithin
    rw [flatMap_cons] at h
    rcases mem_append.mp h with hnode | hlater
    · exact hle.trans (node.spans_bounds object hnode).1
    · have hstart := hrest.starts object hlater
      simp only [Node.stop] at hstart
      omega

theorem splice_scalar {value : Json.Tree ν} {offset : Nat}
    (hnone : outermost spell value offset = []) (hsorted : value.sorted = value)
    (hocc : OccursAt text offset (compact spell value))
    (h : Within spell text nodes (offset + (compact spell value).length) stop) :
    splice spell text (outermost spell value offset ++ nodes) offset stop =
      compact spell value.sorted ++
        splice spell text nodes (offset + (compact spell value).length) stop := by
  rw [hnone, hsorted, nil_append, splice_advance h (Nat.le_add_right _ _), hocc.slice_eq]

mutual

/-- The outermost objects of a value lie in its text, and splicing them sorts it. -/
theorem splice_outermost {text : Bytes} : ∀ (value : Json.Tree ν) (offset : Nat)
    (nodes : List (Node ν)) (stop : Nat), OccursAt text offset (compact spell value) →
    Within spell text nodes (offset + (compact spell value).length) stop →
    Within spell text (outermost spell value offset ++ nodes) offset stop ∧
      splice spell text (outermost spell value offset ++ nodes) offset stop =
        compact spell value.sorted ++
          splice spell text nodes (offset + (compact spell value).length) stop
  | .null, _, _, _, hocc, h | .bool _, _, _, _, hocc, h | .num _, _, _, _, hocc, h
  | .str _, _, _, _, hocc, h => ⟨h.earlier (Nat.le_add_right _ _), splice_scalar rfl rfl hocc h⟩
  | .arr items, offset, nodes, stop, hocc, h => by
    rw [compact] at hocc
    have hlength : offset + (compact spell (.arr items)).length =
        offset + 1 + (compactItems spell items true).length + 1 := by
      simp only [compact, length_cons, length_append, length_nil]
      omega
    rw [hlength] at h ⊢
    obtain ⟨hwithin, hsplice⟩ := splice_outermostItems items true (offset + 1) nodes stop
      (occursAt_inside hocc) (h.earlier (Nat.le_succ _))
    refine ⟨hwithin.earlier (Nat.le_succ offset), ?_⟩
    -- the brackets are text in front of the items and in front of what follows
    have hopen : slice text offset (offset + 1) = [0x5b] :=
      (show OccursAt text offset ([0x5b] ++ _) from hocc).left.slice_eq
    have hclose : slice text (offset + 1 + (compactItems spell items true).length)
        (offset + 1 + (compactItems spell items true).length + 1) = [0x5d] :=
      (show OccursAt text offset ([0x5b] ++ _) from hocc).right.right.slice_eq
    rw [outermost, splice_advance hwithin (Nat.le_succ offset), hopen, hsplice,
      splice_advance h (Nat.le_succ _), hclose, Tree.sorted, compact]
    simp
  | .obj entries, offset, nodes, stop, hocc, h =>
    ⟨⟨le_refl _, hocc, h⟩, by simp [outermost, splice, slice_self, Node.stop]⟩

theorem splice_outermostItems {text : Bytes} : ∀ (items : List (Json.Tree ν)) (first : Bool)
    (offset : Nat) (nodes : List (Node ν)) (stop : Nat),
    OccursAt text offset (compactItems spell items first) →
    Within spell text nodes (offset + (compactItems spell items first).length) stop →
    Within spell text (outermostItems spell items first offset ++ nodes) offset stop ∧
      splice spell text (outermostItems spell items first offset ++ nodes) offset stop =
        compactItems spell (Tree.sortedItems items) first ++
          splice spell text nodes (offset + (compactItems spell items first).length) stop
  | [], _, offset, nodes, stop, _, h =>
    ⟨h, by simp [outermostItems, Tree.sortedItems, compactItems]⟩
  | item :: items, first, offset, nodes, stop, hocc, h => by
    obtain ⟨hitem, hrest⟩ := occursAt_item spell hocc
    have hlength : offset + (compactItems spell (item :: items) first).length =
        skipComma first offset + (compact spell item).length +
          (compactItems spell items false).length := by
      have hcomma := length_comma first offset
      simp only [compactItems, length_append]
      omega
    rw [hlength] at h ⊢
    obtain ⟨htail, hspliceTail⟩ := splice_outermostItems items false _ nodes stop hrest h
    obtain ⟨hall, hsplice⟩ := splice_outermost item _ _ stop hitem htail
    rw [outermostItems, append_assoc]
    refine ⟨hall.earlier (le_skipComma first offset), ?_⟩
    have hcomma : slice text offset (skipComma first offset) = if first then [] else [0x2c] := by
      rw [compactItems, append_assoc] at hocc
      rw [← length_comma]
      exact hocc.left.slice_eq
    rw [splice_advance hall (le_skipComma first offset), hcomma, hsplice, hspliceTail,
      Tree.sortedItems, compactItems]
    simp

end

/-! ## The copy -/

/-- Copying the range that ends with a value gives the text in front of the value
and its sorted text. -/
def Copies (spell : ν → Bytes) (value : Json.Tree ν) : Prop :=
  ∀ (text : Bytes) (objects before after : List ObjectSpans) (offset start fuel : Nat)
    (out : Bytes), OccursAt text offset (compact spell value) →
    objects = before ++ sortedSpans spell value offset ++ after →
    (∀ object ∈ before, object.start < start) → start ≤ offset →
    (∀ object ∈ after, offset + (compact spell value).length ≤ object.start) →
    2 * (sortedSpans spell value offset).length + 2 ≤ fuel →
    copySortedRange fuel text objects start (offset + (compact spell value).length) out =
      some (out ++ slice text start offset ++ compact spell value.sorted)

theorem sortedSpansEntries_split : ∀ (entries : List (Text × Json.Tree ν)) (first : Bool)
    (offset : Nat), ∀ pair ∈ placed spell entries first offset, ∃ left right,
      sortedSpansEntries spell entries first offset =
        left ++ sortedSpans spell pair.1.2 (valueStart pair.1.1 pair.2.start) ++ right ∧
      (∀ object ∈ left, object.start < pair.2.start) ∧
      (∀ object ∈ right, pair.2.stop ≤ object.start)
  | [], _, _, pair, hpair => by simp [placed] at hpair
  | (key, value) :: entries, first, offset, pair, hpair => by
    rw [placed_cons] at hpair
    rcases mem_cons.mp hpair with rfl | hmem
    · refine ⟨[], _, rfl, by simp, ?_⟩
      intro object hobject
      have hbounds := sortedSpansEntries_bounds spell entries false _ object hobject
      have hle := le_skipComma false (fieldStop spell key value (skipComma first offset))
      exact (hle.trans_lt hbounds.1).le
    · obtain ⟨left, right, hsplit, hleft, hright⟩ :=
        sortedSpansEntries_split entries false _ pair hmem
      have hstart := start_placed spell pair hmem
      have hle := le_skipComma false (fieldStop spell key value (skipComma first offset))
      refine ⟨sortedSpans spell value (valueStart key (skipComma first offset)) ++ left, right,
        ?_, ?_, hright⟩
      · rw [sortedSpansEntries, hsplit]
        simp
      · intro object hobject
        rcases mem_append.mp hobject with hvalue | hrest
        · have hbounds := sortedSpans_bounds spell value _ object hvalue
          simp only [fieldStop] at hstart hle
          omega
        · exact hleft object hrest

theorem stop_placed : ∀ {entries : List (Text × Json.Tree ν)} {first : Bool} {offset : Nat},
    ∀ pair ∈ placed spell entries first offset,
      pair.2.stop ≤ offset + (compactEntries spell entries first).length
  | [], _, _, pair, hpair => by simp [placed] at hpair
  | (key, value) :: entries, first, offset, pair, hpair => by
    have hcomma := length_comma first offset
    simp only [compactEntries, length_append, length_cons]
    rw [placed_cons] at hpair
    rcases mem_cons.mp hpair with rfl | hmem
    · simp only [fieldStop, valueStart]
      omega
    · have hlater := stop_placed pair hmem
      simp only [fieldStop, valueStart] at hlater
      omega

theorem copyFields_eq {copy : Nat → Nat → Bytes → Option Bytes} :
    ∀ (pairs : List ((Text × Json.Tree ν) × Field)) (first : Bool) (out : Bytes),
    (∀ pair ∈ pairs, ∀ out, copy pair.2.start pair.2.stop out =
      some (out ++ (quoted (utf8 pair.1.1) ++ 0x3a :: compact spell pair.1.2.sorted))) →
    copyFields copy (pairs.map Prod.snd) first out =
      some (out ++ compactEntries spell
        ((pairs.map Prod.fst).map fun e => (e.1, e.2.sorted)) first)
  | [], _, out, _ => by simp [copyFields, compactEntries]
  | pair :: pairs, first, out, h => by
    have hrest := fun out => copyFields_eq pairs false out
      fun p hp => h p (mem_cons_of_mem _ hp)
    rw [map_cons, copyFields, h pair mem_cons_self]
    simp only [some_bind, hrest, map_cons, compactEntries]
    cases first <;> simp

theorem copyFields_sortedFields {objects before after : List ObjectSpans} {node : Node ν}
    (fuel : Nat) (out : Bytes) (hcopies : ∀ entry ∈ node.entries, Copies spell entry.2)
    (hnodup : (node.entries.map Prod.fst).Nodup)
    (hocc : OccursAt text node.offset (compact spell (.obj node.entries)))
    (hobjects : objects = before ++ node.spans spell ++ after)
    (hbefore : ∀ object ∈ before, object.start < node.offset)
    (hafter : ∀ object ∈ after, node.stop spell ≤ object.start)
    (hfuel : 2 * (node.spans spell).length ≤ fuel) :
    copyFields (copySortedRange fuel text objects)
        (sortedFields spell node.entries (node.offset + 1)) true out =
      some (out ++ compactEntries spell
        (collectEntries (Tree.sortedEntries node.entries)) true) := by
  rw [sortedFields, collect_sortedEntries spell hnodup true (node.offset + 1)]
  apply copyFields_eq
  intro pair hpair out
  have hmem : pair ∈ placed spell node.entries true (node.offset + 1) :=
    (mem_insertionSort _).mp hpair
  have hentry : pair.1 ∈ node.entries := by
    have hfst := mem_map_of_mem (f := Prod.fst) hmem
    rwa [map_fst_placed] at hfst
  have hat := entryAt_placed spell (occursAt_fields spell hocc) pair hmem
  obtain ⟨left, right, hsplit, hleft, hright⟩ :=
    sortedSpansEntries_split node.entries true (node.offset + 1) pair hmem
  have hstart : node.offset < pair.2.start := start_placed spell pair hmem
  have hstop : pair.2.stop ≤ node.stop spell := by
    have hle := stop_placed pair hmem
    simp only [Node.stop, compact, length_cons, length_append, length_nil]
    omega
  have hend : pair.2.stop = valueStart pair.1.1 pair.2.start + (compact spell pair.1.2).length :=
    hat.stop_eq
  obtain ⟨head, hhead, hspans⟩ : ∃ head : ObjectSpans, head.start = node.offset ∧
      node.spans spell = head :: sortedSpansEntries spell node.entries true (node.offset + 1) :=
    ⟨_, rfl, by rw [Node.spans, sortedSpans]⟩
  rw [hspans, hsplit] at hobjects hfuel
  obtain ⟨hkey, hvalue⟩ := occursAt_value hat.occurs
  have hcopy := hcopies pair.1 hentry text objects (before ++ head :: left) (right ++ after)
    (valueStart pair.1.1 pair.2.start) pair.2.start fuel out hvalue
    (by rw [hobjects]; simp) ?_ (by simp only [valueStart]; omega) ?_ ?_
  · rw [hend, hcopy, hkey]
    simp
  · exact forall_mem_append.mpr ⟨fun object hfar => (hbefore object hfar).trans hstart,
      forall_mem_cons.mpr ⟨hhead.trans_lt hstart, hleft⟩⟩
  · rw [← hend]
    exact forall_mem_append.mpr ⟨hright, fun object hfar => hstop.trans (hafter object hfar)⟩
  · simp only [length_cons, length_append] at hfuel
    omega

theorem copyObjects_nodes {objects after : List ObjectSpans}
    (hafter : ∀ object ∈ after, stop ≤ object.start) :
    ∀ (nodes : List (Node ν)) (before : List ObjectSpans) (position fuel : Nat) (out : Bytes),
    (∀ node ∈ nodes, (∀ entry ∈ node.entries, Copies spell entry.2) ∧
      (node.entries.map Prod.fst).Nodup) →
    objects = before ++ nodes.flatMap (Node.spans spell) ++ after →
    (∀ object ∈ before, object.start < position) →
    Within spell text nodes position stop →
    2 * (nodes.flatMap (Node.spans spell)).length + 1 ≤ fuel →
    copyObjects fuel text objects position (partitionPoint objects position) stop out =
      some (out ++ splice spell text nodes position stop) := by
  intro nodes
  induction nodes with
  | nil =>
    intro before position fuel out _ hobjects hbefore hwithin hfuel
    obtain ⟨fuel, rfl⟩ := Nat.exists_eq_succ_of_ne_zero (by omega : fuel ≠ 0)
    have hrest : ∀ object ∈ after, position ≤ object.start :=
      fun object hobject => hwithin.1.trans (hafter object hobject)
    rw [flatMap_nil, append_nil] at hobjects
    have hnone : objects[partitionPoint objects position]?.filter
        (fun object => decide (object.start < stop)) = none := by
      rw [hobjects, getElem?_partitionPoint hbefore hrest, Option.filter_eq_none_iff]
      intro object hobject
      simp [Nat.not_lt.mpr (hafter object (mem_of_head? hobject))]
    rw [copyObjects, hnone]
    simp only [sliceChecked, if_pos (show position ≤ stop ∧ stop ≤ text.length from hwithin),
      some_bind, splice]
  | cons node nodes ih =>
    intro before position fuel out hnodes hobjects hbefore hwithin hfuel
    obtain ⟨hle, hocc, hrestWithin⟩ := hwithin
    obtain ⟨fuel, rfl⟩ := Nat.exists_eq_succ_of_ne_zero (by omega : fuel ≠ 0)
    have hstopLe := hrestWithin.le
    have hoffset : node.offset < node.stop spell := by
      simp only [Node.stop, compact, length_cons]
      omega
    obtain ⟨head, tail, hspans, hstart, hstop, hfields⟩ : ∃ (head : ObjectSpans) (tail : _),
        node.spans spell = head :: tail ∧ head.start = node.offset ∧
          head.stop = node.stop spell ∧
          head.fields = sortedFields spell node.entries (node.offset + 1) :=
      ⟨_, _, by rw [Node.spans, sortedSpans], rfl, rfl, rfl⟩
    have hlater : ∀ object ∈ nodes.flatMap (Node.spans spell) ++ after,
        node.stop spell ≤ object.start :=
      forall_mem_append.mpr ⟨hrestWithin.starts, fun object hend =>
        hstopLe.1.trans (hafter object hend)⟩
    have hsplit : objects = before ++ node.spans spell ++
        (nodes.flatMap (Node.spans spell) ++ after) := by
      rw [hobjects, flatMap_cons]
      simp
    have hget : objects[partitionPoint objects position]?.filter
        (fun object => decide (object.start < stop)) = some head := by
      rw [hsplit, append_assoc, getElem?_partitionPoint hbefore (forall_mem_append.mpr
        ⟨fun object hnode => hle.trans (node.spans_bounds object hnode).1, fun object hend =>
          hle.trans (hoffset.le.trans (hlater object hend))⟩), hspans]
      have hlt : head.start < stop := by omega
      simp [Option.filter, hlt]
    have hcopyFields := copyFields_sortedFields fuel
      (out ++ slice text position node.offset ++ [0x7b])
      (hnodes node mem_cons_self).1 (hnodes node mem_cons_self).2 hocc hsplit
      (fun object hobject => (hbefore object hobject).trans_le hle) hlater (by
        rw [flatMap_cons, length_append] at hfuel
        omega)
    have hnext := ih (before ++ node.spans spell) (node.stop spell) fuel
      (out ++ slice text position node.offset ++ [0x7b] ++ compactEntries spell
        (collectEntries (Tree.sortedEntries node.entries)) true ++ [0x7d])
      (fun n hn => hnodes n (mem_cons_of_mem _ hn)) (by rw [hsplit]; simp)
      (forall_mem_append.mpr ⟨fun object hfar =>
        (hbefore object hfar).trans_le (hle.trans hoffset.le), fun object hnear =>
        (node.spans_bounds object hnear).2⟩)
      hrestWithin (by
        rw [flatMap_cons, length_append, hspans, length_cons] at hfuel
        omega)
    have hslice : sliceChecked text position node.offset =
        some (slice text position node.offset) := if_pos ⟨hle, by omega⟩
    rw [copyObjects, hget]
    simp only [hstart, hstop, hfields, hslice, some_bind,
      hcopyFields, hnext, splice, Tree.sorted, compact]
    simp

theorem copies_of_outermost {value : Json.Tree ν}
    (h : ∀ offset, ∀ node ∈ outermost spell value offset,
      (∀ entry ∈ node.entries, Copies spell entry.2) ∧ (node.entries.map Prod.fst).Nodup) :
    Copies spell value := by
  intro text objects before after offset start fuel out hocc hobjects hbefore hstart hafter hfuel
  obtain ⟨fuel, rfl⟩ := Nat.exists_eq_succ_of_ne_zero (by omega : fuel ≠ 0)
  have hend : Within spell text [] (offset + (compact spell value).length)
      (offset + (compact spell value).length) := ⟨le_refl _, hocc.end_le⟩
  obtain ⟨hwithin, hsplice⟩ := splice_outermost value offset [] _ hocc hend
  rw [append_nil] at hwithin hsplice
  rw [sortedSpans_eq_flatMap] at hobjects hfuel
  rw [copySortedRange, copyObjects_nodes hafter (outermost spell value offset) before start fuel
    out (h offset) hobjects hbefore (hwithin.earlier hstart) (by omega),
    splice_advance hwithin hstart, hsplice]
  simp [splice, slice_self]

mutual

theorem outermost_copies : ∀ (value : Json.Tree ν), value.Distinct → ∀ offset,
    ∀ node ∈ outermost spell value offset,
      (∀ entry ∈ node.entries, Copies spell entry.2) ∧ (node.entries.map Prod.fst).Nodup
  | .null, _, _, node, hnode | .bool _, _, _, node, hnode | .num _, _, _, node, hnode
  | .str _, _, _, node, hnode => by simp [outermost] at hnode
  | .arr items, h, offset, node, hnode => by
    rw [Tree.Distinct] at h
    rw [outermost] at hnode
    exact outermostItems_copies items h true (offset + 1) node hnode
  | .obj entries, h, offset, node, hnode => by
    rw [Tree.Distinct] at h
    rw [outermost, mem_singleton] at hnode
    subst hnode
    exact ⟨entries_copies entries h.2, h.1⟩

theorem outermostItems_copies : ∀ (items : List (Json.Tree ν)), Tree.DistinctItems items →
    ∀ (first : Bool) (offset : Nat), ∀ node ∈ outermostItems spell items first offset,
      (∀ entry ∈ node.entries, Copies spell entry.2) ∧ (node.entries.map Prod.fst).Nodup
  | [], _, _, _, node, hnode => by simp [outermostItems] at hnode
  | item :: items, h, first, offset, node, hnode => by
    rw [Tree.DistinctItems] at h
    rw [outermostItems] at hnode
    rcases mem_append.mp hnode with hitem | hrest
    · exact outermost_copies item h.1 _ node hitem
    · exact outermostItems_copies items h.2 false _ node hrest

theorem entries_copies : ∀ (entries : List (Text × Json.Tree ν)), Tree.DistinctEntries entries →
    ∀ entry ∈ entries, Copies spell entry.2
  | [], _, entry, hentry => by simp at hentry
  | (_, value) :: entries, h, entry, hentry => by
    rw [Tree.DistinctEntries] at h
    rcases mem_cons.mp hentry with rfl | hrest
    · exact copies_of_outermost (outermost_copies value h.1)
    · exact entries_copies entries h.2 entry hrest

end

/-! ## Canonical texts -/

theorem copies (value : Json.Tree ν) (h : value.Distinct) : Copies spell value :=
  copies_of_outermost (outermost_copies value h)

variable (spell) in
theorem copySortedRange_document (value : Json.Tree ν) (h : value.Distinct) :
    copySortedRange (copyFuel (sortedSpans spell value 0)) (compact spell value)
        (sortedSpans spell value 0) 0 (compact spell value).length [] =
      some (compact spell value.sorted) := by
  have hcopy := copies value h (compact spell value) (sortedSpans spell value 0) [] [] 0 0
    (copyFuel (sortedSpans spell value 0)) [] (occursAt_self _) (by simp) (by simp) (le_refl _)
    (by simp) (le_refl _)
  simpa [slice_self] using hcopy

mutual

theorem length_compact_sorted : ∀ value : Json.Tree ν, value.Distinct →
    (compact spell value.sorted).length = (compact spell value).length
  | .null, _ | .bool _, _ | .num _, _ | .str _, _ => rfl
  | .arr items, h => by
    rw [Tree.Distinct] at h
    simp only [Tree.sorted, compact, length_cons, length_append,
      length_compactItems_sorted items h true]
  | .obj entries, h => by
    rw [Tree.Distinct] at h
    have hnodup : ((Tree.sortedEntries entries).map Prod.fst).Nodup := by
      rw [keys_sortedEntries]
      exact h.1
    have hperm := (perm_collectEntries hnodup).map (entryLength spell)
    rw [entryLength_sorted entries h.2] at hperm
    have hcount := hperm.length_eq
    rw [length_map, length_map] at hcount
    rw [Tree.sorted, length_compact_obj, length_compact_obj, hperm.sum_nat, hcount]

theorem length_compactItems_sorted : ∀ items : List (Json.Tree ν), Tree.DistinctItems items →
    ∀ first, (compactItems spell (Tree.sortedItems items) first).length =
      (compactItems spell items first).length
  | [], _, _ => rfl
  | item :: items, h, first => by
    rw [Tree.DistinctItems] at h
    simp only [Tree.sortedItems, compactItems, length_append,
      length_compact_sorted item h.1, length_compactItems_sorted items h.2]

theorem entryLength_sorted : ∀ entries : List (Text × Json.Tree ν), Tree.DistinctEntries entries →
    (Tree.sortedEntries entries).map (entryLength spell) = entries.map (entryLength spell)
  | [], _ => rfl
  | (key, value) :: entries, h => by
    rw [Tree.DistinctEntries] at h
    simp only [Tree.sortedEntries, map_cons, entryLength, length_compact_sorted value h.1,
      entryLength_sorted entries h.2]

end

variable {decode : Bytes → Option Bytes}

theorem length_sortAllFields : ∀ {objects sorted : List ObjectSpans}
    {changed : Bool}, sortAllFields decode text objects = some (changed, sorted) →
    sorted.length = objects.length
  | [], _, _, h => by
    obtain ⟨-, rfl⟩ := Prod.mk.inj (Option.some.inj h)
    rfl
  | object :: objects, sorted, changed, h => by
    simp only [sortAllFields, Option.bind_eq_bind, Option.bind_eq_some_iff,
      Option.some.injEq, Prod.mk.injEq] at h
    obtain ⟨⟨_, fields⟩, -, ⟨_, rest⟩, hrest, -, rfl⟩ := h
    rw [length_cons, length_cons, length_sortAllFields hrest]

/-- Serializing once, sorting the recorded fields and copying gives the compact
text of the key-sorted tree, both on fresh buffers and on a scratch that held
anything before; its length is that of the unsorted text; and the unsorted buffer
is returned only when it is that text. -/
theorem canonical_encoding (hdecode : ReadsQuoted decode) (spell : ν → Bytes)
    (value : Json.Tree ν) (hdistinct : value.Distinct) (scratch : CanonicalScratch) :
    (∃ encoded changed objects, serializeWithSpans spell value = some encoded ∧
      encoded.bytes = compact spell value ∧
      sortAllFields decode encoded.bytes encoded.objects = some (changed, objects) ∧
      finalize decode encoded = some (compact spell value.sorted) ∧
      (changed = false → compact spell value.sorted = encoded.bytes)) ∧
    (∃ scratch' reordered,
      encodeBlockInto decode spell scratch value = some (scratch', reordered) ∧
      scratch'.encoder.text = compact spell value ∧
      (if reordered then scratch'.sorted else scratch'.encoder.text) =
        compact spell value.sorted ∧
      (reordered = false → compact spell value.sorted = scratch'.encoder.text)) ∧
    canonicalBlockText decode spell scratch value = some (compact spell value.sorted) ∧
    (compact spell value.sorted).length = (compact spell value).length := by
  obtain ⟨changed, hsort, hunmoved⟩ :=
    sortsTo_spans spell hdecode value 0 (occursAt_self (compact spell value))
  have hcopy := copySortedRange_document spell value hdistinct
  have hfresh : ∃ encoded, serializeWithSpans spell value = some encoded ∧
      encoded.bytes = compact spell value ∧ encoded.objects = spans spell value 0 := by
    obtain ⟨encoder, hserialize, hwrote⟩ := serialize_wrote spell value Encoder.new (Nat.zero_le _)
    exact ⟨_, by rw [serializeWithSpans, hserialize]; rfl, hwrote.text_eq, hwrote.live_eq⟩
  have hsame : changed = false → compact spell value.sorted = compact spell value :=
    fun h => by rw [hunmoved h hdistinct]
  have hreused : ∃ scratch',
      encodeBlockInto decode spell scratch value = some (scratch', changed) ∧
      scratch'.encoder.text = compact spell value ∧
      (if changed then scratch'.sorted else scratch'.encoder.text) =
        compact spell value.sorted := by
    obtain ⟨encoder, hserialize, hwrote⟩ :=
      serialize_wrote spell value scratch.encoder.reset (Nat.zero_le _)
    have htext : encoder.text = compact spell value := hwrote.text_eq
    have hlive : encoder.objects.live = spans spell value 0 := hwrote.live_eq
    have hsortLive : sortAllFields decode encoder.text encoder.objects.live =
        some (changed, sortedSpans spell value 0) := by rw [htext, hlive, hsort]
    have hlength : (sortedSpans spell value 0).length = encoder.objects.len := by
      rw [length_sortAllFields hsortLive, ObjectPool.live, length_take,
        Nat.min_eq_left hwrote.sound]
    let pool : ObjectPool :=
      ⟨sortedSpans spell value 0 ++ encoder.objects.items.drop encoder.objects.len,
        encoder.objects.len⟩
    have hpool : pool.live = sortedSpans spell value 0 := by
      show List.take encoder.objects.len (sortedSpans spell value 0 ++ _) = _
      rw [← hlength, take_left]
    cases changed with
    | false =>
      refine ⟨⟨{ encoder with objects := pool }, scratch.sorted⟩, ?_, htext,
        htext.trans (hsame rfl).symm⟩
      rw [encodeBlockInto, hserialize, some_bind, hsortLive]
      rfl
    | true =>
      refine ⟨⟨{ encoder with objects := pool }, compact spell value.sorted⟩, ?_, htext, rfl⟩
      rw [encodeBlockInto, hserialize, some_bind, hsortLive]
      show (copySortedRange (copyFuel pool.live) encoder.text pool.live 0 encoder.text.length
        []).bind _ = _
      rw [hpool, htext, hcopy]
      rfl
  refine ⟨?_, ?_, ?_, length_compact_sorted value hdistinct⟩
  · obtain ⟨encoded, hserialize, hbytes, hobjects⟩ := hfresh
    refine ⟨encoded, changed, sortedSpans spell value 0, hserialize, hbytes, ?_, ?_, ?_⟩
    · rw [hbytes, hobjects, hsort]
    · rw [finalize, hbytes, hobjects, hsort]
      cases changed with
      | false => simp [hsame rfl]
      | true => simpa using hcopy
    · intro h
      rw [hbytes, hsame h]
  · obtain ⟨scratch', hencode, htext, hsorted⟩ := hreused
    exact ⟨scratch', changed, hencode, htext, hsorted, fun h => by rw [htext, hsame h]⟩
  · obtain ⟨scratch', hencode, -, hsorted⟩ := hreused
    rw [canonicalBlockText, hencode]
    exact congrArg some hsorted

/-- An object with an escaped key, a nested object and entries out of order. -/
def sampleDocument : Json.Tree Nat :=
  .obj [(['b'], .obj [(['z'], .num 1), (['y'], .null)]), (['\n'], .num 2), (['a', ' '], .num 3),
    (['a'], .arr [])]

/-- A scratch with stale entries beyond its length. -/
def sampleScratch : CanonicalScratch where
  encoder :=
    { text := [1], objects := ⟨[⟨3, 4, [⟨1, 2, 3⟩]⟩, ⟨5, 6, []⟩], 1⟩, stack := [0], depth := 2
      maxDepth := 2 }
  sorted := [7]

/-- A reader of quoted keys. -/
noncomputable def quotedReader (bytes : Bytes) : Option Bytes :=
  (Function.partialInv (fun key : Text => quoted (utf8 key)) bytes).map utf8

theorem readsQuoted_quotedReader : ReadsQuoted quotedReader := by
  intro key
  have hinjective : Function.Injective fun key : Text => quoted (utf8 key) :=
    fun _ _ h => utf8_inj.mp (quoted_injective h)
  rw [quotedReader, Function.partialInv_left hinjective, Option.map_some]

theorem canonical_encoding_sample :
    sampleDocument.Distinct ∧
      canonicalBlockText quotedReader (fun n => [0x30 + UInt8.ofNat n]) sampleScratch
          sampleDocument =
        some (compact (fun n => [0x30 + UInt8.ofNat n]) sampleDocument.sorted) := by
  have hdistinct : sampleDocument.Distinct := by
    simp [sampleDocument, Tree.Distinct, Tree.DistinctEntries, Tree.DistinctItems]
  exact ⟨hdistinct, (canonical_encoding readsQuoted_quotedReader _ sampleDocument hdistinct
    sampleScratch).2.2.1⟩

end Eidnara.Daemon.ServedJson
