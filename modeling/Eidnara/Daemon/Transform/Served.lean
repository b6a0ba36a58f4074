import Eidnara.Daemon.Transform.Render
import Eidnara.Daemon.Wire.Arcs

/-!
# Which blocks are served

For an accepted projection, whether and how a block is served follows from the block alone: its
message's status, whether its provider call id is dropped in full, and the unit that rewrites it.
-/

namespace Eidnara.Daemon.Transform

open List

open CacheStability (FrozenUnit)
open Lib Selection Wire

variable {J : Type} {surface : Surface J} {settings : OutputSettings} {units : List FrozenUnit}
  {blocks : List (FlatBlock J)}

/-! ## Updating block by block -/

section

variable {update : FlatBlock J → WireBlock J → WireBlock J} {messageBlocks : List (FlatBlock J)}
  {content : List (WireBlock J)}

theorem length_updateBlocks :
    (updateBlocks update messageBlocks content).length = content.length := by
  unfold updateBlocks
  induction messageBlocks generalizing content with
  | nil => rfl
  | cons block rest ih => rw [foldl_cons, ih, length_modify]

theorem getElem?_updateBlocks_of_ne {k : Nat} (h : ∀ block ∈ messageBlocks, block.blockIndex ≠ k) :
    (updateBlocks update messageBlocks content)[k]? = content[k]? := by
  unfold updateBlocks
  induction messageBlocks generalizing content with
  | nil => rfl
  | cons block rest ih =>
    rw [foldl_cons, ih fun other hother => h other (mem_cons_of_mem _ hother),
      getElem?_modify_ne _ _ (h block mem_cons_self)]

theorem getElem?_updateBlocks (hnodup : (messageBlocks.map (·.blockIndex)).Nodup)
    {block : FlatBlock J} (hblock : block ∈ messageBlocks) :
    (updateBlocks update messageBlocks content)[block.blockIndex]? =
      content[block.blockIndex]?.map (update block) := by
  unfold updateBlocks
  induction messageBlocks generalizing content with
  | nil => cases hblock
  | cons first rest ih =>
    obtain ⟨hnot, hrest⟩ := nodup_cons.mp hnodup
    rw [foldl_cons]
    rcases mem_cons.mp hblock with rfl | hmem
    · refine (getElem?_updateBlocks_of_ne fun other hother heq => ?_).trans
        (getElem?_modify_eq _ _ _)
      exact hnot (mem_map.mpr ⟨other, hother, heq⟩)
    · rw [ih hrest hmem, getElem?_modify_ne]
      exact fun heq => hnot (mem_map.mpr ⟨block, hmem, heq.symm⟩)

end

/-! ## Without strip units -/

def ReductionUnits (units : List FrozenUnit) : Prop :=
  ∀ unit ∈ units, ∃ target, unit.key = redKey target

theorem stripUnit_eq_none (hred : ReductionUnits units) (kind target : String) :
    stripUnit units kind target = none := by
  refine find?_eq_none.mpr fun unit hunit hkey => ?_
  obtain ⟨name, hname⟩ := hred unit hunit
  have hlist := congrArg String.toList (hname.symm.trans (of_decide_eq_true hkey))
  simp [redKey] at hlist

theorem applySurfaceStrips_eq (hred : ReductionUnits units) {message : IngressMessage J}
    {messageBlocks : List (FlatBlock J)} {content : List (WireBlock J)} :
    applySurfaceStrips surface settings units message messageBlocks content =
      updateBlocks (strippedBlock surface settings units message.mid message.role) messageBlocks
        content := by
  simp [applySurfaceStrips, stripUnit_eq_none hred]

theorem renderContent_eq (hred : ReductionUnits units) {message : IngressMessage J}
    {messageBlocks : List (FlatBlock J)} :
    renderContent surface settings units blocks message messageBlocks =
      rebuiltContent surface settings units blocks message messageBlocks := by
  simp [renderContent, removeFrozenHistoricalReasoning, stripUnit_eq_none hred]

/-- The block is none of those that the strips change without a unit. -/
def Unstripped (surface : Surface J) (settings : OutputSettings) (block : FlatBlock J) : Prop :=
  (settings.requestAcceptsEmptyContent = true → isStructuralNoise block.wire.kind = false) ∧
    (settings.aged block.mid block.role = true →
      (settings.requestAcceptsEmptyContent = true → isTypedReasoning block.wire.kind = false) ∧
        ∀ text, block.wire.kind = .text text → surface.inlineThinkingReplacement text = text)

variable {block : FlatBlock J}

theorem unstripped_of_tool (h : block.wire.kind.toolCallId.isSome) :
    Unstripped surface settings block := by
  unfold Unstripped
  cases hkind : block.wire.kind <;>
    simp_all [BlockKind.toolCallId, isStructuralNoise, isTypedReasoning]

theorem strippedKind_eq_none (hred : ReductionUnits units)
    (himage : imageUnit units block.id = false) (h : Unstripped surface settings block) :
    strippedKind surface settings units block.mid block.role block = none := by
  obtain ⟨hnoise, haged⟩ := h
  unfold strippedKind
  simp only [stripUnit_eq_none hred, himage]
  cases hempty : settings.requestAcceptsEmptyContent <;>
    cases hage : settings.aged block.mid block.role <;>
    cases hkind : block.wire.kind <;> simp_all [isTypedReasoning]

theorem isToolCall_of_strippedKind {mid role : String} {kind : BlockKind J}
    (h : strippedKind surface settings units mid role block = some kind) :
    kind.isToolCall = false := by
  unfold strippedKind at h
  simp only at h
  split at h
  · obtain rfl := Option.some.inj h
    rfl
  · split_ifs at h
    · obtain rfl := Option.some.inj h
      rfl
    · obtain rfl := Option.some.inj h
      rfl
    · split at h
      · split_ifs at h
        obtain rfl := Option.some.inj h
        rfl
      · cases h

theorem tool_renderedBlock {ineligible : List String} :
    (renderedBlock surface units ineligible block block.wire).kind.isToolCall =
        block.wire.kind.isToolCall ∧
      (renderedBlock surface units ineligible block block.wire).kind.toolCallId =
        block.wire.kind.toolCallId := by
  unfold renderedBlock reducedBlock
  split
  · cases hkind : block.wire.kind <;> exact ⟨rfl, rfl⟩
  · exact ⟨rfl, rfl⟩

/-! ## Served blocks -/

/-- Whether a block's provider call id is dropped in full. -/
def removed (settings : OutputSettings) (units : List FrozenUnit) (blocks : List (FlatBlock J))
    (block : FlatBlock J) : Bool :=
  block.wire.kind.toolCallId.any
    (· ∈ fullDropToolIds units blocks (ineligibleArcs settings blocks))

def openBlock (surface : Surface J) (settings : OutputSettings) (units : List FrozenUnit)
    (blocks : List (FlatBlock J)) (block : FlatBlock J) : WireBlock J :=
  strippedBlock surface settings units block.mid block.role block
    (renderedBlock surface units (ineligibleArcs settings blocks) block block.wire)

def servedBlock (surface : Surface J) (settings : OutputSettings) (units : List FrozenUnit)
    (blocks : List (FlatBlock J)) (block : FlatBlock J) : Option (WireBlock J) :=
  if block.synthetic || !settings.isOutput block.mid block.ordinal then none
  else if settings.mutationExempt block.mid then some block.wire
  else if removed settings units blocks block then none
  else some (openBlock surface settings units blocks block)

def ServedMessage.Holds (message : ServedMessage J) (block : FlatBlock J) (wire : WireBlock J) :
    Prop :=
  message.mid = block.mid ∧ (wire, block.blockIndex) ∈ message.content

variable {message : IngressMessage J} {flats : List (FlatBlock J)} {flat : FlatBlock J}

theorem mem_dropIndexes (hgroup : IsGroup message message.synthetic flats) (hflat : flat ∈ flats)
    {fullDropIds : List String} :
    flat.blockIndex ∈ dropIndexes fullDropIds flats ↔
      flat.wire.kind.toolCallId.any (· ∈ fullDropIds) = true := by
  unfold dropIndexes
  rw [mem_map]
  constructor
  · rintro ⟨other, hother, hindex⟩
    obtain ⟨hmem, hdropped⟩ := mem_filter.mp hother
    have heq := hgroup.eq_of_blockIndex hmem hflat hindex
    rwa [heq] at hdropped
  · intro hdropped
    exact ⟨flat, mem_filter.mpr ⟨hflat, hdropped⟩, rfl⟩

variable {wire : WireBlock J}

theorem mem_renderContent (hred : ReductionUnits units)
    (hgroup : IsGroup message message.synthetic flats) (hflat : flat ∈ flats) :
    (wire, flat.blockIndex) ∈ renderContent surface settings units blocks message flats ↔
      (if settings.mutationExempt message.mid then some flat.wire
        else if removed settings units blocks flat then none
        else some (openBlock surface settings units blocks flat)) = some wire := by
  have hisFlat := hgroup.isFlat_of_mem hflat
  have hsome : flats.isEmpty = false := by simpa using ne_nil_of_mem hflat
  rw [renderContent_eq hred, rebuiltContent, hsome, Bool.or_false]
  split_ifs with hexempt hremoved
  · rw [mem_zipIdx_iff_getElem?, hisFlat.wire_eq]
  · simp only [mem_filter, decide_eq_true_eq, iff_false, not_and, not_not]
    exact fun _ => (mem_dropIndexes hgroup hflat).mpr hremoved
  · have hkept : flat.blockIndex ∉ dropIndexes
        (fullDropToolIds units blocks (ineligibleArcs settings blocks)) flats :=
      fun hmem => hremoved ((mem_dropIndexes hgroup hflat).mp hmem)
    simp only [mem_filter, decide_eq_true_eq, hkept, not_false_eq_true, and_true]
    rw [mem_zipIdx_iff_getElem?, applySurfaceStrips_eq hred,
      getElem?_updateBlocks hgroup.nodup_blockIndex hflat,
      getElem?_updateBlocks hgroup.nodup_blockIndex hflat, hisFlat.wire_eq, openBlock,
      hisFlat.mid_eq, hisFlat.role_eq]
    rfl

def renderOutput (surface : Surface J) (settings : OutputSettings) (units : List FrozenUnit)
    (blocks : List (FlatBlock J)) (message : IngressMessage J) : Option (ServedMessage J) :=
  if !message.synthetic && settings.isOutput message.mid message.ordinal then
    renderMessage surface settings units blocks message
  else none

theorem renderTail_eq (messages : List (IngressMessage J)) :
    renderTail surface settings units blocks messages =
      messages.filterMap (renderOutput surface settings units blocks) := by
  rw [renderTail, filterMap_filter]
  rfl

/-- Where the served list is cut, the messages are cut: those up to the cut are served up to it. -/
theorem renderTail_eq_append {messages : List (IngressMessage J)}
    {before after : List (ServedMessage J)} {served : ServedMessage J}
    (h : renderTail surface settings units blocks messages = before ++ served :: after) :
    ∃ front message rest, messages = front ++ message :: rest ∧
      renderOutput surface settings units blocks message = some served ∧
      ∀ other ∈ front ++ [message], ∀ out,
        renderOutput surface settings units blocks other = some out → out ∈ before ++ [served] := by
  rw [renderTail_eq, filterMap_eq_append_iff] at h
  obtain ⟨front, back, rfl, hfront, hback⟩ := h
  obtain ⟨skipped, message, rest, rfl, hskipped, hrender, -⟩ := filterMap_eq_cons_iff.mp hback
  refine ⟨front ++ skipped, message, rest, (append_assoc _ _ _).symm, hrender, ?_⟩
  intro other hother out hout
  rcases mem_append.mp hother with hother | hother
  · rcases mem_append.mp hother with hother | hother
    · refine mem_append_left _ ?_
      rw [← hfront]
      exact mem_filterMap.mpr ⟨other, hother, hout⟩
    · rw [hskipped other hother] at hout
      cases hout
  · rw [mem_singleton.mp hother, hrender] at hout
    exact mem_append_right _ (mem_singleton.mpr (Option.some.inj hout).symm)

theorem renderOutput_holds (hred : ReductionUnits units)
    (hgroup : IsGroup message message.synthetic flats)
    (hflats : blocks.filter (·.mid = message.mid) = flats) (hflat : flat ∈ flats) :
    (∃ served, renderOutput surface settings units blocks message = some served ∧
        served.Holds flat wire) ↔
      servedBlock surface settings units blocks flat = some wire := by
  have hisFlat := hgroup.isFlat_of_mem hflat
  have hcontent : (wire, flat.blockIndex) ∈
      renderContent surface settings units blocks message flats ↔ _ :=
    mem_renderContent hred hgroup hflat
  unfold servedBlock renderOutput
  rw [hisFlat.synthetic_eq, hisFlat.mid_eq, hisFlat.ordinal_eq]
  have hskipped : (message.synthetic || !settings.isOutput message.mid message.ordinal) =
      !(!message.synthetic && settings.isOutput message.mid message.ordinal) := by simp
  rw [hskipped]
  cases !message.synthetic && settings.isOutput message.mid message.ordinal with
  | false => simp
  | true =>
    rw [if_pos rfl, if_neg (by simp), ← hcontent]
    unfold renderMessage
    simp only [hflats]
    constructor
    · rintro ⟨served, hserved, hmid, hmem⟩
      split_ifs at hserved
      cases hserved
      exact hmem
    · intro hmem
      have hne : (renderContent surface settings units blocks message flats).isEmpty = false := by
        simpa using ne_nil_of_mem hmem
      exact ⟨_, by rw [hne, Bool.false_and, if_neg (by simp)], hisFlat.mid_eq.symm, hmem⟩

theorem mid_of_renderOutput {served : ServedMessage J}
    (h : renderOutput surface settings units blocks message = some served) :
    served.mid = message.mid := by
  unfold renderOutput renderMessage at h
  simp only at h
  split_ifs at h
  cases h
  rfl

variable {codec : Codec J} {messages : List (IngressMessage J)}

/-- A block is served with what its own message renders. -/
theorem exists_renderOutput_iff (hred : ReductionUnits units)
    (h : projectMessages codec messages = .ok blocks) (hflat : flat ∈ blocks)
    (hmessage : message ∈ messages) (hmid : flat.mid = message.mid) :
    (∃ served, renderOutput surface settings units blocks message = some served ∧
        served.Holds flat wire) ↔
      servedBlock surface settings units blocks flat = some wire := by
  obtain ⟨groups, rfl, hgrouped⟩ := exists_grouped h
  obtain ⟨before, after, heq⟩ := append_of_mem hmessage
  obtain ⟨gbefore, flats, gafter, -, -, hgroup, hflats⟩ := hgrouped.filter_mid heq
  refine renderOutput_holds hred hgroup hflats ?_
  rw [← hflats]
  exact mem_filter.mpr ⟨hflat, by simpa using hmid⟩

theorem exists_rendered_iff (hred : ReductionUnits units)
    (h : projectMessages codec messages = .ok blocks) (hflat : flat ∈ blocks) :
    (∃ served ∈ renderTail surface settings units blocks messages, served.Holds flat wire) ↔
      servedBlock surface settings units blocks flat = some wire := by
  obtain ⟨groups, rfl, hgrouped⟩ := exists_grouped h
  obtain ⟨message, hmessage, others, -, -, -, hisFlat⟩ := hgrouped.isFlat_of_mem hflat
  rw [← exists_renderOutput_iff hred h hflat hmessage hisFlat.mid_eq, renderTail_eq]
  constructor
  · rintro ⟨served, hserved, hholds⟩
    obtain ⟨other, hother, hrender⟩ := mem_filterMap.mp hserved
    have hmid : other.mid = message.mid := by
      rw [← mid_of_renderOutput hrender, hholds.1, hisFlat.mid_eq]
    rw [hgrouped.message_eq hother hmessage hmid] at hrender
    exact ⟨served, hrender, hholds⟩
  · rintro ⟨served, hrender, hholds⟩
    exact ⟨served, mem_filterMap.mpr ⟨message, hmessage, hrender⟩, hholds⟩

/-! ## One call per provider id -/

def Apart (x y : BlockKind J) : Prop :=
  x.isToolCall = true → y.isToolCall = true → x.toolCallId ≠ y.toolCallId

theorem duplicateCalls_eq_nil {seen : List String} {positions : List (BlockKind J × Nat × Nat)}
    (h : positions.Pairwise fun x y => Apart x.1 y.1)
    (hseen : ∀ x ∈ positions, x.1.isToolCall = true → ∀ id ∈ seen, x.1.toolCallId ≠ some id) :
    duplicateCalls seen positions = [] := by
  induction positions generalizing seen with
  | nil => rfl
  | cons x rest ih =>
    obtain ⟨hx, hrest⟩ := pairwise_cons.mp h
    obtain ⟨kind, position⟩ := x
    cases kind with
    | toolCall id name input executed =>
      have hnot : id ∉ seen := fun hid => hseen _ mem_cons_self rfl id hid rfl
      rw [duplicateCalls, if_neg hnot]
      refine ih hrest fun y hy hcall other hother => ?_
      rcases mem_cons.mp hother with rfl | hother
      · exact fun heq => hx y hy rfl hcall heq.symm
      · exact hseen y (mem_cons_of_mem _ hy) hcall other hother
    | _ => exact ih hrest fun y hy => hseen y (mem_cons_of_mem _ hy)

theorem map_fst_blockPositions (served : List (ServedMessage J)) :
    (blockPositions served).map Prod.fst = (served.flatMap (·.content)).map (·.1.kind) := by
  have hcontent (content : List (WireBlock J × Nat)) :
      content.zipIdx.map (·.1.1.kind) = content.map (·.1.kind) := by
    conv_rhs => rw [← zipIdx_map_fst 0 content, map_map]
    rfl
  conv_rhs => rw [← zipIdx_map_fst 0 served, flatMap_map, map_flatMap]
  rw [blockPositions, map_flatMap]
  simp only [map_map, Function.comp_def, hcontent]

theorem enforceUniqueToolUseIds_eq_self {served : List (ServedMessage J)}
    (h : (served.flatMap (·.content)).Pairwise fun x y => Apart x.1.kind y.1.kind) :
    enforceUniqueToolUseIds served = served := by
  have hapart : (blockPositions served).Pairwise fun x y => Apart x.1 y.1 := by
    rw [← pairwise_map, map_fst_blockPositions, pairwise_map]
    exact h
  have hnone : duplicateToolUseLocations served = [] :=
    duplicateCalls_eq_nil hapart fun _ _ _ id hid => by cases hid
  simp [enforceUniqueToolUseIds, hnone, zipIdx_map_fst]

def CallsOwnIds (blocks : List (FlatBlock J)) : Prop :=
  ∀ a ∈ blocks, ∀ b ∈ blocks, a.isToolCall = true → b.isToolCall = true →
    a.wire.kind.toolCallId = b.wire.kind.toolCallId → a = b

theorem toolCallId_openBlock
    (h : (openBlock surface settings units blocks flat).kind.isToolCall = true) :
    flat.isToolCall = true ∧
      (openBlock surface settings units blocks flat).kind.toolCallId =
        flat.wire.kind.toolCallId := by
  unfold openBlock strippedBlock at h ⊢
  cases hkind : strippedKind surface settings units flat.mid flat.role flat with
  | none =>
    rw [hkind] at h
    obtain ⟨hcall, hid⟩ := tool_renderedBlock
    exact ⟨hcall.symm.trans h, hid⟩
  | some kind =>
    rw [hkind, Option.getD_some, isToolCall_of_strippedKind hkind] at h
    cases h

theorem index_lt_of_mem_rebuiltContent (hred : ReductionUnits units) {entry : WireBlock J × Nat}
    (h : entry ∈ rebuiltContent surface settings units blocks message flats) :
    entry.2 < message.content.length := by
  unfold rebuiltContent at h
  split_ifs at h
  · exact snd_lt_of_mem_zipIdx h
  · have hlt := snd_lt_of_mem_zipIdx (mem_filter.mp h).1
    rwa [applySurfaceStrips_eq hred, length_updateBlocks, length_updateBlocks] at hlt

theorem nodup_rebuiltContent :
    ((rebuiltContent surface settings units blocks message flats).map Prod.snd).Nodup := by
  have hnodup (content : List (WireBlock J)) : (content.zipIdx.map Prod.snd).Nodup := by
    rw [zipIdx_map_snd]
    exact nodup_range'
  unfold rebuiltContent
  split_ifs
  · exact hnodup _
  · exact (hnodup _).sublist (filter_sublist.map _)

theorem content_of_renderOutput {served : ServedMessage J} (hred : ReductionUnits units)
    (h : renderOutput surface settings units blocks message = some served) :
    served.content = rebuiltContent surface settings units blocks message
      (blocks.filter (·.mid = message.mid)) := by
  rw [← renderContent_eq hred]
  unfold renderOutput renderMessage at h
  simp only at h
  split_ifs at h
  cases h
  rfl

/-- A served call was a call when it came in. -/
theorem exists_call_of_entry (hred : ReductionUnits units)
    (h : projectMessages codec messages = .ok blocks) (hmessage : message ∈ messages)
    {served : ServedMessage J}
    (hrender : renderOutput surface settings units blocks message = some served)
    {entry : WireBlock J × Nat} (hentry : entry ∈ served.content)
    (hcall : entry.1.kind.isToolCall = true) :
    ∃ flat ∈ blocks, flat.mid = message.mid ∧ flat.blockIndex = entry.2 ∧
      flat.isToolCall = true ∧ flat.wire.kind.toolCallId = entry.1.kind.toolCallId := by
  obtain ⟨groups, rfl, hgrouped⟩ := exists_grouped h
  obtain ⟨before, after, heq⟩ := append_of_mem hmessage
  obtain ⟨gbefore, flats, gafter, -, -, hgroup, hflats⟩ := hgrouped.filter_mid heq
  rw [content_of_renderOutput hred hrender, hflats] at hentry
  have hlt : entry.2 < flats.length := hgroup.length_eq ▸ index_lt_of_mem_rebuiltContent hred hentry
  have hisFlat := hgroup.isFlat entry.2 _ (getElem?_eq_getElem hlt)
  have hmem : flats[entry.2] ∈ flats := getElem_mem hlt
  have hblock : flats[entry.2] ∈ groups.flatten := by
    have hfilter : flats[entry.2] ∈ groups.flatten.filter (·.mid = message.mid) := hflats ▸ hmem
    exact (mem_filter.mp hfilter).1
  refine ⟨flats[entry.2], hblock, hisFlat.mid_eq, hisFlat.index_eq, ?_⟩
  have hentry' : (entry.1, flats[entry.2].blockIndex) ∈
      renderContent surface settings units groups.flatten message flats := by
    rw [hisFlat.index_eq, renderContent_eq hred]
    exact hentry
  rw [mem_renderContent hred hgroup hmem] at hentry'
  split_ifs at hentry'
  · rw [Option.some.inj hentry']
    exact ⟨(congrArg (·.kind.isToolCall) (Option.some.inj hentry')).trans hcall, rfl⟩
  · rw [← Option.some.inj hentry'] at hcall ⊢
    obtain ⟨hisCall, hid⟩ := toolCallId_openBlock hcall
    exact ⟨hisCall, hid.symm⟩

/-- Where every call has an id of its own, no call is a duplicate. -/
theorem buildOutput_eq (hred : ReductionUnits units)
    (h : projectMessages codec messages = .ok blocks) (hids : CallsOwnIds blocks) :
    buildOutput surface settings units blocks messages =
      renderTail surface settings units blocks messages := by
  refine enforceUniqueToolUseIds_eq_self (pairwise_flatMap.mpr ⟨fun served hserved => ?_, ?_⟩)
  · rw [renderTail_eq] at hserved
    obtain ⟨message, hmessage, hrender⟩ := mem_filterMap.mp hserved
    have hindexes : served.content.Pairwise fun x y => x.2 ≠ y.2 := by
      rw [content_of_renderOutput hred hrender]
      exact pairwise_map.mp nodup_rebuiltContent
    refine hindexes.imp_of_mem fun {x y} hx hy hne hcallx hcally hid => hne ?_
    obtain ⟨a, ha, -, hindexa, hcalla, hida⟩ :=
      exists_call_of_entry hred h hmessage hrender hx hcallx
    obtain ⟨b, hb, -, hindexb, hcallb, hidb⟩ :=
      exists_call_of_entry hred h hmessage hrender hy hcally
    rw [← hindexa, ← hindexb, hids a ha b hb hcalla hcallb (by rw [hida, hidb, hid])]
  · rw [renderTail_eq]
    obtain ⟨groups, -, hgrouped⟩ := exists_grouped h
    have hmids : messages.Pairwise fun x y => x.mid ≠ y.mid := pairwise_map.mp hgrouped.nodup
    refine pairwise_filterMap.mpr (hmids.imp_of_mem ?_)
    intro m m' hm hm' hne served hrender served' hrender' x hx y hy hcallx hcally hid
    obtain ⟨a, ha, hmida, -, hcalla, hida⟩ := exists_call_of_entry hred h hm hrender hx hcallx
    obtain ⟨b, hb, hmidb, -, hcallb, hidb⟩ := exists_call_of_entry hred h hm' hrender' hy hcally
    refine hne ?_
    rw [← hmida, ← hmidb, hids a ha b hb hcalla hcallb (by rw [hida, hidb, hid])]

end Eidnara.Daemon.Transform
