import Eidnara.Daemon.Wire.Project
import Eidnara.Lib.Framing
import Mathlib.Data.List.Nodup

/-!
# What an accepted projection says about arcs

Every block is listed under its own message, a result joins an arc of a call at or before its
message with its provider id, and blocks of one arc carry one provider id.
-/

namespace Eidnara.Daemon.Wire

open Lib Framing List

variable {J : Type}

/-! ## Arc ids tell their parts -/

theorem toList_blockId (mid : String) (index : Nat) :
    (blockId mid index).toList = mid.toList ++ '#' :: (toString index).toList := by
  simp [blockId]

theorem toList_toolArcId (mid callId : String) :
    (toolArcId mid callId).toList = mid.toList ++ '#' :: ("call:".toList ++ callId.toList) := by
  simp [toolArcId]

variable {mid mid' : String} {index : Nat}

theorem blockId_inj {index' : Nat} (hmid : '#' ∉ mid.toList) (hmid' : '#' ∉ mid'.toList)
    (h : blockId mid index = blockId mid' index') : mid = mid' ∧ index = index' := by
  have hlist := congrArg String.toList h
  rw [toList_blockId, toList_blockId] at hlist
  obtain ⟨hmids, hindexes⟩ := append_separator_inj hmid hmid' hlist
  exact ⟨String.toList_inj.mp hmids, toString_inj hindexes⟩

theorem toolArcId_inj {callId callId' : String} (hmid : '#' ∉ mid.toList)
    (hmid' : '#' ∉ mid'.toList) (h : toolArcId mid callId = toolArcId mid' callId') :
    mid = mid' ∧ callId = callId' := by
  have hlist := congrArg String.toList h
  rw [toList_toolArcId, toList_toolArcId] at hlist
  obtain ⟨hmids, hcalls⟩ := append_separator_inj hmid hmid' hlist
  exact ⟨String.toList_inj.mp hmids, String.toList_inj.mp (append_cancel_left hcalls)⟩

theorem blockId_ne_toolArcId {callId : String} (hmid : '#' ∉ mid.toList)
    (hmid' : '#' ∉ mid'.toList) :
    blockId mid index ≠ toolArcId mid' callId := by
  intro h
  have hlist := congrArg String.toList h
  rw [toList_blockId, toList_toolArcId] at hlist
  have hdigits := (append_separator_inj hmid hmid' hlist).2
  apply notMem_toString (c := 'c') (by decide) index
  rw [hdigits]
  exact mem_append_left _ (by decide)

/-! ## Blocks of one message -/

/-- `flat` is the block of `message` at `index`. -/
structure IsFlat (message : IngressMessage J) (synthetic : Bool) (index : Nat)
    (flat : FlatBlock J) : Prop where
  id_eq : flat.id = blockId message.mid index
  mid_eq : flat.mid = message.mid
  index_eq : flat.blockIndex = index
  ordinal_eq : flat.ordinal = message.ordinal
  role_eq : flat.role = message.role
  synthetic_eq : flat.synthetic = synthetic
  wire_eq : message.content[index]? = some flat.wire
  toolCallId_eq : flat.toolCallId = flat.wire.kind.toolCallId
  providerExecuted_eq : flat.providerExecuted = flat.wire.kind.providerExecuted

def FlatBlock.isToolCall (flat : FlatBlock J) : Bool := flat.wire.kind.isToolCall

def FlatBlock.isToolResult (flat : FlatBlock J) : Bool := flat.wire.kind.isToolResult

variable {codec : Codec J} {message : IngressMessage J} {synthetic : Bool} {block : WireBlock J}

theorem isFlat_of_flattenBlock {arcId : Option String} {flat : FlatBlock J}
    (h : flattenBlock codec message synthetic index block arcId = .ok flat)
    (hblock : message.content[index]? = some block) :
    IsFlat message synthetic index flat ∧ flat.wire = block ∧ flat.arcId = arcId := by
  unfold flattenBlock at h
  split at h
  · cases h
  · cases h
    exact ⟨⟨rfl, rfl, rfl, rfl, rfl, rfl, hblock, rfl, rfl⟩, rfl, rfl⟩

theorem arcForBlock_eq_ok {callArcs : List (Nat × PendingCall)}
    {pending pending' : List PendingCall} {arcId : Option String}
    (h : arcForBlock message callArcs pending index block = .ok (arcId, pending')) :
    pending' ⊆ pending ∧
      (block.kind.isToolCall = true →
        arcId = if message.role = "assistant" then callArc callArcs index else none) ∧
      (block.kind.isToolResult = true →
        ∃ call ∈ pending, block.kind.toolCallId = some call.1 ∧ arcId = some call.2) := by
  unfold arcForBlock at h
  split at h
  case h_1 id name input executed hkind =>
    cases h
    refine ⟨List.Subset.refl _, fun _ => rfl, fun hresult => ?_⟩
    simp [hkind, BlockKind.isToolResult] at hresult
  case h_2 id name output executed hkind =>
    split at h
    · cases h
    · rename_i call hcall
      cases h
      refine ⟨eraseP_subset, fun hiscall => ?_, fun _ => ?_⟩
      · simp [hkind, BlockKind.isToolCall] at hiscall
      have hid : call.1 = id := by simpa using find?_some hcall
      exact ⟨call, mem_of_find?_eq_some hcall, by rw [hkind, hid]; rfl, rfl⟩
  all_goals
    cases h
    refine ⟨List.Subset.refl _, fun hcall => ?_, fun hresult => ?_⟩
    · simp_all [BlockKind.isToolCall]
    · simp_all [BlockKind.isToolResult]

variable {flats : List (FlatBlock J)}

/-- The blocks of a message from `index` on: each is listed with its own data, calls have the
arcs assigned to them and results those of unanswered calls. -/
theorem projectBlocks_eq_ok {callArcs : List (Nat × PendingCall)}
    {pending pending' : List PendingCall} {rest : List (WireBlock J)}
    (hrest : ∀ k, rest[k]? = message.content[index + k]?)
    (h : projectBlocks codec message synthetic false callArcs index pending rest =
      .ok (flats, pending')) :
    pending' ⊆ pending ∧ flats.length = rest.length ∧
      (∀ k flat, flats[k]? = some flat → IsFlat message synthetic (index + k) flat) ∧
      (∀ flat ∈ flats, flat.isToolCall = true →
        flat.arcId =
          if message.role = "assistant" then callArc callArcs flat.blockIndex else none) ∧
      (∀ flat ∈ flats, flat.isToolResult = true →
        ∃ call ∈ pending, flat.toolCallId = some call.1 ∧ flat.arcId = some call.2) := by
  induction rest generalizing index pending flats with
  | nil =>
    cases h
    exact ⟨List.Subset.refl _, rfl, fun k flat hflat => by simp at hflat,
      fun flat hflat => absurd hflat not_mem_nil, fun flat hflat => absurd hflat not_mem_nil⟩
  | cons block rest ih =>
    obtain ⟨⟨arcId, between⟩, harc, h⟩ := bind_eq_ok_iff.mp h
    obtain ⟨flat, hflat, h⟩ := bind_eq_ok_iff.mp h
    obtain ⟨⟨others, last⟩, hothers, h⟩ := bind_eq_ok_iff.mp h
    cases h
    have harc' : arcForBlock message callArcs pending index block = .ok (arcId, between) := by
      unfold arcOrCovered at harc
      split at harc
      · rename_i result hresult
        rw [hresult, harc]
      · cases harc
    obtain ⟨hsub, hcall, hresult⟩ := arcForBlock_eq_ok harc'
    have hblock : message.content[index]? = some block := by
      simpa using (hrest 0).symm
    obtain ⟨hisFlat, hwire, harcId⟩ := isFlat_of_flattenBlock hflat hblock
    obtain ⟨hsub', hlength, hflats, hcalls, hresults⟩ := ih
      (fun k => by simpa [Nat.add_assoc, Nat.add_comm 1 k] using hrest (k + 1)) hothers
    refine ⟨List.Subset.trans hsub' hsub, by simp [hlength], ?_, ?_, ?_⟩
    · intro k flat' hk
      cases k with
      | zero =>
        cases hk
        exact hisFlat
      | succ k =>
        rw [← Nat.add_assoc, Nat.add_right_comm]
        exact hflats k flat' hk
    · refine forall_mem_cons.mpr ⟨fun hiscall => ?_, hcalls⟩
      rw [harcId, hisFlat.index_eq]
      exact hcall (hwire ▸ hiscall)
    · refine forall_mem_cons.mpr ⟨fun hisresult => ?_, fun flat' hmem hisresult => ?_⟩
      · obtain ⟨call, hmem, hid, harc⟩ := hresult (hwire ▸ hisresult)
        exact ⟨call, hmem, by rw [hisFlat.toolCallId_eq, hwire, hid], harcId.trans harc⟩
      · obtain ⟨call, hmem, hspec⟩ := hresults flat' hmem hisresult
        exact ⟨call, hsub hmem, hspec⟩

/-! ## The calls of an assistant message -/

variable {call : PendingCall}

theorem callEntry_eq_some {content : List (WireBlock J)}
    (h : callEntry mid content index block = some call) :
    block.kind.isToolCall = true ∧ block.kind.toolCallId = some call.1 ∧
      (call.2 = toolArcId mid call.1 ∨ call.2 = blockId mid index) := by
  unfold callEntry at h
  split at h
  · rename_i id name input executed hkind
    cases h
    refine ⟨by rw [hkind]; rfl, by rw [hkind]; rfl, ?_⟩
    split_ifs
    · exact .inl rfl
    · exact .inr rfl
  · cases h

theorem lookup_assignCallArcs (mid : String) (content : List (WireBlock J)) (index : Nat)
    (rest : List (WireBlock J)) (i : Nat) :
    (assignCallArcs mid content index rest).lookup i =
      if index ≤ i then (rest[i - index]?).bind (callEntry mid content i) else none := by
  induction rest generalizing index with
  | nil => simp [assignCallArcs]
  | cons block rest ih =>
    have hothers := ih (index + 1)
    unfold assignCallArcs
    rcases lt_trichotomy i index with hlt | rfl | hgt
    · rw [if_neg (by omega)] at hothers ⊢
      cases callEntry mid content index block with
      | none => exact hothers
      | some call =>
        rw [List.lookup_cons, beq_eq_false_iff_ne.mpr (by omega)]
        exact hothers
    · cases hentry : callEntry mid content i block with
      | none => simp [hothers, hentry]
      | some call => simp [hentry]
    · rw [if_pos (by omega)] at hothers ⊢
      have hindex : (block :: rest)[i - index]? = rest[i - (index + 1)]? := by
        rw [show i - index = i - (index + 1) + 1 by omega, getElem?_cons_succ]
      rw [hindex]
      cases callEntry mid content index block with
      | none => exact hothers
      | some call =>
        rw [List.lookup_cons, beq_eq_false_iff_ne.mpr (by omega)]
        exact hothers

theorem mem_assignCallArcs {content rest : List (WireBlock J)} {i : Nat}
    (h : (i, call) ∈ assignCallArcs mid content index rest) :
    ∃ block, index ≤ i ∧ rest[i - index]? = some block ∧
      callEntry mid content i block = some call := by
  induction rest generalizing index with
  | nil => cases h
  | cons block rest ih =>
    unfold assignCallArcs at h
    have hlater (h : (i, call) ∈ assignCallArcs mid content (index + 1) rest) :
        ∃ found, index ≤ i ∧ (block :: rest)[i - index]? = some found ∧
          callEntry mid content i found = some call := by
      obtain ⟨found, hle, hfound, hentry⟩ := ih h
      refine ⟨found, by omega, ?_, hentry⟩
      rwa [show i - index = i - (index + 1) + 1 by omega, getElem?_cons_succ]
    cases hentry : callEntry mid content index block with
    | none =>
      rw [hentry] at h
      exact hlater h
    | some first =>
      rw [hentry] at h
      rcases mem_cons.mp h with heq | h
      · cases heq
        exact ⟨block, le_rfl, by simp, hentry⟩
      · exact hlater h

/-! ## Messages -/

/-- `flats` are the blocks of `message`, one for each and in order, and each call among them has
no arc or one named after its message and itself. -/
structure IsGroup (message : IngressMessage J) (synthetic : Bool) (flats : List (FlatBlock J)) :
    Prop where
  length_eq : flats.length = message.content.length
  isFlat : ∀ k flat, flats[k]? = some flat → IsFlat message synthetic k flat
  callArc : ∀ flat ∈ flats, flat.isToolCall = true → ∀ arc, flat.arcId = some arc →
    (∃ id, flat.toolCallId = some id ∧ arc = toolArcId message.mid id) ∨
      arc = blockId message.mid flat.blockIndex

theorem IsGroup.isFlat_of_mem (h : IsGroup message synthetic flats) {flat : FlatBlock J}
    (hflat : flat ∈ flats) : IsFlat message synthetic flat.blockIndex flat := by
  obtain ⟨k, hk⟩ := getElem?_of_mem hflat
  have hisFlat := h.isFlat k flat hk
  rwa [hisFlat.index_eq]

theorem IsGroup.eq_of_blockIndex (h : IsGroup message synthetic flats) {a b : FlatBlock J}
    (ha : a ∈ flats) (hb : b ∈ flats) (hindex : a.blockIndex = b.blockIndex) : a = b := by
  obtain ⟨i, hi⟩ := getElem?_of_mem ha
  obtain ⟨j, hj⟩ := getElem?_of_mem hb
  have hij : i = j := by
    rw [← (h.isFlat i a hi).index_eq, ← (h.isFlat j b hj).index_eq, hindex]
  rw [hij, hj] at hi
  exact (Option.some.inj hi).symm

theorem IsGroup.nodup_blockIndex (h : IsGroup message synthetic flats) :
    (flats.map (·.blockIndex)).Nodup := by
  have hrange : flats.map (·.blockIndex) = List.range flats.length := by
    refine ext_getElem? fun k => ?_
    rw [getElem?_map]
    by_cases hk : k < flats.length
    · rw [getElem?_eq_getElem hk, getElem?_range hk, Option.map_some,
        (h.isFlat k _ (getElem?_eq_getElem hk)).index_eq]
    · rw [getElem?_eq_none (by omega), getElem?_eq_none (by simpa using hk)]
      rfl
  rw [hrange]
  exact nodup_range

def Listed (groups : List (List (FlatBlock J))) (call : PendingCall) : Prop :=
  ∃ flats ∈ groups, ∃ flat ∈ flats, flat.isToolCall = true ∧ flat.toolCallId = some call.1 ∧
    flat.arcId = some call.2

theorem Listed.mono {groups others : List (List (FlatBlock J))} (h : Listed groups call)
    (hsub : groups ⊆ others) : Listed others call := by
  obtain ⟨flats, hflats, hspec⟩ := h
  exact ⟨flats, hsub hflats, hspec⟩

def ProjectionState.mids (state : ProjectionState) : List String :=
  state.liveMids ++ state.syntheticMids

variable {state : ProjectionState}

theorem claimMid_eq_ok {state' : ProjectionState}
    (h : claimMid message synthetic state = .ok state') :
    '#' ∉ message.mid.toList ∧ message.mid ∉ state.mids ∧
      state'.pendingCalls = state.pendingCalls ∧ (∀ mid, mid ∈ state'.mids ↔
        mid = message.mid ∨ mid ∈ state.mids) := by
  unfold claimMid at h
  split_ifs at h with hempty hhash hseen hsynthetic
  all_goals
    cases h
    refine ⟨hhash, fun hmem => hseen (mem_append.mp hmem), rfl, fun mid => ?_⟩
    simp only [ProjectionState.mids, mem_append, mem_cons]
    tauto

theorem projectMessage_eq_ok {state' : ProjectionState} {done : List (List (FlatBlock J))}
    (hpending : ∀ call ∈ state.pendingCalls, Listed done call)
    (h : projectMessage codec synthetic false state message = .ok (flats, state')) :
    IsGroup message synthetic flats ∧
      (∀ flat ∈ flats, flat.isToolResult = true → ∃ call, Listed (done ++ [flats]) call ∧
        flat.toolCallId = some call.1 ∧ flat.arcId = some call.2) ∧
      (∀ call ∈ state'.pendingCalls, Listed (done ++ [flats]) call) ∧
      '#' ∉ message.mid.toList ∧ message.mid ∉ state.mids ∧
      (∀ mid, mid ∈ state'.mids ↔ mid = message.mid ∨ mid ∈ state.mids) := by
  obtain ⟨claimed, hclaimed, h⟩ := bind_eq_ok_iff.mp h
  simp only at h
  obtain ⟨⟨blocks, pending⟩, hblocks, h⟩ := bind_eq_ok_iff.mp h
  cases h
  obtain ⟨hhash, hnew, hsame, hmids⟩ := claimMid_eq_ok hclaimed
  obtain ⟨hsub, hlength, hflats, hcalls, hresults⟩ :=
    projectBlocks_eq_ok (fun k => by rw [Nat.zero_add]) hblocks
  simp only [Nat.zero_add] at hflats
  -- The calls open during this message: its own, or those carried over.
  have hopen : ∀ call ∈ (openCalls message claimed).pendingCalls,
      Listed (done ++ [blocks]) call := by
    intro call hcall
    unfold openCalls at hcall hcalls
    split_ifs at hcall hcalls with hrole
    · obtain ⟨⟨i, own⟩, hentry, rfl⟩ := mem_map.mp hcall
      obtain ⟨block, -, hblock, hcallEntry⟩ := mem_assignCallArcs hentry
      rw [Nat.sub_zero] at hblock
      have hlt : i < blocks.length := by
        rw [hlength]
        exact (List.getElem?_eq_some_iff.mp hblock).1
      have hflat := hflats i _ (getElem?_eq_getElem hlt)
      have hwire : blocks[i].wire = block := Option.some.inj (hflat.wire_eq.symm.trans hblock)
      obtain ⟨hcallBlock, hid, -⟩ := callEntry_eq_some hcallEntry
      have hiscall : blocks[i].isToolCall = true := by rw [FlatBlock.isToolCall, hwire, hcallBlock]
      have harc := hcalls blocks[i] (getElem_mem hlt) hiscall
      refine ⟨blocks, mem_append_right _ mem_cons_self, blocks[i], getElem_mem hlt, hiscall, ?_, ?_⟩
      · rw [hflat.toolCallId_eq, hwire, hid]
      · rw [harc, hflat.index_eq, callArc, lookup_assignCallArcs, if_pos (Nat.zero_le _),
          Nat.sub_zero, hblock, Option.bind_some, hcallEntry]
        rfl
    · rw [hsame] at hcall
      exact (hpending call hcall).mono (subset_append_left _ _)
  refine ⟨⟨hlength, hflats, ?_⟩, ?_, ?_, hhash, hnew, ?_⟩
  · intro flat hmem hiscall arc harc
    have hassigned := hcalls flat hmem hiscall
    unfold openCalls at hassigned
    split_ifs at hassigned with hrole
    · rw [harc, callArc, lookup_assignCallArcs, if_pos (Nat.zero_le _), Nat.sub_zero] at hassigned
      obtain ⟨call, hcall, rfl⟩ := Option.map_eq_some_iff.mp hassigned.symm
      obtain ⟨block, hblock, hentry⟩ := Option.bind_eq_some_iff.mp hcall
      obtain ⟨k, hk⟩ := getElem?_of_mem hmem
      have hflat := hflats k flat hk
      rw [hflat.index_eq] at hblock
      have hwire : flat.wire = block := Option.some.inj (hflat.wire_eq.symm.trans hblock)
      obtain ⟨-, hid, hname⟩ := callEntry_eq_some hentry
      rcases hname with hname | hname
      · exact .inl ⟨call.1, by rw [hflat.toolCallId_eq, hwire, hid], hname⟩
      · exact .inr hname
    · rw [harc] at hassigned
      cases hassigned
  · intro flat hmem hisresult
    obtain ⟨call, hcall, hspec⟩ := hresults flat hmem hisresult
    exact ⟨call, hopen call hcall, hspec⟩
  · intro call hcall
    unfold closeCalls at hcall
    split_ifs at hcall
    · cases hcall
    · exact hopen call (hsub hcall)
  · intro mid
    have hsameMids : (openCalls message claimed).mids = claimed.mids := by
      unfold openCalls
      split_ifs <;> rfl
    rw [← hmids mid, ← hsameMids]
    rfl

/-- The groups of an accepted projection: one for each message, with distinct message ids, and
each result joins an arc of a call in its own group or an earlier one. -/
theorem projectFrom_eq_ok {isSynthetic : IngressMessage J → Bool}
    {messages : List (IngressMessage J)} {groups : List (List (FlatBlock J))}
    (done : List (List (FlatBlock J))) (hpending : ∀ call ∈ state.pendingCalls, Listed done call)
    (h : projectFrom codec isSynthetic false state messages = .ok groups) :
    List.Forall₂ (fun message flats => IsGroup message (isSynthetic message) flats) messages
        groups ∧
      (∀ before flats after, groups = before ++ flats :: after →
        ∀ flat ∈ flats, flat.isToolResult = true →
          ∃ call, Listed (done ++ (before ++ [flats])) call ∧
            flat.toolCallId = some call.1 ∧ flat.arcId = some call.2) ∧
      (messages.map (·.mid)).Nodup ∧
      (∀ message ∈ messages, '#' ∉ message.mid.toList ∧ message.mid ∉ state.mids) := by
  induction messages generalizing state groups done with
  | nil =>
    cases h
    exact ⟨List.Forall₂.nil, fun before flats after heq => by simp at heq, nodup_nil, nofun⟩
  | cons message rest ih =>
    obtain ⟨⟨flats, state'⟩, hmessage, h⟩ := bind_eq_ok_iff.mp h
    obtain ⟨others, hothers, h⟩ := bind_eq_ok_iff.mp h
    cases h
    obtain ⟨hgroup, hresults, hpending', hhash, hnew, hmids⟩ :=
      projectMessage_eq_ok hpending hmessage
    obtain ⟨hgroups, hlater, hnodup, hfresh⟩ := ih _ hpending' hothers
    refine ⟨List.Forall₂.cons hgroup hgroups, ?_, ?_, ?_⟩
    · intro before flats' after heq flat hflat hisresult
      cases before with
      | nil =>
        obtain ⟨rfl, -⟩ := List.cons.inj heq
        exact hresults flat hflat hisresult
      | cons first before =>
        obtain ⟨rfl, htail⟩ := List.cons.inj heq
        obtain ⟨call, hlisted, hspec⟩ := hlater before flats' after htail flat hflat hisresult
        exact ⟨call, by simpa using hlisted, hspec⟩
    · refine nodup_cons.mpr ⟨fun hmem => ?_, hnodup⟩
      obtain ⟨other, hother, heq⟩ := mem_map.mp hmem
      exact (hfresh other hother).2 ((hmids other.mid).mpr (.inl heq))
    · exact forall_mem_cons.mpr ⟨⟨hhash, hnew⟩, fun other hother =>
        (hfresh other hother).imp_right fun hother hmem => hother ((hmids _).mpr (.inr hmem))⟩

structure Grouped (messages : List (IngressMessage J)) (groups : List (List (FlatBlock J))) :
    Prop where
  isGroup : List.Forall₂ (fun message flats => IsGroup message message.synthetic flats) messages
    groups
  answered : ∀ before flats after, groups = before ++ flats :: after →
    ∀ flat ∈ flats, flat.isToolResult = true → ∃ call, Listed (before ++ [flats]) call ∧
      flat.toolCallId = some call.1 ∧ flat.arcId = some call.2
  nodup : (messages.map (·.mid)).Nodup
  hash : ∀ message ∈ messages, '#' ∉ message.mid.toList

theorem exists_grouped {messages : List (IngressMessage J)} {blocks : List (FlatBlock J)}
    (h : projectMessages codec messages = .ok blocks) :
    ∃ groups, blocks = groups.flatten ∧ Grouped messages groups := by
  unfold projectMessages MessageProjection.project MessageProjection.new at h
  cases hfrom : projectFrom codec (MessageProjection.isSynthetic ⟨messages, [], false⟩) false
      ⟨[], [], [], []⟩ messages with
  | error error =>
    simp only [hfrom] at h
    cases h
  | ok groups =>
    simp only [hfrom] at h
    cases h
    obtain ⟨hgroups, hresults, hnodup, hfresh⟩ :=
      projectFrom_eq_ok [] (fun call hcall => absurd hcall not_mem_nil) hfrom
    refine ⟨groups, rfl, ?_, fun before flats after heq flat hflat hisresult => ?_, hnodup,
      fun message hmem => (hfresh message hmem).1⟩
    · simpa [MessageProjection.isSynthetic] using hgroups
    · simpa using hresults before flats after heq flat hflat hisresult

namespace Grouped

variable {messages : List (IngressMessage J)} {groups : List (List (FlatBlock J))}

theorem exists_of_forall₂
    (h : List.Forall₂ (fun message flats => IsGroup message message.synthetic flats) messages
      groups) {flats : List (FlatBlock J)} (hflats : flats ∈ groups) :
    ∃ message ∈ messages, IsGroup message message.synthetic flats := by
  obtain ⟨k, hk, rfl⟩ := getElem_of_mem hflats
  have hlength := h.length_eq
  exact ⟨messages[k], getElem_mem _, h.get (by omega) hk⟩

variable {flat : FlatBlock J}

theorem forall₂_append {α β : Type} {R : α → β → Prop} {xs ys : List α} {zs : List β}
    (h : List.Forall₂ R (xs ++ ys) zs) :
    ∃ us vs, zs = us ++ vs ∧ List.Forall₂ R xs us ∧ List.Forall₂ R ys vs := by
  induction xs generalizing zs with
  | nil => exact ⟨[], zs, rfl, List.Forall₂.nil, h⟩
  | cons x xs ih =>
    obtain ⟨z, rest, hz, hrest, rfl⟩ := forall₂_cons_left_iff.mp h
    obtain ⟨us, vs, rfl, hus, hvs⟩ := ih hrest
    exact ⟨z :: us, vs, rfl, List.Forall₂.cons hz hus, hvs⟩

theorem mid_of_forall₂ {messages : List (IngressMessage J)} {groups : List (List (FlatBlock J))}
    (h : List.Forall₂ (fun message flats => IsGroup message message.synthetic flats) messages
      groups)
    (hflat : flat ∈ groups.flatten) : flat.mid ∈ messages.map (·.mid) := by
  induction h with
  | nil => cases hflat
  | cons hgroup _ ih =>
    rcases mem_append.mp hflat with hflat | hflat
    · exact mem_cons.mpr (.inl (hgroup.isFlat_of_mem hflat).mid_eq)
    · exact mem_cons_of_mem _ (ih hflat)

variable (h : Grouped messages groups)

include h

theorem isFlat_of_mem (hflat : flat ∈ groups.flatten) :
    ∃ message ∈ messages, ∃ flats ∈ groups, flat ∈ flats ∧
      IsGroup message message.synthetic flats ∧
      IsFlat message message.synthetic flat.blockIndex flat := by
  obtain ⟨flats, hflats, hmem⟩ := mem_flatten.mp hflat
  obtain ⟨message, hmessage, hgroup⟩ := exists_of_forall₂ h.isGroup hflats
  exact ⟨message, hmessage, flats, hflats, hmem, hgroup, hgroup.isFlat_of_mem hmem⟩

theorem toolCallId_wire (hflat : flat ∈ groups.flatten) :
    flat.wire.kind.toolCallId = flat.toolCallId := by
  obtain ⟨_, _, _, _, _, _, hisFlat⟩ := h.isFlat_of_mem hflat
  exact hisFlat.toolCallId_eq.symm

theorem message_eq {message message' : IngressMessage J} (hmem : message ∈ messages)
    (hmem' : message' ∈ messages) (hmid : message.mid = message'.mid) :
    message = message' :=
  inj_on_of_nodup_map h.nodup hmem hmem' hmid

theorem call_toolCallId_eq {a b : FlatBlock J} (ha : a ∈ groups.flatten) (hb : b ∈ groups.flatten)
    (hcalla : a.isToolCall = true) (hcallb : b.isToolCall = true) {arc : String}
    (harca : a.arcId = some arc) (harcb : b.arcId = some arc) : a.toolCallId = b.toolCallId := by
  obtain ⟨ma, hma, fa, hfa, hina, hgroupa, hflata⟩ := h.isFlat_of_mem ha
  obtain ⟨mb, hmb, fb, hfb, hinb, hgroupb, hflatb⟩ := h.isFlat_of_mem hb
  have hhasha := h.hash ma hma
  have hhashb := h.hash mb hmb
  rcases hgroupa.callArc a hina hcalla arc harca with ⟨ida, hida, hnamea⟩ | hnamea
  · rcases hgroupb.callArc b hinb hcallb arc harcb with ⟨idb, hidb, hnameb⟩ | hnameb
    · rw [hida, hidb, (toolArcId_inj hhasha hhashb (hnamea.symm.trans hnameb)).2]
    · exact absurd (hnameb.symm.trans hnamea) (blockId_ne_toolArcId hhashb hhasha)
  · rcases hgroupb.callArc b hinb hcallb arc harcb with ⟨idb, hidb, hnameb⟩ | hnameb
    · exact absurd (hnamea.symm.trans hnameb) (blockId_ne_toolArcId hhasha hhashb)
    · obtain ⟨hmid, hindex⟩ := blockId_inj hhasha hhashb (hnamea.symm.trans hnameb)
      obtain rfl := h.message_eq hma hmb hmid
      have hwire := hflatb.wire_eq
      rw [← hindex, hflata.wire_eq] at hwire
      rw [hflata.toolCallId_eq, hflatb.toolCallId_eq, Option.some.inj hwire]

theorem exists_call {before after : List (List (FlatBlock J))} {flats : List (FlatBlock J)}
    (heq : groups = before ++ flats :: after) (hflat : flat ∈ flats)
    (hresult : flat.isToolResult = true) :
    ∃ others ∈ before ++ [flats], ∃ call ∈ others, call.isToolCall = true ∧
      call.toolCallId = flat.toolCallId ∧ call.arcId = flat.arcId ∧ flat.arcId.isSome := by
  obtain ⟨pending, ⟨others, hothers, call, hcall, hiscall, hid, harc⟩, hid', harc'⟩ :=
    h.answered before flats after heq flat hflat hresult
  exact ⟨others, hothers, call, hcall, hiscall, hid.trans hid'.symm, harc.trans harc'.symm,
    by rw [harc']; rfl⟩

theorem exists_own_call (hflat : flat ∈ groups.flatten) (hresult : flat.isToolResult = true) :
    ∃ call ∈ groups.flatten, call.isToolCall = true ∧ call.toolCallId = flat.toolCallId ∧
      call.arcId = flat.arcId ∧ flat.arcId.isSome := by
  obtain ⟨flats, hflats, hmem⟩ := mem_flatten.mp hflat
  obtain ⟨before, after, heq⟩ := append_of_mem hflats
  obtain ⟨others, hothers, call, hcall, hspec⟩ := h.exists_call heq hmem hresult
  refine ⟨call, mem_flatten.mpr ⟨others, ?_, hcall⟩, hspec⟩
  rw [mem_append, mem_singleton] at hothers
  rw [heq, mem_append, mem_cons]
  exact hothers.imp_right .inl

theorem toolCallId_eq {a b : FlatBlock J} (ha : a ∈ groups.flatten) (hb : b ∈ groups.flatten)
    (htoola : (a.isToolCall || a.isToolResult) = true)
    (htoolb : (b.isToolCall || b.isToolResult) = true) {arc : String} (harca : a.arcId = some arc)
    (harcb : b.arcId = some arc) : a.toolCallId = b.toolCallId := by
  -- Each block has the provider id of a call of its arc.
  have hcall (c : FlatBlock J) (hc : c ∈ groups.flatten)
      (htool : (c.isToolCall || c.isToolResult) = true) (harc : c.arcId = some arc) :
      ∃ call ∈ groups.flatten, call.isToolCall = true ∧ call.toolCallId = c.toolCallId ∧
        call.arcId = some arc := by
    rcases Bool.or_eq_true_iff.mp htool with hiscall | hisresult
    · exact ⟨c, hc, hiscall, rfl, harc⟩
    · obtain ⟨call, hmem, hiscall, hid, harc', -⟩ := h.exists_own_call hc hisresult
      exact ⟨call, hmem, hiscall, hid, harc'.trans harc⟩
  obtain ⟨calla, hmema, hiscalla, hida, hcallarca⟩ := hcall a ha htoola harca
  obtain ⟨callb, hmemb, hiscallb, hidb, hcallarcb⟩ := hcall b hb htoolb harcb
  rw [← hida, ← hidb]
  exact h.call_toolCallId_eq hmema hmemb hiscalla hiscallb hcallarca hcallarcb

theorem filter_mid {before after : List (IngressMessage J)} {message : IngressMessage J}
    (heq : messages = before ++ message :: after) :
    ∃ gbefore flats gafter, groups = gbefore ++ flats :: gafter ∧
      List.Forall₂ (fun message flats => IsGroup message message.synthetic flats) before gbefore ∧
      IsGroup message message.synthetic flats ∧
      groups.flatten.filter (·.mid = message.mid) = flats := by
  have hgroups := h.isGroup
  have hnodup := h.nodup
  rw [heq] at hgroups hnodup
  obtain ⟨gbefore, rest, rfl, hbefore, hrest⟩ := forall₂_append hgroups
  obtain ⟨flats, gafter, hgroup, hafter, rfl⟩ := forall₂_cons_left_iff.mp hrest
  refine ⟨gbefore, flats, gafter, rfl, hbefore, hgroup, ?_⟩
  rw [map_append, map_cons] at hnodup
  obtain ⟨-, htail, hdisjoint⟩ := nodup_append.mp hnodup
  have hotherBefore : gbefore.flatten.filter (·.mid = message.mid) = [] := by
    refine filter_eq_nil_iff.mpr fun flat hflat => ?_
    have hmid := mid_of_forall₂ hbefore hflat
    simpa using hdisjoint _ hmid _ mem_cons_self
  have hotherAfter : gafter.flatten.filter (·.mid = message.mid) = [] := by
    refine filter_eq_nil_iff.mpr fun flat hflat => ?_
    have hmid := mid_of_forall₂ hafter hflat
    intro heq
    rw [decide_eq_true_eq.mp heq] at hmid
    exact (nodup_cons.mp htail).1 hmid
  have hown : flats.filter (·.mid = message.mid) = flats := by
    refine filter_eq_self.mpr fun flat hflat => ?_
    simpa using (hgroup.isFlat_of_mem hflat).mid_eq
  rw [flatten_append, flatten_cons, filter_append, filter_append,
    hotherBefore, hown, hotherAfter, nil_append, append_nil]

end Grouped

end Eidnara.Daemon.Wire
