import Eidnara.Daemon.Selection.Decisions
import Eidnara.Daemon.Transform.Served

/-!
# What reductions leave paired, protected and untouched

The renderer removes tool blocks by their raw provider call id and skips exempt messages, while
selection decides block by block.  The results here say under which conditions on the window the
two agree, and samples show what happens without them.
-/

namespace Eidnara.Daemon.Transform

open List

open CacheStability (FrozenUnit)
open Lib Selection Wire

variable {J : Type} {surface : Surface J} {settings : OutputSettings} {units : List FrozenUnit}
  {blocks : List (FlatBlock J)}

/-! ## Units of decisions -/

theorem redKey_inj {a b : String} (h : redKey a = redKey b) : a = b := by
  have hlist := congrArg String.toList h
  simp only [redKey, String.toList_append] at hlist
  exact String.toList_inj.mp (append_cancel_left hlist)

theorem exists_decision_of_redByBlockId {decisions : List ReductionDecision} {id : String}
    {unit : FrozenUnit} (h : redByBlockId (decisions.map redUnit) id = some unit) :
    ∃ decision ∈ decisions, decision.targetId = id ∧ unit = redUnit decision := by
  obtain ⟨decision, hmem, rfl⟩ := mem_map.mp (mem_of_find?_eq_some h)
  have hkey : (redUnit decision).key = redKey id := by simpa using find?_some h
  exact ⟨decision, hmem, redKey_inj hkey, rfl⟩

theorem reductionUnits_redUnit (decisions : List ReductionDecision) :
    ReductionUnits (decisions.map redUnit) := by
  intro unit hunit
  obtain ⟨decision, -, rfl⟩ := mem_map.mp hunit
  exact ⟨decision.targetId, rfl⟩

theorem imageUnit_redUnit (decisions : List ReductionDecision) (id : String) :
    imageUnit (decisions.map redUnit) id = false := by
  have hkind (kind : RedKind) : kind.asStr ≠ "image" := by cases kind <;> decide
  simp [imageUnit, redUnit, hkind]

theorem imageUnit_of_redByBlockId_eq_none {id : String} (h : redByBlockId units id = none) :
    imageUnit units id = false := by
  have hkeys := find?_eq_none.mp h
  simp only [decide_eq_true_eq] at hkeys
  simpa [imageUnit] using fun unit hunit _ => hkeys unit hunit

/-! ## Blocks dropped in full -/

variable {ineligible : List String} {block : FlatBlock J}

theorem fullDropToolId_eq_some {id : String} :
    fullDropToolId units blocks ineligible block = some id ↔
      block.wire.kind.toolCallId = some id ∧ block.arcId.any (· ∈ ineligible) = false ∧
        frozenKind units block.id = some "drop" ∧
        (block.wire.kind.isToolCall = true ∨
          ¬ (callKindById units blocks id = some "skeleton" ∨
            callKindById units blocks id = some "edit_marker")) := by
  unfold fullDropToolId
  cases hid : block.wire.kind.toolCallId with
  | none => simp
  | some callId =>
    simp only [Option.some.injEq]
    split_ifs with harc hkind hcall hshell
    · simp [harc]
    · simp [hkind]
    · have hkind' : frozenKind units block.id = some "drop" := not_not.mp hkind
      simp [harc, hkind', hcall]
    · simp only [false_iff]
      rintro ⟨rfl, -, -, hcall' | hshell'⟩
      · exact hcall hcall'
      · exact hshell' hshell
    · have hkind' : frozenKind units block.id = some "drop" := not_not.mp hkind
      constructor
      · intro heq
        obtain rfl := Option.some.inj heq
        exact ⟨rfl, by simpa using harc, hkind', .inr hshell⟩
      · exact fun h => congrArg some h.1

theorem exists_drop_of_removed (h : removed settings units blocks block = true) :
    ∃ id, block.wire.kind.toolCallId = some id ∧ ∃ dropped ∈ blocks,
      fullDropToolId units blocks (ineligibleArcs settings blocks) dropped = some id := by
  unfold removed at h
  cases hid : block.wire.kind.toolCallId with
  | none => simp [hid] at h
  | some id =>
    have hmem : id ∈ fullDropToolIds units blocks (ineligibleArcs settings blocks) := by
      simpa [hid] using h
    exact ⟨id, rfl, mem_filterMap.mp hmem⟩

variable {a b : FlatBlock J}

theorem removed_eq_of_toolCallId (h : a.wire.kind.toolCallId = b.wire.kind.toolCallId) :
    removed settings units blocks a = removed settings units blocks b := by
  unfold removed
  rw [h]

theorem openBlock_of_redByBlockId_eq_none (hred : ReductionUnits units)
    (hblock : Unstripped surface settings block) (h : redByBlockId units block.id = none) :
    openBlock surface settings units blocks block = block.wire := by
  have hnone : reductionUnit units (ineligibleArcs settings blocks) block = none := by
    simp [reductionUnit, h]
  rw [openBlock, strippedBlock,
    strippedKind_eq_none hred (imageUnit_of_redByBlockId_eq_none h) hblock, renderedBlock, hnone]
  rfl

/-! ## Calls and results stay together -/

/-- Whether a block's message is served at all, and whether it is served as it came. -/
def status (settings : OutputSettings) (block : FlatBlock J) : Bool × Bool × Bool :=
  (block.synthetic, settings.isOutput block.mid block.ordinal, settings.mutationExempt block.mid)

def SameStatus (settings : OutputSettings) (blocks : List (FlatBlock J)) : Prop :=
  ∀ call ∈ blocks, ∀ result ∈ blocks, call.isToolCall = true → result.isToolResult = true →
    call.arcId = result.arcId → (call.providerExecuted = false ∨ result.providerExecuted = false) →
    status settings call = status settings result

/-- The message holds the call or the result, its content rewritten or not. -/
def ServedMessage.Serves (message : ServedMessage J) (block : FlatBlock J) : Prop :=
  message.mid = block.mid ∧ ∃ entry ∈ message.content, entry.2 = block.blockIndex ∧
    entry.1.kind.isToolCall = block.isToolCall ∧
    entry.1.kind.toolCallId = block.wire.kind.toolCallId

instance instDecidableServes (message : ServedMessage J) (block : FlatBlock J) :
    Decidable (message.Serves block) :=
  inferInstanceAs (Decidable (_ ∧ _))

theorem isSome_servedBlock_iff :
    (servedBlock surface settings units blocks block).isSome ↔ block.synthetic = false ∧
      settings.isOutput block.mid block.ordinal = true ∧
      (settings.mutationExempt block.mid = true ∨
        removed settings units blocks block = false) := by
  unfold servedBlock
  split_ifs with hstatus
  · cases hlive : block.synthetic <;> simp_all
  all_goals simp_all

theorem isSome_servedBlock_of_status (hstatus : status settings a = status settings b)
    (hid : a.wire.kind.toolCallId = b.wire.kind.toolCallId)
    (h : (servedBlock surface settings units blocks a).isSome) :
    (servedBlock surface settings units blocks b).isSome := by
  simp only [status, Prod.mk.injEq] at hstatus
  obtain ⟨hsynthetic, houtput, hexempt⟩ := hstatus
  rw [isSome_servedBlock_iff] at h ⊢
  rwa [← hsynthetic, ← houtput, ← hexempt, ← removed_eq_of_toolCallId hid]

variable {codec : Codec J} {messages : List (IngressMessage J)}

/-- A tool block without an image unit keeps its kind and its provider id where it is served. -/
theorem serves_of_holds (hred : ReductionUnits units) (htool : block.wire.kind.toolCallId.isSome)
    (himage : imageUnit units block.id = false) {message : ServedMessage J} {wire : WireBlock J}
    (hwire : servedBlock surface settings units blocks block = some wire)
    (h : message.Holds block wire) : message.Serves block := by
  refine ⟨h.1, (wire, block.blockIndex), h.2, rfl, ?_⟩
  unfold servedBlock at hwire
  split_ifs at hwire
  · rw [Option.some.inj hwire]
    exact ⟨congrArg (·.kind.isToolCall) (Option.some.inj hwire).symm, rfl⟩
  · rw [← Option.some.inj hwire, openBlock, strippedBlock,
      strippedKind_eq_none hred himage (unstripped_of_tool htool)]
    exact tool_renderedBlock

theorem toolCallId_isSome (h : (block.isToolCall || block.isToolResult) = true) :
    block.wire.kind.toolCallId.isSome := by
  unfold FlatBlock.isToolCall FlatBlock.isToolResult at h
  cases hkind : block.wire.kind <;> simp_all [BlockKind.isToolCall, BlockKind.isToolResult,
    BlockKind.toolCallId]

theorem exists_serves_iff (hred : ReductionUnits units)
    (h : projectMessages codec messages = .ok blocks) {flat : FlatBlock J} (hflat : flat ∈ blocks)
    (htool : (flat.isToolCall || flat.isToolResult) = true)
    (himage : imageUnit units flat.id = false) :
    (∃ served ∈ renderTail surface settings units blocks messages, served.Serves flat) ↔
      (servedBlock surface settings units blocks flat).isSome := by
  rw [Option.isSome_iff_exists]
  constructor
  · rintro ⟨served, hserved, hmid, entry, hentry, hindex, -⟩
    exact ⟨entry.1, (exists_rendered_iff hred h hflat).mp
      ⟨served, hserved, hmid, hindex ▸ hentry⟩⟩
  · rintro ⟨wire, hwire⟩
    obtain ⟨served, hserved, hholds⟩ := (exists_rendered_iff hred h hflat).mpr hwire
    exact ⟨served, hserved, serves_of_holds hred (toolCallId_isSome htool) himage hwire hholds⟩

variable {result : FlatBlock J}

/-- A served result has a call of its arc in its own served message or an earlier one. -/
theorem exists_call_before (hred : ReductionUnits units)
    (himage : ∀ id, imageUnit units id = false) (h : projectMessages codec messages = .ok blocks)
    (hstatus : SameStatus settings blocks) {before after : List (ServedMessage J)}
    {served : ServedMessage J}
    (heq : renderTail surface settings units blocks messages = before ++ served :: after)
    (hresult : result ∈ blocks) (hisResult : result.isToolResult = true)
    (hclient : result.providerExecuted = false) (hserves : served.Serves result) :
    ∃ earlier ∈ before ++ [served], ∃ call ∈ blocks, call.isToolCall = true ∧
      call.arcId = result.arcId ∧ earlier.Serves call := by
  have hserved : (servedBlock surface settings units blocks result).isSome :=
    (exists_serves_iff hred h hresult (by simp [hisResult]) (himage _)).mp
      ⟨served, by rw [heq]; simp, hserves⟩
  obtain ⟨front, message, rest, rfl, hrender, hupto⟩ := renderTail_eq_append heq
  obtain ⟨groups, rfl, hgrouped⟩ := exists_grouped h
  obtain ⟨gbefore, flats, gafter, rfl, hgbefore, hgroup, hflats⟩ := hgrouped.filter_mid rfl
  have hmid : result.mid = message.mid := hserves.1.symm.trans (mid_of_renderOutput hrender)
  have hmem : result ∈ flats := by
    rw [← hflats]
    exact mem_filter.mpr ⟨hresult, by simpa using hmid⟩
  obtain ⟨others, hothers, call, hcall, hisCall, hid, harc, -⟩ :=
    hgrouped.exists_call rfl hmem hisResult
  have hcallMem : call ∈ (gbefore ++ flats :: gafter).flatten := by
    refine mem_flatten.mpr ⟨others, ?_, hcall⟩
    simp only [mem_append, mem_cons, not_mem_nil, or_false] at hothers ⊢
    exact hothers.imp_right .inl
  have hwireId : call.wire.kind.toolCallId = result.wire.kind.toolCallId := by
    rw [hgrouped.toolCallId_wire hcallMem, hgrouped.toolCallId_wire hresult, hid]
  have hcallServed : (servedBlock surface settings units _ call).isSome :=
    isSome_servedBlock_of_status
      (hstatus call hcallMem result hresult hisCall hisResult harc (.inr hclient)).symm
      hwireId.symm hserved
  obtain ⟨wire, hwire⟩ := Option.isSome_iff_exists.mp hcallServed
  -- The call's message is not after the result's, so neither is its served message.
  obtain ⟨owner, howner, hownerMid⟩ : ∃ owner ∈ front ++ [message], call.mid = owner.mid := by
    rcases mem_append.mp hothers with hothers | hothers
    · obtain ⟨owner, howner, hownerGroup⟩ := Grouped.exists_of_forall₂ hgbefore hothers
      exact ⟨owner, mem_append_left _ howner, (hownerGroup.isFlat_of_mem hcall).mid_eq⟩
    · rw [mem_singleton.mp hothers] at hcall
      exact ⟨message, by simp, (hgroup.isFlat_of_mem hcall).mid_eq⟩
  have hownerMem : owner ∈ front ++ message :: rest := by
    simp only [mem_append, mem_cons] at howner ⊢
    tauto
  obtain ⟨earlier, hrenders, hholds⟩ :=
    (exists_renderOutput_iff hred h hcallMem hownerMem hownerMid).mpr hwire
  exact ⟨earlier, hupto owner howner earlier hrenders, call, hcallMem, hisCall, harc,
    serves_of_holds hred (toolCallId_isSome (by simp [hisCall])) (himage _) hwire hholds⟩

def plainCodec : Codec Unit := ⟨fun _ => some "block", fun _ => none⟩

def plainVocabulary : Vocabulary Unit :=
  ⟨id, fun _ => none, fun _ => false, fun _ => "kept", fun _ => "kept"⟩

def textBlock : WireBlock Unit := ⟨.text "note", ()⟩

def readCall (id : String) : WireBlock Unit := ⟨.toolCall id "read" () false, ()⟩

def readResult (id : String) : WireBlock Unit :=
  ⟨.toolResult id "read" ⟨.text "output", ()⟩ false, ()⟩

def readTurn (call result : String) (ordinal : Nat) : List (IngressMessage Unit) :=
  [⟨call, ordinal, "assistant", false, [textBlock, readCall "c1"]⟩,
    ⟨result, ordinal + 1, "tool", false, [readResult "c1"]⟩]

def projected (messages : List (IngressMessage Unit)) : List (FlatBlock Unit) :=
  match projectMessages plainCodec messages with
  | .ok blocks => blocks
  | .error _ => []

def oneTurn : List (IngressMessage Unit) := readTurn "m1" "m2" 1

def twoTurns : List (IngressMessage Unit) := oneTurn ++ readTurn "m3" "m4" 3

theorem project_oneTurn : projectMessages plainCodec oneTurn = .ok (projected oneTurn) := by
  decide +kernel

def readCallFlat : FlatBlock Unit :=
  ⟨"m1#1", "m1", 1, 1, "assistant", none, false, some "m1#1", "block", false, some "c1",
    readCall "c1"⟩

def readResultFlat : FlatBlock Unit :=
  ⟨"m2#0", "m2", 0, 2, "tool", none, false, some "m1#1", "block", false, some "c1",
    readResult "c1"⟩

def plainSurface : Surface Unit :=
  ⟨fun _ _ => (), fun _ _ => none, fun _ => none, fun _ => none, id, ()⟩

def plainSettings (mutationExemptMid : Option String) : OutputSettings :=
  ⟨none, [], mutationExemptMid, none, false, none, [], 0, none⟩

/-- A pass under pressure that reclaims every arc up to ordinal 9. -/
def agePass (tagWindow exemptBlocks : List String) : SelectionContext ℚ :=
  { passClass := .execute
    currentTotalInputTokens := 0
    ceilingTokens := 0
    protectedCutoffOrdinal := 0
    lastExecuteOrdinal := 9
    schedulerPressureExecute := true
    priorInputSample := 0
    hasPriorDrop := false
    agentDropIds := []
    agentDropCommandIds := []
    firstAppliedAgentDropIds := []
    passAlreadyBusting := true
    supersessionRideAvailable := false
    tagWindowProtectedBlockIds := tagWindow
    exemptMessageProtectedBlockIds := exemptBlocks }

def ageDecisions (ctx : SelectionContext ℚ) (messages : List (IngressMessage Unit)) :
    List ReductionDecision :=
  selectReductions plainVocabulary (tailSelItems (fun _ => none) none (projected messages)) [] ctx
    ⟨false⟩

def ageServed (settings : OutputSettings) (ctx : SelectionContext ℚ)
    (messages : List (IngressMessage Unit)) : List (ServedMessage Unit) :=
  buildOutput plainSurface settings ((ageDecisions ctx messages).map redUnit) (projected messages)
    messages

theorem callsOwnIds_oneTurn : CallsOwnIds (projected oneTurn) := by
  unfold CallsOwnIds
  decide +kernel

/-- Protection of a tool block in a message open to reduction extends to its provider call id. -/
def ProtectionClosed {F : Type} (settings : OutputSettings) (ctx : SelectionContext F)
    (blocks : List (FlatBlock J)) : Prop :=
  ∀ a ∈ blocks, ∀ b ∈ blocks, ctx.blockIsProtected a.id = true →
    settings.mutationExempt a.mid = false → a.wire.kind.toolCallId.isSome →
    b.wire.kind.toolCallId = a.wire.kind.toolCallId → ctx.blockIsProtected b.id = true

/-- A block without a unit is served as it came, or goes with its provider call id. -/
theorem holds_iff_of_no_unit (hred : ReductionUnits units)
    (hproject : projectMessages codec messages = .ok blocks) (hids : CallsOwnIds blocks)
    (hblock : block ∈ blocks)
    (hunstripped : settings.mutationExempt block.mid = false → Unstripped surface settings block)
    (hlive : block.synthetic = false)
    (houtput : settings.isOutput block.mid block.ordinal = true)
    (hnone : redByBlockId units block.id = none) :
    (∃ served ∈ buildOutput surface settings units blocks messages,
        served.Holds block block.wire) ↔
      settings.mutationExempt block.mid = true ∨ removed settings units blocks block = false := by
  rw [buildOutput_eq hred hproject hids, exists_rendered_iff hred hproject hblock]
  unfold servedBlock
  rw [hlive, houtput]
  split_ifs with hstatus hexempt hremoved
  · simp at hstatus
  · simp [hexempt]
  · simp [hexempt, hremoved]
  · rw [openBlock_of_redByBlockId_eq_none hred (hunstripped (by simpa using hexempt)) hnone]
    simp [hremoved]

/-- A removal is owed to a drop unit of a block with the provider call id. -/
theorem removed_eq_false (h : ∀ other ∈ blocks, other.wire.kind.toolCallId.isSome →
      other.wire.kind.toolCallId = block.wire.kind.toolCallId →
      redByBlockId units other.id = none) :
    removed settings units blocks block = false := by
  refine Bool.eq_false_iff.mpr fun hremoved => ?_
  obtain ⟨id, hid, dropped, hdropped, hfull⟩ := exists_drop_of_removed hremoved
  obtain ⟨hdroppedId, -, hkind, -⟩ := fullDropToolId_eq_some.mp hfull
  rw [frozenKind, h dropped hdropped (by simp [hdroppedId]) (hdroppedId.trans hid.symm)] at hkind
  cases hkind

section

variable {F : Type} [Numbers F] {vocabulary : Vocabulary J} {ctx : SelectionContext F}

theorem redByBlockId_eq_none_of_protected {items : List (SelItem J)} {frozen : List String}
    {config : SelectionConfig} {id : String} (h : ctx.blockIsProtected id = true) :
    redByBlockId ((selectReductions vocabulary items frozen ctx config).map redUnit) id = none := by
  rw [Option.eq_none_iff_forall_ne_some]
  intro unit hunit
  obtain ⟨decision, hmem, rfl, -⟩ := exists_decision_of_redByBlockId hunit
  have hnot := not_protected_of_mem_selectReductions hmem
  rw [h] at hnot
  cases hnot

end

def ArcsOwnIds (blocks : List (FlatBlock J)) : Prop :=
  ∀ a ∈ blocks, ∀ b ∈ blocks, a.wire.kind.toolCallId.isSome →
    a.wire.kind.toolCallId = b.wire.kind.toolCallId →
    a = b ∨ (a.arcId = b.arcId ∧ a.arcId.isSome)

theorem exists_owner (hproject : projectMessages codec messages = .ok blocks)
    (hblock : block ∈ blocks) (hsome : block.wire.kind.toolCallId.isSome) :
    ∃ call ∈ blocks, call.isToolCall = true ∧
      call.wire.kind.toolCallId = block.wire.kind.toolCallId ∧
      (block = call ∨ (call.arcId = block.arcId ∧ block.arcId.isSome)) := by
  cases hkind : block.wire.kind with
  | toolCall id name input executed =>
    have hcall : block.isToolCall = true := by
      simp [FlatBlock.isToolCall, hkind, BlockKind.isToolCall]
    exact ⟨block, hblock, hcall, by rw [hkind], .inl rfl⟩
  | toolResult id name output executed =>
    obtain ⟨groups, rfl, hgrouped⟩ := exists_grouped hproject
    obtain ⟨call, hcall, hisCall, hid, harc⟩ := hgrouped.exists_own_call hblock
      (by simp [FlatBlock.isToolResult, hkind, BlockKind.isToolResult])
    refine ⟨call, hcall, hisCall, ?_, .inr harc⟩
    rw [hgrouped.toolCallId_wire hcall, hid, ← hkind, hgrouped.toolCallId_wire hblock]
  | _ => simp [hkind, BlockKind.toolCallId] at hsome

theorem arcsOwnIds_of_callsOwnIds (hproject : projectMessages codec messages = .ok blocks)
    (hids : CallsOwnIds blocks) : ArcsOwnIds blocks := by
  intro a ha b hb hsome hid
  obtain ⟨call, hcall, hisCall, hcallId, howna⟩ := exists_owner hproject ha hsome
  obtain ⟨other, hother, hisOther, hotherId, hownb⟩ := exists_owner hproject hb (hid ▸ hsome)
  obtain rfl := hids call hcall other hother hisCall hisOther (by rw [hcallId, hotherId, hid])
  rcases howna with rfl | ⟨harca, hsomea⟩ <;> rcases hownb with rfl | ⟨harcb, hsomeb⟩
  · exact .inl rfl
  · exact .inr ⟨harcb, harcb ▸ hsomeb⟩
  · exact .inr ⟨harca.symm, hsomea⟩
  · exact .inr ⟨harca.symm.trans harcb, hsomea⟩

variable {units' : List FrozenUnit}

theorem callKindById_congr (hids : ArcsOwnIds blocks) (hresult : result ∈ blocks)
    (hisResult : result.isToolResult = true) {id : String}
    (hid : result.wire.kind.toolCallId = some id)
    (hcalls : ∀ call ∈ blocks, call.isToolCall = true → call.arcId = result.arcId →
      frozenKind units call.id = frozenKind units' call.id) :
    callKindById units blocks id = callKindById units' blocks id := by
  unfold callKindById
  cases hfind : blocks.find? fun block =>
      block.wire.kind.isToolCall && block.wire.kind.toolCallId = some id with
  | none => rfl
  | some call =>
    obtain ⟨hisCall, hcallId⟩ : call.wire.kind.isToolCall = true ∧
        call.wire.kind.toolCallId = some id := by
      simpa using find?_some hfind
    have hmem := mem_of_find?_eq_some hfind
    refine hcalls call hmem hisCall ?_
    rcases hids call hmem result hresult (by simp [hcallId]) (hcallId.trans hid.symm) with
      rfl | ⟨harc, -⟩
    · unfold FlatBlock.isToolResult at hisResult
      cases hkind : call.wire.kind <;> simp [hkind, BlockKind.isToolCall, BlockKind.isToolResult]
        at hisCall hisResult
    · exact harc

theorem removed_of_calls (hids : ArcsOwnIds blocks) (hresult : result ∈ blocks)
    (hisResult : result.isToolResult = true) (hdrop' : frozenKind units' result.id = some "drop")
    (hcalls : ∀ call ∈ blocks, call.isToolCall = true → call.arcId = result.arcId →
      frozenKind units call.id = frozenKind units' call.id)
    (h : removed settings units blocks result = true) :
    removed settings units' blocks result = true := by
  obtain ⟨id, hid, dropped, hdropped, hfull⟩ := exists_drop_of_removed h
  obtain ⟨hdroppedId, heligible, hkind, hshell⟩ := fullDropToolId_eq_some.mp hfull
  have hsame := hids dropped hdropped result hresult (by simp [hdroppedId])
    (hdroppedId.trans hid.symm)
  have harc : dropped.arcId = result.arcId := by
    rcases hsame with rfl | ⟨harc, -⟩
    · rfl
    · exact harc
  have hgone : ∃ block ∈ blocks,
      fullDropToolId units' blocks (ineligibleArcs settings blocks) block = some id := by
    rcases hshell with hisCall | hshell
    · refine ⟨dropped, hdropped, fullDropToolId_eq_some.mpr
        ⟨hdroppedId, heligible, ?_, .inl hisCall⟩⟩
      rw [← hcalls dropped hdropped hisCall harc, hkind]
    · rw [callKindById_congr hids hresult hisResult hid hcalls] at hshell
      exact ⟨result, hresult, fullDropToolId_eq_some.mpr
        ⟨hid, harc ▸ heligible, hdrop', .inr hshell⟩⟩
  have hmem : id ∈ fullDropToolIds units' blocks (ineligibleArcs settings blocks) :=
    mem_filterMap.mpr hgone
  simp [removed, hid, hmem]

end Eidnara.Daemon.Transform
