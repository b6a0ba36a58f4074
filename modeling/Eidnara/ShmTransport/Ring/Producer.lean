import Eidnara.ShmTransport.Ring.Operations

/-!
# The producer handle

Reservation, reclamation, publication and the health checks of `ring.rs`.
-/

namespace Eidnara.ShmTransport

open Lib

/-- A reserved block the producer fills and then commits. -/
structure ProducerReservation where
  block : Nat
  generation : Nat
  blockClass : BlockClass
  capacity : Nat
  cursor : Nat
  wireHeader : WireHeader
  finished : Bool

namespace ProducerLedger

variable (ledger : ProducerLedger)

def pushFree (blockClass : BlockClass) (block : Nat) : ProducerLedger :=
  { ledger with
    free := Function.update ledger.free blockClass (ledger.free blockClass ++ [block]) }

/-- A block leaves the free list, and `reclaimed` if its return is still unsettled. -/
def takeFree (blockClass : BlockClass) (rest : List Nat) (block : Nat) : ProducerLedger :=
  { ledger with
    free := Function.update ledger.free blockClass rest
    reclaimed := Vec.removeValue ledger.reclaimed block }

def setState (block : Nat) (state : BlockState) : ProducerLedger :=
  { ledger with states := Function.update ledger.states block state }

def freeBlock (geometry : PoolGeometry) (blockClass : BlockClass) (block : Nat) :
    ProducerLedger :=
  { ledger with
    outstanding := Vec.removeValue ledger.outstanding block
    states := Function.update ledger.states block .free
    free := Function.update ledger.free blockClass (ledger.free blockClass ++ [block])
    reclaimed :=
      if ledger.reclaimed.length < geometry.blockCount then ledger.reclaimed ++ [block]
      else ledger.reclaimed }

end ProducerLedger

namespace Ring

variable {ε : Type} (retained : Retained)

/-! ## Reclamation -/

def setBits (flagged : Nat) : List Nat := (List.range returnWordBits).filter (flagged.testBit ·)

/-- What an accepted completion does to the ledger. -/
def settleCompletion (block freed : Nat) : RingAct RingError Unit := do
  let ring ← Act.get
  if ring.ledger.states block = .published then
    match retained.geometry.placement freed with
    | none => Act.throw .invalidLayout
    | some placement =>
      Act.modify fun ring =>
        { ring with
          ledger := ring.ledger.freeBlock retained.geometry placement.blockClass freed }
  else pure ()

def reclaimBlock (block : Nat) (flagged : Bool) : RingAct RingError Unit := do
  let ring ← Act.get
  if block < retained.geometry.blockCount then
    page (retained.completionCell block)
    let completed : Nat ← (Op.loadCell block).run
    if completed = 0 ∧ flagged = false then pure ()
    else
      match CompletionRecord.validate ⟨block, completed⟩ retained.geometry
          (some (ring.ledger.generations block)) with
      | .ok freed => settleCompletion retained block freed
      | .error .staleCompletion => pure ()
      | .error error => Act.throw (.descriptor error)
  else Act.throw (.descriptor .invalidBlock)

def reclaimFlagged (word : Nat) : List Nat → RingAct RingError Unit
  | [] => pure ()
  | bit :: bits => do
    orQuarantine retained (reclaimBlock retained (word * returnWordBits + bit) true)
    reclaimFlagged word bits

def reclaimWords : List Nat → RingAct RingError Unit
  | [] => pure ()
  | word :: words => do
    page (retained.returnWord word)
    let flagged : Nat ← (Op.swapReturn word).run
    reclaimFlagged retained word (setBits flagged)
    reclaimWords words

def reclaimCompletions : RingAct RingError Unit :=
  reclaimWords retained (List.range retained.layout.returnWords)

/-- The scan of `reclaim_all_completions` from an index.  Every turn drops an entry of
`outstanding` or passes one, so the list's length is enough turns. -/
def reclaimFrom : Nat → Nat → RingAct RingError Unit
  | 0, _ => pure ()
  | turns + 1, index => do
    let ring ← Act.get
    match ring.ledger.outstanding[index]? with
    | none => pure ()
    | some block =>
      orQuarantine retained (reclaimBlock retained block false)
      let after ← Act.get
      if after.ledger.outstanding.length = ring.ledger.outstanding.length then
        reclaimFrom turns (index + 1)
      else reclaimFrom turns index

def reclaimAllCompletions : RingAct RingError Unit := do
  let ring ← Act.get
  reclaimFrom retained ring.ledger.outstanding.length 0

/-! ## Reservation -/

def descriptorsOutstanding : RingAct RingError Nat := do
  page retained.consumerPage
  let consumed : Nat ← Op.loadConsumed.run
  let ring ← Act.get
  if consumed < ring.consumedSeen ∨ consumed > ring.publishedLocal then
    Act.throw .invalidSharedState
  else
    Act.modify fun ring => { ring with consumedSeen := consumed }
    pure (ring.publishedLocal - consumed)

def descriptorLimit (geometry : PoolGeometry) : Inventory → Nat
  | .ordinary => geometry.ordinaryDescriptors
  | .control | .terminal => geometry.descriptorDepth

/-- The checks on a block taken from its free list; a refused block goes back. -/
def reserveBlock (blockClass : BlockClass) (block bound : Nat) (wireHeader : WireHeader) :
    RingAct ProducerError ProducerReservation := do
  let ring ← Act.get
  match checkedAdd 64 (ring.ledger.generations block) 1 with
  | none =>
    Act.modify fun ring =>
      { ring with ledger := { ring.ledger.pushFree blockClass block with retired := true } }
    Act.throw .retired
  | some generation =>
    (orQuarantine retained (page (retained.completionCell block))).mapError .ring
    let completed : Nat ← (Op.loadCell block).run
    -- a completion at or past the new generation can forge the next return
    if completed ≥ generation then
      Act.modify fun ring => { ring with ledger := ring.ledger.pushFree blockClass block }
      (quarantineWith retained (.descriptor .futureCompletion)).mapError .ring
    else
      Act.modify fun ring =>
        { ring with
          ledger :=
            { ring.ledger with
              generations := Function.update ring.ledger.generations block generation
              states := Function.update ring.ledger.states block .reserved }
          reservedBlock := some block
          producer := true }
      pure { block, generation, blockClass, capacity := bound, cursor := 0, wireHeader,
             finished := false }

def takeBlock (blockClass : BlockClass) (bound : Nat) (wireHeader : WireHeader) :
    RingAct ProducerError ProducerReservation := do
  let ring ← Act.get
  match Vec.pop (ring.ledger.free blockClass) with
  | none => Act.throw .exhausted
  | some (rest, block) =>
    Act.modify fun ring => { ring with ledger := ring.ledger.takeFree blockClass rest block }
    reserveBlock retained blockClass block bound wireHeader

/-- `try_reserve_in` after its reclaim pass. -/
def reserveReclaimed (inventory : Inventory) (bound : Nat) (wireHeader : WireHeader) :
    RingAct ProducerError ProducerReservation :=
  match retained.geometry.classFor inventory bound with
  | none => Act.throw .boundExceedsClass
  | some blockClass => do
    let outstanding ←
      (orQuarantine retained (descriptorsOutstanding retained)).mapError .ring
    if outstanding ≥ descriptorLimit retained.geometry inventory then Act.throw .exhausted
    else
      let ring ← Act.get
      if ring.publishedLocal = u64Max then
        Act.modify fun ring => { ring with ledger := { ring.ledger with retired := true } }
        Act.throw .retired
      else takeBlock retained blockClass bound wireHeader

/-- `try_reserve_in` up to and with its reclaim pass. -/
def admitReservation (bound : Nat) : RingAct ProducerError Unit :=
  if bound > maxFrameBytes then Act.throw .boundExceedsClass
  else do
    let quarantined ← isQuarantined retained
    let ring ← Act.get
    if quarantined then Act.throw .quarantined
    else if ring.reservedBlock.isSome then Act.throw .reservationOutstanding
    else if ring.ledger.allowed = false then Act.throw (.ring .roleMismatch)
    else if ring.ledger.retired then Act.throw .retired
    else (reclaimCompletions retained).mapError .ring

def tryReserveIn (inventory : Inventory) (bound : Nat) (wireHeader : WireHeader) :
    RingAct ProducerError ProducerReservation := do
  admitReservation retained bound
  reserveReclaimed retained inventory bound wireHeader

/-- Gives the block of an unpublished reservation back; its generation stays burned. -/
def abortReservation (geometry : PoolGeometry) (ring : Ring) (block : Nat) : Ring :=
  if ring.reservedBlock ≠ some block then ring
  else if ring.ledger.states block ≠ .reserved then { ring with reservedBlock := none }
  else
    match geometry.placement block with
    | none => { ring with reservedBlock := none }
    | some placement =>
      { ring with
        reservedBlock := none
        ledger := (ring.ledger.setState block .free).pushFree placement.blockClass block }

/-! ## Publication -/

/-- The header and the descriptor fields, in the order they are written. -/
def writeSlot (index block generation bodyLen sequence : Nat) (wireHeader : WireHeader) :
    RingAct ε Unit := do
  (Op.storeHeader block wireHeader).run
  (Op.storeSlot index .block block).run
  (Op.storeSlot index .generation generation).run
  (Op.storeSlot index .bodyLen bodyLen).run
  (Op.storeSlot index .sequence sequence).run

/-- The exchange on the cursor and the ledger update behind it. -/
def publishCursor (block published sequence : Nat) : RingAct ProducerError Unit := do
  let swapped : Bool ← (Op.casPublished published sequence).run
  if swapped then
    Act.modify fun ring =>
      { ring with
        publishedLocal := sequence
        ledger :=
          { ring.ledger.setState block .published with
            outstanding := ring.ledger.outstanding ++ [block] }
        reservedBlock := none }
  else (quarantineWith retained .invalidSharedState).mapError .ring

/-- Past the cursor the frame is the peer's: a failed wake quarantines, and a
quarantine that landed meanwhile is reported. -/
def announce (block generation : Nat) : RingAct ProducerError PayloadIdentity := do
  let signalled ← (signalDataWake retained).outcome
  match signalled with
  | .error error =>
    enterQuarantine retained
    Act.throw (.ring error)
  | .ok _ =>
    let quarantined ← isQuarantined retained
    if quarantined then Act.throw .quarantined
    else
      pure { incarnation := retained.incarnation, lane := retained.lane, block, generation }

def publishCommit (block generation bodyLen : Nat) (wireHeader : WireHeader) :
    RingAct ProducerError PayloadIdentity :=
  match checkWireHeader wireHeader bodyLen with
  | .error _ => Act.throw .wireHeaderMismatch
  | .ok _ => do
    let ring ← Act.get
    match checkedAdd 64 ring.publishedLocal 1 with
    | none =>
      Act.modify fun ring => { ring with ledger := { ring.ledger with retired := true } }
      Act.throw .retired
    | some sequence =>
      let index := (sequence - 1) % retained.geometry.descriptorDepth
      (orQuarantine retained (page (retained.slotPage index))).mapError .ring
      (orQuarantine retained (page retained.producerPage)).mapError .ring
      let _ ← (orQuarantine retained (page (retained.headerPtr block))).mapError .ring
      writeSlot index block generation bodyLen sequence wireHeader
      publishCursor retained block ring.publishedLocal sequence
      announce retained block generation

def writeReservation (block capacity cursor : Nat) (bytes : List UInt8) :
    RingAct ProducerError Unit :=
  match checkedAdd 64 cursor bytes.length with
  | none => Act.throw .overflow
  | some stop =>
    if stop > capacity then Act.throw .overflow
    else do
      let _ ← (page (retained.bodyPtr block capacity)).mapError .ring
      (Op.storeBody block cursor bytes).run

/-! ## Health -/

structure ClassInventory where
  free : Nat
  reserved : Nat
  published : Nat
deriving DecidableEq, Repr

structure PoolInventory where
  classes : BlockClass → ClassInventory
  descriptorsOutstanding : Nat
  descriptorDepth : Nat
  ordinaryDescriptors : Nat
  retired : Bool

def countBlocks (geometry : PoolGeometry) (ledger : ProducerLedger) (blockClass : BlockClass)
    (state : BlockState) : Nat :=
  (List.range geometry.blockCount).countP fun block =>
    (geometry.placement block).map BlockPlacement.blockClass = some blockClass ∧
      ledger.states block = state

/-- Folds in the returns since the last reservation, for a producing handle. -/
def refresh : RingAct ε Unit := do
  let ring ← Act.get
  if ring.producer then
    let quarantined ← isQuarantined retained
    if quarantined then pure () else (reclaimCompletions retained).ignore
  else pure ()

def consumedOrZero : RingAct ε Nat :=
  match retained.consumerPage with
  | .ok _ => Op.loadConsumed.run
  | .error _ => pure 0

def inventory : RingAct ε PoolInventory := do
  refresh retained
  let quarantined ← isQuarantined retained
  let ring ← Act.get
  let consumed ← consumedOrZero retained
  pure
    { classes := fun blockClass =>
        if quarantined then
          { free := 0, reserved := 0,
            published := (retained.geometry.classSpec blockClass).count }
        else
          { free := countBlocks retained.geometry ring.ledger blockClass .free
            reserved := countBlocks retained.geometry ring.ledger blockClass .reserved
            published := countBlocks retained.geometry ring.ledger blockClass .published }
      descriptorsOutstanding := ring.publishedLocal - consumed
      descriptorDepth := retained.geometry.descriptorDepth
      ordinaryDescriptors := retained.geometry.ordinaryDescriptors
      retired := ring.ledger.retired }

/-- What `probe` asks of the shared cursors. -/
def Consistent (geometry : PoolGeometry) (ring : Ring) (published consumed : Nat) : Prop :=
  consumed ≤ published ∧ published - consumed ≤ geometry.descriptorDepth ∧
    (ring.producer = true → published = ring.publishedLocal) ∧
    (ring.consumer = true → consumed = ring.consumedLocal)

instance (geometry : PoolGeometry) (ring : Ring) (published consumed : Nat) :
    Decidable (Consistent geometry ring published consumed) :=
  inferInstanceAs (Decidable (_ ∧ _ ∧ (_ → _) ∧ (_ → _)))

def probe : RingAct RingError Unit := do
  let quarantined ← isQuarantined retained
  if quarantined then Act.throw .quarantined
  else
    page retained.producerPage
    let published : Nat ← Op.loadPublished.run
    page retained.consumerPage
    let consumed : Nat ← Op.loadConsumed.run
    let ring ← Act.get
    if Consistent retained.geometry ring published consumed then
      if ring.producer then reclaimAllCompletions retained else pure ()
    else quarantineWith retained .invalidSharedState

/-- `take_reclaimed` up to its loop. -/
def drainReturns : RingAct RingError Unit := do
  let ring ← Act.get
  if ring.ledger.allowed then
    let quarantined ← isQuarantined retained
    if quarantined then pure () else reclaimCompletions retained
  else pure ()

/-- One turn of the loop of `take_reclaimed`: the block to settle, if one is left. -/
def nextReclaimed (ring : Ring) : Option (Nat × Ring) :=
  (Vec.pop ring.ledger.reclaimed).map fun (rest, block) =>
    (block, { ring with ledger := { ring.ledger with reclaimed := rest } })

end Ring

/-! ## Reservations -/

namespace ProducerReservation

variable {ε : Type} (retained : Retained) (reservation : ProducerReservation)

def abortNow : RingAct ε ProducerReservation :=
  if reservation.finished then pure reservation
  else do
    Act.modify fun ring => ring.abortReservation retained.geometry reservation.block
    pure { reservation with finished := true }

def refuse (error : ProducerError) :
    RingAct ε (Except ProducerError Unit × ProducerReservation) := do
  let reservation ← abortNow retained reservation
  pure (.error error, reservation)

def advance (bytes : Nat) : RingAct ε (Except ProducerError Unit × ProducerReservation) :=
  if reservation.finished then pure (.error .aborted, reservation)
  else
    match checkedAdd 64 reservation.cursor bytes with
    | none => refuse retained reservation .overflow
    | some cursor =>
      if cursor > reservation.capacity then refuse retained reservation .overflow
      else pure (.ok (), { reservation with cursor })

def setWireHeader (wireHeader : WireHeader) :
    RingAct ε (Except ProducerError Unit × ProducerReservation) :=
  if reservation.finished then pure (.error .aborted, reservation)
  else pure (.ok (), { reservation with wireHeader })

def write (bytes : List UInt8) : RingAct ε (Except ProducerError Unit × ProducerReservation) :=
  if reservation.finished then pure (.error .aborted, reservation)
  else do
    let written ← (Ring.writeReservation retained reservation.block reservation.capacity
      reservation.cursor bytes).outcome
    match written with
    | .error error => refuse retained reservation error
    | .ok _ => pure (.ok (), { reservation with cursor := reservation.cursor + bytes.length })

def refuseCommit (error : ProducerError) : RingAct ProducerError PayloadIdentity := do
  let _ ← abortNow retained reservation
  Act.throw error

def commit (bodyLen : Nat) : RingAct ProducerError PayloadIdentity :=
  if reservation.finished then Act.throw .aborted
  else do
    let quarantined ← Ring.isQuarantined retained
    if quarantined then refuseCommit retained reservation .quarantined
    else if bodyLen > reservation.capacity then
      refuseCommit retained reservation .commitOutsideReservation
    else if reservation.cursor ≠ bodyLen then refuseCommit retained reservation .underfill
    else
      match checkWireHeader reservation.wireHeader bodyLen with
      | .error _ => refuseCommit retained reservation .wireHeaderMismatch
      | .ok _ =>
        Ring.publishCommit retained reservation.block reservation.generation bodyLen
          reservation.wireHeader

end ProducerReservation

end Eidnara.ShmTransport
