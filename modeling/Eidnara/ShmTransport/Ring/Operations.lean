import Eidnara.Lib.Prog
import Eidnara.Lib.Vec
import Eidnara.ShmTransport.Descriptor
import Eidnara.ShmTransport.Layout

/-!
# Ring handles and their atomic operations

One `Op` is one atomic operation of `ring.rs` and `retained.rs` on the mapping, on the
receiver records, on a doorbell or on the clock.  The functions of a handle are
actions over these operations whose private state is the handle's own cells.  Memory
orderings are not modelled: the operations of all parties happen in one order.
-/

namespace Eidnara.ShmTransport

open Lib

/-! ## Errors -/

inductive RingError where
  | arithmeticOverflow
  | objectSetupFailed
  | objectValidationFailed
  | invalidGrant
  | invalidLayout
  | invalidSharedState
  | doorbellFailed
  | sequenceExhausted
  | quarantined
  | roleMismatch
  | geometry (error : GeometryError)
  | descriptor (error : DescriptorError)
deriving DecidableEq, Repr

def RingError.ofMapping : MappingError → RingError
  | .objectSetupFailed => .objectSetupFailed
  | .objectValidationFailed => .objectValidationFailed
  | .invalidLayout => .invalidLayout
  | .arithmeticOverflow => .arithmeticOverflow

inductive ProducerError where
  | boundExceedsClass
  | overflow
  | commitOutsideReservation
  | underfill
  | aborted
  | exhausted
  | reservationOutstanding
  | deadline
  | retired
  | wireHeaderMismatch
  | quarantined
  | ring (error : RingError)
deriving DecidableEq, Repr

inductive WakeError where
  | mapping
  | doorbell
deriving DecidableEq, Repr

/-! ## Operations -/

inductive Wake where
  | data | capacity
deriving DecidableEq, Repr

inductive SlotField where
  | sequence | block | generation | bodyLen
deriving DecidableEq, Repr

inductive Polled where
  | ready (readable : Bool)
  | interrupted
  | failed
deriving DecidableEq, Repr

/-- An owned receive: what the receiver validated and captured. -/
structure PayloadLease where
  block : Nat
  generation : Nat
  bodyLen : Nat
  wireHeader : WireHeader
deriving DecidableEq

inductive Op where
  | loadPublished
  | casPublished (expected new : Nat)
  | loadConsumed
  | casConsumed (expected new : Nat)
  | loadSlot (index : Nat) (field : SlotField)
  | storeSlot (index : Nat) (field : SlotField) (value : Nat)
  | loadHeader (block : Nat)
  | storeHeader (block : Nat) (header : WireHeader)
  | storeBody (block start : Nat) (bytes : List UInt8)
  | loadCell (block : Nat)
  | fetchMaxCell (block generation : Nat)
  | swapReturn (word : Nat)
  | fetchOrReturn (word bit : Nat)
  | loadLive (block : Nat)
  | casLive (block generation : Nat)
  | storeLive (block generation : Nat)
  | loadSeen (block : Nat)
  | storeSeen (block generation : Nat)
  | newLease (lease : PayloadLease)
  | loadFlag
  | storeFlag
  | bumpGeneration (wake : Wake)
  | loadGeneration (wake : Wake)
  | swapParked (wake : Wake)
  | storeParked (wake : Wake) (value : Nat)
  | sendToken (wake : Wake)
  | recvTokens (wake : Wake)
  | pollNow (wake : Wake)
  | poll (wake : Wake) (timeout : Nat)
  | now
deriving DecidableEq

/-- What an operation answers.  An exchange answers whether it took place, a doorbell
call whether it succeeded; both retry an interrupted call. -/
@[reducible]
def Op.Resp : Op → Type
  | loadPublished | loadConsumed | loadSlot .. | loadCell _ | swapReturn _ | loadLive _
  | loadSeen _ | loadFlag | loadGeneration _ | swapParked _ | now => Nat
  | casPublished .. | casConsumed .. | casLive .. | sendToken _ | recvTokens _ | pollNow _ => Bool
  | loadHeader _ => WireHeader
  | poll .. => Polled
  | storeSlot .. | storeHeader .. | storeBody .. | fetchMaxCell .. | fetchOrReturn ..
  | storeLive .. | storeSeen .. | newLease _ | storeFlag | bumpGeneration _
  | storeParked .. => Unit

variable {ρ ε α : Type}

def Op.run (op : Op) : Act Op Op.Resp ρ ε op.Resp := Act.call op

/-! ## Handles -/

inductive BlockState where
  | free | reserved | published
deriving DecidableEq, Repr

/-- The producer's private ledger.  Lists have their top at the end. -/
structure ProducerLedger where
  states : Nat → BlockState
  generations : Nat → Nat
  free : BlockClass → List Nat
  outstanding : List Nat
  reclaimed : List Nat
  allowed : Bool
  retired : Bool

structure Ring where
  quarantined : Bool
  ledger : ProducerLedger
  reservedBlock : Option Nat
  publishedLocal : Nat
  consumedLocal : Nat
  consumedSeen : Nat
  publishedSeen : Nat
  producer : Bool
  consumer : Bool

abbrev RingAct (ε α : Type) : Type := Act Op Op.Resp Ring ε α

/-- `ProducerLedger::new`: every block is on the free list of its class, the highest
id first. -/
def ProducerLedger.new (geometry : PoolGeometry) (allowed : Bool) : ProducerLedger where
  states _ := .free
  generations _ := 0
  free blockClass :=
    (List.range' (geometry.firstBlock blockClass) (geometry.classSpec blockClass).count).reverse
  outstanding := []
  reclaimed := []
  allowed := allowed
  retired := false

/-- A handle of a pool with `published` and `consumed` frames, as `attach` makes it;
`create` makes the handle of an empty pool. -/
def Ring.attach (geometry : PoolGeometry) (published consumed : Nat) : Ring where
  quarantined := false
  ledger := .new geometry (published = 0 ∧ consumed = 0)
  reservedBlock := none
  publishedLocal := published
  consumedLocal := consumed
  consumedSeen := consumed
  publishedSeen := published
  producer := false
  consumer := false

def Ring.create (geometry : PoolGeometry) : Ring := .attach geometry 0 0

/-! ## Signals and quarantine -/

/-- Goes on only if an accessor finds its page. -/
def page (access : Except MappingError α) : Act Op Op.Resp ρ RingError α :=
  Act.lift (access.mapError .ofMapping)

theorem page_ok (a : α) : (page (.ok a) : Act Op Op.Resp ρ RingError α) = pure a := rfl

/-- `Doorbell::signal`; a full buffer counts as sent. -/
def Doorbell.signal (wake : Wake) : Act Op Op.Resp ρ RingError Unit := do
  let sent : Bool ← (Op.sendToken wake).run
  if sent then pure () else Act.throw .doorbellFailed

/-- `Doorbell::drain`: at most `DRAIN_BYTES` tokens are taken. -/
def Doorbell.drain (wake : Wake) : Act Op Op.Resp ρ RingError Unit := do
  let drained : Bool ← (Op.recvTokens wake).run
  if drained then pure () else Act.throw .doorbellFailed

namespace Retained

variable (retained : Retained)

def sendCapacityToken : Act Op Op.Resp ρ WakeError Unit := do
  let sent : Bool ← (Op.sendToken .capacity).run
  if sent then pure () else Act.throw .doorbell

def signalCapacity : Act Op Op.Resp ρ WakeError Unit :=
  match retained.capacityWakePage with
  | .error _ => Act.throw .mapping
  | .ok _ => do
    (Op.bumpGeneration .capacity).run
    let parked : Nat ← (Op.swapParked .capacity).run
    if parked = 0 then pure () else sendCapacityToken

end Retained

namespace Ring

variable (retained : Retained)

def signalDataWake : Act Op Op.Resp ρ RingError Unit := do
  page retained.dataWakePage
  (Op.bumpGeneration .data).run
  let parked : Nat ← (Op.swapParked .data).run
  if parked ≠ 0 then Doorbell.signal .data else pure ()

/-- The store to the shared flag, if its page can be addressed. -/
def raiseFlag : RingAct ε Unit :=
  match retained.lifecycleQuarantined with
  | .ok _ => Op.storeFlag.run
  | .error _ => pure ()

/-- Wake failures are ignored: the ring is already terminal. -/
def enterQuarantine : RingAct ε Unit := do
  Act.modify fun ring => { ring with quarantined := true }
  raiseFlag retained
  (signalDataWake retained).ignore
  retained.signalCapacity.ignore

/-- Seeing the shared flag latches it; an unreadable page counts as quarantined. -/
def isQuarantined : RingAct ε Bool := do
  let ring ← Act.get
  if ring.quarantined then pure true
  else
    match retained.lifecycleQuarantined with
    | .ok _ =>
      let flag : Nat ← Op.loadFlag.run
      if flag ≠ 0 then
        Act.modify fun ring => { ring with quarantined := true }
        pure true
      else pure false
    | .error _ =>
      Act.modify fun ring => { ring with quarantined := true }
      pure true

/-- `quarantine_with`, for an error observed mid-operation. -/
def quarantineWith (error : RingError) : RingAct RingError α := do
  enterQuarantine retained
  Act.throw error

/-- An action whose errors quarantine the ring. -/
def orQuarantine (p : RingAct RingError α) : RingAct RingError α :=
  p.catchWith fun error => quarantineWith retained error

end Ring

end Eidnara.ShmTransport
