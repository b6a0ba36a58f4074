import Eidnara.ShmTransport.Ring.Producer

/-!
# Waiting for capacity

The parking side of the wake protocol: a wait for capacity is armed if the reservation is exhausted
and the generation has not moved.
-/

namespace Eidnara.ShmTransport

open Lib

variable {ρ ε : Type}

namespace ParkGuard

/-- `ParkGuard::arm`: the generation the park is bound to. -/
def arm (wake : Wake) : Act Op Op.Resp ρ ε Nat := do
  let generation : Nat ← (Op.loadGeneration wake).run
  (Op.storeParked wake ((generation + 1) % 2 ^ 64)).run
  pure generation

def drop (wake : Wake) : Act Op Op.Resp ρ ε Unit := (Op.storeParked wake 0).run

/-- Runs an action under the guard, which is kept only if the action answers `true`. -/
def keptIf (wake : Wake) (p : Act Op Op.Resp ρ ε Bool) : Act Op Op.Resp ρ ε Bool := do
  let held ← p.outcome
  match held with
  | .ok true => pure true
  | .ok false =>
    drop wake
    pure false
  | .error error =>
    drop wake
    Act.throw error

end ParkGuard

namespace Ring

variable (retained : Retained)

def reservationExhausted (inventory : Inventory) (bound : Nat) : RingAct RingError Bool := do
  let ring ← Act.get
  if ring.reservedBlock.isSome then pure false
  else if ring.ledger.allowed = false ∨ ring.ledger.retired then pure false
  else
    reclaimCompletions retained
    match retained.geometry.classFor inventory bound with
    | none => pure false
    | some blockClass =>
      let outstanding ← orQuarantine retained (descriptorsOutstanding retained)
      if outstanding ≥ descriptorLimit retained.geometry inventory then pure true
      else
        let ring ← Act.get
        pure (ring.ledger.free blockClass).isEmpty

def armedCapacityWaitHolds (generation : Nat) (inventory : Inventory) (bound : Nat) :
    RingAct RingError Bool := do
  let quarantined ← isQuarantined retained
  if quarantined then Act.throw .quarantined
  else
    let exhausted ← reservationExhausted retained inventory bound
    if exhausted then
      let current : Nat ← (Op.loadGeneration .capacity).run
      pure (current = generation)
    else pure false

/-- The part of the arm that runs under the guard. -/
def armedCapacityWait (generation : Nat) (inventory : Inventory) (bound : Nat) :
    RingAct RingError Bool := do
  let holds ← armedCapacityWaitHolds retained generation inventory bound
  if holds then
    orQuarantine retained (Doorbell.drain .capacity)
    armedCapacityWaitHolds retained generation inventory bound
  else pure false

/-- The caller owns the mark of a `true` answer until `completeCapacityWait` clears it. -/
def armCapacityWait (inventory : Inventory) (bound : Nat) : RingAct RingError Bool := do
  let quarantined ← isQuarantined retained
  if quarantined then Act.throw .quarantined
  else
    page retained.capacityWakePage
    let generation ← ParkGuard.arm .capacity
    ParkGuard.keptIf .capacity (armedCapacityWait retained generation inventory bound)

end Ring

end Eidnara.ShmTransport
