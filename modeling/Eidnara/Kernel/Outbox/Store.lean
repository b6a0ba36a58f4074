import Eidnara.Lib.Checked
import Eidnara.Lib.Runs

/-!
# The outbox tables

`outbox.rs` and the barrier part of `cas/deletion.rs`: every commit adds rows to the outbox, the
registered consumers follow it by a checkpoint, pruning removes what every checkpoint has passed,
and the deletion of an artifact waits in a barrier for the consumers registered at that time.
-/

namespace Eidnara.Kernel.Outbox

open Lib

variable {Name : Type} [DecidableEq Name]

inductive KernelError
  | notFound
  | conflict
  | consumerPending
  | invalidCheckpoint
  | noRequiredConsumers
  /-- Raised by the store under it: a sequence already used or a hold that does not cover. -/
  | refused
  deriving DecidableEq, Repr

/-! ## Tables -/

structure OutboxRow where
  position : Nat
  commitSeq : Nat
  ordinal : Nat
  publishedAt : Option Nat
  deriving DecidableEq, Repr

def OutboxRow.key (row : OutboxRow) : Nat × Nat × Nat :=
  (row.position, row.commitSeq, row.ordinal)

structure ConsumerRow (Name : Type) where
  consumerId : Name
  checkpoint : Nat
  updatedAt : Nat
  deriving DecidableEq, Repr

structure BarrierRow (Name : Type) where
  barrierId : Name
  digest : Name
  deleteCommitSeq : Nat
  createdAt : Nat
  completedAt : Option Nat
  deriving DecidableEq, Repr

structure BarrierConsumerRow (Name : Type) where
  barrierId : Name
  consumerId : Name
  required : Nat
  acknowledgedAt : Option Nat
  deriving DecidableEq, Repr

structure AbandonmentRow (Name : Type) where
  consumerId : Name
  barrierId : Option Name
  lastCheckpoint : Nat
  commitSeq : Nat
  abandonedAt : Nat
  deriving DecidableEq, Repr

/-- What happened to the barriers and the checkpoints, for the statements about whole runs. -/
inductive Note (Name : Type)
  /-- A deletion committed under the sequence recorded these consumers in the barrier. -/
  | deleted (barrier : Name) (commitSeq : Nat) (consumers : List Name)
  | acknowledged (consumer : Name) (through : Nat)
  | abandoned (consumer barrier : Name) (commitSeq : Nat)
  /-- `complete_satisfied_barriers` completed these. -/
  | completed (barriers : List Name)
  /-- `abandon_deletion_barrier` completed this one. -/
  | barrierAbandoned (barrier : Name)
  deriving DecidableEq, Repr

structure Store (Name : Type) where
  commitLog : List Nat
  outbox : List OutboxRow
  /-- The next `outbox_position`. -/
  nextPosition : Nat
  publishedThrough : Nat
  consumers : List (ConsumerRow Name)
  barriers : List (BarrierRow Name)
  barrierConsumers : List (BarrierConsumerRow Name)
  abandonments : List (AbandonmentRow Name)
  /-- The newest first; no operation reads it. -/
  history : List (Note Name)

def Store.empty : Store Name where
  commitLog := []
  outbox := []
  nextPosition := 1
  publishedThrough := 0
  consumers := []
  barriers := []
  barrierConsumers := []
  abandonments := []
  history := []

/-- `COALESCE(MAX(commit_seq),0) FROM commit_log`. -/
def Store.tip (s : Store Name) : Nat := s.commitLog.max?.getD 0

def Store.checkpoint (s : Store Name) (consumer : Name) : Option Nat :=
  (s.consumers.find? (·.consumerId = consumer)).map (·.checkpoint)

/-! ## Barriers and acknowledgements -/

/-- The consumer is registered with a checkpoint at or above what the row requires. -/
def Store.reached (s : Store Name) (row : BarrierConsumerRow Name) : Bool :=
  (s.checkpoint row.consumerId).any (row.required ≤ ·)

def Store.abandoned (s : Store Name) (row : BarrierConsumerRow Name) : Bool :=
  s.abandonments.any fun a =>
    a.barrierId = some row.barrierId ∧ a.consumerId = row.consumerId ∧ row.required ≤ a.commitSeq

def Store.acknowledgeReached (s : Store Name) (completedAt : Nat) : Store Name :=
  { s with
    barrierConsumers := s.barrierConsumers.map fun row =>
      if row.acknowledgedAt = none ∧ s.reached row then
        { row with acknowledgedAt := some completedAt }
      else row }

/-- Incomplete, with recorded consumers that are all done. -/
def Store.satisfied (s : Store Name) (barrier : BarrierRow Name) : Bool :=
  barrier.completedAt.isNone &&
    s.barrierConsumers.any (·.barrierId = barrier.barrierId) &&
    s.barrierConsumers.all fun row =>
      row.barrierId ≠ barrier.barrierId || row.acknowledgedAt.isSome || s.reached row ||
        s.abandoned row

def Store.completeSatisfied (s : Store Name) (completedAt : Nat) : Store Name :=
  { s with
    barriers := s.barriers.map fun barrier =>
      if s.satisfied barrier then { barrier with completedAt := some completedAt } else barrier
    history := .completed ((s.barriers.filter s.satisfied).map (·.barrierId)) :: s.history }

/-- `complete_satisfied_barriers`: its two updates. -/
def Store.completeSatisfiedBarriers (s : Store Name) (completedAt : Nat) : Store Name :=
  (s.acknowledgeReached completedAt).completeSatisfied completedAt

def ConsumerRow.acknowledge (consumer : Name) (checkpoint updatedAt : Nat)
    (row : ConsumerRow Name) : ConsumerRow Name :=
  if row.consumerId = consumer then
    { row with checkpoint := checkpoint, updatedAt := max row.updatedAt updatedAt }
  else row

def Store.setCheckpoint (s : Store Name) (consumer : Name) (checkpoint updatedAt : Nat) :
    Store Name :=
  { s with
    consumers := s.consumers.map (ConsumerRow.acknowledge consumer checkpoint updatedAt)
    history := .acknowledged consumer checkpoint :: s.history }

def Store.acknowledgeOutbox (s : Store Name) (consumer : Name) (checkpoint updatedAt : Nat) :
    Except KernelError (Store Name) :=
  match s.checkpoint consumer with
  | none => .error .notFound
  | some current =>
    if checkpoint < current ∨ ¬(checkpoint = current ∨ checkpoint ∈ s.commitLog) then
      .error .invalidCheckpoint
    else
      .ok ((s.setCheckpoint consumer checkpoint updatedAt).completeSatisfiedBarriers updatedAt)

def Store.addConsumer (s : Store Name) (row : ConsumerRow Name) : Store Name :=
  { s with consumers := s.consumers ++ [row] }

def Store.removeConsumer (s : Store Name) (consumer : Name) : Store Name :=
  { s with consumers := s.consumers.filter (·.consumerId ≠ consumer) }

/-! ## Operations inside a commit -/

/-- A commit in progress: its sequence is in the log, its changes become rows at the end. -/
structure Envelope (Name : Type) where
  store : Store Name
  commitSeq : Nat
  changes : Nat

inductive Operation (Name : Type)
  /-- Any other operation: it pushes one change. -/
  | change
  | register (consumer : Name) (recordedAt : Nat)
  | deregister (consumer : Name) (recordedAt : Nat)
  | retire (consumer : Name) (certifiedThrough recordedAt : Nat)
  | abandonConsumer (consumer : Name) (barrier : Option Name) (abandonedAt : Nat)
  | abandonBarrier (barrier : Name) (abandonedAt : Nat)
  deriving DecidableEq, Repr

namespace Envelope

def preOperationTip (e : Envelope Name) : Nat :=
  (e.store.commitLog.filter (· < e.commitSeq)).max?.getD 0

def pushControlChange (e : Envelope Name) (store : Store Name) : Envelope Name :=
  { e with store := store, changes := e.changes + 1 }

/-- Where a consumer registered now starts reading. -/
def firstCheckpoint (e : Envelope Name) : Nat :=
  match (e.store.outbox.map (·.commitSeq)).min? with
  | some oldest => oldest - 1
  | none => e.preOperationTip

def registerOutboxConsumer (e : Envelope Name) (consumer : Name) (recordedAt : Nat) :
    Except KernelError (Envelope Name) :=
  if (e.store.checkpoint consumer).isSome then .error .conflict
  else
    .ok (e.pushControlChange
      (e.store.addConsumer ⟨consumer, e.firstCheckpoint, recordedAt⟩))

def deregisterOutboxConsumer (e : Envelope Name) (consumer : Name) (recordedAt : Nat) :
    Except KernelError (Envelope Name) :=
  match e.store.checkpoint consumer with
  | none => .error .notFound
  | some checkpoint =>
    if checkpoint < e.preOperationTip then .error .consumerPending
    else
      .ok (e.pushControlChange
        ((e.store.completeSatisfiedBarriers recordedAt).removeConsumer consumer))

def retireOutboxConsumer (e : Envelope Name) (consumer : Name) (certifiedThrough : Nat)
    (recordedAt : Nat) : Except KernelError (Envelope Name) :=
  match e.store.checkpoint consumer with
  | none => .error .notFound
  | some checkpoint =>
    if checkpoint < certifiedThrough then .error .consumerPending
    else if checkpoint < e.preOperationTip then
      match e.store.acknowledgeOutbox consumer e.preOperationTip recordedAt with
      | .error error => .error error
      | .ok store => { e with store := store }.deregisterOutboxConsumer consumer recordedAt
    else e.deregisterOutboxConsumer consumer recordedAt

/-- The barriers an abandonment of the consumer is recorded against: those that record it and
are incomplete or named by the operator. -/
def blockedBarriers (e : Envelope Name) (consumer : Name) (barrier : Option Name) : List Name :=
  (e.store.barrierConsumers.filter fun row =>
    row.consumerId = consumer ∧
      e.store.barriers.any fun b =>
        b.barrierId = row.barrierId ∧ (b.completedAt = none ∨ some b.barrierId = barrier)).map
    (·.barrierId)

def recordAbandonments (e : Envelope Name) (consumer : Name) (barrier : Option Name)
    (checkpoint abandonedAt : Nat) : Store Name :=
  let row := fun barrier => ⟨consumer, barrier, checkpoint, e.commitSeq, abandonedAt⟩
  match e.blockedBarriers consumer barrier with
  | [] => { e.store with abandonments := row none :: e.store.abandonments }
  | blocked =>
    { e.store with
      abandonments := blocked.map (fun barrier => row (some barrier)) ++ e.store.abandonments
      history := blocked.map (.abandoned consumer · e.commitSeq) ++ e.store.history }

def abandonOutboxConsumer (e : Envelope Name) (consumer : Name) (barrier : Option Name)
    (abandonedAt : Nat) : Except KernelError (Envelope Name) :=
  match e.store.checkpoint consumer with
  | none => .error .notFound
  | some checkpoint =>
    if barrier.any fun barrier =>
        !e.store.barrierConsumers.any fun row =>
          row.barrierId = barrier ∧ row.consumerId = consumer then
      .error .notFound
    else
      .ok (e.pushControlChange
        (((e.recordAbandonments consumer barrier checkpoint abandonedAt).removeConsumer
          consumer).completeSatisfiedBarriers abandonedAt))

def abandonDeletionBarrier (e : Envelope Name) (barrier : Name) (abandonedAt : Nat) :
    Except KernelError (Envelope Name) :=
  if e.store.barrierConsumers.any (·.barrierId = barrier) then .error .conflict
  else if e.store.barriers.any fun b => b.barrierId = barrier ∧ b.completedAt = none then
    .ok (e.pushControlChange
      { e.store with
        barriers := e.store.barriers.map fun b =>
          if b.barrierId = barrier ∧ b.completedAt = none then
            { b with completedAt := some abandonedAt }
          else b
        history := .barrierAbandoned barrier :: e.store.history })
  else .error .notFound

def apply (e : Envelope Name) : Operation Name → Except KernelError (Envelope Name)
  | .change => .ok (e.pushControlChange e.store)
  | .register consumer recordedAt => e.registerOutboxConsumer consumer recordedAt
  | .deregister consumer recordedAt => e.deregisterOutboxConsumer consumer recordedAt
  | .retire consumer certifiedThrough recordedAt =>
    e.retireOutboxConsumer consumer certifiedThrough recordedAt
  | .abandonConsumer consumer barrier abandonedAt =>
    e.abandonOutboxConsumer consumer barrier abandonedAt
  | .abandonBarrier barrier abandonedAt => e.abandonDeletionBarrier barrier abandonedAt

/-- An error of any operation poisons the envelope, so the commit keeps nothing of it. -/
def step (e : Envelope Name) (operation : Operation Name) : Option (Envelope Name) :=
  (e.apply operation).toOption

end Envelope

/-! ## Transactions -/

def Store.insertRows (s : Store Name) (commitSeq changes : Nat) : Store Name :=
  { s with
    outbox := s.outbox ++ (List.range changes).map fun ordinal =>
      ⟨s.nextPosition + ordinal, commitSeq, ordinal, none⟩
    nextPosition := s.nextPosition + changes }

/-- The commit's own row of the log, under a sequence above every earlier one. -/
def Store.beginCommit (s : Store Name) (commitSeq : Nat) : Option (Envelope Name) :=
  if s.tip < commitSeq then
    some ⟨{ s with commitLog := commitSeq :: s.commitLog }, commitSeq, 0⟩
  else none

def Envelope.finish (e : Envelope Name) : Store Name := e.store.insertRows e.commitSeq e.changes

/-- The incomplete barrier of the digest, else a new one under an unused id. -/
def Store.barrierFor (s : Store Name) (digest fresh : Name) : Name :=
  ((s.barriers.find? fun b => b.digest = digest ∧ b.completedAt = none).map
    (·.barrierId)).getD fresh

/-- The barrier waits for the consumers registered now, whatever it recorded before. -/
def Store.recordConsumers (s : Store Name) (barrier : Name) (commitSeq : Nat) : Store Name :=
  { s with
    barrierConsumers :=
      s.barrierConsumers.filter (·.barrierId ≠ barrier) ++
        s.consumers.map fun row => ⟨barrier, row.consumerId, commitSeq, none⟩
    history := .deleted barrier commitSeq (s.consumers.map (·.consumerId)) :: s.history }

/-- The insertion of `upsert_barrier`, with its update on conflict. -/
def Store.insertBarrier (s : Store Name) (barrier digest : Name) (commitSeq deletedAt : Nat) :
    Option (Store Name) :=
  if s.barriers.any fun b => b.digest = digest ∧ b.completedAt = none then
    some { s with
      barriers := s.barriers.map fun b =>
        if b.digest = digest ∧ b.completedAt = none then
          { b with deleteCommitSeq := commitSeq, createdAt := deletedAt }
        else b }
  else if s.barriers.any (·.barrierId = barrier) then none
  else
    some { s with
      barriers := s.barriers ++ [⟨barrier, digest, commitSeq, deletedAt, none⟩] }

def Envelope.upsertBarrier (e : Envelope Name) (barrier digest : Name) (deletedAt : Nat) :
    Option (Envelope Name) :=
  (e.store.insertBarrier barrier digest e.commitSeq deletedAt).map fun store =>
    { e with store := store.recordConsumers barrier e.commitSeq }

/-- `delete_artifact`, deleting or purging: a commit of its own with its propagation changes. -/
def Store.deleteArtifact (s : Store Name) (commitSeq : Nat) (digest fresh : Name)
    (propagated deletedAt : Nat) : Option (Store Name) :=
  (s.beginCommit commitSeq).bind fun e =>
    (e.upsertBarrier (s.barrierFor digest fresh) digest deletedAt).map fun e =>
      { e with changes := e.changes + propagated }.finish

def Store.commit (s : Store Name) (commitSeq : Nat) (operations : List (Operation Name)) :
    Option (Store Name) :=
  (s.beginCommit commitSeq).bind fun e =>
    (runEvents Envelope.step e operations).map Envelope.finish

def Store.isCommitBoundary (s : Store Name) (position : Nat) : Bool :=
  s.outbox.any fun chosen =>
    chosen.position = position ∧
      s.outbox.all fun later => later.commitSeq ≠ chosen.commitSeq ∨ later.position ≤ position

def Store.markPublishedThrough (s : Store Name) (position publishedAt : Nat) :
    Except KernelError (Store Name) :=
  if s.publishedThrough < position ∧ ¬s.isCommitBoundary position then .error .invalidCheckpoint
  else
    .ok { s with
      outbox := s.outbox.map fun row =>
        if row.position ≤ position ∧ row.publishedAt = none then
          { row with publishedAt := some publishedAt }
        else row
      publishedThrough := max s.publishedThrough position }

def Store.horizon (s : Store Name) : Option Nat := (s.consumers.map (·.checkpoint)).min?

def Store.pruneOutbox (s : Store Name) : Except KernelError (Store Name) :=
  match s.horizon with
  | none => .error .noRequiredConsumers
  | some horizon => .ok { s with outbox := s.outbox.filter (horizon < ·.commitSeq) }

inductive Event (Name : Type)
  | commit (commitSeq : Nat) (operations : List (Operation Name))
  | deleteArtifact (commitSeq : Nat) (digest fresh : Name) (propagated deletedAt : Nat)
  | acknowledge (consumer : Name) (through now : Nat)
  /-- The hold either admits the acknowledgement or refuses it. -/
  | acknowledgeThroughHold (admitted : Bool) (consumer : Name) (through now : Nat)
  | markPublishedThrough (position publishedAt : Nat)
  | prune
  deriving DecidableEq, Repr

/-- One transaction; `none` where it is refused and rolled back. -/
def step (s : Store Name) : Event Name → Option (Store Name)
  | .commit commitSeq operations => s.commit commitSeq operations
  | .deleteArtifact commitSeq digest fresh propagated deletedAt =>
    s.deleteArtifact commitSeq digest fresh propagated deletedAt
  | .acknowledge consumer through now => (s.acknowledgeOutbox consumer through now).toOption
  | .acknowledgeThroughHold admitted consumer through now =>
    if admitted then (s.acknowledgeOutbox consumer through now).toOption else none
  | .markPublishedThrough position publishedAt =>
    (s.markPublishedThrough position publishedAt).toOption
  | .prune => s.pruneOutbox.toOption

end Eidnara.Kernel.Outbox
