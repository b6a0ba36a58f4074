import Eidnara.Lib.Runs

/-!
# Task leases

`task_lease.rs` over the tables `note_eval_claims` and `note_eval_acquisitions`, restricted to one
project and one task kind.  Every call is one transaction: it answers an outcome and the tables it
leaves, or fails and leaves them as they were.
-/

namespace Eidnara.MemoryStore.TaskLease

open Lib

/-! ## Tables -/

structure TaskLeaseKind where
  authorityDomain : String
  phases : List String
  leaseMs : Int
  noWorkRetentionMs : Int
  terminalRetentionMs : Int
  responseRedactMs : Int
  ledgerCap : Int

structure LeaseClaim where
  claimId : String
  noteId : Int
  phase : String
  acquisitionId : String
  evaluatorInstance : String
  evaluatorSlot : Int
  registrationGeneration : Int
  sourceRevision : Int
  stateVersion : Int
  policyVersion : Int
  protocolEpoch : Int
  authorityGeneration : Int
  expiresAt : Int
  deriving DecidableEq, Repr

structure ClaimRow where
  /-- Which insertion wrote the row; no call reads it. -/
  serial : Nat
  claim : LeaseClaim
  completionId : Option String
  terminalKind : Option String
  terminalResponse : Option String
  terminalAtMs : Option Int
  deriving DecidableEq, Repr

def ClaimRow.active (row : ClaimRow) : Bool := row.terminalKind.isNone

def ClaimRow.heldBy (row : ClaimRow) (evaluatorInstance : String) (evaluatorSlot : Int) : Bool :=
  row.claim.evaluatorInstance = evaluatorInstance && row.claim.evaluatorSlot = evaluatorSlot

structure AcquisitionRow where
  acquisitionId : String
  decision : String
  expiresAt : Int
  deriving DecidableEq, Repr

structure Ledger where
  claims : List ClaimRow
  acquisitions : List AcquisitionRow
  /-- Generation and protocol epoch of the domain's MODULE row. -/
  authority : Option (Int × Int)
  /-- How many claims were inserted so far. -/
  inserted : Nat
  deriving DecidableEq, Repr

inductive LedgerError
  /-- A text that the scanner refuses. -/
  | redaction
  /-- A key or a unique index of the tables. -/
  | constraint
  /-- Raised by the completion body. -/
  | body
  deriving DecidableEq, Repr

/-! ## Answers -/

/-- What a kind's selector decided. -/
inductive LeaseSelected (T : Type)
  | claim (noteId : Int) (phase : String) (task : T)
      (sourceRevision stateVersion policyVersion : Int)
  | noWork (cycleExhausted : Bool)
  | invalid

inductive LeaseAcquireOutcome (T : Type)
  | claim (claim : LeaseClaim) (task : T) (replayed : Bool)
  | noWork (replayed cycleExhausted : Bool)
  | expired
  | terminal (kind : String) (response : Option String)
  | busy
  | authorityChanged
  | invalid
  deriving DecidableEq, Repr

inductive LeaseRenewOutcome
  | renewed (expiresAt : Int)
  | expired
  | authorityChanged
  | unknownClaim
  | invalid
  | terminalReplay (kind : String) (response : Option String)
  deriving DecidableEq, Repr

/-- What a kind's completion body does once every lease fence held. -/
inductive LeaseCompletion
  | applied (responseJson : String)
  | stale
  | invalid (response : String)
  /-- The body fails and the transaction with it. -/
  | fails
  deriving DecidableEq, Repr

inductive LeaseCompleteOutcome
  | applied (responseJson : String)
  | replayed (responseJson : String)
  | conflict (kind : String)
  deriving DecidableEq, Repr

inductive LeaseAbandonOutcome
  | abandoned
  | replayed (kind : String)
  | unknownClaim
  | invalid
  deriving DecidableEq, Repr

/-! ## Texts -/

def idMaxLen : Nat := 200

def responseMaxLen : Nat := 2048

def validId (id : String) : Bool := !id.isEmpty && id.utf8ByteSize ≤ idMaxLen

/-- The longest part of the text that fits the budget of bytes. -/
def boundChars : Nat → List Char → List Char
  | _, [] => []
  | budget, c :: rest =>
    if c.utf8Size ≤ budget then c :: boundChars (budget - c.utf8Size) rest else []

def boundResponse (response : String) : String :=
  if response.utf8ByteSize ≤ responseMaxLen then response
  else String.ofList (boundChars responseMaxLen response.toList)

/-- The JSON object that names a terminal kind; the kinds need no escapes. -/
def kindResponse (kind : String) : String := "\x7b\"result\":\"" ++ kind ++ "\"\x7d"

/-! ## Collection and fences -/

namespace ClaimRow

def terminate (row : ClaimRow) (terminalKind response : String) (nowMs : Int) : ClaimRow :=
  { row with
    terminalKind := some terminalKind
    terminalResponse := some response
    terminalAtMs := some nowMs }

def expireAt (nowMs : Int) (row : ClaimRow) : ClaimRow :=
  if row.active && row.claim.expiresAt ≤ nowMs then
    row.terminate "expired" (kindResponse "expired") nowMs
  else row

def terminalBy (row : ClaimRow) (timeMs : Int) : Bool :=
  !row.active && row.terminalAtMs.any (· ≤ timeMs)

def redactBy (timeMs : Int) (row : ClaimRow) : ClaimRow :=
  if row.terminalBy timeMs then { row with terminalResponse := none } else row

end ClaimRow

def AcquisitionRow.tombstoneAt (nowMs : Int) (row : AcquisitionRow) : AcquisitionRow :=
  if row.decision ≠ "" ∧ row.expiresAt ≤ nowMs then { row with decision := "" } else row

namespace Ledger

def empty : Ledger := ⟨[], [], none, 0⟩

variable (kind : TaskLeaseKind)

def collect (nowMs : Int) (s : Ledger) : Ledger :=
  let claims := s.claims.map fun row =>
    (row.expireAt nowMs).redactBy (nowMs - kind.responseRedactMs)
  let acquisitions := s.acquisitions.map (AcquisitionRow.tombstoneAt nowMs)
  { s with
    claims := claims.filter fun row => !row.terminalBy (nowMs - kind.terminalRetentionMs)
    acquisitions := acquisitions.filter fun row =>
      !(row.decision = "" && row.expiresAt ≤ nowMs - kind.noWorkRetentionMs) }

def updateActive (s : Ledger) (selected : ClaimRow → Bool) (change : ClaimRow → ClaimRow) :
    Ledger :=
  { s with claims := s.claims.map fun row =>
      if row.active && selected row then change row else row }

def markTerminal (s : Ledger) (claimId terminalKind : String) (completionId : Option String)
    (response : String) (nowMs : Int) : Ledger :=
  s.updateActive (fun row => row.claim.claimId = claimId) fun row =>
    { row.terminate terminalKind response nowMs with
      completionId := completionId.or row.completionId }

def fenceTaskClaims (s : Ledger) (noteId : Int) (terminalKind : String) (nowMs : Int) : Ledger :=
  s.updateActive (fun row => row.claim.noteId = noteId) fun row =>
    row.terminate terminalKind (kindResponse terminalKind) nowMs

/-- `fence_project_claims_tx`, for this kind. -/
def fenceProjectClaims (s : Ledger) (domain terminalKind : String) (nowMs : Int) : Ledger :=
  if kind.authorityDomain = domain then
    s.updateActive (fun _ => true) fun row =>
      row.terminate terminalKind (kindResponse terminalKind) nowMs
  else s

end Ledger

/-! ## The calls -/

structure AcquireCall (T : Type) where
  acquisitionId : String
  evaluatorInstance : String
  evaluatorSlot : Int
  registrationGeneration : Int
  nowMs : Int
  select : LeaseSelected T
  /-- The current snapshot of a task. -/
  load : Int → Option T

structure RenewCall where
  claimId : String
  evaluatorInstance : String
  evaluatorSlot : Int
  registrationGeneration : Int
  nowMs : Int

structure CompleteCall where
  claimId : String
  completionId : String
  evaluatorInstance : String
  evaluatorSlot : Int
  nowMs : Int
  apply : LeaseClaim → LeaseCompletion

structure AbandonCall where
  claimId : String
  evaluatorInstance : String
  evaluatorSlot : Int
  nowMs : Int

/-- What the calls take from outside: the digest of an acquisition id under this project, and the
scanner that passes new identities and prepares stored texts. -/
structure Environment where
  claimIdOf : String → String
  identity : String → Bool
  content : String → Option String

variable {T : Type} (kind : TaskLeaseKind) (env : Environment)

/-- `rebind_claim_tx`: the lease starts again, under the caller's id and registration. -/
def rebindClaim (s : Ledger) (row : ClaimRow) (call : AcquireCall T) :
    Except LedgerError (LeaseAcquireOutcome T × Ledger) :=
  if s.claims.any fun other =>
      other.claim.claimId ≠ row.claim.claimId && other.claim.acquisitionId = call.acquisitionId then
    .error .constraint
  else
    let rebound (claim : LeaseClaim) : LeaseClaim :=
      { claim with
        registrationGeneration := call.registrationGeneration
        expiresAt := call.nowMs + kind.leaseMs
        acquisitionId := call.acquisitionId }
    let s := s.updateActive (fun other => other.claim.claimId = row.claim.claimId) fun other =>
      { other with claim := rebound other.claim }
    match call.load row.claim.noteId with
    | none => .ok (.invalid, s)
    | some task => .ok (.claim (rebound row.claim) task true, s)

def replayClaim (s : Ledger) (row : ClaimRow) (call : AcquireCall T) :
    Except LedgerError (LeaseAcquireOutcome T × Ledger) :=
  match row.terminalKind with
  | some terminalKind => .ok (.terminal terminalKind row.terminalResponse, s)
  | none =>
    if !row.heldBy call.evaluatorInstance call.evaluatorSlot ||
        call.registrationGeneration < row.claim.registrationGeneration then
      .ok (.invalid, s)
    else rebindClaim kind s row call

def replayDecision (row : AcquisitionRow) : LeaseAcquireOutcome T :=
  if row.decision = "" then .expired else .noWork true (row.decision = "no_work_exhausted")

def noWorkDecision (cycleExhausted : Bool) : String :=
  if cycleExhausted then "no_work_exhausted" else "no_work"

def recordNoWork (s : Ledger) (cycleExhausted : Bool) (call : AcquireCall T) :
    Except LedgerError (LeaseAcquireOutcome T × Ledger) :=
  if kind.ledgerCap ≤ (s.acquisitions.filter fun row => row.decision ≠ "").length then
    .ok (.busy, s)
  else if s.acquisitions.any fun row => row.acquisitionId = call.acquisitionId then
    .error .constraint
  else
    .ok (.noWork false cycleExhausted,
      { s with acquisitions := s.acquisitions ++
          [⟨call.acquisitionId, noWorkDecision cycleExhausted,
            call.nowMs + kind.noWorkRetentionMs⟩] })

/-- The keys of `note_eval_claims`: the claim id, the acquisition id, and among the active rows
the task and the worker slot. -/
def conflicts (s : Ledger) (claim : LeaseClaim) : Bool :=
  s.claims.any fun row =>
    row.claim.claimId = claim.claimId || row.claim.acquisitionId = claim.acquisitionId ||
      row.active && (row.claim.noteId = claim.noteId ||
        row.heldBy claim.evaluatorInstance claim.evaluatorSlot)

def insertClaim (s : Ledger) (claim : LeaseClaim) : Except LedgerError Ledger :=
  if conflicts s claim then .error .constraint
  else
    .ok { s with
      claims := s.claims ++ [⟨s.inserted, claim, none, none, none, none⟩]
      inserted := s.inserted + 1 }

def newClaim (call : AcquireCall T) (authority : Int × Int) (noteId : Int) (phase : String)
    (sourceRevision stateVersion policyVersion : Int) : LeaseClaim where
  claimId := env.claimIdOf call.acquisitionId
  noteId := noteId
  phase := phase
  acquisitionId := call.acquisitionId
  evaluatorInstance := call.evaluatorInstance
  evaluatorSlot := call.evaluatorSlot
  registrationGeneration := call.registrationGeneration
  sourceRevision := sourceRevision
  stateVersion := stateVersion
  policyVersion := policyVersion
  protocolEpoch := authority.2
  authorityGeneration := authority.1
  expiresAt := call.nowMs + kind.leaseMs

/-- The answer for an id and a slot that the ledger does not know. -/
def selectTask (s : Ledger) (authority : Int × Int) (call : AcquireCall T) :
    Except LedgerError (LeaseAcquireOutcome T × Ledger) :=
  match call.select with
  | .invalid => .ok (.invalid, s)
  | .noWork cycleExhausted => recordNoWork kind s cycleExhausted call
  | .claim noteId phase task sourceRevision stateVersion policyVersion =>
    if phase ∉ kind.phases then .ok (.invalid, s)
    else if kind.ledgerCap ≤ (s.claims.filter ClaimRow.active).length then .ok (.busy, s)
    else if !env.identity (env.claimIdOf call.acquisitionId) || !env.identity phase then
      .error .redaction
    else
      let claim :=
        newClaim kind env call authority noteId phase sourceRevision stateVersion policyVersion
      (insertClaim s claim).map fun s => (.claim claim task false, s)

/-- The part of `acquire_task_lease` after the ledgers were collected. -/
def acquireTx (s : Ledger) (call : AcquireCall T) :
    Except LedgerError (LeaseAcquireOutcome T × Ledger) :=
  match s.claims.find? fun row => row.claim.acquisitionId = call.acquisitionId with
  | some row => replayClaim kind s row call
  | none =>
    match s.acquisitions.find? fun row => row.acquisitionId = call.acquisitionId with
    | some row => .ok (replayDecision row, s)
    | none =>
      match s.authority with
      | none => .ok (.authorityChanged, s)
      | some authority =>
        match s.claims.find? fun row =>
            row.active && row.heldBy call.evaluatorInstance call.evaluatorSlot with
        | some row =>
          if call.registrationGeneration < row.claim.registrationGeneration then
            .ok (.invalid, s)
          else rebindClaim kind s row call
        | none => selectTask kind env s authority call

def acquireTaskLease (s : Ledger) (call : AcquireCall T) :
    Except LedgerError (LeaseAcquireOutcome T × Ledger) :=
  if !validId call.acquisitionId || !validId call.evaluatorInstance || call.evaluatorSlot < 0 then
    .ok (.invalid, s)
  else if !env.identity call.acquisitionId || !env.identity call.evaluatorInstance then
    .error .redaction
  else acquireTx kind env (s.collect kind call.nowMs) call

def renewTaskLease (s : Ledger) (call : RenewCall) : LeaseRenewOutcome × Ledger :=
  match s.claims.find? fun row => row.claim.claimId = call.claimId with
  | none => (.unknownClaim, s)
  | some row =>
    match row.terminalKind with
    | some terminalKind => (.terminalReplay terminalKind row.terminalResponse, s)
    | none =>
      if !row.heldBy call.evaluatorInstance call.evaluatorSlot ||
          row.claim.registrationGeneration ≠ call.registrationGeneration then
        (.invalid, s)
      else if row.claim.expiresAt ≤ call.nowMs then
        (.expired,
          s.markTerminal call.claimId "expired" none (kindResponse "expired") call.nowMs)
      else if s.authority.map Prod.fst ≠ some row.claim.authorityGeneration then
        (.authorityChanged, s)
      else
        (.renewed (call.nowMs + kind.leaseMs),
          s.updateActive (fun other => other.claim.claimId = call.claimId) fun other =>
            { other with claim := { other.claim with expiresAt := call.nowMs + kind.leaseMs } })

/-- The fences of `complete_task_lease`: an answer without the body, or the row it runs for. -/
def completionFences (s : Ledger) (call : CompleteCall) :
    Sum (LeaseCompleteOutcome × Ledger) ClaimRow :=
  if !validId call.completionId then .inl (.conflict "invalid", s)
  else
    match s.claims.find? fun row => row.claim.claimId = call.claimId with
    | none => .inl (.conflict "unknown_claim", s)
    | some row =>
      match row.terminalKind with
      | some terminalKind =>
        .inl (match row.completionId with
          | some stored =>
            if stored = call.completionId then
              match row.terminalResponse with
              | some responseJson => .replayed responseJson
              | none => .conflict "expired"
            else .conflict "completion_conflict"
          | none =>
            .conflict (if terminalKind = "stale" ∨ terminalKind = "expired" ∨
                terminalKind = "authority_changed" then terminalKind else "invalid"), s)
      | none =>
        let terminal (terminalKind : String) : LeaseCompleteOutcome × Ledger :=
          (.conflict terminalKind,
            s.markTerminal call.claimId terminalKind none (kindResponse terminalKind)
              call.nowMs)
        if !row.heldBy call.evaluatorInstance call.evaluatorSlot then
          .inl (.conflict "invalid", s)
        else if row.claim.expiresAt ≤ call.nowMs then .inl (terminal "expired")
        else if s.authority.map Prod.fst ≠ some row.claim.authorityGeneration then
          .inl (terminal "authority_changed")
        else .inr row

def concludeBody (s : Ledger) (row : ClaimRow) (call : CompleteCall) :
    Except LedgerError (LeaseCompleteOutcome × Ledger) :=
  match call.apply row.claim with
  | .fails => .error .body
  | .stale =>
    .ok (.conflict "stale",
      s.markTerminal call.claimId "stale" none (kindResponse "stale") call.nowMs)
  | .invalid response =>
    .ok (.conflict "invalid",
      s.markTerminal call.claimId "invalid" none (boundResponse response) call.nowMs)
  | .applied responseJson =>
    match env.content responseJson with
    | none => .error .redaction
    | some responseJson =>
      .ok (.applied responseJson,
        s.markTerminal call.claimId "applied" (some call.completionId) responseJson call.nowMs)

def completeTaskLease (s : Ledger) (call : CompleteCall) :
    Except LedgerError (LeaseCompleteOutcome × Ledger) :=
  match completionFences s call with
  | .inl answer => .ok answer
  | .inr row => concludeBody env s row call

def abandonTaskLease (s : Ledger) (call : AbandonCall) : LeaseAbandonOutcome × Ledger :=
  match s.claims.find? fun row => row.claim.claimId = call.claimId with
  | none => (.unknownClaim, s)
  | some row =>
    match row.terminalKind with
    | some terminalKind => (.replayed terminalKind, s)
    | none =>
      if !row.heldBy call.evaluatorInstance call.evaluatorSlot then (.invalid, s)
      else
        (.abandoned,
          s.markTerminal call.claimId "abandoned" none (kindResponse "abandoned") call.nowMs)

/-! ## Runs -/

structure BodyRun where
  row : ClaimRow
  call : CompleteCall
  authority : Option (Int × Int)

structure Application where
  serial : Nat
  completionId : String
  response : String
  deriving DecidableEq, Repr

inductive Answer
  | claim (acquisitionId evaluatorInstance : String) (evaluatorSlot : Int) (serial : Nat)
  | noWork (acquisitionId evaluatorInstance : String) (evaluatorSlot : Int) (cycleExhausted : Bool)
      (atMs : Int)
  deriving DecidableEq, Repr

/-- The ledger and the clock, with the history that no call reads. -/
structure State where
  ledger : Ledger
  clock : Int
  bodies : List BodyRun
  applications : List Application
  answers : List Answer

def State.new (clock : Int) : State := ⟨.empty, clock, [], [], []⟩

inductive Call (T : Type)
  | acquire (call : AcquireCall T)
  | renew (call : RenewCall)
  | complete (call : CompleteCall)
  | abandon (call : AbandonCall)
  | fenceTask (noteId : Int) (terminalKind : String) (nowMs : Int)
  | fenceDomain (domain terminalKind : String) (nowMs : Int)
  /-- A change of the domain's MODULE row. -/
  | authority (row : Option (Int × Int)) (nowMs : Int)

def Call.nowMs : Call T → Int
  | .acquire call => call.nowMs
  | .renew call => call.nowMs
  | .complete call => call.nowMs
  | .abandon call => call.nowMs
  | .fenceTask _ _ nowMs => nowMs
  | .fenceDomain _ _ nowMs => nowMs
  | .authority _ nowMs => nowMs

def answersOf (call : AcquireCall T) (s : Ledger) : LeaseAcquireOutcome T → List Answer
  | .claim claim _ _ =>
    ((s.claims.find? fun row => row.claim.claimId = claim.claimId).map fun row =>
      .claim call.acquisitionId call.evaluatorInstance call.evaluatorSlot row.serial).toList
  | .noWork false cycleExhausted =>
    [.noWork call.acquisitionId call.evaluatorInstance call.evaluatorSlot cycleExhausted
      call.nowMs]
  | _ => []

def stepAcquire (s : State) (call : AcquireCall T) : State :=
  match acquireTaskLease kind env s.ledger call with
  | .error _ => s
  | .ok (outcome, ledger) =>
    { s with ledger, answers := answersOf call ledger outcome ++ s.answers }

def stepComplete (s : State) (call : CompleteCall) : State :=
  match completionFences s.ledger call with
  | .inl (_, ledger) => { s with ledger }
  | .inr row =>
    let s := { s with bodies := ⟨row, call, s.ledger.authority⟩ :: s.bodies }
    match concludeBody env s.ledger row call with
    | .error _ => s
    | .ok (.applied response, ledger) =>
      { s with
        ledger, applications := ⟨row.serial, call.completionId, response⟩ :: s.applications }
    | .ok (_, ledger) => { s with ledger }

/-- One call; its clock is not behind that of the call before it. -/
def step (s : State) (call : Call T) : Option State :=
  if call.nowMs < s.clock then none
  else
    let s := { s with clock := call.nowMs }
    some (match call with
      | .acquire call => stepAcquire kind env s call
      | .renew call => { s with ledger := (renewTaskLease kind s.ledger call).2 }
      | .complete call => stepComplete env s call
      | .abandon call => { s with ledger := (abandonTaskLease s.ledger call).2 }
      | .fenceTask noteId terminalKind nowMs =>
        { s with ledger := s.ledger.fenceTaskClaims noteId terminalKind nowMs }
      | .fenceDomain domain terminalKind nowMs =>
        { s with ledger := s.ledger.fenceProjectClaims kind domain terminalKind nowMs }
      | .authority row _ => { s with ledger := { s.ledger with authority := row } })

end Eidnara.MemoryStore.TaskLease
