import Eidnara.MemoryStore.TaskLease.Rows

/-!
# Completions

The completion body runs only behind every lease fence, and what it applied is recorded on the
claim's row, which answers every later completion while it is in the table.
-/

namespace Eidnara.MemoryStore.TaskLease

open Lib List

/-- The claim was active, unexpired, held by the caller and taken under the current MODULE
generation. -/
def BodyRun.Allowed (run : BodyRun) : Prop :=
  run.row.active = true ∧ run.call.nowMs < run.row.claim.expiresAt ∧
    run.row.claim.evaluatorInstance = run.call.evaluatorInstance ∧
    run.row.claim.evaluatorSlot = run.call.evaluatorSlot ∧
    run.authority.map Prod.fst = some run.row.claim.authorityGeneration

/-- The row answers for the application, with its response or redacted. -/
def Application.RecordedIn (application : Application) (row : ClaimRow) : Prop :=
  row.terminalKind = some "applied" ∧ row.completionId = some application.completionId ∧
    (row.terminalResponse = some application.response ∨ row.terminalResponse = none)

structure State.Inv (s : State) : Prop where
  wf : s.ledger.Wf
  bodies : ∀ run ∈ s.bodies, run.Allowed
  valid : ∀ application ∈ s.applications, validId application.completionId = true
  serial_lt : ∀ application ∈ s.applications, application.serial < s.ledger.inserted
  recorded : ∀ application ∈ s.applications, ∀ row ∈ s.ledger.claims,
    row.serial = application.serial → application.RecordedIn row
  once : (s.applications.map Application.serial).Nodup

theorem inv_new (clock : Int) : (State.new clock).Inv where
  wf := Ledger.wf_empty
  bodies := by simp [State.new]
  valid := by simp [State.new]
  serial_lt := by simp [State.new]
  recorded := by simp [State.new]
  once := nodup_nil

variable {application : Application} {row : ClaimRow}

theorem Application.RecordedIn.inactive (h : application.RecordedIn row) : row.active = false := by
  rw [ClaimRow.active, h.1]
  rfl

theorem Application.RecordedIn.evolve {row' : ClaimRow} (h : application.RecordedIn row)
    (hevolves : Evolves row row') : application.RecordedIn row' := by
  obtain ⟨hkind, hcompletion, -, -, hresponse⟩ := hevolves.settled h.inactive
  refine ⟨hkind.trans h.1, hcompletion.trans h.2.1, ?_⟩
  rcases hresponse with hsame | hnone
  · rw [hsame]
    exact h.2.2
  · exact .inr hnone

namespace State

variable {s s' : State}

theorem Inv.move (h : s.Inv) (hmoves : Moves s.ledger s'.ledger) (hbodies : s'.bodies = s.bodies)
    (happlications : s'.applications = s.applications) : s'.Inv where
  wf := hmoves.2
  bodies := hbodies ▸ h.bodies
  valid := happlications ▸ h.valid
  serial_lt application happlication := by
    rw [happlications] at happlication
    exact Nat.lt_of_lt_of_le (h.serial_lt application happlication) hmoves.1.inserted_le
  recorded application happlication row' hrow' hserial := by
    rw [happlications] at happlication
    rcases hmoves.1.rows row' hrow' with ⟨row, hrow, hevolves⟩ | hfresh
    · have hrecorded := h.recorded application happlication row hrow
        (hevolves.serial.symm.trans hserial)
      exact hrecorded.evolve hevolves
    · have hlt := h.serial_lt application happlication
      omega
  once := happlications ▸ h.once

theorem Inv.runBody (h : s.Inv) {run : BodyRun} (hallowed : run.Allowed) :
    { s with bodies := run :: s.bodies }.Inv :=
  { h with bodies := forall_mem_cons.mpr ⟨hallowed, h.bodies⟩ }

/-- An active row that becomes terminal with its completion. -/
theorem Inv.recordApplication (h : s.Inv) {row : ClaimRow} (hrow : row ∈ s.ledger.claims)
    (hactive : row.active = true) {completionId : String} (hvalid : validId completionId = true)
    (response : String) (nowMs : Int) :
    { s with
      ledger := s.ledger.markTerminal row.claim.claimId "applied" (some completionId) response nowMs
      applications := ⟨row.serial, completionId, response⟩ :: s.applications }.Inv := by
  have hmoves : Moves s.ledger
      (s.ledger.markTerminal row.claim.claimId "applied" (some completionId) response nowMs) :=
    (Calm.markTerminal h.wf _ _ _ _ _).moves
  have hmoved : { s with
      ledger := s.ledger.markTerminal row.claim.claimId "applied" (some completionId) response
        nowMs }.Inv := h.move hmoves rfl rfl
  refine ⟨hmoved.wf, hmoved.bodies, ?_, ?_, ?_, ?_⟩
  · exact forall_mem_cons.mpr ⟨hvalid, h.valid⟩
  · exact forall_mem_cons.mpr ⟨h.wf.serial_lt row hrow, hmoved.serial_lt⟩
  · refine forall_mem_cons.mpr ⟨fun row' hrow' hserial => ?_, hmoved.recorded⟩
    obtain ⟨found, hfound, rfl⟩ := Ledger.mem_updateActive.mp hrow'
    have hsame : found.serial = row.serial := by
      refine Eq.trans ?_ hserial
      unfold Ledger.updated
      split <;> rfl
    obtain rfl := h.wf.eq_of_serial hfound hrow hsame
    rw [Ledger.updated, if_pos (by simp [hactive])]
    exact ⟨rfl, rfl, .inl rfl⟩
  · refine nodup_cons.mpr ⟨fun hmem => ?_, h.once⟩
    obtain ⟨application, happlication, hserial⟩ := mem_map.mp hmem
    have := (h.recorded application happlication row hrow hserial.symm).inactive
    rw [hactive] at this
    cases this

end State

variable {T : Type} {kind : TaskLeaseKind} {env : Environment}

theorem completionFences_eq_inr {s : Ledger} {call : CompleteCall}
    (h : completionFences s call = .inr row) :
    row ∈ s.claims ∧ row.claim.claimId = call.claimId ∧ validId call.completionId = true ∧
      BodyRun.Allowed ⟨row, call, s.authority⟩ := by
  unfold completionFences at h
  split at h
  · cases h
  next hvalid =>
  split at h
  · cases h
  next found hfound =>
  split at h
  · cases h
  next hterminal =>
  split at h
  · cases h
  next hheld =>
  split at h
  · cases h
  next hexpires =>
  split at h
  · cases h
  next hauthority =>
  cases h
  have hid : row.claim.claimId = call.claimId := by simpa using find?_some hfound
  simp only [Bool.not_eq_true', Bool.not_eq_false, ClaimRow.heldBy, Bool.and_eq_true,
    decide_eq_true_eq] at hheld
  refine ⟨mem_of_find?_eq_some hfound, hid, by simpa using hvalid, ?_,
    Int.not_le.mp hexpires, hheld.1, hheld.2, by simpa using hauthority⟩
  rw [ClaimRow.active, hterminal]
  rfl

variable {s : State}

theorem inv_stepComplete (h : s.Inv) (call : CompleteCall) :
    (stepComplete env s call).Inv ∧ Calm s.ledger (stepComplete env s call).ledger ∧
      (stepComplete env s call).answers = s.answers := by
  unfold stepComplete
  split
  · next hfences =>
      have hcalm := completionFences_calm h.wf hfences
      exact ⟨h.move hcalm.moves rfl rfl, hcalm, rfl⟩
  next row hfences =>
  obtain ⟨hrow, hid, hvalid, hallowed⟩ := completionFences_eq_inr hfences
  have hrun := h.runBody hallowed
  simp only
  split
  · exact ⟨hrun, .refl h.wf, rfl⟩
  · next response ledger hconclude =>
      have hcalm := concludeBody_calm env h.wf hconclude
      refine ⟨?_, hcalm, rfl⟩
      unfold concludeBody at hconclude
      split at hconclude
      · cases hconclude
      · cases hconclude
      · cases hconclude
      split at hconclude
      · cases hconclude
      · cases hconclude
        exact hid ▸ hrun.recordApplication hrow hallowed.1 hvalid _ _
  · next hconclude =>
      have hcalm := concludeBody_calm env h.wf hconclude
      exact ⟨hrun.move hcalm.moves rfl rfl, hcalm, rfl⟩

def Call.isAcquire : Call T → Bool
  | .acquire _ => true
  | _ => false

variable {s' : State}

theorem calm_step {call : Call T} (hstep : step kind env s call = some s') (h : s.Inv)
    (hcall : call.isAcquire = false) :
    s'.Inv ∧ Calm s.ledger s'.ledger ∧ s'.answers = s.answers := by
  unfold step at hstep
  split at hstep
  · cases hstep
  obtain rfl := Option.some.inj hstep
  have hclock : { s with clock := call.nowMs }.Inv := h.move (.refl h.wf) rfl rfl
  have hkeep {ledger : Ledger} (hcalm : Calm s.ledger ledger) :
      { s with clock := call.nowMs, ledger }.Inv ∧ Calm s.ledger ledger ∧ s.answers = s.answers :=
    ⟨h.move hcalm.moves rfl rfl, hcalm, rfl⟩
  cases call with
  | acquire call => cases hcall
  | renew call => exact hkeep (renewTaskLease_calm kind h.wf call)
  | complete call => exact inv_stepComplete hclock call
  | abandon call => exact hkeep (abandonTaskLease_calm h.wf call)
  | fenceTask noteId terminalKind nowMs =>
    exact hkeep (Calm.fenceTaskClaims h.wf noteId terminalKind nowMs)
  | fenceDomain domain terminalKind nowMs =>
    exact hkeep (Calm.fenceProjectClaims kind h.wf domain terminalKind nowMs)
  | authority row nowMs => exact hkeep (.of_claims h.wf rfl rfl rfl)

theorem inv_step {call : Call T} (hstep : step kind env s call = some s') (h : s.Inv) :
    s'.Inv ∧ Moves s.ledger s'.ledger := by
  cases hcall : call.isAcquire with
  | false =>
    obtain ⟨hinv, hcalm, -⟩ := calm_step hstep h hcall
    exact ⟨hinv, hcalm.moves⟩
  | true =>
    unfold step at hstep
    split at hstep
    · cases hstep
    obtain rfl := Option.some.inj hstep
    cases call with
    | acquire call =>
      simp only [stepAcquire]
      split
      · exact ⟨h.move (.refl h.wf) rfl rfl, .refl h.wf⟩
      · next hacquire =>
          have hmoves := acquireTaskLease_moves kind env h.wf hacquire
          exact ⟨h.move hmoves rfl rfl, hmoves⟩
    | _ => cases hcall

theorem inv_run {clock : Int} {calls : List (Call T)}
    (hrun : runEvents (step kind env) (State.new clock) calls = some s) : s.Inv :=
  runEvents_invariant (fun hstep h => (inv_step hstep h).1) (inv_new clock) hrun

theorem advances_run {calls : List (Call T)} (h : s.Inv)
    (hrun : runEvents (step kind env) s calls = some s') : Advances s.ledger s'.ledger := by
  refine runEvents_related (P := State.Inv) (R := fun s s' => Advances s.ledger s'.ledger)
    (fun hstep h => (inv_step hstep h).1) (fun s => .refl s.ledger) ?_
    (fun hstep h => (inv_step hstep h).2.1) h hrun
  exact fun hab hbc => hab.trans hbc

/-! ## Answers of a recorded completion -/

theorem find?_claimId {s : Ledger} (h : s.Wf) (hrow : row ∈ s.claims) :
    (s.claims.find? fun other => other.claim.claimId = row.claim.claimId) = some row := by
  refine find?_of_unique hrow (decide_eq_true rfl) fun other hother hid => ?_
  exact h.eq_of_claimId hother hrow (of_decide_eq_true hid)

variable (env) in
theorem completeTaskLease_recorded {s : Ledger} (h : s.Wf) (hrow : row ∈ s.claims)
    (hrecorded : application.RecordedIn row) {call : CompleteCall}
    (hid : call.claimId = row.claim.claimId) (hvalid : validId call.completionId = true) :
    completeTaskLease env s call = .ok
      (if application.completionId = call.completionId then
        match row.terminalResponse with
        | some response => .replayed response
        | none => .conflict "expired"
      else .conflict "completion_conflict", s) := by
  simp only [completeTaskLease, completionFences, hvalid, hid, find?_claimId h hrow, hrecorded.1,
    hrecorded.2.1]
  rfl

theorem renewTaskLease_renewed {s s' : Ledger} {call : RenewCall} {expiresAt : Int}
    (h : renewTaskLease kind s call = (.renewed expiresAt, s')) :
    ∃ row ∈ s.claims, row.claim.claimId = call.claimId ∧ row.active = true ∧
      row.claim.registrationGeneration = call.registrationGeneration := by
  unfold renewTaskLease at h
  split at h
  · cases h
  next row hfound =>
  split at h
  · cases h
  next hterminal =>
  split at h
  · cases h
  next hheld =>
  rw [Bool.or_eq_true, not_or, decide_eq_true_eq, not_not] at hheld
  refine ⟨row, mem_of_find?_eq_some hfound, by simpa using find?_some hfound, ?_, hheld.2⟩
  rw [ClaimRow.active, hterminal]
  rfl

/-- Along every run: one active claim for a task and for a worker slot; a terminal claim stays as
it is up to its response, and registration generations do not fall; bodies run only where they
are allowed to; and what a body applied is applied once and answered from the row. -/
theorem completion_applied_once {clock : Int} {s s' : State} {calls later : List (Call T)}
    (hrun : runEvents (step kind env) (State.new clock) calls = some s)
    (hlater : runEvents (step kind env) s later = some s') :
    (∀ row ∈ s.ledger.claims, ∀ other ∈ s.ledger.claims, row.active = true → other.active = true →
      (row.claim.noteId = other.claim.noteId ∨
        row.claim.evaluatorInstance = other.claim.evaluatorInstance ∧
          row.claim.evaluatorSlot = other.claim.evaluatorSlot) → row = other) ∧
    (∀ row ∈ s.ledger.claims, ∀ row' ∈ s'.ledger.claims, row'.serial = row.serial →
      row.claim.registrationGeneration ≤ row'.claim.registrationGeneration ∧
        (row.active = false → row'.terminalKind = row.terminalKind ∧
          row'.completionId = row.completionId ∧
          (row'.terminalResponse = row.terminalResponse ∨ row'.terminalResponse = none))) ∧
    (∀ run ∈ s.bodies, run.Allowed) ∧
    (s.applications.map Application.serial).Nodup ∧
    (∀ application ∈ s.applications, ∀ row ∈ s.ledger.claims, row.serial = application.serial →
      ∀ call : CompleteCall, call.claimId = row.claim.claimId →
        (call.completionId = application.completionId →
          completeTaskLease env s.ledger call = .ok (.replayed application.response, s.ledger) ∨
            row.terminalResponse = none ∧
              completeTaskLease env s.ledger call = .ok (.conflict "expired", s.ledger)) ∧
        (call.completionId ≠ application.completionId →
          ∃ conflict, completeTaskLease env s.ledger call = .ok (.conflict conflict, s.ledger))) ∧
    (∀ call expiresAt ledger,
      renewTaskLease kind s.ledger call = (.renewed expiresAt, ledger) →
        ∃ row ∈ s.ledger.claims, row.claim.claimId = call.claimId ∧ row.active = true ∧
          row.claim.registrationGeneration = call.registrationGeneration) := by
  have hinv := inv_run hrun
  have hadvances := advances_run hinv hlater
  refine ⟨?_, ?_, hinv.bodies, hinv.once, ?_, fun call expiresAt ledger => renewTaskLease_renewed⟩
  · intro row hrow other hother hactive hactive' hsame
    by_contra hne
    obtain ⟨hnote, hslot⟩ :=
      (hinv.wf.distinct.forall hrow hother hne).2.2.2 hactive hactive'
    exact hsame.elim hnote hslot
  · intro row hrow row' hrow' hserial
    have hevolves := hadvances.evolves hinv.wf hrow hrow' hserial
    refine ⟨hevolves.generation, fun hinactive => ?_⟩
    obtain ⟨hkind, hcompletion, -, -, hresponse⟩ := hevolves.settled hinactive
    exact ⟨hkind, hcompletion, hresponse⟩
  · intro application happlication row hrow hserial call hid
    have hrecorded := hinv.recorded application happlication row hrow hserial
    constructor
    · intro hsame
      have hanswer := completeTaskLease_recorded env hinv.wf hrow hrecorded hid
        (hsame ▸ hinv.valid application happlication)
      rw [if_pos hsame.symm] at hanswer
      rcases hrecorded.2.2 with hresponse | hnone
      · rw [hresponse] at hanswer
        exact .inl hanswer
      · rw [hnone] at hanswer
        exact .inr ⟨hnone, hanswer⟩
    · intro hother
      by_cases hvalid : validId call.completionId = true
      · have hanswer := completeTaskLease_recorded env hinv.wf hrow hrecorded hid hvalid
        rw [if_neg (Ne.symm hother)] at hanswer
        exact ⟨_, hanswer⟩
      · refine ⟨"invalid", ?_⟩
        simp [completeTaskLease, completionFences, hvalid]

def sampleKind : TaskLeaseKind where
  authorityDomain := "notes"
  phases := ["due"]
  leaseMs := 100
  noWorkRetentionMs := 1000
  terminalRetentionMs := 10000
  responseRedactMs := 5000
  ledgerCap := 10

def sampleEnvironment : Environment where
  claimIdOf acquisitionId := "nec:" ++ acquisitionId
  identity _ := true
  content := some

def sampleAcquire (acquisitionId : String) (nowMs : Int) : Call Unit :=
  .acquire
    { acquisitionId, evaluatorInstance := "worker", evaluatorSlot := 0, registrationGeneration := 1
      nowMs, select := .claim 7 "due" () 1 1 1, load := fun _ => some () }

def sampleComplete (acquisitionId completionId : String) (nowMs : Int) : Call Unit :=
  .complete
    { claimId := "nec:" ++ acquisitionId, completionId, evaluatorInstance := "worker"
      evaluatorSlot := 0, nowMs, apply := fun _ => .applied "done" }

/-- A completion that is sent twice. -/
theorem completion_applied_once_sample :
    ∃ s s', runEvents (step sampleKind sampleEnvironment) (State.new 0)
        [.authority (some (3, 1)) 0, sampleAcquire "a" 1, sampleComplete "a" "c" 2] = some s ∧
      runEvents (step sampleKind sampleEnvironment) s [sampleComplete "a" "c" 3] = some s' ∧
      s'.applications = [⟨0, "c", "done"⟩] ∧ ∀ run ∈ s.bodies, run.Allowed := by
  have hresult : (runEvents (step sampleKind sampleEnvironment) (State.new 0)
      ([.authority (some (3, 1)) 0, sampleAcquire "a" 1, sampleComplete "a" "c" 2] ++
        [sampleComplete "a" "c" 3])).map State.applications = some [⟨0, "c", "done"⟩] := by
    decide +kernel
  obtain ⟨s', hs', happlications⟩ := Option.map_eq_some_iff.mp hresult
  rw [runEvents_append] at hs'
  obtain ⟨s, hs, hlater⟩ := Option.bind_eq_some_iff.mp hs'
  exact ⟨s, s', hs, hlater, happlications, (completion_applied_once hs hlater).2.2.1⟩

end Eidnara.MemoryStore.TaskLease
