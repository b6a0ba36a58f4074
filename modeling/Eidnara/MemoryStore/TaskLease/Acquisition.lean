import Eidnara.MemoryStore.TaskLease.Completion
import Mathlib.Data.List.Induction

/-!
# Acquisition ids

An id that was answered with a claim or with no work is answered from the ledger again, as long as
no other id has taken its claim over.  Slot recovery is where that happens: it writes the
recovering id over the one that created the claim.
-/

namespace Eidnara.MemoryStore.TaskLease

open Lib List

variable {T : Type} (kind : TaskLeaseKind) (env : Environment) {s s' : Ledger}
  {call : AcquireCall T} {outcome : LeaseAcquireOutcome T} {row : ClaimRow}

/-! ## What the tables remember of the answers -/

def Answer.Accepted : Answer → Prop
  | .claim acquisitionId evaluatorInstance evaluatorSlot _
  | .noWork acquisitionId evaluatorInstance evaluatorSlot _ _ =>
    validId acquisitionId = true ∧ validId evaluatorInstance = true ∧ 0 ≤ evaluatorSlot ∧
      env.identity acquisitionId = true ∧ env.identity evaluatorInstance = true

/-- The decision row that still answers for a no-work decision. -/
def AcquisitionRow.Answers (row : AcquisitionRow) (acquisitionId : String) (cycleExhausted : Bool)
    (atMs : Int) : Prop :=
  row.acquisitionId = acquisitionId ∧ row.expiresAt = atMs + kind.noWorkRetentionMs ∧
    (row.decision = noWorkDecision cycleExhausted ∨ row.decision = "")

/-- An acquisition of the run found the row terminal for all of its retention. -/
def Gone (clock : Int) (calls : List (Call T)) (row : ClaimRow) : Prop :=
  ∃ before acquire after s found,
    calls = before ++ .acquire acquire :: after ∧
    runEvents (step kind env) (State.new clock) before = some s ∧ found ∈ s.ledger.claims ∧
    row = Ledger.collectRow kind acquire.nowMs found ∧
    row.terminalBy (acquire.nowMs - kind.terminalRetentionMs) = true

structure Remembers (gone : ClaimRow → Prop) (s : Ledger) (clock : Int) (answers : List Answer) :
    Prop where
  /-- No id is in both tables. -/
  apart : ∀ row ∈ s.claims, ∀ decision ∈ s.acquisitions,
    row.claim.acquisitionId ≠ decision.acquisitionId
  unique : s.acquisitions.Pairwise fun a b => a.acquisitionId ≠ b.acquisitionId
  /-- A claim id is the digest of an id that the claim was given to. -/
  origin : ∀ row ∈ s.claims, ∃ acquisitionId evaluatorInstance evaluatorSlot,
    .claim acquisitionId evaluatorInstance evaluatorSlot row.serial ∈ answers ∧
      row.claim.claimId = env.claimIdOf acquisitionId
  accepted : ∀ answer ∈ answers, answer.Accepted env
  claims : ∀ acquisitionId evaluatorInstance evaluatorSlot serial,
    .claim acquisitionId evaluatorInstance evaluatorSlot serial ∈ answers →
      ∃ row : ClaimRow, row.serial = serial ∧
        row.heldBy evaluatorInstance evaluatorSlot = true ∧
        (row ∈ s.claims ∨ gone row)
  decisions : ∀ acquisitionId evaluatorInstance evaluatorSlot cycleExhausted atMs,
    .noWork acquisitionId evaluatorInstance evaluatorSlot cycleExhausted atMs ∈ answers →
      (∃ row ∈ s.acquisitions, row.Answers kind acquisitionId cycleExhausted atMs) ∨
        atMs + 2 * kind.noWorkRetentionMs ≤ clock

theorem Evolves.heldBy {a b : ClaimRow} (h : Evolves a b) (evaluatorInstance : String)
    (evaluatorSlot : Int) :
    b.heldBy evaluatorInstance evaluatorSlot = a.heldBy evaluatorInstance evaluatorSlot := by
  simp only [ClaimRow.heldBy, h.evaluatorInstance, h.evaluatorSlot]

namespace Remembers

variable {kind env} {clock clock' : Int} {answers : List Answer} {gone gone' : ClaimRow → Prop}

theorem empty : Remembers kind env gone .empty clock [] where
  apart := by simp [Ledger.empty]
  unique := List.Pairwise.nil
  origin := by simp [Ledger.empty]
  accepted := by simp
  claims := by simp
  decisions := by simp

theorem acquisitionId_tombstoneAt (nowMs : Int) (row : AcquisitionRow) :
    (row.tombstoneAt nowMs).acquisitionId = row.acquisitionId := by
  unfold AcquisitionRow.tombstoneAt
  split <;> rfl

theorem answers_tombstoneAt {row : AcquisitionRow} {acquisitionId : String} {cycleExhausted : Bool}
    {atMs : Int} (nowMs : Int) (h : row.Answers kind acquisitionId cycleExhausted atMs) :
    (row.tombstoneAt nowMs).Answers kind acquisitionId cycleExhausted atMs := by
  unfold AcquisitionRow.tombstoneAt
  split
  · exact ⟨h.1, h.2.1, .inr rfl⟩
  · exact h

theorem mem_acquisitions_collect {nowMs : Int} {row' : AcquisitionRow} :
    row' ∈ (s.collect kind nowMs).acquisitions ↔
      (∃ row ∈ s.acquisitions, row.tombstoneAt nowMs = row') ∧
        ¬ (row'.decision = "" ∧ row'.expiresAt ≤ nowMs - kind.noWorkRetentionMs) := by
  simp [Ledger.collect, mem_filter, imp_iff_not_or]

variable (h : Remembers kind env gone s clock answers)

include h

theorem mono (hgone : ∀ row, gone row → gone' row) : Remembers kind env gone' s clock answers :=
  { h with
    claims := fun _ _ _ _ hanswer => by
      obtain ⟨row, hserial, hheld, hrow⟩ := h.claims _ _ _ _ hanswer
      exact ⟨row, hserial, hheld, hrow.imp_right (hgone row)⟩ }

theorem calm (hclock : clock ≤ clock') (hcalm : Calm s s') :
    Remembers kind env gone s' clock' answers where
  apart row' hrow' decision hdecision := by
    obtain ⟨row, hrow, -, hid⟩ := hcalm.before row' hrow'
    rw [hcalm.acquisitions] at hdecision
    rw [hid]
    exact h.apart row hrow decision hdecision
  unique := hcalm.acquisitions ▸ h.unique
  origin row' hrow' := by
    obtain ⟨row, hrow, hevolves, -⟩ := hcalm.before row' hrow'
    rw [hevolves.serial, hevolves.claimId]
    exact h.origin row hrow
  accepted := h.accepted
  claims _ _ _ _ hanswer := by
    obtain ⟨row, hserial, hheld, hrow | hpassed⟩ := h.claims _ _ _ _ hanswer
    · obtain ⟨row', hrow', hevolves⟩ := hcalm.after row hrow
      exact ⟨row', hevolves.serial.trans hserial, (hevolves.heldBy _ _).trans hheld, .inl hrow'⟩
    · exact ⟨row, hserial, hheld, .inr hpassed⟩
  decisions _ _ _ _ _ hanswer := by
    rcases h.decisions _ _ _ _ _ hanswer with hrow | hpassed
    · exact .inl (hcalm.acquisitions ▸ hrow)
    · exact .inr (Int.le_trans hpassed hclock)

theorem collect {nowMs : Int} (hclock : clock ≤ nowMs)
    (hgone : ∀ found ∈ s.claims, (Ledger.collectRow kind nowMs found).terminalBy
      (nowMs - kind.terminalRetentionMs) = true → gone (Ledger.collectRow kind nowMs found)) :
    Remembers kind env gone (s.collect kind nowMs) nowMs answers where
  apart row' hrow' decision' hdecision' := by
    obtain ⟨row, hrow, rfl, -⟩ := (Ledger.mem_collect kind).mp hrow'
    obtain ⟨⟨decision, hdecision, rfl⟩, -⟩ := mem_acquisitions_collect.mp hdecision'
    rw [Ledger.acquisitionId_collectRow, acquisitionId_tombstoneAt]
    exact h.apart row hrow decision hdecision
  unique := by
    refine List.Pairwise.filter _ (pairwise_map.mpr (h.unique.imp ?_))
    intro a b hab
    rwa [acquisitionId_tombstoneAt, acquisitionId_tombstoneAt]
  origin row' hrow' := by
    obtain ⟨row, hrow, rfl, -⟩ := (Ledger.mem_collect kind).mp hrow'
    have hevolves : Evolves row (Ledger.collectRow kind nowMs row) := Ledger.evolves_collectRow kind
    rw [hevolves.serial, hevolves.claimId]
    exact h.origin row hrow
  accepted := h.accepted
  claims _ _ _ _ hanswer := by
    obtain ⟨row, hserial, hheld, hrow | hpassed⟩ := h.claims _ _ _ _ hanswer
    · have hevolves : Evolves row (Ledger.collectRow kind nowMs row) :=
        Ledger.evolves_collectRow kind
      refine ⟨Ledger.collectRow kind nowMs row, hevolves.serial.trans hserial,
        (hevolves.heldBy _ _).trans hheld, ?_⟩
      cases hdue : (Ledger.collectRow kind nowMs row).terminalBy
        (nowMs - kind.terminalRetentionMs) with
      | true => exact .inr (hgone row hrow hdue)
      | false => exact .inl ((Ledger.mem_collect kind).mpr ⟨row, hrow, rfl, hdue⟩)
    · exact ⟨row, hserial, hheld, .inr hpassed⟩
  decisions _ _ _ _ _ hanswer := by
    rcases h.decisions _ _ _ _ _ hanswer with ⟨row, hrow, hanswers⟩ | hpassed
    · have hanswers' := answers_tombstoneAt nowMs hanswers
      by_cases hdue : (row.tombstoneAt nowMs).decision = "" ∧
          (row.tombstoneAt nowMs).expiresAt ≤ nowMs - kind.noWorkRetentionMs
      · refine .inr ?_
        have hexpires := hanswers'.2.1
        omega
      · exact .inl ⟨_, mem_acquisitions_collect.mpr ⟨⟨row, hrow, rfl⟩, hdue⟩, hanswers'⟩
    · exact .inr (Int.le_trans hpassed hclock)

/-- A row under another id that no table knows, or under its own. -/
theorem rebound (hwf : s.Wf) {row : ClaimRow} (hrow : row ∈ s.claims) (hactive : row.active = true)
    (hid : row.claim.acquisitionId = call.acquisitionId ∨ Unknown s call.acquisitionId) :
    Remembers kind env gone
      (s.updateActive (fun other => other.claim.claimId = row.claim.claimId) fun other =>
        { other with claim := reboundClaim kind call other.claim }) clock answers where
  apart row' hrow' decision hdecision := by
    obtain ⟨found, hfound, rfl⟩ := Ledger.mem_updateActive.mp hrow'
    unfold Ledger.updated
    split
    · next hselected =>
        rw [Bool.and_eq_true, decide_eq_true_eq] at hselected
        obtain rfl := hwf.eq_of_claimId hfound hrow hselected.2
        change call.acquisitionId ≠ decision.acquisitionId
        rcases hid with hsame | hunknown
        · rw [← hsame]
          exact h.apart found hfound decision hdecision
        · exact (hunknown.2 decision hdecision).symm
    · exact h.apart found hfound decision hdecision
  unique := h.unique
  origin row' hrow' := by
    obtain ⟨found, hfound, rfl⟩ := Ledger.mem_updateActive.mp hrow'
    obtain ⟨acquisitionId, evaluatorInstance, evaluatorSlot, hanswer, hclaim⟩ :=
      h.origin found hfound
    refine ⟨acquisitionId, evaluatorInstance, evaluatorSlot, ?_⟩
    unfold Ledger.updated
    split <;> exact ⟨hanswer, hclaim⟩
  accepted := h.accepted
  claims _ _ _ _ hanswer := by
    obtain ⟨found, hserial, hheld, hfound | hpassed⟩ := h.claims _ _ _ _ hanswer
    · refine ⟨_, ?_, ?_, .inl (Ledger.mem_updateActive.mpr ⟨found, hfound, rfl⟩)⟩
      · unfold Ledger.updated
        split <;> exact hserial
      · unfold Ledger.updated
        split <;> exact hheld
    · exact ⟨found, hserial, hheld, .inr hpassed⟩
  decisions := h.decisions

theorem origin_cons (answer : Answer) (hrow : row ∈ s.claims) :
    ∃ acquisitionId evaluatorInstance evaluatorSlot,
      .claim acquisitionId evaluatorInstance evaluatorSlot row.serial ∈ answer :: answers ∧
        row.claim.claimId = env.claimIdOf acquisitionId := by
  obtain ⟨acquisitionId, _, _, hanswer, hclaim⟩ := h.origin row hrow
  exact ⟨acquisitionId, _, _, mem_cons_of_mem _ hanswer, hclaim⟩

theorem answerClaim {acquisitionId evaluatorInstance : String} {evaluatorSlot : Int}
    {row : ClaimRow} (hrow : row ∈ s.claims)
    (hheld : row.heldBy evaluatorInstance evaluatorSlot = true)
    (haccepted : (Answer.claim acquisitionId evaluatorInstance evaluatorSlot row.serial).Accepted
      env) :
    Remembers kind env gone s clock
      (.claim acquisitionId evaluatorInstance evaluatorSlot row.serial :: answers) where
  apart := h.apart
  unique := h.unique
  origin _ hfound := h.origin_cons _ hfound
  accepted := forall_mem_cons.mpr ⟨haccepted, h.accepted⟩
  claims _ _ _ _ hanswer := by
    rcases mem_cons.mp hanswer with hnew | hold
    · cases hnew
      exact ⟨row, rfl, hheld, .inl hrow⟩
    · exact h.claims _ _ _ _ hold
  decisions _ _ _ _ _ hanswer := by
    rcases mem_cons.mp hanswer with hnew | hold
    · cases hnew
    · exact h.decisions _ _ _ _ _ hold

theorem noWork {cycleExhausted : Bool} (hunknown : Unknown s call.acquisitionId)
    (haccepted : (Answer.noWork call.acquisitionId call.evaluatorInstance call.evaluatorSlot
      cycleExhausted call.nowMs).Accepted env) :
    Remembers kind env gone
      { s with acquisitions := s.acquisitions ++
          [⟨call.acquisitionId, noWorkDecision cycleExhausted,
            call.nowMs + kind.noWorkRetentionMs⟩] } clock
      (.noWork call.acquisitionId call.evaluatorInstance call.evaluatorSlot cycleExhausted
        call.nowMs :: answers) where
  apart row hrow :=
    forall_mem_append.mpr ⟨h.apart row hrow, forall_mem_singleton.mpr (hunknown.1 row hrow)⟩
  unique := by
    refine pairwise_append.mpr ⟨h.unique, pairwise_singleton _ _, ?_⟩
    intro decision hdecision fresh hfresh
    rw [mem_singleton.mp hfresh]
    exact hunknown.2 decision hdecision
  origin _ hrow := h.origin_cons _ hrow
  accepted := forall_mem_cons.mpr ⟨haccepted, h.accepted⟩
  claims _ _ _ _ hanswer := by
    rcases mem_cons.mp hanswer with hnew | hold
    · cases hnew
    · exact h.claims _ _ _ _ hold
  decisions _ _ _ _ _ hanswer := by
    rcases mem_cons.mp hanswer with hnew | hold
    · cases hnew
      exact .inl ⟨_, mem_append_right _ (mem_singleton.mpr rfl), rfl, rfl, .inl rfl⟩
    · rcases h.decisions _ _ _ _ _ hold with ⟨row, hrow, hanswers⟩ | hpassed
      · exact .inl ⟨row, mem_append_left _ hrow, hanswers⟩
      · exact .inr hpassed

theorem inserted {claim : LeaseClaim} (hclaim : claim.claimId = env.claimIdOf call.acquisitionId)
    (hacquisition : claim.acquisitionId = call.acquisitionId)
    (hinstance : claim.evaluatorInstance = call.evaluatorInstance)
    (hslot : claim.evaluatorSlot = call.evaluatorSlot) (hunknown : Unknown s call.acquisitionId)
    (haccepted : (Answer.claim call.acquisitionId call.evaluatorInstance call.evaluatorSlot
      s.inserted).Accepted env) :
    Remembers kind env gone
      { s with
        claims := s.claims ++ [⟨s.inserted, claim, none, none, none, none⟩]
        inserted := s.inserted + 1 } clock
      (.claim call.acquisitionId call.evaluatorInstance call.evaluatorSlot s.inserted ::
        answers) where
  apart := forall_mem_append.mpr ⟨h.apart, forall_mem_singleton.mpr fun decision hdecision =>
    hacquisition ▸ (hunknown.2 decision hdecision).symm⟩
  unique := h.unique
  origin := forall_mem_append.mpr ⟨fun _ => h.origin_cons _,
    forall_mem_singleton.mpr ⟨_, _, _, mem_cons_self, hclaim⟩⟩
  accepted := forall_mem_cons.mpr ⟨haccepted, h.accepted⟩
  claims _ _ _ _ hanswer := by
    rcases mem_cons.mp hanswer with hnew | hold
    · cases hnew
      refine ⟨_, rfl, ?_, .inl (mem_append_right _ (mem_singleton.mpr rfl))⟩
      simp [ClaimRow.heldBy, hinstance, hslot]
    · obtain ⟨row, hserial, hheld, hrow | hpassed⟩ := h.claims _ _ _ _ hold
      · exact ⟨row, hserial, hheld, .inl (mem_append_left _ hrow)⟩
      · exact ⟨row, hserial, hheld, .inr hpassed⟩
  decisions _ _ _ _ _ hanswer := by
    rcases mem_cons.mp hanswer with hnew | hold
    · cases hnew
    · exact h.decisions _ _ _ _ _ hold

theorem acquired (hwf : s.Wf) (hwf' : s'.Wf) (haccepted : call.Accepted env)
    (hacquired : Acquired kind env s call outcome s') :
    Remembers kind env gone s' clock (answersOf call s' outcome ++ answers) := by
  cases hacquired with
  | same hquiet =>
    rw [hquiet]
    exact h
  | rebound row hrow hactive hheld hid _ _ houtcome =>
    have hrebound := h.rebound hwf hrow hactive hid
    rcases houtcome with rfl | ⟨task, rfl⟩
    · exact hrebound
    · have hmem : { row with claim := reboundClaim kind call row.claim } ∈
          (s.updateActive (fun other => other.claim.claimId = row.claim.claimId) fun other =>
            { other with claim := reboundClaim kind call other.claim }).claims := by
        refine Ledger.mem_updateActive.mpr ⟨row, hrow, ?_⟩
        rw [Ledger.updated, if_pos (by simp [hactive])]
      rw [answersOf, show (reboundClaim kind call row.claim).claimId =
        { row with claim := reboundClaim kind call row.claim }.claim.claimId from rfl,
        find?_claimId hwf' hmem]
      exact hrebound.answerClaim hmem hheld haccepted
  | noWork cycleExhausted hunknown => exact h.noWork hunknown haccepted
  | inserted claim task hclaim hacquisition hinstance hslot hunknown hinsert =>
    unfold insertClaim at hinsert
    split at hinsert
    · cases hinsert
    · cases hinsert
      have hmem : (⟨s.inserted, claim, none, none, none, none⟩ : ClaimRow) ∈
          s.claims ++ [⟨s.inserted, claim, none, none, none, none⟩] :=
        mem_append_right _ (mem_singleton.mpr rfl)
      rw [answersOf, find?_claimId hwf' hmem]
      exact h.inserted hclaim hacquisition hinstance hslot hunknown haccepted

end Remembers

/-! ## Runs in which no id is superseded -/

/-- The call does not come under an id whose claim another id has taken over, its selector names a
task without an active claim, and the task of an active claim can be loaded. -/
def Orderly (s : State) : Call T → Prop
  | .acquire call =>
    (∀ evaluatorInstance evaluatorSlot serial,
      .claim call.acquisitionId evaluatorInstance evaluatorSlot serial ∈ s.answers →
        ∀ row ∈ s.ledger.claims, row.serial = serial →
          row.claim.acquisitionId = call.acquisitionId) ∧
    (∀ noteId phase task sourceRevision stateVersion policyVersion,
      call.select = .claim noteId phase task sourceRevision stateVersion policyVersion →
        ∀ row ∈ (s.ledger.collect kind call.nowMs).claims, row.active = true →
          row.claim.noteId ≠ noteId) ∧
    ∀ row ∈ s.ledger.claims, row.active = true → (call.load row.claim.noteId).isSome
  | _ => True

theorem acquireTaskLease_eq
    (haccepted : call.Accepted env) :
    acquireTaskLease kind env s call = acquireTx kind env (s.collect kind call.nowMs) call := by
  obtain ⟨hid, hinstance, hslot, hcleanId, hcleanInstance⟩ := haccepted
  rw [acquireTaskLease, if_neg (by simpa [hid, hinstance] using hslot),
    if_neg (by simp [hcleanId, hcleanInstance])]

/-- An answer that does not depend on the selector inside the transaction does not outside. -/
theorem acquireTaskLease_select
    (haccepted : call.Accepted env)
    (hselect : ∀ select, acquireTx kind env (s.collect kind call.nowMs) { call with select } =
      acquireTx kind env (s.collect kind call.nowMs) call) (select : LeaseSelected T) :
    acquireTaskLease kind env s { call with select } = acquireTaskLease kind env s call := by
  have hother : acquireTaskLease kind env s { call with select } =
      acquireTx kind env (s.collect kind call.nowMs) { call with select } :=
    acquireTaskLease_eq kind env haccepted
  rw [hother, acquireTaskLease_eq kind env haccepted]
  exact hselect select

variable {kind env}

theorem clock_step {s s' : State} {call : Call T} (hstep : step kind env s call = some s') :
    s.clock ≤ call.nowMs ∧ s'.clock = call.nowMs := by
  unfold step at hstep
  split at hstep
  · cases hstep
  next hlt =>
  obtain rfl := Option.some.inj hstep
  refine ⟨Int.not_lt.mp hlt, ?_⟩
  cases call with
  | acquire call =>
    simp only [stepAcquire]
    split <;> rfl
  | complete call =>
    simp only [stepComplete]
    split
    · rfl
    · split <;> rfl
  | _ => rfl

theorem Gone.later {clock : Int} {calls later : List (Call T)}
    (h : Gone kind env clock calls row) : Gone kind env clock (calls ++ later) row := by
  obtain ⟨before, acquire, after, s, found, rfl, hrow⟩ := h
  exact ⟨before, acquire, after ++ later, s, found, by simp, hrow⟩

/-- The collection of a call in a state of the run, with what it takes out gone from then on. -/
theorem Remembers.collected {clock : Int} {s : State} {calls : List (Call T)}
    (hrun : runEvents (step kind env) (State.new clock) calls = some s)
    (h : Remembers kind env (Gone kind env clock calls) s.ledger s.clock s.answers)
    (hclock : s.clock ≤ call.nowMs) :
    Remembers kind env (Gone kind env clock (calls ++ [.acquire call]))
      (s.ledger.collect kind call.nowMs) call.nowMs s.answers :=
  (h.mono fun _ => Gone.later).collect hclock fun found hfound hdue =>
    ⟨calls, call, [], s, found, rfl, hrun, hfound, rfl, hdue⟩

theorem remembers_step {clock : Int} {s s' : State} {calls : List (Call T)} {call : Call T}
    (hrun : runEvents (step kind env) (State.new clock) calls = some s)
    (hstep : step kind env s call = some s')
    (h : s.Inv ∧ Remembers kind env (Gone kind env clock calls) s.ledger s.clock s.answers) :
    s'.Inv ∧ Remembers kind env (Gone kind env clock (calls ++ [call])) s'.ledger s'.clock
      s'.answers := by
  obtain ⟨hinv, hremembers⟩ := h
  have hinv' := (inv_step hstep hinv).1
  have hclock := clock_step hstep
  have hlater := hremembers.mono fun row (hgone : Gone kind env clock calls row) =>
    (hgone.later : Gone kind env clock (calls ++ [call]) row)
  refine ⟨hinv', ?_⟩
  cases hcall : call.isAcquire with
  | false =>
    obtain ⟨-, hcalm, hanswers⟩ := calm_step hstep hinv hcall
    rw [hanswers, hclock.2]
    exact hlater.calm hclock.1 hcalm
  | true =>
    unfold step at hstep
    split at hstep
    · cases hstep
    obtain rfl := Option.some.inj hstep
    cases call with
    | acquire call =>
      simp only [stepAcquire] at hinv' ⊢
      split at hinv'
      · exact hlater.calm hclock.1 (.refl hinv.wf)
      next outcome ledger hacquire =>
      rcases acquireTaskLease_eq_ok kind env hacquire with ⟨hquiet, rfl⟩ | ⟨haccepted, hacquired⟩
      · rw [hquiet]
        exact hlater.calm hclock.1 (.refl hinv.wf)
      · exact (hremembers.collected hrun hclock.1).acquired (hinv.wf.collect kind) hinv'.wf
          haccepted hacquired
    | _ => cases hcall

theorem remembers_run {clock : Int} {s : State} {calls : List (Call T)}
    (hrun : runEvents (step kind env) (State.new clock) calls = some s) :
    s.Inv ∧ Remembers kind env (Gone kind env clock calls) s.ledger s.clock s.answers := by
  induction calls using List.reverseRecOn generalizing s with
  | nil =>
    obtain rfl := Option.some.inj hrun
    exact ⟨inv_new clock, .empty⟩
  | append_singleton calls call ih =>
    rw [runEvents_append] at hrun
    obtain ⟨mid, hmid, hlast⟩ := Option.bind_eq_some_iff.mp hrun
    obtain ⟨next, hstep, hdone⟩ := runEvents_cons hlast
    obtain rfl := Option.some.inj hdone
    exact remembers_step hmid hstep (ih hmid)

/-! ## No key is written twice -/

theorem find?_acquisitionId (h : s.Wf) (hrow : row ∈ s.claims) :
    (s.claims.find? fun other => other.claim.acquisitionId = row.claim.acquisitionId) =
      some row := by
  refine find?_of_unique hrow (decide_eq_true rfl) fun other hother hid => ?_
  by_contra hne
  exact (h.distinct.forall hother hrow hne).2.2.1 (of_decide_eq_true hid)

variable (kind) in
theorem rebindClaim_eq
    (hfree : ∀ other ∈ s.claims, other.claim.claimId ≠ row.claim.claimId →
      other.claim.acquisitionId ≠ call.acquisitionId) :
    ∃ outcome s', rebindClaim kind s row call = .ok (outcome, s') ∧
      ∀ task, call.load row.claim.noteId = some task →
        outcome = .claim (reboundClaim kind call row.claim) task true := by
  unfold rebindClaim
  rw [if_neg (by
    rw [any_eq_true]
    rintro ⟨other, hother, hboth⟩
    simp only [Bool.and_eq_true, decide_eq_true_eq] at hboth
    exact hfree other hother hboth.1 hboth.2)]
  cases call.load row.claim.noteId with
  | none => exact ⟨_, _, rfl, by simp⟩
  | some task => exact ⟨_, _, rfl, by rintro _ ⟨⟩; rfl⟩

theorem free_of_distinct (h : s.Wf) (hrow : row ∈ s.claims)
    (hid : row.claim.acquisitionId = call.acquisitionId) :
    ∀ other ∈ s.claims, other.claim.claimId ≠ row.claim.claimId →
      other.claim.acquisitionId ≠ call.acquisitionId := by
  intro other hother hne hsame
  have hdistinct := h.distinct.forall hother hrow fun heq => hne (heq ▸ rfl)
  exact hdistinct.2.2.1 (hsame.trans hid.symm)

theorem acquireTx_ne_constraint (h : s.Wf)
    (hclaimId : ∀ row ∈ s.claims, row.claim.claimId = env.claimIdOf call.acquisitionId →
      row.claim.acquisitionId = call.acquisitionId)
    (hselect : ∀ noteId phase task sourceRevision stateVersion policyVersion,
      call.select = .claim noteId phase task sourceRevision stateVersion policyVersion →
        ∀ row ∈ s.claims, row.active = true → row.claim.noteId ≠ noteId) :
    acquireTx kind env s call ≠ .error .constraint := by
  unfold acquireTx
  split
  · next row hfound =>
      have hrow := mem_of_find?_eq_some hfound
      have hid : row.claim.acquisitionId = call.acquisitionId := by
        simpa using find?_some hfound
      unfold replayClaim
      split
      · simp
      split
      · simp
      · obtain ⟨outcome, s', hrebind, -⟩ :=
          rebindClaim_eq kind (free_of_distinct h hrow hid)
        simp [hrebind]
  next hclaims =>
  split
  · simp
  next hacquisitions =>
  have hunknown := unknown_of_find? hclaims hacquisitions
  split
  · simp
  next authority hauthority =>
  split
  · next row hfound =>
      split
      · simp
      · have hfree : ∀ other ∈ s.claims, other.claim.claimId ≠ row.claim.claimId →
            other.claim.acquisitionId ≠ call.acquisitionId :=
          fun other hother _ => hunknown.1 other hother
        obtain ⟨outcome, s', hrebind, -⟩ := rebindClaim_eq kind hfree
        simp [hrebind]
  next hslot =>
  unfold selectTask
  split
  · simp
  · unfold recordNoWork
    split
    · simp
    · rw [if_neg]
      · simp
      · rw [any_eq_true]
        rintro ⟨row, hrow, hsame⟩
        exact hunknown.2 row hrow (of_decide_eq_true hsame)
  next noteId phase task sourceRevision stateVersion policyVersion hchoice =>
  split
  · simp
  split
  · simp
  split
  · simp
  have hfree : conflicts s (newClaim kind env call authority noteId phase sourceRevision
      stateVersion policyVersion) = false := by
    refine any_eq_false.mpr fun row hrow => ?_
    have hacquisition := hunknown.1 row hrow
    have hid : row.claim.claimId ≠ env.claimIdOf call.acquisitionId :=
      fun hsame => hacquisition (hclaimId row hrow hsame)
    have hheld := find?_eq_none.mp hslot row hrow
    have hnote := hselect _ _ _ _ _ _ hchoice row hrow
    cases hactive : row.active with
    | false => simp [newClaim, hid, hacquisition]
    | true =>
      simp only [hactive, Bool.true_and, Bool.not_eq_true] at hheld
      simp [newClaim, hid, hacquisition, hheld, hnote hactive]
  simp [insertClaim, hfree, Except.map]

/-! ## The answers -/

theorem acquisitionId_of_orderly {s : State} {call : AcquireCall T}
    (horderly : Orderly kind s (.acquire call)) {evaluatorInstance : String} {evaluatorSlot : Int}
    (hrow : row ∈ (s.ledger.collect kind call.nowMs).claims)
    (hanswer : .claim call.acquisitionId evaluatorInstance evaluatorSlot row.serial ∈ s.answers) :
    row.claim.acquisitionId = call.acquisitionId := by
  obtain ⟨before, hbefore, rfl, -⟩ := (Ledger.mem_collect kind).mp hrow
  rw [Ledger.acquisitionId_collectRow]
  rw [(Ledger.evolves_collectRow kind).serial] at hanswer
  exact horderly.1 _ _ _ hanswer before hbefore rfl

variable (env) in
theorem acquireTx_answered (hwf : s.Wf) (hrow : row ∈ s.claims)
    (hid : row.claim.acquisitionId = call.acquisitionId)
    (hheld : row.heldBy call.evaluatorInstance call.evaluatorSlot = true)
    (hload : row.active = true → (call.load row.claim.noteId).isSome) :
    (∀ select, acquireTx kind env s { call with select } = acquireTx kind env s call) ∧
      ((∃ terminalKind, row.terminalKind = some terminalKind ∧
          acquireTx kind env s call = .ok (.terminal terminalKind row.terminalResponse, s)) ∨
        row.active = true ∧
          (row.claim.registrationGeneration ≤ call.registrationGeneration →
            ∃ claim task s', acquireTx kind env s call = .ok (.claim claim task true, s') ∧
              claim.claimId = row.claim.claimId)) := by
  have hfound : (s.claims.find? fun other => other.claim.acquisitionId = call.acquisitionId) =
      some row := hid ▸ find?_acquisitionId hwf hrow
  constructor
  · intro select
    simp only [acquireTx, hfound]
    rfl
  · simp only [acquireTx, hfound]
    cases hterminal : row.terminalKind with
    | some terminalKind => exact .inl ⟨terminalKind, rfl, by simp only [replayClaim, hterminal]⟩
    | none =>
      have hactive : row.active = true := by rw [ClaimRow.active, hterminal]; rfl
      refine .inr ⟨hactive, fun hgeneration => ?_⟩
      obtain ⟨outcome, s', hrebind, houtcome⟩ :=
        rebindClaim_eq kind (free_of_distinct hwf hrow hid)
      obtain ⟨task, htask⟩ := Option.isSome_iff_exists.mp (hload hactive)
      obtain rfl := houtcome task htask
      refine ⟨reboundClaim kind call row.claim, task, s', ?_, rfl⟩
      simp only [replayClaim, hterminal, hheld]
      rw [if_neg (by simpa using hgeneration)]
      exact hrebind

variable (call) in
theorem acquireTx_decided {clock : Int} {answers : List Answer} {gone : ClaimRow → Prop}
    (h : Remembers kind env gone s clock answers) {row : AcquisitionRow}
    (hrow : row ∈ s.acquisitions)
    {cycleExhausted : Bool} {atMs : Int}
    (hanswers : row.Answers kind call.acquisitionId cycleExhausted atMs) :
    (∀ select, acquireTx kind env s { call with select } = acquireTx kind env s call) ∧
      (acquireTx kind env s call = .ok (.noWork true cycleExhausted, s) ∨
        acquireTx kind env s call = .ok (.expired, s)) := by
  obtain ⟨hid, -, hdecision⟩ := hanswers
  have hclaims : (s.claims.find? fun other => other.claim.acquisitionId = call.acquisitionId) =
      none := by
    refine find?_eq_none.mpr fun other hother => ?_
    simpa using hid ▸ h.apart other hother row hrow
  have hfound : (s.acquisitions.find? fun other => other.acquisitionId = call.acquisitionId) =
      some row := by
    refine find?_of_unique hrow (decide_eq_true hid) fun other hother hsame => ?_
    have : Std.Symm fun a b : AcquisitionRow => a.acquisitionId ≠ b.acquisitionId :=
      ⟨fun _ _ hab => hab.symm⟩
    by_contra hne
    exact h.unique.forall hother hrow hne ((of_decide_eq_true hsame).trans hid.symm)
  have hanswer : acquireTx kind env s call = .ok (replayDecision row, s) := by
    simp only [acquireTx, hclaims, hfound]
  constructor
  · intro select
    simp only [acquireTx, hclaims, hfound]
  · rw [hanswer]
    rcases hdecision with hdecision | hdecision
    · left
      cases cycleExhausted <;> simp [replayDecision, hdecision, noWorkDecision]
    · right
      simp [replayDecision, hdecision]

/-- In every run, an acquisition whose id was not superseded is answered as it was before, until
the retention of that answer has passed, and no acquisition writes a key a second time. -/
theorem orderly_acquire_answers (hinjective : Function.Injective env.claimIdOf) {clock : Int}
    {s : State} {calls : List (Call T)}
    (hrun : runEvents (step kind env) (State.new clock) calls = some s) (call : AcquireCall T)
    (hclock : s.clock ≤ call.nowMs) (horderly : Orderly kind s (.acquire call)) :
    acquireTaskLease kind env s.ledger call ≠ .error .constraint ∧
    (∀ serial, .claim call.acquisitionId call.evaluatorInstance call.evaluatorSlot serial ∈
        s.answers →
      ∃ row : ClaimRow, row.serial = serial ∧
        (Gone kind env clock (calls ++ [.acquire call]) row ∨
          row ∈ (s.ledger.collect kind call.nowMs).claims ∧
          (∀ select, acquireTaskLease kind env s.ledger { call with select } =
            acquireTaskLease kind env s.ledger call) ∧
          ((∃ terminalKind, row.terminalKind = some terminalKind ∧
              acquireTaskLease kind env s.ledger call =
                .ok (.terminal terminalKind row.terminalResponse,
                  s.ledger.collect kind call.nowMs)) ∨
            row.active = true ∧
              (row.claim.registrationGeneration ≤ call.registrationGeneration →
                ∃ claim task ledger,
                  acquireTaskLease kind env s.ledger call = .ok (.claim claim task true, ledger) ∧
                    claim.claimId = row.claim.claimId)))) ∧
    (∀ cycleExhausted atMs,
      .noWork call.acquisitionId call.evaluatorInstance call.evaluatorSlot cycleExhausted atMs ∈
        s.answers →
      atMs + 2 * kind.noWorkRetentionMs ≤ call.nowMs ∨
        (∀ select, acquireTaskLease kind env s.ledger { call with select } =
          acquireTaskLease kind env s.ledger call) ∧
        (acquireTaskLease kind env s.ledger call =
            .ok (.noWork true cycleExhausted, s.ledger.collect kind call.nowMs) ∨
          acquireTaskLease kind env s.ledger call =
            .ok (.expired, s.ledger.collect kind call.nowMs))) := by
  obtain ⟨hinv, hremembers⟩ := remembers_run hrun
  have hwf : (s.ledger.collect kind call.nowMs).Wf := hinv.wf.collect kind
  have hcollected := hremembers.collected hrun hclock
  refine ⟨?_, ?_, ?_⟩
  · unfold acquireTaskLease
    split
    · simp
    split
    · simp
    refine acquireTx_ne_constraint hwf ?_ horderly.2.1
    intro row hrow hsame
    obtain ⟨acquisitionId, evaluatorInstance, evaluatorSlot, hanswer, horigin⟩ :=
      hcollected.origin row hrow
    obtain rfl := hinjective (hsame.symm.trans horigin)
    exact acquisitionId_of_orderly horderly hrow hanswer
  · intro serial hanswer
    obtain ⟨row, rfl, hheld, hrow | hpassed⟩ := hcollected.claims _ _ _ _ hanswer
    · have haccepted := hremembers.accepted _ hanswer
      have hid := acquisitionId_of_orderly horderly hrow hanswer
      have hload : row.active = true → (call.load row.claim.noteId).isSome := by
        intro hactive
        obtain ⟨before, hbefore, rfl, -⟩ := (Ledger.mem_collect kind).mp hrow
        have hevolves : Evolves before (Ledger.collectRow kind call.nowMs before) :=
          Ledger.evolves_collectRow kind
        rw [hevolves.noteId]
        exact horderly.2.2 before hbefore (hevolves.active hactive)
      obtain ⟨hselect, hanswered⟩ := acquireTx_answered env hwf hrow hid hheld hload
      refine ⟨row, rfl, .inr ⟨hrow, ?_, ?_⟩⟩
      · exact acquireTaskLease_select kind env haccepted hselect
      · rw [acquireTaskLease_eq kind env haccepted]
        exact hanswered
    · exact ⟨row, rfl, .inl hpassed⟩
  · intro cycleExhausted atMs hanswer
    rcases hcollected.decisions _ _ _ _ _ hanswer with ⟨row, hrow, hanswers⟩ | hpassed
    · have haccepted := hremembers.accepted _ hanswer
      obtain ⟨hselect, hdecided⟩ := acquireTx_decided call hcollected hrow hanswers
      refine .inr ⟨?_, ?_⟩
      · exact acquireTaskLease_select kind env haccepted hselect
      · rw [acquireTaskLease_eq kind env haccepted]
        exact hdecided
    · exact .inl hpassed

/-- A run in which the slot's claim of "a" is recovered under "b" and completed there. -/
def supersededCalls : List (Call Unit) :=
  [.authority (some (3, 1)) 0, sampleAcquire "a" 1, sampleAcquire "b" 2, sampleComplete "a" "c" 3]

/-- The late retry of "a" finds no row under its id, selects a task again and fails on the key of
the claim it once created. -/
theorem superseded_acquire_fails :
    ∃ s, runEvents (step sampleKind sampleEnvironment) (State.new 0) supersededCalls = some s ∧
      .claim "a" "worker" 0 0 ∈ s.answers ∧ s.clock = 3 ∧
      s.ledger.claims.map (fun row => (row.serial, row.terminalKind, row.terminalAtMs)) =
        [(0, some "applied", some 3)] ∧
      acquireTaskLease sampleKind sampleEnvironment s.ledger
        { acquisitionId := "a", evaluatorInstance := "worker", evaluatorSlot := 0
          registrationGeneration := 1, nowMs := 4, select := .claim 7 "due" () 1 1 1
          load := fun _ => some () } = .error .constraint := by
  have hresult : (runEvents (step sampleKind sampleEnvironment) (State.new 0)
      supersededCalls).map (fun s => (s.ledger, s.clock, s.answers)) =
      some (⟨[⟨0, ⟨"nec:a", 7, "due", "b", "worker", 0, 1, 1, 1, 1, 1, 3, 102⟩, some "c",
        some "applied", some "done", some 3⟩], [], some (3, 1), 1⟩, 3,
        [.claim "b" "worker" 0 0, .claim "a" "worker" 0 0]) := by
    decide +kernel
  obtain ⟨s, hs, hfields⟩ := Option.map_eq_some_iff.mp hresult
  simp only [Prod.mk.injEq] at hfields
  obtain ⟨hledger, hclock, hanswers⟩ := hfields
  refine ⟨s, hs, ?_, hclock, ?_, ?_⟩
  · rw [hanswers]
    decide
  · rw [hledger]
    rfl
  · rw [hledger]
    rfl

/-- The same calls without the recovery: the retry is answered with the terminal result. -/
theorem orderly_acquire_answers_sample :
    ∃ s, runEvents (step sampleKind sampleEnvironment) (State.new 0)
        [.authority (some (3, 1)) 0, sampleAcquire "a" 1, sampleComplete "a" "c" 3] = some s ∧
      acquireTaskLease sampleKind sampleEnvironment s.ledger
        { acquisitionId := "a", evaluatorInstance := "worker", evaluatorSlot := 0
          registrationGeneration := 1, nowMs := 4, select := .claim 8 "due" () 1 1 1
          load := fun _ => some () } ≠ .error .constraint := by
  have hresult : (runEvents (step sampleKind sampleEnvironment) (State.new 0)
      [.authority (some (3, 1)) 0, sampleAcquire "a" 1, sampleComplete "a" "c" 3]).map
        (fun s => (s.ledger, s.clock, s.answers)) =
      some (⟨[⟨0, ⟨"nec:a", 7, "due", "a", "worker", 0, 1, 1, 1, 1, 1, 3, 101⟩, some "c",
        some "applied", some "done", some 3⟩], [], some (3, 1), 1⟩, 3,
        [.claim "a" "worker" 0 0]) := by
    decide +kernel
  obtain ⟨s, hs, hfields⟩ := Option.map_eq_some_iff.mp hresult
  simp only [Prod.mk.injEq] at hfields
  obtain ⟨hledger, hclock, hanswers⟩ := hfields
  have hinjective : Function.Injective sampleEnvironment.claimIdOf :=
    fun a b hab => String.append_right_inj "nec:" |>.mp hab
  refine ⟨s, hs, (orderly_acquire_answers hinjective hs _ (by rw [hclock]; decide) ?_).1⟩
  refine ⟨?_, ?_, ?_⟩
  · intro evaluatorInstance evaluatorSlot serial _ row hrow _
    rw [hledger] at hrow
    rw [mem_singleton.mp hrow]
  · intro noteId phase task sourceRevision stateVersion policyVersion _ row hrow hactive
    rw [hledger] at hrow
    obtain ⟨before, hbefore, rfl, -⟩ := (Ledger.mem_collect _).mp hrow
    rw [mem_singleton.mp hbefore] at hactive
    cases hactive
  · intro row hrow hactive
    rfl

end Eidnara.MemoryStore.TaskLease
