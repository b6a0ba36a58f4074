import Eidnara.Lib.Checked
import Eidnara.MemoryStore.TaskLease.Ledger
import Mathlib.Data.List.Pairwise

/-!
# What a call does to the rows

A row keeps its identity while it is in the table, its registration generation does not fall, and
once it is terminal only its response may still go.  Every call is shown to treat every row so, and
to keep the keys of the table apart.
-/

namespace Eidnara.MemoryStore.TaskLease

open Lib List

structure Evolves (before after : ClaimRow) : Prop where
  serial : after.serial = before.serial
  claimId : after.claim.claimId = before.claim.claimId
  noteId : after.claim.noteId = before.claim.noteId
  evaluatorInstance : after.claim.evaluatorInstance = before.claim.evaluatorInstance
  evaluatorSlot : after.claim.evaluatorSlot = before.claim.evaluatorSlot
  generation : before.claim.registrationGeneration ≤ after.claim.registrationGeneration
  settled : before.active = false →
    after.terminalKind = before.terminalKind ∧ after.completionId = before.completionId ∧
      after.terminalAtMs = before.terminalAtMs ∧
      after.claim.acquisitionId = before.claim.acquisitionId ∧
      (after.terminalResponse = before.terminalResponse ∨ after.terminalResponse = none)

namespace Evolves

variable {a b c : ClaimRow}

theorem refl (a : ClaimRow) : Evolves a a where
  serial := rfl
  claimId := rfl
  noteId := rfl
  evaluatorInstance := rfl
  evaluatorSlot := rfl
  generation := Int.le_refl _
  settled _ := ⟨rfl, rfl, rfl, rfl, .inl rfl⟩

theorem inactive (h : Evolves a b) (ha : a.active = false) : b.active = false := by
  unfold ClaimRow.active at ha ⊢
  rw [(h.settled ha).1]
  exact ha

theorem active (h : Evolves a b) (hb : b.active = true) : a.active = true := by
  by_contra hinactive
  rw [h.inactive (Bool.eq_false_iff.mpr hinactive)] at hb
  cases hb

theorem trans (hab : Evolves a b) (hbc : Evolves b c) : Evolves a c where
  serial := hbc.serial.trans hab.serial
  claimId := hbc.claimId.trans hab.claimId
  noteId := hbc.noteId.trans hab.noteId
  evaluatorInstance := hbc.evaluatorInstance.trans hab.evaluatorInstance
  evaluatorSlot := hbc.evaluatorSlot.trans hab.evaluatorSlot
  generation := Int.le_trans hab.generation hbc.generation
  settled ha := by
    obtain ⟨hkind, hcompletion, hat, hacquisition, hresponse⟩ := hab.settled ha
    obtain ⟨hkind', hcompletion', hat', hacquisition', hresponse'⟩ :=
      hbc.settled (hab.inactive ha)
    refine ⟨hkind'.trans hkind, hcompletion'.trans hcompletion, hat'.trans hat,
      hacquisition'.trans hacquisition, ?_⟩
    rcases hresponse' with hsame | hnone
    · rw [hsame]
      exact hresponse
    · exact .inr hnone

theorem terminate (ha : a.active = true) (terminalKind response : String) (nowMs : Int)
    (completionId : Option String) :
    Evolves a { a.terminate terminalKind response nowMs with completionId } :=
  { refl a with settled := fun h => nomatch ha.symm.trans h }

theorem lease (ha : a.active = true) (expiresAt generation : Int) (acquisitionId : String)
    (hgeneration : a.claim.registrationGeneration ≤ generation) :
    Evolves a { a with claim := { a.claim with
      registrationGeneration := generation, expiresAt, acquisitionId } } :=
  { refl a with generation := hgeneration, settled := fun h => nomatch ha.symm.trans h }

theorem expireAt (nowMs : Int) : Evolves a (a.expireAt nowMs) := by
  unfold ClaimRow.expireAt
  split
  · next h =>
      rw [Bool.and_eq_true] at h
      exact terminate h.1 _ _ _ a.completionId
  · exact refl a

theorem redactBy (timeMs : Int) : Evolves a (a.redactBy timeMs) := by
  unfold ClaimRow.redactBy
  split
  · exact ⟨rfl, rfl, rfl, rfl, rfl, Int.le_refl _, fun _ => ⟨rfl, rfl, rfl, rfl, .inr rfl⟩⟩
  · exact refl a

end Evolves

/-! ## Keys -/

/-- Two rows that the table may hold together. -/
def Distinct (a b : ClaimRow) : Prop :=
  a.serial ≠ b.serial ∧ a.claim.claimId ≠ b.claim.claimId ∧
    a.claim.acquisitionId ≠ b.claim.acquisitionId ∧
    (a.active = true → b.active = true →
      a.claim.noteId ≠ b.claim.noteId ∧
        ¬ (a.claim.evaluatorInstance = b.claim.evaluatorInstance ∧
          a.claim.evaluatorSlot = b.claim.evaluatorSlot))

theorem Distinct.symm {a b : ClaimRow} (h : Distinct a b) : Distinct b a := by
  obtain ⟨hserial, hclaim, hacquisition, hactive⟩ := h
  refine ⟨hserial.symm, hclaim.symm, hacquisition.symm, fun hb ha => ?_⟩
  obtain ⟨hnote, hslot⟩ := hactive ha hb
  exact ⟨hnote.symm, fun hsame => hslot ⟨hsame.1.symm, hsame.2.symm⟩⟩

instance : Std.Symm Distinct := ⟨fun _ _ h => h.symm⟩

theorem Distinct.evolve {a b a' b' : ClaimRow} (h : Distinct a b) (ha : Evolves a a')
    (hb : Evolves b b') (hacquisition : a'.claim.acquisitionId ≠ b'.claim.acquisitionId) :
    Distinct a' b' := by
  obtain ⟨hserial, hclaim, -, hactive⟩ := h
  refine ⟨by rwa [ha.serial, hb.serial], by rwa [ha.claimId, hb.claimId], hacquisition, ?_⟩
  intro hactiveA hactiveB
  rw [ha.noteId, hb.noteId, ha.evaluatorInstance, hb.evaluatorInstance, ha.evaluatorSlot,
    hb.evaluatorSlot]
  exact hactive (ha.active hactiveA) (hb.active hactiveB)

structure Ledger.Wf (s : Ledger) : Prop where
  distinct : s.claims.Pairwise Distinct
  serial_lt : ∀ row ∈ s.claims, row.serial < s.inserted
  /-- A row has a terminal time exactly when it is terminal. -/
  dated : ∀ row ∈ s.claims, row.terminalAtMs.isNone = row.active

/-- Every row after the call is one from before it, or was inserted by it. -/
structure Advances (s s' : Ledger) : Prop where
  inserted_le : s.inserted ≤ s'.inserted
  rows : ∀ row' ∈ s'.claims, (∃ row ∈ s.claims, Evolves row row') ∨ s.inserted ≤ row'.serial

namespace Ledger

variable {s s' s'' : Ledger} {row row' : ClaimRow}

theorem wf_empty : empty.Wf :=
  ⟨List.Pairwise.nil, by simp [empty], by simp [empty]⟩

theorem Wf.eq_of_serial (h : s.Wf) (hrow : row ∈ s.claims) (hrow' : row' ∈ s.claims)
    (hserial : row.serial = row'.serial) : row = row' := by
  by_contra hne
  exact (h.distinct.forall hrow hrow' hne).1 hserial

theorem Wf.eq_of_claimId (h : s.Wf) (hrow : row ∈ s.claims) (hrow' : row' ∈ s.claims)
    (hclaim : row.claim.claimId = row'.claim.claimId) : row = row' := by
  by_contra hne
  exact (h.distinct.forall hrow hrow' hne).2.1 hclaim

end Ledger

namespace Advances

variable {s s' s'' : Ledger} {row row' : ClaimRow}

theorem refl (s : Ledger) : Advances s s :=
  ⟨Nat.le_refl _, fun row hrow => .inl ⟨row, hrow, .refl row⟩⟩

theorem of_claims (hclaims : s'.claims = s.claims) (hinserted : s'.inserted = s.inserted) :
    Advances s s' := by
  refine ⟨Nat.le_of_eq hinserted.symm, fun row hrow => .inl ⟨row, ?_, .refl row⟩⟩
  rwa [hclaims] at hrow

theorem trans (h : Advances s s') (h' : Advances s' s'') : Advances s s'' := by
  refine ⟨Nat.le_trans h.inserted_le h'.inserted_le, fun row'' hrow'' => ?_⟩
  rcases h'.rows row'' hrow'' with ⟨row', hrow', hevolves'⟩ | hfresh
  · rcases h.rows row' hrow' with ⟨row, hrow, hevolves⟩ | hfresh
    · exact .inl ⟨row, hrow, hevolves.trans hevolves'⟩
    · exact .inr (hevolves'.serial ▸ hfresh)
  · exact .inr (Nat.le_trans h.inserted_le hfresh)

/-- The row of one insertion, followed over the calls. -/
theorem evolves (h : Advances s s') (hwf : s.Wf) (hrow : row ∈ s.claims) (hrow' : row' ∈ s'.claims)
    (hserial : row'.serial = row.serial) : Evolves row row' := by
  rcases h.rows row' hrow' with ⟨found, hfound, hevolves⟩ | hfresh
  · obtain rfl : found = row :=
      hwf.eq_of_serial hfound hrow (hevolves.serial.symm.trans hserial)
    exact hevolves
  · have hlt := hwf.serial_lt row hrow
    omega

end Advances

/-! ## Collection -/

namespace Ledger

variable (kind : TaskLeaseKind) {s s' : Ledger} {row row' : ClaimRow} {nowMs : Int}

/-- A row as the collection leaves it, unless it deletes it. -/
def collectRow (nowMs : Int) (row : ClaimRow) : ClaimRow :=
  (row.expireAt nowMs).redactBy (nowMs - kind.responseRedactMs)

theorem evolves_collectRow : Evolves row (collectRow kind nowMs row) :=
  (Evolves.expireAt nowMs).trans (Evolves.redactBy _)

@[simp] theorem acquisitionId_collectRow :
    (collectRow kind nowMs row).claim.acquisitionId = row.claim.acquisitionId := by
  unfold collectRow ClaimRow.redactBy ClaimRow.expireAt
  split <;> split <;> rfl

theorem dated_collectRow (h : row.terminalAtMs.isNone = row.active) :
    (collectRow kind nowMs row).terminalAtMs.isNone = (collectRow kind nowMs row).active := by
  have hexpire : (row.expireAt nowMs).terminalAtMs.isNone = (row.expireAt nowMs).active := by
    unfold ClaimRow.expireAt
    split
    · rfl
    · exact h
  unfold collectRow ClaimRow.redactBy
  split <;> exact hexpire

theorem mem_collect : row' ∈ (s.collect kind nowMs).claims ↔
    ∃ row ∈ s.claims, row' = collectRow kind nowMs row ∧
      row'.terminalBy (nowMs - kind.terminalRetentionMs) = false := by
  simp only [collect, collectRow, mem_filter, mem_map]
  constructor
  · rintro ⟨⟨row, hrow, rfl⟩, hkept⟩
    exact ⟨row, hrow, rfl, by simpa using hkept⟩
  · rintro ⟨row, hrow, rfl, hkept⟩
    exact ⟨⟨row, hrow, rfl⟩, by simpa using hkept⟩

theorem advances_collect : Advances s (s.collect kind nowMs) := by
  refine ⟨Nat.le_refl _, fun row' hrow' => ?_⟩
  obtain ⟨row, hrow, rfl, -⟩ := (mem_collect kind).mp hrow'
  exact .inl ⟨row, hrow, evolves_collectRow kind⟩

theorem Wf.collect (h : s.Wf) : (s.collect kind nowMs).Wf where
  distinct := by
    refine List.Pairwise.filter _ (pairwise_map.mpr (h.distinct.imp ?_))
    intro a b hab
    exact hab.evolve (evolves_collectRow kind) (evolves_collectRow kind) (by
      change (collectRow kind nowMs a).claim.acquisitionId ≠
        (collectRow kind nowMs b).claim.acquisitionId
      simpa using hab.2.2.1)
  serial_lt := by
    intro row' hrow'
    obtain ⟨row, hrow, rfl, -⟩ := (mem_collect kind).mp hrow'
    rw [(evolves_collectRow kind).serial]
    exact h.serial_lt row hrow
  dated := by
    intro row' hrow'
    obtain ⟨row, hrow, rfl, -⟩ := (mem_collect kind).mp hrow'
    exact dated_collectRow kind (h.dated row hrow)

/-! ## Updates -/

variable {selected : ClaimRow → Bool} {change : ClaimRow → ClaimRow}

def updated (selected : ClaimRow → Bool) (change : ClaimRow → ClaimRow) (row : ClaimRow) :
    ClaimRow :=
  if row.active && selected row then change row else row

theorem evolves_updated (hchange : row.active = true → selected row = true →
    Evolves row (change row)) : Evolves row (updated selected change row) := by
  unfold updated
  split
  · next h =>
      rw [Bool.and_eq_true] at h
      exact hchange h.1 h.2
  · exact .refl row

theorem mem_updateActive : row' ∈ (s.updateActive selected change).claims ↔
    ∃ row ∈ s.claims, row' = updated selected change row := by
  simp only [updateActive, updated, mem_map, eq_comm]

/-- An update that lets each row it selects evolve. -/
structure Sound (s : Ledger) (selected : ClaimRow → Bool) (change : ClaimRow → ClaimRow) :
    Prop where
  evolves : ∀ row ∈ s.claims, row.active = true → selected row = true → Evolves row (change row)
  dated : ∀ row ∈ s.claims, row.active = true → selected row = true →
    (change row).terminalAtMs.isNone = (change row).active
  acquisition : ∀ a ∈ s.claims, ∀ b ∈ s.claims, Distinct a b →
    (updated selected change a).claim.acquisitionId ≠
      (updated selected change b).claim.acquisitionId

theorem Sound.advances (h : s.Sound selected change) :
    Advances s (s.updateActive selected change) := by
  refine ⟨Nat.le_refl _, fun row' hrow' => ?_⟩
  obtain ⟨row, hrow, rfl⟩ := mem_updateActive.mp hrow'
  exact .inl ⟨row, hrow, evolves_updated (h.evolves row hrow)⟩

theorem Wf.updateActive (hwf : s.Wf) (h : s.Sound selected change) :
    (s.updateActive selected change).Wf where
  distinct := by
    refine pairwise_map.mpr (hwf.distinct.imp_of_mem ?_)
    intro a b ha hb hab
    exact hab.evolve (evolves_updated (h.evolves a ha)) (evolves_updated (h.evolves b hb))
      (h.acquisition a ha b hb hab)
  serial_lt := by
    intro row' hrow'
    obtain ⟨row, hrow, rfl⟩ := mem_updateActive.mp hrow'
    rw [(evolves_updated (h.evolves row hrow)).serial]
    exact hwf.serial_lt row hrow
  dated := by
    intro row' hrow'
    obtain ⟨row, hrow, rfl⟩ := mem_updateActive.mp hrow'
    unfold updated
    split
    · next hselected =>
        rw [Bool.and_eq_true] at hselected
        exact h.dated row hrow hselected.1 hselected.2
    · exact hwf.dated row hrow

theorem sound_terminate (s : Ledger) (selected : ClaimRow → Bool) (terminalKind response : String)
    (completionId : ClaimRow → Option String) :
    s.Sound selected fun row =>
      { row.terminate terminalKind response nowMs with completionId := completionId row } where
  evolves row _ hactive _ := Evolves.terminate hactive _ _ _ _
  dated _ _ _ _ := rfl
  acquisition a _ b _ hab := by
    unfold updated
    split <;> split <;> exact hab.2.2.1

end Ledger

/-- A call that lets every row evolve and keeps the tables well formed. -/
def Moves (s s' : Ledger) : Prop := Advances s s' ∧ s'.Wf

/-- A call that only lets rows evolve, each under its acquisition id. -/
structure Calm (s s' : Ledger) : Prop where
  wf : s'.Wf
  inserted : s'.inserted = s.inserted
  acquisitions : s'.acquisitions = s.acquisitions
  before : ∀ row' ∈ s'.claims, ∃ row ∈ s.claims, Evolves row row' ∧
    row'.claim.acquisitionId = row.claim.acquisitionId
  after : ∀ row ∈ s.claims, ∃ row' ∈ s'.claims, Evolves row row'

namespace Calm

open Ledger

variable (kind : TaskLeaseKind) {s s' : Ledger}

theorem moves (h : Calm s s') : Moves s s' := by
  refine ⟨⟨Nat.le_of_eq h.inserted.symm, fun row' hrow' => ?_⟩, h.wf⟩
  obtain ⟨row, hrow, hevolves, -⟩ := h.before row' hrow'
  exact .inl ⟨row, hrow, hevolves⟩

theorem of_claims (h : s.Wf) (hclaims : s'.claims = s.claims) (hinserted : s'.inserted = s.inserted)
    (hacquisitions : s'.acquisitions = s.acquisitions) : Calm s s' := by
  obtain ⟨hdistinct, hserial, hdated⟩ := h
  refine ⟨⟨hclaims ▸ hdistinct, hclaims ▸ hinserted ▸ hserial, hclaims ▸ hdated⟩, hinserted,
    hacquisitions, fun row hrow => ⟨row, hclaims ▸ hrow, .refl row, rfl⟩,
    fun row hrow => ⟨row, hclaims ▸ hrow, .refl row⟩⟩

theorem refl (h : s.Wf) : Calm s s := .of_claims h rfl rfl rfl

theorem updateActive {selected : ClaimRow → Bool} {change : ClaimRow → ClaimRow} (h : s.Wf)
    (hsound : s.Sound selected change)
    (hacquisition : ∀ row, (change row).claim.acquisitionId = row.claim.acquisitionId) :
    Calm s (s.updateActive selected change) where
  wf := h.updateActive hsound
  inserted := rfl
  acquisitions := rfl
  before row' hrow' := by
    obtain ⟨row, hrow, rfl⟩ := mem_updateActive.mp hrow'
    refine ⟨row, hrow, evolves_updated (hsound.evolves row hrow), ?_⟩
    unfold updated
    split
    · exact hacquisition row
    · rfl
  after row hrow :=
    ⟨updated selected change row, mem_updateActive.mpr ⟨row, hrow, rfl⟩,
      evolves_updated (hsound.evolves row hrow)⟩

theorem markTerminal (h : s.Wf) (claimId terminalKind response : String)
    (completionId : Option String) (nowMs : Int) :
    Calm s (s.markTerminal claimId terminalKind completionId response nowMs) :=
  .updateActive h (sound_terminate s _ _ _ fun row => completionId.or row.completionId)
    fun _ => rfl

theorem fenceTaskClaims (h : s.Wf) (noteId : Int) (terminalKind : String) (nowMs : Int) :
    Calm s (s.fenceTaskClaims noteId terminalKind nowMs) :=
  .updateActive h (sound_terminate s _ _ _ fun row => row.completionId) fun _ => rfl

theorem fenceProjectClaims (h : s.Wf) (domain terminalKind : String) (nowMs : Int) :
    Calm s (s.fenceProjectClaims kind domain terminalKind nowMs) := by
  unfold Ledger.fenceProjectClaims
  split
  · exact .updateActive h (sound_terminate s _ _ _ fun row => row.completionId) fun _ => rfl
  · exact .refl h

end Calm

namespace Moves

open Ledger

variable (kind : TaskLeaseKind) {s s' s'' : Ledger}

theorem refl (h : s.Wf) : Moves s s := ⟨.refl s, h⟩

theorem trans (h : Moves s s') (h' : Moves s' s'') : Moves s s'' :=
  ⟨h.1.trans h'.1, h'.2⟩

theorem collect (h : s.Wf) (nowMs : Int) : Moves s (s.collect kind nowMs) :=
  ⟨advances_collect kind, h.collect kind⟩

theorem updateActive {selected : ClaimRow → Bool} {change : ClaimRow → ClaimRow} (h : s.Wf)
    (hsound : s.Sound selected change) : Moves s (s.updateActive selected change) :=
  ⟨hsound.advances, h.updateActive hsound⟩

theorem insertClaim {claim : LeaseClaim} (h : s.Wf)
    (hinsert : TaskLease.insertClaim s claim = .ok s') : Moves s s' := by
  unfold TaskLease.insertClaim at hinsert
  split at hinsert
  · cases hinsert
  · next hfree =>
      cases hinsert
      have hkeys : ∀ row ∈ s.claims, row.claim.claimId ≠ claim.claimId ∧
          row.claim.acquisitionId ≠ claim.acquisitionId ∧
          (row.active = true → row.claim.noteId ≠ claim.noteId ∧
            row.heldBy claim.evaluatorInstance claim.evaluatorSlot = false) := by
        intro row hrow
        have := any_eq_false.mp (Bool.eq_false_iff.mpr hfree) row hrow
        simp only [Bool.or_eq_true, Bool.and_eq_true, decide_eq_true_eq, not_or, not_and] at this
        exact ⟨this.1.1, this.1.2, fun hactive =>
          ⟨(this.2 hactive).1, Bool.eq_false_iff.mpr (this.2 hactive).2⟩⟩
      refine ⟨⟨Nat.le_succ _, ?_⟩, ?_, ?_, ?_⟩
      · exact forall_mem_append.mpr ⟨fun row' hold => .inl ⟨row', hold, .refl row'⟩,
          forall_mem_singleton.mpr (.inr (Nat.le_refl _))⟩
      · refine pairwise_append.mpr ⟨h.distinct, pairwise_singleton _ _, ?_⟩
        intro row hrow fresh hfresh
        rw [mem_singleton.mp hfresh]
        obtain ⟨hclaim, hacquisition, hactive⟩ := hkeys row hrow
        refine ⟨Nat.ne_of_lt (h.serial_lt row hrow), hclaim, hacquisition, fun ha _ => ?_⟩
        obtain ⟨hnote, hslot⟩ := hactive ha
        refine ⟨hnote, fun hsame => ?_⟩
        simp [ClaimRow.heldBy, hsame.1, hsame.2] at hslot
      · exact forall_mem_append.mpr ⟨fun row' hold => Nat.lt_succ_of_lt (h.serial_lt row' hold),
          forall_mem_singleton.mpr (Nat.lt_succ_self _)⟩
      · exact forall_mem_append.mpr ⟨h.dated, forall_mem_singleton.mpr rfl⟩

end Moves

section

variable {T : Type} (kind : TaskLeaseKind) (env : Environment)

/-! ## What an acquisition does -/

def reboundClaim (call : AcquireCall T) (claim : LeaseClaim) : LeaseClaim :=
  { claim with
    registrationGeneration := call.registrationGeneration
    expiresAt := call.nowMs + kind.leaseMs
    acquisitionId := call.acquisitionId }

/-- No row of either table carries the id. -/
def Unknown (s : Ledger) (acquisitionId : String) : Prop :=
  (∀ row ∈ s.claims, row.claim.acquisitionId ≠ acquisitionId) ∧
    ∀ row ∈ s.acquisitions, row.acquisitionId ≠ acquisitionId

/-- The ways an acquisition that is answered leaves the collected tables. -/
inductive Acquired (s : Ledger) (call : AcquireCall T) : LeaseAcquireOutcome T → Ledger → Prop
  | same {outcome : LeaseAcquireOutcome T} (hquiet : answersOf call s outcome = []) :
      Acquired s call outcome s
  | rebound {outcome : LeaseAcquireOutcome T} (row : ClaimRow) (hrow : row ∈ s.claims)
      (hactive : row.active = true)
      (hheld : row.heldBy call.evaluatorInstance call.evaluatorSlot = true)
      (hid : row.claim.acquisitionId = call.acquisitionId ∨ Unknown s call.acquisitionId)
      (hgeneration : row.claim.registrationGeneration ≤ call.registrationGeneration)
      (hfree : ∀ other ∈ s.claims, other.claim.claimId ≠ row.claim.claimId →
        other.claim.acquisitionId ≠ call.acquisitionId)
      (houtcome : outcome = .invalid ∨
        ∃ task, outcome = .claim (reboundClaim kind call row.claim) task true) :
      Acquired s call outcome
        (s.updateActive (fun other => other.claim.claimId = row.claim.claimId) fun other =>
          { other with claim := reboundClaim kind call other.claim })
  | noWork (cycleExhausted : Bool) (hunknown : Unknown s call.acquisitionId) :
      Acquired s call (.noWork false cycleExhausted)
        { s with acquisitions := s.acquisitions ++
            [⟨call.acquisitionId, noWorkDecision cycleExhausted,
              call.nowMs + kind.noWorkRetentionMs⟩] }
  | inserted {s' : Ledger} (claim : LeaseClaim) (task : T)
      (hclaim : claim.claimId = env.claimIdOf call.acquisitionId)
      (hacquisition : claim.acquisitionId = call.acquisitionId)
      (hinstance : claim.evaluatorInstance = call.evaluatorInstance)
      (hslot : claim.evaluatorSlot = call.evaluatorSlot)
      (hunknown : Unknown s call.acquisitionId) (hinsert : insertClaim s claim = .ok s') :
      Acquired s call (.claim claim task false) s'

variable {s s' : Ledger} {call : AcquireCall T} {outcome : LeaseAcquireOutcome T} {row : ClaimRow}

theorem acquired_rebindClaim (hrow : row ∈ s.claims) (hactive : row.active = true)
    (hheld : row.heldBy call.evaluatorInstance call.evaluatorSlot = true)
    (hid : row.claim.acquisitionId = call.acquisitionId ∨ Unknown s call.acquisitionId)
    (hgeneration : row.claim.registrationGeneration ≤ call.registrationGeneration)
    (hcall : rebindClaim kind s row call = .ok (outcome, s')) :
    Acquired kind env s call outcome s' := by
  unfold rebindClaim at hcall
  split at hcall
  · cases hcall
  next hany =>
  have hfree : ∀ other ∈ s.claims, other.claim.claimId ≠ row.claim.claimId →
      other.claim.acquisitionId ≠ call.acquisitionId := by
    intro other hother hne heq
    have := any_eq_false.mp (Bool.eq_false_iff.mpr hany) other hother
    simp [hne, heq] at this
  split at hcall
  · cases hcall
    exact .rebound row hrow hactive hheld hid hgeneration hfree (.inl rfl)
  · next task _ =>
      cases hcall
      exact .rebound row hrow hactive hheld hid hgeneration hfree (.inr ⟨task, rfl⟩)

theorem acquired_selectTask {authority : Int × Int} (hunknown : Unknown s call.acquisitionId)
    (hcall : selectTask kind env s authority call = .ok (outcome, s')) :
    Acquired kind env s call outcome s' := by
  unfold selectTask at hcall
  split at hcall
  · cases hcall
    exact .same rfl
  · unfold recordNoWork at hcall
    split at hcall
    · cases hcall
      exact .same rfl
    split at hcall
    · cases hcall
    · cases hcall
      exact .noWork _ hunknown
  · split at hcall
    · cases hcall
      exact .same rfl
    split at hcall
    · cases hcall
      exact .same rfl
    split at hcall
    · cases hcall
    · obtain ⟨next, hinsert, hanswer⟩ := map_eq_ok_iff.mp hcall
      cases hanswer
      exact .inserted _ _ rfl rfl rfl rfl hunknown hinsert

theorem unknown_of_find?
    (hclaims : (s.claims.find? fun row => row.claim.acquisitionId = call.acquisitionId) = none)
    (hacquisitions :
      (s.acquisitions.find? fun row => row.acquisitionId = call.acquisitionId) = none) :
    Unknown s call.acquisitionId := by
  constructor
  · intro row hrow
    simpa using find?_eq_none.mp hclaims row hrow
  · intro row hrow
    simpa using find?_eq_none.mp hacquisitions row hrow

theorem acquired_acquireTx (hcall : acquireTx kind env s call = .ok (outcome, s')) :
    Acquired kind env s call outcome s' := by
  unfold acquireTx at hcall
  split at hcall
  · next row hfound =>
      have hrow := mem_of_find?_eq_some hfound
      have hid : row.claim.acquisitionId = call.acquisitionId := by
        simpa using find?_some hfound
      unfold replayClaim at hcall
      split at hcall
      · cases hcall
        exact .same rfl
      next hterminal =>
      split at hcall
      · cases hcall
        exact .same rfl
      next hheld =>
      have hactive : row.active = true := by rw [ClaimRow.active, hterminal]; rfl
      rw [Bool.or_eq_true, not_or, Bool.not_eq_true', Bool.not_eq_false, decide_eq_true_eq,
        Int.not_lt] at hheld
      exact acquired_rebindClaim kind env hrow hactive hheld.1 (.inl hid) hheld.2 hcall
  next hclaims =>
  split at hcall
  · next row hfound =>
      cases hcall
      refine .same ?_
      unfold replayDecision
      split <;> rfl
  next hacquisitions =>
  have hunknown := unknown_of_find? hclaims hacquisitions
  split at hcall
  · cases hcall
    exact .same rfl
  split at hcall
  · next row hfound =>
      have hrow := mem_of_find?_eq_some hfound
      have hslot := find?_some hfound
      rw [Bool.and_eq_true] at hslot
      split at hcall
      · cases hcall
        exact .same rfl
      · next hgeneration =>
          exact acquired_rebindClaim kind env hrow hslot.1 hslot.2 (.inr hunknown)
            (Int.not_lt.mp hgeneration) hcall
  · exact acquired_selectTask kind env hunknown hcall

theorem sound_rebind (h : s.Wf) (hrow : row ∈ s.claims)
    (hgeneration : row.claim.registrationGeneration ≤ call.registrationGeneration)
    (hfree : ∀ other ∈ s.claims, other.claim.claimId ≠ row.claim.claimId →
      other.claim.acquisitionId ≠ call.acquisitionId) :
    s.Sound (fun other => other.claim.claimId = row.claim.claimId) fun other =>
      { other with claim := reboundClaim kind call other.claim } where
  evolves other hother hactive hselected := by
    obtain rfl := h.eq_of_claimId hother hrow (of_decide_eq_true hselected)
    exact Evolves.lease hactive _ _ _ hgeneration
  dated other hother _ _ := h.dated other hother
  acquisition a ha b hb hab := by
    unfold Ledger.updated
    split
    · next hselected =>
        have hidA := of_decide_eq_true (Bool.and_eq_true _ _ ▸ hselected).2
        have hidB : b.claim.claimId ≠ row.claim.claimId := fun hid => hab.2.1 (hidA.trans hid.symm)
        rw [if_neg (by simp [hidB])]
        exact (hfree b hb hidB).symm
    · next hunselected =>
        split
        · next hselected =>
            have hidB := of_decide_eq_true (Bool.and_eq_true _ _ ▸ hselected).2
            exact hfree a ha fun hid => hab.2.1 (hid.trans hidB.symm)
        · exact hab.2.2.1

theorem Acquired.moves (hacquired : Acquired kind env s call outcome s') (h : s.Wf) :
    Moves s s' := by
  cases hacquired with
  | same => exact .refl h
  | rebound row hrow _ _ _ hgeneration hfree =>
    exact .updateActive h (sound_rebind kind h hrow hgeneration hfree)
  | noWork => exact ⟨.of_claims rfl rfl, h.distinct, h.serial_lt, h.dated⟩
  | inserted _ _ _ _ _ _ _ hinsert => exact .insertClaim h hinsert

def AcquireCall.Accepted (call : AcquireCall T) : Prop :=
  validId call.acquisitionId = true ∧ validId call.evaluatorInstance = true ∧
    0 ≤ call.evaluatorSlot ∧ env.identity call.acquisitionId = true ∧
    env.identity call.evaluatorInstance = true

/-- A call is answered at once, or accepted and answered from the collected tables. -/
theorem acquireTaskLease_eq_ok (hcall : acquireTaskLease kind env s call = .ok (outcome, s')) :
    (answersOf call s outcome = [] ∧ s' = s) ∨
      call.Accepted env ∧ Acquired kind env (s.collect kind call.nowMs) call outcome s' := by
  unfold acquireTaskLease at hcall
  split at hcall
  · cases hcall
    exact .inl ⟨rfl, rfl⟩
  next hvalid =>
  split at hcall
  · cases hcall
  next hclean =>
  simp only [Bool.or_eq_true, Bool.not_eq_true', decide_eq_true_eq, not_or,
    Bool.not_eq_false, Int.not_lt] at hvalid hclean
  exact .inr ⟨⟨hvalid.1.1, hvalid.1.2, hvalid.2, hclean.1, hclean.2⟩,
    acquired_acquireTx kind env hcall⟩

theorem acquireTaskLease_moves (h : s.Wf)
    (hcall : acquireTaskLease kind env s call = .ok (outcome, s')) : Moves s s' := by
  rcases acquireTaskLease_eq_ok kind env hcall with ⟨-, rfl⟩ | ⟨-, hacquired⟩
  · exact .refl h
  · have hcollect := Moves.collect kind h call.nowMs
    exact hcollect.trans (hacquired.moves kind env hcollect.2)

/-! ## The other calls -/

theorem renewTaskLease_calm (h : s.Wf) (call : RenewCall) :
    Calm s (renewTaskLease kind s call).2 := by
  unfold renewTaskLease
  split
  · exact .refl h
  split
  · exact .refl h
  split
  · exact .refl h
  split
  · exact .markTerminal h _ _ _ _ _
  split
  · exact .refl h
  · refine .updateActive h ⟨?_, ?_, ?_⟩ fun _ => rfl
    · intro row _ hactive _
      exact Evolves.lease hactive _ row.claim.registrationGeneration row.claim.acquisitionId
        (Int.le_refl _)
    · intro row hrow _ _
      exact h.dated row hrow
    · intro a _ b _ hab
      unfold Ledger.updated
      split <;> split <;> exact hab.2.2.1

theorem completionFences_calm (h : s.Wf) {call : CompleteCall} {outcome : LeaseCompleteOutcome}
    (hcall : completionFences s call = .inl (outcome, s')) : Calm s s' := by
  unfold completionFences at hcall
  split at hcall
  · cases hcall
    exact .refl h
  split at hcall
  · cases hcall
    exact .refl h
  split at hcall
  · cases hcall
    exact .refl h
  split at hcall
  · cases hcall
    exact .refl h
  split at hcall
  · cases hcall
    exact .markTerminal h _ _ _ _ _
  split at hcall
  · cases hcall
    exact .markTerminal h _ _ _ _ _
  · cases hcall

theorem concludeBody_calm (h : s.Wf) {call : CompleteCall} {outcome : LeaseCompleteOutcome}
    (hcall : concludeBody env s row call = .ok (outcome, s')) : Calm s s' := by
  unfold concludeBody at hcall
  split at hcall
  · cases hcall
  · cases hcall
    exact .markTerminal h _ _ _ _ _
  · cases hcall
    exact .markTerminal h _ _ _ _ _
  · split at hcall
    · cases hcall
    · cases hcall
      exact .markTerminal h _ _ _ _ _

theorem abandonTaskLease_calm (h : s.Wf) (call : AbandonCall) :
    Calm s (abandonTaskLease s call).2 := by
  unfold abandonTaskLease
  split
  · exact .refl h
  split
  · exact .refl h
  split
  · exact .refl h
  · exact .markTerminal h _ _ _ _ _

end

end Eidnara.MemoryStore.TaskLease
