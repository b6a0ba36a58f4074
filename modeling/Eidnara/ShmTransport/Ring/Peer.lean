import Eidnara.ShmTransport.Ring.Ledger

/-!
# The producer against any peer

Every word the producer reads may have been written by the peer, so an operation may
answer anything.  What the ledger can become is said once for each function.
-/

namespace Eidnara.ShmTransport

open Lib List

abbrev Answer : Type := Σ op : Op, op.Resp

/-- A peer that answers as it likes; the answers are logged. -/
def anyPeer : Logic Op Op.Resp (List Answer) :=
  Logic.solo fun op log answer log' => log' = log ++ [⟨op, answer⟩]

section

variable {ρ ε α β : Type} {state : ρ} {log : List Answer} {post : α → ρ → List Answer → Prop}
  {failed : ε → ρ → List Answer → Prop}

theorem safe_pure_anyPeer {a : α} (h : post a state log) :
    (pure a : Act Op Op.Resp ρ ε α).Safe anyPeer state log post failed := by
  rintro _ rfl
  exact h

theorem safe_throw_anyPeer {e : ε} (h : failed e state log) :
    (Act.throw e : Act Op Op.Resp ρ ε α).Safe anyPeer state log post failed := by
  rintro _ rfl
  exact h

theorem safe_run_anyPeer {op : Op} {f : op.Resp → Act Op Op.Resp ρ ε α}
    (h : ∀ answer, (f answer).Safe anyPeer state (log ++ [⟨op, answer⟩]) post failed) :
    (op.run >>= f).Safe anyPeer state log post failed := by
  rintro _ rfl
  refine ⟨trivial, ?_⟩
  rintro answer _ rfl
  exact h answer

end

/-- Some published blocks were freed, each on a cell that held its generation. -/
inductive ProducerLedger.Frees (geometry : PoolGeometry) (log : List Answer) :
    ProducerLedger → ProducerLedger → Prop
  | refl (ledger : ProducerLedger) : Frees geometry log ledger ledger
  | step {ledger ledger₁ : ProducerLedger} {block : Nat} {blockClass : BlockClass} :
      Frees geometry log ledger ledger₁ → geometry.classOf block = some blockClass →
      ledger₁.states block = .published →
      ⟨.loadCell block, ledger₁.generations block⟩ ∈ log →
      Frees geometry log ledger (ledger₁.freeBlock geometry blockClass block)

namespace ProducerLedger.Frees

variable {geometry : PoolGeometry} {log log' : List Answer}
  {ledger ledger₁ ledger₂ : ProducerLedger}

theorem trans (h₁ : Frees geometry log ledger ledger₁) (h₂ : Frees geometry log ledger₁ ledger₂) :
    Frees geometry log ledger ledger₂ := by
  induction h₂ with
  | refl => exact h₁
  | step _ hclass hstate hcell ih => exact .step ih hclass hstate hcell

variable (h : Frees geometry log ledger ledger₁)

include h

theorem mono (hlog : log ⊆ log') : Frees geometry log' ledger ledger₁ := by
  induction h with
  | refl => exact .refl _
  | step _ hclass hstate hcell ih => exact .step ih hclass hstate (hlog hcell)

theorem generations_eq : ledger₁.generations = ledger.generations := by
  induction h with
  | refl => rfl
  | step _ _ _ _ ih => exact ih

theorem wf {reservedBlock : Option Nat} (hwf : ledger.Wf geometry reservedBlock) :
    ledger₁.Wf geometry reservedBlock := by
  induction h with
  | refl => exact hwf
  | step _ hclass hstate _ ih => exact ih.freeBlock hclass hstate

theorem states_eq (block : Nat) :
    ledger₁.states block = ledger.states block ∨
      ledger.states block = .published ∧ ledger₁.states block = .free ∧
        ⟨.loadCell block, ledger.generations block⟩ ∈ log := by
  induction h with
  | refl => exact .inl rfl
  | @step ledger₁ other _ hfrees _ hstate hcell ih =>
    rw [hfrees.generations_eq] at hcell
    simp only [freeBlock]
    by_cases hblock : block = other
    · subst hblock
      rw [Function.update_self]
      rcases ih with ih | ⟨hpublished, -, -⟩
      · exact .inr ⟨ih ▸ hstate, rfl, hcell⟩
      · exact .inr ⟨hpublished, rfl, hcell⟩
    · rwa [Function.update_of_ne hblock]

theorem mem_reclaimed {reservedBlock : Option Nat} (hwf : ledger.Wf geometry reservedBlock)
    (block : Nat) :
    block ∈ ledger₁.reclaimed ↔ block ∈ ledger.reclaimed ∨
      (block < geometry.blockCount ∧ ledger.states block = .published ∧
        ledger₁.states block ≠ .published) := by
  induction h with
  | refl => simp
  | @step ledger₁ other _ hfrees hclass hstate hcell ih =>
    have hlt := geometry.lt_of_classOf hclass
    have hroom := (hfrees.wf hwf).reclaimed_length_lt hlt (by simp [hstate])
    have hother := hfrees.states_eq other
    simp only [freeBlock, hroom, if_true, mem_append, mem_singleton, ih]
    by_cases hblock : block = other
    · subst hblock
      have hpublished : ledger.states block = .published := by
        rcases hother with heq | ⟨heq, -, -⟩
        · exact heq ▸ hstate
        · exact heq
      simp [hlt, hpublished]
    · simp [hblock]

end ProducerLedger.Frees

/-! ## Actions and what they leave of the ledger -/

/-- A relation between a handle and the log before and after, indifferent to everything
but the ledger and the reserved block. -/
class Framed (R : Ring → List Answer → Ring → List Answer → Prop) : Prop where
  of_same : ∀ {ring log ring' log'}, ring'.ledger = ring.ledger →
    ring'.reservedBlock = ring.reservedBlock → log <+: log' → R ring log ring' log'
  trans : ∀ {ring log ring₁ log₁ ring₂ log₂}, R ring log ring₁ log₁ → R ring₁ log₁ ring₂ log₂ →
    R ring log ring₂ log₂

/-- A relation indifferent to everything but these two and the sequence counter. -/
class Carried (R : Ring → List Answer → Ring → List Answer → Prop) : Prop where
  of_same : ∀ {ring log ring' log'}, ring'.ledger = ring.ledger →
    ring'.reservedBlock = ring.reservedBlock → ring'.publishedLocal = ring.publishedLocal →
    log <+: log' → R ring log ring' log'
  trans : ∀ {ring log ring₁ log₁ ring₂ log₂}, R ring log ring₁ log₁ → R ring₁ log₁ ring₂ log₂ →
    R ring log ring₂ log₂

instance {R : Ring → List Answer → Ring → List Answer → Prop} [Framed R] : Carried R where
  of_same hledger hreserved _ := Framed.of_same hledger hreserved
  trans := Framed.trans

/-- However the action ends, the relation holds between its start and its end. -/
def Within {ε α : Type} (R : Ring → List Answer → Ring → List Answer → Prop)
    (p : RingAct ε α) : Prop :=
  ∀ ring log, p.Safe anyPeer ring log (fun _ => R ring log) (fun _ => R ring log)

section

variable {ε ε' α β : Type} {R : Ring → List Answer → Ring → List Answer → Prop}
  {p : RingAct ε α}

theorem within_ignore (hp : Within R p) : Within R (p.ignore : RingAct ε' Unit) := by
  intro ring log
  rw [Act.safe_ignore]
  exact hp ring log

theorem within_outcome (hp : Within R p) : Within R (p.outcome : RingAct ε' (Except ε α)) := by
  intro ring log
  rw [Act.safe_outcome]
  exact hp ring log

variable [Carried R]

theorem Carried.refl (ring : Ring) (log : List Answer) : R ring log ring log :=
  Carried.of_same rfl rfl rfl (prefix_refl log)

theorem within_pure (a : α) : Within R (pure a : RingAct ε α) := by
  rintro ring log _ rfl
  exact Carried.refl ring log

theorem within_throw (e : ε) : Within R (Act.throw e : RingAct ε α) := by
  rintro ring log _ rfl
  exact Carried.refl ring log

theorem within_get : Within R (Act.get : RingAct ε Ring) := by
  rintro ring log _ rfl
  exact Carried.refl ring log

theorem within_run (op : Op) : Within R (op.run : RingAct ε op.Resp) := by
  rintro ring log _ rfl
  refine ⟨trivial, ?_⟩
  rintro answer _ rfl _ rfl
  exact Carried.of_same rfl rfl rfl (prefix_append _ _)

theorem within_lift (x : Except ε α) : Within R (Act.lift x : RingAct ε α) := by
  cases x with
  | error e => exact within_throw e
  | ok a => exact within_pure a

theorem within_modify {f : Ring → Ring}
    (hledger : ∀ ring, (f ring).ledger = ring.ledger)
    (hreserved : ∀ ring, (f ring).reservedBlock = ring.reservedBlock)
    (hpublished : ∀ ring, (f ring).publishedLocal = ring.publishedLocal) :
    Within R (Act.modify f : RingAct ε Unit) := by
  rintro ring log _ rfl
  exact Carried.of_same (hledger ring) (hreserved ring) (hpublished ring) (prefix_refl log)

theorem Within.after (h : Within R p) {ring ring₁ : Ring} {log log₁ : List Answer}
    (hbefore : R ring log ring₁ log₁) :
    p.Safe anyPeer ring₁ log₁ (fun _ => R ring log) (fun _ => R ring log) :=
  (h ring₁ log₁).mono (fun _ _ _ => Carried.trans hbefore) (fun _ _ _ => Carried.trans hbefore)

theorem within_bind {f : α → RingAct ε β} (hp : Within R p)
    (hf : ∀ a, Within R (f a)) : Within R (p >>= f) := by
  intro ring log
  rw [Act.safe_bind]
  exact (hp ring log).mono (fun a _ _ h => (hf a).after h) (fun _ _ _ h => h)

theorem within_catchWith {handler : ε → RingAct ε' α} (hp : Within R p)
    (hhandler : ∀ e, Within R (handler e)) : Within R (p.catchWith handler) := by
  intro ring log
  rw [Act.safe_catchWith]
  exact (hp ring log).mono (fun _ _ _ h => h) (fun e _ _ h => (hhandler e).after h)

theorem within_mapError (f : ε → ε') (hp : Within R p) : Within R (p.mapError f) :=
  within_catchWith hp fun e => within_throw (f e)

end

/-! ## Signals and quarantine leave the ledger alone -/

namespace Ring

variable {ε α : Type} (retained : Retained) {R : Ring → List Answer → Ring → List Answer → Prop}
  [Carried R]

theorem within_page (access : Except MappingError α) :
    Within R (page access : RingAct RingError α) :=
  within_lift _

theorem within_signal (wake : Wake) :
    Within R (Doorbell.signal wake : RingAct RingError Unit) := by
  refine within_bind (within_run _) fun sent => ?_
  split
  · exact within_pure ()
  · exact within_throw _

theorem within_signalDataWake :
    Within R (signalDataWake retained : RingAct RingError Unit) := by
  refine within_bind (within_page _) fun _ => ?_
  refine within_bind (within_run _) fun _ => ?_
  refine within_bind (within_run _) fun parked => ?_
  split
  · exact within_signal _
  · exact within_pure ()

theorem within_signalCapacity :
    Within R (retained.signalCapacity : RingAct WakeError Unit) := by
  unfold Retained.signalCapacity
  split
  · exact within_throw _
  · refine within_bind (within_run _) fun _ => ?_
    refine within_bind (within_run _) fun parked => ?_
    split
    · exact within_pure ()
    · refine within_bind (within_run _) fun sent => ?_
      split
      · exact within_pure ()
      · exact within_throw _

theorem within_latch :
    Within R (Act.modify (fun ring : Ring => { ring with quarantined := true }) :
      RingAct ε Unit) :=
  within_modify (fun _ => rfl) (fun _ => rfl) fun _ => rfl

theorem enterQuarantine_anyPeer (ring : Ring) (log : List Answer)
    (failed : ε → Ring → List Answer → Prop) :
    (enterQuarantine retained : RingAct ε Unit).Safe anyPeer ring log (fun _ => R ring log)
      failed := by
  rw [enterQuarantine, Act.safe_modify_bind]
  have hlatch : R ring log { ring with quarantined := true } log :=
    Carried.of_same rfl rfl rfl (prefix_refl log)
  have hsignals : ∀ ring₁ log₁, R ring log ring₁ log₁ →
      (((signalDataWake retained).ignore >>= fun _ => retained.signalCapacity.ignore) :
        RingAct ε Unit).Safe anyPeer ring₁ log₁ (fun _ => R ring log) failed := by
    intro ring₁ log₁ h₁
    rw [Act.safe_bind, Act.safe_ignore]
    have hcapacity : ∀ ring₂ log₂, R ring₁ log₁ ring₂ log₂ →
        (retained.signalCapacity.ignore : RingAct ε Unit).Safe anyPeer ring₂ log₂
          (fun _ => R ring log) failed := by
      intro ring₂ log₂ h₂
      rw [Act.safe_ignore]
      exact (within_signalCapacity retained).after (Carried.trans h₁ h₂)
    exact (within_signalDataWake retained ring₁ log₁).mono (fun _ => hcapacity)
      (fun _ => hcapacity)
  unfold raiseFlag
  split
  · refine safe_run_anyPeer fun _ => hsignals _ _ ?_
    exact Carried.trans hlatch (Carried.of_same rfl rfl rfl (prefix_append _ _))
  · exact hsignals _ _ hlatch

theorem within_isQuarantined :
    Within R (isQuarantined retained : RingAct ε Bool) := by
  refine within_bind within_get fun ring => ?_
  split
  · exact within_pure true
  · split
    · refine within_bind (within_run _) fun flag => ?_
      split
      · exact within_bind within_latch fun _ => within_pure true
      · exact within_pure false
    · exact within_bind within_latch fun _ => within_pure true

theorem quarantineWith_anyPeer (error : RingError) (ring : Ring) (log : List Answer)
    (post : α → Ring → List Answer → Prop) :
    (quarantineWith retained error : RingAct RingError α).Safe anyPeer ring log post
      (fun e ring' log' => e = error ∧ R ring log ring' log') := by
  rw [quarantineWith, Act.safe_bind]
  refine (enterQuarantine_anyPeer (R := R) retained ring log _).mono ?_ (fun _ _ _ h => h)
  intro _ ring₁ log₁ h₁
  exact safe_throw_anyPeer ⟨rfl, h₁⟩

theorem within_quarantineWith (error : RingError) :
    Within R (quarantineWith retained error : RingAct RingError α) := fun ring log =>
  (quarantineWith_anyPeer retained error ring log _).mono (fun _ _ _ h => h) (fun _ _ _ h => h.2)

theorem within_orQuarantine {p : RingAct RingError α} (hp : Within R p) :
    Within R (orQuarantine retained p) :=
  within_catchWith hp fun error => within_quarantineWith retained error

theorem within_descriptorsOutstanding :
    Within R (descriptorsOutstanding retained) := by
  refine within_bind (within_page _) fun _ => ?_
  refine within_bind (within_run _) fun consumed => ?_
  refine within_bind within_get fun ring => ?_
  split
  · exact within_throw _
  · exact within_bind (within_modify (fun _ => rfl) (fun _ => rfl) fun _ => rfl)
      fun _ => within_pure _

variable {retained} (hblock : ∀ block, Within R (reclaimBlock retained block true))

include hblock

theorem within_reclaimFlagged (word : Nat) (bits : List Nat) :
    Within R (reclaimFlagged retained word bits) := by
  induction bits with
  | nil => exact within_pure ()
  | cons bit bits ih =>
    exact within_bind (within_orQuarantine retained (hblock _)) fun _ => ih

theorem within_reclaimWords (words : List Nat) : Within R (reclaimWords retained words) := by
  induction words with
  | nil => exact within_pure ()
  | cons word words ih =>
    refine within_bind (within_page _) fun _ => ?_
    refine within_bind (within_run _) fun flagged => ?_
    exact within_bind (within_reclaimFlagged hblock word _) fun _ => ih

end Ring

/-! ## Relations -/

/-- The ledger and the reserved block are as they were. -/
structure Untouched (ring : Ring) (log : List Answer) (ring' : Ring) (log' : List Answer) :
    Prop where
  ledger_eq : ring'.ledger = ring.ledger
  reserved_eq : ring'.reservedBlock = ring.reservedBlock
  log_le : log <+: log'

instance framed_untouched : Framed Untouched where
  of_same hledger hreserved hlog := ⟨hledger, hreserved, hlog⟩
  trans h₁ h₂ :=
    ⟨h₂.ledger_eq.trans h₁.ledger_eq, h₂.reserved_eq.trans h₁.reserved_eq,
      h₁.log_le.trans h₂.log_le⟩

/-- Nothing happened to the ledger but returns taken in. -/
structure Reclaims (geometry : PoolGeometry) (ring : Ring) (log : List Answer) (ring' : Ring)
    (log' : List Answer) : Prop where
  frees : ProducerLedger.Frees geometry log' ring.ledger ring'.ledger
  reserved_eq : ring'.reservedBlock = ring.reservedBlock
  log_le : log <+: log'

instance framed_reclaims (geometry : PoolGeometry) : Framed (Reclaims geometry) where
  of_same hledger hreserved hlog := ⟨hledger ▸ .refl _, hreserved, hlog⟩
  trans h₁ h₂ :=
    ⟨(h₁.frees.mono h₂.log_le.subset).trans h₂.frees, h₂.reserved_eq.trans h₁.reserved_eq,
      h₁.log_le.trans h₂.log_le⟩

namespace Ring

variable {ε α : Type} (retained : Retained)

/-! ## Reclamation -/

theorem settleCompletion_safe {block freed : Nat} {ring : Ring} {log : List Answer}
    (hfreed : freed = block) (hcell : ⟨.loadCell block, ring.ledger.generations block⟩ ∈ log) :
    (settleCompletion retained block freed).Safe anyPeer ring log
      (fun _ => Reclaims retained.geometry ring log)
      (fun _ => Reclaims retained.geometry ring log) := by
  subst hfreed
  rw [settleCompletion, Act.safe_get_bind]
  split
  · rename_i hstate
    split
    · exact within_throw _ ring log
    · rename_i placement hplacement
      rintro _ rfl
      have hclass : retained.geometry.classOf freed = some placement.blockClass := by
        rw [PoolGeometry.classOf, hplacement, Option.map_some]
      exact ⟨.step (.refl _) hclass hstate hcell, rfl, prefix_refl log⟩
  · exact within_pure () ring log

theorem within_reclaimBlock (block : Nat) (flagged : Bool) :
    Within (Reclaims retained.geometry) (reclaimBlock retained block flagged) := by
  intro ring log
  rw [reclaimBlock, Act.safe_get_bind]
  split
  · rename_i hlt
    rw [retained.completionCell_ok hlt, page_ok, Act.pure_bind]
    refine safe_run_anyPeer fun completed => ?_
    have hbefore : Reclaims retained.geometry ring log ring
        (log ++ [⟨.loadCell block, completed⟩]) :=
      Framed.of_same rfl rfl (prefix_append _ _)
    split
    · exact (within_pure ()).after hbefore
    · split
      · rename_i freed haccepted
        obtain ⟨hfreed, -, hgeneration, -⟩ := CompletionRecord.validate_ok haccepted
        have hsettle := @settleCompletion_safe retained block _ ring
          (log ++ [⟨.loadCell block, completed⟩]) hfreed (by simp [hgeneration])
        exact hsettle.mono (fun _ _ _ => Framed.trans hbefore) (fun _ _ _ => Framed.trans hbefore)
      · exact (within_pure ()).after hbefore
      · exact (within_throw _).after hbefore
  · exact within_throw _ ring log

theorem within_reclaimCompletions :
    Within (Reclaims retained.geometry) (reclaimCompletions retained) :=
  within_reclaimWords (fun block => within_reclaimBlock retained block true) _

theorem within_reclaimFrom (turns index : Nat) :
    Within (Reclaims retained.geometry) (reclaimFrom retained turns index) := by
  induction turns generalizing index with
  | zero => exact within_pure ()
  | succ turns ih =>
    refine within_bind within_get fun ring => ?_
    split
    · exact within_pure ()
    · refine within_bind
        (within_orQuarantine retained (within_reclaimBlock retained _ false))
        fun _ => ?_
      refine within_bind within_get fun after => ?_
      split
      · exact ih (index + 1)
      · exact ih index

/-! ## Reports -/

theorem within_refresh :
    Within (Reclaims retained.geometry) (refresh retained : RingAct ε Unit) := by
  refine within_bind within_get fun ring => ?_
  split
  · refine within_bind (within_isQuarantined retained) fun quarantined => ?_
    split
    · exact within_pure ()
    · exact within_ignore (within_reclaimCompletions retained)
  · exact within_pure ()

theorem within_inventory :
    Within (Reclaims retained.geometry) (inventory retained : RingAct ε PoolInventory) := by
  refine within_bind (within_refresh retained) fun _ => ?_
  refine within_bind (within_isQuarantined retained) fun _ => ?_
  refine within_bind within_get fun _ => ?_
  refine within_bind ?_ fun _ => within_pure _
  unfold consumedOrZero
  split
  · exact within_run _
  · exact within_pure 0

theorem within_probe : Within (Reclaims retained.geometry) (probe retained) := by
  refine within_bind (within_isQuarantined retained) fun quarantined => ?_
  split
  · exact within_throw _
  · refine within_bind (within_page _) fun _ => ?_
    refine within_bind (within_run _) fun published => ?_
    refine within_bind (within_page _) fun _ => ?_
    refine within_bind (within_run _) fun consumed => ?_
    refine within_bind within_get fun ring => ?_
    split
    · split
      · exact within_bind within_get fun _ => within_reclaimFrom retained _ 0
      · exact within_pure ()
    · exact within_quarantineWith retained _

theorem within_drainReturns : Within (Reclaims retained.geometry) (drainReturns retained) := by
  refine within_bind within_get fun ring => ?_
  split
  · refine within_bind (within_isQuarantined retained) fun quarantined => ?_
    split
    · exact within_pure ()
    · exact within_reclaimCompletions retained
  · exact within_pure ()

/-! ## Reservation -/

theorem admitReservation_safe (bound : Nat) (ring : Ring) (log : List Answer) :
    (admitReservation retained bound).Safe anyPeer ring log
      (fun _ ring₁ log₁ => Reclaims retained.geometry ring log ring₁ log₁ ∧
        ring₁.reservedBlock = none)
      (fun _ => Reclaims retained.geometry ring log) := by
  unfold admitReservation
  split
  · exact safe_throw_anyPeer (Carried.refl ring log)
  · rw [Act.safe_bind]
    refine (within_isQuarantined retained ring log).mono ?_ (fun _ _ _ h => h)
    intro quarantined ring₁ log₁ h₁
    rw [Act.safe_get_bind]
    split
    · exact safe_throw_anyPeer h₁
    · split
      · exact safe_throw_anyPeer h₁
      · rename_i hnone
        split
        · exact safe_throw_anyPeer h₁
        · split
          · exact safe_throw_anyPeer h₁
          · rw [Act.safe_mapError]
            refine (within_reclaimCompletions retained ring₁ log₁).mono ?_ ?_
            · intro _ ring₂ log₂ h₂
              refine ⟨Framed.trans h₁ h₂, ?_⟩
              rw [h₂.reserved_eq]
              simpa using hnone
            · rintro _ ring₂ log₂ h₂ _ rfl
              exact Framed.trans h₁ h₂

end Ring

/-- A reservation was made of the block at the top of a free list. -/
structure Takes (ring : Ring) (reservation : ProducerReservation) (ring' : Ring) : Prop where
  popped : ∃ blockClass rest,
    Vec.pop (ring.ledger.free blockClass) = some (rest, reservation.block) ∧
    ring'.ledger =
      { ring.ledger.takeFree blockClass rest reservation.block with
        generations :=
          Function.update ring.ledger.generations reservation.block reservation.generation
        states := Function.update ring.ledger.states reservation.block .reserved }
  generation_eq : reservation.generation = ring.ledger.generations reservation.block + 1
  reserved_eq : ring'.reservedBlock = some reservation.block
  finished_eq : reservation.finished = false

/-- What stands in the way of a new generation of a block: there is none left, or the
cell answered one at least as new. -/
def Blocked (ring : Ring) (block : Nat) (log : List Answer) : Prop :=
  u64Max ≤ ring.ledger.generations block ∨
    ∃ completed : Nat, ring.ledger.generations block < completed ∧
      ⟨.loadCell block, completed⟩ ∈ log

/-- No reservation was made.  The lists are as they were, but the unsettled return of a
block of the wanted class that was taken and put back is gone. -/
inductive Refuses (wanted : Option BlockClass) (ring : Ring) (log : List Answer) (ring' : Ring) :
    Prop
  | kept (hledger : ∃ retired, ring'.ledger = { ring.ledger with retired })
      (hreserved : ring'.reservedBlock = ring.reservedBlock)
  | lost {blockClass : BlockClass} {rest : List Nat} {block : Nat}
      (hwanted : wanted = some blockClass)
      (hpop : Vec.pop (ring.ledger.free blockClass) = some (rest, block))
      (hblocked : Blocked ring block log)
      (hledger : ∃ retired, ring'.ledger =
        { ring.ledger with reclaimed := Vec.removeValue ring.ledger.reclaimed block, retired })
      (hreserved : ring'.reservedBlock = ring.reservedBlock)

section

variable {ring ring₁ ring' : Ring} {log log₁ : List Answer} {reservation : ProducerReservation}

theorem Takes.of_untouched (h : Takes ring₁ reservation ring')
    (hsame : Untouched ring log ring₁ log₁) : Takes ring reservation ring' where
  popped := hsame.ledger_eq ▸ h.popped
  generation_eq := hsame.ledger_eq ▸ h.generation_eq
  reserved_eq := h.reserved_eq
  finished_eq := h.finished_eq

theorem Refuses.of_untouched {wanted : Option BlockClass} {log₂ : List Answer}
    (h : Refuses wanted ring₁ log₂ ring')
    (hsame : Untouched ring log ring₁ log₁) :
    ∃ log₃, log₁ ++ log₂ = log ++ log₃ ∧ Refuses wanted ring log₃ ring' := by
  obtain ⟨log₀, rfl⟩ := hsame.log_le
  refine ⟨log₀ ++ log₂, by simp, ?_⟩
  cases h with
  | kept hledger hreserved =>
    exact .kept (hsame.ledger_eq ▸ hledger) (hreserved.trans hsame.reserved_eq)
  | lost hwanted hpop hblocked hledger hreserved =>
    rw [hsame.ledger_eq] at hpop hledger
    refine .lost hwanted hpop ?_ hledger (hreserved.trans hsame.reserved_eq)
    rcases hblocked with hmax | ⟨completed, hahead, hmem⟩
    · exact .inl (hsame.ledger_eq ▸ hmax)
    · exact .inr ⟨completed, hsame.ledger_eq ▸ hahead, mem_append_right log₀ hmem⟩

end

namespace Ring

variable (retained : Retained)

variable {ring : Ring}

theorem reserveBlock_safe {blockClass : BlockClass} {rest : List Nat} {block : Nat} (bound : Nat)
    (wireHeader : WireHeader) {log : List Answer}
    (hpop : Vec.pop (ring.ledger.free blockClass) = some (rest, block))
    (hlt : block < retained.geometry.blockCount) :
    (reserveBlock retained blockClass block bound wireHeader).Safe anyPeer
      { ring with ledger := ring.ledger.takeFree blockClass rest block } log
      (fun reservation ring' log' => log <+: log' ∧ Takes ring reservation ring')
      (fun _ ring' log' => ∃ log₁, log' = log ++ log₁ ∧
        Refuses (some blockClass) ring log₁ ring') := by
  have hback := ProducerLedger.pushFree_takeFree hpop
  rw [reserveBlock, Act.safe_get_bind]
  rcases checkedAdd_cases 64 (ring.ledger.generations block) 1 with ⟨hsome, hfits⟩ | ⟨hnone, hmax⟩
  · rw [show checkedAdd 64 ((ring.ledger.takeFree blockClass rest block).generations block) 1 =
      some (ring.ledger.generations block + 1) from hsome]
    simp only [retained.completionCell_ok hlt, page_ok]
    refine safe_run_anyPeer fun completed => ?_
    split
    · rename_i hahead
      rw [Act.safe_modify_bind, Act.safe_mapError]
      refine (quarantineWith_anyPeer (R := Untouched) retained _ _ _ _).mono (fun _ _ _ h => h) ?_
      rintro _ ring' log' ⟨-, hsame⟩ _ rfl
      obtain ⟨log₁, rfl⟩ := hsame.log_le
      refine ⟨⟨.loadCell block, completed⟩ :: log₁, by simp, ?_⟩
      refine .lost rfl hpop (.inr ⟨completed, hahead, mem_cons_self⟩)
        ⟨ring.ledger.retired, ?_⟩ hsame.reserved_eq
      rw [hsame.ledger_eq]
      exact hback
    · exact safe_pure_anyPeer
        ⟨prefix_append _ _, ⟨blockClass, rest, hpop, rfl⟩, rfl, rfl, rfl⟩
  · rw [show checkedAdd 64 ((ring.ledger.takeFree blockClass rest block).generations block) 1 =
      none from hnone]
    refine safe_throw_anyPeer ⟨[], by simp, ?_⟩
    refine .lost rfl hpop (.inl ?_) ⟨true, ?_⟩ rfl
    · rw [u64Max]
      omega
    · simp only [hback]

theorem takeBlock_safe (blockClass : BlockClass) (bound : Nat) (wireHeader : WireHeader)
    (log : List Answer) (hwf : ring.ledger.Wf retained.geometry ring.reservedBlock) :
    (takeBlock retained blockClass bound wireHeader).Safe anyPeer ring log
      (fun reservation ring' log' => log <+: log' ∧ Takes ring reservation ring')
      (fun _ ring' log' => ∃ log₁, log' = log ++ log₁ ∧
        Refuses (some blockClass) ring log₁ ring') := by
  rw [takeBlock, Act.safe_get_bind]
  split
  · exact safe_throw_anyPeer ⟨[], by simp, .kept ⟨ring.ledger.retired, rfl⟩ rfl⟩
  · rename_i rest block hpop
    exact reserveBlock_safe retained bound wireHeader hpop
      (retained.geometry.lt_of_classOf (hwf.of_pop hpop).1)

theorem reserveReclaimed_safe (inventory : Inventory) (bound : Nat) (wireHeader : WireHeader)
    (log : List Answer) (hwf : ring.ledger.Wf retained.geometry ring.reservedBlock) :
    (reserveReclaimed retained inventory bound wireHeader).Safe anyPeer ring log
      (fun reservation ring' log' => log <+: log' ∧ Takes ring reservation ring')
      (fun _ ring' log' => ∃ log₁, log' = log ++ log₁ ∧
        Refuses (retained.geometry.classFor inventory bound) ring log₁ ring') := by
  have hkept : ∀ {ring' log' r}, ring'.ledger = { ring.ledger with retired := r } →
      ring'.reservedBlock = ring.reservedBlock → log <+: log' →
      ∃ log₁, log' = log ++ log₁ ∧
        Refuses (retained.geometry.classFor inventory bound) ring log₁ ring' := by
    rintro ring' log' retired hledger hreserved ⟨log₁, rfl⟩
    exact ⟨log₁, rfl, .kept ⟨retired, hledger⟩ hreserved⟩
  unfold reserveReclaimed
  split
  · exact safe_throw_anyPeer (hkept rfl rfl (prefix_refl log))
  · rename_i blockClass hclass
    rw [Act.safe_bind, Act.safe_mapError]
    refine (within_orQuarantine (R := Untouched) retained
      (within_descriptorsOutstanding retained) ring log).mono ?_ ?_
    · intro outstanding ring₁ log₁ hsame
      split
      · exact safe_throw_anyPeer (hkept hsame.ledger_eq hsame.reserved_eq hsame.log_le)
      · rw [Act.safe_get_bind]
        split
        · refine safe_throw_anyPeer (hkept (r := true) ?_ hsame.reserved_eq hsame.log_le)
          simp only [hsame.ledger_eq]
        · have hwf₁ : ring₁.ledger.Wf retained.geometry ring₁.reservedBlock := by
            rw [hsame.ledger_eq, hsame.reserved_eq]
            exact hwf
          refine (takeBlock_safe retained blockClass bound wireHeader log₁ hwf₁).mono
            (fun _ _ _ h => ⟨hsame.log_le.trans h.1, h.2.of_untouched hsame⟩) ?_
          rintro _ ring' _ ⟨log₂, rfl, hrefuses⟩
          rw [hclass]
          exact hrefuses.of_untouched hsame
    · rintro _ ring₁ log₁ hsame _ rfl
      exact hkept hsame.ledger_eq hsame.reserved_eq hsame.log_le

end Ring

end Eidnara.ShmTransport
