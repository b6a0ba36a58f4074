import Eidnara.ShmTransport.Ring.Handle
import Eidnara.ShmTransport.Ring.Waiting

/-!
# The capacity recheck

`reservation_exhausted` repeats the refusals of `try_reserve_in` to decide whether a
producer may park.  On one state of the handle and of the mapping the two agree: the
recheck answers `true` exactly when the reservation would be refused as exhausted.
The recheck leaves out two refusals, that of a body over the frame limit and that of
the last sequence number; where they apply it can answer `true` and the agreement ends.
-/

namespace Eidnara.ShmTransport

open Lib

/-- The mapping, the doorbells and the clock as one state that answers operations.
Looking at the quarantine flag changes nothing. -/
structure SharedState (σ : Type) where
  answer : (op : Op) → σ → op.Resp × σ
  loadFlag_keeps : ∀ s, (answer .loadFlag s).2 = s

namespace Ring

variable {σ ε α : Type} (retained : Retained) (shared : SharedState σ)

def Live (ring : Ring) (s : σ) : Prop :=
  ring.quarantined = false ∧ (shared.answer .loadFlag s).1 = (0 : Nat)

/-! ## The sequence counter -/

def SamePublished (ring : Ring) (_ : List Answer) (ring' : Ring) (_ : List Answer) : Prop :=
  ring'.publishedLocal = ring.publishedLocal

instance carried_samePublished : Carried SamePublished where
  of_same _ _ hpublished _ := hpublished
  trans h₁ h₂ := Eq.trans h₂ h₁

theorem samePublished_reclaimBlock (block : Nat) (flagged : Bool) :
    Within SamePublished (reclaimBlock retained block flagged) := by
  refine within_bind within_get fun ring => ?_
  split
  · refine within_bind (within_page _) fun _ => ?_
    refine within_bind (within_run _) fun completed => ?_
    split
    · exact within_pure ()
    · split
      · refine within_bind within_get fun ring => ?_
        split
        · split
          · exact within_throw _
          · rintro ring log _ rfl
            exact rfl
        · exact within_pure ()
      · exact within_pure ()
      · exact within_throw _
  · exact within_throw _

theorem samePublished_reclaimCompletions : Within SamePublished (reclaimCompletions retained) :=
  within_reclaimWords (fun block => samePublished_reclaimBlock retained block true) _

theorem samePublished_reservationExhausted (inventory : Inventory) (bound : Nat) :
    Within SamePublished (reservationExhausted retained inventory bound) := by
  refine within_bind within_get fun ring => ?_
  split
  · exact within_pure false
  · split
    · exact within_pure false
    · refine within_bind (samePublished_reclaimCompletions retained) fun _ => ?_
      split
      · exact within_pure false
      · refine within_bind (within_orQuarantine retained (within_descriptorsOutstanding retained))
          fun outstanding => ?_
        split
        · exact within_pure true
        · exact within_bind within_get fun _ => within_pure _

theorem samePublished_armedCapacityWaitHolds (generation : Nat) (inventory : Inventory)
    (bound : Nat) :
    Within SamePublished (armedCapacityWaitHolds retained generation inventory bound) := by
  refine within_bind (within_isQuarantined retained) fun quarantined => ?_
  split
  · exact within_throw _
  · refine within_bind (samePublished_reservationExhausted retained inventory bound)
      fun exhausted => ?_
    split
    · exact within_bind (within_run _) fun _ => within_pure _
    · exact within_pure false

theorem samePublished_drain (wake : Wake) :
    Within SamePublished (Doorbell.drain wake : RingAct RingError Unit) := by
  refine within_bind (within_run _) fun drained => ?_
  split
  · exact within_pure ()
  · exact within_throw _

theorem samePublished_arm (wake : Wake) :
    Within SamePublished (ParkGuard.arm wake : RingAct ε Nat) :=
  within_bind (within_run _) fun _ => within_bind (within_run _) fun _ => within_pure _

/-- The shared state answers as some peer does. -/
theorem publishedLocal_of_eval {p : RingAct ε α} (h : Within SamePublished p) {ring ring' : Ring}
    {s s' : σ} {result : Except ε α}
    (hrun : p.eval shared.answer ring s = (result, ring', s')) :
    ring'.publishedLocal = ring.publishedLocal := by
  obtain ⟨log, hafter⟩ := Prog.Safe.eval_logged (h ring []) shared.answer s
  rw [Act.eval] at hrun
  generalize (p ring).eval shared.answer s = ended at hafter hrun
  obtain ⟨⟨e | a, ring₁⟩, s₁⟩ := ended <;> cases hrun <;> exact hafter

/-! ## Agreement -/

variable {retained shared}

variable {ring : Ring} {s : σ}

theorem eval_isQuarantined_of_live (h : Live shared ring s) :
    (isQuarantined retained : RingAct ε Bool).eval shared.answer ring s = (.ok false, ring, s) := by
  obtain ⟨hring, hflag⟩ := h
  rw [isQuarantined, Act.eval_get_bind, if_neg (by simp [hring]),
    retained.lifecycleQuarantined_ok]
  rw [Op.run, Act.eval_call_bind, if_neg (by simp [hflag]), shared.loadFlag_keeps]
  rfl

variable {ring' : Ring} {s' : σ}

theorem live_of_eval_isQuarantined
    (h : (isQuarantined retained : RingAct ε Bool).eval shared.answer ring s =
      (.ok false, ring', s')) :
    Live shared ring s ∧ ring' = ring ∧ s' = s := by
  have hlive : Live shared ring s := by
    by_contra hdead
    rw [isQuarantined, Act.eval_get_bind] at h
    by_cases hring : ring.quarantined = true
    · rw [if_pos hring, Act.eval_pure] at h
      cases h
    · rw [if_neg hring, retained.lifecycleQuarantined_ok] at h
      have hflag : (shared.answer .loadFlag s).1 ≠ (0 : Nat) :=
        fun hzero => hdead ⟨Bool.not_eq_true _ ▸ hring, hzero⟩
      rw [Op.run, Act.eval_call_bind, if_pos hflag, Act.eval_modify_bind, Act.eval_pure] at h
      cases h
  rw [eval_isQuarantined_of_live hlive] at h
  obtain ⟨-, hring, hs⟩ := by simpa only [Prod.mk.injEq] using h
  exact ⟨hlive, hring.symm, hs.symm⟩

theorem mapError_bind_not_exhausted {p : RingAct RingError α}
    {f : α → RingAct ProducerError ProducerReservation}
    (hf : ∀ a ring s, ((f a).eval shared.answer ring s).1 ≠ .error .exhausted) (ring : Ring)
    (s : σ) :
    ((p.mapError ProducerError.ring >>= f).eval shared.answer ring s).1 ≠ .error .exhausted := by
  rw [Act.eval_bind, Act.eval_mapError]
  obtain ⟨e | a, ring', s'⟩ := p.eval shared.answer ring s
  · simp [Except.mapError]
  · exact hf a ring' s'

theorem reserveBlock_not_exhausted (blockClass : BlockClass) (block bound : Nat)
    (wireHeader : WireHeader) (ring : Ring) (s : σ) :
    ((reserveBlock retained blockClass block bound wireHeader).eval shared.answer ring s).1 ≠
      .error .exhausted := by
  rw [reserveBlock, Act.eval_get_bind]
  split
  · rw [Act.eval_modify_bind, Act.eval_throw]
    simp
  · refine mapError_bind_not_exhausted (fun _ ring s => ?_) ring s
    rw [Op.run, Act.eval_call_bind]
    split
    · rw [Act.eval_modify_bind, Act.eval_mapError]
      obtain ⟨e | a, ring', s'⟩ := Act.eval shared.answer (quarantineWith retained _) _ _ <;>
        simp [Except.mapError]
    · rw [Act.eval_modify_bind, Act.eval_pure]
      simp

theorem takeBlock_exhausted_iff (blockClass : BlockClass) (bound : Nat) (wireHeader : WireHeader)
    (ring : Ring) (s : σ) :
    ((takeBlock retained blockClass bound wireHeader).eval shared.answer ring s).1 =
      .error .exhausted ↔ (ring.ledger.free blockClass).isEmpty = true := by
  rw [takeBlock, Act.eval_get_bind]
  cases hpop : Vec.pop (ring.ledger.free blockClass) with
  | none =>
    rw [Vec.pop, Option.map_eq_none_iff, List.getLast?_eq_none_iff] at hpop
    simp [Act.eval_throw, hpop]
  | some taken =>
    have hfree := Vec.pop_eq_some hpop
    simp only [Act.eval_modify_bind, reserveBlock_not_exhausted, false_iff, hfree]
    simp

/-- `reservation_exhausted` after its reclaim pass. -/
def recheckReclaimed (retained : Retained) (inventory : Inventory) (bound : Nat) :
    RingAct RingError Bool :=
  match retained.geometry.classFor inventory bound with
  | none => pure false
  | some blockClass => do
    let outstanding ← orQuarantine retained (descriptorsOutstanding retained)
    if outstanding ≥ descriptorLimit retained.geometry inventory then pure true
    else
      let ring ← Act.get
      pure (ring.ledger.free blockClass).isEmpty

/-- The recheck leaves out two of the refusals, and only these. -/
def RecheckMatches (recheck : Except RingError Bool)
    (reserve : Except ProducerError ProducerReservation) : Prop :=
  reserve = .error .exhausted ↔
    recheck = .ok true ∧ reserve ≠ .error .retired ∧ reserve ≠ .error .boundExceedsClass

/-- After the reclaim pass both see the same class, the same headroom and the same
free list. -/
theorem recheckReclaimed_matches (inventory : Inventory) (bound : Nat) (wireHeader : WireHeader)
    (ring : Ring) (s : σ) :
    let recheck := ((recheckReclaimed retained inventory bound).eval shared.answer ring s).1
    let reserve :=
      ((reserveReclaimed retained inventory bound wireHeader).eval shared.answer ring s).1
    RecheckMatches recheck reserve ∧
      (ring.publishedLocal ≠ u64Max → (recheck = .ok true ↔ reserve = .error .exhausted)) := by
  unfold recheckReclaimed reserveReclaimed RecheckMatches
  cases retained.geometry.classFor inventory bound with
  | none => simp [Act.eval_pure, Act.eval_throw]
  | some blockClass =>
    simp only [Act.eval_bind, Act.eval_mapError]
    have hkept : Within SamePublished (orQuarantine retained (descriptorsOutstanding retained)) :=
      within_orQuarantine retained (within_descriptorsOutstanding retained)
    cases hrun : (orQuarantine retained (descriptorsOutstanding retained)).eval shared.answer
        ring s with
    | mk result after =>
      obtain ⟨ring', s'⟩ := after
      rw [← publishedLocal_of_eval shared hkept hrun]
      cases result with
      | error e => simp [Except.mapError]
      | ok outstanding =>
        simp only [Except.mapError]
        split
        · simp [Act.eval_pure, Act.eval_throw]
        · rw [Act.eval_get_bind, Act.eval_get_bind, Act.eval_pure]
          by_cases hlast : ring'.publishedLocal = u64Max
          · simp [hlast, Act.eval_modify_bind, Act.eval_throw]
          · have htake := @takeBlock_exhausted_iff σ retained shared blockClass bound wireHeader
              ring' s'
            rw [if_neg hlast]
            simp only [Except.ok.injEq, ← htake]
            grind

variable {bound : Nat}

theorem reservationExhausted_matches (inventory : Inventory) (wireHeader : WireHeader)
    (hlive : Live shared ring s) :
    let recheck := ((reservationExhausted retained inventory bound).eval shared.answer ring s).1
    let reserve := ((tryReserveIn retained inventory bound wireHeader).eval shared.answer ring s).1
    RecheckMatches recheck reserve ∧ (bound ≤ maxFrameBytes → ring.publishedLocal ≠ u64Max →
      (recheck = .ok true ↔ reserve = .error .exhausted)) := by
  have hquiet := @eval_isQuarantined_of_live _ ProducerError retained _ _ _ hlive
  unfold RecheckMatches
  rw [reservationExhausted, Act.eval_get_bind, tryReserveIn, admitReservation, Act.eval_bind]
  by_cases hbound : bound > maxFrameBytes
  · simp [hbound, Nat.not_le.mpr hbound, Act.eval_throw]
  rw [if_neg hbound, Act.eval_bind_of_ok hquiet, Act.eval_get_bind, if_neg Bool.false_ne_true]
  by_cases hreserved : ring.reservedBlock.isSome = true
  · simp [hreserved, Act.eval_pure, Act.eval_throw]
  rw [if_neg hreserved, if_neg hreserved]
  by_cases hallowed : ring.ledger.allowed = false
  · simp [hallowed, Act.eval_pure, Act.eval_throw]
  by_cases hretired : ring.ledger.retired = true
  · simp [hallowed, hretired, Act.eval_pure, Act.eval_throw]
  rw [if_neg (by simp [hallowed, hretired]), if_neg hallowed, if_neg hretired, Act.eval_mapError]
  cases hrun : (reclaimCompletions retained).eval shared.answer ring s with
  | mk result after =>
    obtain ⟨ring', s'⟩ := after
    cases result with
    | error e =>
      rw [Act.eval_bind_of_error hrun]
      simp [Except.mapError]
    | ok _ =>
      rw [Act.eval_bind_of_ok hrun,
        ← publishedLocal_of_eval shared (samePublished_reclaimCompletions retained) hrun]
      exact (recheckReclaimed_matches inventory bound wireHeader ring' s').imp_right fun h _ => h

/-! ## Parking -/

/-- A recheck that lets the producer park was made where the reservation is exhausted. -/
theorem armedCapacityWaitHolds_exhausted {generation : Nat} {inventory : Inventory}
    (wireHeader : WireHeader) (hbound : bound ≤ maxFrameBytes)
    (hsequence : ring.publishedLocal ≠ u64Max)
    (h : (armedCapacityWaitHolds retained generation inventory bound).eval shared.answer ring s =
      (.ok true, ring', s')) :
    ((tryReserveIn retained inventory bound wireHeader).eval shared.answer ring s).1 =
      .error .exhausted := by
  obtain ⟨quarantined, ring₁, s₁, hquiet, hafter⟩ := Act.eval_bind_eq_ok h
  cases quarantined with
  | true =>
    cases hafter
  | false =>
    obtain ⟨hlive, rfl, rfl⟩ := live_of_eval_isQuarantined hquiet
    obtain ⟨exhausted, ring₂, s₂, hrecheck, hlast⟩ := Act.eval_bind_eq_ok hafter
    cases exhausted with
    | false =>
      cases hlast
    | true =>
      refine ((reservationExhausted_matches inventory wireHeader hlive).2 hbound hsequence).mp ?_
      rw [hrecheck]

theorem eval_keptIf_true {wake : Wake} {p : RingAct ε Bool}
    (h : (ParkGuard.keptIf wake p).eval shared.answer ring s = (.ok true, ring', s')) :
    p.eval shared.answer ring s = (.ok true, ring', s') := by
  rw [ParkGuard.keptIf, Act.eval_bind, Act.eval_outcome] at h
  generalize p.eval shared.answer ring s = ended at h ⊢
  obtain ⟨result, ring₁, s₁⟩ := ended
  match result with
  | .ok true => exact h
  | .ok false =>
    obtain ⟨_, _, _, _, hfalse⟩ := Act.eval_bind_eq_ok h
    cases hfalse
  | .error e =>
    obtain ⟨_, _, _, _, hfailed⟩ := Act.eval_bind_eq_ok h
    cases hfailed

theorem armCapacityWait_recheck {inventory : Inventory}
    (h : (armCapacityWait retained inventory bound).eval shared.answer ring s =
      (.ok true, ring', s')) :
    ∃ generation ring₁ s₁,
      (armedCapacityWaitHolds retained generation inventory bound).eval shared.answer ring₁ s₁ =
        (.ok true, ring', s') ∧ ring₁.publishedLocal = ring.publishedLocal := by
  obtain ⟨quarantined, ring₁, s₁, hquiet, hguarded⟩ := Act.eval_bind_eq_ok h
  cases quarantined with
  | true =>
    cases hguarded
  | false =>
    obtain ⟨-, rfl, rfl⟩ := live_of_eval_isQuarantined hquiet
    obtain ⟨_, ring₂, s₂, hpage, harmed⟩ := Act.eval_bind_eq_ok hguarded
    obtain ⟨generation, ring₃, s₃, harm, hkept⟩ := Act.eval_bind_eq_ok harmed
    obtain ⟨holds, ring₄, s₄, hfirst, hrest⟩ := Act.eval_bind_eq_ok (eval_keptIf_true hkept)
    cases holds with
    | false =>
      cases hrest
    | true =>
      obtain ⟨_, ring₅, s₅, hdrain, hsecond⟩ := Act.eval_bind_eq_ok hrest
      refine ⟨generation, ring₅, s₅, hsecond, ?_⟩
      rw [publishedLocal_of_eval shared (within_orQuarantine retained (samePublished_drain _))
          hdrain,
        publishedLocal_of_eval shared (samePublished_armedCapacityWaitHolds retained _ _ _) hfirst,
        publishedLocal_of_eval shared (samePublished_arm _) harm,
        publishedLocal_of_eval shared (within_page _) hpage]

end Ring

/-! ## Two pools -/

/-- A mapping with `consumed` frames taken, in which nothing is returned or flagged. -/
def SharedState.idle (consumed : Nat) : SharedState Unit where
  answer op _ :=
    match op with
    | .loadConsumed => (consumed, ())
    | .loadPublished | .loadSlot .. | .loadCell _ | .swapReturn _ | .loadLive _
    | .loadSeen _ | .loadFlag | .loadGeneration _ | .swapParked _ | .now => ((0 : Nat), ())
    | .casPublished .. | .casConsumed .. | .casLive .. | .sendToken _ | .recvTokens _
    | .pollNow _ => (true, ())
    | .loadHeader _ => (Vector.replicate 20 0, ())
    | .poll .. => (.ready true, ())
    | .storeSlot .. | .storeHeader .. | .storeBody .. | .fetchMaxCell .. | .fetchOrReturn ..
    | .storeLive .. | .storeSeen .. | .newLease _ | .storeFlag | .bumpGeneration _
    | .storeParked .. => ((), ())
  loadFlag_keeps _ := rfl

/-- The handle of a fresh pool whose two ordinary descriptors are both published. -/
def Ring.fullHeadroom (geometry : PoolGeometry) : Ring :=
  { Ring.create geometry with publishedLocal := 2 }

/-- A pool whose largest class takes bodies over the frame limit. -/
def PoolGeometry.oversized : PoolGeometry where
  ordinaryDescriptors := 2
  reservedDescriptors := 1
  classes := [⟨4096, 1⟩, ⟨8192, 1⟩, ⟨12288, 1⟩, ⟨16384, 1⟩, ⟨67112960, 1⟩, ⟨4096, 1⟩, ⟨4096, 1⟩]
  classes_length := rfl
  ordinary_pos := small.ordinary_pos
  depth_le := small.depth_le
  ascending := by decide
  classes_valid := by decide
  blocks_le := by decide
  bytes_lt := by decide

def Retained.oversized : Retained where
  geometry := .oversized
  layout :=
    { producer := 0, consumer := 128, dataWake := 256, capacityWake := 384, lifecycle := 512
      descriptors := 768, descriptorDepth := 3, completions := 1024, blockCount := 7
      returns := 1152, returnWords := 1, arena := 4096, arenaBytes := 67162112
      total := 67166208 }
  layout_new := ⟨4096, by decide +kernel⟩
  incarnation := Vector.replicate 16 0
  lane := 0

/-- A reservation of a block, and the commit of an empty frame in it. -/
def publishEmpty (bound block index : Nat) : List (Call × List Answer) :=
  [(.tryReserveIn .ordinary bound (Vector.replicate 20 0),
      [⟨.loadFlag, (0 : Nat)⟩, ⟨.swapReturn 0, (0 : Nat)⟩, ⟨.loadConsumed, (0 : Nat)⟩,
        ⟨.loadCell block, (0 : Nat)⟩]),
    (.held (.commit 0),
      [⟨.loadFlag, (0 : Nat)⟩, ⟨.storeHeader block (Vector.replicate 20 0), ()⟩,
        ⟨.storeSlot index .block block, ()⟩, ⟨.storeSlot index .generation 1, ()⟩,
        ⟨.storeSlot index .bodyLen 0, ()⟩, ⟨.storeSlot index .sequence (index + 1), ()⟩,
        ⟨.casPublished index (index + 1), true⟩, ⟨.bumpGeneration .data, ()⟩,
        ⟨.swapParked .data, (0 : Nat)⟩, ⟨.loadFlag, (0 : Nat)⟩])]

/-- What the recheck, the reservation and the arm answer for one ordinary body. -/
def capacityAnswers (retained : Retained) (consumed bound : Nat) (ring : Ring) :
    Except RingError Bool × Option ProducerError × Except RingError Bool :=
  let answer := (SharedState.idle consumed).answer
  (((Ring.reservationExhausted retained .ordinary bound).eval answer ring ()).1,
    match ((Ring.tryReserveIn retained .ordinary bound (Vector.replicate 20 0)).eval answer
        ring ()).1 with
      | .ok _ => none
      | .error error => some error,
    ((Ring.armCapacityWait retained .ordinary bound).eval answer ring ()).1)

/-- A handle that has used up its sequence numbers, with every block out. -/
def Ring.lastSequence : Ring :=
  { Ring.create .small with
    publishedLocal := u64Max
    ledger := { ProducerLedger.new .small true with free := fun _ => [] } }

end Eidnara.ShmTransport
