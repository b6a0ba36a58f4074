import Eidnara.ShmTransport.Ring.Peer

/-!
# Runs of a producer handle

A caller makes the calls of one producer handle in any order, also from inside the
callback of `take_reclaimed`: the loops of `take_reclaimed` that are under way are
counted, and each of their turns is a step of its own.  `Effect` says once what a step
can do to the ledger.
-/

namespace Eidnara.ShmTransport

open Lib List

structure Handle where
  ring : Ring
  reservation : Option ProducerReservation
  /-- The loops of `take_reclaimed` under way. -/
  frames : Nat

/-- A handle of a pool with `published` and `consumed` frames. -/
def Handle.attach (retained : Retained) (published consumed : Nat) : Handle where
  ring := .attach retained.geometry published consumed
  reservation := none
  frames := 0

inductive Method where
  | advance (bytes : Nat)
  | setWireHeader (wireHeader : WireHeader)
  | write (bytes : List UInt8)
  | commit (bodyLen : Nat)
  | abort

/-- Runs a method; what is left of the reservation is returned. -/
def Method.act (retained : Retained) (reservation : ProducerReservation) :
    Method → RingAct Empty (Option ProducerReservation)
  | .advance bytes => do
    let (_, reservation) ← reservation.advance retained bytes
    pure (some reservation)
  | .setWireHeader wireHeader => do
    let (_, reservation) ← reservation.setWireHeader wireHeader
    pure (some reservation)
  | .write bytes => do
    let (_, reservation) ← reservation.write retained bytes
    pure (some reservation)
  | .commit bodyLen => do
    (reservation.commit retained bodyLen).ignore
    pure none
  | .abort => do
    let _ ← reservation.abortNow retained
    pure none

inductive Call where
  | tryReserveIn (inventory : Inventory) (bound : Nat) (wireHeader : WireHeader)
  /-- A method of the last reservation. -/
  | held (method : Method)
  /-- A method of a reservation that has been committed or aborted before. -/
  | finished (reservation : ProducerReservation) (method : Method)
  | inventory
  | probe
  /-- `take_reclaimed` up to its loop. -/
  | takeReclaimed
  /-- A turn of the innermost loop of `take_reclaimed`. -/
  | nextReclaimed

inductive Event where
  | returned (block : Nat)
  | reserved (block generation : Nat)
  | settled (block : Nat)
  | drained
deriving DecidableEq, Repr

namespace Handle

variable (retained : Retained) (handle : Handle)

def onRing {ε α : Type} (p : RingAct ε α) : Prog Op Op.Resp (Handle × Option Event) :=
  (p handle.ring).bind fun (_, ring) => .done ({ handle with ring }, none)

def tryReserveIn (inventory : Inventory) (bound : Nat) (wireHeader : WireHeader) :
    Prog Op Op.Resp (Handle × Option Event) :=
  (Ring.tryReserveIn retained inventory bound wireHeader handle.ring).bind fun
    | (.ok reservation, ring) =>
      .done ({ handle with ring, reservation := some reservation },
        some (.reserved reservation.block reservation.generation))
    | (.error _, ring) => .done ({ handle with ring }, none)

def onReservation (reservation : ProducerReservation) (method : Method) :
    Prog Op Op.Resp (Handle × Option Event) :=
  (method.act retained reservation handle.ring).bind fun
    | (.ok left, ring) => .done ({ handle with ring, reservation := left }, none)
    | (.error e, _) => nomatch e

def takeReclaimed : Prog Op Op.Resp (Handle × Option Event) :=
  (Ring.drainReturns retained handle.ring).bind fun
    | (.ok _, ring) => .done ({ handle with ring, frames := handle.frames + 1 }, none)
    | (.error _, ring) => .done ({ handle with ring }, none)

def nextReclaimed : Prog Op Op.Resp (Handle × Option Event) :=
  match handle.ring.nextReclaimed with
  | some (block, ring) => .done ({ handle with ring }, some (.settled block))
  | none => .done ({ handle with frames := handle.frames - 1 }, some .drained)

def prog : Call → Option (Prog Op Op.Resp (Handle × Option Event))
  | .tryReserveIn inventory bound wireHeader =>
    some (handle.tryReserveIn retained inventory bound wireHeader)
  | .held method => handle.reservation.map (handle.onReservation retained · method)
  | .finished reservation method =>
    if reservation.finished then some (handle.onRing (method.act retained reservation))
    else none
  | .inventory => some (handle.onRing (Ring.inventory retained : RingAct Empty _))
  | .probe => some (handle.onRing (Ring.probe retained))
  | .takeReclaimed => some (handle.takeReclaimed retained)
  | .nextReclaimed => if handle.frames = 0 then none else some handle.nextReclaimed

/-- One call against any peer, with the answers it got. -/
def Step (call : Call) (log : List Answer) (event : Option Event) (handle' : Handle) : Prop :=
  ∃ p, handle.prog retained call = some p ∧ p.Runs anyPeer.answers [] (handle', event) log

/-- The blocks whose publication was freed between two states of a handle. -/
def returnedBlocks (handle' : Handle) : List Nat :=
  (List.range retained.geometry.blockCount).filter fun block =>
    handle.ring.ledger.states block = .published ∧ handle'.ring.ledger.states block ≠ .published

/-- The events of a run whose steps all meet a condition.  The returns of a call come
before what it answers. -/
inductive ReachesWhere (meets : Handle → Call → List Answer → Prop) (start : Handle) :
    List Event → Handle → Prop
  | start : ReachesWhere meets start [] start
  | step {events : List Event} {handle handle' : Handle} {call : Call} {log : List Answer}
      {event : Option Event} : ReachesWhere meets start events handle → meets handle call log →
      handle.Step retained call log event handle' →
      ReachesWhere meets start (events ++ (handle.returnedBlocks retained handle').map .returned ++
        event.toList) handle'

abbrev Reaches (start : Handle) : List Event → Handle → Prop :=
  ReachesWhere retained (fun _ _ _ => True) start

def replay : Handle → List (Call × List Answer) → Option (List Event × Handle)
  | handle, [] => some ([], handle)
  | handle, (call, log) :: rest => do
    let p ← handle.prog retained call
    let (handle', event) ← p.replay log
    let (events, last) ← replay handle' rest
    some ((handle.returnedBlocks retained handle').map .returned ++ event.toList ++ events, last)

theorem step_of_replay {handle last : Handle} {call : Call} {log : List Answer}
    {rest : List (Call × List Answer)} {events : List Event}
    (h : handle.replay retained ((call, log) :: rest) = some (events, last)) :
    ∃ event handle' events', handle.Step retained call log event handle' ∧
      handle'.replay retained rest = some (events', last) ∧
      events =
        (handle.returnedBlocks retained handle').map .returned ++ event.toList ++ events' := by
  simp only [replay, Option.bind_eq_bind, Option.bind_eq_some_iff] at h
  obtain ⟨p, hprog, ⟨handle', event⟩, hreplay, ⟨events', last'⟩, hrest, heq⟩ := h
  cases heq
  exact ⟨event, handle', events', ⟨p, hprog, Prog.runs_of_replay hreplay []⟩, hrest, rfl⟩

theorem reaches_of_replay {meets : Handle → Call → List Answer → Prop}
    {start handle last : Handle} {before events : List Event}
    {script : List (Call × List Answer)} (hstart : ReachesWhere retained meets start before handle)
    (hmeets : ∀ entry ∈ script, ∀ handle, meets handle entry.1 entry.2)
    (h : handle.replay retained script = some (events, last)) :
    ReachesWhere retained meets start (before ++ events) last := by
  induction script generalizing handle before events with
  | nil =>
    cases h
    rw [append_nil]
    exact hstart
  | cons entry rest ih =>
    obtain ⟨event, handle', events', hstep, hrest, rfl⟩ := step_of_replay retained h
    have hstep := hstart.step (hmeets _ mem_cons_self handle) hstep
    have hreaches := ih hstep (fun entry hmem => hmeets entry (mem_cons_of_mem _ hmem)) hrest
    simpa only [append_assoc] using hreaches

end Handle

/-! ## What a step does -/

/-- The reservation takes a block whose return is unsettled, and then refuses it: the
generations of the block are used up, or its cell answers one too new. -/
def Ring.LosesReturn (retained : Retained) (inventory : Inventory) (bound : Nat) (ring : Ring)
    (log : List Answer) : Prop :=
  ∃ (ring₁ : Ring) (log₁ log₂ : List Answer) (blockClass : BlockClass) (rest : List Nat)
    (block : Nat),
    (Ring.admitReservation retained bound ring).Runs anyPeer.answers [] (.ok (), ring₁) log₁ ∧
      log = log₁ ++ log₂ ∧ retained.geometry.classFor inventory bound = some blockClass ∧
      Vec.pop (ring₁.ledger.free blockClass) = some (rest, block) ∧
      block ∈ ring₁.ledger.reclaimed ∧ Blocked ring₁ block log₂

def Handle.LosesReturn (retained : Retained) (handle : Handle) (log : List Answer) : Call → Prop
  | .tryReserveIn inventory bound _ => handle.ring.LosesReturn retained inventory bound log
  | _ => False

/-- What a call can do to a ring, and the event it shows; `lossy` says whether it may lose
a return. -/
inductive Effect (geometry : PoolGeometry) (lossy : Prop) (log : List Answer) :
    Ring → Option Event → Ring → Prop
  | reclaims {ring ring₁ ring' : Ring} {log₁ : List Answer} :
      Reclaims geometry ring [] ring₁ log₁ → log₁ <+: log →
      (∃ retired, ring'.ledger = { ring₁.ledger with retired }) →
      ring'.reservedBlock = ring.reservedBlock → Effect geometry lossy log ring none ring'
  | loses {ring ring₁ ring' : Ring} {log₁ : List Answer} {block : Nat} : lossy →
      Reclaims geometry ring [] ring₁ log₁ → log₁ <+: log →
      (∃ retired, ring'.ledger =
        { ring₁.ledger with
          reclaimed := Vec.removeValue ring₁.ledger.reclaimed block, retired }) →
      ring'.reservedBlock = ring.reservedBlock → Effect geometry lossy log ring none ring'
  | reserves {ring ring₁ ring' : Ring} {log₁ : List Answer} {reservation : ProducerReservation} :
      Reclaims geometry ring [] ring₁ log₁ → log₁ <+: log → ring₁.reservedBlock = none →
      Takes ring₁ reservation ring' →
      Effect geometry lossy log ring
        (some (.reserved reservation.block reservation.generation)) ring'
  | aborts {ring ring' : Ring} {block : Nat} {blockClass : BlockClass} :
      ring.reservedBlock = some block → geometry.classOf block = some blockClass →
      ring'.ledger = (ring.ledger.setState block .free).pushFree blockClass block →
      ring'.reservedBlock = none → Effect geometry lossy log ring none ring'
  | publishes {ring ring' : Ring} {block : Nat} :
      ring.reservedBlock = some block →
      ring'.ledger =
        { ring.ledger.setState block .published with
          outstanding := ring.ledger.outstanding ++ [block] } →
      ring'.reservedBlock = none → Effect geometry lossy log ring none ring'
  | settles {ring ring' : Ring} {block : Nat} : ring.nextReclaimed = some (block, ring') →
      Effect geometry lossy log ring (some (.settled block)) ring'
  | drains {ring : Ring} : ring.ledger.reclaimed = [] →
      Effect geometry lossy log ring (some .drained) ring

/-- The lists of the ledger agree with the states of the blocks. -/
def Ring.Wf (geometry : PoolGeometry) (ring : Ring) : Prop :=
  ring.ledger.Wf geometry ring.reservedBlock

/-- An unfinished reservation is the one the ring knows of. -/
def Held (ring : Ring) (reservation : Option ProducerReservation) : Prop :=
  ∀ held ∈ reservation, held.finished = false → ring.reservedBlock = some held.block

section

variable {geometry : PoolGeometry} {lossy : Prop} {log : List Answer} {ring ring' : Ring}
  {event : Option Event}

theorem Reclaims.wf {log' : List Answer} (h : Reclaims geometry ring log ring' log')
    (hwf : ring.Wf geometry) : ring'.Wf geometry := by
  rw [Ring.Wf, h.reserved_eq]
  exact h.frees.wf hwf

theorem Ring.nextReclaimed_eq_some {block : Nat} (h : ring.nextReclaimed = some (block, ring')) :
    ∃ rest, ring.ledger.reclaimed = rest ++ [block] ∧
      ring' = { ring with ledger := { ring.ledger with reclaimed := rest } } := by
  obtain ⟨⟨rest, last⟩, hpop, heq⟩ := Option.map_eq_some_iff.mp h
  obtain ⟨rfl, rfl⟩ := Prod.mk.inj heq
  exact ⟨rest, Vec.pop_eq_some hpop, rfl⟩

theorem Effect.wf (h : Effect geometry lossy log ring event ring') (hwf : ring.Wf geometry) :
    ring'.Wf geometry := by
  cases h with
  | reclaims h₁ _ hledger hreserved =>
    obtain ⟨retired, hledger⟩ := hledger
    have hwf₁ := h₁.wf hwf
    rw [Ring.Wf, h₁.reserved_eq] at hwf₁
    rw [Ring.Wf, hreserved, hledger]
    exact hwf₁.of_eq rfl rfl rfl (List.Subset.refl _) hwf₁.nodup_reclaimed
  | loses _ h₁ _ hledger hreserved =>
    obtain ⟨retired, hledger⟩ := hledger
    have hwf₁ := h₁.wf hwf
    rw [Ring.Wf, h₁.reserved_eq] at hwf₁
    rw [Ring.Wf, hreserved, hledger]
    refine hwf₁.of_eq rfl rfl rfl ?_ (Vec.nodup_removeValue hwf₁.nodup_reclaimed _)
    intro block hblock
    exact ((Vec.mem_removeValue hwf₁.nodup_reclaimed).mp hblock).1
  | reserves h₁ _ hnone h₂ =>
    obtain ⟨blockClass, rest, hpop, hledger⟩ := h₂.popped
    have hwf₁ := h₁.wf hwf
    rw [Ring.Wf, hnone] at hwf₁
    rw [Ring.Wf, h₂.reserved_eq, hledger]
    exact hwf₁.reserve hpop _
  | aborts hreserved hclass hledger hnone =>
    rw [Ring.Wf, hreserved] at hwf
    rw [Ring.Wf, hledger, hnone]
    exact hwf.abort hclass
  | publishes hreserved hledger hnone =>
    rw [Ring.Wf, hreserved] at hwf
    rw [Ring.Wf, hledger, hnone]
    exact hwf.publish
  | settles hnext =>
    obtain ⟨rest, hsplit, rfl⟩ := Ring.nextReclaimed_eq_some hnext
    refine hwf.of_eq rfl rfl rfl ?_ ?_
    · intro other hother
      rw [hsplit]
      exact mem_append_left _ hother
    · have hnodup := hwf.nodup_reclaimed
      rw [hsplit] at hnodup
      exact (nodup_append.mp hnodup).1
  | drains _ => exact hwf

/-- A change of the ring that any call may make without an event. -/
def Silent (geometry : PoolGeometry) (ring ring' : Ring) : Prop :=
  ∀ lossy log, Effect geometry lossy log ring none ring'

theorem Silent.congr {ring₀ ring₁ : Ring} (h : Silent geometry ring ring')
    (hledger : ring₀.ledger = ring.ledger) (hreserved : ring₀.reservedBlock = ring.reservedBlock)
    (hledger' : ring₁.ledger = ring'.ledger)
    (hreserved' : ring₁.reservedBlock = ring'.reservedBlock) :
    Silent geometry ring₀ ring₁ := by
  intro lossy log
  have hstart : Reclaims geometry ring₀ [] ring [] :=
    Framed.of_same hledger.symm hreserved.symm (prefix_refl [])
  cases h lossy log with
  | reclaims h₁ hlog hkept hsame =>
    exact .reclaims (Framed.trans hstart h₁) hlog (hledger' ▸ hkept)
      (hreserved'.trans (hsame.trans hreserved.symm))
  | loses hlossy h₁ hlog hlost hsame =>
    exact .loses hlossy (Framed.trans hstart h₁) hlog (hledger' ▸ hlost)
      (hreserved'.trans (hsame.trans hreserved.symm))
  | aborts hblock hclass hback hnone =>
    refine .aborts (hreserved.trans hblock) hclass ?_ (hreserved'.trans hnone)
    rw [hledger', hback, hledger]
  | publishes hblock hpublished hnone =>
    refine .publishes (hreserved.trans hblock) ?_ (hreserved'.trans hnone)
    rw [hledger', hpublished, hledger]

theorem Effect.of_reclaims (h : Reclaims geometry ring [] ring' log) :
    Effect geometry lossy log ring none ring' :=
  .reclaims h (prefix_refl log) ⟨ring'.ledger.retired, rfl⟩ h.reserved_eq

theorem Silent.unchanged {retired : Bool} (hledger : ring'.ledger = { ring.ledger with retired })
    (hreserved : ring'.reservedBlock = ring.reservedBlock) : Silent geometry ring ring' :=
  fun _ _ =>
    .reclaims (Carried.refl ring []) nil_prefix ⟨retired, hledger⟩ hreserved

end

/-- After a method the ring has changed silently, and knows what is left of the
reservation if that is unfinished. -/
structure Leaves (geometry : PoolGeometry) (ring : Ring) (left : Option ProducerReservation)
    (ring' : Ring) : Prop where
  silent : Silent geometry ring ring'
  held : Held ring' left

/-! ## Reservations -/

namespace ProducerReservation

variable {ε : Type} (retained : Retained) {reservation : ProducerReservation} {ring : Ring}
  (log : List Answer) (failed : ε → Ring → List Answer → Prop)
  (hwf : ring.Wf retained.geometry) (hheld : Held ring (some reservation))

include hwf hheld

theorem leaves_abortNow :
    (reservation.abortNow retained).Safe anyPeer ring log
      (fun left ring' _ => Leaves retained.geometry ring (some left) ring') failed := by
  unfold abortNow
  split
  · exact safe_pure_anyPeer ⟨.unchanged rfl rfl, hheld⟩
  · rename_i hfinished
    have hblock := hheld reservation rfl (Bool.eq_false_iff.mpr hfinished)
    obtain ⟨hlt, hstate⟩ := (hwf.reserved_iff reservation.block).mp hblock
    obtain ⟨placement, hplacement, -⟩ := retained.geometry.placement_placed hlt
    have hclass : retained.geometry.classOf reservation.block = some placement.blockClass := by
      rw [PoolGeometry.classOf, hplacement, Option.map_some]
    have habort : ring.abortReservation retained.geometry reservation.block =
        { ring with
          reservedBlock := none
          ledger := (ring.ledger.setState reservation.block .free).pushFree
            placement.blockClass reservation.block } := by
      rw [Ring.abortReservation, if_neg (not_not_intro hblock), if_neg (not_not_intro hstate),
        hplacement]
    rw [Act.safe_modify_bind]
    refine safe_pure_anyPeer ⟨fun _ _ => ?_, by rintro _ ⟨⟩ ⟨⟩⟩
    rw [habort]
    exact .aborts hblock hclass rfl rfl

theorem leaves_refuse (error : ProducerError) :
    (reservation.refuse retained error).Safe anyPeer ring log
      (fun left ring' _ => Leaves retained.geometry ring (some left.2) ring') failed := by
  rw [refuse, Act.safe_bind]
  exact (leaves_abortNow retained log failed hwf hheld).mono (fun _ _ _ h => safe_pure_anyPeer h)
    (fun _ _ _ h => h)

end ProducerReservation

/-! ## Publication -/

namespace Ring

variable {ε : Type} (retained : Retained) {R : Ring → List Answer → Ring → List Answer → Prop}
  [Framed R]

theorem within_writeSlot (index block generation bodyLen sequence : Nat)
    (wireHeader : WireHeader) :
    Within R (writeSlot index block generation bodyLen sequence wireHeader : RingAct ε Unit) :=
  within_bind (within_run _) fun _ =>
    within_bind (within_run _) fun _ =>
      within_bind (within_run _) fun _ =>
        within_bind (within_run _) fun _ => within_run _

theorem within_announce (block generation : Nat) :
    Within R (announce retained block generation) := by
  refine within_bind (within_outcome (within_signalDataWake retained)) fun signalled => ?_
  split
  · exact within_bind
      (fun ring log => enterQuarantine_anyPeer retained ring log _) fun _ => within_throw _
  · refine within_bind (within_isQuarantined retained) fun quarantined => ?_
    split
    · exact within_throw _
    · exact within_pure _

theorem publishCursor_safe (block published sequence : Nat) (ring : Ring) (log : List Answer) :
    (publishCursor retained block published sequence).Safe anyPeer ring log
      (fun _ ring' _ =>
        ring'.ledger =
          { ring.ledger.setState block .published with
            outstanding := ring.ledger.outstanding ++ [block] } ∧
        ring'.reservedBlock = none)
      (fun _ ring' _ => ring'.ledger = ring.ledger ∧ ring'.reservedBlock = ring.reservedBlock) := by
  refine safe_run_anyPeer fun swapped => ?_
  split
  · rintro _ rfl
    exact ⟨rfl, rfl⟩
  · rw [Act.safe_mapError]
    refine (quarantineWith_anyPeer (R := Untouched) retained _ _ _ _).mono (fun _ _ _ h => h) ?_
    rintro _ ring' log' ⟨-, hsame⟩ _ rfl
    exact ⟨hsame.ledger_eq, hsame.reserved_eq⟩

theorem publishCommit_safe {block generation bodyLen : Nat} {wireHeader : WireHeader}
    {ring : Ring} (log : List Answer) (hblock : ring.reservedBlock = some block)
    (hlt : block < retained.geometry.blockCount) :
    (publishCommit retained block generation bodyLen wireHeader).Safe anyPeer ring log
      (fun _ ring' _ => Silent retained.geometry ring ring')
      (fun _ ring' _ => Silent retained.geometry ring ring') := by
  unfold publishCommit
  split
  · exact safe_throw_anyPeer (.unchanged rfl rfl)
  · rw [Act.safe_get_bind]
    split
    · exact safe_throw_anyPeer (.unchanged rfl rfl)
    · have hdepth : 0 < retained.geometry.descriptorDepth :=
        Nat.add_pos_left retained.geometry.ordinary_pos _
      obtain ⟨placement, hplacement, -⟩ := retained.geometry.placement_placed hlt
      simp only [retained.slotPage_ok (Nat.mod_lt _ hdepth), retained.producerPage_ok,
        retained.headerPtr_ok hplacement, page_ok]
      show ((writeSlot _ _ _ _ _ _ >>= fun _ => _ : RingAct ProducerError _)).Safe anyPeer ring
        log _ _
      rw [Act.safe_bind]
      refine (within_writeSlot (R := Untouched) _ _ _ _ _ _ ring log).mono ?_
        (fun _ _ _ h => .unchanged h.ledger_eq h.reserved_eq)
      intro _ ring₁ log₁ h₁
      rw [Act.safe_bind]
      refine (publishCursor_safe retained _ _ _ ring₁ log₁).mono ?_
        (fun _ _ _ h => .unchanged (h.1.trans h₁.ledger_eq) (h.2.trans h₁.reserved_eq))
      rintro _ ring₂ log₂ ⟨hledger, hnone⟩
      have hend : ∀ ring' log', Untouched ring₂ log₂ ring' log' →
          Silent retained.geometry ring ring' := fun ring' log' h lossy log =>
        .publishes hblock (h.ledger_eq.trans (h₁.ledger_eq ▸ hledger)) (h.reserved_eq.trans hnone)
      exact (within_announce (R := Untouched) retained _ _ ring₂ log₂).mono (fun _ => hend)
        (fun _ => hend)

theorem within_writeReservation (block capacity cursor : Nat)
    (bytes : List UInt8) : Within R (writeReservation retained block capacity cursor bytes) := by
  unfold writeReservation
  split
  · exact within_throw _
  · split
    · exact within_throw _
    · exact within_bind (within_mapError _ (within_page _)) fun _ => within_run _

end Ring

/-! ## Methods -/

variable {ring : Ring}

theorem Untouched.wf {geometry : PoolGeometry} {ring' : Ring} {log log' : List Answer}
    (h : Untouched ring log ring' log') (hwf : ring.Wf geometry) : ring'.Wf geometry := by
  rw [Ring.Wf, h.ledger_eq, h.reserved_eq]
  exact hwf

theorem Held.of_eq {ring' : Ring} {reservation : Option ProducerReservation}
    (h : Held ring reservation) (heq : ring'.reservedBlock = ring.reservedBlock) :
    Held ring' reservation := fun held hmem hfinished => heq.trans (h held hmem hfinished)

theorem Leaves.after {geometry : PoolGeometry} {ring₁ ring' : Ring} {log log' : List Answer}
    {left : Option ProducerReservation} (h : Leaves geometry ring₁ left ring')
    (h₁ : Untouched ring log ring₁ log') : Leaves geometry ring left ring' :=
  ⟨h.silent.congr h₁.ledger_eq.symm h₁.reserved_eq.symm rfl rfl, h.held⟩

namespace ProducerReservation

variable {ε : Type} (retained : Retained) {reservation : ProducerReservation} {ring : Ring}
  (log : List Answer) (failed : ε → Ring → List Answer → Prop)
  (hwf : ring.Wf retained.geometry) (hheld : Held ring (some reservation))

include hheld

theorem leaves_setWireHeader (wireHeader : WireHeader) :
    (reservation.setWireHeader wireHeader).Safe anyPeer ring log
      (fun left ring' _ => Leaves retained.geometry ring (some left.2) ring') failed := by
  unfold setWireHeader
  split
  · exact safe_pure_anyPeer ⟨.unchanged rfl rfl, hheld⟩
  · refine safe_pure_anyPeer ⟨.unchanged rfl rfl, ?_⟩
    rintro _ ⟨⟩
    exact hheld reservation rfl

include hwf

theorem leaves_advance (bytes : Nat) :
    (reservation.advance retained bytes).Safe anyPeer ring log
      (fun left ring' _ => Leaves retained.geometry ring (some left.2) ring') failed := by
  unfold advance
  split
  · exact safe_pure_anyPeer ⟨.unchanged rfl rfl, hheld⟩
  · split
    · exact leaves_refuse retained log failed hwf hheld _
    · split
      · exact leaves_refuse retained log failed hwf hheld _
      · refine safe_pure_anyPeer ⟨.unchanged rfl rfl, ?_⟩
        rintro _ ⟨⟩
        exact hheld reservation rfl

theorem leaves_write (bytes : List UInt8) :
    (reservation.write retained bytes).Safe anyPeer ring log
      (fun left ring' _ => Leaves retained.geometry ring (some left.2) ring') failed := by
  unfold write
  split
  · exact safe_pure_anyPeer ⟨.unchanged rfl rfl, hheld⟩
  · rw [Act.safe_bind, Act.safe_outcome]
    refine (Ring.within_writeReservation (R := Untouched) retained _ _ _ _ ring log).mono ?_ ?_
    · intro _ ring₁ log₁ h₁
      refine safe_pure_anyPeer ⟨.unchanged h₁.ledger_eq h₁.reserved_eq, ?_⟩
      rintro _ ⟨⟩
      exact hheld.of_eq h₁.reserved_eq reservation rfl
    · intro error ring₁ log₁ h₁
      exact (leaves_refuse retained log₁ failed (h₁.wf hwf) (hheld.of_eq h₁.reserved_eq)
        error).mono (fun _ _ _ h => h.after h₁) (fun _ _ _ h => h)

theorem commit_safe (bodyLen : Nat) :
    (reservation.commit retained bodyLen).Safe anyPeer ring log
      (fun _ ring' _ => Silent retained.geometry ring ring')
      (fun _ ring' _ => Silent retained.geometry ring ring') := by
  unfold commit
  split
  · exact safe_throw_anyPeer (.unchanged rfl rfl)
  · rename_i hfinished
    have hblock := hheld reservation rfl (Bool.eq_false_iff.mpr hfinished)
    obtain ⟨hlt, -⟩ := (hwf.reserved_iff reservation.block).mp hblock
    rw [Act.safe_bind]
    refine (Ring.within_isQuarantined (R := Untouched) retained ring log).mono ?_
      (fun _ _ _ h => .unchanged h.ledger_eq h.reserved_eq)
    intro quarantined ring₁ log₁ h₁
    have hback : ∀ {ring'}, Silent retained.geometry ring₁ ring' →
        Silent retained.geometry ring ring' := fun h =>
      h.congr h₁.ledger_eq.symm h₁.reserved_eq.symm rfl rfl
    have hrefuse : ∀ error, (reservation.refuseCommit retained error).Safe anyPeer ring₁ log₁
        (fun _ ring' _ => Silent retained.geometry ring ring')
        (fun _ ring' _ => Silent retained.geometry ring ring') := by
      intro error
      rw [refuseCommit, Act.safe_bind]
      exact (leaves_abortNow retained log₁ _ (h₁.wf hwf) (hheld.of_eq h₁.reserved_eq)).mono
        (fun _ _ _ h => safe_throw_anyPeer (hback h.silent)) (fun _ _ _ h => h)
    split
    · exact hrefuse _
    · split
      · exact hrefuse _
      · split
        · exact hrefuse _
        · split
          · exact hrefuse _
          · exact (Ring.publishCommit_safe retained log₁ (h₁.reserved_eq.trans hblock) hlt).mono
              (fun _ _ _ => hback) (fun _ _ _ => hback)

end ProducerReservation

theorem Method.act_safe (retained : Retained) (method : Method) {reservation : ProducerReservation}
    (log : List Answer) (hwf : ring.Wf retained.geometry) (hheld : Held ring (some reservation)) :
    (method.act retained reservation).Safe anyPeer ring log
      (fun left ring' _ => Leaves retained.geometry ring left ring') (fun _ _ _ => False) := by
  have hnone : ∀ {ring'} {log' : List Answer}, Silent retained.geometry ring ring' →
      (pure none : RingAct Empty (Option ProducerReservation)).Safe anyPeer ring' log'
        (fun left ring' _ => Leaves retained.geometry ring left ring') (fun _ _ _ => False) :=
    fun h => safe_pure_anyPeer ⟨h, fun _ hmem => nomatch hmem⟩
  cases method with
  | advance bytes =>
    rw [Method.act, Act.safe_bind]
    exact (reservation.leaves_advance retained log _ hwf hheld bytes).mono
      (fun _ _ _ h => safe_pure_anyPeer h) (fun _ _ _ h => h)
  | setWireHeader wireHeader =>
    rw [Method.act, Act.safe_bind]
    exact (reservation.leaves_setWireHeader retained log _ hheld wireHeader).mono
      (fun _ _ _ h => safe_pure_anyPeer h) (fun _ _ _ h => h)
  | write bytes =>
    rw [Method.act, Act.safe_bind]
    exact (reservation.leaves_write retained log _ hwf hheld bytes).mono
      (fun _ _ _ h => safe_pure_anyPeer h) (fun _ _ _ h => h)
  | commit bodyLen =>
    rw [Method.act, Act.safe_bind, Act.safe_ignore]
    exact (reservation.commit_safe retained log hwf hheld bodyLen).mono
      (fun _ _ _ => hnone) (fun _ _ _ => hnone)
  | abort =>
    rw [Method.act, Act.safe_bind]
    exact (reservation.leaves_abortNow retained log _ hwf hheld).mono
      (fun _ _ _ h => hnone h.silent) (fun _ _ _ h => h)

theorem Method.act_finished (retained : Retained) (method : Method)
    {reservation : ProducerReservation} (ring : Ring) (log : List Answer)
    (hfinished : reservation.finished = true) :
    (method.act retained reservation).Safe anyPeer ring log (fun _ ring' _ => ring' = ring)
      (fun _ _ _ => False) := by
  cases method with
  | advance bytes =>
    rw [Method.act, ProducerReservation.advance, if_pos hfinished, Act.pure_bind]
    exact safe_pure_anyPeer rfl
  | setWireHeader wireHeader =>
    rw [Method.act, ProducerReservation.setWireHeader, if_pos hfinished, Act.pure_bind]
    exact safe_pure_anyPeer rfl
  | write bytes =>
    rw [Method.act, ProducerReservation.write, if_pos hfinished, Act.pure_bind]
    exact safe_pure_anyPeer rfl
  | commit bodyLen =>
    rw [Method.act, ProducerReservation.commit, if_pos hfinished, Act.safe_bind, Act.safe_ignore]
    exact safe_throw_anyPeer (safe_pure_anyPeer rfl)
  | abort =>
    rw [Method.act, ProducerReservation.abortNow, if_pos hfinished, Act.pure_bind]
    exact safe_pure_anyPeer rfl

/-! ## Steps -/

theorem Ring.tryReserveIn_safe (retained : Retained) (inventory : Inventory) (bound : Nat)
    (wireHeader : WireHeader) (hwf : ring.Wf retained.geometry) :
    (tryReserveIn retained inventory bound wireHeader).Safe anyPeer ring []
      (fun reservation ring' log =>
        Effect retained.geometry (ring.LosesReturn retained inventory bound log) log ring
          (some (.reserved reservation.block reservation.generation)) ring' ∧
        Held ring' (some reservation))
      (fun _ ring' log =>
        Effect retained.geometry (ring.LosesReturn retained inventory bound log) log ring none
          ring' ∧
        ring'.reservedBlock = ring.reservedBlock) := by
  rw [tryReserveIn, Act.safe_bind]
  have hruns : (admitReservation retained bound ring).Safe (Logic.solo anyPeer.answers)
      (fun a log => (admitReservation retained bound ring).Runs anyPeer.answers [] a log) [] :=
    Prog.safe_solo_iff.mpr fun _ _ hrun => hrun
  refine Prog.Safe.mono (Prog.Safe.and (admitReservation_safe retained bound ring []) hruns) ?_
  rintro ⟨error | _, ring₁⟩ log₁ ⟨h₁, hrun⟩
  · exact ⟨.of_reclaims h₁, h₁.reserved_eq⟩
  · obtain ⟨h₁, hnone⟩ := h₁
    refine (reserveReclaimed_safe retained inventory bound wireHeader log₁ (h₁.wf hwf)).mono ?_ ?_
    · rintro reservation ring' log ⟨hlog, htakes⟩
      refine ⟨.reserves h₁ hlog hnone htakes, ?_⟩
      rintro _ ⟨⟩ -
      exact htakes.reserved_eq
    · rintro _ ring' _ ⟨log₂, rfl, hrefuses⟩
      have hlog : log₁ <+: log₁ ++ log₂ := prefix_append _ _
      cases hrefuses with
      | kept hledger hsame =>
        have hreserved := hsame.trans h₁.reserved_eq
        exact ⟨.reclaims h₁ hlog hledger hreserved, hreserved⟩
      | @lost blockClass rest block hwanted hpop hblocked hledger hsame =>
        have hreserved := hsame.trans h₁.reserved_eq
        refine ⟨?_, hreserved⟩
        by_cases hmem : block ∈ ring₁.ledger.reclaimed
        · exact .loses ⟨ring₁, log₁, log₂, blockClass, rest, block, hrun, rfl, hwanted, hpop,
            hmem, hblocked⟩ h₁ hlog hledger hreserved
        · rw [Vec.removeValue_of_not_mem hmem] at hledger
          exact .reclaims h₁ hlog hledger hreserved

namespace Handle

variable (retained : Retained) {handle handle' : Handle} {call : Call} {log : List Answer}
  {event : Option Event}

abbrev StepSafe (p : Prog Op Op.Resp (Handle × Option Event)) (handle : Handle) (call : Call) :
    Prop :=
  p.Safe anyPeer (fun outcome log =>
    Effect retained.geometry (handle.LosesReturn retained log call) log handle.ring outcome.2
        outcome.1.ring ∧
      Held outcome.1.ring outcome.1.reservation) []

variable (hheld : Held handle.ring handle.reservation)

include hheld

theorem stepSafe_onRing {ε α : Type} {p : RingAct ε α}
    (hp : Within (Reclaims retained.geometry) p) :
    StepSafe retained (handle.onRing p) handle call := by
  rw [StepSafe, onRing, Prog.Safe.bind_iff]
  refine Prog.Safe.mono (hp handle.ring []) ?_
  rintro ⟨_ | _, ring'⟩ log h
  all_goals
    rintro _ rfl
    exact ⟨.of_reclaims h, Held.of_eq hheld h.reserved_eq⟩

theorem stepSafe_tryReserveIn (inventory : Inventory) (bound : Nat) (wireHeader : WireHeader)
    (hwf : handle.ring.Wf retained.geometry) :
    StepSafe retained (handle.tryReserveIn retained inventory bound wireHeader) handle
      (.tryReserveIn inventory bound wireHeader) := by
  rw [StepSafe, tryReserveIn, Prog.Safe.bind_iff]
  refine Prog.Safe.mono (Ring.tryReserveIn_safe retained inventory bound wireHeader hwf) ?_
  rintro ⟨_ | _, ring'⟩ log h
  · rintro _ rfl
    exact ⟨h.1, Held.of_eq hheld h.2⟩
  · rintro _ rfl
    exact h

theorem stepSafe_onReservation {reservation : ProducerReservation} (method : Method)
    (hwf : handle.ring.Wf retained.geometry) (hmem : handle.reservation = some reservation) :
    StepSafe retained (handle.onReservation retained reservation method) handle call := by
  rw [StepSafe, onReservation, Prog.Safe.bind_iff]
  refine Prog.Safe.mono (method.act_safe retained [] hwf (hmem ▸ hheld)) ?_
  rintro ⟨e | left, ring'⟩ log h
  · exact nomatch e
  · rintro _ rfl
    exact ⟨h.silent _ log, h.held⟩

theorem stepSafe_finished {reservation : ProducerReservation} (method : Method)
    (hfinished : reservation.finished = true) :
    StepSafe retained (handle.onRing (method.act retained reservation)) handle call := by
  rw [StepSafe, onRing, Prog.Safe.bind_iff]
  refine Prog.Safe.mono (method.act_finished retained handle.ring [] hfinished) ?_
  rintro ⟨e | left, ring'⟩ log h
  · exact nomatch e
  · rintro _ rfl
    obtain rfl : ring' = handle.ring := h
    exact ⟨Silent.unchanged rfl rfl _ _, hheld⟩

theorem stepSafe_takeReclaimed : StepSafe retained (handle.takeReclaimed retained) handle call := by
  rw [StepSafe, takeReclaimed, Prog.Safe.bind_iff]
  refine Prog.Safe.mono (Ring.within_drainReturns retained handle.ring []) ?_
  rintro ⟨_ | _, ring'⟩ log h
  all_goals
    rintro _ rfl
    exact ⟨.of_reclaims h, Held.of_eq hheld h.reserved_eq⟩

theorem stepSafe_nextReclaimed : StepSafe retained handle.nextReclaimed handle call := by
  unfold StepSafe nextReclaimed
  split
  · rename_i block ring' hnext
    rintro _ rfl
    refine ⟨.settles hnext, Held.of_eq hheld ?_⟩
    obtain ⟨rest, -, rfl⟩ := Ring.nextReclaimed_eq_some hnext
    rfl
  · rename_i hnext
    rintro _ rfl
    exact ⟨.drains (Vec.pop_eq_none (Option.map_eq_none_iff.mp hnext)), hheld⟩

/-- What a step can do: the inversion lemma of the machine. -/
theorem Step.effect (h : handle.Step retained call log event handle')
    (hwf : handle.ring.Wf retained.geometry) :
    Effect retained.geometry (handle.LosesReturn retained log call) log handle.ring event
        handle'.ring ∧
      Held handle'.ring handle'.reservation := by
  obtain ⟨p, hprog, hrun⟩ := h
  suffices hsafe : StepSafe retained p handle call from Prog.Safe.of_runs hsafe hrun
  cases call with
  | tryReserveIn inventory bound wireHeader =>
    obtain rfl := Option.some.inj hprog
    exact stepSafe_tryReserveIn retained hheld inventory bound wireHeader hwf
  | held method =>
    obtain ⟨reservation, hmem, rfl⟩ := Option.map_eq_some_iff.mp hprog
    exact stepSafe_onReservation retained hheld method hwf hmem
  | finished reservation method =>
    rw [Handle.prog] at hprog
    split_ifs at hprog with hfinished
    obtain rfl := Option.some.inj hprog
    exact stepSafe_finished retained hheld method hfinished
  | inventory =>
    obtain rfl := Option.some.inj hprog
    exact stepSafe_onRing retained hheld (Ring.within_inventory retained)
  | probe =>
    obtain rfl := Option.some.inj hprog
    exact stepSafe_onRing retained hheld (Ring.within_probe retained)
  | takeReclaimed =>
    obtain rfl := Option.some.inj hprog
    exact stepSafe_takeReclaimed retained hheld
  | nextReclaimed =>
    rw [Handle.prog] at hprog
    split_ifs at hprog
    obtain rfl := Option.some.inj hprog
    exact stepSafe_nextReclaimed retained hheld

end Handle

end Eidnara.ShmTransport
