import Eidnara.ShmTransport.Ring.Integrity

/-!
# Settlement of returns

A return is pending from the moment its block is freed until `take_reclaimed` passes the
block to its callback or a reservation reuses the block.  The list `reclaimed` holds the
pending returns, except that a reservation refused after it took a block loses the
block's return.
-/

namespace Eidnara.ShmTransport

open Lib List

def pendingAfter (pending : List Nat) : Event → List Nat
  | .returned block => block :: pending
  | .reserved block _ | .settled block => pending.filter (· ≠ block)
  | .drained => pending

/-- What an event asks of the pending returns: a block is returned only if it has no
pending return, settled only if it has one, and nothing is pending after a drain. -/
def Permits (pending : List Nat) : Event → Prop
  | .returned block => block ∉ pending
  | .reserved _ _ => True
  | .settled block => block ∈ pending
  | .drained => pending = []

instance (pending : List Nat) : (event : Event) → Decidable (Permits pending event)
  | .returned block => inferInstanceAs (Decidable (block ∉ pending))
  | .reserved _ _ => inferInstanceAs (Decidable True)
  | .settled block => inferInstanceAs (Decidable (block ∈ pending))
  | .drained => inferInstanceAs (Decidable (pending = []))

/-- Every return is settled or reused exactly once, and none is left out by a drain. -/
def ExactlyOnce : List Nat → List Event → Prop
  | _, [] => True
  | pending, event :: events =>
    Permits pending event ∧ ExactlyOnce (pendingAfter pending event) events

instance : (pending : List Nat) → (events : List Event) → Decidable (ExactlyOnce pending events)
  | _, [] => inferInstanceAs (Decidable True)
  | pending, event :: events =>
    have : Decidable (ExactlyOnce (pendingAfter pending event) events) :=
      instDecidableExactlyOnce _ events
    inferInstanceAs (Decidable (_ ∧ _))

theorem exactlyOnce_append {pending : List Nat} {events events' : List Event} :
    ExactlyOnce pending (events ++ events') ↔
      ExactlyOnce pending events ∧ ExactlyOnce (events.foldl pendingAfter pending) events' := by
  induction events generalizing pending with
  | nil => simp [ExactlyOnce]
  | cons event events ih =>
    rw [cons_append, ExactlyOnce, ExactlyOnce, ih, foldl_cons, and_assoc]

theorem exactlyOnce_returned {pending blocks : List Nat} (hnodup : blocks.Nodup)
    (hfresh : ∀ block ∈ blocks, block ∉ pending) :
    ExactlyOnce pending (blocks.map .returned) ∧
      ∀ block, block ∈ (blocks.map Event.returned).foldl pendingAfter pending ↔
        block ∈ pending ∨ block ∈ blocks := by
  induction blocks generalizing pending with
  | nil => simp [ExactlyOnce]
  | cons first blocks ih =>
    obtain ⟨hfirst, hrest⟩ := nodup_cons.mp hnodup
    obtain ⟨honce, hmem⟩ := @ih (first :: pending) hrest (by
      intro block hblock
      rw [mem_cons, not_or]
      exact ⟨fun heq => hfirst (heq ▸ hblock), hfresh block (mem_cons_of_mem _ hblock)⟩)
    refine ⟨⟨hfresh first mem_cons_self, honce⟩, fun block => ?_⟩
    rw [map_cons, foldl_cons, pendingAfter, hmem, mem_cons, mem_cons]
    tauto

/-! ## Steps -/

def Event.Ends (block : Nat) : Event → Prop
  | .reserved other _ | .settled other => other = block
  | .returned _ | .drained => False

/-- What happens to the unsettled returns in a step: those of the step join, and the one
the event ends leaves. -/
theorem Effect.mem_reclaimed {geometry : PoolGeometry} {lossy : Prop} {log : List Answer}
    {ring ring' : Ring} {event : Option Event} (h : Effect geometry lossy log ring event ring')
    (hkeeps : ¬ lossy) (hwf : ring.Wf geometry) (block : Nat) :
    block ∈ ring'.ledger.reclaimed ↔
      (block ∈ ring.ledger.reclaimed ∨
        (block < geometry.blockCount ∧ ring.ledger.states block = .published ∧
          ring'.ledger.states block ≠ .published)) ∧
      ∀ shown ∈ event, ¬ shown.Ends block := by
  cases h with
  | reclaims h₁ _ hledger _ =>
    obtain ⟨_, hledger⟩ := hledger
    rw [hledger]
    simpa using h₁.frees.mem_reclaimed hwf block
  | loses hlossy => exact absurd hlossy hkeeps
  | @reserves _ ring₁ _ reservation h₁ _ _ htakes =>
    obtain ⟨blockClass, rest, hpop, hledger⟩ := htakes.popped
    have hwf₁ := h₁.wf hwf
    have hmem := h₁.frees.mem_reclaimed hwf block
    rw [hledger]
    simp only [ProducerLedger.takeFree, Vec.mem_removeValue hwf₁.nodup_reclaimed,
      Option.mem_def, Option.some.injEq, forall_eq', Event.Ends]
    by_cases heq : block = reservation.block
    · simp [heq]
    · rw [hmem, Function.update_of_ne heq]
      simp [heq, Ne.symm heq]
  | @aborts _ other _ hreserved _ hledger _ =>
    have hstate := ((hwf.reserved_iff other).mp hreserved).2
    rw [hledger]
    simp only [ProducerLedger.pushFree, ProducerLedger.setState]
    by_cases heq : block = other
    · simp [heq, hstate]
    · simp [Function.update_of_ne heq]
  | @publishes _ other hreserved hledger _ =>
    rw [hledger]
    simp only [ProducerLedger.setState]
    by_cases heq : block = other
    · simp [heq]
    · simp [Function.update_of_ne heq]
  | @settles _ other hnext =>
    obtain ⟨rest, hsplit, rfl⟩ := Ring.nextReclaimed_eq_some hnext
    have hnodup := hwf.nodup_reclaimed
    rw [hsplit, nodup_append] at hnodup
    simp only [hsplit, Option.mem_def, Option.some.injEq, forall_eq', Event.Ends]
    grind
  | drains hempty => simp [hempty]

section

variable {retained : Retained} {handle handle' : Handle} {call : Call} {log : List Answer}
  {event : Option Event}

theorem mem_returnedBlocks {block : Nat} :
    block ∈ handle.returnedBlocks retained handle' ↔
      block < retained.geometry.blockCount ∧ handle.ring.ledger.states block = .published ∧
        handle'.ring.ledger.states block ≠ .published := by
  simp [Handle.returnedBlocks]

theorem Effect.event_ok {geometry : PoolGeometry} {lossy : Prop} {ring ring' : Ring}
    (h : Effect geometry lossy log ring event ring') :
    ∀ shown ∈ event, match shown with
      | .returned _ => False
      | .reserved _ _ => True
      | .settled block => block ∈ ring.ledger.reclaimed
      | .drained => ring.ledger.reclaimed = [] ∧ ring' = ring := by
  cases h with
  | reserves => rintro _ ⟨⟩; trivial
  | settles hnext =>
    rintro _ ⟨⟩
    obtain ⟨rest, hsplit, -⟩ := Ring.nextReclaimed_eq_some hnext
    rw [hsplit]
    exact mem_append_right rest (mem_singleton_self _)
  | drains hempty => rintro _ ⟨⟩; exact ⟨hempty, rfl⟩
  | _ => nofun

theorem mem_pendingAfter {pending : List Nat} {shown : Event}
    (hshown : ∀ block, shown ≠ .returned block) (block : Nat) :
    block ∈ pendingAfter pending shown ↔ block ∈ pending ∧ ¬ shown.Ends block := by
  cases shown with
  | returned other => exact absurd rfl (hshown other)
  | reserved other generation | settled other =>
      simp [pendingAfter, Event.Ends, @eq_comm _ other block]
  | drained => simp [pendingAfter, Event.Ends]

theorem exactlyOnce_step {pending : List Nat} {lossy : Prop} (hkeeps : ¬ lossy)
    (hpending : ∀ block, block ∈ pending ↔ block ∈ handle.ring.ledger.reclaimed)
    (hwf : handle.ring.Wf retained.geometry)
    (heffect : Effect retained.geometry lossy log handle.ring event handle'.ring) :
    ExactlyOnce pending ((handle.returnedBlocks retained handle').map .returned ++ event.toList) ∧
      ∀ block, block ∈ ((handle.returnedBlocks retained handle').map Event.returned ++
        event.toList).foldl pendingAfter pending ↔ block ∈ handle'.ring.ledger.reclaimed := by
  have hfresh : ∀ block ∈ handle.returnedBlocks retained handle', block ∉ pending := by
    intro block hblock hmem
    have hfree := (hwf.mem_reclaimed block ((hpending block).mp hmem)).2
    rw [(mem_returnedBlocks.mp hblock).2.1] at hfree
    cases hfree
  have hnodup : (handle.returnedBlocks retained handle').Nodup := nodup_range.filter _
  obtain ⟨honce, hmem⟩ := exactlyOnce_returned hnodup hfresh
  have hreclaimed := heffect.mem_reclaimed hkeeps hwf
  have hevent := heffect.event_ok
  rw [exactlyOnce_append, foldl_append]
  simp only [hpending, mem_returnedBlocks] at hmem
  cases event with
  | none =>
    refine ⟨⟨honce, trivial⟩, fun block => ?_⟩
    rw [Option.toList_none, foldl_nil, hmem, hreclaimed]
    simp
  | some shown =>
    have hshown := hevent shown rfl
    have hsilent : ∀ block, shown ≠ .returned block := by
      rintro block rfl
      exact hshown
    refine ⟨⟨honce, ?_, trivial⟩, fun block => ?_⟩
    · cases shown with
      | returned other => exact hshown.elim
      | reserved other generation => trivial
      | settled other => exact (hmem other).mpr (.inl hshown)
      | drained =>
        obtain ⟨hempty, hsame⟩ := hshown
        rw [Permits, eq_nil_iff_forall_not_mem]
        intro block
        rw [hmem, hempty, hsame]
        simp
    · rw [Option.toList_some, foldl_cons, foldl_nil, mem_pendingAfter hsilent, hmem,
        hreclaimed]
      simp

end

/-! ## Runs -/

def KeepsReturns (retained : Retained) (handle : Handle) (call : Call) (log : List Answer) : Prop :=
  ¬ handle.LosesReturn retained log call

theorem exactlyOnce_run {retained : Retained} {published consumed : Nat} {events : List Event}
    {handle : Handle}
    (h : Handle.ReachesWhere retained (KeepsReturns retained) (.attach retained published consumed)
      events handle) :
    ExactlyOnce [] events ∧
      ∀ block, block ∈ events.foldl pendingAfter [] ↔ block ∈ handle.ring.ledger.reclaimed := by
  induction h with
  | start => exact ⟨trivial, fun _ => Iff.rfl⟩
  | @step events handle handle' call log event hreaches hkeeps hstep ih =>
    have hsound := hreaches.sound
    obtain ⟨heffect, -⟩ := hstep.effect retained hsound.held hsound.wf
    obtain ⟨honce, hmem⟩ := exactlyOnce_step hkeeps ih.2 hsound.wf heffect
    rw [append_assoc, exactlyOnce_append, foldl_append]
    exact ⟨⟨ih.1, honce⟩, hmem⟩

/-- In every run whose reservations lose no return, each return is settled or reused
exactly once; and a block is settled only while it is free. -/
theorem settled_exactly_once (retained : Retained) (published consumed : Nat)
    {events : List Event} {handle : Handle}
    (h : Handle.ReachesWhere retained (KeepsReturns retained) (.attach retained published consumed)
      events handle) :
    ExactlyOnce [] events ∧
      ∀ call log block handle', handle.Step retained call log (some (.settled block)) handle' →
        handle.ring.ledger.states block = .free := by
  refine ⟨(exactlyOnce_run h).1, ?_⟩
  intro call log block handle' hstep
  have hsound := h.sound
  obtain ⟨heffect, -⟩ := hstep.effect retained hsound.held hsound.wf
  exact (hsound.wf.mem_reclaimed block (heffect.event_ok _ rfl)).2

theorem Ring.not_losesReturn {retained : Retained} {inventory : Inventory} {bound : Nat}
    {ring : Ring} {log : List Answer} (hwf : ring.Wf retained.geometry)
    (hsettled : ring.ledger.reclaimed = [])
    (hstates : ∀ block, ring.ledger.states block ≠ .published) :
    ¬ ring.LosesReturn retained inventory bound log := by
  rintro ⟨ring₁, log₁, log₂, blockClass, rest, block, hrun, -, -, -, hmem, -⟩
  have hreclaims := (Prog.Safe.of_runs (admitReservation_safe retained bound ring []) hrun).1
  rw [hreclaims.frees.mem_reclaimed hwf, hsettled] at hmem
  rcases hmem with hmem | ⟨-, hpublished, -⟩
  · exact not_mem_nil hmem
  · exact hstates block hpublished

/-- The return of `returnedOnce`, settled by a drain. -/
def settledOnce : List (Call × List Answer) :=
  returnedOnce ++ [(.takeReclaimed, [⟨.loadFlag, (0 : Nat)⟩, ⟨.swapReturn 0, (0 : Nat)⟩]),
    (.nextReclaimed, []), (.nextReclaimed, [])]

theorem settled_exactly_once_settledOnce : ∃ handle,
    Handle.ReachesWhere .small (KeepsReturns .small) (.attach .small 0 0)
        [.reserved 0 1, .returned 0, .settled 0, .drained] handle ∧
      ExactlyOnce [] [.reserved 0 1, .returned 0, .settled 0, .drained] := by
  have hreplay : ((Handle.attach .small 0 0).replay .small settledOnce).map Prod.fst =
      some [.reserved 0 1, .returned 0, .settled 0, .drained] := by
    decide +kernel
  obtain ⟨⟨events, last⟩, hrun, hevents⟩ := Option.map_eq_some_iff.mp hreplay
  obtain ⟨event, handle, events', hstep, hrest, heq⟩ := Handle.step_of_replay .small hrun
  have hkeeps (log : List Answer) : KeepsReturns .small (.attach .small 0 0)
      (.tryReserveIn .ordinary 0 (.replicate 20 0)) log :=
    Ring.not_losesReturn (Handle.sound_attach .small 0 0).wf rfl (fun _ h => nomatch h)
  have hfirst := Handle.ReachesWhere.start.step (hkeeps _) hstep
  -- The calls after the first never lose a return.
  have hother : ∀ entry ∈ settledOnce.tail, ∀ handle,
      KeepsReturns .small handle entry.1 entry.2 := by
    simp [settledOnce, returnedOnce, KeepsReturns, Handle.LosesReturn]
  have hreaches := Handle.reaches_of_replay .small hfirst hother hrest
  rw [nil_append, ← heq, show events = _ from hevents] at hreaches
  exact ⟨last, hreaches, (settled_exactly_once .small 0 0 hreaches).1⟩

/-- The return of `returnedOnce`, lost: a forged cell refuses the next reservation of the
block, which fails, and the drain after it finds nothing to settle. -/
def lostOnce : List (Call × List Answer) :=
  returnedOnce ++ [(.tryReserveIn .ordinary 0 (.replicate 20 0),
      [⟨.loadFlag, (0 : Nat)⟩, ⟨.swapReturn 0, (0 : Nat)⟩, ⟨.loadConsumed, (1 : Nat)⟩,
        ⟨.loadCell 0, (2 : Nat)⟩, ⟨.storeFlag, ()⟩, ⟨.bumpGeneration .data, ()⟩,
        ⟨.swapParked .data, (0 : Nat)⟩, ⟨.bumpGeneration .capacity, ()⟩,
        ⟨.swapParked .capacity, (0 : Nat)⟩]),
    (.takeReclaimed, []), (.nextReclaimed, [])]

theorem not_exactlyOnce_lostOnce : ∃ events handle,
    Handle.Reaches .small (.attach .small 0 0) events handle ∧ ¬ ExactlyOnce [] events := by
  have hreplay : ((Handle.attach .small 0 0).replay .small lostOnce).map Prod.fst =
      some [.reserved 0 1, .returned 0, .drained] := by
    decide +kernel
  obtain ⟨⟨events, handle⟩, hrun, rfl⟩ := Option.map_eq_some_iff.mp hreplay
  exact ⟨_, handle, Handle.reaches_of_replay .small .start (fun _ _ _ => trivial) hrun, by decide⟩

end Eidnara.ShmTransport
