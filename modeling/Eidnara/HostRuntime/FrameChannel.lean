import Eidnara.Lib.Runs
import Mathlib.Data.List.Nodup

/-!
# Finishing a frame writer

`frame_channel.rs`: senders reserve a slot of the bounded queue, take the admission lock shared,
check that the writer is not retired and push.  `finish` retires the writer, and the endpoint
drains: an empty queue proves nothing until the endpoint has held the admission lock alone.
-/

namespace Eidnara.HostRuntime.FrameChannel

open Lib List

variable {Frame : Type}

inductive Stage (Frame : Type)
  | unused
  | waiting (frame : Frame)
  | reserved (frame : Frame)
  /-- Holds the admission lock shared. -/
  | admitted (frame : Frame)
  /-- Has found the writer not retired. -/
  | checked (frame : Frame)
  | pushed (frame : Frame)
  | returnedOk (frame : Frame)
  | returnedErr
  deriving DecidableEq, Repr

inductive Endpoint
  | idle
  /-- `drain_finished` found the queue empty and waits for the exclusive lock. -/
  | draining
  | exclusive
  deriving DecidableEq, Repr

structure State (Frame : Type) where
  /-- Free slots of the queue. -/
  available : Nat
  queue : List (Nat × Frame)
  retired : Bool
  generationCancelled : Bool
  /-- Calls of `finish` between its two cancellations. -/
  finishing : Nat
  finish : Bool
  calls : Nat → Stage Frame
  /-- The calls that hold the admission lock shared. -/
  readers : List Nat
  endpoint : Endpoint
  /-- What was pushed and what the endpoint was given, each frame with its call. -/
  pushed : List (Nat × Frame)
  received : List (Nat × Frame)
  /-- `drain_finished` has returned `None`. -/
  drained : Bool

/-- `frame_sender` with room for `queueFrames` frames. -/
def State.new (queueFrames : Nat) : State Frame where
  available := queueFrames
  queue := []
  retired := false
  generationCancelled := false
  finishing := 0
  finish := false
  calls _ := .unused
  readers := []
  endpoint := .idle
  pushed := []
  received := []
  drained := false

inductive Move (Frame : Type)
  | send (frame : Frame)
  /-- The future is dropped while it waits for a slot. -/
  | abandon
  | refuse
  | expire
  | reserve
  | lockShared
  | check
  | push
  | ret
  deriving DecidableEq, Repr

inductive Event (Frame : Type)
  | call (call : Nat) (move : Move Frame)
  | finishRetire
  | finishSignal
  | recv
  | tryRecv
  | drainFirst
  | drainLock
  | drainSecond
  deriving DecidableEq, Repr

namespace State

def setCall (s : State Frame) (call : Nat) (stage : Stage Frame) : State Frame :=
  { s with calls := Function.update s.calls call stage }

def pop (s : State Frame) : Option (State Frame) :=
  match s.queue with
  | [] => none
  | frame :: rest =>
    some { s with
      queue := rest, received := s.received ++ [frame], available := s.available + 1 }

end State

def callStep (s : State Frame) (call : Nat) (move : Move Frame) : Option (State Frame) :=
  match s.calls call, move with
  | .unused, .send frame => some (s.setCall call (.waiting frame))
  | .waiting _, .abandon => some (s.setCall call .returnedErr)
  | .waiting _, .refuse => if s.retired then some (s.setCall call .returnedErr) else none
  | .waiting _, .expire =>
    some { s.setCall call .returnedErr with retired := true, generationCancelled := true }
  | .waiting frame, .reserve =>
    if 0 < s.available then
      some { s.setCall call (.reserved frame) with available := s.available - 1 }
    else none
  | .reserved frame, .lockShared =>
    if s.endpoint ≠ .exclusive then
      some { s.setCall call (.admitted frame) with readers := call :: s.readers }
    else none
  | .admitted frame, .check =>
    if s.retired then
      -- The permit and the lock are given back.
      some { s.setCall call .returnedErr with
        available := s.available + 1, readers := s.readers.erase call }
    else some (s.setCall call (.checked frame))
  | .checked frame, .push =>
    some { s.setCall call (.pushed frame) with
      queue := s.queue ++ [(call, frame)], pushed := s.pushed ++ [(call, frame)] }
  | .pushed frame, .ret =>
    some { s.setCall call (.returnedOk frame) with readers := s.readers.erase call }
  | _, _ => none

def step (s : State Frame) : Event Frame → Option (State Frame)
  | .call call move => callStep s call move
  | .finishRetire => some { s with retired := true, finishing := s.finishing + 1 }
  | .finishSignal =>
    if 0 < s.finishing then some { s with finish := true, finishing := s.finishing - 1 } else none
  | .recv => if s.endpoint = .idle then s.pop else none
  | .tryRecv => if s.endpoint = .idle then some (s.pop.getD s) else none
  | .drainFirst =>
    if s.endpoint = .idle ∧ s.finish = true then
      some (s.pop.getD { s with endpoint := .draining })
    else none
  | .drainLock =>
    if s.endpoint = .draining ∧ s.readers = [] then some { s with endpoint := .exclusive }
    else none
  | .drainSecond =>
    if s.endpoint = .exclusive then
      some { s.pop.getD { s with drained := true } with endpoint := .idle }
    else none

/-! ## What every step keeps -/

def Stage.holdsLock : Stage Frame → Bool
  | .admitted _ | .checked _ | .pushed _ => true
  | _ => false

def Stage.pushedFrame : Stage Frame → Option Frame
  | .pushed frame | .returnedOk frame => some frame
  | _ => none

structure State.Inv (s : State Frame) : Prop where
  fifo : s.received ++ s.queue = s.pushed
  nodup : (s.pushed.map Prod.fst).Nodup
  pushed : ∀ call frame, (call, frame) ∈ s.pushed ↔ (s.calls call).pushedFrame = some frame
  readersNodup : s.readers.Nodup
  readers : ∀ call, call ∈ s.readers ↔ (s.calls call).holdsLock = true
  retired : s.finish = true ∨ 0 < s.finishing → s.retired = true
  draining : s.endpoint ≠ .idle → s.retired = true
  exclusive : s.endpoint = .exclusive → s.readers = []
  drained : s.drained = true →
    s.retired = true ∧ s.queue = [] ∧ ∀ call frame, s.calls call ≠ .checked frame

theorem inv_new (queueFrames : Nat) : (State.new queueFrames : State Frame).Inv where
  fifo := rfl
  nodup := nodup_nil
  pushed := by simp [State.new, Stage.pushedFrame]
  readersNodup := nodup_nil
  readers := by simp [State.new, Stage.holdsLock]
  retired := by simp [State.new]
  draining := by simp [State.new]
  exclusive := by simp [State.new]
  drained := by simp [State.new]

variable {s s' : State Frame} {call : Nat} {frame : Frame}

theorem State.Inv.setCall (h : s.Inv) {stage : Stage Frame}
    (hpushed : stage.pushedFrame = (s.calls call).pushedFrame)
    (hlock : stage.holdsLock = (s.calls call).holdsLock)
    (hchecked : s.retired = true → ∀ frame, stage ≠ .checked frame) :
    (s.setCall call stage).Inv := by
  obtain ⟨hfifo, hnodup, hpushedAll, hreadersNodup, hreaders, hretired, hdraining, hexclusive,
    hdrained⟩ := h
  refine ⟨hfifo, hnodup, ?_, hreadersNodup, ?_, hretired, hdraining, hexclusive, ?_⟩
  · simp only [State.setCall, Function.update_apply]
    grind
  · simp only [State.setCall, Function.update_apply]
    grind
  · simp only [State.setCall, Function.update_apply]
    grind

theorem State.Inv.pop (h : s.Inv) (hpop : s.pop = some s') : s'.Inv := by
  unfold State.pop at hpop
  split at hpop
  · cases hpop
  · rename_i head rest hqueue
    obtain rfl := Option.some.inj hpop
    refine ⟨?_, h.nodup, h.pushed, h.readersNodup, h.readers, h.retired, h.draining, h.exclusive,
      fun hdrained => ?_⟩
    · simpa [hqueue] using h.fifo
    · have hempty := (h.drained hdrained).2.1
      rw [hqueue] at hempty
      cases hempty

theorem State.Inv.pop_getD (h : s.Inv) {other : State Frame} (hother : s.queue = [] → other.Inv) :
    (s.pop.getD other).Inv := by
  cases hpop : s.pop with
  | some s' => exact h.pop hpop
  | none =>
    refine hother ?_
    unfold State.pop at hpop
    split at hpop
    · assumption
    · cases hpop

theorem inv_expire (h : s.Inv) (hcall : s.calls call = .waiting frame) :
    State.Inv
      { s.setCall call .returnedErr with retired := true, generationCancelled := true } := by
  have hset : (s.setCall call .returnedErr).Inv :=
    h.setCall (by rw [hcall]; rfl) (by rw [hcall]; rfl) (by simp)
  exact { hset with
    retired := fun _ => rfl
    draining := fun _ => rfl
    drained := fun hdrained => ⟨rfl, (hset.drained hdrained).2⟩ }

theorem inv_reserve (h : s.Inv) (hcall : s.calls call = .waiting frame) (available : Nat) :
    State.Inv { s.setCall call (.reserved frame) with available } := by
  have hset : (s.setCall call (.reserved frame)).Inv :=
    h.setCall (by rw [hcall]; rfl) (by rw [hcall]; rfl) (by simp)
  exact { hset with }

theorem inv_admit (h : s.Inv) (hcall : s.calls call = .reserved frame)
    (hshared : s.endpoint ≠ .exclusive) :
    State.Inv { s.setCall call (.admitted frame) with readers := call :: s.readers } := by
  obtain ⟨hfifo, hnodup, hpushed, hreadersNodup, hreaders, hretired, hdraining, hexclusive,
    hdrained⟩ := h
  have hnot : call ∉ s.readers := by
    rw [hreaders, hcall]
    simp [Stage.holdsLock]
  refine ⟨hfifo, hnodup, ?_, nodup_cons.mpr ⟨hnot, hreadersNodup⟩, ?_, hretired, hdraining,
    fun hendpoint => absurd hendpoint hshared, ?_⟩
  · simp only [State.setCall, Function.update_apply]
    grind [Stage.pushedFrame]
  · simp only [State.setCall, Function.update_apply]
    grind [Stage.holdsLock]
  · simp only [State.setCall, Function.update_apply]
    grind

theorem inv_unlock (h : s.Inv) {stage : Stage Frame} (hlock : stage.holdsLock = false)
    (hpushed : stage.pushedFrame = (s.calls call).pushedFrame)
    (hchecked : ∀ frame, stage ≠ .checked frame) (available : Nat) :
    State.Inv { s.setCall call stage with available, readers := s.readers.erase call } := by
  obtain ⟨hfifo, hnodup, hpushedAll, hreadersNodup, hreaders, hretired, hdraining, hexclusive,
    hdrained⟩ := h
  refine ⟨hfifo, hnodup, ?_, hreadersNodup.erase _, ?_, hretired, hdraining, ?_, ?_⟩
  · simp only [State.setCall, Function.update_apply]
    grind
  · intro other
    simp only [State.setCall, Function.update_apply, hreadersNodup.mem_erase_iff]
    grind
  · intro hendpoint
    simp [hexclusive hendpoint]
  · simp only [State.setCall, Function.update_apply]
    grind

theorem inv_push (h : s.Inv) (hcall : s.calls call = .checked frame) :
    State.Inv { s.setCall call (.pushed frame) with
      queue := s.queue ++ [(call, frame)], pushed := s.pushed ++ [(call, frame)] } := by
  obtain ⟨hfifo, hnodup, hpushed, hreadersNodup, hreaders, hretired, hdraining, hexclusive,
    hdrained⟩ := h
  have hfresh : call ∉ s.pushed.map Prod.fst := by
    intro hmem
    obtain ⟨⟨call', frame'⟩, hmem', rfl⟩ := mem_map.mp hmem
    have hframe := (hpushed _ _).mp hmem'
    rw [hcall] at hframe
    cases hframe
  refine ⟨?_, ?_, ?_, hreadersNodup, ?_, hretired, hdraining, hexclusive, ?_⟩
  · rw [← hfifo, append_assoc]
    rfl
  · rw [map_append, nodup_append]
    refine ⟨hnodup, nodup_singleton _, fun a ha b hb heq => ?_⟩
    rw [map_singleton, mem_singleton] at hb
    rw [heq, hb] at ha
    exact hfresh ha
  · intro other frame'
    simp only [State.setCall, Function.update_apply, mem_append, mem_singleton]
    grind [Stage.pushedFrame]
  · simp only [State.setCall, Function.update_apply]
    grind [Stage.holdsLock]
  · -- A drained writer has no call between its check and its push.
    exact fun hdone => absurd hcall ((hdrained hdone).2.2 call frame)

theorem inv_drainSecond (h : s.Inv) (hexclusive : s.endpoint = .exclusive) :
    State.Inv { s.pop.getD { s with drained := true } with endpoint := .idle } := by
  have hretired : s.retired = true := h.draining (by rw [hexclusive]; decide)
  have hreaders := h.exclusive hexclusive
  have hinv : (s.pop.getD { s with drained := true }).Inv := by
    refine h.pop_getD fun hempty => ?_
    refine { h with drained := fun _ => ⟨hretired, hempty, fun call frame hchecked => ?_⟩ }
    have hmem : call ∈ s.readers := (h.readers call).mpr (by rw [hchecked]; rfl)
    rw [hreaders] at hmem
    cases hmem
  exact { hinv with
    draining := fun hne => absurd rfl hne
    exclusive := fun heq => by cases heq }

theorem inv_callStep {move : Move Frame} (hstep : callStep s call move = some s') (h : s.Inv) :
    s'.Inv := by
  unfold callStep at hstep
  split at hstep
  case h_1 hcall =>
    obtain rfl := Option.some.inj hstep
    exact h.setCall (by rw [hcall]; rfl) (by rw [hcall]; rfl) (by simp)
  case h_2 hcall =>
    obtain rfl := Option.some.inj hstep
    exact h.setCall (by rw [hcall]; rfl) (by rw [hcall]; rfl) (by simp)
  case h_3 hcall =>
    obtain ⟨-, rfl⟩ := guarded_eq_some hstep
    exact h.setCall (by rw [hcall]; rfl) (by rw [hcall]; rfl) (by simp)
  case h_4 hcall =>
    obtain rfl := Option.some.inj hstep
    exact inv_expire h hcall
  case h_5 hcall =>
    obtain ⟨-, rfl⟩ := guarded_eq_some hstep
    exact inv_reserve h hcall _
  case h_6 hcall =>
    obtain ⟨hshared, rfl⟩ := guarded_eq_some hstep
    exact inv_admit h hcall hshared
  case h_7 hcall =>
    split_ifs at hstep with hretired
    · obtain rfl := Option.some.inj hstep
      exact inv_unlock h rfl (by rw [hcall]; rfl) (by simp) _
    · obtain rfl := Option.some.inj hstep
      exact h.setCall (by rw [hcall]; rfl) (by rw [hcall]; rfl) (fun hyes => absurd hyes hretired)
  case h_8 hcall =>
    obtain rfl := Option.some.inj hstep
    exact inv_push h hcall
  case h_9 hcall =>
    obtain rfl := Option.some.inj hstep
    exact inv_unlock h rfl (by rw [hcall]; rfl) (by simp) _
  case h_10 => cases hstep

variable {e : Event Frame}

theorem inv_step (hstep : step s e = some s') (h : s.Inv) : s'.Inv := by
  cases e with
  | call call move => exact inv_callStep hstep h
  | finishRetire =>
    obtain rfl := Option.some.inj hstep
    exact { h with
      retired := fun _ => rfl
      draining := fun _ => rfl
      drained := fun hdrained => ⟨rfl, (h.drained hdrained).2⟩ }
  | finishSignal =>
    obtain ⟨hfinishing, rfl⟩ := guarded_eq_some hstep
    exact { h with retired := fun _ => h.retired (.inr hfinishing) }
  | recv =>
    simp only [step] at hstep
    split_ifs at hstep
    exact h.pop hstep
  | tryRecv =>
    obtain ⟨-, rfl⟩ := guarded_eq_some hstep
    exact h.pop_getD fun _ => h
  | drainFirst =>
    obtain ⟨⟨-, hfinish⟩, rfl⟩ := guarded_eq_some hstep
    exact h.pop_getD fun _ => { h with
      draining := fun _ => h.retired (.inl hfinish)
      exclusive := fun heq => by cases heq }
  | drainLock =>
    obtain ⟨⟨hdraining, hreaders⟩, rfl⟩ := guarded_eq_some hstep
    exact { h with
      draining := fun _ => h.draining (by rw [hdraining]; decide)
      exclusive := fun _ => hreaders }
  | drainSecond =>
    obtain ⟨hexclusive, rfl⟩ := guarded_eq_some hstep
    exact inv_drainSecond h hexclusive

/-! ## Runs -/

theorem drained_step (hstep : step s e = some s') (h : s.Inv ∧ s.drained = true) :
    (s'.Inv ∧ s'.drained = true) ∧ s'.received = s.received := by
  obtain ⟨hinv, hdrained⟩ := h
  obtain ⟨-, hqueue, -⟩ := hinv.drained hdrained
  have hpop : s.pop = none := by simp [State.pop, hqueue]
  have hinv' := inv_step hstep hinv
  cases e with
  | call call move =>
    simp only [step, callStep] at hstep
    split at hstep <;> grind [State.setCall]
  | _ => grind [step]

theorem exists_stage_of_callStep {move : Move Frame} (hstep : callStep s call move = some s') :
    ∃ stage, s'.calls = Function.update s.calls call stage := by
  unfold callStep at hstep
  split at hstep
  all_goals
    try split_ifs at hstep
    all_goals
      cases hstep
      try exact ⟨_, rfl⟩

theorem returnedErr_step (hstep : step s e = some s') (herr : s.calls call = .returnedErr) :
    s'.calls call = .returnedErr := by
  cases e with
  | call other move =>
    by_cases hother : call = other
    · subst hother
      simp [step, callStep, herr] at hstep
    · obtain ⟨stage, hcalls⟩ := exists_stage_of_callStep hstep
      rw [hcalls, Function.update_of_ne hother, herr]
  | _ => grind [step, State.pop]

/-- In every run the endpoint is given the pushed frames in order and once each, a send that
returned `Ok` pushed its frame and one that returned `Err` did not; and once `drain_finished` has
returned `None`, every frame a send has or will have returned `Ok` for was received. -/
theorem finished_writer_loses_nothing (queueFrames : Nat) {events : List (Event Frame)}
    (h : runEvents step (.new queueFrames) events = some s) :
    (∃ rest, s.received ++ rest = s.pushed) ∧ (s.pushed.map Prod.fst).Nodup ∧
      (∀ call frame, s.calls call = .returnedOk frame → (call, frame) ∈ s.received ++ s.queue) ∧
      (∀ call, s.calls call = .returnedErr → ∀ later s', runEvents step s later = some s' →
        call ∉ s'.received.map Prod.fst) ∧
      (s.drained = true → ∀ later s', runEvents step s later = some s' →
        s'.received = s.received ∧
          ∀ call frame, s'.calls call = .returnedOk frame → (call, frame) ∈ s.received) := by
  have hinv : s.Inv := runEvents_invariant inv_step (inv_new queueFrames) h
  refine ⟨⟨s.queue, hinv.fifo⟩, hinv.nodup, ?_, ?_, ?_⟩
  · intro call frame hok
    rw [hinv.fifo, hinv.pushed, hok]
    rfl
  · intro call herr later s' hlater hmem
    have hinv' : s'.Inv := runEvents_invariant inv_step hinv hlater
    have herr' : s'.calls call = .returnedErr :=
      runEvents_invariant (P := fun s : State Frame => s.calls call = .returnedErr)
        returnedErr_step herr hlater
    obtain ⟨⟨call', frame⟩, hmem', rfl⟩ := mem_map.mp hmem
    have hpushed : (call', frame) ∈ s'.pushed := hinv'.fifo ▸ mem_append_left _ hmem'
    have hframe := (hinv'.pushed call' frame).mp hpushed
    rw [herr'] at hframe
    cases hframe
  · intro hdrained later s' hlater
    obtain ⟨hinv', hdrained'⟩ := runEvents_invariant
      (P := fun s : State Frame => s.Inv ∧ s.drained = true)
      (fun hstep hs => (drained_step hstep hs).1) ⟨hinv, hdrained⟩ hlater
    have hreceived : s'.received = s.received :=
      runEvents_related (P := fun s : State Frame => s.Inv ∧ s.drained = true)
        (R := fun s s' => s'.received = s.received)
        (fun hstep hs => (drained_step hstep hs).1) (fun _ => rfl)
        (by
          intro a b c hab hbc
          exact hbc.trans hab)
        (fun hstep hs => (drained_step hstep hs).2) ⟨hinv, hdrained⟩ hlater
    refine ⟨hreceived, fun call frame hok => ?_⟩
    have hmem : (call, frame) ∈ s'.pushed := (hinv'.pushed call frame).mpr (by rw [hok]; rfl)
    rwa [← hinv'.fifo, (hinv'.drained hdrained').2.1, append_nil, hreceived] at hmem

/-- One send lands before `finish`, another holds its slot when the writer is retired. -/
def lateSend : List (Event String) :=
  [.call 0 (.send "a"), .call 0 .reserve, .call 0 .lockShared, .call 0 .check, .call 1 (.send "b"),
    .call 1 .reserve, .finishRetire, .finishSignal, .call 0 .push, .call 0 .ret, .drainFirst,
    .drainFirst, .drainLock, .drainSecond, .call 1 .lockShared, .call 1 .check]

theorem finished_writer_loses_nothing_lateSend :
    (runEvents step (.new 2) lateSend).map
        (fun s => (s.received, s.drained, s.calls 0, s.calls 1)) =
        some ([(0, "a")], true, .returnedOk "a", .returnedErr) ∧
      ∃ s, runEvents step (.new 2) lateSend = some s ∧ (s.drained = true →
        ∀ later s', runEvents step s later = some s' → s'.received = s.received ∧
          ∀ call frame, s'.calls call = .returnedOk frame → (call, frame) ∈ s.received) := by
  have hresult : (runEvents step (.new 2) lateSend).map
      (fun s => (s.received, s.drained, s.calls 0, s.calls 1)) =
      some ([(0, "a")], true, .returnedOk "a", .returnedErr) := by decide
  obtain ⟨s, hs, -⟩ := Option.map_eq_some_iff.mp hresult
  exact ⟨hresult, s, hs, (finished_writer_loses_nothing 2 hs).2.2.2.2⟩

end Eidnara.HostRuntime.FrameChannel
