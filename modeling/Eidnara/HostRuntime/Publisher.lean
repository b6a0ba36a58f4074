import Eidnara.HostRuntime.Wire
import Eidnara.Lib.Outbox
import Eidnara.ShmTransport.Pool

/-!
# Outbound publication

The `Publisher` of `ring_transport.rs`: frames enter a deque in admission order
and `pump` publishes what is eligible.  The ring's answers are arbitrary: each
attempt is told whether its reservation succeeds, is exhausted or fails, and
whether the write and commit that follow succeed.

A frame carries the number of its `push` as a ghost `ticket`, so that two frames
with the same bytes are still two frames; no decision reads it.
-/

namespace Eidnara.HostRuntime

open Lib ShmTransport List

/-! ## Frames -/

structure DirectFrame where
  header : List UInt8
  bodyLen : Nat
deriving DecidableEq, Repr

structure OutboundFrame where
  bytes : List UInt8
  tail : List UInt8
  direct : Option DirectFrame
  /-- Terminal credit that follows the frame's block. -/
  credit : Option Nat
deriving DecidableEq, Repr

def inventoryFor (header : EnvelopeHeader) (bodyLen terminalCapacity : Nat) : Inventory :=
  if header.ty.isPureHeader ∧ bodyLen = 0 then .control
  else if (header.ty = .error ∨ header.ty = .streamEnd) ∧ bodyLen ≤ terminalCapacity then
    .terminal
  else .ordinary

structure PendingFrame where
  frame : OutboundFrame
  header : Option EnvelopeHeader
  inventory : Inventory
  bodyLen : Nat
  deadline : Nat
  ticket : Nat
deriving DecidableEq, Repr

namespace PendingFrame

/-- `stream_key`: the channel and correlation of a frame that is no pure-header
control. -/
def streamKey (pending : PendingFrame) : Option (Nat × Nat) :=
  (pending.header.filter fun header => !header.ty.isPureHeader).map fun header =>
    (header.channel, header.corr)

def isGoodbye (pending : PendingFrame) : Bool :=
  pending.header.any fun header => header.ty = .goodbye

end PendingFrame

structure Publisher where
  pending : List PendingFrame
  frameDeadline : Nat
  terminalCapacity : Nat
  /-- Terminal credit held per block until the block physically returns. -/
  credits : List (Option Nat)
  /-- Ghost: how many frames were pushed so far. -/
  admitted : Nat
deriving DecidableEq, Repr

namespace Publisher

/-- The entry `push` makes for a frame. -/
def admitFrame (publisher : Publisher) (frame : OutboundFrame) (now : Nat) : PendingFrame :=
  let header : Option EnvelopeHeader :=
    match frame.direct with
    | some direct => (decodeHeader direct.header).toOption
    | none =>
      if frame.bytes.length < headerLen then none
      else (decodeHeader (frame.bytes.take headerLen)).toOption
  let bodyLen :=
    match frame.direct with
    | some direct => direct.bodyLen
    | none => frame.bytes.length - headerLen + frame.tail.length
  let inventory :=
    match header with
    | some header => inventoryFor header bodyLen publisher.terminalCapacity
    | none => .ordinary
  { frame, header, inventory, bodyLen, deadline := now + publisher.frameDeadline,
    ticket := publisher.admitted }

def push (publisher : Publisher) (frame : OutboundFrame) (now : Nat) : Publisher :=
  { publisher with
    pending := publisher.pending ++ [publisher.admitFrame frame now]
    admitted := publisher.admitted + 1 }

/-! ## Pumping -/

inductive Reserve where
  | reserved (block : Nat)
  | exhausted
  | refused
deriving DecidableEq, Repr

/-- One attempt on the ring: the reservation, and whether the body was written
and committed in time. -/
structure Attempt where
  reserve : Reserve
  committed : Bool
deriving DecidableEq, Repr

def frameParts (frame : OutboundFrame) : Option (List UInt8 × Nat) :=
  match frame.direct with
  | some direct => some (direct.header, direct.bodyLen)
  | none =>
    if frame.bytes.length < headerLen then none
    else some (frame.bytes.take headerLen,
      (frame.bytes.drop headerLen).length + frame.tail.length)

/-- `try_publish`: `false` leaves the frame pending. -/
def tryPublish (publisher : Publisher) (attempt : Attempt) (index : Nat) :
    Except Unit (Bool × Publisher) := do
  let some pending := publisher.pending[index]? | throw ()
  let some _ := frameParts pending.frame | throw ()
  match attempt.reserve with
  | .exhausted => pure (false, publisher)
  | .refused => throw ()
  | .reserved block =>
    let publisher := { publisher with pending := publisher.pending.eraseIdx index }
    if !attempt.committed then throw ()
    pure (true, { publisher with credits := publisher.credits.set block pending.frame.credit })

def eligible (publisher : Publisher) (index : Nat) (headBlocked : Bool)
    (pending : PendingFrame) : Bool :=
  if index = 0 then true
  else if headBlocked then
    match pending.inventory with
    | .control => pending.header.any fun header => header.ty ≠ .goodbye
    | .terminal =>
      !(publisher.pending.take index).any fun earlier =>
        earlier.streamKey = pending.streamKey
    | .ordinary => false
  else true

structure Report where
  frame : PendingFrame
  published : Bool
deriving DecidableEq, Repr

/-- Everything a successful `tryPublish` can do. -/
theorem tryPublish_cases {publisher publisher' : Publisher} {attempt : Attempt} {index : Nat}
    {pending : PendingFrame} {published : Bool}
    (hget : publisher.pending[index]? = some pending)
    (h : publisher.tryPublish attempt index = .ok (published, publisher')) :
    (published = false ∧ attempt.reserve = .exhausted ∧ publisher' = publisher) ∨
      (published = true ∧ ∃ credits, publisher' =
        { publisher with pending := publisher.pending.eraseIdx index, credits }) := by
  simp only [tryPublish, hget] at h
  split at h
  · split at h
    · obtain ⟨rfl, rfl⟩ := Prod.mk.inj (Except.ok.inj h)
      exact .inl ⟨rfl, by assumption, rfl⟩
    · cases h
    · split at h
      · cases h
      · obtain ⟨rfl, rfl⟩ := Prod.mk.inj (Except.ok.inj h)
        exact .inr ⟨rfl, _, rfl⟩
  · cases h

/-- The loop of `pump`.  The `k`-th attempt gets the answer `attempts k`. -/
def pumpLoop (attempts : Nat → Attempt) (publisher : Publisher) (index : Nat)
    (headBlocked : Bool) (reports : List Report) : Except Unit (Publisher × List Report) :=
  match hget : publisher.pending[index]? with
  | none => .ok (publisher, reports)
  | some pending =>
    if publisher.eligible index headBlocked pending then
      match htry : publisher.tryPublish (attempts reports.length) index with
      | .error e => .error e
      | .ok (true, publisher') =>
        -- removed at `index`; the same index now names the next frame
        pumpLoop attempts publisher' index (if index = 0 then false else headBlocked)
          (reports ++ [⟨pending, true⟩])
      | .ok (false, publisher') =>
        pumpLoop attempts publisher' (index + 1) (if index = 0 then true else headBlocked)
          (reports ++ [⟨pending, false⟩])
    else pumpLoop attempts publisher (index + 1) headBlocked reports
termination_by publisher.pending.length - index
decreasing_by
  all_goals obtain ⟨hlt, -⟩ := List.getElem?_eq_some_iff.mp hget
  · obtain ⟨hfalse, -⟩ | ⟨-, credits, rfl⟩ := tryPublish_cases hget htry
    · cases hfalse
    · simp only [length_eraseIdx, hlt, if_true]
      omega
  · obtain ⟨-, -, rfl⟩ | ⟨htrue, -⟩ := tryPublish_cases hget htry
    · omega
    · cases htrue
  · omega

/-- `pump`: settle the returned blocks, refuse when a frame outlived its
deadline, then publish everything eligible. -/
def pump (publisher : Publisher) (reclaimed : Except Unit (List Nat)) (now : Nat)
    (attempts : Nat → Attempt) : Except Unit (Publisher × List Report) := do
  let blocks ← reclaimed
  let publisher :=
    { publisher with
      credits := blocks.foldl (fun credits block => credits.set block none) publisher.credits }
  if publisher.pending.any fun pending => pending.deadline ≤ now then throw ()
  pumpLoop attempts publisher 0 false []

end Publisher

/-! ## Runs -/

inductive Call where
  | push (frame : OutboundFrame) (now : Nat)
  | pump (reclaimed : Except Unit (List Nat)) (now : Nat) (attempts : Nat → Publisher.Attempt)

structure History where
  publisher : Publisher
  pushed : List PendingFrame
  published : List PendingFrame

def publications (reports : List Publisher.Report) : List PendingFrame :=
  (reports.filter fun report => report.published).map fun report => report.frame

namespace History

def new (frameDeadline terminalCapacity blockCount : Nat) : History where
  publisher :=
    { pending := [], frameDeadline, terminalCapacity
      credits := replicate blockCount none, admitted := 0 }
  pushed := []
  published := []

def call (history : History) : Call → Except Unit History
  | .push frame now =>
    .ok { history with
      publisher := history.publisher.push frame now
      pushed := history.pushed ++ [history.publisher.admitFrame frame now] }
  | .pump reclaimed now attempts => do
    let (publisher, reports) ← history.publisher.pump reclaimed now attempts
    .ok { history with publisher, published := history.published ++ publications reports }

def calls (history : History) : List Call → Except Unit History
  | [] => .ok history
  | next :: rest => do
    let history ← history.call next
    history.calls rest

end History

/-! ## What holds a frame back -/

/-- An earlier frame that must publish first: one of the same stream, an ordinary
frame before an ordinary one, anything before a `Goodbye`. -/
def HoldsBack (earlier later : PendingFrame) : Prop :=
  (earlier.streamKey = later.streamKey ∧ later.streamKey.isSome) ∨
    (earlier.inventory = .ordinary ∧ later.inventory = .ordinary) ∨
    later.isGoodbye = true

def PendingFrame.Classified (pending : PendingFrame) : Prop :=
  ∃ terminalCapacity, pending.inventory =
    match pending.header with
    | some header => inventoryFor header pending.bodyLen terminalCapacity
    | none => .ordinary

namespace Publisher

theorem classified_admit (publisher : Publisher) (frame : OutboundFrame) (now : Nat) :
    (publisher.admitFrame frame now).Classified :=
  ⟨publisher.terminalCapacity, rfl⟩

variable {pending : PendingFrame}

theorem streamKey_of_control (h : pending.Classified) (hcontrol : pending.inventory = .control) :
    pending.streamKey = none := by
  obtain ⟨terminalCapacity, hinventory⟩ := h
  rw [hcontrol] at hinventory
  cases hheader : pending.header with
  | none => simp [PendingFrame.streamKey, hheader]
  | some header =>
    simp only [hheader, inventoryFor] at hinventory
    split_ifs at hinventory with hpure hterminal
    simp [PendingFrame.streamKey, hheader, hpure.1]

theorem not_goodbye_of_terminal (h : pending.Classified)
    (hterminal : pending.inventory = .terminal) :
    pending.isGoodbye = false := by
  obtain ⟨terminalCapacity, hinventory⟩ := h
  rw [hterminal] at hinventory
  cases hheader : pending.header with
  | none => simp [PendingFrame.isGoodbye, hheader]
  | some header =>
    simp only [hheader, inventoryFor] at hinventory
    split_ifs at hinventory with hpure hends
    rcases hends.1 with hty | hty <;> simp [PendingFrame.isGoodbye, hheader, hty]

variable {publisher : Publisher} {index : Nat} {headBlocked : Bool}

/-- A frame is attempted only when no earlier pending frame holds it back.  While
the loop is past the head, the head is blocked. -/
theorem not_holdsBack_of_eligible (hclassified : pending.Classified)
    (hblocked : index = 0 ∨ headBlocked = true)
    (heligible : publisher.eligible index headBlocked pending = true) :
    ∀ earlier ∈ publisher.pending.take index, ¬ HoldsBack earlier pending := by
  intro earlier hearlier hholds
  have hindex : index ≠ 0 := by
    intro hzero
    simp [hzero] at hearlier
  simp only [eligible, hindex, if_false, hblocked.resolve_left hindex, if_true] at heligible
  cases hinventory : pending.inventory with
  | control =>
    rw [hinventory] at heligible
    rcases hholds with ⟨-, hsome⟩ | ⟨-, hordinary⟩ | hgoodbye
    · simp [streamKey_of_control hclassified hinventory] at hsome
    · rw [hinventory] at hordinary
      cases hordinary
    · cases hheader : pending.header with
      | none => simp [hheader] at heligible
      | some header => simp_all [PendingFrame.isGoodbye]
  | terminal =>
    rw [hinventory] at heligible
    simp only [Bool.not_eq_true', any_eq_false, decide_eq_true_eq] at heligible
    rcases hholds with ⟨hkey, -⟩ | ⟨-, hordinary⟩ | hgoodbye
    · exact heligible earlier hearlier hkey
    · rw [hinventory] at hordinary
      cases hordinary
    · rw [not_goodbye_of_terminal hclassified hinventory] at hgoodbye
      cases hgoodbye
  | ordinary =>
    rw [hinventory] at heligible
    cases heligible

/-! ## One pump as a run of the outbox -/

/-- What the loop keeps: past index zero the head is blocked and was reported
exhausted. -/
structure LoopInvariant (publisher : Publisher) (index : Nat) (headBlocked : Bool)
    (reports : List Report) : Prop where
  classified : ∀ pending ∈ publisher.pending, pending.Classified
  blocked : index = 0 ∨ headBlocked = true
  headReported : 0 < index → ∀ pending ∈ publisher.pending.head?,
    (⟨pending, false⟩ : Report) ∈ reports

variable {reports : List Report}

theorem LoopInvariant.skip (h : LoopInvariant publisher index headBlocked reports)
    (hskip : ¬ publisher.eligible index headBlocked pending = true) :
    LoopInvariant publisher (index + 1) headBlocked reports := by
  have hindex : index ≠ 0 := by
    intro hzero
    exact hskip (by simp [eligible, hzero])
  exact ⟨h.classified, .inr (h.blocked.resolve_left hindex),
    fun _ => h.headReported (Nat.pos_of_ne_zero hindex)⟩

theorem LoopInvariant.exhausted (h : LoopInvariant publisher index headBlocked reports)
    (hget : publisher.pending[index]? = some pending) :
    LoopInvariant publisher (index + 1) (if index = 0 then true else headBlocked)
      (reports ++ [⟨pending, false⟩]) := by
  refine ⟨h.classified, .inr ?_, ?_⟩
  · split_ifs with hzero
    · rfl
    · exact h.blocked.resolve_left hzero
  · intro _ head hhead
    by_cases hzero : index = 0
    · rw [hzero, ← head?_eq_getElem?, Option.mem_def.mp hhead] at hget
      simp [Option.some.inj hget]
    · exact mem_append_left _ (h.headReported (Nat.pos_of_ne_zero hzero) head hhead)

theorem LoopInvariant.published {credits : List (Option Nat)}
    (h : LoopInvariant publisher index headBlocked reports) :
    LoopInvariant { publisher with pending := publisher.pending.eraseIdx index, credits } index
      (if index = 0 then false else headBlocked) (reports ++ [⟨pending, true⟩]) := by
  refine ⟨fun p hp => h.classified p (mem_of_mem_eraseIdx hp), ?_, ?_⟩
  · by_cases hzero : index = 0
    · exact .inl hzero
    · rw [if_neg hzero]
      exact h.blocked
  · intro hpos head hhead
    have hsame : (publisher.pending.eraseIdx index).head? = publisher.pending.head? := by
      cases hlist : publisher.pending with
      | nil => simp
      | cons first rest =>
        obtain ⟨k, rfl⟩ := Nat.exists_eq_succ_of_ne_zero (Nat.ne_of_gt hpos)
        simp
    rw [hsame] at hhead
    exact mem_append_left _ (h.headReported hpos head hhead)

theorem publications_append (reports : List Report) (pending : PendingFrame) (published : Bool) :
    publications (reports ++ [⟨pending, published⟩]) =
      publications reports ++ if published then [pending] else [] := by
  cases published <;> simp [publications]

/-- The publications of the loop are steps of the outbox, the head left pending
was reported exhausted, and nothing else of the publisher that a later call reads
has changed. -/
theorem pumpLoop_run {attempts : Nat → Attempt} {publisher' : Publisher} {reports' : List Report}
    (before pushed : List PendingFrame) (hinv : LoopInvariant publisher index headBlocked reports)
    (h : pumpLoop attempts publisher index headBlocked reports = .ok (publisher', reports')) :
    Relation.ReflTransGen (Outbox.Step HoldsBack)
        ⟨publisher.pending, before ++ publications reports, pushed⟩
        ⟨publisher'.pending, before ++ publications reports', pushed⟩ ∧
      (∀ pending ∈ publisher'.pending.head?, (⟨pending, false⟩ : Report) ∈ reports') ∧
      publisher'.admitted = publisher.admitted := by
  fun_induction pumpLoop attempts publisher index headBlocked reports with
  | case1 publisher index headBlocked reports hget =>
    obtain ⟨rfl, rfl⟩ := Prod.mk.inj (Except.ok.inj h)
    refine ⟨.refl, ?_, rfl⟩
    intro pending hpending
    by_cases hzero : index = 0
    · rw [hzero, ← head?_eq_getElem?] at hget
      rw [hget] at hpending
      cases hpending
    · exact hinv.headReported (Nat.pos_of_ne_zero hzero) pending hpending
  | case2 => cases h
  | case3 publisher index headBlocked reports pending hget heligible middle htry ih =>
    obtain ⟨hfalse, -⟩ | ⟨-, credits, rfl⟩ := tryPublish_cases hget htry
    · cases hfalse
    · obtain ⟨hrun, hhead, hadmitted⟩ := ih hinv.published h
      refine ⟨.head ?_ hrun, hhead, hadmitted⟩
      have hmem : pending ∈ publisher.pending := mem_of_getElem? hget
      have hsplit : publisher.pending =
          publisher.pending.take index ++ pending :: publisher.pending.drop (index + 1) := by
        obtain ⟨hlt, hitem⟩ := List.getElem?_eq_some_iff.mp hget
        rw [← hitem, getElem_cons_drop, take_append_drop]
      have hstep := Outbox.Step.publish
        ⟨publisher.pending, before ++ publications reports, pushed⟩ _ _ _ hsplit
        (not_holdsBack_of_eligible (hinv.classified _ hmem) hinv.blocked heligible)
      rw [publications_append, eraseIdx_eq_take_drop_succ]
      simpa using hstep
  | case4 publisher index headBlocked reports pending hget heligible middle htry ih =>
    obtain ⟨-, -, rfl⟩ | ⟨htrue, -⟩ := tryPublish_cases hget htry
    · have hrun := ih (hinv.exhausted hget) h
      rw [publications_append] at hrun
      simpa using hrun
    · cases htrue
  | case5 publisher index headBlocked reports pending hget hskip ih =>
    exact ih (hinv.skip hskip) h

theorem pump_run {publisher' : Publisher} {reclaimed : Except Unit (List Nat)} {now : Nat}
    {attempts : Nat → Attempt} (before pushed : List PendingFrame)
    (hclassified : ∀ pending ∈ publisher.pending, pending.Classified)
    (h : publisher.pump reclaimed now attempts = .ok (publisher', reports)) :
    Relation.ReflTransGen (Outbox.Step HoldsBack)
        ⟨publisher.pending, before, pushed⟩
        ⟨publisher'.pending, before ++ publications reports, pushed⟩ ∧
      (∀ pending ∈ publisher'.pending.head?, (⟨pending, false⟩ : Report) ∈ reports) ∧
      publisher'.admitted = publisher.admitted := by
  cases reclaimed with
  | error e => cases h
  | ok blocks =>
    simp only [pump, bind, Except.bind] at h
    split at h
    · cases h
    · have hrun := fun hinv => pumpLoop_run before pushed hinv h
      simpa [publications] using hrun ⟨hclassified, .inl rfl, by simp⟩

end Publisher

/-! ## Runs keep the order -/

namespace History

def outbox (history : History) : Outbox PendingFrame :=
  ⟨history.publisher.pending, history.published, history.pushed⟩

structure Admitted (history : History) : Prop where
  classified : ∀ pending ∈ history.pushed, pending.Classified
  tickets : ∀ pending ∈ history.pushed, pending.ticket < history.publisher.admitted

theorem Admitted.pending_classified {history : History} (hadmitted : history.Admitted)
    (hordered : history.outbox.Ordered HoldsBack) :
    ∀ pending ∈ history.publisher.pending, pending.Classified :=
  fun pending hpending => hadmitted.classified pending (hordered.sublist.subset hpending)

theorem call_ordered {history history' : History} {next : Call}
    (hadmitted : history.Admitted) (hordered : history.outbox.Ordered HoldsBack)
    (h : history.call next = .ok history') :
    history'.Admitted ∧ history'.outbox.Ordered HoldsBack := by
  cases next with
  | push frame now =>
    obtain rfl := Except.ok.inj h
    have hfresh : history.publisher.admitFrame frame now ∉ history.pushed := by
      intro hmem
      exact Nat.lt_irrefl _ (hadmitted.tickets _ hmem)
    refine ⟨⟨?_, ?_⟩, hordered.push hfresh⟩
    · exact forall_mem_append.mpr ⟨hadmitted.classified,
        forall_mem_singleton.mpr (history.publisher.classified_admit frame now)⟩
    · exact forall_mem_append.mpr ⟨fun pending hold =>
        Nat.lt_succ_of_lt (hadmitted.tickets pending hold),
        forall_mem_singleton.mpr (Nat.lt_succ_self _)⟩
  | pump reclaimed now attempts =>
    obtain ⟨⟨publisher, reports⟩, hpump, h⟩ := bind_eq_ok_iff.mp h
    obtain rfl := Except.ok.inj h
    obtain ⟨hrun, -, hcount⟩ := Publisher.pump_run history.published history.pushed
      (hadmitted.pending_classified hordered) hpump
    refine ⟨⟨hadmitted.classified, ?_⟩, hordered.run hrun⟩
    intro pending hpending
    rw [hcount]
    exact hadmitted.tickets pending hpending

theorem calls_ordered {sequence : List Call} {history history' : History}
    (hadmitted : history.Admitted) (hordered : history.outbox.Ordered HoldsBack)
    (h : history.calls sequence = .ok history') :
    history'.Admitted ∧ history'.outbox.Ordered HoldsBack := by
  induction sequence generalizing history with
  | nil =>
    obtain rfl := Except.ok.inj h
    exact ⟨hadmitted, hordered⟩
  | cons next rest ih =>
    obtain ⟨middle, hcall, hrest⟩ := bind_eq_ok_iff.mp h
    obtain ⟨hadmitted', hordered'⟩ := call_ordered hadmitted hordered hcall
    exact ih hadmitted' hordered' hrest

def pushedFrames (sequence : List Call) : List OutboundFrame :=
  sequence.filterMap fun
    | .push frame _ => some frame
    | .pump .. => none

theorem calls_pushed {sequence : List Call} {history history' : History}
    (h : history.calls sequence = .ok history') :
    history'.pushed.map PendingFrame.frame =
      history.pushed.map PendingFrame.frame ++ pushedFrames sequence := by
  induction sequence generalizing history with
  | nil =>
    obtain rfl := Except.ok.inj h
    simp [pushedFrames]
  | cons next rest ih =>
    obtain ⟨middle, hcall, hrest⟩ := bind_eq_ok_iff.mp h
    rw [ih hrest]
    cases next with
    | push frame now =>
      obtain rfl := Except.ok.inj hcall
      simp [pushedFrames, Publisher.admitFrame]
    | pump reclaimed now attempts =>
      obtain ⟨_, -, hdone⟩ := bind_eq_ok_iff.mp hcall
      obtain rfl := Except.ok.inj hdone
      simp [pushedFrames]

def sampleFrame (ty channel : UInt8) : OutboundFrame where
  bytes := []
  tail := []
  direct := some
    { header := [1, 0, 0, 0, ty, 0, channel, 0, 1, 0, 0, 0, 7, 0, 0, 0, 0, 0, 0, 0], bodyLen := 1 }
  credit := none

/-- The data frame at the head is exhausted; the terminal of another stream
overtakes it, the one of its own stream does not. -/
def sampleCalls : List Call :=
  [.push (sampleFrame 3 1) 0, .push (sampleFrame 5 1) 0, .push (sampleFrame 5 2) 0,
    .pump (.ok []) 0 fun k => ⟨if k = 0 then .exhausted else .reserved 0, true⟩]

end History

end Eidnara.HostRuntime
