import Eidnara.Kernel.Outbox.Store

/-!
# Checkpoints

What each operation does to the checkpoint of each consumer, and what every reachable store
keeps: the rows are those of commits, and a checkpoint names zero, a commit or the predecessor
of one.
-/

namespace Eidnara.Kernel.Outbox

open Lib List

variable {Name : Type} {s s' : Store Name} {e e' : Envelope Name}

/-! ## Sequences -/

theorem Store.le_tip {seq : Nat} (h : seq ∈ s.commitLog) : seq ≤ s.tip :=
  le_max?_getD_of_mem h

theorem Store.beginCommit_eq_some {commitSeq : Nat} (h : s.beginCommit commitSeq = some e) :
    s.tip < commitSeq ∧
      e = ⟨{ s with commitLog := commitSeq :: s.commitLog }, commitSeq, 0⟩ := by
  obtain ⟨hlt, rfl⟩ := guarded_eq_some h
  exact ⟨hlt, rfl⟩

theorem Store.preOperationTip_beginCommit {commitSeq : Nat}
    (h : s.beginCommit commitSeq = some e) : e.preOperationTip = s.tip := by
  obtain ⟨hlt, rfl⟩ := Store.beginCommit_eq_some h
  have hfilter : (commitSeq :: s.commitLog).filter (· < commitSeq) = s.commitLog := by
    rw [filter_cons_of_neg (by simp)]
    refine filter_eq_self.mpr fun seq hseq => ?_
    simpa using Nat.lt_of_le_of_lt (Store.le_tip hseq) hlt
  simp only [Envelope.preOperationTip, hfilter, Store.tip]

/-- Zero, a commit of the log, or the predecessor of one. -/
def Named (commitLog : List Nat) (checkpoint : Nat) : Prop :=
  checkpoint = 0 ∨ checkpoint ∈ commitLog ∨ checkpoint + 1 ∈ commitLog

theorem Named.le_tip {k : Nat} (h : Named s.commitLog k) : k ≤ s.tip := by
  rcases h with rfl | h | h
  · exact Nat.zero_le _
  · exact Store.le_tip h
  · exact Nat.le_of_succ_le (Store.le_tip h)

theorem Named.cons {commitLog : List Nat} {seq k : Nat} (h : Named commitLog k) :
    Named (seq :: commitLog) k :=
  h.imp id (Or.imp (mem_cons_of_mem _) (mem_cons_of_mem _))

/-! ## Rows -/

theorem mem_insertRows {commitSeq changes : Nat} {row : OutboxRow}
    (h : row ∈ (s.insertRows commitSeq changes).outbox) :
    row ∈ s.outbox ∨ row.commitSeq = commitSeq := by
  rcases mem_append.mp h with h | h
  · exact .inl h
  · obtain ⟨ordinal, -, rfl⟩ := mem_map.mp h
    exact .inr rfl

theorem Store.markPublishedThrough_eq_ok {position publishedAt : Nat}
    (h : s.markPublishedThrough position publishedAt = .ok s') :
    s'.outbox.map OutboxRow.key = s.outbox.map OutboxRow.key ∧
      s' = { s with outbox := s'.outbox, publishedThrough := s'.publishedThrough } := by
  unfold Store.markPublishedThrough at h
  split at h
  case isTrue => cases h
  case isFalse =>
      cases h
      refine ⟨?_, rfl⟩
      rw [map_map]
      refine map_congr_left fun row _ => ?_
      simp only [Function.comp_apply]
      split <;> rfl

theorem Store.exists_row_of_markPublishedThrough {position publishedAt : Nat} {row : OutboxRow}
    (h : s.markPublishedThrough position publishedAt = .ok s') (hrow : row ∈ s'.outbox) :
    ∃ old ∈ s.outbox, old.commitSeq = row.commitSeq := by
  have hkeys := (markPublishedThrough_eq_ok h).1
  have hmem : row.key ∈ s.outbox.map OutboxRow.key := hkeys ▸ mem_map_of_mem hrow
  obtain ⟨old, hold, hkey⟩ := mem_map.mp hmem
  exact ⟨old, hold, congrArg (·.2.1) hkey⟩

variable [DecidableEq Name]

/-! ## The consumer table as a map -/

namespace Store

variable (s) (consumer : Name)

theorem checkpoint_addConsumer (row : ConsumerRow Name) (c : Name) :
    (s.addConsumer row).checkpoint c =
      (s.checkpoint c).or (if row.consumerId = c then some row.checkpoint else none) := by
  simp only [Store.checkpoint, addConsumer, find?_append, find?_cons, find?_nil]
  by_cases hc : row.consumerId = c <;>
    cases s.consumers.find? (·.consumerId = c) <;> simp [hc]

@[simp]
theorem checkpoint_removeConsumer (c : Name) :
    (s.removeConsumer consumer).checkpoint c =
      if c = consumer then none else s.checkpoint c := by
  simp only [Store.checkpoint, removeConsumer, find?_filter]
  by_cases hc : c = consumer
  · simp [hc]
  · rw [if_neg hc]
    congr 2
    funext row
    by_cases hrow : row.consumerId = c <;> simp [hrow, hc]

@[simp]
theorem checkpoint_setCheckpoint (checkpoint updatedAt : Nat) (c : Name) :
    (s.setCheckpoint consumer checkpoint updatedAt).checkpoint c =
      if c = consumer then (s.checkpoint c).map fun _ => checkpoint else s.checkpoint c := by
  have hid : ((fun row : ConsumerRow Name => decide (row.consumerId = c)) ∘
      ConsumerRow.acknowledge consumer checkpoint updatedAt) =
        fun row => decide (row.consumerId = c) := by
    funext row
    by_cases hrow : row.consumerId = consumer <;> simp [ConsumerRow.acknowledge, hrow]
  simp only [Store.checkpoint, setCheckpoint, find?_map, hid]
  cases hfind : s.consumers.find? (·.consumerId = c) with
  | none => simp
  | some row =>
    obtain rfl : row.consumerId = c := by simpa using find?_some hfind
    by_cases hrow : row.consumerId = consumer <;> simp [ConsumerRow.acknowledge, hrow]

@[simp]
theorem checkpoint_completeSatisfiedBarriers (completedAt : Nat) (c : Name) :
    (s.completeSatisfiedBarriers completedAt).checkpoint c = s.checkpoint c :=
  rfl

variable {s consumer}

theorem exists_row_of_checkpoint {k : Nat} (h : s.checkpoint consumer = some k) :
    ∃ row ∈ s.consumers, row.consumerId = consumer ∧ row.checkpoint = k := by
  obtain ⟨row, hrow, rfl⟩ := Option.map_eq_some_iff.mp h
  exact ⟨row, mem_of_find?_eq_some hrow, by simpa using find?_some hrow, rfl⟩

theorem exists_checkpoint_of_row {row : ConsumerRow Name} (h : row ∈ s.consumers) :
    ∃ k, s.checkpoint row.consumerId = some k := by
  have hsome : (s.consumers.find? (·.consumerId = row.consumerId)).isSome :=
    find?_isSome.mpr ⟨row, h, by simp⟩
  obtain ⟨found, hfound⟩ := Option.isSome_iff_exists.mp hsome
  exact ⟨found.checkpoint, by rw [Store.checkpoint, hfound]; rfl⟩

end Store

/-! ## Acknowledgements -/

variable {operation : Operation Name}
  {consumer : Name}

theorem Store.acknowledgeOutbox_eq_ok {through now : Nat}
    (h : s.acknowledgeOutbox consumer through now = .ok s') :
    ∃ current, s.checkpoint consumer = some current ∧ current ≤ through ∧
      (through = current ∨ through ∈ s.commitLog) ∧
      s' = (s.setCheckpoint consumer through now).completeSatisfiedBarriers now := by
  unfold acknowledgeOutbox at h
  split at h
  case h_1 => cases h
  case h_2 current hcurrent =>
      split at h
      case isTrue => cases h
      case isFalse hvalid =>
          obtain ⟨hle, hexists⟩ := not_or.mp hvalid
          exact ⟨current, hcurrent, Nat.not_lt.mp hle, not_not.mp hexists,
            (Except.ok.inj h).symm⟩

/-! ## Operations of a commit -/

def Operation.removed : Operation Name → Option Name
  | .deregister consumer _ => some consumer
  | .retire consumer _ _ => some consumer
  | .abandonConsumer consumer _ _ => some consumer
  | _ => none

namespace Envelope

theorem deregisterOutboxConsumer_eq_ok {recordedAt : Nat}
    (h : e.deregisterOutboxConsumer consumer recordedAt = .ok e') :
    ∃ checkpoint, e.store.checkpoint consumer = some checkpoint ∧
      e.preOperationTip ≤ checkpoint ∧
      e' = e.pushControlChange
        ((e.store.completeSatisfiedBarriers recordedAt).removeConsumer consumer) := by
  unfold deregisterOutboxConsumer at h
  split at h
  case h_1 => cases h
  case h_2 checkpoint hcheckpoint =>
      split at h
      case isTrue => cases h
      case isFalse hle =>
          exact ⟨checkpoint, hcheckpoint, Nat.not_lt.mp hle, (Except.ok.inj h).symm⟩

/-- A retirement is a deregistration, after an acknowledgement of the tip where the consumer is
behind it. -/
theorem retireOutboxConsumer_eq_ok {certifiedThrough recordedAt : Nat}
    (h : e.retireOutboxConsumer consumer certifiedThrough recordedAt = .ok e') :
    e.deregisterOutboxConsumer consumer recordedAt = .ok e' ∨
      ∃ store, e.store.acknowledgeOutbox consumer e.preOperationTip recordedAt = .ok store ∧
        { e with store := store }.deregisterOutboxConsumer consumer recordedAt = .ok e' := by
  unfold retireOutboxConsumer at h
  split at h
  case h_1 => cases h
  case h_2 checkpoint hcheckpoint =>
      by_cases hcertified : checkpoint < certifiedThrough
      · rw [if_pos hcertified] at h
        cases h
      rw [if_neg hcertified] at h
      by_cases hbehind : checkpoint < e.preOperationTip
      · rw [if_pos hbehind] at h
        split at h
        case h_1 => cases h
        case h_2 store hstore => exact .inr ⟨store, hstore, h⟩
      · rw [if_neg hbehind] at h
        exact .inl h

theorem registerOutboxConsumer_eq_ok {recordedAt : Nat}
    (h : e.registerOutboxConsumer consumer recordedAt = .ok e') :
    e.store.checkpoint consumer = none ∧
      e' = e.pushControlChange
        (e.store.addConsumer ⟨consumer, e.firstCheckpoint, recordedAt⟩) := by
  unfold registerOutboxConsumer at h
  split at h
  case isTrue => cases h
  case isFalse hnone => exact ⟨by simpa using hnone, (Except.ok.inj h).symm⟩

theorem abandonOutboxConsumer_eq_ok {barrier : Option Name} {abandonedAt : Nat}
    (h : e.abandonOutboxConsumer consumer barrier abandonedAt = .ok e') :
    ∃ checkpoint, e.store.checkpoint consumer = some checkpoint ∧
      e' = e.pushControlChange
        (((e.recordAbandonments consumer barrier checkpoint abandonedAt).removeConsumer
          consumer).completeSatisfiedBarriers abandonedAt) := by
  unfold abandonOutboxConsumer at h
  split at h
  case h_1 => cases h
  case h_2 checkpoint hcheckpoint =>
      split at h
      case isTrue => cases h
      case isFalse => exact ⟨checkpoint, hcheckpoint, (Except.ok.inj h).symm⟩

theorem abandonDeletionBarrier_eq_ok {barrier : Name} {abandonedAt : Nat}
    (h : e.abandonDeletionBarrier barrier abandonedAt = .ok e') :
    (∀ row ∈ e.store.barrierConsumers, row.barrierId ≠ barrier) ∧
      (∃ b ∈ e.store.barriers, b.barrierId = barrier ∧ b.completedAt = none) ∧
      e' = e.pushControlChange
        { e.store with
          barriers := e.store.barriers.map fun b =>
            if b.barrierId = barrier ∧ b.completedAt = none then
              { b with completedAt := some abandonedAt }
            else b
          history := .barrierAbandoned barrier :: e.store.history } := by
  unfold abandonDeletionBarrier at h
  split at h
  case isTrue => cases h
  case isFalse hrows =>
      split at h
      case isTrue hopen =>
          exact ⟨by simpa using hrows, by simpa using hopen, (Except.ok.inj h).symm⟩
      case isFalse => cases h

theorem recordAbandonments_consumers (consumer : Name) (barrier : Option Name)
    (checkpoint abandonedAt : Nat) :
    (e.recordAbandonments consumer barrier checkpoint abandonedAt).consumers =
        e.store.consumers ∧
      (e.recordAbandonments consumer barrier checkpoint abandonedAt).outbox = e.store.outbox ∧
      (e.recordAbandonments consumer barrier checkpoint abandonedAt).commitLog =
        e.store.commitLog := by
  unfold recordAbandonments
  split <;> exact ⟨rfl, rfl, rfl⟩

/-- What an operation leaves alone, and what it can do to one consumer: nothing, register it
where it was not, or remove it. -/
structure ConsumerEffect (e : Envelope Name) (operation : Operation Name) (e' : Envelope Name) :
    Prop where
  commitSeq : e'.commitSeq = e.commitSeq
  commitLog : e'.store.commitLog = e.store.commitLog
  outbox : e'.store.outbox = e.store.outbox
  checkpoint : ∀ c, e'.store.checkpoint c = e.store.checkpoint c ∨
    (e.store.checkpoint c = none ∧ e'.store.checkpoint c = some e.firstCheckpoint) ∨
    (operation.removed = some c ∧ e'.store.checkpoint c = none)

theorem consumerEffect_deregister {recordedAt : Nat} (operation)
    (hop : Operation.removed operation = some consumer)
    (h : e.deregisterOutboxConsumer consumer recordedAt = .ok e') :
    ConsumerEffect e operation e' := by
  obtain ⟨checkpoint, -, -, rfl⟩ := deregisterOutboxConsumer_eq_ok h
  refine ⟨rfl, rfl, rfl, fun c => ?_⟩
  by_cases hc : c = consumer
  · exact .inr (.inr ⟨hc ▸ hop, by simp [pushControlChange, hc]⟩)
  · exact .inl (by simp [pushControlChange, hc])

theorem consumerEffect_step (h : e.step operation = some e') : ConsumerEffect e operation e' := by
  replace h : e.apply operation = .ok e' := toOption_eq_some_iff.mp h
  cases operation with
  | change =>
    cases h
    exact ⟨rfl, rfl, rfl, fun c => .inl rfl⟩
  | register consumer recordedAt =>
    obtain ⟨hnone, rfl⟩ := registerOutboxConsumer_eq_ok h
    refine ⟨rfl, rfl, rfl, fun c => ?_⟩
    simp only [pushControlChange, Store.checkpoint_addConsumer]
    by_cases hc : consumer = c
    · subst hc
      exact .inr (.inl ⟨hnone, by simp [hnone]⟩)
    · exact .inl (by simp [hc])
  | deregister consumer recordedAt => exact consumerEffect_deregister _ rfl h
  | retire consumer certifiedThrough recordedAt =>
    rcases retireOutboxConsumer_eq_ok h with h | ⟨store, hstore, h⟩
    · exact consumerEffect_deregister _ rfl h
    · -- the acknowledgement moves only the row that the deregistration removes
      obtain ⟨current, -, -, -, rfl⟩ := Store.acknowledgeOutbox_eq_ok hstore
      obtain ⟨checkpoint, -, -, rfl⟩ := deregisterOutboxConsumer_eq_ok h
      refine ⟨rfl, rfl, rfl, fun c => ?_⟩
      by_cases hc : c = consumer
      · exact .inr (.inr ⟨hc ▸ rfl, by simp [pushControlChange, hc]⟩)
      · exact .inl (by simp [pushControlChange, hc])
  | abandonConsumer consumer barrier abandonedAt =>
    obtain ⟨checkpoint, -, rfl⟩ := abandonOutboxConsumer_eq_ok h
    obtain ⟨hconsumers, houtbox, hlog⟩ :=
      recordAbandonments_consumers (e := e) consumer barrier checkpoint abandonedAt
    refine ⟨rfl, hlog, houtbox, fun c => ?_⟩
    by_cases hc : c = consumer
    · exact .inr (.inr ⟨hc ▸ rfl, by simp [pushControlChange, hc]⟩)
    · refine .inl ?_
      simp only [pushControlChange, Store.checkpoint_completeSatisfiedBarriers,
        Store.checkpoint_removeConsumer, if_neg hc]
      rw [Store.checkpoint, hconsumers]
      rfl
  | abandonBarrier barrier abandonedAt =>
    obtain ⟨-, -, rfl⟩ := abandonDeletionBarrier_eq_ok h
    exact ⟨rfl, rfl, rfl, fun c => .inl rfl⟩

end Envelope

/-! ## Valid stores -/

structure Valid (s : Store Name) : Prop where
  commits_pos : ∀ seq ∈ s.commitLog, 0 < seq
  rows : ∀ row ∈ s.outbox, row.commitSeq ∈ s.commitLog
  named : ∀ c k, s.checkpoint c = some k → Named s.commitLog k

theorem valid_empty : Valid (Store.empty : Store Name) where
  commits_pos := by simp [Store.empty]
  rows := by simp [Store.empty]
  named := by simp [Store.empty, Store.checkpoint]

theorem Valid.named_firstCheckpoint (hvalid : Valid e.store) :
    Named e.store.commitLog e.firstCheckpoint := by
  unfold Envelope.firstCheckpoint
  split
  case h_1 oldest holdest =>
      obtain ⟨row, hrow, rfl⟩ := mem_map.mp (min?_mem holdest)
      have hmem := hvalid.rows row hrow
      have hpos := hvalid.commits_pos _ hmem
      exact .inr (.inr (by rwa [Nat.sub_add_cancel hpos]))
  case h_2 =>
      unfold Envelope.preOperationTip
      cases hmax : (e.store.commitLog.filter (· < e.commitSeq)).max? with
      | none => exact .inl rfl
      | some seq => exact .inr (.inl (mem_filter.mp (max?_mem hmax)).1)

theorem Valid.envelope_step (hvalid : Valid e.store) (h : e.step operation = some e') :
    Valid e'.store := by
  have heffect := Envelope.consumerEffect_step h
  refine ⟨?_, ?_, fun c k hk => ?_⟩
  · rw [heffect.commitLog]
    exact hvalid.commits_pos
  · rw [heffect.commitLog, heffect.outbox]
    exact hvalid.rows
  · rw [heffect.commitLog]
    rcases heffect.checkpoint c with heq | ⟨-, hfirst⟩ | ⟨-, hnone⟩
    · exact hvalid.named c k (heq ▸ hk)
    · rw [hfirst] at hk
      exact Option.some.inj hk ▸ hvalid.named_firstCheckpoint
    · rw [hnone] at hk
      cases hk

theorem Valid.beginCommit {commitSeq : Nat} (hvalid : Valid s)
    (h : s.beginCommit commitSeq = some e) : Valid e.store := by
  obtain ⟨hlt, rfl⟩ := Store.beginCommit_eq_some h
  exact ⟨forall_mem_cons.mpr ⟨Nat.zero_lt_of_lt hlt, hvalid.commits_pos⟩,
    fun row hrow => mem_cons_of_mem _ (hvalid.rows row hrow),
    fun c k hk => (hvalid.named c k hk).cons⟩

theorem Valid.finish (hvalid : Valid e.store) (hseq : e.commitSeq ∈ e.store.commitLog) :
    Valid e.finish := by
  refine ⟨hvalid.commits_pos, fun row hrow => ?_, hvalid.named⟩
  rcases mem_insertRows hrow with hrow | hrow
  · exact hvalid.rows row hrow
  · exact hrow ▸ hseq

theorem Valid.acknowledge {through now : Nat} (hvalid : Valid s)
    (h : s.acknowledgeOutbox consumer through now = .ok s') : Valid s' := by
  obtain ⟨current, hcurrent, -, hthrough, rfl⟩ := Store.acknowledgeOutbox_eq_ok h
  refine ⟨hvalid.commits_pos, hvalid.rows, fun c k hk => ?_⟩
  simp only [Store.checkpoint_completeSatisfiedBarriers, Store.checkpoint_setCheckpoint] at hk
  by_cases hc : c = consumer
  · rw [if_pos hc, hc, hcurrent] at hk
    obtain rfl : through = k := Option.some.inj hk
    rcases hthrough with rfl | hmem
    · exact hvalid.named consumer _ hcurrent
    · exact .inr (.inl hmem)
  · rw [if_neg hc] at hk
    exact hvalid.named c k hk

/-! ## Transactions -/

theorem Envelope.upsertBarrier_eq_some {barrier digest : Name} {deletedAt : Nat}
    (h : e.upsertBarrier barrier digest deletedAt = some e') :
    e'.commitSeq = e.commitSeq ∧ e'.store.commitLog = e.store.commitLog ∧
      e'.store.outbox = e.store.outbox ∧ e'.store.consumers = e.store.consumers := by
  obtain ⟨store, hstore, rfl⟩ := Option.map_eq_some_iff.mp h
  unfold Store.insertBarrier at hstore
  split at hstore
  case isTrue =>
      cases hstore
      exact ⟨rfl, rfl, rfl, rfl⟩
  case isFalse =>
      split at hstore
      case isTrue => cases hstore
      case isFalse =>
          cases hstore
          exact ⟨rfl, rfl, rfl, rfl⟩

theorem Envelope.run_frame {operations : List (Operation Name)}
    (h : runEvents Envelope.step e operations = some e') :
    e'.commitSeq = e.commitSeq ∧ e'.store.commitLog = e.store.commitLog ∧
      e'.store.outbox = e.store.outbox := by
  refine runEvents_related (P := fun _ => True)
    (R := fun e e' : Envelope Name => e'.commitSeq = e.commitSeq ∧
      e'.store.commitLog = e.store.commitLog ∧ e'.store.outbox = e.store.outbox)
    (fun _ _ => trivial) (fun _ => ⟨rfl, rfl, rfl⟩) ?_ ?_ trivial h
  · rintro a b c ⟨hseq, hlog, hrows⟩ ⟨hseq', hlog', hrows'⟩
    exact ⟨hseq'.trans hseq, hlog'.trans hlog, hrows'.trans hrows⟩
  · intro e operation e' hstep _
    have heffect := Envelope.consumerEffect_step hstep
    exact ⟨heffect.commitSeq, heffect.commitLog, heffect.outbox⟩

/-- The transactions that are not refused, taken apart. -/
inductive Taken (s : Store Name) : Event Name → Store Name → Prop
  | commit {seq operations e e'} (hbegin : s.beginCommit seq = some e)
      (hrun : runEvents Envelope.step e operations = some e') :
      Taken s (.commit seq operations) e'.finish
  | deleteArtifact {seq digest fresh propagated deletedAt e e'}
      (hbegin : s.beginCommit seq = some e)
      (hupsert : e.upsertBarrier (s.barrierFor digest fresh) digest deletedAt = some e') :
      Taken s (.deleteArtifact seq digest fresh propagated deletedAt)
        { e' with changes := e'.changes + propagated }.finish
  | acknowledge {event consumer through now s'}
      (hack : s.acknowledgeOutbox consumer through now = .ok s')
      (hevent : event = .acknowledge consumer through now ∨
        event = .acknowledgeThroughHold true consumer through now) : Taken s event s'
  | markPublishedThrough {position publishedAt s'}
      (hmark : s.markPublishedThrough position publishedAt = .ok s') :
      Taken s (.markPublishedThrough position publishedAt) s'
  | prune {horizon} (hhorizon : s.horizon = some horizon) :
      Taken s .prune { s with outbox := s.outbox.filter (horizon < ·.commitSeq) }

theorem taken_of_step {event : Event Name} (h : step s event = some s') : Taken s event s' := by
  cases event with
  | commit seq operations =>
    obtain ⟨e, hbegin, hrest⟩ := Option.bind_eq_some_iff.mp h
    obtain ⟨e', hrun, rfl⟩ := Option.map_eq_some_iff.mp hrest
    exact .commit hbegin hrun
  | deleteArtifact seq digest fresh propagated deletedAt =>
    obtain ⟨e, hbegin, hrest⟩ := Option.bind_eq_some_iff.mp h
    obtain ⟨e', hupsert, rfl⟩ := Option.map_eq_some_iff.mp hrest
    exact .deleteArtifact hbegin hupsert
  | acknowledge consumer through now =>
    exact .acknowledge (toOption_eq_some_iff.mp h) (.inl rfl)
  | acknowledgeThroughHold admitted consumer through now =>
    cases admitted with
    | false => cases h
    | true => exact .acknowledge (toOption_eq_some_iff.mp h) (.inr rfl)
  | markPublishedThrough position publishedAt =>
    exact .markPublishedThrough (toOption_eq_some_iff.mp h)
  | prune =>
    have hprune : s.pruneOutbox = .ok s' := toOption_eq_some_iff.mp h
    unfold Store.pruneOutbox at hprune
    split at hprune
    case h_1 => cases hprune
    case h_2 horizon hhorizon =>
        cases hprune
        exact .prune hhorizon

theorem Valid.step {event : Event Name} (hvalid : Valid s) (h : step s event = some s') :
    Valid s' := by
  cases taken_of_step h with
  | commit hbegin hrun =>
    obtain ⟨hseq, hlog, -⟩ := Envelope.run_frame hrun
    obtain ⟨-, rfl⟩ := Store.beginCommit_eq_some hbegin
    refine Valid.finish (runEvents_invariant (P := fun e : Envelope Name => Valid e.store)
      (fun hstep hv => hv.envelope_step hstep) (hvalid.beginCommit hbegin) hrun) ?_
    rw [hseq, hlog]
    exact mem_cons_self
  | deleteArtifact hbegin hupsert =>
    obtain ⟨hseq, hlog, hrows, hconsumers⟩ := Envelope.upsertBarrier_eq_some hupsert
    have hbegun := hvalid.beginCommit hbegin
    obtain ⟨-, rfl⟩ := Store.beginCommit_eq_some hbegin
    refine Valid.finish ⟨?_, ?_, ?_⟩ ?_
    · rw [hlog]
      exact hbegun.commits_pos
    · rw [hlog, hrows]
      exact hbegun.rows
    · intro c k hk
      rw [Store.checkpoint, hconsumers] at hk
      rw [hlog]
      exact hbegun.named c k hk
    · simp only [hseq, hlog]
      exact mem_cons_self
  | acknowledge hack _ => exact hvalid.acknowledge hack
  | markPublishedThrough hmark =>
    obtain ⟨-, hframe⟩ := Store.markPublishedThrough_eq_ok hmark
    have hlog : s'.commitLog = s.commitLog := by rw [hframe]
    have hconsumers : s'.consumers = s.consumers := by rw [hframe]
    refine ⟨hlog ▸ hvalid.commits_pos, fun row hrow => ?_, fun c k hk => ?_⟩
    · obtain ⟨old, hold, hseq⟩ := Store.exists_row_of_markPublishedThrough hmark hrow
      rw [hlog, ← hseq]
      exact hvalid.rows old hold
    · rw [Store.checkpoint, hconsumers] at hk
      exact hlog ▸ hvalid.named c k hk
  | prune _ =>
    exact ⟨hvalid.commits_pos, fun row hrow => hvalid.rows row (mem_filter.mp hrow).1,
      hvalid.named⟩

theorem valid_of_run {events : List (Event Name)}
    (h : runEvents step Store.empty events = some s) : Valid s :=
  runEvents_invariant (fun hstep hvalid => hvalid.step hstep) valid_empty h

end Eidnara.Kernel.Outbox
