import Eidnara.Kernel.Outbox.Checkpoints

/-!
# Retention

Pruning takes a row only once every registered checkpoint has passed it, and a consumer
registered later starts at or above everything pruned before.  One invariant carries both: a
sequence is a floor when no row is at or below it and no checkpoint is under it.
-/

namespace Eidnara.Kernel.Outbox

open Lib List

variable {Name : Type} [DecidableEq Name] {s s' : Store Name} {e e' : Envelope Name}
  {operation : Operation Name} {event : Event Name} {floor : Nat}

/-! ## Floors -/

structure Floor (floor : Nat) (s : Store Name) (tip : Nat) : Prop where
  rows : ∀ row ∈ s.outbox, floor < row.commitSeq
  checkpoints : ∀ c k, s.checkpoint c = some k → floor ≤ k
  le_tip : floor ≤ tip

theorem Floor.le_firstCheckpoint (h : Floor floor e.store e.preOperationTip) :
    floor ≤ e.firstCheckpoint := by
  unfold Envelope.firstCheckpoint
  split
  case h_1 oldest holdest =>
      obtain ⟨row, hrow, rfl⟩ := mem_map.mp (min?_mem holdest)
      exact Nat.le_sub_one_of_lt (h.rows row hrow)
  case h_2 => exact h.le_tip

theorem Floor.envelope_step (hfloor : Floor floor e.store e.preOperationTip)
    (h : e.step operation = some e') : Floor floor e'.store e'.preOperationTip := by
  have heffect := Envelope.consumerEffect_step h
  refine ⟨?_, fun c k hk => ?_, ?_⟩
  · rw [heffect.outbox]
    exact hfloor.rows
  · rcases heffect.checkpoint c with heq | ⟨-, hfirst⟩ | ⟨-, hnone⟩
    · exact hfloor.checkpoints c k (heq ▸ hk)
    · rw [hfirst] at hk
      exact Option.some.inj hk ▸ hfloor.le_firstCheckpoint
    · rw [hnone] at hk
      cases hk
  · rw [Envelope.preOperationTip, heffect.commitLog, heffect.commitSeq]
    exact hfloor.le_tip

theorem Floor.beginCommit {commitSeq : Nat} (hfloor : Floor floor s s.tip)
    (h : s.beginCommit commitSeq = some e) : Floor floor e.store e.preOperationTip := by
  rw [Store.preOperationTip_beginCommit h]
  obtain ⟨-, rfl⟩ := Store.beginCommit_eq_some h
  exact ⟨hfloor.rows, hfloor.checkpoints, hfloor.le_tip⟩

/-- The rows of the commit are above every floor, since its sequence is above the tip. -/
theorem Floor.finish {tip : Nat} (hfloor : Floor floor e.store tip) (hlt : tip < e.commitSeq)
    (hseq : e.commitSeq ∈ e.store.commitLog) : Floor floor e.finish e.finish.tip := by
  refine ⟨fun row hrow => ?_, hfloor.checkpoints, ?_⟩
  · rcases mem_insertRows hrow with hrow | hrow
    · exact hfloor.rows row hrow
    · rw [hrow]
      exact Nat.lt_of_le_of_lt hfloor.le_tip hlt
  · have hle : e.commitSeq ≤ e.finish.tip := Store.le_tip (s := e.finish) hseq
    exact Nat.le_trans hfloor.le_tip (Nat.le_trans (Nat.le_of_lt hlt) hle)

theorem Floor.step (hfloor : Floor floor s s.tip) (h : step s event = some s') :
    Floor floor s' s'.tip := by
  cases taken_of_step h with
  | commit hbegin hrun =>
    have hbegun := hfloor.beginCommit hbegin
    have hrunned := runEvents_invariant
      (P := fun e : Envelope Name => Floor floor e.store e.preOperationTip)
      (fun hstep hf => hf.envelope_step hstep) hbegun hrun
    obtain ⟨hseq, hlog, -⟩ := Envelope.run_frame hrun
    have htip := Store.preOperationTip_beginCommit hbegin
    obtain ⟨hlt, rfl⟩ := Store.beginCommit_eq_some hbegin
    refine hrunned.finish ?_ ?_
    · simp only [Envelope.preOperationTip, hseq, hlog] at htip ⊢
      exact htip ▸ hlt
    · rw [hseq, hlog]
      exact mem_cons_self
  | deleteArtifact hbegin hupsert =>
    obtain ⟨hseq, hlog, hrows, hconsumers⟩ := Envelope.upsertBarrier_eq_some hupsert
    obtain ⟨hlt, rfl⟩ := Store.beginCommit_eq_some hbegin
    refine Floor.finish ⟨?_, fun c k hk => ?_, hfloor.le_tip⟩ ?_ ?_
    · rw [hrows]
      exact hfloor.rows
    · rw [Store.checkpoint, hconsumers] at hk
      exact hfloor.checkpoints c k hk
    · simp only [hseq]
      exact hlt
    · simp only [hseq, hlog]
      exact mem_cons_self
  | acknowledge hack _ =>
    obtain ⟨current, hcurrent, hle, -, rfl⟩ := Store.acknowledgeOutbox_eq_ok hack
    refine ⟨hfloor.rows, fun c k hk => ?_, hfloor.le_tip⟩
    simp only [Store.checkpoint_completeSatisfiedBarriers,
      Store.checkpoint_setCheckpoint] at hk
    split at hk
    case isTrue hc =>
        rw [hc, hcurrent] at hk
        exact Nat.le_trans (hfloor.checkpoints _ _ hcurrent) (Option.some.inj hk ▸ hle)
    case isFalse => exact hfloor.checkpoints c k hk
  | markPublishedThrough hmark =>
    obtain ⟨-, hframe⟩ := Store.markPublishedThrough_eq_ok hmark
    refine ⟨fun row hrow => ?_, fun c k hk => ?_, ?_⟩
    · obtain ⟨old, hold, hseq⟩ := Store.exists_row_of_markPublishedThrough hmark hrow
      exact hseq ▸ hfloor.rows old hold
    · rw [hframe] at hk
      exact hfloor.checkpoints c k hk
    · rw [hframe]
      exact hfloor.le_tip
  | prune _ =>
    exact ⟨fun row hrow => hfloor.rows row (mem_filter.mp hrow).1, hfloor.checkpoints,
      hfloor.le_tip⟩

theorem floor_run {events : List (Event Name)} (hfloor : Floor floor s s.tip)
    (h : runEvents step s events = some s') : Floor floor s' s'.tip :=
  runEvents_invariant (P := fun s : Store Name => Floor floor s s.tip)
    (fun hstep hf => hf.step hstep) hfloor h

variable {k : Nat} {c : Name}

theorem horizon_le_checkpoint {horizon : Nat} (hhorizon : s.horizon = some horizon)
    (hk : s.checkpoint c = some k) : horizon ≤ k := by
  obtain ⟨row, hrow, -, rfl⟩ := Store.exists_row_of_checkpoint hk
  exact (min?_eq_some_iff.mp hhorizon).2 _ (mem_map_of_mem hrow)

theorem floor_prune {horizon : Nat} (hvalid : Valid s) (hhorizon : s.horizon = some horizon)
    (hle : floor ≤ horizon) :
    Floor floor { s with outbox := s.outbox.filter (horizon < ·.commitSeq) } s.tip := by
  refine ⟨fun row hrow => ?_, fun c k hk => ?_, ?_⟩
  · exact Nat.lt_of_le_of_lt hle (by simpa using (mem_filter.mp hrow).2)
  · exact Nat.le_trans hle (horizon_le_checkpoint hhorizon hk)
  · -- the horizon is the checkpoint of some consumer, and checkpoints do not pass the tip
    obtain ⟨row, hrow, rfl⟩ := mem_map.mp (min?_mem hhorizon)
    obtain ⟨k, hk⟩ := Store.exists_checkpoint_of_row hrow
    calc floor ≤ row.checkpoint := hle
      _ ≤ k := horizon_le_checkpoint hhorizon hk
      _ ≤ s.tip := (hvalid.named _ k hk).le_tip

/-! ## Rows -/

def KeptOrPassed (row : OutboxRow) (s : Store Name) : Prop :=
  row.key ∈ s.outbox.map OutboxRow.key ∨ Floor row.commitSeq s s.tip

omit [DecidableEq Name] in
theorem mem_keys_finish {row : OutboxRow} (h : row.key ∈ e.store.outbox.map OutboxRow.key) :
    row.key ∈ e.finish.outbox.map OutboxRow.key := by
  simp only [Envelope.finish, Store.insertRows, map_append, mem_append]
  exact .inl h

theorem KeptOrPassed.step {row : OutboxRow} (hvalid : Valid s) (hrow : KeptOrPassed row s)
    (h : step s event = some s') : KeptOrPassed row s' := by
  rcases hrow with hkept | hpassed
  case inr => exact .inr (hpassed.step h)
  cases taken_of_step h with
  | commit hbegin hrun =>
    obtain ⟨-, -, hrows⟩ := Envelope.run_frame hrun
    obtain ⟨-, rfl⟩ := Store.beginCommit_eq_some hbegin
    refine .inl (mem_keys_finish ?_)
    rw [hrows]
    exact hkept
  | deleteArtifact hbegin hupsert =>
    obtain ⟨-, -, hrows, -⟩ := Envelope.upsertBarrier_eq_some hupsert
    obtain ⟨-, rfl⟩ := Store.beginCommit_eq_some hbegin
    refine .inl (mem_keys_finish ?_)
    simp only [hrows]
    exact hkept
  | acknowledge hack _ =>
    obtain ⟨current, -, -, -, rfl⟩ := Store.acknowledgeOutbox_eq_ok hack
    exact .inl hkept
  | markPublishedThrough hmark =>
    exact .inl ((Store.markPublishedThrough_eq_ok hmark).1 ▸ hkept)
  | @prune horizon hhorizon =>
    obtain ⟨stored, hstored, hkey⟩ := mem_map.mp hkept
    have hseq : stored.commitSeq = row.commitSeq := congrArg (·.2.1) hkey
    by_cases hlt : horizon < row.commitSeq
    · refine .inl (mem_map.mpr ⟨stored, mem_filter.mpr ⟨hstored, ?_⟩, hkey⟩)
      simpa [hseq] using hlt
    · exact .inr (floor_prune hvalid hhorizon (Nat.not_lt.mp hlt))

/-! ## Consumers that stay -/

def Event.Removes (consumer : Name) : Event Name → Prop
  | .commit _ operations => ∃ operation ∈ operations, operation.removed = some consumer
  | _ => False

theorem Envelope.checkpoint_run {operations : List (Operation Name)}
    (hk : e.store.checkpoint c = some k)
    (hstays : ∀ operation ∈ operations, operation.removed ≠ some c)
    (h : runEvents Envelope.step e operations = some e') : e'.store.checkpoint c = some k := by
  induction operations generalizing e with
  | nil => exact Option.some.inj h ▸ hk
  | cons operation operations ih =>
    obtain ⟨mid, hmid, hrest⟩ := runEvents_cons h
    refine ih ?_ (fun o ho => hstays o (mem_cons_of_mem _ ho)) hrest
    rcases (Envelope.consumerEffect_step hmid).checkpoint c with heq | ⟨hnone, -⟩ | ⟨hop, -⟩
    · rw [heq, hk]
    · rw [hk] at hnone
      cases hnone
    · exact absurd hop (hstays operation mem_cons_self)

theorem checkpoint_step (hk : s.checkpoint c = some k) (hstays : ¬event.Removes c)
    (h : step s event = some s') : ∃ k', s'.checkpoint c = some k' ∧ k ≤ k' := by
  cases taken_of_step h with
  | commit hbegin hrun =>
    obtain ⟨-, rfl⟩ := Store.beginCommit_eq_some hbegin
    have hrunned := Envelope.checkpoint_run (c := c) hk
      (fun operation hop heq => hstays ⟨operation, hop, heq⟩) hrun
    exact ⟨k, hrunned, Nat.le_refl k⟩
  | deleteArtifact hbegin hupsert =>
    obtain ⟨-, -, -, hconsumers⟩ := Envelope.upsertBarrier_eq_some hupsert
    obtain ⟨-, rfl⟩ := Store.beginCommit_eq_some hbegin
    refine ⟨k, ?_, Nat.le_refl k⟩
    simp only [Store.checkpoint, Envelope.finish, Store.insertRows, hconsumers]
    exact hk
  | @acknowledge _ consumer through now _ hack _ =>
    obtain ⟨current, hcurrent, hle, -, rfl⟩ := Store.acknowledgeOutbox_eq_ok hack
    simp only [Store.checkpoint_completeSatisfiedBarriers, Store.checkpoint_setCheckpoint, hk]
    by_cases hc : c = consumer
    · rw [if_pos hc]
      rw [← hc, hk] at hcurrent
      exact ⟨through, rfl, Option.some.inj hcurrent ▸ hle⟩
    · rw [if_neg hc]
      exact ⟨k, rfl, Nat.le_refl k⟩
  | markPublishedThrough hmark =>
    obtain ⟨-, hframe⟩ := Store.markPublishedThrough_eq_ok hmark
    rw [hframe]
    exact ⟨k, hk, Nat.le_refl k⟩
  | prune _ => exact ⟨k, hk, Nat.le_refl k⟩

theorem checkpoint_run {events : List (Event Name)} (hk : s.checkpoint c = some k)
    (hstays : ∀ event ∈ events, ¬event.Removes c) (h : runEvents step s events = some s') :
    ∃ k', s'.checkpoint c = some k' ∧ k ≤ k' := by
  induction events generalizing s k with
  | nil => exact ⟨k, Option.some.inj h ▸ hk, Nat.le_refl k⟩
  | cons event events ih =>
    obtain ⟨mid, hmid, hrest⟩ := runEvents_cons h
    obtain ⟨k₁, hk₁, hle⟩ := checkpoint_step hk (hstays event mem_cons_self) hmid
    obtain ⟨k₂, hk₂, hle₂⟩ :=
      ih hk₁ (fun e he => hstays e (mem_cons_of_mem _ he)) hrest
    exact ⟨k₂, hk₂, Nat.le_trans hle hle₂⟩

/-! ## Whole runs -/

/-- In every run, with `s` any state of it and `s'` any later one: a row of `s` above the
checkpoint of a consumer registered in `s'` is still there, checkpoints of consumers that stay do
not move backwards, every checkpoint names zero, a commit or the predecessor of one, and what a
prune in `s` removed is at or below every later checkpoint. -/
theorem no_change_lost {before later : List (Event Name)}
    (hbefore : runEvents step Store.empty before = some s)
    (hlater : runEvents step s later = some s') :
    (∀ row ∈ s.outbox, ∀ c k, s'.checkpoint c = some k → k < row.commitSeq →
      row.key ∈ s'.outbox.map OutboxRow.key) ∧
    (∀ c k, s.checkpoint c = some k → (∀ event ∈ later, ¬event.Removes c) →
      ∃ k', s'.checkpoint c = some k' ∧ k ≤ k') ∧
    (∀ c k, s'.checkpoint c = some k →
      k = 0 ∨ k ∈ s'.commitLog ∨ k + 1 ∈ s'.commitLog) ∧
    (∀ horizon rest, s.horizon = some horizon → later = .prune :: rest →
      ∀ c k, s'.checkpoint c = some k → horizon ≤ k) := by
  have hvalid := valid_of_run hbefore
  refine ⟨fun row hrow c k hk hlt => ?_, fun c k hk hstays => checkpoint_run hk hstays hlater,
    fun c k hk => ?_, ?_⟩
  · have hkept : Valid s' ∧ KeptOrPassed row s' :=
      runEvents_invariant (P := fun s : Store Name => Valid s ∧ KeptOrPassed row s)
        (fun hstep hs => ⟨hs.1.step hstep, hs.2.step hs.1 hstep⟩)
        ⟨hvalid, .inl (mem_map_of_mem hrow)⟩ hlater
    rcases hkept.2 with hmem | hfloor
    · exact hmem
    · exact absurd (hfloor.checkpoints c k hk) (Nat.not_le.mpr hlt)
  · exact (runEvents_invariant (fun hstep hs => Valid.step hs hstep) hvalid hlater).named c k hk
  · rintro horizon rest hhorizon rfl c k hk
    obtain ⟨mid, hmid, hrest⟩ := runEvents_cons hlater
    cases taken_of_step hmid with
    | prune hhorizon' =>
      rw [hhorizon] at hhorizon'
      cases hhorizon'
      have hpruned := floor_prune hvalid hhorizon (Nat.le_refl horizon)
      exact (floor_run hpruned hrest).checkpoints c k hk
    | acknowledge _ hevent => rcases hevent with hevent | hevent <;> cases hevent

/-- A reader registers, follows two commits to the first, a prune removes what it has passed, and
a second consumer registers above it. -/
def sampleEvents : List (Event String) × List (Event String) :=
  ([.commit 1 [.register "search" 10], .commit 2 [.change, .change], .commit 3 [.change],
    .acknowledge "search" 2 20],
   [.prune, .commit 4 [.register "mirror" 30]])

theorem no_change_lost_sample :
    ∃ s s' : Store String, runEvents step Store.empty sampleEvents.1 = some s ∧
      runEvents step s sampleEvents.2 = some s' ∧
      s.horizon = some 2 ∧ s'.outbox.map (·.commitSeq) = [3, 4] ∧
      s'.checkpoint "mirror" = some 2 ∧
      (∀ row ∈ s.outbox, ∀ c k, s'.checkpoint c = some k → k < row.commitSeq →
        row.key ∈ s'.outbox.map OutboxRow.key) := by
  have hresult : ((runEvents step Store.empty sampleEvents.1).bind fun s =>
      (runEvents step s sampleEvents.2).map fun s' =>
        (s.horizon, s'.outbox.map (·.commitSeq), s'.checkpoint "mirror")) =
      some (some 2, [3, 4], some 2) := by
    decide +kernel
  obtain ⟨s, hs, hrest⟩ := Option.bind_eq_some_iff.mp hresult
  obtain ⟨s', hs', hfields⟩ := Option.map_eq_some_iff.mp hrest
  obtain ⟨hhorizon, hrows, hmirror⟩ := by simpa using hfields
  exact ⟨s, s', hs, hs', hhorizon, hrows, hmirror, (no_change_lost hs hs').1⟩

end Eidnara.Kernel.Outbox
