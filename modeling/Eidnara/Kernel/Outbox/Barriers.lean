import Eidnara.Kernel.Outbox.Checkpoints
import Mathlib.Data.List.Nodup

/-!
# Deletion barriers

Every incomplete barrier is tied to its latest deletion in the history: each consumer recorded
then has since acknowledged the deletion or been abandoned against the barrier, or is still
registered below it.  A consumer that leaves is done, so one that registers again under the same
name, above the deletion, cannot complete a barrier in its place.
-/

namespace Eidnara.Kernel.Outbox

open Lib List

variable {Name : Type}

/-! ## History -/

section History

variable {history newer : List (Note Name)} {note : Note Name} {barrier consumer : Name}
  {seq : Nat} {consumers : List Name}

/-- The consumer acknowledged the deletion or was abandoned against the barrier. -/
def DoneSince (newer : List (Note Name)) (barrier : Name) (seq : Nat) (consumer : Name) : Prop :=
  (∃ through, seq ≤ through ∧ Note.acknowledged consumer through ∈ newer) ∨
    ∃ commitSeq, seq ≤ commitSeq ∧ Note.abandoned consumer barrier commitSeq ∈ newer

/-- The last deletion that recorded consumers in the barrier, and what came after it. -/
def LatestDeletion (history : List (Note Name)) (barrier : Name) (seq : Nat)
    (consumers : List Name) (newer : List (Note Name)) : Prop :=
  (∃ older, history = newer ++ .deleted barrier seq consumers :: older) ∧
    ∀ seq' consumers', Note.deleted barrier seq' consumers' ∉ newer

/-- What has to precede the completion of a barrier. -/
def Justified (older : List (Note Name)) : Note Name → Prop
  | .completed barriers => ∀ barrier ∈ barriers, ∃ seq consumers newer,
      LatestDeletion older barrier seq consumers newer ∧
        ∀ consumer ∈ consumers, DoneSince newer barrier seq consumer
  | .barrierAbandoned barrier => ∃ seq newer, LatestDeletion older barrier seq [] newer
  | _ => True

def EachJustified : List (Note Name) → Prop
  | [] => True
  | note :: older => Justified older note ∧ EachJustified older

theorem EachJustified.justified {older : List (Note Name)}
    (h : EachJustified (newer ++ note :: older)) : Justified older note := by
  induction newer with
  | nil => exact h.1
  | cons _ newer ih => exact ih h.2

theorem DoneSince.append (added : List (Note Name)) (h : DoneSince newer barrier seq consumer) :
    DoneSince (added ++ newer) barrier seq consumer :=
  h.imp (fun ⟨through, hle, hmem⟩ => ⟨through, hle, mem_append_right _ hmem⟩)
    fun ⟨at', hle, hmem⟩ => ⟨at', hle, mem_append_right _ hmem⟩

theorem LatestDeletion.append (added : List (Note Name))
    (h : LatestDeletion history barrier seq consumers newer)
    (hadded : ∀ seq' consumers', Note.deleted barrier seq' consumers' ∉ added) :
    LatestDeletion (added ++ history) barrier seq consumers (added ++ newer) := by
  obtain ⟨⟨older, rfl⟩, hnewer⟩ := h
  refine ⟨⟨older, by simp⟩, fun seq' consumers' hmem => ?_⟩
  rcases mem_append.mp hmem with hmem | hmem
  · exact hadded seq' consumers' hmem
  · exact hnewer seq' consumers' hmem

theorem eachJustified_append_abandoned (h : EachJustified history) (consumer : Name)
    (blocked : List Name) (commitSeq : Nat) :
    EachJustified (blocked.map (.abandoned consumer · commitSeq) ++ history) := by
  induction blocked with
  | nil => exact h
  | cons _ blocked ih => exact ⟨trivial, ih⟩

end History

variable [DecidableEq Name] {s s' : Store Name} {e e' : Envelope Name}
  {operation : Operation Name} {event : Event Name}

/-! ## Watched barriers -/

/-- Not acknowledged, and registered below the requirement. -/
def Pending (s : Store Name) (row : BarrierConsumerRow Name) : Prop :=
  row.acknowledgedAt = none ∧ ∃ k, s.checkpoint row.consumerId = some k ∧ k < row.required

structure Watched (s : Store Name) (tip : Nat) (b : BarrierRow Name) (consumers : List Name)
    (newer : List (Note Name)) : Prop where
  latest : LatestDeletion s.history b.barrierId b.deleteCommitSeq consumers newer
  le_tip : b.deleteCommitSeq ≤ tip
  recorded : ∀ c ∈ consumers,
    ∃ row ∈ s.barrierConsumers, row.barrierId = b.barrierId ∧ row.consumerId = c
  rows : ∀ row ∈ s.barrierConsumers, row.barrierId = b.barrierId →
    row.required = b.deleteCommitSeq ∧
      (DoneSince newer b.barrierId b.deleteCommitSeq row.consumerId ∨ Pending s row)
  abandonments : ∀ a ∈ s.abandonments, a.barrierId = some b.barrierId →
    b.deleteCommitSeq ≤ a.commitSeq →
      Note.abandoned a.consumerId b.barrierId a.commitSeq ∈ newer

/-- What every reachable store keeps about its barriers; `tip` is that of the commits before the
one in progress. -/
structure Tracked (s : Store Name) (tip : Nat) : Prop where
  ids : (s.barriers.map (·.barrierId)).Nodup
  open_unique : ∀ b ∈ s.barriers, ∀ b' ∈ s.barriers, b.completedAt = none →
    b'.completedAt = none → b.digest = b'.digest → b = b'
  abandoned_mem : ∀ a ∈ s.abandonments, a.commitSeq ∈ s.commitLog
  justified : EachJustified s.history
  closed : ∀ b ∈ s.barriers, b.completedAt ≠ none →
    (∃ barriers, Note.completed barriers ∈ s.history ∧ b.barrierId ∈ barriers) ∨
      Note.barrierAbandoned b.barrierId ∈ s.history
  watched : ∀ b ∈ s.barriers, b.completedAt = none →
    ∃ consumers newer, Watched s tip b consumers newer

variable {tip : Nat} {b : BarrierRow Name}

theorem Tracked.eq_of_barrierId (h : Tracked s tip) {b' : BarrierRow Name} (hb : b ∈ s.barriers)
    (hb' : b' ∈ s.barriers) (heq : b.barrierId = b'.barrierId) : b = b' :=
  inj_on_of_nodup_map h.ids hb hb' heq

theorem tracked_empty (tip : Nat) : Tracked (Store.empty : Store Name) tip where
  ids := nodup_nil
  open_unique := by simp [Store.empty]
  abandoned_mem := by simp [Store.empty]
  justified := trivial
  closed := by simp [Store.empty]
  watched := by simp [Store.empty]

/-! ## Updates that keep the barriers -/

/-- A watched barrier stays watched while its rows stay and none of the pending ones is lost. -/
theorem Watched.advance {tip' : Nat} {consumers : List Name} {newer : List (Note Name)}
    (h : Watched s tip b consumers newer) (added : List (Note Name))
    (hrows : s'.barrierConsumers = s.barrierConsumers) (hhistory : s'.history = added ++ s.history)
    (hadded : ∀ seq' consumers', Note.deleted b.barrierId seq' consumers' ∉ added)
    (htip : tip ≤ tip')
    (hpending : ∀ row ∈ s.barrierConsumers, row.barrierId = b.barrierId →
      row.required = b.deleteCommitSeq → Pending s row →
        DoneSince (added ++ newer) b.barrierId b.deleteCommitSeq row.consumerId ∨ Pending s' row)
    (habandonments : ∀ a ∈ s'.abandonments, a.barrierId = some b.barrierId → a ∈ s.abandonments ∨
      Note.abandoned a.consumerId b.barrierId a.commitSeq ∈ added) :
    Watched s' tip' b consumers (added ++ newer) where
  latest := hhistory ▸ h.latest.append added hadded
  le_tip := Nat.le_trans h.le_tip htip
  recorded := hrows ▸ h.recorded
  rows := by
    rw [hrows]
    intro row hrow hid
    obtain ⟨hrequired, hstate⟩ := h.rows row hrow hid
    refine ⟨hrequired, ?_⟩
    rcases hstate with hdone | hstate
    · exact .inl (hdone.append added)
    · exact hpending row hrow hid hrequired hstate
  abandonments := by
    intro a ha hid hle
    rcases habandonments a ha hid with hold | hnew
    · exact mem_append_right _ (h.abandonments a hold hid hle)
    · exact mem_append_left _ hnew

theorem not_reached_of_pending {row : BarrierConsumerRow Name} (h : Pending s row) :
    s.reached row = false := by
  obtain ⟨-, k, hk, hlt⟩ := h
  simp only [Store.reached, hk, Option.any_some]
  exact decide_eq_false (Nat.not_le.mpr hlt)

variable {consumer : Name} {through now : Nat}

section

variable (h : Tracked s tip)

include h

theorem Tracked.advance {tip' : Nat} (added : List (Note Name))
    (hbarriers : s'.barriers = s.barriers) (hhistory : s'.history = added ++ s.history)
    (habandoned : ∀ a ∈ s'.abandonments, a.commitSeq ∈ s'.commitLog)
    (hjustified : EachJustified (added ++ s.history))
    (hwatched : ∀ b ∈ s.barriers, b.completedAt = none → ∀ consumers newer,
      Watched s tip b consumers newer → Watched s' tip' b consumers (added ++ newer)) :
    Tracked s' tip' where
  ids := hbarriers ▸ h.ids
  open_unique := hbarriers ▸ h.open_unique
  abandoned_mem := habandoned
  justified := hhistory ▸ hjustified
  closed := by
    rw [hbarriers, hhistory]
    exact fun b hb hdone => (h.closed b hb hdone).imp
      (fun ⟨barriers, hmem, hid⟩ => ⟨barriers, mem_append_right _ hmem, hid⟩)
      (mem_append_right _)
  watched := by
    rw [hbarriers]
    intro b hb hopen
    obtain ⟨consumers, newer, hold⟩ := h.watched b hb hopen
    exact ⟨consumers, _, hwatched b hb hopen consumers newer hold⟩

theorem Tracked.of_frame {tip' : Nat} (hbarriers : s'.barriers = s.barriers)
    (hrows : s'.barrierConsumers = s.barrierConsumers)
    (habandonments : s'.abandonments = s.abandonments) (hhistory : s'.history = s.history)
    (hlog : ∀ seq ∈ s.commitLog, seq ∈ s'.commitLog)
    (hcheckpoint : ∀ c k, s.checkpoint c = some k → s'.checkpoint c = some k) (htip : tip ≤ tip') :
    Tracked s' tip' := by
  refine h.advance [] hbarriers hhistory
    (fun a ha => hlog _ (h.abandoned_mem a (habandonments ▸ ha))) h.justified ?_
  intro b _ _ consumers newer hwatched
  refine hwatched.advance [] hrows hhistory (by simp) htip ?_
    (fun a ha _ => .inl (habandonments ▸ ha))
  rintro row - - - ⟨hnone, k, hk, hlt⟩
  exact .inr ⟨hnone, k, hcheckpoint _ k hk, hlt⟩

theorem Tracked.addConsumer {row : ConsumerRow Name} : Tracked (s.addConsumer row) tip := by
  refine h.of_frame rfl rfl rfl rfl (fun _ => id) (fun c k hk => ?_) (Nat.le_refl tip)
  rw [Store.checkpoint_addConsumer, hk]
  rfl

/-- The consumer can leave once it is done with every incomplete barrier. -/
theorem Tracked.removeConsumer
    (hdone : ∀ b ∈ s.barriers, b.completedAt = none →
      ∀ consumers newer, Watched s tip b consumers newer →
        ∀ row ∈ s.barrierConsumers, row.barrierId = b.barrierId → row.consumerId = consumer →
          DoneSince newer b.barrierId b.deleteCommitSeq consumer) :
    Tracked (s.removeConsumer consumer) tip := by
  refine h.advance [] rfl rfl h.abandoned_mem h.justified ?_
  intro b hb hopen consumers newer hwatched
  refine hwatched.advance [] rfl rfl (by simp) (Nat.le_refl tip) ?_ (fun a ha _ => .inl ha)
  rintro row hrow hid - ⟨hnone, k, hk, hlt⟩
  by_cases hconsumer : row.consumerId = consumer
  · rw [hconsumer]
    exact .inl (hdone b hb hopen consumers newer hwatched row hrow hid hconsumer)
  · exact .inr ⟨hnone, k, by rw [Store.checkpoint_removeConsumer, if_neg hconsumer, hk], hlt⟩

/-- An acknowledgement makes the consumer done with what it reaches and leaves the rest
pending. -/
theorem Tracked.setCheckpoint : Tracked (s.setCheckpoint consumer through now) tip := by
  refine h.advance [.acknowledged consumer through] rfl rfl h.abandoned_mem
    ⟨trivial, h.justified⟩ ?_
  intro b _ _ consumers newer hwatched
  refine hwatched.advance [.acknowledged consumer through] rfl rfl (by simp) (Nat.le_refl tip) ?_
    (fun a ha _ => .inl ha)
  rintro row - - hrequired ⟨hnone, k, hk, hlt⟩
  by_cases hconsumer : row.consumerId = consumer
  · by_cases hreach : b.deleteCommitSeq ≤ through
    · exact .inl (.inl ⟨through, hreach, by simp [hconsumer]⟩)
    · refine .inr ⟨hnone, through, ?_, by omega⟩
      rw [Store.checkpoint_setCheckpoint, if_pos hconsumer, hk]
      rfl
  · refine .inr ⟨hnone, k, ?_, hlt⟩
    rw [Store.checkpoint_setCheckpoint, if_neg hconsumer, hk]

theorem Tracked.acknowledgeReached {completedAt : Nat} :
    Tracked (s.acknowledgeReached completedAt) tip where
  ids := h.ids
  open_unique := h.open_unique
  abandoned_mem := h.abandoned_mem
  justified := h.justified
  closed := h.closed
  watched := by
    intro b hb hopen
    obtain ⟨consumers, newer, hwatched⟩ := h.watched b hb hopen
    refine ⟨consumers, newer, hwatched.latest, hwatched.le_tip, fun c hc => ?_,
      fun row hrow hid => ?_, hwatched.abandonments⟩
    · obtain ⟨row, hrow, hid, hconsumer⟩ := hwatched.recorded c hc
      refine ⟨_, mem_map_of_mem hrow, ?_⟩
      split <;> exact ⟨hid, hconsumer⟩
    · obtain ⟨row, hold, rfl⟩ := mem_map.mp hrow
      by_cases hreached : row.acknowledgedAt = none ∧ s.reached row = true
      · rw [if_pos hreached] at hid ⊢
        obtain ⟨hrequired, hstate⟩ := hwatched.rows row hold hid
        refine ⟨hrequired, .inl (hstate.resolve_right fun hpending => ?_)⟩
        rw [not_reached_of_pending hpending] at hreached
        cases hreached.2
      · rw [if_neg hreached] at hid ⊢
        exact hwatched.rows row hold hid

/-! ## Completion -/

theorem Tracked.done_of_satisfied (hb : b ∈ s.barriers) (hsatisfied : s.satisfied b = true) :
    ∃ seq consumers newer, LatestDeletion s.history b.barrierId seq consumers newer ∧
      ∀ c ∈ consumers, DoneSince newer b.barrierId seq c := by
  simp only [Store.satisfied, Bool.and_eq_true, all_eq_true, Bool.or_eq_true,
    Option.isNone_iff_eq_none] at hsatisfied
  obtain ⟨⟨hopen, -⟩, hall⟩ := hsatisfied
  obtain ⟨consumers, newer, hwatched⟩ := h.watched b hb hopen
  refine ⟨_, consumers, newer, hwatched.latest, fun c hc => ?_⟩
  obtain ⟨row, hrow, hid, rfl⟩ := hwatched.recorded c hc
  obtain ⟨hrequired, hstate⟩ := hwatched.rows row hrow hid
  rcases hstate with hdone | hpending
  · exact hdone
  rcases hall row hrow with ((hother | hacknowledged) | hreached) | habandoned
  · simp [hid] at hother
  · simp [hpending.1] at hacknowledged
  · rw [not_reached_of_pending hpending] at hreached
    cases hreached
  · simp only [Store.abandoned, any_eq_true, decide_eq_true_eq] at habandoned
    obtain ⟨a, ha, hbarrier, hconsumer, hle⟩ := habandoned
    rw [hid] at hbarrier
    rw [hrequired] at hle
    exact .inr ⟨a.commitSeq, hle, hconsumer ▸ hwatched.abandonments a ha hbarrier hle⟩

theorem Tracked.complete {p : BarrierRow Name → Bool} (completedAt : Nat) (note : Note Name)
    (hnote : Justified s.history note)
    (hdeleted : ∀ barrier seq consumers, note ≠ .deleted barrier seq consumers)
    (hclosed : ∀ b ∈ s.barriers, p b = true →
      (∃ barriers, note = .completed barriers ∧ b.barrierId ∈ barriers) ∨
        note = .barrierAbandoned b.barrierId) :
    Tracked { s with
      barriers := s.barriers.map fun b =>
        if p b then { b with completedAt := some completedAt } else b
      history := note :: s.history } tip where
  ids := by
    rw [map_map, map_congr_left (g := (·.barrierId))]
    · exact h.ids
    · intro b _
      simp only [Function.comp_apply]
      split <;> rfl
  open_unique := by
    intro b hb b' hb' hopen hopen' hdigest
    obtain ⟨b, hold, rfl⟩ := mem_map.mp hb
    obtain ⟨b', hold', rfl⟩ := mem_map.mp hb'
    by_cases hp : p b
    · simp [hp] at hopen
    by_cases hp' : p b'
    · simp [hp'] at hopen'
    simp only [hp, hp'] at hopen hopen' hdigest ⊢
    exact h.open_unique b hold b' hold' hopen hopen' hdigest
  abandoned_mem := h.abandoned_mem
  justified := ⟨hnote, h.justified⟩
  closed := by
    intro b hb hdone
    obtain ⟨b, hold, rfl⟩ := mem_map.mp hb
    by_cases hp : p b
    · simp only [hp, if_true]
      rcases hclosed b hold hp with ⟨barriers, rfl, hid⟩ | rfl
      · exact .inl ⟨barriers, mem_cons_self, hid⟩
      · exact .inr mem_cons_self
    · simp only [hp] at hdone ⊢
      exact (h.closed b hold hdone).imp
        (fun ⟨barriers, hmem, hid⟩ => ⟨barriers, mem_cons_of_mem _ hmem, hid⟩)
        (mem_cons_of_mem _)
  watched := by
    intro b hb hopen
    obtain ⟨b, hold, rfl⟩ := mem_map.mp hb
    by_cases hp : p b
    · simp [hp] at hopen
    simp only [hp] at hopen ⊢
    obtain ⟨consumers, newer, hwatched⟩ := h.watched b hold hopen
    refine ⟨consumers, _, hwatched.advance [note] rfl rfl ?_ (Nat.le_refl tip)
      (fun _ _ _ _ hpending => .inr hpending) (fun a ha _ => .inl ha)⟩
    intro seq consumers hmem
    exact hdeleted _ _ _ (mem_singleton.mp hmem).symm

theorem Tracked.completeSatisfiedBarriers {completedAt : Nat} :
    Tracked (s.completeSatisfiedBarriers completedAt) tip := by
  have hack : Tracked (s.acknowledgeReached completedAt) tip := h.acknowledgeReached
  refine hack.complete completedAt _ ?_ (fun _ _ _ => by simp) fun b hb hp => .inl ⟨_, rfl, ?_⟩
  · intro barrier hbarrier
    obtain ⟨b, hb, rfl⟩ := mem_map.mp hbarrier
    exact hack.done_of_satisfied (mem_filter.mp hb).1 (mem_filter.mp hb).2
  · exact mem_map_of_mem (mem_filter.mpr ⟨hb, hp⟩)

end

/-! ## Operations of a commit -/

theorem Tracked.deregister {recordedAt : Nat} (h : Tracked e.store tip)
    (htip : tip ≤ e.preOperationTip)
    (hop : e.deregisterOutboxConsumer consumer recordedAt = .ok e') :
    Tracked e'.store tip := by
  obtain ⟨checkpoint, hcheckpoint, hle, rfl⟩ := Envelope.deregisterOutboxConsumer_eq_ok hop
  refine h.completeSatisfiedBarriers.removeConsumer ?_
  rintro b hb hopen consumers newer hwatched row hrow hid rfl
  obtain ⟨hrequired, hstate⟩ := hwatched.rows row hrow hid
  refine hstate.resolve_right ?_
  -- the checkpoint has passed the tip, and the deletion is not after the tip
  rintro ⟨-, k, hk, hlt⟩
  have hdeletion := hwatched.le_tip
  rw [Store.checkpoint_completeSatisfiedBarriers, hcheckpoint] at hk
  cases hk
  omega

theorem Tracked.acknowledge (h : Tracked s tip)
    (hack : s.acknowledgeOutbox consumer through now = .ok s') : Tracked s' tip := by
  obtain ⟨current, -, -, -, rfl⟩ := Store.acknowledgeOutbox_eq_ok hack
  exact h.setCheckpoint.completeSatisfiedBarriers

variable {named : Option Name}

theorem mem_blockedBarriers {row : BarrierConsumerRow Name} (hb : b ∈ e.store.barriers)
    (hopen : b.completedAt = none) (hrow : row ∈ e.store.barrierConsumers)
    (hid : row.barrierId = b.barrierId) (hconsumer : row.consumerId = consumer) :
    b.barrierId ∈ e.blockedBarriers consumer named := by
  refine mem_map.mpr ⟨row, mem_filter.mpr ⟨hrow, ?_⟩, hid⟩
  simp only [decide_eq_true_eq, any_eq_true]
  exact ⟨hconsumer, b, hb, hid.symm, .inl hopen⟩

theorem recordAbandonments_frame (consumer : Name) (named : Option Name)
    (checkpoint abandonedAt : Nat) :
    let s' := e.recordAbandonments consumer named checkpoint abandonedAt
    s'.barriers = e.store.barriers ∧ s'.barrierConsumers = e.store.barrierConsumers ∧
      s'.history =
        (e.blockedBarriers consumer named).map (.abandoned consumer · e.commitSeq) ++
          e.store.history := by
  simp only [Envelope.recordAbandonments]
  split
  case h_1 hblocked => exact ⟨rfl, rfl, by rw [hblocked]; rfl⟩
  case h_2 => exact ⟨rfl, rfl, rfl⟩

variable {checkpoint abandonedAt : Nat}

theorem mem_recordAbandonments {a : AbandonmentRow Name}
    (h : a ∈ (e.recordAbandonments consumer named checkpoint abandonedAt).abandonments) :
    a ∈ e.store.abandonments ∨
      (a.commitSeq = e.commitSeq ∧ ∀ barrier, a.barrierId = some barrier →
        a.consumerId = consumer ∧ barrier ∈ e.blockedBarriers consumer named) := by
  unfold Envelope.recordAbandonments at h
  split at h
  case h_1 =>
      rcases mem_cons.mp h with rfl | h
      · exact .inr ⟨rfl, fun barrier hbarrier => nomatch hbarrier⟩
      · exact .inl h
  case h_2 =>
      rcases mem_append.mp h with h | h
      · obtain ⟨blocked, hblocked, rfl⟩ := mem_map.mp h
        refine .inr ⟨rfl, fun barrier hbarrier => ⟨rfl, ?_⟩⟩
        exact Option.some.inj hbarrier ▸ hblocked
      · exact .inl h

variable {barrier : Name}

theorem exists_abandonment (h : barrier ∈ e.blockedBarriers consumer named) :
    ∃ a ∈ (e.recordAbandonments consumer named checkpoint abandonedAt).abandonments,
      a.consumerId = consumer ∧ a.barrierId = some barrier ∧ a.commitSeq = e.commitSeq := by
  unfold Envelope.recordAbandonments
  split
  case h_1 hblocked =>
      rw [hblocked] at h
      cases h
  case h_2 =>
      exact ⟨_, mem_append_left _ (mem_map_of_mem h), rfl, rfl, rfl⟩

theorem Tracked.recordAbandonments (h : Tracked e.store tip)
    (hseq : e.commitSeq ∈ e.store.commitLog) :
    Tracked (e.recordAbandonments consumer named checkpoint abandonedAt) tip := by
  obtain ⟨hbarriers, hrows, hhistory⟩ :=
    recordAbandonments_frame (e := e) consumer named checkpoint abandonedAt
  obtain ⟨hconsumers, -, hlog⟩ :=
    Envelope.recordAbandonments_consumers (e := e) consumer named checkpoint abandonedAt
  refine h.advance _ hbarriers hhistory (fun a ha => ?_)
    (eachJustified_append_abandoned h.justified consumer _ _) ?_
  · rw [hlog]
    rcases mem_recordAbandonments ha with ha | ⟨ha, -⟩
    · exact h.abandoned_mem a ha
    · exact ha ▸ hseq
  · intro b _ _ consumers newer hwatched
    refine hwatched.advance _ hrows hhistory (by simp) (Nat.le_refl tip) ?_ fun a ha hid => ?_
    · rintro row - - - ⟨hnone, k, hk, hlt⟩
      exact .inr ⟨hnone, k, by rw [Store.checkpoint, hconsumers]; exact hk, hlt⟩
    · refine (mem_recordAbandonments ha).imp_right fun hnew => ?_
      obtain ⟨hconsumer, hmem⟩ := hnew.2 _ hid
      rw [hconsumer, hnew.1]
      exact mem_map_of_mem hmem

theorem Tracked.abandonConsumer (h : Tracked e.store tip) (hseq : e.commitSeq ∈ e.store.commitLog)
    (htip : tip < e.commitSeq) (hop : e.abandonOutboxConsumer consumer named abandonedAt = .ok e') :
    Tracked e'.store tip := by
  obtain ⟨checkpoint, -, rfl⟩ := Envelope.abandonOutboxConsumer_eq_ok hop
  obtain ⟨hbarriers, hrows, -⟩ :=
    recordAbandonments_frame (e := e) consumer named checkpoint abandonedAt
  refine ((h.recordAbandonments hseq).removeConsumer ?_).completeSatisfiedBarriers
  rw [hbarriers, hrows]
  intro b hb hopen consumers newer hwatched row hrow hid hconsumer
  obtain ⟨a, ha, hconsumer', hbarrier, hcommit⟩ := exists_abandonment
    (mem_blockedBarriers hb hopen hrow hid hconsumer)
  have hle : b.deleteCommitSeq ≤ a.commitSeq :=
    hcommit ▸ Nat.le_trans hwatched.le_tip (Nat.le_of_lt htip)
  exact .inr ⟨a.commitSeq, hle, hconsumer' ▸ hwatched.abandonments a ha hbarrier hle⟩

theorem Tracked.abandonBarrier (h : Tracked e.store tip)
    (hop : e.abandonDeletionBarrier barrier abandonedAt = .ok e') : Tracked e'.store tip := by
  obtain ⟨hrows, hopen, rfl⟩ := Envelope.abandonDeletionBarrier_eq_ok hop
  obtain ⟨b, hb, rfl, hincomplete⟩ := hopen
  have hcomplete := h.complete (p := fun b' => b'.barrierId = b.barrierId ∧ b'.completedAt = none)
    abandonedAt (.barrierAbandoned b.barrierId) ?_ (by simp) (fun b' _ hp => .inr ?_)
  · simpa [Envelope.pushControlChange] using hcomplete
  · obtain ⟨consumers, newer, hwatched⟩ := h.watched b hb hincomplete
    obtain rfl : consumers = [] := by
      refine eq_nil_iff_forall_not_mem.mpr fun c hc => ?_
      obtain ⟨row, hrow, hid, -⟩ := hwatched.recorded c hc
      exact hrows row hrow hid
    exact ⟨_, newer, hwatched.latest⟩
  · simp only [decide_eq_true_eq] at hp
    rw [hp.1]

theorem Tracked.envelope_step (h : Tracked e.store tip) (htip : tip ≤ e.preOperationTip)
    (hlt : tip < e.commitSeq) (hseq : e.commitSeq ∈ e.store.commitLog)
    (hstep : e.step operation = some e') : Tracked e'.store tip := by
  replace hstep : e.apply operation = .ok e' := toOption_eq_some_iff.mp hstep
  cases operation with
  | change =>
    cases hstep
    exact h
  | register consumer recordedAt =>
    obtain ⟨-, rfl⟩ := Envelope.registerOutboxConsumer_eq_ok hstep
    exact h.addConsumer
  | deregister consumer recordedAt => exact h.deregister htip hstep
  | retire consumer certifiedThrough recordedAt =>
    rcases Envelope.retireOutboxConsumer_eq_ok hstep with hstep | ⟨store, hack, hstep⟩
    · exact h.deregister htip hstep
    · refine Tracked.deregister (h.acknowledge hack) ?_ hstep
      obtain ⟨current, -, -, -, rfl⟩ := Store.acknowledgeOutbox_eq_ok hack
      exact htip
  | abandonConsumer consumer barrier abandonedAt => exact h.abandonConsumer hseq hlt hstep
  | abandonBarrier barrier abandonedAt => exact h.abandonBarrier hstep

/-! ## Deletions -/

/-- What the insertion of a barrier does to the barriers, under the id chosen for the digest. -/
structure Inserted (s : Store Name) (barrier digest : Name) (commitSeq : Nat) (s' : Store Name) :
    Prop where
  ids : (s'.barriers.map (·.barrierId)).Nodup
  mem : ∀ b ∈ s'.barriers, (b ∈ s.barriers ∧ b.barrierId ≠ barrier) ∨
    (b.barrierId = barrier ∧ b.digest = digest ∧ b.deleteCommitSeq = commitSeq ∧
      b.completedAt = none)
  eq_barrier : ∀ b ∈ s.barriers, b.completedAt = none → b.digest = digest → b.barrierId = barrier
  completed : ∀ b ∈ s.barriers, b.completedAt ≠ none → b ∈ s'.barriers ∧ b.barrierId ≠ barrier
  frame : s' = { s with barriers := s'.barriers }

variable {commitSeq : Nat} {digest : Name}

theorem inserted_of_open {deletedAt : Nat} {opened : BarrierRow Name} (h : Tracked s tip)
    (hmem : opened ∈ s.barriers) (hopen : opened.completedAt = none)
    (hdigest : opened.digest = digest)
    (hs' : s' = { s with
      barriers := s.barriers.map fun b =>
        if b.digest = digest ∧ b.completedAt = none then
          { b with deleteCommitSeq := commitSeq, createdAt := deletedAt }
        else b }) :
    Inserted s opened.barrierId digest commitSeq s' := by
  subst hs'
  have heq : ∀ b ∈ s.barriers, b.completedAt = none → b.digest = digest → b = opened :=
    fun b hb hb' hd => h.open_unique b hb opened hmem hb' hopen (hd.trans hdigest.symm)
  refine ⟨?_, fun b hb => ?_, fun b hb hb' hd => ?_, fun b hb hdone => ⟨?_, ?_⟩, rfl⟩
  · rw [map_map, map_congr_left (g := (·.barrierId))]
    · exact h.ids
    · intro b _
      simp only [Function.comp_apply]
      split <;> rfl
  · obtain ⟨b, hold, rfl⟩ := mem_map.mp hb
    by_cases hp : b.digest = digest ∧ b.completedAt = none
    · rw [if_pos hp]
      exact .inr ⟨by rw [heq b hold hp.2 hp.1], hp.1, rfl, hp.2⟩
    · rw [if_neg hp]
      refine .inl ⟨hold, fun hid => hp ?_⟩
      rw [h.eq_of_barrierId hold hmem hid]
      exact ⟨hdigest, hopen⟩
  · rw [heq b hb hb' hd]
  · refine mem_map.mpr ⟨b, hb, if_neg fun hp => hdone hp.2⟩
  · intro hid
    rw [h.eq_of_barrierId hb hmem hid] at hdone
    exact hdone hopen

theorem inserted_of_insertBarrier {deletedAt : Nat} {fresh : Name} (h : Tracked s tip)
    (hinsert : s.insertBarrier (s.barrierFor digest fresh) digest commitSeq deletedAt = some s') :
    Inserted s (s.barrierFor digest fresh) digest commitSeq s' := by
  unfold Store.insertBarrier at hinsert
  cases hfind : s.barriers.find? fun b => b.digest = digest ∧ b.completedAt = none with
  | some opened =>
    have hmem := mem_of_find?_eq_some hfind
    obtain ⟨hdigest, hopen⟩ : opened.digest = digest ∧ opened.completedAt = none := by
      simpa using find?_some hfind
    have hany : (s.barriers.any fun b => b.digest = digest ∧ b.completedAt = none) = true :=
      any_eq_true.mpr ⟨opened, hmem, by simp [hdigest, hopen]⟩
    rw [if_pos hany] at hinsert
    have hfor : s.barrierFor digest fresh = opened.barrierId := by
      simp only [Store.barrierFor, hfind, Option.map_some, Option.getD_some]
    rw [hfor]
    exact inserted_of_open h hmem hopen hdigest (Option.some.inj hinsert).symm
  | none =>
    have hnone := find?_eq_none.mp hfind
    simp only [decide_eq_true_eq, not_and] at hnone
    have hany : ¬(s.barriers.any fun b => b.digest = digest ∧ b.completedAt = none) = true := by
      simpa using hnone
    have hfor : s.barrierFor digest fresh = fresh := by
      simp only [Store.barrierFor, hfind, Option.map_none, Option.getD_none]
    rw [if_neg hany, hfor] at hinsert
    rw [hfor]
    by_cases hused : (s.barriers.any (·.barrierId = fresh)) = true
    · rw [if_pos hused] at hinsert
      cases hinsert
    rw [if_neg hused] at hinsert
    have hunused : ∀ b ∈ s.barriers, b.barrierId ≠ fresh := by simpa using hused
    cases hinsert
    refine ⟨?_, fun b hb => ?_, fun b hb hb' hd => absurd hb' (hnone b hb hd),
      fun b hb _ => ⟨mem_append_left _ hb, hunused b hb⟩, rfl⟩
    · rw [map_append]
      refine nodup_append.mpr ⟨h.ids, by simp, ?_⟩
      intro id hid id' hid'
      obtain ⟨b, hb, rfl⟩ := mem_map.mp hid
      obtain rfl : id' = fresh := by simpa using hid'
      exact hunused b hb
    · rcases mem_append.mp hb with hb | hb
      · exact .inl ⟨hb, hunused b hb⟩
      · obtain rfl := mem_singleton.mp hb
        exact .inr ⟨rfl, rfl, rfl, rfl⟩

/-- The rows of the barrier are those of the consumers registered now, all pending. -/
theorem Tracked.recordConsumers (h : Tracked s tip)
    (hinserted : Inserted s barrier digest commitSeq s')
    (hbelow : ∀ c k, s.checkpoint c = some k → k < commitSeq)
    (habandoned : ∀ a ∈ s.abandonments, a.commitSeq < commitSeq) (htip : tip ≤ commitSeq) :
    Tracked (s'.recordConsumers barrier commitSeq) commitSeq := by
  have hframe := hinserted.frame
  have hrows : s'.barrierConsumers = s.barrierConsumers := by rw [hframe]
  have hhistory : s'.history = s.history := by rw [hframe]
  have habandonments : s'.abandonments = s.abandonments := by rw [hframe]
  have hconsumers : s'.consumers = s.consumers := by rw [hframe]
  have hlog : s'.commitLog = s.commitLog := by rw [hframe]
  refine ⟨hinserted.ids, ?_, ?_, ⟨trivial, hhistory ▸ h.justified⟩, ?_, ?_⟩
  · intro b hb b' hb' hopen hopen' hdigest
    rcases hinserted.mem b hb with ⟨hb, hne⟩ | ⟨hid, hd, -, -⟩ <;>
      rcases hinserted.mem b' hb' with ⟨hb', hne'⟩ | ⟨hid', hd', -, -⟩
    · exact h.open_unique b hb b' hb' hopen hopen' hdigest
    · exact absurd (hinserted.eq_barrier b hb hopen (hdigest.trans hd')) hne
    · exact absurd (hinserted.eq_barrier b' hb' hopen' (hdigest.symm.trans hd)) hne'
    · exact inj_on_of_nodup_map hinserted.ids hb hb' (hid.trans hid'.symm)
  · intro a ha
    simp only [Store.recordConsumers, habandonments, hlog] at ha ⊢
    exact h.abandoned_mem a ha
  · intro b hb hdone
    rcases hinserted.mem b hb with ⟨hb, -⟩ | ⟨-, -, -, hopen⟩
    · simp only [Store.recordConsumers, hhistory]
      exact (h.closed b hb hdone).imp
        (fun ⟨barriers, hmem, hid⟩ => ⟨barriers, mem_cons_of_mem _ hmem, hid⟩)
        (mem_cons_of_mem _)
    · exact absurd hopen hdone
  · intro b hb hopen
    rcases hinserted.mem b hb with ⟨hb, hne⟩ | ⟨rfl, -, hseq, -⟩
    · -- another barrier: its rows and its latest deletion stay
      obtain ⟨consumers, newer, hwatched⟩ := h.watched b hb hopen
      refine ⟨consumers, [Note.deleted barrier commitSeq (s.consumers.map (·.consumerId))] ++ newer,
        ?_, Nat.le_trans hwatched.le_tip htip, fun c hc => ?_, fun row hrow hid => ?_,
        fun a ha hid hle => ?_⟩
      · simp only [Store.recordConsumers, hhistory, hconsumers]
        refine hwatched.latest.append [Note.deleted barrier commitSeq _]
          fun seq' consumers' hmem => ?_
        obtain ⟨hid, -⟩ := by simpa using hmem
        exact hne hid
      · obtain ⟨row, hrow, hid, hconsumer⟩ := hwatched.recorded c hc
        refine ⟨row, mem_append_left _ (mem_filter.mpr ⟨hrows ▸ hrow, ?_⟩), hid, hconsumer⟩
        simpa [hid] using hne
      · rcases mem_append.mp hrow with hrow | hrow
        · have hmem : row ∈ s.barrierConsumers := hrows ▸ (mem_filter.mp hrow).1
          obtain ⟨hrequired, hstate⟩ := hwatched.rows row hmem hid
          refine ⟨hrequired, hstate.imp (·.append _) ?_⟩
          rintro ⟨hnone, k, hk, hlt⟩
          refine ⟨hnone, k, ?_, hlt⟩
          simp only [Store.checkpoint, Store.recordConsumers, hconsumers]
          exact hk
        · obtain ⟨c, -, rfl⟩ := mem_map.mp hrow
          exact absurd hid.symm hne
      · simp only [Store.recordConsumers, habandonments] at ha
        exact mem_cons_of_mem _ (hwatched.abandonments a ha hid hle)
    · refine ⟨s.consumers.map (·.consumerId), [], ⟨⟨s.history, ?_⟩, by simp⟩, Nat.le_of_eq hseq,
        fun c hc => ?_, fun row hrow hid => ?_, fun a ha _ hle => ?_⟩
      · simp only [Store.recordConsumers, hhistory, hconsumers, hseq, nil_append]
      · obtain ⟨row, hrow, rfl⟩ := mem_map.mp hc
        exact ⟨_, mem_append_right _ (mem_map_of_mem (hconsumers ▸ hrow)), rfl, rfl⟩
      · rcases mem_append.mp hrow with hrow | hrow
        · exact absurd hid (by simpa using (mem_filter.mp hrow).2)
        · obtain ⟨c, hc, rfl⟩ := mem_map.mp hrow
          rw [hconsumers] at hc
          obtain ⟨k, hk⟩ := Store.exists_checkpoint_of_row hc
          refine ⟨hseq.symm, .inr ⟨rfl, k, ?_, hbelow _ k hk⟩⟩
          simp only [Store.checkpoint, Store.recordConsumers, hconsumers]
          exact hk
      · simp only [Store.recordConsumers, habandonments] at ha
        have hlt := habandoned a ha
        omega

/-! ## Transactions -/

theorem Tracked.beginCommit (h : Tracked s s.tip) (hbegin : s.beginCommit commitSeq = some e) :
    Tracked e.store s.tip := by
  obtain ⟨-, rfl⟩ := Store.beginCommit_eq_some hbegin
  exact h.of_frame rfl rfl rfl rfl (fun _ => mem_cons_of_mem _) (fun _ _ => id)
    (Nat.le_refl _)

theorem Tracked.finish (h : Tracked e.store tip) (hle : tip ≤ e.commitSeq)
    (hseq : e.commitSeq ∈ e.store.commitLog) : Tracked e.finish e.finish.tip :=
  h.of_frame rfl rfl rfl rfl (fun _ => id) (fun _ _ => id)
    (Nat.le_trans hle (Store.le_tip (s := e.finish) hseq))

def InCommit (tip : Nat) (e : Envelope Name) : Prop :=
  tip ≤ e.preOperationTip ∧ tip < e.commitSeq ∧ e.commitSeq ∈ e.store.commitLog

omit [DecidableEq Name] in
theorem inCommit_of_beginCommit (hbegin : s.beginCommit commitSeq = some e) : InCommit s.tip e := by
  have htip := Store.preOperationTip_beginCommit hbegin
  obtain ⟨hlt, rfl⟩ := Store.beginCommit_eq_some hbegin
  exact ⟨Nat.le_of_eq htip.symm, hlt, mem_cons_self⟩

theorem InCommit.step (h : InCommit tip e) (hstep : e.step operation = some e') :
    InCommit tip e' := by
  have heffect := Envelope.consumerEffect_step hstep
  simp only [InCommit, Envelope.preOperationTip, heffect.commitSeq, heffect.commitLog]
  exact h

theorem Tracked.step (hvalid : Valid s) (h : Tracked s s.tip) (hstep : step s event = some s') :
    Tracked s' s'.tip := by
  cases taken_of_step hstep with
  | commit hbegin hrun =>
    obtain ⟨htracked, -, hlt, hseq⟩ := runEvents_invariant
      (P := fun e : Envelope Name => Tracked e.store s.tip ∧ InCommit s.tip e)
      (fun hstep hs => ⟨hs.1.envelope_step hs.2.1 hs.2.2.1 hs.2.2.2 hstep, hs.2.step hstep⟩)
      ⟨h.beginCommit hbegin, inCommit_of_beginCommit hbegin⟩ hrun
    exact htracked.finish (Nat.le_of_lt hlt) hseq
  | deleteArtifact hbegin hupsert =>
    obtain ⟨hseq, hlog, -, -⟩ := Envelope.upsertBarrier_eq_some hupsert
    have hbegun := h.beginCommit hbegin
    obtain ⟨store, hinsert, rfl⟩ := Option.map_eq_some_iff.mp hupsert
    obtain ⟨hlt, rfl⟩ := Store.beginCommit_eq_some hbegin
    have hrecorded := hbegun.recordConsumers (inserted_of_insertBarrier hbegun hinsert)
      (fun c k hk => Nat.lt_of_le_of_lt (hvalid.named c k hk).le_tip hlt)
      (fun a ha => Nat.lt_of_le_of_lt (Store.le_tip (h.abandoned_mem a ha)) hlt)
      (Nat.le_of_lt hlt)
    exact Tracked.finish hrecorded (Nat.le_refl _) (hlog.symm ▸ mem_cons_self)
  | acknowledge hack _ =>
    have hacked := h.acknowledge hack
    obtain ⟨current, -, -, -, rfl⟩ := Store.acknowledgeOutbox_eq_ok hack
    exact hacked
  | markPublishedThrough hmark =>
    obtain ⟨-, hframe⟩ := Store.markPublishedThrough_eq_ok hmark
    rw [hframe]
    exact h.of_frame rfl rfl rfl rfl (fun _ => id) (fun _ _ => id) (Nat.le_refl _)
  | prune _ =>
    exact h.of_frame rfl rfl rfl rfl (fun _ => id) (fun _ _ => id) (Nat.le_refl _)

/-! ## Completed barriers -/

def Kept (s s' : Store Name) : Prop :=
  ∀ b ∈ s.barriers, b.completedAt ≠ none → b ∈ s'.barriers ∧
    ∀ row ∈ s.barrierConsumers, row.barrierId = b.barrierId →
      ∃ row' ∈ s'.barrierConsumers, row'.barrierId = row.barrierId ∧
        row'.consumerId = row.consumerId ∧ row'.required = row.required

omit [DecidableEq Name] in
theorem Kept.of_frame (hbarriers : s'.barriers = s.barriers)
    (hrows : s'.barrierConsumers = s.barrierConsumers) : Kept s s' :=
  fun _ hb _ => ⟨hbarriers ▸ hb, fun row hrow _ => ⟨row, hrows ▸ hrow, rfl, rfl, rfl⟩⟩

omit [DecidableEq Name] in
theorem Kept.trans {s'' : Store Name} (h : Kept s s') (h' : Kept s' s'') : Kept s s'' := by
  intro b hb hdone
  obtain ⟨hb', hrows⟩ := h b hb hdone
  obtain ⟨hb'', hrows'⟩ := h' b hb' hdone
  refine ⟨hb'', fun row hrow hid => ?_⟩
  obtain ⟨row', hrow', hid', hconsumer, hrequired⟩ := hrows row hrow hid
  obtain ⟨row'', hrow'', hid'', hconsumer', hrequired'⟩ := hrows' row' hrow' (hid'.trans hid)
  exact ⟨row'', hrow'', hid''.trans hid', hconsumer'.trans hconsumer,
    hrequired'.trans hrequired⟩

theorem kept_completeSatisfiedBarriers (completedAt : Nat) :
    Kept s (s.completeSatisfiedBarriers completedAt) := by
  intro b hb hdone
  refine ⟨mem_map.mpr ⟨b, hb, if_neg ?_⟩, fun row hrow _ => ?_⟩
  · simp only [Store.satisfied, Bool.and_eq_true, Option.isNone_iff_eq_none]
    exact fun hsatisfied => hdone hsatisfied.1.1
  · refine ⟨_, mem_map_of_mem hrow, ?_⟩
    split <;> exact ⟨rfl, rfl, rfl⟩

theorem kept_acknowledgeOutbox (h : s.acknowledgeOutbox consumer through now = .ok s') :
    Kept s s' := by
  obtain ⟨current, -, -, -, rfl⟩ := Store.acknowledgeOutbox_eq_ok h
  have hset : Kept s (s.setCheckpoint consumer through now) := Kept.of_frame rfl rfl
  exact hset.trans (kept_completeSatisfiedBarriers now)

theorem kept_deregister {recordedAt : Nat}
    (h : e.deregisterOutboxConsumer consumer recordedAt = .ok e') : Kept e.store e'.store := by
  obtain ⟨checkpoint, -, -, rfl⟩ := Envelope.deregisterOutboxConsumer_eq_ok h
  exact (kept_completeSatisfiedBarriers recordedAt).trans (Kept.of_frame rfl rfl)

theorem kept_envelope_step (h : e.step operation = some e') : Kept e.store e'.store := by
  replace h : e.apply operation = .ok e' := toOption_eq_some_iff.mp h
  cases operation with
  | change =>
    cases h
    exact Kept.of_frame rfl rfl
  | register consumer recordedAt =>
    obtain ⟨-, rfl⟩ := Envelope.registerOutboxConsumer_eq_ok h
    exact Kept.of_frame rfl rfl
  | deregister consumer recordedAt => exact kept_deregister h
  | retire consumer certifiedThrough recordedAt =>
    rcases Envelope.retireOutboxConsumer_eq_ok h with h | ⟨store, hack, h⟩
    · exact kept_deregister h
    · exact (kept_acknowledgeOutbox hack).trans (kept_deregister h)
  | abandonConsumer consumer barrier abandonedAt =>
    obtain ⟨checkpoint, -, rfl⟩ := Envelope.abandonOutboxConsumer_eq_ok h
    obtain ⟨hbarriers, hrows, -⟩ :=
      recordAbandonments_frame (e := e) consumer barrier checkpoint abandonedAt
    refine (Kept.of_frame ?_ ?_).trans (kept_completeSatisfiedBarriers abandonedAt)
    · exact hbarriers
    · exact hrows
  | abandonBarrier barrier abandonedAt =>
    obtain ⟨-, -, rfl⟩ := Envelope.abandonDeletionBarrier_eq_ok h
    intro b hb hdone
    refine ⟨mem_map.mpr ⟨b, hb, if_neg fun hopen => hdone hopen.2⟩, ?_⟩
    exact fun row hrow _ => ⟨row, hrow, rfl, rfl, rfl⟩

theorem Inserted.kept (h : Inserted s barrier digest commitSeq s') :
    Kept s (s'.recordConsumers barrier commitSeq) := by
  intro b hb hdone
  obtain ⟨hb', hne⟩ := h.completed b hb hdone
  refine ⟨hb', fun row hrow hid => ⟨row, ?_, rfl, rfl, rfl⟩⟩
  have hrows : s'.barrierConsumers = s.barrierConsumers := by rw [h.frame]
  refine mem_append_left _ (mem_filter.mpr ⟨hrows ▸ hrow, ?_⟩)
  simpa [hid] using hne

theorem kept_step (h : Tracked s s.tip) (hstep : step s event = some s') : Kept s s' := by
  cases taken_of_step hstep with
  | commit hbegin hrun =>
    have hrunned := runEvents_related (P := fun _ => True)
      (R := fun e e' : Envelope Name => Kept e.store e'.store) (fun _ _ => trivial)
      (fun _ => Kept.of_frame rfl rfl)
      (by intro a b c hab hbc; exact hab.trans hbc)
      (fun hstep _ => kept_envelope_step hstep) trivial hrun
    obtain ⟨-, rfl⟩ := Store.beginCommit_eq_some hbegin
    exact (Kept.of_frame rfl rfl).trans (hrunned.trans (Kept.of_frame rfl rfl))
  | deleteArtifact hbegin hupsert =>
    have hbegun := h.beginCommit hbegin
    obtain ⟨store, hinsert, rfl⟩ := Option.map_eq_some_iff.mp hupsert
    obtain ⟨-, rfl⟩ := Store.beginCommit_eq_some hbegin
    have hkept := (inserted_of_insertBarrier hbegun hinsert).kept
    exact (Kept.of_frame rfl rfl).trans (hkept.trans (Kept.of_frame rfl rfl))
  | acknowledge hack _ => exact kept_acknowledgeOutbox hack
  | markPublishedThrough hmark =>
    obtain ⟨-, hframe⟩ := Store.markPublishedThrough_eq_ok hmark
    rw [hframe]
    exact Kept.of_frame rfl rfl
  | prune _ => exact Kept.of_frame rfl rfl

/-! ## Whole runs -/

theorem tracked_of_run {events : List (Event Name)}
    (h : runEvents step Store.empty events = some s) : Valid s ∧ Tracked s s.tip :=
  runEvents_invariant (P := fun s : Store Name => Valid s ∧ Tracked s s.tip)
    (fun hstep hs => ⟨hs.1.step hstep, hs.2.step hs.1 hstep⟩) ⟨valid_empty, tracked_empty _⟩ h

/-- In every run, with `s` any state of it and `s'` any later one: a digest has at most one
incomplete barrier; a completed barrier was completed by one of the two completions the history
notes; before the one of `complete_satisfied_barriers` every consumer registered at the latest
deletion had, after it, acknowledged it or been abandoned against the barrier under a sequence not
below it; before the one of `abandon_deletion_barrier` the latest deletion had recorded no
consumer; and a completed barrier stays as it is. -/
theorem barrier_completes_when_done {before later : List (Event Name)}
    (hbefore : runEvents step Store.empty before = some s)
    (hlater : runEvents step s later = some s') :
    (∀ b ∈ s.barriers, ∀ b' ∈ s.barriers, b.completedAt = none → b'.completedAt = none →
      b.digest = b'.digest → b = b') ∧
    (∀ b ∈ s.barriers, b.completedAt ≠ none →
      (∃ barriers, Note.completed barriers ∈ s.history ∧ b.barrierId ∈ barriers) ∨
        Note.barrierAbandoned b.barrierId ∈ s.history) ∧
    (∀ newer older barriers, s.history = newer ++ .completed barriers :: older →
      ∀ barrier ∈ barriers, ∃ seq consumers since,
        LatestDeletion older barrier seq consumers since ∧
          ∀ c ∈ consumers, DoneSince since barrier seq c) ∧
    (∀ newer older barrier, s.history = newer ++ .barrierAbandoned barrier :: older →
      ∃ seq since, LatestDeletion older barrier seq [] since) ∧
    Kept s s' := by
  obtain ⟨hvalid, htracked⟩ := tracked_of_run hbefore
  refine ⟨htracked.open_unique, htracked.closed, fun newer older barriers hhistory => ?_,
    fun newer older barrier hhistory => ?_, ?_⟩
  · exact (hhistory ▸ htracked.justified).justified
  · exact (hhistory ▸ htracked.justified).justified
  · exact runEvents_related (P := fun s : Store Name => Valid s ∧ Tracked s s.tip) (R := Kept)
      (fun hstep hs => ⟨hs.1.step hstep, hs.2.step hs.1 hstep⟩) (fun _ => Kept.of_frame rfl rfl)
      (by intro a b c hab hbc; exact hab.trans hbc) (fun hstep hs => kept_step hs.2 hstep)
      ⟨hvalid, htracked⟩ hlater

/-- Two consumers, the digest deleted twice while its barrier is open: one acknowledges the first
deletion only and is abandoned, the other acknowledges the second. -/
def sampleDeletions : List (Event String) :=
  [.commit 1 [.register "search" 10, .register "mirror" 10],
   .deleteArtifact 2 "digest" "barrier" 1 20, .acknowledge "mirror" 2 25,
   .deleteArtifact 3 "digest" "other" 1 30, .acknowledge "search" 3 40,
   .commit 4 [.abandonConsumer "mirror" none 50]]

theorem barrier_completes_when_done_sample :
    ∃ s : Store String, runEvents step Store.empty sampleDeletions = some s ∧
      s.barriers = [⟨"barrier", "digest", 3, 30, some 50⟩] ∧
      Kept s s ∧ EachJustified s.history := by
  have hresult : (runEvents step Store.empty sampleDeletions).map (·.barriers) =
      some [⟨"barrier", "digest", 3, 30, some 50⟩] := by
    decide +kernel
  obtain ⟨s, hs, hbarriers⟩ := Option.map_eq_some_iff.mp hresult
  have hstay : runEvents step s [] = some s := rfl
  exact ⟨s, hs, hbarriers, (barrier_completes_when_done hs hstay).2.2.2.2,
    (tracked_of_run hs).2.justified⟩

end Eidnara.Kernel.Outbox
