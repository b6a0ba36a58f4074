import Eidnara.Lib.Runs
import Mathlib.Data.List.Nodup

/-!
# The inference slot

`scheduler.rs`: one slot, handed from owner to owner.  Grant decisions, removals and `close`
happen under one lock; a waiter's receiver is polled and dropped without it.  `release` is
therefore several steps: it takes the lock, goes from waiter to waiter until a wake is delivered,
and only then writes the waiter's `granted` flag and lets go of the lock.
-/

namespace Eidnara.HostRuntime.Scheduler

open Lib List

inductive Class
  | query
  | background
  deriving DecidableEq, Repr

inductive Stage
  /-- No `acquire` has this id yet. -/
  | unused
  /-- The future is alive and waits for its wake. -/
  | waiting
  /-- The future is being dropped: its receiver is gone, the lock not taken yet. -/
  | receiverGone
  /-- The drop found that it was handed the slot and goes on to `release`. -/
  | owing
  | done
  deriving DecidableEq, Repr

structure Waiter where
  cls : Class
  stage : Stage
  /-- The wake was delivered to the receiver. -/
  sent : Bool
  granted : Bool
  deriving DecidableEq, Repr

def Waiter.unused : Waiter := ⟨.query, .unused, false, false⟩

inductive Release
  | looping
  /-- The wake of the waiter was delivered, its flag is still to be written. -/
  | delivered (id : Nat)
  deriving DecidableEq, Repr

structure State where
  held : Bool
  closed : Bool
  queries : List Nat
  background : List Nat
  streak : Nat
  nextId : Nat
  waiters : Nat → Waiter
  /-- Grants that callers hold. -/
  grants : Nat
  releasing : Option Release
  /-- How often the slot was handed out, and how often a `release` began. -/
  handouts : Nat
  releases : Nat

def queryStreak : Nat := 8

def State.new : State where
  held := false
  closed := false
  queries := []
  background := []
  streak := 0
  nextId := 0
  waiters _ := .unused
  grants := 0
  releasing := none
  handouts := 0
  releases := 0

namespace State

def queued (s : State) : List Nat := s.queries ++ s.background

/-- The waiter a free slot goes to, with the streak updated for that grant. -/
def next (s : State) : Option Nat × State :=
  let backgroundWaits := !s.background.isEmpty
  if backgroundWaits && (s.queries.isEmpty || queryStreak ≤ s.streak) then
    (s.background.head?, { s with streak := 0, background := s.background.tail })
  else
    match s.queries with
    | [] => (none, s)
    | query :: rest =>
      (some query,
        { s with queries := rest, streak := if backgroundWaits then s.streak + 1 else 0 })

def setWaiter (s : State) (id : Nat) (waiter : Waiter) : State :=
  { s with waiters := Function.update s.waiters id waiter }

theorem setWaiter_eq (s : State) (id : Nat) (waiter : Waiter) : s.setWaiter id waiter =
    { s with waiters := fun other => if other = id then waiter else s.waiters other } := by
  rw [setWaiter]
  congr
  funext other
  exact Function.update_apply _ _ _ _

end State

inductive Event
  | acquire (cls : Class)
  | poll (id : Nat)
  | dropReceiver (id : Nat)
  | dropWaiting (id : Nat)
  | dropGrant
  | releaseOwed (id : Nat)
  | releaseNext
  | releaseStore
  | close
  deriving DecidableEq, Repr

variable (maxWaitingQueries : Nat)

/-- The locked part of `acquire`: refused, granted at once, or queued. -/
def acquire (s : State) (cls : Class) : State :=
  if s.closed then s
  else if !s.held && s.queries.isEmpty && s.background.isEmpty then
    { s with held := true, streak := 0, grants := s.grants + 1, handouts := s.handouts + 1 }
  else if cls = .query && maxWaitingQueries ≤ s.queries.length then s
  else
    let s := { s with nextId := s.nextId + 1 }.setWaiter s.nextId ⟨cls, .waiting, false, false⟩
    match cls with
    | .query => { s with queries := s.queries ++ [s.nextId - 1] }
    | .background => { s with background := s.background ++ [s.nextId - 1] }

/-- A wake delivered is the slot, a wake dropped is a refusal. -/
def poll (s : State) (id : Nat) : State :=
  let waiter := s.waiters id
  if waiter.sent then
    { s.setWaiter id { waiter with stage := .done } with grants := s.grants + 1 }
  else if id ∈ s.queued then s
  else s.setWaiter id { waiter with stage := .done }

/-- The locked part of `Waiting::drop`. -/
def dropWaiting (s : State) (id : Nat) : State :=
  let waiter := s.waiters id
  let queue := match waiter.cls with
    | .query => s.queries
    | .background => s.background
  if id ∈ queue then
    let s := s.setWaiter id { waiter with stage := .done }
    match waiter.cls with
    | .query => { s with queries := s.queries.erase id }
    | .background => { s with background := s.background.erase id }
  else
    s.setWaiter id { waiter with stage := if waiter.granted then .owing else .done }

/-- One turn of the loop in `release`. -/
def releaseNext (s : State) : State :=
  match s.next with
  | (none, s) => { s with held := false, releasing := none }
  | (some id, s) =>
    let waiter := s.waiters id
    if waiter.stage = .waiting then
      { s.setWaiter id { waiter with sent := true } with
        releasing := some (.delivered id), handouts := s.handouts + 1 }
    else s

def step (s : State) : Event → Option State
  | .acquire cls => if s.releasing = none then some (acquire maxWaitingQueries s cls) else none
  | .poll id => if (s.waiters id).stage = .waiting then some (poll s id) else none
  | .dropReceiver id =>
    if (s.waiters id).stage = .waiting then
      some (s.setWaiter id { s.waiters id with stage := .receiverGone })
    else none
  | .dropWaiting id =>
    if s.releasing = none ∧ (s.waiters id).stage = .receiverGone then some (dropWaiting s id)
    else none
  | .dropGrant =>
    if s.releasing = none ∧ 0 < s.grants then
      some { s with grants := s.grants - 1, releasing := some .looping, releases := s.releases + 1 }
    else none
  | .releaseOwed id =>
    if s.releasing = none ∧ (s.waiters id).stage = .owing then
      some { s.setWaiter id { s.waiters id with stage := .done } with
        releasing := some .looping, releases := s.releases + 1 }
    else none
  | .releaseNext => if s.releasing = some .looping then some (releaseNext s) else none
  | .releaseStore =>
    match s.releasing with
    | some (.delivered id) =>
      some { s.setWaiter id { s.waiters id with granted := true } with releasing := none }
    | _ => none
  | .close =>
    if s.releasing = none then some { s with closed := true, queries := [], background := [] }
    else none

/-- The waiter was handed the slot and has neither taken nor returned it. -/
def State.Handed (s : State) (id : Nat) : Prop :=
  (s.waiters id).sent = true ∧
    ((s.waiters id).stage = .waiting ∨ (s.waiters id).stage = .receiverGone ∨
      (s.waiters id).stage = .owing)

instance (s : State) (id : Nat) : Decidable (s.Handed id) := inferInstanceAs (Decidable (_ ∧ _))

def State.owned (s : State) : Nat :=
  s.grants + ((List.range s.nextId).filter fun id => s.Handed id).length

/-- The grants that exist: owned ones, and one that is being returned. -/
def State.outstanding (s : State) : Nat :=
  s.owned + if s.releasing = some .looping then 1 else 0

/-! ## Who owns the slot -/

inductive Owner
  | nobody
  | caller
  | waiter (id : Nat)
  | releaser
  deriving DecidableEq

/-- The slot is with its owner and nobody else, and every other handout was released. -/
def State.OwnedBy (s : State) : Owner → Prop
  | .nobody => s.held = false ∧ s.grants = 0 ∧ (∀ id, ¬ s.Handed id) ∧ s.releasing = none ∧
      s.handouts = s.releases
  | .caller => s.held = true ∧ s.grants = 1 ∧ (∀ id, ¬ s.Handed id) ∧
      s.releasing ≠ some .looping ∧ s.handouts = s.releases + 1
  | .waiter id => s.held = true ∧ s.grants = 0 ∧ (∀ other, s.Handed other ↔ other = id) ∧
      (s.releasing = some (.delivered id) ∨ s.releasing = none ∧ (s.waiters id).granted = true) ∧
      s.handouts = s.releases + 1
  | .releaser => s.held = true ∧ s.grants = 0 ∧ (∀ id, ¬ s.Handed id) ∧
      s.releasing = some .looping ∧ s.handouts = s.releases

structure State.QueueInv (s : State) : Prop where
  nodup : s.queued.Nodup
  queued : ∀ id ∈ s.queued, id < s.nextId ∧ (s.waiters id).sent = false ∧
    ((s.waiters id).stage = .waiting ∨ (s.waiters id).stage = .receiverGone)
  query : ∀ id ∈ s.queries, (s.waiters id).cls = .query
  background : ∀ id ∈ s.background, (s.waiters id).cls = .background
  fresh : ∀ id, s.nextId ≤ id → s.waiters id = .unused
  granted : ∀ id, (s.waiters id).granted = true → (s.waiters id).sent = true
  owing : ∀ id, (s.waiters id).stage = .owing → (s.waiters id).sent = true
  free : s.held = false → s.queued = []
  closed : s.closed = true → s.queued = []

structure State.Inv (s : State) : Prop extends s.QueueInv where
  owner : ∃ owner, s.OwnedBy owner
  delivered : ∀ id, s.releasing = some (.delivered id) → (s.waiters id).sent = true

theorem inv_new : State.new.Inv where
  nodup := nodup_nil
  queued := by simp [State.new, State.queued]
  query := by simp [State.new]
  background := by simp [State.new]
  fresh := by simp [State.new]
  granted := by simp [State.new, Waiter.unused]
  owing := by simp [State.new, Waiter.unused]
  free := by simp [State.new, State.queued]
  closed := by simp [State.new]
  owner := ⟨.nobody, by simp [State.OwnedBy, State.new, State.Handed, Waiter.unused]⟩
  delivered := by simp [State.new]

namespace State

variable {s : State} {id : Nat}

theorem QueueInv.lt_nextId (h : s.QueueInv) (hstage : (s.waiters id).stage ≠ .unused) :
    id < s.nextId := by
  by_contra hge
  rw [h.fresh id (by omega)] at hstage
  exact hstage rfl

/-- Another record of one waiter, out of its queue if it is handed the slot or done. -/
theorem QueueInv.setWaiter (h : s.QueueInv) (waiter : Waiter) (hid : id < s.nextId)
    (hcls : waiter.cls = (s.waiters id).cls)
    (hgranted : waiter.granted = true → waiter.sent = true)
    (howing : waiter.stage = .owing → waiter.sent = true)
    (hqueued : id ∈ s.queued → waiter.sent = false ∧
      (waiter.stage = .waiting ∨ waiter.stage = .receiverGone)) :
    (s.setWaiter id waiter).QueueInv := by
  obtain ⟨hnodup, hqueue, hquery, hbackground, hfresh, hgrantedAll, howingAll, hfree, hclosed⟩ := h
  simp only [State.queued] at hqueue hqueued hnodup hfree hclosed
  constructor <;> simp only [State.setWaiter_eq, State.queued]
  · exact hnodup
  · grind
  · grind
  · grind
  · grind
  · grind
  · grind
  · exact hfree
  · exact hclosed

theorem QueueInv.withOwner (h : s.QueueInv) (grants : Nat) (releasing : Option Release)
    (handouts releases : Nat) :
    { s with grants, releasing, handouts, releases }.QueueInv :=
  { h with }

theorem QueueInv.shrink (h : s.QueueInv) {queries background : List Nat}
    (hqueries : queries.Sublist s.queries) (hbackground : background.Sublist s.background)
    (streak : Nat) : { s with queries, background, streak }.QueueInv := by
  have hqueued : (queries ++ background).Sublist s.queued := hqueries.append hbackground
  refine ⟨h.nodup.sublist hqueued, fun id hmem => h.queued id (hqueued.subset hmem),
    fun id hmem => h.query id (hqueries.subset hmem),
    fun id hmem => h.background id (hbackground.subset hmem), h.fresh, h.granted, h.owing, ?_, ?_⟩
  · exact fun hheld => sublist_nil.mp (h.free hheld ▸ hqueued)
  · exact fun hclosed => sublist_nil.mp (h.closed hclosed ▸ hqueued)

theorem next_cases (s : State) :
    (s.next = (none, s) ∧ s.queued = []) ∨
      (∃ id rest, s.background = id :: rest ∧
        s.next = (some id, { s with streak := 0, background := rest })) ∨
      ∃ id rest, s.queries = id :: rest ∧ (s.background ≠ [] → s.streak < queryStreak) ∧
        s.next = (some id,
          { s with queries := rest, streak := if s.background = [] then 0 else s.streak + 1 }) := by
  unfold State.next State.queued
  cases hbackground : s.background with
  | nil =>
    cases hqueries : s.queries with
    | nil => exact .inl ⟨by simp, rfl⟩
    | cons id rest => exact .inr (.inr ⟨id, rest, rfl, by simp, by simp⟩)
  | cons first others =>
    cases hqueries : s.queries with
    | nil => exact .inr (.inl ⟨first, others, rfl, by simp⟩)
    | cons id rest =>
      by_cases hstreak : queryStreak ≤ s.streak
      · exact .inr (.inl ⟨first, others, rfl, by simp [hstreak]⟩)
      · exact .inr (.inr ⟨id, rest, rfl, fun _ => by omega, by simp [hstreak]⟩)

theorem QueueInv.next_spec (h : s.QueueInv) :
    (s.next = (none, s) ∧ s.queued = []) ∨
      ∃ id queries background streak,
        s.next = (some id, { s with queries, background, streak }) ∧
        queries.Sublist s.queries ∧ background.Sublist s.background ∧
        id ∈ s.queued ∧ id ∉ queries ++ background := by
  have hnodup := h.nodup
  simp only [State.queued] at hnodup ⊢
  rcases s.next_cases with hnone | ⟨id, rest, hqueue, hnext⟩ | ⟨id, rest, hqueue, -, hnext⟩
  · exact .inl hnone
  · rw [hqueue] at hnodup ⊢
    exact .inr ⟨id, s.queries, rest, 0, hnext, List.Sublist.refl _, sublist_cons_self _ _, by simp,
      (nodup_cons.mp (perm_middle.nodup_iff.mp hnodup)).1⟩
  · rw [hqueue] at hnodup ⊢
    exact .inr ⟨id, rest, s.background, _, hnext, sublist_cons_self _ _, List.Sublist.refl _,
      by simp, (nodup_cons.mp hnodup).1⟩

theorem QueueInv.push (h : s.QueueInv) (hclosed : s.closed = false)
    (hwait : s.held = true ∨ s.queued ≠ []) (cls : Class) {queries background : List Nat}
    (hqueries : queries = if cls = .query then s.queries ++ [s.nextId] else s.queries)
    (hbackground : background =
      if cls = .background then s.background ++ [s.nextId] else s.background) :
    { { s with nextId := s.nextId + 1 }.setWaiter s.nextId ⟨cls, .waiting, false, false⟩ with
      queries, background }.QueueInv := by
  obtain ⟨hnodup, hqueue, hquery, hback, hfresh, hgranted, howing, hfree, hclosedAll⟩ := h
  have hnew : s.nextId ∉ s.queued := fun hmem => absurd (hqueue _ hmem).1 (by omega)
  have hheld : s.held = true := by
    by_contra hnot
    rcases hwait with hheld | hne
    · exact hnot hheld
    · exact hne (hfree (by simpa using hnot))
  have hperm : (queries ++ background).Perm (s.nextId :: s.queued) := by
    subst hqueries hbackground
    cases cls
    · simp [State.queued]
    · simpa [State.queued] using perm_append_singleton s.nextId (s.queries ++ s.background)
  constructor
  · exact hperm.nodup_iff.mpr (nodup_cons.mpr ⟨hnew, hnodup⟩)
  · intro id hmem
    have hmem' := hperm.subset hmem
    simp only [State.setWaiter_eq]
    grind
  · simp only [State.setWaiter_eq, State.queued] at *
    grind
  · simp only [State.setWaiter_eq, State.queued] at *
    grind
  · simp only [State.setWaiter_eq]
    grind
  · simp only [State.setWaiter_eq]
    grind
  · simp only [State.setWaiter_eq]
    grind
  · simp [State.setWaiter, hheld]
  · simp [State.setWaiter, hclosed]

end State

/-! ## One step at a time -/

variable {s : State} {id : Nat}

theorem inv_poll (h : s.Inv) (hstage : (s.waiters id).stage = .waiting) : (poll s id).Inv := by
  obtain ⟨owner, howner⟩ := h.owner
  have hid := h.lt_nextId (by rw [hstage]; decide)
  have hdelivered := h.delivered
  unfold poll
  simp only
  split_ifs with hsent hqueued
  · -- The waiter takes the slot it was handed.
    have hqueue := h.setWaiter { s.waiters id with stage := .done } hid rfl
      (h.granted id) (by simp) (fun hmem => by simp [(h.queued id hmem).2.1] at hsent)
    refine ⟨hqueue.withOwner _ _ _ _, ⟨.caller, ?_⟩, ?_⟩
    · cases owner <;>
        simp only [State.OwnedBy, State.Handed, State.setWaiter_eq] at howner ⊢ <;>
        grind
    · simp only [State.setWaiter_eq]
      grind
  · exact h
  · -- The wake was dropped by `close`.
    refine ⟨h.setWaiter _ hid rfl (h.granted id) (by simp) (fun hmem => absurd hmem hqueued),
      ⟨owner, ?_⟩, ?_⟩
    · cases owner <;>
        simp only [State.OwnedBy, State.Handed, State.setWaiter_eq] at howner ⊢ <;>
        grind
    · simp only [State.setWaiter_eq]
      grind

theorem inv_dropReceiver (h : s.Inv) (hstage : (s.waiters id).stage = .waiting) :
    (s.setWaiter id { s.waiters id with stage := .receiverGone }).Inv := by
  obtain ⟨owner, howner⟩ := h.owner
  have hid := h.lt_nextId (by rw [hstage]; decide)
  have hdelivered := h.delivered
  refine ⟨h.setWaiter _ hid rfl (h.granted id) (by simp)
    (fun hmem => ⟨(h.queued id hmem).2.1, .inr rfl⟩), ⟨owner, ?_⟩, ?_⟩
  · cases owner <;>
      simp only [State.OwnedBy, State.Handed, State.setWaiter_eq] at howner ⊢ <;>
      grind
  · simp only [State.setWaiter_eq]
    grind

theorem inv_releaseStore (h : s.Inv) (hreleasing : s.releasing = some (.delivered id)) :
    State.Inv { s.setWaiter id { s.waiters id with granted := true } with releasing := none } := by
  obtain ⟨owner, howner⟩ := h.owner
  have hsent := h.delivered id hreleasing
  have hid : id < s.nextId := by
    by_contra hge
    rw [h.fresh id (by omega)] at hsent
    cases hsent
  have hqueue := h.setWaiter { s.waiters id with granted := true } hid rfl
    (fun _ => hsent) (fun _ => hsent) (fun hmem => by simp [(h.queued id hmem).2.1] at hsent)
  refine ⟨hqueue.withOwner _ _ _ _, ⟨owner, ?_⟩, by simp⟩
  cases owner <;>
    simp only [State.OwnedBy, State.Handed, State.setWaiter_eq] at howner ⊢ <;>
    grind

theorem inv_releaseOwed (h : s.Inv) (hreleasing : s.releasing = none)
    (hstage : (s.waiters id).stage = .owing) :
    State.Inv { s.setWaiter id { s.waiters id with stage := .done } with
      releasing := some .looping, releases := s.releases + 1 } := by
  obtain ⟨owner, howner⟩ := h.owner
  have hid := h.lt_nextId (by rw [hstage]; decide)
  have hsent := h.owing id hstage
  have hqueue := h.setWaiter { s.waiters id with stage := .done } hid rfl
    (h.granted id) (by simp) (fun hmem => by simp [(h.queued id hmem).2.1] at hsent)
  refine ⟨hqueue.withOwner _ _ _ _, ⟨.releaser, ?_⟩, by simp⟩
  cases owner <;>
    simp only [State.OwnedBy, State.Handed, State.setWaiter_eq] at howner ⊢ <;>
    grind

theorem inv_dropGrant (h : s.Inv) (hreleasing : s.releasing = none) (hgrants : 0 < s.grants) :
    State.Inv { s with
      grants := s.grants - 1, releasing := some .looping, releases := s.releases + 1 } := by
  obtain ⟨owner, howner⟩ := h.owner
  refine ⟨h.withOwner _ _ _ _, ⟨.releaser, ?_⟩, by simp⟩
  cases owner <;> simp only [State.OwnedBy, State.Handed] at howner ⊢ <;> grind

theorem inv_close (h : s.Inv) :
    State.Inv { s with closed := true, queries := [], background := [] } := by
  obtain ⟨owner, howner⟩ := h.owner
  have hempty := h.shrink (nil_sublist s.queries) (nil_sublist s.background) s.streak
  refine ⟨{ hempty with closed := fun _ => rfl }, ⟨owner, ?_⟩, h.delivered⟩
  cases owner <;> exact howner

theorem inv_dropWaiting (h : s.Inv) (hreleasing : s.releasing = none)
    (hstage : (s.waiters id).stage = .receiverGone) : (dropWaiting s id).Inv := by
  obtain ⟨owner, howner⟩ := h.owner
  have hid := h.lt_nextId (by rw [hstage]; decide)
  have hgranted := h.granted id
  -- A waiter that leaves its queue was never handed the slot.
  have hleave (queries background : List Nat) (hqueries : queries.Sublist s.queries)
      (hbackground : background.Sublist s.background) (hin : id ∈ s.queued)
      (hout : id ∉ queries ++ background) :
      State.Inv { s.setWaiter id { s.waiters id with stage := .done } with
        queries, background } := by
    have hsent := (h.queued id hin).2.1
    have hqueue := (h.shrink hqueries hbackground s.streak).setWaiter
      { s.waiters id with stage := .done } hid rfl hgranted (by simp)
      (fun hmem => absurd hmem hout)
    refine ⟨hqueue, ⟨owner, ?_⟩, by simp [State.setWaiter, hreleasing]⟩
    cases owner <;>
      simp only [State.OwnedBy, State.Handed, State.setWaiter_eq] at howner ⊢ <;>
      grind
  -- A waiter absent from its queue was handed the slot, or removed by `close`.
  have hstay (stage : Stage) (hnot : id ∉ s.queued)
      (howing : stage = if (s.waiters id).granted then .owing else .done) :
      (s.setWaiter id { s.waiters id with stage }).Inv := by
    refine ⟨h.setWaiter _ hid rfl hgranted ?_ (fun hin => absurd hin hnot), ⟨owner, ?_⟩, ?_⟩
    · intro hstage'
      by_cases hflag : (s.waiters id).granted = true
      · exact hgranted hflag
      · simp [howing, hflag] at hstage'
    · cases owner <;>
        simp only [State.OwnedBy, State.Handed, State.setWaiter_eq] at howner ⊢ <;>
        grind
    · simp [State.setWaiter, hreleasing]
  have hnot (hmem : id ∉ match (s.waiters id).cls with
      | .query => s.queries
      | .background => s.background) : id ∉ s.queued := by
    intro hin
    rcases mem_append.mp hin with hquery | hback
    · simp [h.query id hquery, hquery] at hmem
    · simp [h.background id hback, hback] at hmem
  unfold dropWaiting
  simp only
  split_ifs with hmem hflag
  · have hnodup := nodup_append.mp h.nodup
    split
    · rename_i hcls
      have hin : id ∈ s.queries := by simpa [hcls] using hmem
      refine hleave (s.queries.erase id) s.background erase_sublist (List.Sublist.refl _)
        (mem_append_left _ hin) ?_
      rw [mem_append, not_or]
      exact ⟨hnodup.1.not_mem_erase, fun hback => hnodup.2.2 id hin id hback rfl⟩
    · rename_i hcls
      have hin : id ∈ s.background := by simpa [hcls] using hmem
      refine hleave s.queries (s.background.erase id) (List.Sublist.refl _) erase_sublist
        (mem_append_right _ hin) ?_
      rw [mem_append, not_or]
      exact ⟨fun hquery => hnodup.2.2 id hquery id hin rfl, hnodup.2.1.not_mem_erase⟩
  · exact hstay .owing (hnot hmem) (by simp [hflag])
  · exact hstay .done (hnot hmem) (by simp [hflag])

theorem inv_releaseNext (h : s.Inv) (hreleasing : s.releasing = some .looping) :
    (releaseNext s).Inv := by
  obtain ⟨owner, howner⟩ := h.owner
  have hdelivered := h.delivered
  unfold releaseNext
  rcases h.next_spec with
    ⟨hnext, hempty⟩ | ⟨id, queries, background, streak, hnext, hqueries, hbackground, hin, hout⟩
  · rw [hnext]
    refine ⟨{ h.toQueueInv with free := fun _ => hempty }, ⟨.nobody, ?_⟩, by simp⟩
    cases owner <;> simp only [State.OwnedBy, State.Handed] at howner ⊢ <;> grind
  · rw [hnext]
    obtain ⟨hid, hsent, -⟩ := h.queued id hin
    have hshrink := h.shrink hqueries hbackground streak
    simp only
    split_ifs with hstage
    · have hqueue := hshrink.setWaiter { s.waiters id with sent := true } hid rfl
        (fun _ => rfl) (fun _ => rfl) (fun hmem => absurd hmem hout)
      refine ⟨hqueue.withOwner _ _ _ _, ⟨.waiter id, ?_⟩, ?_⟩
      · cases owner <;>
          simp only [State.OwnedBy, State.Handed, State.setWaiter_eq]
            at howner ⊢ <;> grind
      · simp [State.setWaiter]
    · -- The receiver is gone: the loop goes on to the next waiter.
      refine ⟨hshrink, ⟨owner, ?_⟩, hdelivered⟩
      cases owner <;> exact howner

theorem inv_acquire (h : s.Inv) (hreleasing : s.releasing = none) (cls : Class) :
    (acquire maxWaitingQueries s cls).Inv := by
  obtain ⟨owner, howner⟩ := h.owner
  unfold acquire
  split_ifs with hclosed hfree hfull
  · exact h
  · refine ⟨{ h.toQueueInv with free := fun hheld => by cases hheld }, ⟨.caller, ?_⟩, h.delivered⟩
    cases owner <;> simp only [State.OwnedBy, State.Handed] at howner ⊢ <;> grind
  · exact h
  · have hwait : s.held = true ∨ s.queued ≠ [] := by
      by_contra hnot
      push Not at hnot
      simp only [State.queued, append_eq_nil_iff] at hnot
      simp [hnot] at hfree
    have hnew : (s.waiters s.nextId).stage = .unused := by rw [h.fresh _ (Nat.le_refl _)]; rfl
    have howned (queries background : List Nat) :
        State.OwnedBy { { s with nextId := s.nextId + 1 }.setWaiter s.nextId
          ⟨cls, .waiting, false, false⟩ with queries, background } owner := by
      cases owner <;>
        simp only [State.OwnedBy, State.Handed, State.setWaiter_eq]
          at howner ⊢ <;> grind
    have hopen : s.closed = false := by simpa using hclosed
    cases cls with
    | query =>
      exact ⟨h.push hopen hwait .query rfl rfl, ⟨owner, howned _ _⟩,
        by simp [State.setWaiter, hreleasing]⟩
    | background =>
      exact ⟨h.push hopen hwait .background rfl rfl, ⟨owner, howned _ _⟩,
        by simp [State.setWaiter, hreleasing]⟩

variable {s' : State}

theorem releaseStore_eq_some (hstep : step maxWaitingQueries s .releaseStore = some s') :
    ∃ id, s.releasing = some (.delivered id) ∧
      s' = { s.setWaiter id { s.waiters id with granted := true } with releasing := none } := by
  simp only [step] at hstep
  split at hstep
  · rename_i id hreleasing
    exact ⟨id, hreleasing, (Option.some.inj hstep).symm⟩
  · cases hstep

theorem inv_step {e : Event} (hstep : step maxWaitingQueries s e = some s') (h : s.Inv) :
    s'.Inv := by
  cases e with
  | acquire cls =>
    obtain ⟨hreleasing, rfl⟩ := guarded_eq_some hstep
    exact inv_acquire maxWaitingQueries h hreleasing cls
  | poll id =>
    obtain ⟨hstage, rfl⟩ := guarded_eq_some hstep
    exact inv_poll h hstage
  | dropReceiver id =>
    obtain ⟨hstage, rfl⟩ := guarded_eq_some hstep
    exact inv_dropReceiver h hstage
  | dropWaiting id =>
    obtain ⟨⟨hreleasing, hstage⟩, rfl⟩ := guarded_eq_some hstep
    exact inv_dropWaiting h hreleasing hstage
  | dropGrant =>
    obtain ⟨⟨hreleasing, hgrants⟩, rfl⟩ := guarded_eq_some hstep
    exact inv_dropGrant h hreleasing hgrants
  | releaseOwed id =>
    obtain ⟨⟨hreleasing, hstage⟩, rfl⟩ := guarded_eq_some hstep
    exact inv_releaseOwed h hreleasing hstage
  | releaseNext =>
    obtain ⟨hreleasing, rfl⟩ := guarded_eq_some hstep
    exact inv_releaseNext h hreleasing
  | releaseStore =>
    obtain ⟨id, hreleasing, rfl⟩ := releaseStore_eq_some maxWaitingQueries hstep
    exact inv_releaseStore h hreleasing
  | close =>
    obtain ⟨-, rfl⟩ := guarded_eq_some hstep
    exact inv_close h

/-! ## Runs -/

theorem State.Inv.owned_eq (h : s.Inv) :
    s.handouts = s.releases + s.owned ∧ s.outstanding = if s.held then 1 else 0 := by
  obtain ⟨owner, howner⟩ := h.owner
  unfold outstanding owned
  have hnone (hno : ∀ id, ¬ s.Handed id) :
      (List.range s.nextId).filter (fun id => s.Handed id) = [] :=
    filter_eq_nil_iff.mpr fun id _ => by simpa using hno id
  cases owner with
  | nobody | caller | releaser =>
    obtain ⟨hheld, hgrants, hno, hreleasing, hcounts⟩ := howner
    simp [hnone hno, hheld, hgrants, hreleasing, hcounts]
  | waiter id =>
    obtain ⟨hheld, hgrants, hown, hreleasing, hcounts⟩ := howner
    have hid : id < s.nextId := by
      refine h.lt_nextId fun hstage => ?_
      have hhanded := (hown id).mpr rfl
      simp [Handed, hstage] at hhanded
    have hone : (List.range s.nextId).filter (fun id => s.Handed id) = [id] := by
      have heq : (fun other => decide (s.Handed other)) = (· == id) := by
        funext other
        rw [Bool.eq_iff_iff, decide_eq_true_eq, beq_iff_eq, hown other]
      rw [heq, filter_beq, count_eq_one_of_mem nodup_range
        (mem_range.mpr hid)]
      rfl
    have hreleasing' : s.releasing ≠ some .looping := by
      rcases hreleasing with heq | ⟨heq, -⟩ <;> simp [heq]
    simp [hone, hheld, hgrants, hreleasing', hcounts]

theorem closed_step {e : Event} (hstep : step maxWaitingQueries s e = some s')
    (h : s.Inv ∧ s.closed = true) : (s'.Inv ∧ s'.closed = true) ∧ s'.handouts = s.handouts ∧
      ∀ id, (s'.waiters id).sent = (s.waiters id).sent := by
  obtain ⟨h, hclosed⟩ := h
  rw [and_assoc]
  refine ⟨inv_step _ hstep h, ?_⟩
  have hempty := h.closed hclosed
  simp only [State.queued, append_eq_nil_iff] at hempty
  cases e with
  | acquire cls =>
    obtain ⟨-, rfl⟩ := guarded_eq_some hstep
    simp [acquire, hclosed]
  | poll id =>
    obtain ⟨-, rfl⟩ := guarded_eq_some hstep
    unfold poll
    simp only [State.queued, hempty.1, hempty.2]
    split_ifs <;> simp only [State.setWaiter_eq] <;> grind
  | dropReceiver id =>
    obtain ⟨-, rfl⟩ := guarded_eq_some hstep
    simp only [State.setWaiter_eq]
    grind
  | dropWaiting id =>
    obtain ⟨-, rfl⟩ := guarded_eq_some hstep
    have hqueue : (match (s.waiters id).cls with
        | .query => s.queries
        | .background => s.background) = [] := by
      cases (s.waiters id).cls
      · exact hempty.1
      · exact hempty.2
    unfold dropWaiting
    simp only [hqueue, not_mem_nil, if_false, State.setWaiter_eq]
    grind
  | dropGrant =>
    obtain ⟨-, rfl⟩ := guarded_eq_some hstep
    exact ⟨hclosed, rfl, fun _ => rfl⟩
  | releaseOwed id =>
    obtain ⟨-, rfl⟩ := guarded_eq_some hstep
    simp only [State.setWaiter_eq]
    grind
  | releaseNext =>
    obtain ⟨-, rfl⟩ := guarded_eq_some hstep
    simp [releaseNext, State.next, hempty, hclosed]
  | releaseStore =>
    obtain ⟨id, -, rfl⟩ := releaseStore_eq_some maxWaitingQueries hstep
    simp only [State.setWaiter_eq]
    grind
  | close =>
    obtain ⟨-, rfl⟩ := guarded_eq_some hstep
    exact ⟨rfl, rfl, fun _ => rfl⟩

/-- In every run the slot has at most one owner, is marked held exactly while it has one, and
every handout but the owner's was released; a free slot leaves no waiter queued; and after `close`
nothing is queued and nothing is handed out. -/
theorem slot_has_one_owner {events : List Event} {s : State}
    (h : runEvents (step maxWaitingQueries) .new events = some s) :
    s.outstanding ≤ 1 ∧ (s.held = true ↔ s.outstanding = 1) ∧ (s.held = false → s.queued = []) ∧
      s.handouts = s.releases + s.owned ∧
      (s.closed = true → s.queued = [] ∧ ∀ later s',
        runEvents (step maxWaitingQueries) s later = some s' →
          s'.queued = [] ∧ s'.handouts = s.handouts ∧
            ∀ id, (s'.waiters id).sent = true → (s.waiters id).sent = true) := by
  have hinv : s.Inv := runEvents_invariant (inv_step maxWaitingQueries) inv_new h
  obtain ⟨hcounts, houtstanding⟩ := hinv.owned_eq
  refine ⟨?_, ?_, hinv.free, hcounts, fun hclosed => ⟨hinv.closed hclosed, ?_⟩⟩
  · rw [houtstanding]
    split_ifs <;> omega
  · rw [houtstanding]
    cases s.held <;> simp
  · intro later s' hlater
    have hrelated := runEvents_related (P := fun s => s.Inv ∧ s.closed = true)
      (R := fun s s' => s'.handouts = s.handouts ∧
        ∀ id, (s'.waiters id).sent = (s.waiters id).sent)
      (fun hstep hs => (closed_step _ hstep hs).1)
      (fun s => ⟨rfl, fun _ => rfl⟩)
      (by
        intro a b c hab hbc
        exact ⟨hbc.1.trans hab.1, fun id => (hbc.2 id).trans (hab.2 id)⟩)
      (fun hstep hs => (closed_step _ hstep hs).2) ⟨hinv, hclosed⟩ hlater
    have hclosed' := runEvents_invariant (P := fun s => s.Inv ∧ s.closed = true)
      (fun hstep hs => (closed_step _ hstep hs).1) ⟨hinv, hclosed⟩ hlater
    exact ⟨hclosed'.1.closed hclosed'.2, hrelated.1,
      fun id hsent => (hrelated.2 id).symm.trans hsent⟩

/-- A waiter whose receiver goes after its wake was delivered, and before its flag was written. -/
def handBack : List Event :=
  [.acquire .query, .acquire .background, .dropGrant, .releaseNext, .dropReceiver 0, .releaseStore,
    .dropWaiting 0, .releaseOwed 0, .releaseNext]

theorem slot_has_one_owner_handBack :
    (runEvents (step 1) .new handBack).map (fun s => (s.handouts, s.releases, s.held)) =
        some (2, 2, false) ∧
      ∃ s, runEvents (step 1) .new handBack = some s ∧ s.outstanding ≤ 1 ∧
        (s.held = true ↔ s.outstanding = 1) ∧ s.handouts = s.releases + s.owned := by
  have hcounts : (runEvents (step 1) .new handBack).map
      (fun s => (s.handouts, s.releases, s.held)) = some (2, 2, false) := by decide
  obtain ⟨s, hs, -⟩ := Option.map_eq_some_iff.mp hcounts
  obtain ⟨hone, hheld, -, hreleased, -⟩ := slot_has_one_owner 1 hs
  exact ⟨hcounts, s, hs, hone, hheld, hreleased⟩

end Eidnara.HostRuntime.Scheduler
