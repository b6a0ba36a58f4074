import Eidnara.HostRuntime.Scheduler

/-!
# The order in which waiters are served

`State::next` counts the queries it takes while background work waits, and it counts a waiter
whose receiver is gone like any other.  Such a waiter takes no grant, so one at the head of the
background queue uses up the turn that the live waiter behind it is owed.
-/

namespace Eidnara.HostRuntime.Scheduler

open Lib List

def State.queue (s : State) : Class → List Nat
  | .query => s.queries
  | .background => s.background

/-- The waiters of a class that still listen, oldest first. -/
def State.listening (s : State) (cls : Class) : List Nat :=
  (s.queue cls).filter fun id => (s.waiters id).stage = .waiting

/-- One waiter taken from its queue, and who was listening then. -/
structure Pop where
  cls : Class
  id : Nat
  delivered : Bool
  listening : Class → List Nat

def pop (s : State) : Event → Option Pop
  | .releaseNext => s.next.1.map fun id =>
      ⟨(s.waiters id).cls, id, (s.waiters id).stage = .waiting, s.listening⟩
  | _ => none

variable (maxWaitingQueries : Nat)

def pops (s : State) (events : List Event) : List Pop :=
  runTrace (step maxWaitingQueries) pop s events

def deliveries (s : State) (events : List Event) : List Pop :=
  (pops maxWaitingQueries s events).filter (·.delivered)

/-- The slot goes to a query while the background waiter is the oldest that listens. -/
def Pop.PassesOver (b : Nat) (p : Pop) : Prop :=
  p.cls = .query ∧ (p.listening .background).head? = some b

instance (b : Nat) (p : Pop) : Decidable (p.PassesOver b) := inferInstanceAs (Decidable (_ ∧ _))

variable {maxWaitingQueries} {s s' : State} {e : Event}

/-! ## One step -/

theorem releaseNext_of_next {id : Nat} {t : State} (hnext : s.next = (some id, t)) :
    (releaseNext s).nextId = t.nextId ∧ (releaseNext s).streak = t.streak ∧
      (releaseNext s).queue = t.queue := by
  unfold releaseNext
  rw [hnext]
  simp only
  split_ifs <;> exact ⟨rfl, rfl, rfl⟩

section

variable (hstep : step maxWaitingQueries s e = some s')

include hstep

/-- A step that takes no waiter for the slot leaves the streak while background work waits, and
puts into the queues only the waiters it numbers. -/
theorem quiet_step (hpop : pop s e = none) :
    s.nextId ≤ s'.nextId ∧ (s.background ≠ [] → s'.streak = s.streak) ∧ ∀ cls,
      (s'.queue cls).Sublist (s.queue cls ++ range' s.nextId (s'.nextId - s.nextId)) := by
  have hsame {t : State} (hnext : t.nextId = s.nextId)
      (hstreak : s.background ≠ [] → t.streak = s.streak) (hqueries : t.queries.Sublist s.queries)
      (hbackground : t.background.Sublist s.background) :
      s.nextId ≤ t.nextId ∧ (s.background ≠ [] → t.streak = s.streak) ∧ ∀ cls,
        (t.queue cls).Sublist (s.queue cls ++ range' s.nextId (t.nextId - s.nextId)) := by
    refine ⟨Nat.le_of_eq hnext.symm, hstreak, fun cls => ?_⟩
    rw [hnext, Nat.sub_self, range'_zero, append_nil]
    cases cls
    · exact hqueries
    · exact hbackground
  have hunchanged {t : State} (hnext : t.nextId = s.nextId) (hstreak : t.streak = s.streak)
      (hqueries : t.queries = s.queries) (hbackground : t.background = s.background) :=
    hsame hnext (fun _ => hstreak) (hqueries ▸ List.Sublist.refl _)
      (hbackground ▸ List.Sublist.refl _)
  cases e with
  | acquire cls =>
    obtain ⟨-, rfl⟩ := guarded_eq_some hstep
    unfold acquire
    split_ifs with hclosed hfree hfull
    · exact hunchanged rfl rfl rfl rfl
    · exact hsame rfl (fun hwaits => by simp [hwaits] at hfree) (List.Sublist.refl _)
        (List.Sublist.refl _)
    · exact hunchanged rfl rfl rfl rfl
    · cases cls <;> refine ⟨Nat.le_succ _, fun _ => rfl, fun cls => ?_⟩ <;> cases cls <;>
        simp [State.queue, State.setWaiter, range'_succ]
  | poll id =>
    obtain ⟨-, rfl⟩ := guarded_eq_some hstep
    unfold poll
    simp only
    split_ifs <;> exact hunchanged rfl rfl rfl rfl
  | dropWaiting id =>
    obtain ⟨-, rfl⟩ := guarded_eq_some hstep
    unfold dropWaiting
    simp only
    split_ifs
    · split
      · exact hsame rfl (fun _ => rfl) erase_sublist (List.Sublist.refl _)
      · exact hsame rfl (fun _ => rfl) (List.Sublist.refl _) erase_sublist
    all_goals exact hunchanged rfl rfl rfl rfl
  | releaseNext =>
    obtain ⟨-, rfl⟩ := guarded_eq_some hstep
    unfold releaseNext
    rcases s.next_cases with ⟨hnext, -⟩ | ⟨taken, rest, -, hnext⟩ | ⟨taken, rest, -, -, hnext⟩
    · rw [hnext]
      exact hunchanged rfl rfl rfl rfl
    · simp [pop, hnext] at hpop
    · simp [pop, hnext] at hpop
  | releaseStore =>
    obtain ⟨id, -, rfl⟩ := releaseStore_eq_some maxWaitingQueries hstep
    exact hunchanged rfl rfl rfl rfl
  | close =>
    obtain ⟨-, rfl⟩ := guarded_eq_some hstep
    exact hsame rfl (fun _ => rfl) (nil_sublist _) (nil_sublist _)
  | dropReceiver id | dropGrant | releaseOwed id =>
    obtain ⟨-, rfl⟩ := guarded_eq_some hstep
    exact hunchanged rfl rfl rfl rfl

/-- A pop takes the head of its queue.  One of a query, while background work waits, is counted,
and is made only below the bound. -/
theorem pop_spec {p : Pop} (h : s.Inv) (hpop : pop s e = some p) :
    p.listening = s.listening ∧ s'.nextId = s.nextId ∧
      (∀ cls, s.queue cls = if cls = p.cls then p.id :: s'.queue cls else s'.queue cls) ∧
      (p.cls = .query → s.background ≠ [] → s.streak < queryStreak ∧ s'.streak = s.streak + 1) := by
  cases e with
  | releaseNext =>
    obtain ⟨-, rfl⟩ := guarded_eq_some hstep
    simp only [pop, Option.map_eq_some_iff] at hpop
    obtain ⟨taken, htaken, rfl⟩ := hpop
    rcases s.next_cases with
      ⟨hnext, -⟩ | ⟨first, rest, hqueue, hnext⟩ | ⟨first, rest, hqueue, hstreak, hnext⟩
    · rw [hnext] at htaken
      cases htaken
    · rw [hnext] at htaken
      cases htaken
      have hcls := h.background taken (hqueue ▸ mem_cons_self)
      obtain ⟨hnextId, -, hrest⟩ := releaseNext_of_next hnext
      refine ⟨rfl, hnextId, fun cls => ?_, fun hquery => ?_⟩
      · rw [hrest]
        cases cls <;> simp [State.queue, hcls, hqueue]
      · rw [hcls] at hquery
        cases hquery
    · rw [hnext] at htaken
      cases htaken
      have hcls := h.query taken (hqueue ▸ mem_cons_self)
      obtain ⟨hnextId, hcounted, hrest⟩ := releaseNext_of_next hnext
      refine ⟨rfl, hnextId, fun cls => ?_, fun _ hwaits => ⟨hstreak hwaits, ?_⟩⟩
      · rw [hrest]
        cases cls <;> simp [State.queue, hcls, hqueue]
      · rw [hcounted]
        exact if_neg hwaits
  | _ => cases hpop

theorem queue_step (h : s.Inv) :
    s.nextId ≤ s'.nextId ∧ ∀ cls,
      (s'.queue cls).Sublist (s.queue cls ++ range' s.nextId (s'.nextId - s.nextId)) := by
  cases hpop : pop s e with
  | none =>
    obtain ⟨hnext, -, hqueue⟩ := quiet_step hstep hpop
    exact ⟨hnext, hqueue⟩
  | some p =>
    obtain ⟨-, hnext, hqueue, -⟩ := pop_spec hstep h hpop
    refine ⟨Nat.le_of_eq hnext.symm, fun cls => ?_⟩
    rw [hqueue cls]
    split_ifs <;> simp [hnext]

end

/-! ## Runs -/

/-- The queues are in the order of the numbers, and the next number is beyond them. -/
def State.Ordered (s : State) : Prop :=
  ∀ cls, (s.queue cls ++ [s.nextId]).Pairwise (· < ·)

theorem ordered_step (hstep : step maxWaitingQueries s e = some s') (h : s.Inv ∧ s.Ordered) :
    s'.Inv ∧ s'.Ordered := by
  obtain ⟨hnext, hqueue⟩ := queue_step hstep h.1
  refine ⟨inv_step _ hstep h.1, fun cls => ?_⟩
  refine List.Pairwise.sublist ((hqueue cls).append_right [s'.nextId]) ?_
  have hordered := h.2 cls
  simp only [pairwise_append, mem_singleton, forall_eq, mem_append, mem_range'_1] at hordered ⊢
  refine ⟨⟨hordered.1, pairwise_lt_range', ?_⟩, pairwise_singleton _ _, ?_⟩
  · intro a ha b hb
    exact Nat.lt_of_lt_of_le (hordered.2.2 a ha) hb.1
  · rintro a (ha | ha)
    · exact Nat.lt_of_lt_of_le (hordered.2.2 a ha) hnext
    · omega

/-- The waiters queued in a class, and all that will be, have the property. -/
def State.Only (s : State) (cls : Class) (R : Nat → Prop) : Prop :=
  s.Inv ∧ (∀ id, s.nextId ≤ id → R id) ∧ ∀ id ∈ s.queue cls, R id

theorem only_step {cls : Class} {R : Nat → Prop} (hstep : step maxWaitingQueries s e = some s')
    (h : s.Only cls R) : s'.Only cls R := by
  obtain ⟨hnext, hqueue⟩ := queue_step hstep h.1
  refine ⟨inv_step _ hstep h.1, fun id hid => h.2.1 id (Nat.le_trans hnext hid), fun id hmem => ?_⟩
  rcases mem_append.mp ((hqueue cls).subset hmem) with hold | hnew
  · exact h.2.2 id hold
  · exact h.2.1 id (mem_range'_1.mp hnew).1

theorem pops_only {cls : Class} {R : Nat → Prop} (h : s.Only cls R) (events : List Event) :
    ∀ p ∈ pops maxWaitingQueries s events,
      (p.cls = cls → R p.id) ∧ ∀ id ∈ p.listening cls, R id := by
  refine runTrace_forall only_step ?_ h
  intro s e s' p hstep hs hpop
  obtain ⟨hlistening, -, hqueue, -⟩ := pop_spec hstep hs.1 hpop
  rw [hlistening]
  refine ⟨fun hcls => hs.2.2 p.id ?_, fun id hmem => hs.2.2 id (mem_filter.mp hmem).1⟩
  rw [hqueue cls, if_pos hcls.symm]
  exact mem_cons_self

/-- Every pop takes the oldest of its class that listens, if it listens. -/
theorem pops_oldest (h : s.Inv ∧ s.Ordered) (events : List Event) :
    ∀ p ∈ pops maxWaitingQueries s events, ∀ other ∈ p.listening p.cls, p.id ≤ other := by
  refine runTrace_forall ordered_step ?_ h
  intro s e s' p hstep hs hpop other hother
  obtain ⟨hlistening, -, hqueue, -⟩ := pop_spec hstep hs.1 hpop
  have hordered := hs.2 p.cls
  rw [hqueue p.cls, if_pos rfl, cons_append, pairwise_cons] at hordered
  rw [hlistening] at hother
  have hmem := (mem_filter.mp hother).1
  rw [hqueue p.cls, if_pos rfl] at hmem
  rcases mem_cons.mp hmem with rfl | hrest
  · exact Nat.le_refl _
  · exact Nat.le_of_lt (hordered.1 other (mem_append_left _ hrest))

theorem pops_cons (hstep : step maxWaitingQueries s e = some s') (rest : List Event) :
    pops maxWaitingQueries s (e :: rest) =
      (pop s e).toList ++ pops maxWaitingQueries s' rest := by
  unfold pops
  rw [runTrace, hstep]

theorem pops_undefined (hstep : step maxWaitingQueries s e = none) (rest : List Event) :
    pops maxWaitingQueries s (e :: rest) = [] := by
  unfold pops
  rw [runTrace, hstep]

theorem pops_pairwise (h : s.Inv ∧ s.Ordered) (events : List Event) :
    (pops maxWaitingQueries s events).Pairwise
      fun p later => p.cls = later.cls → p.id < later.id := by
  induction events generalizing s with
  | nil => exact Pairwise.nil
  | cons e rest ih =>
    cases hstep : step maxWaitingQueries s e with
    | none => exact pops_undefined hstep rest ▸ Pairwise.nil
    | some s' =>
      have hs' := ordered_step hstep h
      rw [pops_cons hstep]
      cases hpop : pop s e with
      | none => exact ih hs'
      | some p =>
        obtain ⟨-, hnext, hqueue, -⟩ := pop_spec hstep h.1 hpop
        have hordered := h.2 p.cls
        rw [hqueue p.cls, if_pos rfl, cons_append, pairwise_cons, ← hnext] at hordered
        -- Whatever is taken later from this queue stands behind this one or comes after it.
        have honly : s'.Only p.cls (p.id < ·) := by
          refine ⟨hs'.1, fun id hid => ?_, fun id hmem => hordered.1 id (mem_append_left _ hmem)⟩
          exact Nat.lt_of_lt_of_le (hordered.1 _ (mem_append_right _ (mem_singleton_self _))) hid
        refine pairwise_cons.mpr ⟨fun later hlater hcls => ?_, ih hs'⟩
        exact (pops_only honly rest later hlater).1 hcls.symm

/-! ## How often a background waiter is passed over -/

theorem deliveries_cons (hstep : step maxWaitingQueries s e = some s') (rest : List Event) :
    deliveries maxWaitingQueries s (e :: rest) =
      (pop s e).toList.filter (·.delivered) ++ deliveries maxWaitingQueries s' rest := by
  unfold deliveries
  rw [pops_cons hstep, filter_append]

/-- While a background waiter is queued, the deliveries that pass it over come on top of the
streak. -/
theorem streak_add_passes {b : Nat} {during : List Event} (h : s.Inv) (hb : b ∈ s.background)
    (hlive : ∀ p ∈ pops maxWaitingQueries s during, p.cls = .background → p.delivered = true)
    (hpasses : ∀ p ∈ deliveries maxWaitingQueries s during, p.PassesOver b)
    (hne : deliveries maxWaitingQueries s during ≠ []) :
    s.streak + (deliveries maxWaitingQueries s during).length ≤ queryStreak := by
  induction during generalizing s with
  | nil => exact absurd rfl hne
  | cons e rest ih =>
    cases hstep : step maxWaitingQueries s e with
    | none =>
      unfold deliveries at hne
      rw [pops_undefined hstep] at hne
      exact absurd rfl hne
    | some s' =>
      have hs' := inv_step _ hstep h
      have hwaits : s.background ≠ [] := ne_nil_of_mem hb
      rw [deliveries_cons hstep] at hpasses hne ⊢
      rw [pops_cons hstep] at hlive
      have hlater (hne : deliveries maxWaitingQueries s' rest ≠ []) :
          s'.streak + (deliveries maxWaitingQueries s' rest).length ≤ queryStreak := by
        have hpasses' := fun p hmem => hpasses p (mem_append_right _ hmem)
        refine ih hs' ?_ (fun p hmem => hlive p (mem_append_right _ hmem)) hpasses' hne
        -- A later delivery passes the waiter over, so this step leaves it queued.
        by_contra hgone
        have honly : s'.Only .background (· ≠ b) := by
          refine ⟨hs', fun id hid => ?_, fun id hmem heq => hgone (heq ▸ hmem)⟩
          have hlt := (h.queued b (mem_append_right _ hb)).1
          have hnext := (queue_step hstep h).1
          omega
        obtain ⟨p, hp⟩ := exists_mem_of_ne_nil _ hne
        exact (pops_only honly rest p (mem_filter.mp hp).1).2 b
          (mem_of_mem_head? (hpasses' p hp).2) rfl
      cases hpop : pop s e with
      | none =>
        rw [hpop] at hne
        rw [← (quiet_step hstep hpop).2.1 hwaits]
        exact hlater hne
      | some p =>
        have hcounted := (pop_spec hstep h hpop).2.2.2
        rw [hpop] at hlive hpasses hne
        by_cases hdelivered : p.delivered = true
        · have hcount := hcounted (hpasses p (by simp [hdelivered])).1 hwaits
          by_cases hlast : deliveries maxWaitingQueries s' rest = []
          · simp [hlast, hdelivered]
            omega
          · have hbound := hlater hlast
            simp [hdelivered]
            omega
        · have hcls : p.cls = .query := by
            cases hcase : p.cls with
            | query => rfl
            | background => exact absurd (hlive p mem_cons_self hcase) hdelivered
          have hcount := hcounted hcls hwaits
          have hbound := hlater (by simpa [hdelivered] using hne)
          simp [hdelivered]
          omega

/-- In every run the slot goes, in each class, to the oldest waiter that still listens, and so in
the order in which the waiters were queued.  From any state on in which a background waiter
listens, at most `queryStreak` grants pass it over, where no background waiter is taken from the
queue after its receiver was gone. -/
theorem served_in_turn {before : List Event}
    (h : runEvents (step maxWaitingQueries) .new before = some s) (during : List Event) :
    (∀ p ∈ deliveries maxWaitingQueries s during, ∀ other ∈ p.listening p.cls, p.id ≤ other) ∧
      ((deliveries maxWaitingQueries s during).Pairwise fun p later =>
        p.cls = later.cls → p.id < later.id) ∧
      ((∀ p ∈ pops maxWaitingQueries s during, p.cls = .background → p.delivered = true) →
        ∀ b ∈ s.listening .background,
          (∀ p ∈ deliveries maxWaitingQueries s during, p.PassesOver b) →
            (deliveries maxWaitingQueries s during).length ≤ queryStreak) := by
  have hs : s.Inv ∧ s.Ordered := by
    refine runEvents_invariant (P := fun s => s.Inv ∧ s.Ordered) ordered_step
      ⟨inv_new, fun cls => ?_⟩ h
    cases cls <;> exact pairwise_singleton _ _
  refine ⟨fun p hp => pops_oldest hs during p (mem_filter.mp hp).1,
    (pops_pairwise hs during).filter _, fun hlive b hb hpasses => ?_⟩
  by_cases hne : deliveries maxWaitingQueries s during = []
  · rw [hne]
    exact Nat.zero_le _
  · have hbound := streak_add_passes hs.1 (mem_filter.mp hb).1 hlive hpasses hne
    omega

/-- Two background waiters, 0 and 1, and nine queries wait for the slot. -/
def elevenWaiting : List Event :=
  [.acquire .query, .acquire .background, .acquire .background] ++ replicate 9 (.acquire .query)

/-- Eight queries are served in turn, each taking the slot it is handed. -/
def eightServed : List Event :=
  (range' 2 8).flatMap fun id => [.dropGrant, .releaseNext, .releaseStore, .poll id]

theorem served_in_turn_eightServed :
    ∃ s, runEvents (step 9) .new elevenWaiting = some s ∧
      (deliveries 9 s eightServed).map (·.id) = [2, 3, 4, 5, 6, 7, 8, 9] ∧
      (deliveries 9 s eightServed).length ≤ queryStreak := by
  obtain ⟨s, hs⟩ : ∃ s, runEvents (step 9) .new elevenWaiting = some s := ⟨_, rfl⟩
  refine ⟨s, hs, ?_, (served_in_turn hs eightServed).2.2 ?_ 0 ?_ ?_⟩ <;>
    obtain rfl := Option.some.inj hs <;> decide

/-- With the receiver of 0 gone, the turn after eight queries is lost on it, and the ninth grant
passes over 1 as well. -/
theorem ninth_grant_passes_over :
    ∃ s, runEvents (step 9) .new (elevenWaiting ++ [.dropReceiver 0]) = some s ∧
      1 ∈ s.listening .background ∧
      (deliveries 9 s (eightServed ++ [.dropGrant, .releaseNext, .releaseNext])).length =
        queryStreak + 1 ∧
      ∀ p ∈ deliveries 9 s (eightServed ++ [.dropGrant, .releaseNext, .releaseNext]),
        p.PassesOver 1 :=
  ⟨_, rfl, by decide, by decide, by decide⟩

end Eidnara.HostRuntime.Scheduler
