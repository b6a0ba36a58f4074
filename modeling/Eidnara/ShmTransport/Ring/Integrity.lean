import Eidnara.ShmTransport.Ring.Handle

/-!
# Integrity of the producer's ledger

Whatever the peer writes, in every run of a producer handle each block is in one place,
the generations issued for it increase, and its publication ends only on a cell that
holds the last of them.
-/

namespace Eidnara.ShmTransport

open Lib List

def issued (events : List Event) (block : Nat) : List Nat :=
  events.filterMap fun
    | .reserved other generation => if other = block then some generation else none
    | _ => none

theorem issued_append (events events' : List Event) (block : Nat) :
    issued (events ++ events') block = issued events block ++ issued events' block :=
  filterMap_append

theorem issued_returned (blocks : List Nat) (block : Nat) :
    issued (blocks.map .returned) block = [] := by
  rw [issued, filterMap_map]
  exact filterMap_eq_nil_iff.mpr fun _ _ => rfl

/-! ## What an effect does to states and generations -/

section

variable {geometry : PoolGeometry} {lossy : Prop} {log : List Answer} {ring ring' : Ring}
  {event : Option Event}

variable (h : Effect geometry lossy log ring event ring')

include h

/-- How the state of a block may change; a publication ends only on a cell that held the
block's generation. -/
theorem Effect.moves (hwf : ring.Wf geometry) (block : Nat) :
    ring'.ledger.states block = ring.ledger.states block ∨
      ((ring'.ledger.states block = .free ∨
        ∃ generation, event = some (.reserved block generation)) ∧
        (ring.ledger.states block = .published →
          ⟨.loadCell block, ring.ledger.generations block⟩ ∈ log)) ∨
      ring.ledger.states block = .reserved ∧ ring'.ledger.states block = .published := by
  have hreclaims : ∀ {ring₁ log₁}, Reclaims geometry ring [] ring₁ log₁ → log₁ <+: log →
      ring₁.ledger.states block = ring.ledger.states block ∨
        ring₁.ledger.states block = .free ∧
          ⟨.loadCell block, ring.ledger.generations block⟩ ∈ log :=
    fun h₁ hlog => (h₁.frees.states_eq block).imp_right fun h => ⟨h.2.1, hlog.subset h.2.2⟩
  cases h with
  | reclaims h₁ hlog hledger _ =>
    obtain ⟨_, hledger⟩ := hledger
    rw [hledger]
    exact (hreclaims h₁ hlog).imp_right fun h => .inl ⟨.inl h.1, fun _ => h.2⟩
  | loses _ h₁ hlog hledger _ =>
    obtain ⟨_, hledger⟩ := hledger
    rw [hledger]
    exact (hreclaims h₁ hlog).imp_right fun h => .inl ⟨.inl h.1, fun _ => h.2⟩
  | @reserves _ ring₁ log₁ reservation h₁ hlog hnone htakes =>
    obtain ⟨blockClass, rest, hpop, hledger⟩ := htakes.popped
    by_cases heq : block = reservation.block
    · subst heq
      refine .inr (.inl ⟨.inr ⟨_, rfl⟩, fun hpublished => ?_⟩)
      rcases hreclaims h₁ hlog with hsame | ⟨-, hcell⟩
      · rw [((h₁.wf hwf).of_pop hpop).2, hpublished] at hsame
        cases hsame
      · exact hcell
    · rw [hledger]
      simp only [Function.update_of_ne heq]
      exact (hreclaims h₁ hlog).imp_right fun h => .inl ⟨.inl h.1, fun _ => h.2⟩
  | @aborts _ other _ hreserved _ hledger _ =>
    have hstate := ((hwf.reserved_iff other).mp hreserved).2
    rw [hledger]
    by_cases heq : block = other
    · subst heq
      simp [ProducerLedger.pushFree, ProducerLedger.setState, hstate]
    · simp [ProducerLedger.pushFree, ProducerLedger.setState, heq]
  | @publishes _ other hreserved hledger _ =>
    have hstate := ((hwf.reserved_iff other).mp hreserved).2
    rw [hledger]
    by_cases heq : block = other
    · subst heq
      simp [ProducerLedger.setState, hstate]
    · simp [ProducerLedger.setState, heq]
  | settles hnext =>
    obtain ⟨rest, -, rfl⟩ := Ring.nextReclaimed_eq_some hnext
    exact .inl rfl
  | drains _ => exact .inl rfl

theorem Effect.freed (hwf : ring.Wf geometry) {block : Nat}
    (hpublished : ring.ledger.states block = .published)
    (hended : ring'.ledger.states block ≠ .published) :
    ⟨.loadCell block, ring.ledger.generations block⟩ ∈ log := by
  rcases h.moves hwf block with hsame | ⟨-, hcell⟩ | ⟨-, hstill⟩
  · exact absurd (hsame.trans hpublished) hended
  · exact hcell hpublished
  · exact absurd hstill hended

theorem Effect.generations :
    (∃ block, event = some (.reserved block (ring.ledger.generations block + 1)) ∧
      ring'.ledger.generations =
        Function.update ring.ledger.generations block (ring.ledger.generations block + 1)) ∨
    (∀ block generation, event ≠ some (.reserved block generation)) ∧
      ring'.ledger.generations = ring.ledger.generations := by
  cases h with
  | reclaims h₁ _ hledger _ =>
    obtain ⟨_, hledger⟩ := hledger
    exact .inr ⟨fun _ _ => nofun, by rw [hledger, ← h₁.frees.generations_eq]⟩
  | loses _ h₁ _ hledger _ =>
    obtain ⟨_, hledger⟩ := hledger
    exact .inr ⟨fun _ _ => nofun, by rw [hledger, ← h₁.frees.generations_eq]⟩
  | reserves h₁ hlog hnone htakes =>
    obtain ⟨blockClass, rest, hpop, hledger⟩ := htakes.popped
    have hgenerations := h₁.frees.generations_eq
    rw [htakes.generation_eq, hgenerations]
    refine .inl ⟨_, rfl, ?_⟩
    rw [hledger, htakes.generation_eq, hgenerations]
  | aborts _ _ hledger _ | publishes _ hledger _ =>
      exact .inr ⟨fun _ _ => nofun, by rw [hledger]; rfl⟩
  | settles hnext =>
    refine .inr ⟨fun _ _ => nofun, ?_⟩
    obtain ⟨rest, -, rfl⟩ := Ring.nextReclaimed_eq_some hnext
    rfl
  | drains _ => exact .inr ⟨fun _ _ => nofun, rfl⟩

theorem Effect.in_use (hwf : ring.Wf geometry) {block : Nat}
    (hused : ring'.ledger.states block ≠ .free) :
    ring.ledger.states block ≠ .free ∨ ∃ generation, event = some (.reserved block generation) := by
  rcases h.moves hwf block with hsame | ⟨hfree | hevent, -⟩ | ⟨hreserved, -⟩
  · exact .inl (hsame ▸ hused)
  · exact absurd hfree hused
  · exact .inr hevent
  · exact .inl (by simp [hreserved])

/-- A step issues no generation of a block, or the next one. -/
theorem Effect.issues (hwf : ring.Wf geometry) (block : Nat) :
    (issued event.toList block = [] ∧
      ring'.ledger.generations block = ring.ledger.generations block ∧
      (ring'.ledger.states block ≠ .free → ring.ledger.states block ≠ .free)) ∨
    issued event.toList block = [ring'.ledger.generations block] ∧
      ring'.ledger.generations block = ring.ledger.generations block + 1 := by
  rcases h.generations with ⟨other, rfl, hgenerations⟩ | ⟨hsilent, hgenerations⟩
  · by_cases heq : other = block
    · subst heq
      simp [issued, hgenerations]
    · refine .inl ⟨by simp [issued, heq], ?_, fun hused => ?_⟩
      · rw [hgenerations, Function.update_of_ne (Ne.symm heq)]
      · rcases h.in_use hwf hused with hused | ⟨generation, hevent⟩
        · exact hused
        · cases hevent
          exact absurd rfl heq
  · refine .inl ⟨?_, congrFun hgenerations block, fun hused => ?_⟩
    · rw [issued, filterMap_eq_nil_iff]
      intro shown hshown
      rw [Option.mem_toList] at hshown
      cases shown with
      | reserved other generation => exact absurd hshown (hsilent other generation)
      | _ => rfl
    · rcases h.in_use hwf hused with hused | ⟨generation, hevent⟩
      · exact hused
      · exact absurd hevent (hsilent block generation)

end

/-! ## Runs -/

structure Handle.Sound (retained : Retained) (events : List Event) (handle : Handle) : Prop where
  wf : handle.ring.Wf retained.geometry
  held : Held handle.ring handle.reservation
  issued_le : ∀ block, ∀ generation ∈ issued events block,
    generation ≤ handle.ring.ledger.generations block
  issued_lt : ∀ block, (issued events block).Pairwise (· < ·)
  last_issued : ∀ block, handle.ring.ledger.states block ≠ .free →
    (issued events block).getLast? = some (handle.ring.ledger.generations block)

namespace Handle

variable {retained : Retained} {events : List Event} {handle handle' : Handle} {call : Call}
  {log : List Answer} {event : Option Event}

theorem sound_attach (retained : Retained) (published consumed : Nat) :
    (Handle.attach retained published consumed).Sound retained [] where
  wf := ProducerLedger.wf_new retained.geometry _
  held _ hmem := nomatch hmem
  issued_le _ _ hmem := nomatch hmem
  issued_lt _ := List.Pairwise.nil
  last_issued _ hused := absurd rfl hused

theorem Sound.step (h : handle.Sound retained events)
    (hstep : handle.Step retained call log event handle') :
    handle'.Sound retained (events ++ (handle.returnedBlocks retained handle').map .returned ++
      event.toList) := by
  obtain ⟨heffect, hheld⟩ := hstep.effect retained h.held h.wf
  have hissued : ∀ block,
      issued (events ++ (handle.returnedBlocks retained handle').map .returned ++
      event.toList) block = issued events block ++ issued event.toList block := by
    intro block
    rw [issued_append, issued_append, issued_returned, append_nil]
  refine ⟨heffect.wf h.wf, hheld, ?_, ?_, ?_⟩
  · intro block generation hmem
    rw [hissued, mem_append] at hmem
    rcases heffect.issues h.wf block with ⟨hnone, hsame, -⟩ | ⟨hone, hnext⟩
    · rw [hsame]
      exact h.issued_le block generation (by simpa [hnone] using hmem)
    · rw [hone, mem_singleton] at hmem
      rcases hmem with hmem | rfl
      · rw [hnext]
        exact Nat.le_succ_of_le (h.issued_le block generation hmem)
      · exact Nat.le_refl _
  · intro block
    rw [hissued]
    rcases heffect.issues h.wf block with ⟨hnone, -, -⟩ | ⟨hone, hnext⟩
    · rw [hnone, append_nil]
      exact h.issued_lt block
    · rw [hone, hnext, pairwise_append]
      refine ⟨h.issued_lt block, pairwise_singleton _ _, ?_⟩
      intro generation hmem next hmem'
      rw [mem_singleton.mp hmem']
      exact Nat.lt_succ_of_le (h.issued_le block generation hmem)
  · intro block hused
    rw [hissued]
    rcases heffect.issues h.wf block with ⟨hnone, hsame, hbefore⟩ | ⟨hone, -⟩
    · rw [hnone, append_nil, hsame]
      exact h.last_issued block (hbefore hused)
    · rw [hone, getLast?_concat]

theorem ReachesWhere.sound {meets : Handle → Call → List Answer → Prop} {published consumed : Nat}
    (h : ReachesWhere retained meets (.attach retained published consumed) events handle) :
    handle.Sound retained events := by
  induction h with
  | start => exact sound_attach retained published consumed
  | step _ _ hstep ih => exact ih.step hstep

end Handle

/-! ## Places -/

/-- A block is in exactly one of three places: once on the free list of its class, held
by the reservation, or once among the outstanding ones. -/
inductive Ring.InOnePlace (geometry : PoolGeometry) (ring : Ring) (block : Nat) : Prop
  | free {blockClass : BlockClass} (hclass : geometry.classOf block = some blockClass)
      (hstate : ring.ledger.states block = .free)
      (honce : (ring.ledger.free blockClass).count block = 1)
      (hother : ∀ other, other ≠ blockClass → block ∉ ring.ledger.free other)
      (hreserved : ring.reservedBlock ≠ some block) (houtstanding : block ∉ ring.ledger.outstanding)
  | reserved (hstate : ring.ledger.states block = .reserved)
      (hreserved : ring.reservedBlock = some block)
      (hfree : ∀ other, block ∉ ring.ledger.free other)
      (houtstanding : block ∉ ring.ledger.outstanding)
  | published (hstate : ring.ledger.states block = .published)
      (honce : ring.ledger.outstanding.count block = 1)
      (hfree : ∀ other, block ∉ ring.ledger.free other)
      (hreserved : ring.reservedBlock ≠ some block)

theorem Ring.Wf.inOnePlace {geometry : PoolGeometry} {ring : Ring} (h : ring.Wf geometry)
    {block : Nat} (hlt : block < geometry.blockCount) : ring.InOnePlace geometry block := by
  have hfree : ∀ {other}, ring.ledger.states block ≠ .free → block ∉ ring.ledger.free other :=
    fun hstate hmem => hstate ((h.mem_free _ _).mp hmem).2
  have houtstanding : ring.ledger.states block ≠ .published → block ∉ ring.ledger.outstanding :=
    fun hstate hmem => hstate ((h.mem_outstanding _).mp hmem).2
  have hreserved : ring.ledger.states block ≠ .reserved → ring.reservedBlock ≠ some block :=
    fun hstate heq => hstate ((h.reserved_iff _).mp heq).2
  obtain ⟨placement, hplacement, -⟩ := geometry.placement_placed hlt
  have hclass : geometry.classOf block = some placement.blockClass := by
    rw [PoolGeometry.classOf, hplacement, Option.map_some]
  cases hstate : ring.ledger.states block with
  | free =>
    refine .free hclass hstate ?_ ?_ (hreserved (by simp [hstate]))
      (houtstanding (by simp [hstate]))
    · exact count_eq_one_of_mem (h.nodup_free _) ((h.mem_free _ _).mpr ⟨hclass, hstate⟩)
    · intro other hne hmem
      exact hne (Option.some.inj (((h.mem_free _ _).mp hmem).1.symm.trans hclass))
  | reserved =>
    exact .reserved hstate ((h.reserved_iff _).mpr ⟨hlt, hstate⟩)
      (fun _ => hfree (by simp [hstate])) (houtstanding (by simp [hstate]))
  | published =>
    exact .published hstate
      (count_eq_one_of_mem h.nodup_outstanding ((h.mem_outstanding _).mpr ⟨hlt, hstate⟩))
      (fun _ => hfree (by simp [hstate])) (hreserved (by simp [hstate]))

/-! ## Refused reservations -/

/-- The free lists, the states and the outstanding blocks agree. -/
structure SameLists (ring ring' : Ring) : Prop where
  free_eq : ring'.ledger.free = ring.ledger.free
  states_eq : ring'.ledger.states = ring.ledger.states
  outstanding_eq : ring'.ledger.outstanding = ring.ledger.outstanding

theorem Refuses.sameLists {wanted : Option BlockClass} {ring ring' : Ring} {log : List Answer}
    (h : Refuses wanted ring log ring') :
    SameLists ring ring' := by
  cases h with
  | kept hledger _ =>
    obtain ⟨_, hledger⟩ := hledger
    constructor <;> rw [hledger]
  | lost _ _ _ hledger _ =>
    obtain ⟨_, hledger⟩ := hledger
    constructor <;> rw [hledger]

/-- The reclaim pass of a call that began with `ring` ended with `ring₁`. -/
def PassEnds (retained : Retained) (ring ring₁ : Ring) (log₁ : List Answer) : Prop :=
  ∃ (start : Ring) (outcome : Except RingError Unit) (log₀ : List Answer),
    start.ledger = ring.ledger ∧
      (Ring.reclaimCompletions retained start).Runs anyPeer.answers log₀ (outcome, ring₁) log₁

/-- The lists are what the reclaim pass left of them, or untouched if the call did not
come to its pass. -/
def AfterReclaim (retained : Retained) (ring : Ring) (log : List Answer) (ring' : Ring) : Prop :=
  (∀ word, ∀ answer ∈ log, answer.1 ≠ .swapReturn word) ∧ SameLists ring ring' ∨
    ∃ ring₁ log₁, PassEnds retained ring ring₁ log₁ ∧ log₁ <+: log ∧ SameLists ring₁ ring'

namespace Ring

variable (retained : Retained)

theorem isQuarantined_log {ε : Type} (ring : Ring) (failed : ε → Ring → List Answer → Prop) :
    (isQuarantined retained : RingAct ε Bool).Safe anyPeer ring []
      (fun _ ring' log => ring'.ledger = ring.ledger ∧
        ∀ word, ∀ answer ∈ log, answer.1 ≠ .swapReturn word)
      failed := by
  have hnone : ∀ word, ∀ answer ∈ ([] : List Answer), answer.1 ≠ .swapReturn word := nofun
  rw [isQuarantined, Act.safe_get_bind]
  split
  · exact safe_pure_anyPeer ⟨rfl, hnone⟩
  · rw [retained.lifecycleQuarantined_ok]
    refine safe_run_anyPeer fun flag => ?_
    have hflag : ∀ word, ∀ answer ∈ [] ++ [(⟨.loadFlag, flag⟩ : Answer)],
        answer.1 ≠ .swapReturn word := by
      intro word answer hmem
      rw [nil_append, mem_singleton] at hmem
      rw [hmem]
      nofun
    split
    · exact safe_pure_anyPeer ⟨rfl, hflag⟩
    · exact safe_pure_anyPeer ⟨rfl, hflag⟩

theorem admitReservation_pass (bound : Nat) (ring : Ring) :
    (admitReservation retained bound).Safe anyPeer ring []
      (fun _ ring₁ log₁ => PassEnds retained ring ring₁ log₁)
      (fun _ ring₁ log₁ => AfterReclaim retained ring log₁ ring₁) := by
  have hbefore : ∀ {ring₁ : Ring} {log₁ : List Answer},
      ring₁.ledger = ring.ledger ∧ (∀ word, ∀ answer ∈ log₁, answer.1 ≠ .swapReturn word) →
      AfterReclaim retained ring log₁ ring₁ := by
    rintro ring₁ log₁ ⟨hledger, hlog⟩
    exact .inl ⟨hlog, by rw [hledger], by rw [hledger], by rw [hledger]⟩
  unfold admitReservation
  split
  · exact safe_throw_anyPeer (hbefore ⟨rfl, nofun⟩)
  · rw [Act.safe_bind]
    refine (isQuarantined_log retained ring _).mono ?_ (fun _ _ _ h => h)
    intro quarantined ring₁ log₁ h₁
    rw [Act.safe_get_bind]
    split
    · exact safe_throw_anyPeer (hbefore h₁)
    · split
      · exact safe_throw_anyPeer (hbefore h₁)
      · split
        · exact safe_throw_anyPeer (hbefore h₁)
        · split
          · exact safe_throw_anyPeer (hbefore h₁)
          · rw [Act.safe_mapError]
            refine Prog.safe_solo_iff.mpr ?_
            rintro ⟨error | _, ring₂⟩ log₂ hrun
            · rintro _ rfl
              refine .inr ⟨ring₂, log₂, ⟨ring₁, _, log₁, h₁.1, hrun⟩, prefix_refl _, ?_⟩
              exact ⟨rfl, rfl, rfl⟩
            · exact ⟨ring₁, _, log₁, h₁.1, hrun⟩

theorem tryReserveIn_refused (inventory : Inventory) (bound : Nat) (wireHeader : WireHeader)
    {ring ring' : Ring} {error : ProducerError} {log : List Answer}
    (hwf : ring.Wf retained.geometry)
    (hrun : (tryReserveIn retained inventory bound wireHeader ring).Runs anyPeer.answers []
      (.error error, ring') log) :
    AfterReclaim retained ring log ring' := by
  have hsafe : (tryReserveIn retained inventory bound wireHeader).Safe anyPeer ring []
      (fun _ _ _ => True) (fun _ ring' log => AfterReclaim retained ring log ring') := by
    rw [tryReserveIn, Act.safe_bind]
    refine ((admitReservation_safe retained bound ring []).and
      (admitReservation_pass retained bound ring)).mono ?_ (fun _ _ _ h => h.2)
    rintro _ ring₁ log₁ ⟨⟨hreclaims, -⟩, hpass⟩
    refine (reserveReclaimed_safe retained inventory bound wireHeader log₁
      (hreclaims.wf hwf)).mono (fun _ _ _ _ => trivial) ?_
    rintro _ ring' _ ⟨log₂, rfl, hrefuses⟩
    exact .inr ⟨ring₁, log₁, hpass, prefix_append _ _, hrefuses.sameLists⟩
  exact Prog.Safe.of_runs hsafe hrun

end Ring

/-! ## Integrity -/

/-- In every run against any peer: each block is in one place, no return is listed
twice, the generations of a block increase, a publication ends only on a cell that holds
the last of them, and a refused reservation leaves the lists as its reclaim pass did. -/
theorem ledger_integrity (retained : Retained) (published consumed : Nat)
    {events : List Event} {handle : Handle}
    (h : Handle.Reaches retained (.attach retained published consumed) events handle) :
    (∀ block, block < retained.geometry.blockCount →
      handle.ring.InOnePlace retained.geometry block) ∧
    (∀ block, handle.ring.ledger.reclaimed.count block ≤ 1) ∧
    (∀ block, (issued events block).Pairwise (· < ·)) ∧
    (∀ call log event handle', handle.Step retained call log event handle' →
      ∀ block, handle.ring.ledger.states block = .published →
        handle'.ring.ledger.states block ≠ .published →
        ∃ generation : Nat, (issued events block).getLast? = some generation ∧
          ⟨.loadCell block, generation⟩ ∈ log) ∧
    (∀ inventory bound wireHeader error ring' log,
      (Ring.tryReserveIn retained inventory bound wireHeader handle.ring).Runs anyPeer.answers []
        (.error error, ring') log →
      AfterReclaim retained handle.ring log ring') := by
  have hsound := h.sound
  refine ⟨fun block => hsound.wf.inOnePlace, ?_, hsound.issued_lt, ?_, ?_⟩
  · exact nodup_iff_count_le_one.mp hsound.wf.nodup_reclaimed
  · intro call log event handle' hstep block hpublished hended
    obtain ⟨heffect, -⟩ := hstep.effect retained hsound.held hsound.wf
    exact ⟨_, hsound.last_issued block (by simp [hpublished]),
      heffect.freed hsound.wf hpublished hended⟩
  · intro inventory bound wireHeader error ring' log hrun
    exact Ring.tryReserveIn_refused retained inventory bound wireHeader hsound.wf hrun

def returnedOnce : List (Call × List Answer) :=
  [(.tryReserveIn .ordinary 0 (.replicate 20 0),
      [⟨.loadFlag, (0 : Nat)⟩, ⟨.swapReturn 0, (0 : Nat)⟩, ⟨.loadConsumed, (0 : Nat)⟩,
        ⟨.loadCell 0, (0 : Nat)⟩]),
    (.held (.commit 0),
      [⟨.loadFlag, (0 : Nat)⟩, ⟨.storeHeader 0 (.replicate 20 0), ()⟩,
        ⟨.storeSlot 0 .block 0, ()⟩, ⟨.storeSlot 0 .generation 1, ()⟩,
        ⟨.storeSlot 0 .bodyLen 0, ()⟩, ⟨.storeSlot 0 .sequence 1, ()⟩,
        ⟨.casPublished 0 1, true⟩, ⟨.bumpGeneration .data, ()⟩, ⟨.swapParked .data, (0 : Nat)⟩,
        ⟨.loadFlag, (0 : Nat)⟩]),
    (.inventory,
      [⟨.loadFlag, (0 : Nat)⟩, ⟨.swapReturn 0, (1 : Nat)⟩, ⟨.loadCell 0, (1 : Nat)⟩,
        ⟨.loadFlag, (0 : Nat)⟩, ⟨.loadConsumed, (1 : Nat)⟩])]

theorem returnedOnce_reaches : ∃ handle,
    Handle.Reaches .small (.attach .small 0 0) [.reserved 0 1, .returned 0] handle := by
  have hreplay : ((Handle.attach .small 0 0).replay .small returnedOnce).map Prod.fst =
      some [.reserved 0 1, .returned 0] := by
    decide +kernel
  obtain ⟨⟨events, handle⟩, hrun, rfl⟩ := Option.map_eq_some_iff.mp hreplay
  exact ⟨handle, Handle.reaches_of_replay .small .start (fun _ _ _ => trivial) hrun⟩

theorem ledger_integrity_returnedOnce : ∃ handle,
    Handle.Reaches .small (.attach .small 0 0) [.reserved 0 1, .returned 0] handle ∧
      ∀ block, block < PoolGeometry.small.blockCount → handle.ring.InOnePlace .small block := by
  obtain ⟨handle, hreaches⟩ := returnedOnce_reaches
  exact ⟨handle, hreaches, (ledger_integrity .small 0 0 hreaches).1⟩

end Eidnara.ShmTransport
