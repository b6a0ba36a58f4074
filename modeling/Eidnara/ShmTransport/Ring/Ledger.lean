import Eidnara.ShmTransport.Ring.Producer

/-!
# Where the blocks are

The invariant of the producer's ledger and the moves of a block between its lists.
-/

namespace Eidnara.ShmTransport

open Lib List

/-- Where the blocks of a pool are: on the free list of their class, reserved, or
outstanding, as their state has it. -/
structure ProducerLedger.Wf (geometry : PoolGeometry) (ledger : ProducerLedger)
    (reservedBlock : Option Nat) : Prop where
  mem_free : ∀ blockClass block, block ∈ ledger.free blockClass ↔
    geometry.classOf block = some blockClass ∧ ledger.states block = .free
  nodup_free : ∀ blockClass, (ledger.free blockClass).Nodup
  mem_outstanding : ∀ block, block ∈ ledger.outstanding ↔
    block < geometry.blockCount ∧ ledger.states block = .published
  nodup_outstanding : ledger.outstanding.Nodup
  reserved_iff : ∀ block, reservedBlock = some block ↔
    block < geometry.blockCount ∧ ledger.states block = .reserved
  mem_reclaimed : ∀ block ∈ ledger.reclaimed,
    block < geometry.blockCount ∧ ledger.states block = .free
  nodup_reclaimed : ledger.reclaimed.Nodup

namespace ProducerLedger

variable {geometry : PoolGeometry} {ledger : ProducerLedger} {reservedBlock : Option Nat}

theorem wf_new (geometry : PoolGeometry) (allowed : Bool) :
    (ProducerLedger.new geometry allowed).Wf geometry none where
  mem_free blockClass block := by
    rw [geometry.classOf_eq_some_iff]
    simp [ProducerLedger.new, mem_range'_1]
  nodup_free blockClass := nodup_reverse.mpr (nodup_range')
  mem_outstanding block := by simp [ProducerLedger.new]
  nodup_outstanding := nodup_nil
  reserved_iff block := by simp [ProducerLedger.new]
  mem_reclaimed block h := absurd h not_mem_nil
  nodup_reclaimed := nodup_nil

namespace Wf

variable {block : Nat}

theorem reclaimed_length_lt (h : ledger.Wf geometry reservedBlock)
    (hblock : block < geometry.blockCount) (hstate : ledger.states block ≠ .free) :
    ledger.reclaimed.length < geometry.blockCount := by
  have hnodup : (block :: ledger.reclaimed).Nodup :=
    nodup_cons.mpr ⟨fun hmem => hstate (h.mem_reclaimed block hmem).2, h.nodup_reclaimed⟩
  have hsub : block :: ledger.reclaimed ⊆ List.range geometry.blockCount :=
    cons_subset.mpr ⟨mem_range.mpr hblock, fun other hmem =>
      mem_range.mpr (h.mem_reclaimed other hmem).1⟩
  have hlength := (subperm_of_subset hnodup hsub).length_le
  rw [length_cons, length_range] at hlength
  exact hlength

variable {blockClass : BlockClass}

theorem freeBlock (h : ledger.Wf geometry reservedBlock)
    (hclass : geometry.classOf block = some blockClass)
    (hstate : ledger.states block = .published) :
    (ledger.freeBlock geometry blockClass block).Wf geometry reservedBlock := by
  have hlt := geometry.lt_of_classOf hclass
  have hroom := h.reclaimed_length_lt hlt (by simp [hstate])
  have hfresh : block ∉ ledger.reclaimed := fun hmem => by
    have := (h.mem_reclaimed block hmem).2
    simp [hstate] at this
  have hfree : ∀ c, block ∉ ledger.free c := fun c hmem => by
    have := ((h.mem_free c block).mp hmem).2
    simp [hstate] at this
  constructor <;> simp only [ProducerLedger.freeBlock, hroom, if_true]
  · intro c b
    have := h.mem_free c b
    grind [Function.update]
  · intro c
    have := h.nodup_free c
    grind [Function.update]
  · intro b
    rw [Vec.mem_removeValue h.nodup_outstanding]
    have := h.mem_outstanding b
    grind [Function.update]
  · exact Vec.nodup_removeValue h.nodup_outstanding block
  · intro b
    have := h.reserved_iff b
    grind [Function.update]
  · intro b hb
    have := h.mem_reclaimed b
    grind [Function.update]
  · have := h.nodup_reclaimed
    grind

theorem of_eq {ledger' : ProducerLedger} (h : ledger.Wf geometry reservedBlock)
    (hfree : ledger'.free = ledger.free) (hstates : ledger'.states = ledger.states)
    (houtstanding : ledger'.outstanding = ledger.outstanding)
    (hsub : ledger'.reclaimed ⊆ ledger.reclaimed) (hnodup : ledger'.reclaimed.Nodup) :
    ledger'.Wf geometry reservedBlock where
  mem_free := by rw [hfree, hstates]; exact h.mem_free
  nodup_free := by rw [hfree]; exact h.nodup_free
  mem_outstanding := by rw [houtstanding, hstates]; exact h.mem_outstanding
  nodup_outstanding := by rw [houtstanding]; exact h.nodup_outstanding
  reserved_iff := by rw [hstates]; exact h.reserved_iff
  mem_reclaimed block hmem := by rw [hstates]; exact h.mem_reclaimed block (hsub hmem)
  nodup_reclaimed := hnodup

theorem of_pop (h : ledger.Wf geometry reservedBlock) {rest : List Nat}
    (hpop : Vec.pop (ledger.free blockClass) = some (rest, block)) :
    geometry.classOf block = some blockClass ∧ ledger.states block = .free := by
  rw [← h.mem_free, Vec.pop_eq_some hpop]
  exact mem_append_right _ (mem_singleton_self block)

theorem reserve (h : ledger.Wf geometry none) {rest : List Nat}
    (hpop : Vec.pop (ledger.free blockClass) = some (rest, block)) (generations : Nat → Nat) :
    ({ ledger.takeFree blockClass rest block with
        generations := generations
        states := Function.update ledger.states block .reserved } : ProducerLedger).Wf
      geometry (some block) := by
  obtain ⟨hclass, hstate⟩ := h.of_pop hpop
  have hlt := geometry.lt_of_classOf hclass
  have hsplit := Vec.pop_eq_some hpop
  have hnodup := h.nodup_free blockClass
  rw [hsplit, nodup_append] at hnodup
  constructor <;> simp only [ProducerLedger.takeFree]
  · intro c b
    have := h.mem_free c b
    grind [Function.update]
  · intro c
    have := h.nodup_free c
    grind [Function.update]
  · intro b
    have := h.mem_outstanding b
    grind [Function.update]
  · exact h.nodup_outstanding
  · intro b
    have := h.reserved_iff b
    grind [Function.update]
  · intro b hb
    rw [Vec.mem_removeValue h.nodup_reclaimed] at hb
    have := h.mem_reclaimed b hb.1
    grind [Function.update]
  · exact Vec.nodup_removeValue h.nodup_reclaimed block

theorem abort (h : ledger.Wf geometry (some block))
    (hclass : geometry.classOf block = some blockClass) :
    ((ledger.setState block .free).pushFree blockClass block).Wf geometry none := by
  obtain ⟨hlt, hstate⟩ := (h.reserved_iff block).mp rfl
  have hfree : ∀ c, block ∉ ledger.free c := fun c hmem => by
    have := ((h.mem_free c block).mp hmem).2
    simp [hstate] at this
  constructor <;> simp only [ProducerLedger.setState, ProducerLedger.pushFree]
  · intro c b
    have := h.mem_free c b
    grind [Function.update]
  · intro c
    have := h.nodup_free c
    grind [Function.update]
  · intro b
    have := h.mem_outstanding b
    grind [Function.update]
  · exact h.nodup_outstanding
  · intro b
    have := h.reserved_iff b
    grind [Function.update]
  · intro b hb
    have := h.mem_reclaimed b hb
    grind [Function.update]
  · exact h.nodup_reclaimed

theorem publish (h : ledger.Wf geometry (some block)) :
    ({ ledger.setState block .published with
        outstanding := ledger.outstanding ++ [block] } : ProducerLedger).Wf geometry none := by
  obtain ⟨hlt, hstate⟩ := (h.reserved_iff block).mp rfl
  have hfresh : block ∉ ledger.outstanding := fun hmem => by
    have := ((h.mem_outstanding block).mp hmem).2
    simp [hstate] at this
  constructor <;> simp only [ProducerLedger.setState]
  · intro c b
    have := h.mem_free c b
    grind [Function.update]
  · exact h.nodup_free
  · intro b
    have := h.mem_outstanding b
    grind [Function.update]
  · have := h.nodup_outstanding
    grind
  · intro b
    have := h.reserved_iff b
    grind [Function.update]
  · intro b hb
    have := h.mem_reclaimed b hb
    grind [Function.update]
  · exact h.nodup_reclaimed

end Wf

/-- A refused block goes back where it was; only its unsettled return is gone. -/
theorem pushFree_takeFree {blockClass : BlockClass} {rest : List Nat} {block : Nat}
    (hpop : Vec.pop (ledger.free blockClass) = some (rest, block)) :
    (ledger.takeFree blockClass rest block).pushFree blockClass block =
      { ledger with reclaimed := Vec.removeValue ledger.reclaimed block } := by
  have hfree : ledger.free blockClass = rest ++ [block] := Vec.pop_eq_some hpop
  simp only [pushFree, takeFree, Function.update_self, Function.update_idem, ← hfree,
    Function.update_eq_self]

end ProducerLedger

end Eidnara.ShmTransport
