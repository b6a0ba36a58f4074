import Eidnara.Lib.Regions
import Eidnara.ShmTransport.Descriptor
import Eidnara.ShmTransport.Layout

/-!
# Geometry and layout partition the mapping

The blocks of a pool lie end to end over its arena in the order of their ids, and the
pages, slots, cells and words of a layout lie apart from one another and from the
arena.  Both are read off the offsets the source computes for each of them.
-/

namespace Eidnara.ShmTransport

open Lib

/-! ## Blocks tile the arena -/

def blockSizes (classes : List ClassSpec) : List Nat :=
  classes.flatMap fun spec => List.replicate spec.count spec.blockBytes

theorem length_blockSizes (classes : List ClassSpec) :
    (blockSizes classes).length = countSum classes := by
  induction classes with
  | nil => rfl
  | cons spec classes ih =>
    rw [countSum_cons, ← ih, blockSizes, List.flatMap_cons, List.length_append,
      List.length_replicate, ← blockSizes]

theorem sum_blockSizes (classes : List ClassSpec) :
    (blockSizes classes).sum = byteSum classes := by
  induction classes with
  | nil => rfl
  | cons spec classes ih =>
    rw [byteSum_cons, ← ih, blockSizes, List.flatMap_cons, List.sum_append, List.sum_replicate_nat,
      ← blockSizes, Nat.mul_comm]

namespace PoolGeometry

open List

variable {geometry : PoolGeometry} {id : Nat} {placement : BlockPlacement}

theorem blockSizes_split (geometry : PoolGeometry) (blockClass : BlockClass) :
    blockSizes geometry.classes = blockSizes (geometry.classes.take blockClass.index) ++
      (replicate (geometry.classSpec blockClass).count
        (geometry.classSpec blockClass).blockBytes ++
        blockSizes (geometry.classes.drop (blockClass.index + 1))) := by
  conv_lhs => rw [geometry.classes_split blockClass]
  simp only [blockSizes, flatMap_append, flatMap_cons]

theorem Placed.size_eq (h : geometry.Placed id placement) :
    (blockSizes geometry.classes)[id]? = some placement.blockBytes := by
  have hfirst := h.first_le
  have hlast := h.lt_end
  have hlength := length_blockSizes (geometry.classes.take placement.blockClass.index)
  rw [← firstBlock] at hlength
  rw [geometry.blockSizes_split placement.blockClass,
    getElem?_append_right (by rw [hlength]; exact hfirst), hlength,
    getElem?_append_left (by rw [length_replicate]; omega),
    getElem?_replicate_of_lt (by omega), h.blockBytes_eq]

theorem Placed.offset_eq_sum (h : geometry.Placed id placement) :
    placement.offset = ((blockSizes geometry.classes).take id).sum := by
  have hfirst := h.first_le
  have hlast := h.lt_end
  have hlength := length_blockSizes (geometry.classes.take placement.blockClass.index)
  rw [← firstBlock] at hlength
  rw [geometry.blockSizes_split placement.blockClass, take_append,
    take_of_length_le (by rw [hlength]; exact hfirst), hlength,
    take_append_of_le_length (by rw [length_replicate]; omega), take_replicate,
    Nat.min_eq_left (by omega), sum_append, sum_blockSizes, sum_replicate_nat,
    h.offset_eq, h.blockBytes_eq]

/-- The blocks are the ids below the count.  They lie end to end over the arena, each
in the class whose ids it is among. -/
structure TilesArena (geometry : PoolGeometry) : Prop where
  placed : ∀ id, id < geometry.blockCount → ∃ placement, geometry.placement id = some placement
  none_beyond : ∀ id, geometry.blockCount ≤ id → geometry.placement id = none
  first : ∀ placement, geometry.placement 0 = some placement → placement.offset = 0
  next : ∀ id placement after, geometry.placement id = some placement →
    geometry.placement (id + 1) = some after →
    after.offset = placement.offset + placement.blockBytes
  last : ∀ id placement, geometry.placement id = some placement → id + 1 = geometry.blockCount →
    placement.offset + placement.blockBytes = geometry.arenaBytes
  disjoint : ∀ a b placement other, a < b → geometry.placement a = some placement →
    geometry.placement b = some other →
    placement.offset + placement.blockBytes ≤ other.offset
  covers : ∀ byte, byte < geometry.arenaBytes → ∃ id placement,
    geometry.placement id = some placement ∧ placement.offset ≤ byte ∧
      byte < placement.offset + placement.blockBytes
  class_iff : ∀ id placement blockClass, geometry.placement id = some placement →
    (placement.blockClass = blockClass ↔ geometry.firstBlock blockClass ≤ id ∧
      id < geometry.firstBlock blockClass + (geometry.classSpec blockClass).count)

theorem tilesArena (geometry : PoolGeometry) : geometry.TilesArena where
  placed id hid := by
    obtain ⟨placement, hplacement, -⟩ := geometry.placement_placed hid
    exact ⟨placement, hplacement⟩
  none_beyond id hid := by
    cases hplacement : geometry.placement id with
    | none => rfl
    | some placement =>
      have hlt := (geometry.placement_some hplacement).1
      omega
  first placement h := by
    rw [(geometry.placement_some h).2.offset_eq_sum]
    rfl
  next id placement after h hafter := by
    have hplaced := (geometry.placement_some h).2
    rw [(geometry.placement_some hafter).2.offset_eq_sum,
      sum_take_succ_of_getElem? hplaced.size_eq, ← hplaced.offset_eq_sum]
  last id placement h hlast := by
    have hplaced := (geometry.placement_some h).2
    rw [hplaced.offset_eq_sum, ← sum_take_succ_of_getElem? hplaced.size_eq, hlast, blockCount,
      ← length_blockSizes, take_length, sum_blockSizes, arenaBytes]
  disjoint a b placement other hlt h hother := by
    have hplaced := (geometry.placement_some h).2
    rw [hplaced.offset_eq_sum, ← sum_take_succ_of_getElem? hplaced.size_eq,
      (geometry.placement_some hother).2.offset_eq_sum]
    exact List.monotone_sum_take _ hlt
  covers byte hbyte := by
    rw [arenaBytes, ← sum_blockSizes] at hbyte
    obtain ⟨id, size, hsize, hlow, hhigh⟩ := exists_sum_take_le _ hbyte
    have hid : id < geometry.blockCount := by
      rw [blockCount, ← length_blockSizes]
      exact (List.getElem?_eq_some_iff.mp hsize).1
    obtain ⟨placement, hplacement, hplaced⟩ := geometry.placement_placed hid
    have hbytes : placement.blockBytes = size :=
      Option.some.inj (hplaced.size_eq.symm.trans hsize)
    refine ⟨id, placement, hplacement, ?_, ?_⟩ <;> rw [hplaced.offset_eq_sum]
    · exact hlow
    · rw [hbytes]
      exact hhigh
  class_iff id placement blockClass h := by
    rw [← geometry.classOf_eq_some_iff, classOf, h, Option.map_some, Option.some.injEq]

theorem le_bodyCapacity_of_classFor {inventory : Inventory} {body : Nat} {blockClass : BlockClass}
    (h : geometry.classFor inventory body = some blockClass) :
    body ≤ (geometry.classSpec blockClass).bodyCapacity := by
  cases inventory with
  | ordinary =>
    obtain ⟨index, hfind, rfl⟩ := Option.map_eq_some_iff.mp h
    simpa using List.find?_some hfind
  | control | terminal =>
    simp only [classFor] at h
    split_ifs at h with hfits
    cases h
    exact hfits

end PoolGeometry

/-! ## Regions of a layout -/

namespace MappingLayout

open List

/-- Everything a mapping holds: the control pages, the lifecycle page, the descriptor
slots, the completion cells, the return words and the arena, at the offsets of the
source and with the alignment of its page types. -/
def regions (layout : MappingLayout) (pageSize : Nat) : Option (List Region) := do
  let slots ← (range layout.descriptorDepth).mapM fun index =>
    (layout.descriptorOffset index).map (⟨·, descriptorSlotBytes, descriptorSlotBytes⟩)
  let cells ← (range layout.blockCount).mapM fun block =>
    (layout.completionOffset block).map (⟨·, 8, 8⟩)
  let words ← (range layout.returnWords).mapM fun word =>
    (layout.returnOffset word).map (⟨·, 8, 8⟩)
  some ([⟨layout.producer, cacheline, cacheline⟩, ⟨layout.consumer, cacheline, cacheline⟩,
    ⟨layout.dataWake, cacheline, cacheline⟩, ⟨layout.capacityWake, cacheline, cacheline⟩,
    ⟨layout.lifecycle, lifecyclePageBytes, lifecyclePageBytes⟩] ++ slots ++ cells ++ words ++
    [⟨layout.arena, layout.arenaBytes, pageSize⟩])

theorem mapM_row {offset : Nat → Option Nat} {start size count : Nat}
    (h : ∀ index < count, offset index = some (start + index * size)) :
    ((range count).mapM fun index => (offset index).map (⟨·, size, size⟩)) =
      some ((range count).map fun index => (⟨start + index * size, size, size⟩ : Region)) := by
  rw [mapM_eq_some_iff, map_map]
  refine map_congr_left fun index hindex => ?_
  rw [h index (mem_range.mp hindex)]
  rfl

variable {geometry : PoolGeometry} {layout : MappingLayout}

theorem Regions.returnOffset_eq (h : layout.Regions geometry) {word : Nat}
    (hword : word < layout.returnWords) :
    layout.returnOffset word = some (layout.returns + word * 8) := by
  have := h.returns_end
  have := h.arena_end
  have := h.total_lt
  rw [returnOffset, if_neg (Nat.not_le.mpr hword), checkedMul_of_lt (by omega),
    Option.bind_some, checkedAdd_of_lt (by omega)]

/-- The regions of a layout, packed from the start of the mapping to its end. -/
theorem packed_regions {pageSize : Nat} (h : MappingLayout.new geometry pageSize = .ok layout) :
    ∃ regions, layout.regions pageSize = some regions ∧ Packed regions 0 layout.total := by
  obtain ⟨hr, haligned⟩ := regions_of_new h
  have hslots := mapM_row fun _ hindex => hr.descriptorOffset_eq hindex
  have hcells := mapM_row fun _ hblock => hr.completionOffset_eq hblock
  have hwords := mapM_row fun _ hword => hr.returnOffset_eq hword
  refine ⟨_, by simp only [regions, hslots, hcells, hwords]; rfl, ?_⟩
  have hdescriptors := hr.descriptors_eq
  have hdescriptorsEnd := hr.descriptors_end
  have hcompletions := hr.completions_aligned
  have hcompletionsEnd := hr.completions_end
  have hreturns := hr.returns_aligned
  have hreturnsEnd := hr.returns_end
  have harenaEnd := hr.arena_end
  have hcontrol : Packed [⟨layout.producer, cacheline, cacheline⟩,
      ⟨layout.consumer, cacheline, cacheline⟩, ⟨layout.dataWake, cacheline, cacheline⟩,
      ⟨layout.capacityWake, cacheline, cacheline⟩,
      ⟨layout.lifecycle, lifecyclePageBytes, lifecyclePageBytes⟩] 0 layout.descriptors := by
    rw [hr.producer_eq, hr.consumer_eq, hr.dataWake_eq, hr.capacityWake_eq, hr.lifecycle_eq,
      hdescriptors]
    constructor <;> decide
  have hslotRow : Packed ((range layout.descriptorDepth).map fun index =>
      ⟨layout.descriptors + index * descriptorSlotBytes, descriptorSlotBytes,
        descriptorSlotBytes⟩) layout.descriptors layout.completions :=
    Packed.row (by rw [hdescriptors]; rfl) (by rw [descriptorSlotBytes]; omega)
  have hcellRow : Packed ((range layout.blockCount).map fun block =>
      ⟨layout.completions + block * 8, 8, 8⟩) layout.completions layout.returns :=
    Packed.row (by omega) (by omega)
  have hwordRow : Packed ((range layout.returnWords).map fun word =>
      ⟨layout.returns + word * 8, 8, 8⟩) layout.returns layout.arena :=
    Packed.row (by omega) (by omega)
  have harena : Packed [⟨layout.arena, layout.arenaBytes, pageSize⟩] layout.arena layout.total :=
    Packed.single le_rfl harenaEnd haligned
  exact (((hcontrol.append hslotRow (by omega) (by omega)).append hcellRow (by omega)
    (by omega)).append hwordRow (by omega) (by omega)).append harena (by omega) (by omega)

end MappingLayout

/-! ## The mapping -/

/-- For every geometry and every page size that give a layout: the blocks tile the
arena, the regions lie apart, aligned and inside the mapping, and every block of the
class picked for a body takes its header and its body. -/
theorem geometry_partitions_mapping (geometry : PoolGeometry) (pageSize : Nat)
    (layout : MappingLayout) (h : MappingLayout.new geometry pageSize = .ok layout)
    (incarnation : Vector UInt8 16) (lane : Nat) :
    geometry.TilesArena ∧
    (∃ regions, layout.regions pageSize = some regions ∧ Packed regions 0 layout.total) ∧
    (layout.descriptorDepth = geometry.descriptorDepth ∧
      layout.blockCount = geometry.blockCount ∧
      layout.returnWords = (geometry.blockCount + 63) / 64 ∧
      layout.arenaBytes = geometry.arenaBytes) ∧
    ∀ inventory body blockClass, geometry.classFor inventory body = some blockClass →
      ∀ id, geometry.firstBlock blockClass ≤ id →
      id < geometry.firstBlock blockClass + (geometry.classSpec blockClass).count →
      ∃ placement, geometry.placement id = some placement ∧
        Retained.headerPtr ⟨geometry, layout, ⟨pageSize, h⟩, incarnation, lane⟩ id =
          .ok (layout.arena + placement.offset) ∧
        Retained.bodyPtr ⟨geometry, layout, ⟨pageSize, h⟩, incarnation, lane⟩ id body =
          .ok (layout.arena + (placement.offset + wireHeaderBytes)) ∧
        wireHeaderBytes + body ≤ placement.blockBytes := by
  refine ⟨geometry.tilesArena, MappingLayout.packed_regions h, ?_, ?_⟩
  · obtain ⟨hr, -⟩ := MappingLayout.regions_of_new h
    exact ⟨hr.depth_eq, hr.count_eq, hr.words_eq, hr.arenaBytes_eq⟩
  · intro inventory body blockClass hclass id hfirst hlast
    have hcount := geometry.block_end_le blockClass
    obtain ⟨placement, hplacement, hplaced⟩ :=
      geometry.placement_placed (show id < geometry.blockCount by omega)
    have hpicked : placement.blockClass = blockClass :=
      (geometry.tilesArena.class_iff id placement blockClass hplacement).mpr ⟨hfirst, hlast⟩
    have hcapacity := PoolGeometry.le_bodyCapacity_of_classFor hclass
    have hheader := hplaced.within.2
    have hbody : body ≤ placement.bodyCapacity := by
      rw [BlockPlacement.bodyCapacity, hplaced.blockBytes_eq, hpicked]
      exact hcapacity
    refine ⟨placement, hplacement, Retained.headerPtr_ok _ hplacement,
      Retained.bodyPtr_ok _ hplacement hbody, ?_⟩
    rw [BlockPlacement.bodyCapacity] at hbody
    omega

theorem geometry_partitions_mapping_small :
    ∃ regions, MappingLayout.regions Retained.small.layout 4096 = some regions ∧
      Packed regions 0 73728 :=
  (geometry_partitions_mapping .small 4096 Retained.small.layout (by decide +kernel)
    (Vector.replicate 16 0) 0).2.1

/-! ## What a descriptor names -/

theorem PoolDescriptor.validate_ok {descriptor : PoolDescriptor} {sequence : Nat}
    {geometry : PoolGeometry} {v : ValidatedDescriptor geometry}
    (h : descriptor.validate sequence geometry = .ok v) :
    v.block = descriptor.block ∧ v.bodyLen = descriptor.bodyLen := by
  unfold validate at h
  repeat' split at h
  all_goals cases h
  exact ⟨rfl, rfl⟩

/-- Whatever two descriptors a peer wrote, the bodies of the accepted ones lie in the mapping, and
apart when their blocks differ. -/
theorem accepted_bodies_apart (retained : Retained) {a b : PoolDescriptor} {m n : Nat}
    {v w : ValidatedDescriptor retained.geometry} (ha : a.validate m retained.geometry = .ok v)
    (hb : b.validate n retained.geometry = .ok w) (hne : a.block ≠ b.block) :
    ∃ x y, retained.bodyPtr a.block a.bodyLen = .ok x ∧
      retained.bodyPtr b.block b.bodyLen = .ok y ∧ x + a.bodyLen ≤ retained.layout.total ∧
      y + b.bodyLen ≤ retained.layout.total ∧ (x + a.bodyLen ≤ y ∨ y + b.bodyLen ≤ x) := by
  rw [← (PoolDescriptor.validate_ok ha).1, ← (PoolDescriptor.validate_ok hb).1] at hne ⊢
  rw [← (PoolDescriptor.validate_ok ha).2, ← (PoolDescriptor.validate_ok hb).2]
  refine ⟨_, _, retained.bodyPtr_ok v.placed v.body_le, retained.bodyPtr_ok w.placed w.body_le, ?_⟩
  have hv := (retained.geometry.placement_some v.placed).2.within
  have hw := (retained.geometry.placement_some w.placed).2.within
  have hvbody := v.body_le
  have hwbody := w.body_le
  have hend := retained.regions.arena_end
  rw [BlockPlacement.bodyCapacity] at hvbody hwbody
  rw [retained.regions.arenaBytes_eq] at hend
  refine ⟨by omega, by omega, ?_⟩
  rcases Nat.lt_or_gt_of_ne hne with hlt | hgt
  · have hapart := retained.geometry.tilesArena.disjoint _ _ _ _ hlt v.placed w.placed
    omega
  · have hapart := retained.geometry.tilesArena.disjoint _ _ _ _ hgt w.placed v.placed
    omega

theorem accepted_bodies_apart_small : ∃ x y, Retained.small.bodyPtr 0 9 = .ok x ∧
    Retained.small.bodyPtr 1 0 = .ok y ∧ x + 9 ≤ 73728 ∧ y + 0 ≤ 73728 ∧
      (x + 9 ≤ y ∨ y + 0 ≤ x) :=
  @accepted_bodies_apart .small ⟨1, 0, 1, 9⟩ ⟨2, 1, 1, 0⟩ 1 2 _ _ rfl rfl (by decide)

end Eidnara.ShmTransport
