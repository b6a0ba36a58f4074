import Eidnara.Lib.Words
import Eidnara.ShmTransport.Pool

/-!
# Mapping layout

Byte offsets of every region in one direction's mapping (`MappingLayout`), and the
accessors of `retained.rs` as checks on offsets.  A `Retained` is a geometry with its
layout; every index the geometry admits passes its accessor.
-/

namespace Eidnara.ShmTransport

open Lib Words

def cacheline : Nat := 128

def descriptorSlotBytes : Nat := 64

def lifecyclePageBytes : Nat := 256

def returnWordBits : Nat := 64

structure MappingLayout where
  producer : Nat
  consumer : Nat
  dataWake : Nat
  capacityWake : Nat
  lifecycle : Nat
  descriptors : Nat
  descriptorDepth : Nat
  completions : Nat
  blockCount : Nat
  returns : Nat
  returnWords : Nat
  arena : Nat
  arenaBytes : Nat
  total : Nat
deriving DecidableEq, Repr

/-- `ok_or(overflow)`. -/
def orOverflow : Option Nat → Except GeometryError Nat
  | some n => .ok n
  | none => .error .arithmeticOverflow

/-- `align_up`; the alignment is a power of two. -/
def alignUp (value alignment : Nat) : Except GeometryError Nat :=
  let mask := alignment - 1
  orOverflow ((checkedAdd 64 value mask).map (· &&& complement (2 ^ 64) mask))

namespace MappingLayout

def new (geometry : PoolGeometry) (pageSize : Nat) : Except GeometryError MappingLayout := do
  if pageSize = 0 ∨ ¬ pageSize.isPowerOfTwo ∨ pageSize % blockAlign ≠ 0 then
    throw .invalidBlockBytes
  let producer := 0
  let consumer ← orOverflow (checkedAdd 64 producer cacheline)
  let dataWake ← orOverflow (checkedAdd 64 consumer cacheline)
  let capacityWake ← orOverflow (checkedAdd 64 dataWake cacheline)
  let lifecycle ← orOverflow (checkedAdd 64 capacityWake cacheline)
  let descriptors ← orOverflow (checkedAdd 64 lifecycle lifecyclePageBytes)
  let descriptorDepth := geometry.descriptorDepth
  let descriptorBytes ← orOverflow (checkedMul 64 descriptorDepth descriptorSlotBytes)
  let completions ← alignUp (← orOverflow (checkedAdd 64 descriptors descriptorBytes)) cacheline
  let blockCount := geometry.blockCount
  let completionBytes ← orOverflow (checkedMul 64 blockCount 8)
  let returns ← alignUp (← orOverflow (checkedAdd 64 completions completionBytes)) cacheline
  let returnWords := (blockCount + returnWordBits - 1) / returnWordBits
  let returnBytes ← orOverflow (checkedMul 64 returnWords 8)
  let arena ← alignUp (← orOverflow (checkedAdd 64 returns returnBytes)) pageSize
  let arenaBytes := geometry.arenaBytes
  let total ← alignUp (← orOverflow (checkedAdd 64 arena arenaBytes)) pageSize
  pure {
    producer := producer, consumer, dataWake, capacityWake, lifecycle, descriptors
    descriptorDepth, completions, blockCount, returns, returnWords, arena, arenaBytes, total }

variable (layout : MappingLayout)

def descriptorOffset (index : Nat) : Option Nat :=
  if index ≥ layout.descriptorDepth then none
  else (checkedMul 64 index descriptorSlotBytes).bind (checkedAdd 64 layout.descriptors)

def completionOffset (block : Nat) : Option Nat :=
  if block ≥ layout.blockCount then none
  else (checkedMul 64 block 8).bind (checkedAdd 64 layout.completions)

def returnOffset (word : Nat) : Option Nat :=
  if word ≥ layout.returnWords then none
  else (checkedMul 64 word 8).bind (checkedAdd 64 layout.returns)

end MappingLayout

/-! ## Regions -/

theorem orOverflow_ok {value : Option Nat} {n : Nat} (h : orOverflow value = .ok n) :
    value = some n := by
  cases value with
  | none => cases h
  | some m =>
    cases h
    rfl

theorem and_complement_eq {x k : Nat} (hx : x < 2 ^ 64) (hk : k ≤ 64) :
    x &&& complement (2 ^ 64) (2 ^ k - 1) = x / 2 ^ k * 2 ^ k := by
  have hpow : 2 ^ k * 2 ^ (64 - k) = 2 ^ 64 := by
    rw [← Nat.pow_add, Nat.add_sub_cancel' hk]
  have hpos : 0 < 2 ^ k := Nat.two_pow_pos k
  have hhigh : complement (2 ^ 64) (2 ^ k - 1) = (2 ^ (64 - k) - 1) <<< k := by
    rw [complement, Nat.shiftLeft_eq, Nat.sub_mul, Nat.mul_comm (2 ^ (64 - k)), hpow]
    omega
  have hround : x / 2 ^ k * 2 ^ k = x >>> k <<< k := by
    rw [Nat.shiftLeft_eq, Nat.shiftRight_eq_div_pow]
  rw [hhigh, hround]
  apply Nat.eq_of_testBit_eq
  intro i
  by_cases hi : k ≤ i
  · by_cases hwidth : i < 64
    · have hinside : i - k < 64 - k := by omega
      simp [hi, hinside]
    · have hzero : x.testBit i = false := Nat.testBit_lt_two_pow
        (hx.trans_le (Nat.pow_le_pow_right (by decide) (Nat.le_of_not_lt hwidth)))
      simp [hi, hzero]
  · simp [hi]

/-- A value rounded up stays above it and is a multiple of the alignment. -/
theorem alignUp_ok {value k n : Nat} (h : alignUp value (2 ^ k) = .ok n) :
    value ≤ n ∧ n % 2 ^ k = 0 ∧ n < 2 ^ 64 := by
  obtain ⟨sum, hsum, hn⟩ := Option.map_eq_some_iff.mp (orOverflow_ok h)
  obtain ⟨rfl, hlt⟩ := checkedAdd_some hsum
  have hk : k ≤ 64 := (Nat.pow_le_pow_iff_right (by decide)).mp (by omega : 2 ^ k ≤ 2 ^ 64)
  rw [and_complement_eq hlt hk] at hn
  have hdiv := Nat.div_add_mod (value + (2 ^ k - 1)) (2 ^ k)
  rw [Nat.mul_comm] at hdiv
  refine ⟨by omega, ?_, by omega⟩
  rw [← hn, Nat.mul_mod_left]

/-- Where the regions of a layout lie: in this order, apart and aligned. -/
structure MappingLayout.Regions (geometry : PoolGeometry) (layout : MappingLayout) : Prop where
  producer_eq : layout.producer = 0
  consumer_eq : layout.consumer = 128
  dataWake_eq : layout.dataWake = 256
  capacityWake_eq : layout.capacityWake = 384
  lifecycle_eq : layout.lifecycle = 512
  descriptors_eq : layout.descriptors = 768
  depth_eq : layout.descriptorDepth = geometry.descriptorDepth
  count_eq : layout.blockCount = geometry.blockCount
  words_eq : layout.returnWords = (geometry.blockCount + 63) / 64
  arenaBytes_eq : layout.arenaBytes = geometry.arenaBytes
  descriptors_end : layout.descriptors + 64 * layout.descriptorDepth ≤ layout.completions
  completions_aligned : layout.completions % 128 = 0
  completions_end : layout.completions + 8 * layout.blockCount ≤ layout.returns
  returns_aligned : layout.returns % 128 = 0
  returns_end : layout.returns + 8 * layout.returnWords ≤ layout.arena
  arena_end : layout.arena + layout.arenaBytes ≤ layout.total
  total_lt : layout.total < 2 ^ 64

theorem MappingLayout.regions_of_new {geometry : PoolGeometry} {pageSize : Nat}
    {layout : MappingLayout} (h : MappingLayout.new geometry pageSize = .ok layout) :
    layout.Regions geometry ∧ layout.arena % pageSize = 0 := by
  have hline : ∀ {value n : Nat}, alignUp value cacheline = .ok n →
      value ≤ n ∧ n % 128 = 0 ∧ n < 2 ^ 64 := alignUp_ok (k := 7)
  have hadd : ∀ {a b n : Nat}, orOverflow (checkedAdd 64 a b) = .ok n → n = a + b :=
    fun h => (checkedAdd_some (orOverflow_ok h)).1
  have hmul : ∀ {a b n : Nat}, orOverflow (checkedMul 64 a b) = .ok n → n = a * b :=
    fun h => (checkedMul_some (orOverflow_ok h)).1
  rw [MappingLayout.new] at h
  split_ifs at h with hpage
  · cases h
  · simp only [not_or, not_not] at hpage
    obtain ⟨k, rfl⟩ := hpage.2.1
    simp only [bind_eq_ok_iff, Pure.pure, Except.pure] at h
    obtain ⟨consumer, hconsumer, dataWake, hdata, capacityWake, hcapacity, lifecycle,
      hlifecycle, descriptors, hdescriptors, slots, hslots, first, hfirst, completions,
      hcompletions, cells, hcells, second, hsecond, returns, hreturns, words, hwords, third,
      hthird, arena, harena, last, hlast, total, htotal, hlayout⟩ := h
    obtain rfl := Except.ok.inj hlayout
    have hcompletions := hline hcompletions
    have hreturns := hline hreturns
    have harena := alignUp_ok harena
    have htotal := alignUp_ok htotal
    have hconsumer := hadd hconsumer
    have hdata := hadd hdata
    have hcapacity := hadd hcapacity
    have hlifecycle := hadd hlifecycle
    have hdescriptors := hadd hdescriptors
    have hfirst := hadd hfirst
    have hsecond := hadd hsecond
    have hthird := hadd hthird
    have hlast := hadd hlast
    have hslots := hmul hslots
    have hcells := hmul hcells
    have hwords := hmul hwords
    simp only [cacheline, lifecyclePageBytes, descriptorSlotBytes, returnWordBits] at *
    refine ⟨?_, harena.2.1⟩
    constructor <;> simp only <;> omega

variable {geometry : PoolGeometry} {layout : MappingLayout}

theorem MappingLayout.Regions.descriptorOffset_eq (h : layout.Regions geometry) {index : Nat}
    (hindex : index < layout.descriptorDepth) :
    layout.descriptorOffset index = some (layout.descriptors + index * descriptorSlotBytes) := by
  have := h.descriptors_end
  have := h.completions_end
  have := h.returns_end
  have := h.arena_end
  have := h.total_lt
  rw [descriptorOffset, if_neg (Nat.not_le.mpr hindex), descriptorSlotBytes,
    checkedMul_of_lt (by omega), Option.bind_some, checkedAdd_of_lt (by omega)]

theorem MappingLayout.Regions.completionOffset_eq (h : layout.Regions geometry) {block : Nat}
    (hblock : block < layout.blockCount) :
    layout.completionOffset block = some (layout.completions + block * 8) := by
  have := h.completions_end
  have := h.returns_end
  have := h.arena_end
  have := h.total_lt
  rw [completionOffset, if_neg (Nat.not_le.mpr hblock), checkedMul_of_lt (by omega),
    Option.bind_some, checkedAdd_of_lt (by omega)]

/-! ## Accessors -/

inductive MappingError where
  | objectSetupFailed
  | objectValidationFailed
  | invalidLayout
  | arithmeticOverflow
deriving DecidableEq, Repr

/-- The backing of one direction: what a handle and its leases agree on. -/
structure Retained where
  geometry : PoolGeometry
  layout : MappingLayout
  layout_new : ∃ pageSize, MappingLayout.new geometry pageSize = .ok layout
  incarnation : Vector UInt8 16
  lane : Nat

namespace Retained

variable (retained : Retained)

/-- `Mapping::ptr_at`, over a mapping of the layout's length. -/
def ptrAt (offset size : Nat) : Except MappingError Unit :=
  match checkedAdd 64 offset size with
  | none => .error .arithmeticOverflow
  | some stop => if stop > retained.layout.total then .error .invalidLayout else .ok ()

/-- `Mapping::shared_page`; the mapping starts on a page, so alignment is a matter of
the offset. -/
def sharedPage (offset size align : Nat) : Except MappingError Unit := do
  retained.ptrAt offset size
  if offset % align ≠ 0 then .error .invalidLayout else .ok ()

/-- A page at an offset that may be refused. -/
def sharedPageAt (offset : Option Nat) (size align : Nat) : Except MappingError Unit :=
  match offset with
  | none => .error .invalidLayout
  | some offset => retained.sharedPage offset size align

def producerPage : Except MappingError Unit :=
  retained.sharedPage retained.layout.producer cacheline cacheline

def consumerPage : Except MappingError Unit :=
  retained.sharedPage retained.layout.consumer cacheline cacheline

def dataWakePage : Except MappingError Unit :=
  retained.sharedPage retained.layout.dataWake cacheline cacheline

def capacityWakePage : Except MappingError Unit :=
  retained.sharedPage retained.layout.capacityWake cacheline cacheline

def slotPage (index : Nat) : Except MappingError Unit :=
  retained.sharedPageAt (retained.layout.descriptorOffset index) descriptorSlotBytes
    descriptorSlotBytes

def completionCell (block : Nat) : Except MappingError Unit :=
  retained.sharedPageAt (retained.layout.completionOffset block) 8 8

def returnWord (word : Nat) : Except MappingError Unit :=
  retained.sharedPageAt (retained.layout.returnOffset word) 8 8

def lifecycleQuarantined : Except MappingError Unit :=
  retained.ptrAt retained.layout.lifecycle lifecyclePageBytes

/-- `Mapping::arena_ptr`, as the mapping offset it points to. -/
def arenaPtr (offset len : Nat) : Except MappingError Nat :=
  match checkedAdd 64 offset len with
  | none => .error .arithmeticOverflow
  | some stop =>
    if stop > retained.layout.arenaBytes then .error .invalidLayout
    else
      match checkedAdd 64 retained.layout.arena offset with
      | none => .error .arithmeticOverflow
      | some start =>
        match checkedAdd 64 start len with
        | none => .error .arithmeticOverflow
        | some stop =>
          if stop > retained.layout.total then .error .invalidLayout else .ok start

def bodyPtr (block bodyLen : Nat) : Except MappingError Nat :=
  match retained.geometry.placement block with
  | none => .error .invalidLayout
  | some placement =>
    match checkedAdd 64 placement.offset wireHeaderBytes with
    | none => .error .arithmeticOverflow
    | some start =>
      if bodyLen > placement.bodyCapacity then .error .invalidLayout
      else retained.arenaPtr start bodyLen

def headerPtr (block : Nat) : Except MappingError Nat :=
  match retained.geometry.placement block with
  | none => .error .invalidLayout
  | some placement => retained.arenaPtr placement.offset wireHeaderBytes

/-! ## Indices of the geometry pass -/

theorem regions : retained.layout.Regions retained.geometry := by
  obtain ⟨pageSize, h⟩ := retained.layout_new
  exact (MappingLayout.regions_of_new h).1

theorem sharedPage_ok {offset size align : Nat} (hend : offset + size ≤ retained.layout.total)
    (halign : offset % align = 0) : retained.sharedPage offset size align = .ok () := by
  have htotal := retained.regions.total_lt
  rw [sharedPage, ptrAt, checkedAdd_of_lt (by omega)]
  simp only [Nat.not_lt.mpr hend, if_false, bind, Except.bind]
  exact if_neg (not_not_intro halign)

theorem control_end_le : 768 ≤ retained.layout.total := by
  have h := retained.regions
  have := h.descriptors_eq
  have := h.descriptors_end
  have := h.completions_end
  have := h.returns_end
  have := h.arena_end
  omega

theorem producerPage_ok : retained.producerPage = .ok () := by
  have := retained.control_end_le
  exact retained.sharedPage_ok (by rw [retained.regions.producer_eq, cacheline]; omega)
    (by rw [retained.regions.producer_eq, Nat.zero_mod])

theorem lifecycleQuarantined_ok : retained.lifecycleQuarantined = .ok () := by
  have hend := retained.control_end_le
  rw [lifecycleQuarantined, ptrAt, retained.regions.lifecycle_eq, lifecyclePageBytes,
    checkedAdd_of_lt (by decide)]
  exact if_neg (Nat.not_lt.mpr hend)

theorem slotPage_ok {index : Nat} (h : index < retained.geometry.descriptorDepth) :
    retained.slotPage index = .ok () := by
  have hr := retained.regions
  have hlt : index < retained.layout.descriptorDepth := hr.depth_eq ▸ h
  have hend := hr.descriptors_end
  have := hr.completions_end
  have := hr.returns_end
  have := hr.arena_end
  rw [slotPage, hr.descriptorOffset_eq hlt, descriptorSlotBytes]
  exact retained.sharedPage_ok (by omega) (by rw [hr.descriptors_eq]; omega)

variable {block : Nat}

theorem completionCell_ok (h : block < retained.geometry.blockCount) :
    retained.completionCell block = .ok () := by
  have hr := retained.regions
  have hlt : block < retained.layout.blockCount := hr.count_eq ▸ h
  have := hr.completions_end
  have := hr.completions_aligned
  have := hr.returns_end
  have := hr.arena_end
  rw [completionCell, hr.completionOffset_eq hlt]
  exact retained.sharedPage_ok (by omega) (by omega)

theorem arenaPtr_ok {offset len : Nat} (h : offset + len ≤ retained.geometry.arenaBytes) :
    retained.arenaPtr offset len = .ok (retained.layout.arena + offset) := by
  have hr := retained.regions
  have hbytes := hr.arenaBytes_eq
  have hend := hr.arena_end
  have := hr.total_lt
  rw [arenaPtr, checkedAdd_of_lt (by omega)]
  simp only [hbytes, Nat.not_lt.mpr h, if_false]
  rw [checkedAdd_of_lt (by omega)]
  simp only
  rw [checkedAdd_of_lt (by omega)]
  exact if_neg (by omega)

theorem headerPtr_ok {placement : BlockPlacement}
    (h : retained.geometry.placement block = some placement) :
    retained.headerPtr block = .ok (retained.layout.arena + placement.offset) := by
  obtain ⟨hend, hheader⟩ := (retained.geometry.placement_some h).2.within
  rw [headerPtr, h]
  exact retained.arenaPtr_ok (by omega)

theorem bodyPtr_ok {bodyLen : Nat} {placement : BlockPlacement}
    (h : retained.geometry.placement block = some placement)
    (hbody : bodyLen ≤ placement.bodyCapacity) :
    retained.bodyPtr block bodyLen =
      .ok (retained.layout.arena + (placement.offset + wireHeaderBytes)) := by
  obtain ⟨hend, hheader⟩ := (retained.geometry.placement_some h).2.within
  have hbytes := retained.geometry.bytes_lt
  rw [BlockPlacement.bodyCapacity] at hbody
  rw [PoolGeometry.arenaBytes] at hend
  rw [bodyPtr, h]
  simp only
  rw [checkedAdd_of_lt (by omega)]
  simp only [BlockPlacement.bodyCapacity, Nat.not_lt.mpr hbody, if_false]
  exact retained.arenaPtr_ok (by rw [PoolGeometry.arenaBytes]; omega)

end Retained

/-! ## A small pool -/

def PoolGeometry.small : PoolGeometry where
  ordinaryDescriptors := 2
  reservedDescriptors := 1
  classes := [⟨4096, 1⟩, ⟨8192, 1⟩, ⟨12288, 1⟩, ⟨16384, 1⟩, ⟨20480, 1⟩, ⟨4096, 1⟩, ⟨4096, 1⟩]
  classes_length := rfl
  ordinary_pos := by decide
  depth_le := by decide
  ascending := by decide
  classes_valid := by decide
  blocks_le := by decide
  bytes_lt := by decide

def Retained.small : Retained where
  geometry := .small
  layout :=
    { producer := 0, consumer := 128, dataWake := 256, capacityWake := 384, lifecycle := 512
      descriptors := 768, descriptorDepth := 3, completions := 1024, blockCount := 7
      returns := 1152, returnWords := 1, arena := 4096, arenaBytes := 69632, total := 73728 }
  layout_new := ⟨4096, by decide +kernel⟩
  incarnation := Vector.replicate 16 0
  lane := 0

end Eidnara.ShmTransport
