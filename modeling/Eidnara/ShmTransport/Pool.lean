import Eidnara.Lib.Checked
import Mathlib.Algebra.Order.BigOperators.Group.List
import Mathlib.Algebra.Order.Group.Nat

/-!
# Payload pool geometry

Block classes, block ids and block placement of `pool.rs`.  A `PoolGeometry`
carries what `PoolGeometry::new` checks, so an invalid geometry cannot be built.
Unsigned integers are naturals; the checked operations test their width.
-/

namespace Eidnara.ShmTransport

open Lib

def maxFrameBytes : Nat := 64 * 1024 * 1024

def blockAlign : Nat := 4096

def ordinaryClasses : Nat := 5

def classCount : Nat := ordinaryClasses + 2

def maxBlocks : Nat := 4096

def maxDescriptors : Nat := 4096

def wireHeaderBytes : Nat := 20

inductive Inventory where
  | ordinary | control | terminal
deriving DecidableEq, Repr

structure ClassSpec where
  blockBytes : Nat
  count : Nat
deriving DecidableEq, Repr

def ClassSpec.bodyCapacity (spec : ClassSpec) : Nat := spec.blockBytes - wireHeaderBytes

inductive BlockClass where
  | ordinary (index : Fin 5)
  | control
  | terminal
deriving DecidableEq, Repr

namespace BlockClass

/-- Dense index over the seven classes, ordinary first. -/
def index : BlockClass → Nat
  | ordinary index => index
  | control => ordinaryClasses
  | terminal => ordinaryClasses + 1

def fromIndex (index : Nat) : Option BlockClass :=
  if h : index < 5 then some (ordinary ⟨index, h⟩)
  else if index = 5 then some control
  else if index = 6 then some terminal
  else none

theorem index_lt (blockClass : BlockClass) : blockClass.index < classCount := by
  cases blockClass with
  | ordinary index =>
    simp only [BlockClass.index, classCount, ordinaryClasses]
    omega
  | control => decide
  | terminal => decide

theorem index_injective {a b : BlockClass} (h : a.index = b.index) : a = b := by
  cases a <;> cases b <;> simp_all [index, ordinaryClasses] <;> omega

theorem fromIndex_of_lt {i : Nat} (h : i < classCount) :
    ∃ blockClass, fromIndex i = some blockClass ∧ blockClass.index = i := by
  simp only [classCount, ordinaryClasses] at h
  unfold fromIndex
  split_ifs with hfive hcontrol hterminal
  · exact ⟨_, rfl, rfl⟩
  · exact ⟨_, rfl, hcontrol.symm⟩
  · exact ⟨_, rfl, hterminal.symm⟩
  · omega

end BlockClass

inductive GeometryError where
  | zeroDescriptors
  | tooManyDescriptors
  | classesNotAscending
  | emptyClass
  | invalidBlockBytes
  | tooManyBlocks
  | arithmeticOverflow
deriving DecidableEq, Repr

/-! ## Validated geometry -/

def countSum (classes : List ClassSpec) : Nat := (classes.map ClassSpec.count).sum

def byteSum (classes : List ClassSpec) : Nat :=
  (classes.map fun spec => spec.blockBytes * spec.count).sum

/-- What `check_class` accepts. -/
def ClassSpec.Valid (spec : ClassSpec) : Prop :=
  spec.count ≠ 0 ∧ spec.blockBytes % blockAlign = 0 ∧ wireHeaderBytes < spec.blockBytes

instance (spec : ClassSpec) : Decidable spec.Valid := inferInstanceAs (Decidable (_ ∧ _ ∧ _))

/-- A geometry together with the facts its constructor checks. -/
structure PoolGeometry where
  ordinaryDescriptors : Nat
  reservedDescriptors : Nat
  classes : List ClassSpec
  classes_length : classes.length = classCount
  ordinary_pos : 0 < ordinaryDescriptors
  depth_le : ordinaryDescriptors + reservedDescriptors ≤ maxDescriptors
  ascending : (classes.take ordinaryClasses).Pairwise fun a b => a.blockBytes < b.blockBytes
  classes_valid : ∀ spec ∈ classes, spec.Valid
  blocks_le : countSum classes ≤ maxBlocks
  bytes_lt : byteSum classes < 2 ^ 64

namespace PoolGeometry

def checkClass (spec : ClassSpec) : Except GeometryError Unit :=
  if spec.count = 0 then .error .emptyClass
  else if spec.blockBytes = 0 ∨ spec.blockBytes % blockAlign ≠ 0 ∨
      spec.blockBytes ≤ wireHeaderBytes then .error .invalidBlockBytes
  else .ok ()

/-- The loop over the ordinary classes: each is checked, then compared with the
size before it. -/
def checkOrdinary : Nat → List ClassSpec → Except GeometryError Unit
  | _, [] => .ok ()
  | previous, spec :: rest => do
    checkClass spec
    if spec.blockBytes ≤ previous then throw .classesNotAscending
    checkOrdinary spec.blockBytes rest

theorem checkClass_eq_ok_iff {spec : ClassSpec} {u : Unit} :
    checkClass spec = .ok u ↔ spec.Valid := by
  unfold checkClass ClassSpec.Valid
  split_ifs with hcount hbytes
  · simp [hcount]
  · simp only [false_iff]
    omega
  · simp only [true_iff]
    omega

/-- Each size is compared with the one before it, which orders them all. -/
theorem checkOrdinary_eq_ok_iff {previous : Nat} {classes : List ClassSpec} :
    checkOrdinary previous classes = .ok () ↔ (∀ spec ∈ classes, spec.Valid) ∧
      (previous :: classes.map ClassSpec.blockBytes).Pairwise (· < ·) := by
  rw [← List.isChain_iff_pairwise]
  induction classes generalizing previous with
  | nil => simp [checkOrdinary]
  | cons spec rest ih =>
    rw [checkOrdinary, bind_eq_ok_iff, List.map_cons, List.isChain_cons_cons,
      List.forall_mem_cons]
    by_cases hascends : spec.blockBytes ≤ previous
    · refine ⟨?_, fun h => absurd h.2.1 (Nat.not_lt.mpr hascends)⟩
      rintro ⟨_, -, h⟩
      simp only [hascends, if_true] at h
      cases h
    · simp [hascends, Nat.not_le.mp hascends, checkClass_eq_ok_iff, ih, and_assoc]

def new (ordinaryDescriptors reservedDescriptors : Nat) (ordinary : Vector ClassSpec 5)
    (control terminal : ClassSpec) : Except GeometryError PoolGeometry :=
  if hpos : ordinaryDescriptors = 0 then .error .zeroDescriptors
  else if hdepth : maxDescriptors < ordinaryDescriptors + reservedDescriptors then
    .error .tooManyDescriptors
  else
    match hordinary : checkOrdinary 0 ordinary.toList with
    | .error e => .error e
    | .ok _ =>
      match hcontrol : checkClass control with
      | .error e => .error e
      | .ok _ =>
        match hterminal : checkClass terminal with
        | .error e => .error e
        | .ok _ =>
          let classes := ordinary.toList ++ [control, terminal]
          if hblocks : maxBlocks < countSum classes then .error .tooManyBlocks
          else if hbytes : 2 ^ 64 ≤ byteSum classes then .error .arithmeticOverflow
          else
            .ok
              { ordinaryDescriptors, reservedDescriptors, classes
                classes_length := by
                  simp [classes, classCount, ordinaryClasses]
                ordinary_pos := Nat.pos_of_ne_zero hpos
                depth_le := Nat.not_lt.mp hdepth
                ascending := by
                  have htake : classes.take ordinaryClasses = ordinary.toList := by
                    simp [classes, ordinaryClasses]
                  rw [htake]
                  exact List.pairwise_map.mp (checkOrdinary_eq_ok_iff.mp hordinary).2.tail
                classes_valid := by
                  intro spec hspec
                  rcases List.mem_append.mp hspec with hleft | hright
                  · exact (checkOrdinary_eq_ok_iff.mp hordinary).1 spec hleft
                  · simp only [List.mem_cons, List.not_mem_nil, or_false] at hright
                    rcases hright with rfl | rfl
                    · exact checkClass_eq_ok_iff.mp hcontrol
                    · exact checkClass_eq_ok_iff.mp hterminal
                blocks_le := Nat.not_lt.mp hblocks
                bytes_lt := Nat.not_le.mp hbytes }

theorem new_fields {ordinaryDescriptors reservedDescriptors : Nat} {ordinary : Vector ClassSpec 5}
    {control terminal : ClassSpec} {geometry : PoolGeometry}
    (h : new ordinaryDescriptors reservedDescriptors ordinary control terminal = .ok geometry) :
    geometry.ordinaryDescriptors = ordinaryDescriptors ∧
      geometry.reservedDescriptors = reservedDescriptors ∧
      geometry.classes = ordinary.toList ++ [control, terminal] := by
  unfold new at h
  split at h
  · cases h
  split at h
  · cases h
  split at h
  · cases h
  split at h
  · cases h
  split at h
  · cases h
  simp only at h
  split at h
  · cases h
  split at h
  · cases h
  cases h
  exact ⟨rfl, rfl, rfl⟩

theorem eq_of_fields {a b : PoolGeometry}
    (hordinary : a.ordinaryDescriptors = b.ordinaryDescriptors)
    (hreserved : a.reservedDescriptors = b.reservedDescriptors) (hclasses : a.classes = b.classes) :
    a = b := by
  cases a
  cases b
  cases hordinary
  cases hreserved
  cases hclasses
  rfl

theorem new_eq_ok (geometry : PoolGeometry) {ordinary : Vector ClassSpec 5}
    {control terminal : ClassSpec}
    (hclasses : geometry.classes = ordinary.toList ++ [control, terminal]) :
    new geometry.ordinaryDescriptors geometry.reservedDescriptors ordinary control terminal =
      .ok geometry := by
  have hvalid := geometry.classes_valid
  rw [hclasses] at hvalid
  have hascending := geometry.ascending
  have htake : geometry.classes.take ordinaryClasses = ordinary.toList := by
    simp [hclasses, ordinaryClasses]
  rw [htake] at hascending
  have hordinary : ∀ spec ∈ ordinary.toList, spec.Valid :=
    fun spec hspec => hvalid spec (List.mem_append_left _ hspec)
  have hpositive : ∀ size ∈ ordinary.toList.map ClassSpec.blockBytes, 0 < size := by
    rw [List.forall_mem_map]
    exact fun spec hspec => Nat.zero_lt_of_lt (hordinary spec hspec).2.2
  have hcheck : checkOrdinary 0 ordinary.toList = .ok () :=
    checkOrdinary_eq_ok_iff.mpr
      ⟨hordinary, List.pairwise_cons.mpr ⟨hpositive, List.pairwise_map.mpr hascending⟩⟩
  have hcontrol : checkClass control = .ok () :=
    checkClass_eq_ok_iff.mpr (hvalid control (by simp))
  have hterminal : checkClass terminal = .ok () :=
    checkClass_eq_ok_iff.mpr (hvalid terminal (by simp))
  have hblocks := geometry.blocks_le
  have hbytes := geometry.bytes_lt
  rw [hclasses] at hblocks hbytes
  have haccepted : ∃ accepted, new geometry.ordinaryDescriptors geometry.reservedDescriptors
      ordinary control terminal = .ok accepted := by
    unfold new
    rw [dif_neg (Nat.ne_of_gt geometry.ordinary_pos), dif_neg (Nat.not_lt.mpr geometry.depth_le)]
    split
    · rename_i herror
      rw [hcheck] at herror
      cases herror
    split
    · rename_i herror
      rw [hcontrol] at herror
      cases herror
    split
    · rename_i herror
      rw [hterminal] at herror
      cases herror
    simp only
    rw [dif_neg (Nat.not_lt.mpr hblocks), dif_neg (Nat.not_le.mpr hbytes)]
    exact ⟨_, rfl⟩
  obtain ⟨accepted, heq⟩ := haccepted
  obtain ⟨hfirst, hsecond, hthird⟩ := new_fields heq
  rw [heq, eq_of_fields hfirst hsecond (hthird.trans hclasses.symm)]

variable (geometry : PoolGeometry)

def descriptorDepth : Nat := geometry.ordinaryDescriptors + geometry.reservedDescriptors

def classSpec (blockClass : BlockClass) : ClassSpec :=
  geometry.classes.get ⟨blockClass.index, geometry.classes_length ▸ blockClass.index_lt⟩

def blockCount : Nat := countSum geometry.classes

def arenaBytes : Nat := byteSum geometry.classes

def firstBlock (blockClass : BlockClass) : Nat :=
  countSum (geometry.classes.take blockClass.index)

/-- Smallest ordinary class whose body capacity covers the body. -/
def ordinaryClassFor (bodyBytes : Nat) : Option BlockClass :=
  ((List.finRange 5).find? fun index =>
    bodyBytes ≤ (geometry.classSpec (.ordinary index)).bodyCapacity).map .ordinary

def classFor (inventory : Inventory) (bodyBytes : Nat) : Option BlockClass :=
  match inventory with
  | .ordinary => geometry.ordinaryClassFor bodyBytes
  | .control =>
    if bodyBytes ≤ (geometry.classSpec .control).bodyCapacity then some .control else none
  | .terminal =>
    if bodyBytes ≤ (geometry.classSpec .terminal).bodyCapacity then some .terminal else none

def contains (id : Nat) : Bool := id < geometry.blockCount

end PoolGeometry

structure BlockPlacement where
  blockClass : BlockClass
  offset : Nat
  blockBytes : Nat
deriving DecidableEq, Repr

def BlockPlacement.bodyCapacity (placement : BlockPlacement) : Nat :=
  placement.blockBytes - wireHeaderBytes

/-- The loop of `placement`: `first` and `offset` are the id and the arena offset
of the first block of the class at `index`. -/
def placementFrom (id : Nat) : List ClassSpec → Nat → Nat → Nat → Option BlockPlacement
  | [], _, _, _ => none
  | spec :: rest, index, first, offset => do
    let next ← checkedAdd 32 first spec.count
    if id < next then
      let blockClass ← BlockClass.fromIndex index
      let within ← checkedMul 64 (id - first) spec.blockBytes
      let start ← checkedAdd 64 offset within
      some { blockClass, offset := start, blockBytes := spec.blockBytes }
    else
      let region ← checkedMul 64 spec.blockBytes spec.count
      let offset ← checkedAdd 64 offset region
      placementFrom id rest (index + 1) next offset

def PoolGeometry.placement (geometry : PoolGeometry) (id : Nat) : Option BlockPlacement :=
  placementFrom id geometry.classes 0 0 0

/-! ## Where a block lies -/

theorem countSum_append (a b : List ClassSpec) : countSum (a ++ b) = countSum a + countSum b := by
  simp [countSum]

theorem byteSum_append (a b : List ClassSpec) : byteSum (a ++ b) = byteSum a + byteSum b := by
  simp [byteSum]

theorem countSum_cons (spec : ClassSpec) (rest : List ClassSpec) :
    countSum (spec :: rest) = spec.count + countSum rest := by
  simp [countSum]

theorem byteSum_cons (spec : ClassSpec) (rest : List ClassSpec) :
    byteSum (spec :: rest) = spec.blockBytes * spec.count + byteSum rest := by
  simp [byteSum]

namespace PoolGeometry

open List

variable (geometry : PoolGeometry)

/-- What `placement` says about a block: its class holds the id, and its bytes
are its share of the class region. -/
structure Placed (id : Nat) (placement : BlockPlacement) : Prop where
  blockBytes_eq : placement.blockBytes = (geometry.classSpec placement.blockClass).blockBytes
  first_le : geometry.firstBlock placement.blockClass ≤ id
  lt_end : id < geometry.firstBlock placement.blockClass +
    (geometry.classSpec placement.blockClass).count
  offset_eq : placement.offset = byteSum (geometry.classes.take placement.blockClass.index) +
    (id - geometry.firstBlock placement.blockClass) * placement.blockBytes

variable {blockClass : BlockClass}

theorem classSpec_of_split {before rest : List ClassSpec} {spec : ClassSpec}
    (hsplit : geometry.classes = before ++ spec :: rest)
    (hindex : blockClass.index = before.length) :
    geometry.classSpec blockClass = spec := by
  unfold classSpec
  simp [hsplit, hindex]

theorem classes_split (blockClass : BlockClass) :
    geometry.classes = geometry.classes.take blockClass.index ++
      geometry.classSpec blockClass :: geometry.classes.drop (blockClass.index + 1) := by
  rw [classSpec, get_eq_getElem, getElem_cons_drop, take_append_drop]

/-- A class ends, in any measure, before what stands behind it starts. -/
theorem sum_take_classSpec_le (size : ClassSpec → Nat) {stop : Nat}
    (h : blockClass.index < stop) :
    ((geometry.classes.take blockClass.index).map size).sum +
      size (geometry.classSpec blockClass) ≤ ((geometry.classes.take stop).map size).sum := by
  have hindex : blockClass.index < (geometry.classes.map size).length := by
    rw [length_map, geometry.classes_length]
    exact blockClass.index_lt
  have hle := (take_sublist_take_left (l := geometry.classes.map size)
    (Nat.succ_le_of_lt h)).sum_le_sum fun _ _ => Nat.zero_le _
  rw [sum_take_succ _ _ hindex, getElem_map] at hle
  rw [map_take, map_take]
  exact hle

theorem take_classCount : geometry.classes.take classCount = geometry.classes := by
  rw [← geometry.classes_length, take_length]

theorem region_end_le (blockClass : BlockClass) :
    byteSum (geometry.classes.take blockClass.index) +
      (geometry.classSpec blockClass).blockBytes * (geometry.classSpec blockClass).count ≤
        geometry.arenaBytes := by
  have hle := geometry.sum_take_classSpec_le (fun spec => spec.blockBytes * spec.count)
    blockClass.index_lt
  rwa [take_classCount] at hle

theorem block_end_le (blockClass : BlockClass) :
    geometry.firstBlock blockClass + (geometry.classSpec blockClass).count ≤
      geometry.blockCount := by
  have hle := geometry.sum_take_classSpec_le ClassSpec.count blockClass.index_lt
  rwa [take_classCount] at hle

variable {id : Nat}

/-- The walk over the classes finds the block, and no checked operation fails. -/
theorem placementFrom_placed (hid : id < geometry.blockCount) :
    ∀ (rest before : List ClassSpec), geometry.classes = before ++ rest → countSum before ≤ id →
    ∃ placement, placementFrom id rest before.length (countSum before) (byteSum before) =
      some placement ∧ geometry.Placed id placement := by
  intro rest
  induction rest with
  | nil =>
    intro before hsplit hle
    rw [append_nil] at hsplit
    rw [blockCount, hsplit] at hid
    omega
  | cons spec rest ih =>
    intro before hsplit hle
    have hcount := geometry.blocks_le
    have hbytes := geometry.bytes_lt
    rw [hsplit, countSum_append, countSum_cons] at hcount
    rw [hsplit, byteSum_append, byteSum_cons] at hbytes
    have hnext : countSum before + spec.count < 2 ^ 32 := by
      simp only [maxBlocks] at hcount
      omega
    rw [placementFrom, checkedAdd_of_lt hnext]
    simp only [Option.bind_eq_bind, Option.bind_some]
    split
    · rename_i hlt
      have hwithin : (id - countSum before) * spec.blockBytes ≤
          spec.blockBytes * spec.count := by
        rw [Nat.mul_comm]
        exact Nat.mul_le_mul_left _ (by omega)
      have hindex : before.length < classCount := by
        rw [← geometry.classes_length, hsplit]
        simp
      obtain ⟨blockClass, hfrom, hclass⟩ := BlockClass.fromIndex_of_lt hindex
      have hspec := geometry.classSpec_of_split hsplit hclass
      have htake : geometry.classes.take blockClass.index = before := by
        rw [hsplit, hclass, take_left]
      rw [hfrom, checkedMul_of_lt (by omega)]
      simp only [Option.bind_some]
      rw [checkedAdd_of_lt (by omega)]
      refine ⟨_, rfl, ?_⟩
      exact
        { blockBytes_eq := by rw [hspec]
          first_le := by simpa only [firstBlock, htake] using hle
          lt_end := by simpa only [firstBlock, htake, hspec] using hlt
          offset_eq := by simp only [firstBlock, htake] }
    · rw [checkedMul_of_lt (by omega)]
      simp only [Option.bind_some]
      rw [checkedAdd_of_lt (by omega)]
      have hrest := ih (before ++ [spec]) (by simp [hsplit]) (by
        have hnil : countSum ([] : List ClassSpec) = 0 := rfl
        rw [countSum_append, countSum_cons, hnil]
        omega)
      simpa [countSum_append, byteSum_append, countSum, byteSum] using hrest

theorem placement_placed (hid : id < geometry.blockCount) :
    ∃ placement, geometry.placement id = some placement ∧ geometry.Placed id placement :=
  geometry.placementFrom_placed hid geometry.classes [] rfl (Nat.zero_le _)

theorem placementFrom_none : ∀ (rest : List ClassSpec) (index first offset : Nat),
    first + countSum rest ≤ id → placementFrom id rest index first offset = none
  | [], _, _, _, _ => rfl
  | spec :: rest, index, first, offset, h => by
    rw [countSum_cons] at h
    rw [placementFrom]
    cases hnext : checkedAdd 32 first spec.count with
    | none => rfl
    | some next =>
      obtain ⟨rfl, -⟩ := checkedAdd_some hnext
      have hge : ¬ id < first + spec.count := by omega
      simp only [Option.bind_eq_bind, Option.bind_some, hge, if_false]
      cases checkedMul 64 spec.blockBytes spec.count with
      | none => rfl
      | some region =>
        simp only [Option.bind_some]
        cases checkedAdd 64 offset region with
        | none => rfl
        | some offset' =>
          exact placementFrom_none rest (index + 1) (first + spec.count) offset' (by omega)

theorem placement_some {placement : BlockPlacement} (h : geometry.placement id = some placement) :
    id < geometry.blockCount ∧ geometry.Placed id placement := by
  by_cases hid : id < geometry.blockCount
  · obtain ⟨placement', hplacement, hplaced⟩ := geometry.placement_placed hid
    obtain rfl := Option.some.inj (hplacement.symm.trans h)
    exact ⟨hid, hplaced⟩
  · have hbound : 0 + countSum geometry.classes ≤ id := by
      rw [Nat.zero_add]
      exact Nat.le_of_not_lt hid
    have hnone := placementFrom_none geometry.classes 0 0 0 hbound
    rw [PoolGeometry.placement, hnone] at h
    cases h

theorem classSpec_valid (blockClass : BlockClass) : (geometry.classSpec blockClass).Valid :=
  geometry.classes_valid _ (get_mem _ _)

def classOf (block : Nat) : Option BlockClass :=
  (geometry.placement block).map BlockPlacement.blockClass

theorem block_end_le_firstBlock {a b : BlockClass} (h : a.index < b.index) :
    geometry.firstBlock a + (geometry.classSpec a).count ≤ geometry.firstBlock b :=
  geometry.sum_take_classSpec_le ClassSpec.count h

theorem classOf_eq_some_iff {block : Nat} :
    geometry.classOf block = some blockClass ↔
      geometry.firstBlock blockClass ≤ block ∧
        block < geometry.firstBlock blockClass + (geometry.classSpec blockClass).count := by
  constructor
  · intro h
    obtain ⟨placement, hplacement, rfl⟩ := Option.map_eq_some_iff.mp h
    have hplaced := (geometry.placement_some hplacement).2
    exact ⟨hplaced.first_le, hplaced.lt_end⟩
  · rintro ⟨hfirst, hlast⟩
    have hcount := geometry.block_end_le blockClass
    obtain ⟨placement, hplacement, hplaced⟩ :=
      geometry.placement_placed (show block < geometry.blockCount by omega)
    have hfirst' := hplaced.first_le
    have hlast' := hplaced.lt_end
    have hindex : placement.blockClass.index = blockClass.index := by
      rcases Nat.lt_trichotomy placement.blockClass.index blockClass.index with hlt | heq | hgt
      · have := geometry.block_end_le_firstBlock hlt
        omega
      · exact heq
      · have := geometry.block_end_le_firstBlock hgt
        omega
    rw [classOf, hplacement, Option.map_some, BlockClass.index_injective hindex]

theorem lt_of_classOf {block : Nat} (h : geometry.classOf block = some blockClass) :
    block < geometry.blockCount := by
  have hcount := geometry.block_end_le blockClass
  have := (geometry.classOf_eq_some_iff.mp h).2
  omega

variable {geometry}

theorem Placed.within {placement : BlockPlacement} (h : geometry.Placed id placement) :
    placement.offset + placement.blockBytes ≤ geometry.arenaBytes ∧
      wireHeaderBytes < placement.blockBytes := by
  have hregion := geometry.region_end_le placement.blockClass
  have hvalid := geometry.classSpec_valid placement.blockClass
  have hfirst := h.first_le
  have hlast := h.lt_end
  refine ⟨?_, h.blockBytes_eq ▸ hvalid.2.2⟩
  have hrows : (id - geometry.firstBlock placement.blockClass) * placement.blockBytes +
      placement.blockBytes ≤ (geometry.classSpec placement.blockClass).blockBytes *
        (geometry.classSpec placement.blockClass).count := by
    rw [h.blockBytes_eq, ← Nat.succ_mul, Nat.mul_comm]
    exact Nat.mul_le_mul_left _ (by omega)
  rw [h.offset_eq]
  omega

end PoolGeometry

end Eidnara.ShmTransport
