import Eidnara.ShmTransport.Ring.Operations
import Mathlib.Data.List.GetD

/-!
# The grant codec

`PoolGrant::encode` copies each field into a zeroed array at its offset, with a running
cursor over the class table; `PoolGrant::decode` reads the same offsets, validates the
geometry and compares the total with the layout it computes.  The copies follow one
another without a gap, so the array is the fields in order, and decoding accepts
exactly the encodings of grants that map.
-/

namespace Eidnara.ShmTransport

open Lib Words

def grantBytes : Nat := 16 + 4 + 4 + 4 + classCount * (8 + 4) + 8 + 4

structure PoolGrant where
  incarnation : Vector UInt8 16
  lane : UInt32
  geometry : PoolGeometry
  totalBytes : UInt64

/-- `bytes[start..start + part.len()].copy_from_slice(part)`. -/
def copyAt (bytes : List UInt8) (start : Nat) (part : List UInt8) : List UInt8 :=
  bytes.take start ++ part ++ bytes.drop (start + part.length)

def u32At (bytes : List UInt8) (offset : Nat) : Nat :=
  littleEndian (slice bytes offset (offset + 4))

def u64At (bytes : List UInt8) (offset : Nat) : Nat :=
  littleEndian (slice bytes offset (offset + 8))

def encodeClasses : List ClassSpec → Nat → List UInt8 → Nat × List UInt8
  | [], cursor, bytes => (cursor, bytes)
  | spec :: rest, cursor, bytes =>
    let bytes := copyAt bytes cursor (toLittleEndian 8 spec.blockBytes)
    let bytes := copyAt bytes (cursor + 8) (toLittleEndian 4 spec.count)
    encodeClasses rest (cursor + 12) bytes

def decodeClasses (bytes : List UInt8) : Nat → Nat → Nat × List ClassSpec
  | 0, cursor => (cursor, [])
  | count + 1, cursor =>
    let spec : ClassSpec := ⟨u64At bytes cursor, u32At bytes (cursor + 8)⟩
    let (stop, rest) := decodeClasses bytes count (cursor + 12)
    (stop, spec :: rest)

theorem decodeClasses_length (bytes : List UInt8) (count cursor : Nat) :
    (decodeClasses bytes count cursor).2.length = count := by
  induction count generalizing cursor with
  | zero => rfl
  | succ count ih => simp only [decodeClasses, List.length_cons, ih]

namespace PoolGrant

/-- The bytes of `PoolGrant::encode`, in the order they are copied. -/
def encodeBytes (grant : PoolGrant) : List UInt8 :=
  let bytes := List.replicate grantBytes 0
  let bytes := copyAt bytes 0 grant.incarnation.toList
  let bytes := copyAt bytes 16 (toLittleEndian 4 grant.lane.toNat)
  let bytes := copyAt bytes 20 (toLittleEndian 4 grant.geometry.ordinaryDescriptors)
  let bytes := copyAt bytes 24 (toLittleEndian 4 grant.geometry.reservedDescriptors)
  let (cursor, bytes) := encodeClasses grant.geometry.classes 28 bytes
  let bytes := copyAt bytes cursor (toLittleEndian 8 grant.totalBytes.toNat)
  let cursor := cursor + 8
  copyAt bytes cursor (toLittleEndian 4 0)

/-- `checked_layout`, on a system with this page size. -/
def checkedLayout (pageSize : Nat) (grant : PoolGrant) : Except RingError MappingLayout :=
  match MappingLayout.new grant.geometry pageSize with
  | .error _ => .error .invalidGrant
  | .ok layout =>
    if layout.total ≠ grant.totalBytes.toNat then .error .invalidGrant else .ok layout

def ordinaryOf (classes : List ClassSpec) (h : classes.length = classCount) :
    Vector ClassSpec 5 :=
  ⟨(classes.take ordinaryClasses).toArray, by
    simp [h, classCount, ordinaryClasses]⟩

/-- `PoolGrant::decode`, on a system with this page size. -/
def decode (pageSize : Nat) (bytes : Vector UInt8 grantBytes) : Except RingError PoolGrant :=
  let text := bytes.toList
  let incarnation : Vector UInt8 16 := Vector.ofFn fun index => text.getD index 0
  let lane := u32At text 16
  let ordinaryDescriptors := u32At text 20
  let reservedDescriptors := u32At text 24
  let classes := (decodeClasses text classCount 28).2
  let cursor := (decodeClasses text classCount 28).1
  let totalBytes := u64At text cursor
  let cursor := cursor + 8
  if slice text cursor (cursor + 4) ≠ List.replicate 4 0 then .error .invalidGrant
  else
    match PoolGeometry.new ordinaryDescriptors reservedDescriptors
        (ordinaryOf classes (decodeClasses_length text classCount 28))
        (classes.getD ordinaryClasses ⟨0, 0⟩) (classes.getD (ordinaryClasses + 1) ⟨0, 0⟩) with
    | .error _ => .error .invalidGrant
    | .ok geometry =>
      let grant : PoolGrant :=
        ⟨incarnation, UInt32.ofNat lane, geometry, UInt64.ofNat totalBytes⟩
      match grant.checkedLayout pageSize with
      | .error error => .error error
      | .ok _ => .ok grant

end PoolGrant

/-! ## The text of a grant -/

variable {cursor : Nat}

theorem copyAt_end {written : List UInt8} (hcursor : written.length = cursor) (part : List UInt8)
    (rest : Nat) :
    copyAt (written ++ List.replicate rest 0) cursor part =
      (written ++ part) ++ List.replicate (rest - part.length) 0 := by
  subst hcursor
  rw [copyAt, List.take_left, ← List.drop_drop, List.drop_left, List.drop_replicate]

def classText (spec : ClassSpec) : List UInt8 :=
  toLittleEndian 8 spec.blockBytes ++ toLittleEndian 4 spec.count

theorem length_classText (spec : ClassSpec) : (classText spec).length = 12 := by
  rw [classText, List.length_append, length_toLittleEndian, length_toLittleEndian]

theorem length_flatMap_classText (classes : List ClassSpec) :
    (classes.flatMap classText).length = 12 * classes.length := by
  induction classes with
  | nil => rfl
  | cons spec classes ih =>
    rw [List.flatMap_cons, List.length_append, ih, length_classText, List.length_cons]
    omega

theorem encodeClasses_eq (classes : List ClassSpec) {written : List UInt8}
    (hcursor : written.length = cursor) (rest : Nat) :
    encodeClasses classes cursor (written ++ List.replicate rest 0) =
      (cursor + 12 * classes.length, (written ++ classes.flatMap classText) ++
        List.replicate (rest - 12 * classes.length) 0) := by
  induction classes generalizing written cursor rest with
  | nil => simp [encodeClasses]
  | cons spec classes ih =>
    have hwritten : (written ++ toLittleEndian 8 spec.blockBytes).length = cursor + 8 := by
      rw [List.length_append, length_toLittleEndian, hcursor]
    have hrecord : (written ++ toLittleEndian 8 spec.blockBytes ++
        toLittleEndian 4 spec.count).length = cursor + 12 := by
      rw [List.length_append, hwritten, length_toLittleEndian]
    rw [encodeClasses]
    simp only [copyAt_end hcursor, copyAt_end hwritten, ih hrecord, length_toLittleEndian]
    have hstop : cursor + 12 + 12 * classes.length = cursor + 12 * (classes.length + 1) := by
      omega
    have hleft : rest - 8 - 4 - 12 * classes.length = rest - 12 * (classes.length + 1) := by
      omega
    rw [hstop, hleft, List.length_cons, List.flatMap_cons, classText]
    simp only [List.append_assoc]

namespace PoolGrant

def text (grant : PoolGrant) : List UInt8 :=
  grant.incarnation.toList ++ toLittleEndian 4 grant.lane.toNat ++
    toLittleEndian 4 grant.geometry.ordinaryDescriptors ++
    toLittleEndian 4 grant.geometry.reservedDescriptors ++
    grant.geometry.classes.flatMap classText ++ toLittleEndian 8 grant.totalBytes.toNat ++
    toLittleEndian 4 0

theorem encodeBytes_eq (grant : PoolGrant) : grant.encodeBytes = grant.text := by
  have htable := length_flatMap_classText grant.geometry.classes
  have hstart : List.replicate grantBytes (0 : UInt8) = [] ++ List.replicate grantBytes 0 := rfl
  rw [encodeBytes, hstart]
  -- Each copy starts where the fields written before it end.
  simp (disch := simp [length_toLittleEndian, htable] <;> omega) only [copyAt_end,
    encodeClasses_eq, length_toLittleEndian, Vector.length_toList]
  rw [text]
  simp [grantBytes, grant.geometry.classes_length, classCount, ordinaryClasses]

theorem length_encodeBytes (grant : PoolGrant) : grant.encodeBytes.length = grantBytes := by
  have htable := length_flatMap_classText grant.geometry.classes
  rw [grant.geometry.classes_length] at htable
  rw [encodeBytes_eq, text]
  simp only [List.length_append, length_toLittleEndian, Vector.length_toList, htable]
  rfl

def encode (grant : PoolGrant) : Vector UInt8 grantBytes :=
  ⟨grant.encodeBytes.toArray, by rw [List.size_toArray, length_encodeBytes]⟩

theorem toList_encode (grant : PoolGrant) : grant.encode.toList = grant.text := by
  rw [← encodeBytes_eq]
  rfl

end PoolGrant

/-! ## Reading what was written -/

variable {bytes : List UInt8} {offset : Nat}

theorem u32At_of_occurs {n : Nat} (hn : n < 2 ^ 32)
    (h : OccursAt bytes offset (toLittleEndian 4 n)) :
    u32At bytes offset = n := littleEndian_slice_of_occurs hn h

theorem u64At_of_occurs {n : Nat} (hn : n < 2 ^ 64)
    (h : OccursAt bytes offset (toLittleEndian 8 n)) :
    u64At bytes offset = n := littleEndian_slice_of_occurs hn h

theorem decodeClasses_of_occurs {classes : List ClassSpec}
    (hwidth : ∀ spec ∈ classes, spec.blockBytes < 2 ^ 64 ∧ spec.count < 2 ^ 32)
    (h : OccursAt bytes cursor (classes.flatMap classText)) :
    decodeClasses bytes classes.length cursor = (cursor + 12 * classes.length, classes) := by
  induction classes generalizing cursor with
  | nil => rfl
  | cons spec classes ih =>
    obtain ⟨hbytes, hcount⟩ := hwidth spec List.mem_cons_self
    have hrest := h.right
    rw [length_classText] at hrest
    have hrecord := h.left
    have hsecond := hrecord.right
    rw [length_toLittleEndian] at hsecond
    rw [List.length_cons, decodeClasses,
      ih (fun other hother => hwidth other (List.mem_cons_of_mem _ hother)) hrest,
      u64At_of_occurs hbytes hrecord.left, u32At_of_occurs hcount hsecond]
    simp only [Prod.mk.injEq, and_true]
    omega

/-! ## Writing what was read -/

theorem toLittleEndian_u32At (h : offset + 4 ≤ bytes.length) :
    toLittleEndian 4 (u32At bytes offset) = slice bytes offset (offset + 4) :=
  toLittleEndian_slice h

theorem toLittleEndian_u64At (h : offset + 8 ≤ bytes.length) :
    toLittleEndian 8 (u64At bytes offset) = slice bytes offset (offset + 8) :=
  toLittleEndian_slice h

theorem flatMap_decodeClasses {count : Nat} (h : cursor + 12 * count ≤ bytes.length) :
    (decodeClasses bytes count cursor).1 = cursor + 12 * count ∧
      (decodeClasses bytes count cursor).2.flatMap classText =
        slice bytes cursor (cursor + 12 * count) := by
  induction count generalizing cursor with
  | zero => simp [decodeClasses, slice_self]
  | succ count ih =>
    obtain ⟨hstop, hrest⟩ := ih (show cursor + 12 + 12 * count ≤ bytes.length by omega)
    simp only [decodeClasses, List.flatMap_cons]
    refine ⟨by rw [hstop]; omega, ?_⟩
    have hcount : cursor + 8 + 4 = cursor + 12 := rfl
    rw [hrest, classText, toLittleEndian_u64At (by omega), toLittleEndian_u32At (by omega), hcount,
      slice_append_slice (by omega) (by omega), slice_append_slice (by omega) (by omega)]
    congr 1
    omega

/-! ## Exactness -/

namespace PoolGrant

/-- The geometry of the grant maps, and the total is that of its layout. -/
def Maps (pageSize : Nat) (grant : PoolGrant) : Prop :=
  ∃ layout, MappingLayout.new grant.geometry pageSize = .ok layout ∧
    layout.total = grant.totalBytes.toNat

variable {pageSize : Nat} {grant : PoolGrant}

theorem checkedLayout_eq_ok_iff :
    (∃ layout, grant.checkedLayout pageSize = .ok layout) ↔ grant.Maps pageSize := by
  unfold checkedLayout Maps
  cases MappingLayout.new grant.geometry pageSize with
  | error e => simp
  | ok layout =>
    by_cases htotal : layout.total = grant.totalBytes.toNat <;> simp [htotal]

theorem classes_eq {classes : List ClassSpec} (h : classes.length = classCount) :
    classes = (ordinaryOf classes h).toList ++
      [classes.getD ordinaryClasses ⟨0, 0⟩, classes.getD (ordinaryClasses + 1) ⟨0, 0⟩] := by
  have hfive : ordinaryClasses < classes.length := by rw [h]; decide
  have hsix : ordinaryClasses + 1 < classes.length := by rw [h]; decide
  have hend : classes.drop (ordinaryClasses + 1 + 1) = [] := by
    apply List.drop_eq_nil_of_le
    rw [h]
    decide
  have htoList : (ordinaryOf classes h).toList = classes.take ordinaryClasses := rfl
  conv_lhs => rw [← List.take_append_drop ordinaryClasses classes]
  rw [htoList, List.drop_eq_getElem_cons hfive, List.drop_eq_getElem_cons hsix, hend,
    List.getD_eq_getElem _ _ hfive, List.getD_eq_getElem _ _ hsix]

theorem class_widths (geometry : PoolGeometry) :
    ∀ spec ∈ geometry.classes, spec.blockBytes < 2 ^ 64 ∧ spec.count < 2 ^ 32 := by
  intro spec hspec
  have hblocks := geometry.blocks_le
  have hbytes := geometry.bytes_lt
  obtain ⟨hcount, -, -⟩ := geometry.classes_valid spec hspec
  have hcountLe : spec.count ≤ countSum geometry.classes :=
    List.le_sum_of_mem (List.mem_map_of_mem hspec)
  have hbytesLe : spec.blockBytes * spec.count ≤ byteSum geometry.classes :=
    List.le_sum_of_mem (List.mem_map.mpr ⟨spec, hspec, rfl⟩)
  have hone : spec.blockBytes * 1 ≤ spec.blockBytes * spec.count :=
    Nat.mul_le_mul_left _ (Nat.pos_of_ne_zero hcount)
  rw [maxBlocks] at hblocks
  omega

theorem text_occurs (grant : PoolGrant) :
    OccursAt grant.text 0 grant.incarnation.toList ∧
    OccursAt grant.text 16 (toLittleEndian 4 grant.lane.toNat) ∧
    OccursAt grant.text 20 (toLittleEndian 4 grant.geometry.ordinaryDescriptors) ∧
    OccursAt grant.text 24 (toLittleEndian 4 grant.geometry.reservedDescriptors) ∧
    OccursAt grant.text 28 (grant.geometry.classes.flatMap classText) ∧
    OccursAt grant.text 112 (toLittleEndian 8 grant.totalBytes.toNat) ∧
    OccursAt grant.text 120 (toLittleEndian 4 0) := by
  have htable := length_flatMap_classText grant.geometry.classes
  rw [grant.geometry.classes_length] at htable
  have hall := occursAt_self grant.text
  have htotal := hall.left
  have hclasses := htotal.left
  have hreserved := hclasses.left
  have hordinary := hreserved.left
  have hlane := hordinary.left
  have hlengths : (grant.incarnation.toList).length = 16 := Vector.length_toList
  refine ⟨hlane.left, ?_, ?_, ?_, ?_, ?_, ?_⟩
  · simpa [hlengths] using hlane.right
  · simpa [hlengths, length_toLittleEndian] using hordinary.right
  · simpa [hlengths, length_toLittleEndian] using hreserved.right
  · simpa [hlengths, length_toLittleEndian] using hclasses.right
  · simpa [hlengths, length_toLittleEndian, htable, classCount, ordinaryClasses]
      using htotal.right
  · simpa [hlengths, length_toLittleEndian, htable, classCount, ordinaryClasses]
      using hall.right

theorem ofFn_getD_eq {bytes : List UInt8} {incarnation : Vector UInt8 16}
    (h : slice bytes 0 16 = incarnation.toList) :
    (Vector.ofFn fun index : Fin 16 => bytes.getD index 0) = incarnation := by
  ext index hindex
  have hget : (slice bytes 0 16)[index]? = some incarnation[index] := by
    rw [h]
    simp [hindex]
  rw [slice, List.drop_zero, List.getElem?_take_of_lt hindex] at hget
  rw [Vector.getElem_ofFn, List.getD_eq_getElem?_getD, hget]
  rfl

theorem toList_ofFn_getD {bytes : List UInt8} (h : 16 ≤ bytes.length) :
    (Vector.ofFn fun index : Fin 16 => bytes.getD index 0).toList = slice bytes 0 16 := by
  have hlength : (slice bytes 0 16).toArray.size = 16 := by
    rw [List.size_toArray, length_slice h]
  rw [@ofFn_getD_eq bytes ⟨(slice bytes 0 16).toArray, hlength⟩ rfl]
  rfl

theorem decode_encode (h : grant.Maps pageSize) : decode pageSize grant.encode = .ok grant := by
  obtain ⟨hincarnation, hlane, hordinary, hreserved, hclasses, htotal, htail⟩ := grant.text_occurs
  have hdepth := grant.geometry.depth_le
  rw [maxDescriptors] at hdepth
  have hbytes := hincarnation.slice_eq
  rw [Vector.length_toList] at hbytes
  have htable := decodeClasses_of_occurs (class_widths grant.geometry) hclasses
  rw [grant.geometry.classes_length] at htable
  have hzero := htail.slice_eq
  rw [length_toLittleEndian] at hzero
  have hcursor : 28 + 12 * classCount = 112 := rfl
  have hgeometry := PoolGeometry.new_eq_ok grant.geometry
    (classes_eq grant.geometry.classes_length)
  obtain ⟨layout, hlayout⟩ := checkedLayout_eq_ok_iff.mpr h
  simp only [decode, toList_encode, htable, hcursor, hzero, ofFn_getD_eq hbytes,
    u32At_of_occurs (UInt32.toNat_lt grant.lane) hlane, u32At_of_occurs (by omega) hordinary,
    u32At_of_occurs (by omega) hreserved, u64At_of_occurs (UInt64.toNat_lt grant.totalBytes) htotal,
    hgeometry, UInt32.ofNat_toNat, UInt64.ofNat_toNat, hlayout]
  rfl

/-- What `decode` accepts is the encoding of what it returns. -/
theorem encode_of_decode {bytes : Vector UInt8 grantBytes} (h : decode pageSize bytes = .ok grant) :
    grant.encode = bytes ∧ grant.Maps pageSize := by
  have hlength : bytes.toList.length = 124 := Vector.length_toList
  obtain ⟨hcursor, htable⟩ := flatMap_decodeClasses
    (show 28 + 12 * classCount ≤ bytes.toList.length by rw [hlength]; decide)
  have hstop : 28 + 12 * classCount = 112 := rfl
  rw [hstop] at hcursor htable
  rw [decode] at h
  simp only [hcursor] at h
  split at h
  · cases h
  rename_i htail
  split at h
  · cases h
  rename_i geometry hgeometry
  split at h
  · cases h
  rename_i layout hlayout
  cases h
  obtain ⟨hordinary, hreserved, hclasses⟩ := PoolGeometry.new_fields hgeometry
  rw [← classes_eq] at hclasses
  refine ⟨?_, checkedLayout_eq_ok_iff.mp ⟨layout, hlayout⟩⟩
  have hincarnation : (Vector.ofFn fun index : Fin 16 => bytes.toList.getD index 0).toList =
      slice bytes.toList 0 16 := toList_ofFn_getD (by rw [hlength]; decide)
  have hlane : u32At bytes.toList 16 < 2 ^ 32 := littleEndian_slice_lt (by omega)
  have htotal : u64At bytes.toList 112 < 2 ^ 64 := littleEndian_slice_lt (by omega)
  -- the slices between the offsets of the fields make up the array
  have hjoin : ∀ {a b c : Nat}, a ≤ b → b ≤ c →
      slice bytes.toList a b ++ slice bytes.toList b c = slice bytes.toList a c :=
    slice_append_slice
  have htext : (PoolGrant.mk (Vector.ofFn fun index : Fin 16 => bytes.toList.getD index 0)
      (UInt32.ofNat (u32At bytes.toList 16)) geometry
      (UInt64.ofNat (u64At bytes.toList 112))).text = bytes.toList := by
    rw [text]
    simp only [hincarnation, UInt32.toNat_ofNat_of_lt' hlane, UInt64.toNat_ofNat_of_lt' htotal,
      hordinary, hreserved, hclasses, htable]
    rw [toLittleEndian_u32At (by omega), toLittleEndian_u32At (by omega),
      toLittleEndian_u32At (by omega), toLittleEndian_u64At (by omega),
      hjoin (by decide) (by decide), hjoin (by decide) (by decide), hjoin (by decide) (by decide),
      hjoin (by decide) (by decide), hjoin (by decide) (by decide)]
    have hzero : toLittleEndian 4 0 = slice bytes.toList 120 124 := (not_not.mp htail).symm
    rw [hzero, hjoin (by decide) (by decide), slice, List.drop_zero, ← hlength, List.take_length]
  rw [← Vector.toList_inj, toList_encode, htext]

/-- The grant codec is exact: decoding returns a grant exactly on the encoding of that
grant, and the grants it returns are those that map. -/
theorem grant_codec_exact (pageSize : Nat) (bytes : Vector UInt8 grantBytes) (grant : PoolGrant) :
    (decode pageSize bytes = .ok grant ↔ grant.encode = bytes ∧ grant.Maps pageSize) ∧
      (grant.Maps pageSize → decode pageSize grant.encode = .ok grant) ∧
      ∀ other, decode pageSize bytes = .ok grant → decode pageSize other = .ok grant →
        bytes = other := by
  have hexact : decode pageSize bytes = .ok grant ↔ grant.encode = bytes ∧ grant.Maps pageSize := by
    constructor
    · exact encode_of_decode
    · rintro ⟨rfl, hmaps⟩
      exact decode_encode hmaps
  refine ⟨hexact, decode_encode, ?_⟩
  intro other h hother
  exact (encode_of_decode h).1.symm.trans (encode_of_decode hother).1

def small : PoolGrant where
  incarnation := Vector.replicate 16 7
  lane := 9
  geometry := .small
  totalBytes := 73728

theorem grant_codec_exact_small : decode 4096 small.encode = .ok small :=
  (grant_codec_exact 4096 small.encode small).2.1
    ⟨Retained.small.layout, by decide +kernel, by decide⟩

end PoolGrant

end Eidnara.ShmTransport
