import Eidnara.Lib.Words

/-!
# The original-row artifact

`dense/codec.rs`: a fixed header and the rows after it.  A coordinate is the bit pattern of an
`f32`.  What floats decide about a row or a tolerance is a parameter.
-/

namespace Eidnara.Retrieval.Dense.Codec

open Lib Words List

abbrev Bytes := List UInt8

abbrev Row := List UInt32

inductive Metric where
  | innerProduct
deriving DecidableEq, Repr

def Metric.code : Metric → UInt8
  | .innerProduct => 1

def Metric.fromCode (code : UInt8) : Option Metric :=
  if code = 1 then some .innerProduct else none

structure RowLayout where
  dimension : UInt32
  metric : Metric

/-- `value` stands for what is said of coordinates, norms and tolerances. -/
inductive RowRejection (ν : Type) where
  | truncatedWord (bytes : Nat)
  | dimension (expected : UInt32) (actual : Nat)
  | value (reason : ν)

inductive ArtifactRejection (ν : Type) where
  | shortHeader (bytes : Nat)
  | magic
  | version (version : Nat)
  | reserved (reserved : UInt8)
  | metric (code : UInt8) (expected : Metric)
  | zeroDimension
  | layout (rejection : RowRejection ν)
  | dimension (declared : Nat) (expected : UInt32)
  | rowBytes (declared bytes : Nat)
  | row (index : Nat) (rejection : RowRejection ν)

/-- What the floats of a layout decide: `RowLayout::check`, `surely_unit`, and the checks of
`validate_from_sum` after the dimension. -/
structure Validity (ν : Type) where
  check : Except (RowRejection ν) Unit
  surelyUnit : Row → Bool
  checkSum : Row → Except (RowRejection ν) Unit

variable {ν : Type} (validity : Validity ν) (layout : RowLayout)

def checkDimension (actual : Nat) (expected : UInt32) : Except (RowRejection ν) Unit :=
  ensure (actual = expected.toNat) (.dimension expected actual)

def validate (row : Row) : Except (RowRejection ν) Unit :=
  if validity.check.isOk ∧ row.length = layout.dimension.toNat ∧ validity.surelyUnit row then .ok ()
  else do
    validity.check
    checkDimension row.length layout.dimension
    validity.checkSum row

def artifactMagic : Bytes := [0x45, 0x49, 0x44, 0x46, 0x33, 0x32, 0x52, 0]

def artifactHeaderBytes : Nat := 8 + 2 + 1 + 1 + 4 + 8

def encode (row : Row) : Bytes := row.flatMap fun value => toLittleEndian 4 value.toNat

/-- The count is written over zeros once the rows are known. -/
def header (count : Nat) : Bytes :=
  artifactMagic ++ (toLittleEndian 2 1 ++ ([layout.metric.code] ++ ([0] ++
    (toLittleEndian 4 layout.dimension.toNat ++ toLittleEndian 8 count))))

def encodeBody (index : Nat) : List Row → Except (ArtifactRejection ν) Bytes
  | [] => .ok []
  | row :: rows => do
    (validate validity layout row).mapError (.row index)
    let rest ← encodeBody (index + 1) rows
    .ok (encode row ++ rest)

def encodeRows (rows : List Row) : Except (ArtifactRejection ν) Bytes := do
  ensure (layout.dimension ≠ 0) .zeroDimension
  validity.check.mapError .layout
  let body ← encodeBody validity layout 0 rows
  .ok (header layout rows.length ++ body)

def decodeHeader (bytes : Bytes) : Except (ArtifactRejection ν) Nat := do
  ensure (layout.dimension ≠ 0) .zeroDimension
  validity.check.mapError .layout
  ensure (artifactHeaderBytes ≤ bytes.length) (.shortHeader bytes.length)
  ensure (slice bytes 0 8 = artifactMagic) .magic
  let version := littleEndian (slice bytes 8 10)
  ensure (version = 1) (.version version)
  let code := bytes.getD 10 0
  ensure (Metric.fromCode code = some layout.metric) (.metric code layout.metric)
  let reserved := bytes.getD 11 0
  ensure (reserved = 0) (.reserved reserved)
  let declared := littleEndian (slice bytes 12 16)
  ensure (declared = layout.dimension.toNat) (.dimension declared layout.dimension)
  .ok (littleEndian (slice bytes 16 24))

def rowBytes (dimension : UInt32) : Nat := dimension.toNat * 4

def rowOffset (index : Nat) (dimension : UInt32) : Nat :=
  artifactHeaderBytes + index * rowBytes dimension

def checkBody (declared bodyBytes : Nat) : Except (ArtifactRejection ν) Unit :=
  ensure (checkedMul 64 declared (rowBytes layout.dimension) = some bodyBytes)
    (.rowBytes declared bodyBytes)

def decodeWords (bytes : Bytes) : Row :=
  (chunksExact 4 bytes).map fun word => UInt32.ofNat (littleEndian word)

def decodeRow (index : Nat) (bytes : Bytes) : Except (ArtifactRejection ν) Row :=
  Except.mapError (.row index) do
    ensure (bytes.length % 4 = 0) (.truncatedWord bytes.length)
    let row := decodeWords bytes
    checkDimension row.length layout.dimension
    validate validity layout row
    .ok row

def decodeBody (index : Nat) : List Bytes → Except (ArtifactRejection ν) (List Row)
  | [] => .ok []
  | chunk :: chunks => do
    let row ← decodeRow validity layout index chunk
    let rows ← decodeBody (index + 1) chunks
    .ok (row :: rows)

def decodeRows (bytes : Bytes) : Except (ArtifactRejection ν) (List Row) := do
  let rowCount ← decodeHeader validity layout bytes
  let body := bytes.drop artifactHeaderBytes
  checkBody layout rowCount body.length
  decodeBody validity layout 0 (chunksExact (rowBytes layout.dimension) body)

/-! ## Rows -/

theorem length_encode (row : Row) : (encode row).length = row.length * 4 := by
  induction row with
  | nil => rfl
  | cons value row ih =>
    rw [encode, flatMap_cons, length_append, length_toLittleEndian, length_cons]
    rw [encode] at ih
    omega

theorem decodeWords_encode (row : Row) : decodeWords (encode row) = row := by
  have hwords : chunksExact 4 (encode row) = row.map fun value => toLittleEndian 4 value.toNat := by
    refine chunksExact_flatten (by decide) fun word hword => ?_
    obtain ⟨value, -, rfl⟩ := mem_map.mp hword
    exact length_toLittleEndian ..
  rw [decodeWords, hwords, map_map]
  conv_rhs => rw [← map_id row]
  refine map_congr_left fun value _ => ?_
  rw [Function.comp_apply, littleEndian_toLittleEndian value.toNat_lt, UInt32.ofNat_toNat, id]

variable {bytes : Bytes} {index : Nat}

theorem encode_decodeWords (h : bytes.length % 4 = 0) : encode (decodeWords bytes) = bytes := by
  have hdvd : 4 ∣ bytes.length := Nat.dvd_of_mod_eq_zero h
  conv_rhs => rw [← flatten_chunksExact (by decide) hdvd]
  rw [encode, decodeWords, flatMap_def, map_map]
  conv_rhs => rw [← map_id (chunksExact 4 bytes)]
  refine congrArg List.flatten (map_congr_left fun word hword => ?_)
  have hlength := length_of_mem_chunksExact hword
  have hlt := littleEndian_lt word
  rw [hlength] at hlt
  rw [Function.comp_apply, UInt32.toNat_ofNat_of_lt' hlt, ← hlength, toLittleEndian_littleEndian,
    id]

variable {validity layout}

theorem length_of_validate {row : Row} (h : validate validity layout row = .ok ()) :
    row.length = layout.dimension.toNat := by
  unfold validate at h
  split_ifs at h with hunit
  · exact hunit.2.1
  · obtain ⟨-, -, h⟩ := bind_eq_ok_iff.mp h
    obtain ⟨_, hdimension, -⟩ := bind_eq_ok_iff.mp h
    exact ensure_eq_ok_iff.mp hdimension

theorem decodeRow_eq_ok_iff {row : Row} :
    decodeRow validity layout index bytes = .ok row ↔
      validate validity layout row = .ok () ∧ bytes = encode row := by
  rw [decodeRow, mapError_eq_ok_iff]
  simp only [bind_eq_ok_iff, ensure_eq_ok_iff, checkDimension]
  constructor
  · rintro ⟨_, hwhole, _, -, _, hvalid, h⟩
    cases h
    exact ⟨hvalid, (encode_decodeWords hwhole).symm⟩
  · rintro ⟨hvalid, rfl⟩
    rw [decodeWords_encode, length_encode]
    exact ⟨(), Nat.mul_mod_left _ _, (), length_of_validate hvalid, (), hvalid, rfl⟩

theorem decodeBody_eq_ok_iff {chunks : List Bytes} {rows : List Row} :
    decodeBody validity layout index chunks = .ok rows ↔
      (∀ row ∈ rows, validate validity layout row = .ok ()) ∧ chunks = rows.map encode := by
  induction chunks generalizing index rows with
  | nil => cases rows <;> simp [decodeBody]
  | cons chunk chunks ih =>
    simp only [decodeBody, bind_eq_ok_iff, decodeRow_eq_ok_iff, ih]
    constructor
    · rintro ⟨row, ⟨hvalid, rfl⟩, rows, ⟨hrows, rfl⟩, h⟩
      cases h
      exact ⟨forall_mem_cons.mpr ⟨hvalid, hrows⟩, rfl⟩
    · rintro ⟨hrows, hchunks⟩
      obtain ⟨row, rows, rfl, rfl, rfl⟩ := map_eq_cons_iff.mp hchunks.symm
      rw [forall_mem_cons] at hrows
      exact ⟨row, ⟨hrows.1, rfl⟩, rows, ⟨hrows.2, rfl⟩, rfl⟩

theorem encodeBody_eq_ok_iff {rows : List Row} {body : Bytes} :
    encodeBody validity layout index rows = .ok body ↔
      (∀ row ∈ rows, validate validity layout row = .ok ()) ∧ body = rows.flatMap encode := by
  induction rows generalizing index body with
  | nil => simp [encodeBody, eq_comm]
  | cons row rows ih =>
    simp only [encodeBody, bind_eq_ok_iff, mapError_eq_ok_iff, ih, forall_mem_cons,
      flatMap_cons]
    constructor
    · rintro ⟨_, hvalid, rest, ⟨hrows, rfl⟩, h⟩
      cases h
      exact ⟨⟨hvalid, hrows⟩, rfl⟩
    · rintro ⟨⟨hvalid, hrows⟩, rfl⟩
      exact ⟨(), hvalid, _, ⟨hrows, rfl⟩, rfl⟩

/-! ## The header -/

theorem length_header (count : Nat) : (header layout count).length = artifactHeaderBytes := by
  simp [header, artifactMagic, length_toLittleEndian, artifactHeaderBytes]

theorem getD_eq_slice (h : index < bytes.length) :
    [bytes.getD index 0] = slice bytes index (index + 1) := by
  simp [slice_one h, h]

/-- A header is accepted exactly where it is the one of some count. -/
theorem decodeHeader_eq_ok_iff {count : Nat} :
    decodeHeader validity layout bytes = .ok count ↔
      layout.dimension ≠ 0 ∧ validity.check = .ok () ∧ count < 2 ^ 64 ∧
        bytes = header layout count ++ bytes.drop artifactHeaderBytes := by
  simp only [decodeHeader, bind_eq_ok_iff, ensure_eq_ok_iff, mapError_eq_ok_iff]
  constructor
  · rintro ⟨_, hdimension, _, hcheck, _, hlength, _, hmagic, _, hversion, _, hmetric, _, hreserved,
      _, hdeclared, h⟩
    cases h
    have hlength : 24 ≤ bytes.length := hlength
    have hcount := @littleEndian_slice_lt bytes 16 8 hlength
    refine ⟨hdimension, hcheck, hcount, ?_⟩
    have hcode : layout.metric.code = bytes.getD 10 0 := by
      unfold Metric.fromCode at hmetric
      split_ifs at hmetric with hone
      rw [← Option.some.inj hmetric, hone]
      rfl
    have hjoin : ∀ {start middle : Nat}, start ≤ middle → middle ≤ 24 →
        slice bytes start middle ++ slice bytes middle 24 = slice bytes start 24 :=
      slice_append_slice
    have hparts : header layout (littleEndian (slice bytes 16 24)) = slice bytes 0 24 := by
      have hversion' : toLittleEndian 2 (littleEndian (slice bytes 8 10)) = slice bytes 8 10 :=
        toLittleEndian_slice (by omega)
      have hdeclared' : toLittleEndian 4 (littleEndian (slice bytes 12 16)) = slice bytes 12 16 :=
        toLittleEndian_slice (by omega)
      have hcount' : toLittleEndian 8 (littleEndian (slice bytes 16 24)) = slice bytes 16 24 :=
        toLittleEndian_slice hlength
      have hcode' : [layout.metric.code] = slice bytes 10 11 := by
        rw [hcode]
        exact getD_eq_slice (by omega)
      have hreserved' : [(0 : UInt8)] = slice bytes 11 12 := by
        rw [← getD_eq_slice (by omega), hreserved]
      rw [header, ← hmagic, hcode', ← hdeclared, hdeclared', hcount', ← hversion, hversion',
        hreserved', hjoin (by omega) (by omega), hjoin (by omega) (by omega),
        hjoin (by omega) (by omega), hjoin (by omega) (by omega), hjoin (by omega) (by omega)]
    rw [hparts]
    exact (slice_append_drop bytes (Nat.zero_le 24)).symm
  · rintro ⟨hdimension, hcheck, hcount, hbytes⟩
    generalize bytes.drop artifactHeaderBytes = body at hbytes
    have hdeclared : littleEndian (toLittleEndian 4 layout.dimension.toNat) =
        layout.dimension.toNat := littleEndian_toLittleEndian layout.dimension.toNat_lt
    have hrows : littleEndian (toLittleEndian 8 count) = count := littleEndian_toLittleEndian hcount
    have hmetric : Metric.fromCode layout.metric.code = some layout.metric := by
      cases layout.metric
      rfl
    -- Written out as bytes, so that every slice and index computes.
    obtain ⟨d0, d1, d2, d3, hd⟩ : ∃ d0 d1 d2 d3,
        toLittleEndian 4 layout.dimension.toNat = [d0, d1, d2, d3] := ⟨_, _, _, _, rfl⟩
    obtain ⟨c0, c1, c2, c3, c4, c5, c6, c7, hc⟩ : ∃ c0 c1 c2 c3 c4 c5 c6 c7,
        toLittleEndian 8 count = [c0, c1, c2, c3, c4, c5, c6, c7] :=
      ⟨_, _, _, _, _, _, _, _, rfl⟩
    rw [hd] at hdeclared
    rw [hc] at hrows
    rw [header, hd, hc] at hbytes
    subst hbytes
    refine ⟨(), hdimension, (), hcheck, (), ?_, (), rfl, (), rfl, (), hmetric, (), rfl, (),
      hdeclared, congrArg Except.ok hrows⟩
    simp [artifactMagic, artifactHeaderBytes, toLittleEndian]

/-! ## Artifacts -/

theorem rowBytes_pos (h : layout.dimension ≠ 0) : 0 < rowBytes layout.dimension := by
  have hne : layout.dimension.toNat ≠ 0 := fun hzero => h (UInt32.toNat.inj hzero)
  unfold rowBytes
  omega

theorem length_encode_of_validate {row : Row} (h : validate validity layout row = .ok ()) :
    (encode row).length = rowBytes layout.dimension := by
  rw [length_encode, length_of_validate h, rowBytes]

theorem encodeRows_eq_ok_iff {rows : List Row} :
    encodeRows validity layout rows = .ok bytes ↔
      (layout.dimension ≠ 0 ∧ validity.check = .ok () ∧
        ∀ row ∈ rows, validate validity layout row = .ok ()) ∧
      bytes = header layout rows.length ++ (rows.map encode).flatten := by
  simp only [encodeRows, bind_eq_ok_iff, ensure_eq_ok_iff, mapError_eq_ok_iff,
    encodeBody_eq_ok_iff, ← flatMap_def]
  constructor
  · rintro ⟨_, hdimension, _, hcheck, _, ⟨hrows, rfl⟩, h⟩
    cases h
    exact ⟨⟨hdimension, hcheck, hrows⟩, rfl⟩
  · rintro ⟨⟨hdimension, hcheck, hrows⟩, rfl⟩
    exact ⟨(), hdimension, (), hcheck, _, ⟨hrows, rfl⟩, rfl⟩

/-- A byte buffer, whose length is a `usize`. -/
abbrev Buffer := { bytes : Bytes // bytes.length < 2 ^ 64 }

section

variable {rows : List Row}

theorem length_of_mem_encodings (h : ∀ row ∈ rows, validate validity layout row = .ok ()) :
    ∀ part ∈ rows.map encode, part.length = rowBytes layout.dimension := by
  intro part hpart
  obtain ⟨row, hrow, rfl⟩ := mem_map.mp hpart
  exact length_encode_of_validate (h row hrow)

theorem decodeRows_eq_ok_iff {artifact : Buffer} :
    decodeRows validity layout artifact.1 = .ok rows ↔
      encodeRows validity layout rows = .ok artifact.1 := by
  obtain ⟨bytes, hsize⟩ := artifact
  rw [encodeRows_eq_ok_iff]
  simp only [decodeRows, bind_eq_ok_iff, decodeHeader_eq_ok_iff, checkBody, ensure_eq_ok_iff,
    decodeBody_eq_ok_iff]
  constructor
  · rintro ⟨count, ⟨hdimension, hcheck, -, hbytes⟩, _, hbody, hrows, hchunks⟩
    refine ⟨⟨hdimension, hcheck, hrows⟩, ?_⟩
    have hpos := rowBytes_pos hdimension
    obtain ⟨hlength, -⟩ := checkedMul_some hbody
    have hjoined := flatten_chunksExact hpos ⟨count, hlength.trans (Nat.mul_comm _ _)⟩
    rw [hchunks] at hjoined
    have hcount : rows.length = count := by
      rw [← hjoined, length_flatten_parts (length_of_mem_encodings hrows), length_map] at hlength
      exact Nat.eq_of_mul_eq_mul_right hpos hlength
    rwa [hcount, hjoined]
  · rintro ⟨⟨hdimension, hcheck, hrows⟩, rfl⟩
    have hpos := rowBytes_pos hdimension
    have hparts := length_of_mem_encodings hrows
    have hbody := length_flatten_parts hparts
    rw [length_map] at hbody
    have hdrop : (header layout rows.length ++ (rows.map encode).flatten).drop artifactHeaderBytes =
        (rows.map encode).flatten := drop_left' (length_header _)
    rw [length_append, hbody] at hsize
    have hcount : rows.length < 2 ^ 64 :=
      (Nat.le_mul_of_pos_right _ hpos).trans_lt (Nat.lt_of_add_left_lt hsize)
    refine ⟨rows.length, ⟨hdimension, hcheck, hcount, by rw [hdrop]⟩, (), ?_, hrows, ?_⟩
    · rw [hdrop, hbody]
      exact checkedMul_of_lt (Nat.lt_of_add_left_lt hsize)
    · exact chunksExact_flatten hpos hparts

theorem slice_rowOffset {artifact : Buffer} (h : encodeRows validity layout rows = .ok artifact.1)
    {row : Row} (hrow : rows[index]? = some row) :
    rowOffset index layout.dimension + rowBytes layout.dimension ≤ artifact.1.length ∧
      slice artifact.1 (rowOffset index layout.dimension)
        (rowOffset index layout.dimension + rowBytes layout.dimension) = encode row ∧
      decodeRow validity layout index (encode row) = .ok row := by
  obtain ⟨⟨-, -, hrows⟩, hbytes⟩ := encodeRows_eq_ok_iff.mp h
  have hparts := length_of_mem_encodings hrows
  have hpart : (rows.map encode)[index]? = some (encode row) := by
    rw [getElem?_map, hrow, Option.map_some]
  have hbody := length_flatten_parts hparts
  rw [length_map] at hbody
  have hlt := (List.getElem?_eq_some_iff.mp hrow).1
  have hend := Nat.mul_le_mul_right (rowBytes layout.dimension) (Nat.succ_le_of_lt hlt)
  rw [Nat.succ_mul] at hend
  have hstop : rowOffset index layout.dimension + rowBytes layout.dimension =
      artifactHeaderBytes + (index * rowBytes layout.dimension + rowBytes layout.dimension) :=
    Nat.add_assoc ..
  refine ⟨?_, ?_, decodeRow_eq_ok_iff.mpr ⟨hrows row (mem_of_getElem? hrow), rfl⟩⟩
  · rw [hbytes, length_append, length_header, hbody, hstop]
    exact Nat.add_le_add_left hend _
  · rw [hstop, hbytes, rowOffset, ← length_header rows.length, slice, take_length_add_append,
      drop_length_add_append]
    exact slice_flatten hparts hpart

end

/-- The codec is exact: what decodes is what encodes to the artifact, and a row is read at its
offset as it is read in sequence. -/
theorem artifact_codec_exact (validity : Validity ν) (layout : RowLayout) (artifact : Buffer)
    (rows : List Row) :
    (decodeRows validity layout artifact.1 = .ok rows ↔
      encodeRows validity layout rows = .ok artifact.1) ∧
    (encodeRows validity layout rows = .ok artifact.1 → ∀ index row, rows[index]? = some row →
      rowOffset index layout.dimension + rowBytes layout.dimension ≤ artifact.1.length ∧
      slice artifact.1 (rowOffset index layout.dimension)
        (rowOffset index layout.dimension + rowBytes layout.dimension) = encode row ∧
      decodeRow validity layout index (encode row) = .ok row) :=
  ⟨decodeRows_eq_ok_iff, fun h _ _ hrow => slice_rowOffset h hrow⟩

/-- Two rows of one coordinate, in an order that is not theirs by value. -/
def twoRows : Buffer :=
  ⟨header ⟨1, .innerProduct⟩ 2 ++ [0, 0, 0x80, 0xbf, 0, 0, 0x80, 0x3f], by decide⟩

theorem artifact_codec_exact_twoRows :
    decodeRows ⟨.ok (), fun _ => true, fun _ => .ok ()⟩ ⟨1, .innerProduct⟩ twoRows.1 =
        .ok (ε := ArtifactRejection Unit) [[0xbf800000], [0x3f800000]] ∧
      slice twoRows.1 (rowOffset 1 1) (rowOffset 1 1 + rowBytes 1) = encode [0x3f800000] := by
  have hencoded : encodeRows ⟨.ok (), fun _ => true, fun _ => .ok ()⟩ ⟨1, .innerProduct⟩
      [[0xbf800000], [0x3f800000]] = .ok (ε := ArtifactRejection Unit) twoRows.1 := by rfl
  obtain ⟨hexact, hrows⟩ :=
    artifact_codec_exact (ν := Unit) ⟨.ok (), fun _ => true, fun _ => .ok ()⟩
    ⟨1, .innerProduct⟩ twoRows [[0xbf800000], [0x3f800000]]
  exact ⟨hexact.mpr hencoded, (hrows hencoded 1 _ rfl).2.1⟩

end Eidnara.Retrieval.Dense.Codec
