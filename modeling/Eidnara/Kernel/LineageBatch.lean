import Eidnara.Kernel.SourceIdentity

/-!
# Lineage ids that differ in one field

`lineage_ids_varying_last_field`: the bytes before the last identity field are hashed once, and
each value only feeds what comes after them.
-/

namespace Eidnara.Kernel

open Lib Utf8 List

/-- A hash fed in pieces, of which nothing is known but that the pieces count as one. -/
structure Hasher (σ : Type) where
  new : σ
  update : σ → Bytes → σ
  finalize : σ → Bytes
  digest : Bytes → Bytes
  finalize_updates : ∀ pieces : List Bytes,
    finalize (pieces.foldl update new) = digest pieces.flatten

/-- `Iterator::map_while`. -/
def mapWhile {α β : Type} (f : α → Option β) : List α → List β
  | [] => []
  | x :: xs =>
    match f x with
    | none => []
    | some y => y :: mapWhile f xs

def lineageIdPreservingSpan (sha256 : Bytes → Bytes) (occurrence : Occurrence) :
    Except OccurrenceRefusal Bytes :=
  (lineagePreservingSpan occurrence).map (identityDigest sha256)

def checksOnlyWellFormedness (occurrenceClass : OccurrenceClass) (field : Text) : Bool :=
  field ≠ "harness".toList ∧ occurrenceClass ≠ .gitCommits

namespace OccurrenceClass

def lastField (occurrenceClass : OccurrenceClass) : Text :=
  occurrenceClass.identityFields.getLastD []

end OccurrenceClass

def Occurrence.withField (occurrence : Occurrence) (field value : Text) : Occurrence :=
  { occurrence with
    identity := occurrence.identity.map fun (name, current) =>
      (name, if name = field then value else current) }

variable {σ : Type}

def lineageIdsVaryingLastField (hash : Hasher σ) (occurrence : Occurrence) (values : List Text) :
    List Bytes :=
  match occurrence.validatedPrefix with
  | .error _ => []
  | .ok (occurrenceClass, identityPart, _) =>
    let last := occurrenceClass.lastField
    if checksOnlyWellFormedness occurrenceClass last then
      let current := (occurrence.valueOf last).getD []
      let encoded := occurrence.lineageEncoding identityPart
      let tailLen := encoded.length - 2 - identityPart.length
      let headLen := encoded.length - tailLen - 4 - (utf8 current).length
      let hashedHead := hash.update hash.new (encoded.take headLen)
      let tail := encoded.drop (encoded.length - tailLen)
      mapWhile (fun value =>
        if wellFormedValue value then
          some (lowerHex
            (hash.finalize (hash.update (hash.update hashedHead (pushStr value)) tail)))
        else none) values
    else
      mapWhile (fun value =>
        (lineageIdPreservingSpan hash.digest (occurrence.withField last value)).toOption) values

/-! ## One value at a time -/

namespace Occurrence

variable {occurrence : Occurrence} {c : OccurrenceClass}

theorem valueOf_withField (field value name : Text) :
    (occurrence.withField field value).valueOf name =
      (occurrence.valueOf name).map fun current => if name = field then value else current := by
  rw [valueOf, valueOf, withField, find?_map, Option.map_map, Option.map_map]
  change (occurrence.identity.find? (·.1 = name)).map _ = _
  cases hfound : occurrence.identity.find? (·.1 = name) with
  | none => rfl
  | some pair =>
    have hname : pair.1 = name := by simpa using find?_some hfound
    simp [hname]

theorem identityValues_of_perm {names values : List Text} (hnames : names.Nodup)
    (hperm : (occurrence.identity.map Prod.fst).Perm names)
    (hlookup : names.map occurrence.valueOf = values.map some) :
    occurrence.identityValues names = .ok values := by
  cases hvalues : occurrence.identityValues names with
  | ok found =>
    have hfound := (identityValues_eq_ok hnames hvalues).2
    rw [hlookup] at hfound
    rw [map_injective_iff.mpr (fun _ _ => Option.some.inj) hfound]
  | error reason =>
    rw [identityValues, mapM_eq_some_iff.mpr hlookup] at hvalues
    split_ifs at hvalues with _ hforeign
    rcases hforeign with hlength | hforeign
    · exact absurd (by simpa using hperm.length_eq) hlength
    · obtain ⟨pair, hpair, hname⟩ := any_eq_true.mp hforeign
      exact absurd (hperm.subset (mem_map_of_mem hpair)) (of_decide_eq_true hname)

theorem checkHarness_concat {names values : List Text} {last current value : Text}
    (hlast : last ≠ "harness".toList) (hlength : values.length = names.length) :
    checkHarness (names ++ [last]) (values ++ [value]) =
      checkHarness (names ++ [last]) (values ++ [current]) := by
  unfold checkHarness
  cases hindex : (names ++ [last]).findIdx? (· = "harness".toList) with
  | none => rfl
  | some index =>
    obtain ⟨hbound, hfound, -⟩ := findIdx?_eq_some_iff_getElem.mp hindex
    have hlt : index < values.length := by
      by_contra hge
      rw [length_append, length_singleton] at hbound
      obtain rfl : index = names.length := by omega
      exact hlast (by simpa using hfound)
    simp only [getElem?_append_left hlt]

theorem Accepted.concat {values : List Text} (h : Accepted occurrence c values) :
    ∃ names front current, c.identityFields = names ++ [c.lastField] ∧
      values = front ++ [current] ∧ front.length = names.length := by
  have hfields : c.identityFields = c.identityFields.dropLast ++ [c.lastField] := by
    cases c <;> rfl
  have hlength := h.length_values
  rw [hfields, length_append, length_singleton] at hlength
  have hne : values ≠ [] := ne_nil_of_length_eq_add_one hlength
  refine ⟨_, values.dropLast, values.getLast hne, hfields,
    (dropLast_append_getLast hne).symm, ?_⟩
  rw [length_dropLast, hlength, Nat.add_sub_cancel]

theorem validatedPrefix_withField {front : List Text} {current : Text} {revision : Nat}
    (haccepted : Accepted occurrence c (front ++ [current]))
    (h : occurrence.validatedPrefix = .ok (c, identityPrefix c (front ++ [current]), revision))
    (hcheck : checksOnlyWellFormedness c c.lastField = true) (value : Text) :
    (occurrence.withField c.lastField value).validatedPrefix =
      if wellFormedValue value then .ok (c, identityPrefix c (front ++ [value]), revision)
      else .error .malformedIdentityValue := by
  obtain ⟨names, front', current', hfields, hvalues, hlength⟩ := haccepted.concat
  obtain ⟨rfl, -⟩ := append_inj' hvalues rfl
  have hnodup := c.nodup_identityFields
  have hown := identityValues_of_perm hnodup haccepted.names haccepted.lookup
  have hother : (occurrence.withField c.lastField value).identityValues c.identityFields =
      .ok (front ++ [value]) := by
    refine identityValues_of_perm hnodup ?_ ?_
    · rw [withField, map_map]
      exact haccepted.names
    · have hlookup := haccepted.lookup
      rw [hfields] at hlookup hnodup ⊢
      rw [map_append, map_append] at hlookup ⊢
      obtain ⟨hfront, hlast⟩ := append_inj hlookup (by simp [hlength])
      rw [← hfront]
      congr 1
      · refine map_congr_left fun name hname => ?_
        have hne : name ≠ c.lastField := by
          rintro rfl
          simp [nodup_append] at hnodup
          exact hnodup.2 _ hname rfl
        rw [valueOf_withField]
        simp [hne]
      · simp only [map_cons, map_nil, List.cons.injEq, and_true] at hlast ⊢
        rw [valueOf_withField, hlast]
        simp
  simp only [checksOnlyWellFormedness, decide_eq_true_eq] at hcheck
  have hharness : checkHarness c.identityFields (front ++ [value]) =
      checkHarness c.identityFields (front ++ [current]) := by
    rw [hfields]
    exact checkHarness_concat hcheck.1 hlength
  have hoid : ∀ values, checkOid c values = .ok () := by
    intro values
    unfold checkOid
    split
    · exact absurd rfl hcheck.2
    · rfl
  have hfront : front.all wellFormedValue = true :=
    all_eq_true.mpr fun v hv => haccepted.wellFormed v (mem_append_left _ hv)
  have hclass : OccurrenceClass.fromCode occurrence.occurrenceClass = some c := by
    rw [← haccepted.code]
    cases c <;> rfl
  rw [validatedPrefix, hclass] at h
  obtain ⟨values, hvalues, h⟩ := bind_eq_ok_iff.mp h
  cases hown.symm.trans hvalues
  rw [if_neg (not_not.mpr (all_eq_true.mpr haccepted.wellFormed))] at h
  obtain ⟨⟨⟩, hpassed, h⟩ := bind_eq_ok_iff.mp h
  obtain ⟨-, -, h⟩ := bind_eq_ok_iff.mp h
  obtain ⟨number, hnumber, h⟩ := bind_eq_ok_iff.mp h
  rw [if_neg (not_not.mpr haccepted.representation)] at h
  cases h
  have hclass' : OccurrenceClass.fromCode
      (occurrence.withField c.lastField value).occurrenceClass = some c := hclass
  have hnumber' : (occurrence.withField c.lastField value).checkRevision = .ok revision := hnumber
  have hrepresentation : (occurrence.withField c.lastField value).representation ∈
      c.representations := haccepted.representation
  rw [validatedPrefix, hclass']
  simp only [hother, hharness, hpassed, hoid, hnumber', hrepresentation, bind, Except.bind,
    all_append, hfront, not_true_eq_false, if_false]
  cases hvalue : wellFormedValue value <;> simp [hvalue]

theorem lineageId_withField {front : List Text} {current : Text} {revision : Nat}
    (haccepted : Accepted occurrence c (front ++ [current]))
    (h : occurrence.validatedPrefix = .ok (c, identityPrefix c (front ++ [current]), revision))
    (hcheck : checksOnlyWellFormedness c c.lastField = true) (sha256 : Bytes → Bytes)
    (value : Text) :
    (lineageIdPreservingSpan sha256 (occurrence.withField c.lastField value)).toOption =
      if wellFormedValue value then
        some (identityDigest sha256
          (occurrence.lineageEncoding (identityPrefix c (front ++ [value]))))
      else none := by
  rw [lineageIdPreservingSpan, lineagePreservingSpan,
    validatedPrefix_withField haccepted h hcheck]
  split_ifs <;> rfl

theorem Accepted.identityPrefix_concat {front : List Text} {current : Text}
    (h : Accepted occurrence c (front ++ [current])) :
    occurrence.valueOf c.lastField = some current ∧
      ∃ opening, ∀ value, identityPrefix c (front ++ [value]) = opening ++ pushStr value := by
  obtain ⟨names, front', current', hfields, hvalues, hlength⟩ := h.concat
  obtain ⟨rfl, hcurrent⟩ := append_inj' hvalues rfl
  constructor
  · have hlookup := h.lookup
    rw [hfields, map_append, map_append] at hlookup
    have hlast := (append_inj hlookup (by simp [hlength])).2
    simpa using hlast
  · refine ⟨pushStr c.code ++ Framing.bigEndian 4 c.identityFields.length ++
      ((names.zip front).flatMap fun (field, value) => pushStr field ++ pushStr value) ++
      pushStr c.lastField, fun value => ?_⟩
    have hzip : c.identityFields.zip (front ++ [value]) =
        names.zip front ++ [(c.lastField, value)] := by
      rw [hfields, zip_append hlength.symm]
      rfl
    rw [identityPrefix, hzip]
    simp

end Occurrence

/-- The batched ids of an accepted occurrence are those of its identities one by one, up to the
first value that is refused; of a refused one there are none. -/
theorem batched_lineage_ids (hash : Hasher σ) (occurrence : Occurrence) (values : List Text) :
    lineageIdsVaryingLastField hash occurrence values =
      match occurrence.validatedPrefix with
      | .error _ => []
      | .ok (occurrenceClass, _) =>
        mapWhile (fun value => (lineageIdPreservingSpan hash.digest
          (occurrence.withField occurrenceClass.lastField value)).toOption) values := by
  unfold lineageIdsVaryingLastField
  cases hprefix : occurrence.validatedPrefix with
  | error reason => rfl
  | ok validated =>
    obtain ⟨c, bytes, revision⟩ := validated
    obtain ⟨values, haccepted, rfl, -⟩ := Occurrence.validatedPrefix_eq_ok hprefix
    obtain ⟨names, front, current, -, rfl, -⟩ := haccepted.concat
    obtain ⟨hcurrent, opening, hopening⟩ := haccepted.identityPrefix_concat
    -- The bytes before the varied value and those after it.
    let head := [encodingVersion, roleLineage] ++ opening
    let tail := pushStr occurrence.representation ++ spanEncoding occurrence.span
    have hencoded : ∀ value, occurrence.lineageEncoding (opening ++ pushStr value) =
        head ++ (pushStr value ++ tail) := by
      intro value
      simp [Occurrence.lineageEncoding, finish, head, tail]
    have hpushed : (pushStr current).length = 4 + (utf8 current).length := by
      rw [pushStr, Framing.field, length_append, Framing.length_bigEndian]
    have htail : (head ++ (pushStr current ++ tail)).length - 2 -
        (opening ++ pushStr current).length = tail.length := by
      simp only [head, length_append, length_cons, length_nil]
      omega
    have hhead : (head ++ (pushStr current ++ tail)).length - tail.length - 4 -
        (utf8 current).length = head.length := by
      simp only [length_append]
      omega
    have hcut : (head ++ (pushStr current ++ tail)).length - tail.length =
        (head ++ pushStr current).length := by
      simp only [length_append]
      omega
    simp only [hcurrent, Option.getD_some, hopening, hencoded, htail, hhead, take_left]
    split_ifs with hcheck
    · congr 1
      funext value
      rw [Occurrence.lineageId_withField haccepted hprefix hcheck, hopening, hencoded, hcut,
        ← append_assoc, drop_left]
      have hhashed := hash.finalize_updates [head, pushStr value, tail]
      simp only [foldl_cons, foldl_nil, flatten_cons, flatten_nil,
        append_nil] at hhashed
      rw [hhashed]
      rfl
    · rfl

/-- A hash that gives back what it was fed. -/
def echo : Hasher Bytes where
  new := []
  update := (· ++ ·)
  finalize := id
  digest := id
  finalize_updates pieces := by
    have hfold : ∀ (pieces : List Bytes) (fed : Bytes),
        pieces.foldl (· ++ ·) fed = fed ++ pieces.flatten := by
      intro pieces
      induction pieces with
      | nil => simp
      | cons piece pieces ih => simp [ih]
    exact hfold pieces []

def documentAt : Occurrence :=
  { occurrenceClass := "repository_documents".toList
    identity :=
      [("project_id".toList, "p".toList), ("repository_id".toList, "r".toList),
        ("relative_path".toList, "a".toList)]
    revision := "1".toList
    representation := "text".toList
    span := none }

/-- After a refused value no later one has its id, which it has on its own. -/
theorem batched_lineage_ids_stop :
    lineageIdsVaryingLastField echo documentAt [[], "b".toList] = [] ∧
      (lineageIdPreservingSpan echo.digest
        (documentAt.withField "relative_path".toList "b".toList)).isOk := by
  decide +kernel

end Eidnara.Kernel
