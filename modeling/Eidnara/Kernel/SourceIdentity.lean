import Eidnara.Lib.Checked
import Eidnara.Lib.Framing
import Eidnara.Lib.Utf8
import Mathlib.Data.List.Nodup
import Mathlib.Data.List.Perm.Subperm

/-!
# Occurrence identities

`source_identity.rs`: the tuple every projection consumer keys rows by, and the lineage
it belongs to.  Texts are lists of scalars; their lengths and encodings are those of
UTF-8.  SHA-256 is a parameter of which nothing is assumed.
-/

namespace Eidnara.Kernel

open Lib Utf8 List

abbrev Text := List Char

def encodingVersion : UInt8 := 2

def roleOccurrence : UInt8 := 0

def roleLineage : UInt8 := 1

def maxIdentityValueBytes : Nat := 512

inductive OccurrenceClass where
  | messages | canonicalClaims | promotedMemory | gitCommits | rawToolSpans | repositoryDocuments
deriving DecidableEq, Repr

namespace OccurrenceClass

def all : List OccurrenceClass :=
  [messages, canonicalClaims, promotedMemory, gitCommits, rawToolSpans, repositoryDocuments]

def code : OccurrenceClass → Text
  | messages => "messages".toList
  | canonicalClaims => "canonical_claims".toList
  | promotedMemory => "promoted_memory".toList
  | gitCommits => "git_commits".toList
  | rawToolSpans => "raw_tool_spans".toList
  | repositoryDocuments => "repository_documents".toList

def fromCode (code : Text) : Option OccurrenceClass := all.find? (·.code = code)

def identityFields : OccurrenceClass → List Text
  | messages =>
    ["project_id".toList, "harness".toList, "session_id".toList, "message_id".toList,
      "block_index".toList]
  | canonicalClaims => ["object_id".toList]
  | promotedMemory => ["decision_object_id".toList]
  | gitCommits => ["repository_id".toList, "object_format".toList, "oid".toList]
  | rawToolSpans =>
    ["project_id".toList, "harness".toList, "session_id".toList, "parent_message_id".toList,
      "tool_call_id".toList, "result_revision".toList, "block_index".toList]
  | repositoryDocuments => ["project_id".toList, "repository_id".toList, "relative_path".toList]

def representations : OccurrenceClass → List Text
  | messages => ["text".toList]
  | canonicalClaims => ["decision_summary".toList, "rationale".toList]
  | promotedMemory => ["summary".toList]
  | gitCommits => ["commit_message".toList]
  | rawToolSpans => ["tool_output".toList, "tool_error".toList]
  | repositoryDocuments => ["text".toList]

end OccurrenceClass

def harnesses : List Text := ["opencode".toList, "pi".toList]

/-- The object formats with the hex length of a complete object id. -/
def objectFormats : List (Text × Nat) := [("sha1".toList, 40), ("sha256".toList, 64)]

inductive OccurrenceRefusal where
  | unknownClass
  | missingIdentityField
  | unknownIdentityField
  | malformedIdentityValue
  | unknownHarness
  | malformedOid
  | missingRevision
  | malformedRevision
  | unknownRepresentation
deriving DecidableEq, Repr

/-- A byte range; `stop` is the source's `end`. -/
structure Span where
  start : UInt64
  stop : UInt64
deriving DecidableEq, Repr

structure Occurrence where
  occurrenceClass : Text
  identity : List (Text × Text)
  revision : Text
  representation : Text
  span : Option Span

structure EncodedOccurrence where
  occurrenceClass : OccurrenceClass
  tuple : Bytes
  occurrenceId : Bytes
  lineageId : Bytes
  revision : Nat
  span : Option Span

/-! ## Encoding -/

def pushStr (text : Text) : Bytes := Framing.field (utf8 text)

/-- A presence flag, then the two offsets. -/
def spanEncoding : Option Span → Bytes
  | none => [0]
  | some span =>
    1 :: (Framing.bigEndian 8 span.start.toNat ++ Framing.bigEndian 8 span.stop.toNat)

def finish (identityPart : Bytes) (role : UInt8) (tail : List Text) (span : Option Span) : Bytes :=
  [encodingVersion, role] ++ identityPart ++ tail.flatMap pushStr ++ spanEncoding span

/-- The bytes both the tuple and the lineage open with. -/
def identityPrefix (occurrenceClass : OccurrenceClass) (values : List Text) : Bytes :=
  pushStr occurrenceClass.code ++
    Framing.bigEndian 4 occurrenceClass.identityFields.length ++
    (occurrenceClass.identityFields.zip values).flatMap fun (field, value) =>
      pushStr field ++ pushStr value

/-! ## Checks -/

/-- `char::is_control`: the general category Cc. -/
def isControl (c : Char) : Bool :=
  c.toNat < 0x20 ∨ (0x7f ≤ c.toNat ∧ c.toNat < 0xa0)

def wellFormedValue (value : Text) : Bool :=
  !value.isEmpty && (utf8 value).length ≤ maxIdentityValueBytes &&
    ((utf8 value).all (fun byte => 0x20 ≤ byte ∧ byte < 0x7f) || !value.any isControl)

def isAsciiDigit (byte : UInt8) : Bool := 48 ≤ byte ∧ byte ≤ 57

/-- `str::parse` of ASCII digits as an `i64`. -/
def parseI64 (digits : Bytes) : Option Nat :=
  let value := digits.foldl (fun value digit => 10 * value + (digit.toNat - 48)) 0
  if value < 2 ^ 63 then some value else none

def canonicalRevision (revision : Text) : Option Nat :=
  let digits := utf8 revision
  if digits.isEmpty ∨ ¬ digits.all isAsciiDigit ∨
      (digits.length > 1 ∧ digits.head? = some 48) then
    none
  else parseI64 digits

def isLowerHexOid (value : Text) : Bool :=
  ((utf8 value).length = 40 ∨ (utf8 value).length = 64) &&
    (utf8 value).all fun byte => (48 ≤ byte ∧ byte ≤ 57) ∨ (97 ≤ byte ∧ byte ≤ 102)

namespace Occurrence

variable (occurrence : Occurrence)

def valueOf (name : Text) : Option Text :=
  (occurrence.identity.find? (·.1 = name)).map Prod.snd

/-- An identity in tuple order is taken as it is; any other order is searched. -/
def identityValues (fields : List Text) : Except OccurrenceRefusal (List Text) :=
  if occurrence.identity.map Prod.fst = fields then .ok (occurrence.identity.map Prod.snd)
  else
    match fields.mapM occurrence.valueOf with
    | none => .error .missingIdentityField
    | some values =>
      if occurrence.identity.length ≠ fields.length ∨
          occurrence.identity.any (fun (name, _) => name ∉ fields) then
        .error .unknownIdentityField
      else .ok values

def checkHarness (fields values : List Text) : Except OccurrenceRefusal Unit :=
  match fields.findIdx? (· = "harness".toList) with
  | none => .ok ()
  | some index =>
    match values[index]? with
    | none => .error .unknownHarness
    | some value => if value ∈ harnesses then .ok () else .error .unknownHarness

def checkOid (occurrenceClass : OccurrenceClass) (values : List Text) :
    Except OccurrenceRefusal Unit :=
  match occurrenceClass, values with
  | .gitCommits, [_, format, oid] =>
    match objectFormats.find? (·.1 = format) with
    | none => .error .malformedOid
    | some (_, expected) =>
      if (utf8 oid).length ≠ expected ∨ ¬ isLowerHexOid oid then .error .malformedOid
      else .ok ()
  | _, _ => .ok ()

def checkRevision : Except OccurrenceRefusal Nat :=
  if occurrence.revision.isEmpty then .error .missingRevision
  else
    match canonicalRevision occurrence.revision with
    | none => .error .malformedRevision
    | some revision => .ok revision

/-- Every check in refusal order, then the class, the identity prefix and the revision. -/
def validatedPrefix : Except OccurrenceRefusal (OccurrenceClass × Bytes × Nat) :=
  match OccurrenceClass.fromCode occurrence.occurrenceClass with
  | none => .error .unknownClass
  | some occurrenceClass => do
    let values ← occurrence.identityValues occurrenceClass.identityFields
    if ¬ values.all wellFormedValue then .error .malformedIdentityValue
    else
      checkHarness occurrenceClass.identityFields values
      checkOid occurrenceClass values
      let revision ← occurrence.checkRevision
      if occurrence.representation ∉ occurrenceClass.representations then
        .error .unknownRepresentation
      else .ok (occurrenceClass, identityPrefix occurrenceClass values, revision)

def occurrenceTuple (identityPart : Bytes) : Bytes :=
  finish identityPart roleOccurrence [occurrence.revision, occurrence.representation]
    occurrence.span

def lineageEncoding (identityPart : Bytes) : Bytes :=
  finish identityPart roleLineage [occurrence.representation] occurrence.span

end Occurrence

def hexDigits : List UInt8 := "0123456789abcdef".toList.map fun c => UInt8.ofNat c.toNat

def lowerHex (digest : Bytes) : Bytes :=
  digest.flatMap fun (byte : UInt8) =>
    [hexDigits.getD (byte.toNat / 16) 0, hexDigits.getD (byte.toNat % 16) 0]

def identityDigest (sha256 : Bytes → Bytes) (bytes : Bytes) : Bytes := lowerHex (sha256 bytes)

/-- What `lineage_id_preserving_span` hashes. -/
def lineagePreservingSpan (occurrence : Occurrence) : Except OccurrenceRefusal Bytes := do
  let (_, identityPart, _) ← occurrence.validatedPrefix
  .ok (occurrence.lineageEncoding identityPart)

def encodePreservingSpan (sha256 : Bytes → Bytes) (occurrence : Occurrence) :
    Except OccurrenceRefusal EncodedOccurrence := do
  let (occurrenceClass, identityPart, revision) ← occurrence.validatedPrefix
  let tuple := occurrence.occurrenceTuple identityPart
  let lineage := occurrence.lineageEncoding identityPart
  .ok
    { occurrenceClass
      tuple
      occurrenceId := identityDigest sha256 tuple
      lineageId := identityDigest sha256 lineage
      revision
      span := occurrence.span }

/-! ## What an accepted occurrence is -/

namespace OccurrenceClass

theorem code_injective {a b : OccurrenceClass} (h : a.code = b.code) : a = b := by
  revert h
  cases a <;> cases b <;> decide +kernel

theorem fromCode_eq_some {text : Text} {occurrenceClass : OccurrenceClass}
    (h : fromCode text = some occurrenceClass) : occurrenceClass.code = text := by
  simpa using find?_some h

theorem nodup_identityFields (occurrenceClass : OccurrenceClass) :
    occurrenceClass.identityFields.Nodup := by
  cases occurrenceClass <;> decide +kernel

theorem length_identityFields_lt (occurrenceClass : OccurrenceClass) :
    occurrenceClass.identityFields.length < 256 ^ 4 := by
  cases occurrenceClass <;> decide +kernel

theorem short_names (occurrenceClass : OccurrenceClass) :
    Framing.Short (utf8 occurrenceClass.code) ∧
      (∀ name ∈ occurrenceClass.identityFields, Framing.Short (utf8 name)) ∧
      ∀ name ∈ occurrenceClass.representations, Framing.Short (utf8 name) := by
  unfold Framing.Short
  cases occurrenceClass <;> decide +kernel

end OccurrenceClass

theorem short_of_wellFormedValue {value : Text} (h : wellFormedValue value = true) :
    Framing.Short (utf8 value) := by
  simp only [wellFormedValue, Bool.and_eq_true] at h
  have hlength : (utf8 value).length ≤ 512 := of_decide_eq_true h.1.2
  unfold Framing.Short
  omega

theorem pow_le_parsed (digits : Bytes) (value : Nat) :
    value * 10 ^ digits.length ≤
      digits.foldl (fun value digit => 10 * value + (digit.toNat - 48)) value := by
  induction digits generalizing value with
  | nil => simp
  | cons digit digits ih =>
    calc value * 10 ^ (digits.length + 1)
        = 10 * value * 10 ^ digits.length := by rw [Nat.pow_succ', Nat.mul_left_comm, Nat.mul_assoc]
      _ ≤ (10 * value + (digit.toNat - 48)) * 10 ^ digits.length :=
          Nat.mul_le_mul_right _ (Nat.le_add_right _ _)
      _ ≤ _ := ih _

theorem short_of_canonicalRevision {revision : Text} {value : Nat}
    (h : canonicalRevision revision = some value) : Framing.Short (utf8 revision) := by
  rw [canonicalRevision] at h
  split_ifs at h with hrefused
  obtain ⟨-, hdigits, hzero⟩ := not_or.mp hrefused |>.imp_right not_or.mp
  unfold Framing.Short
  cases hbytes : utf8 revision with
  | nil => decide
  | cons first rest =>
    rw [hbytes] at h hdigits hzero
    by_contra hlong
    have hfirst : 1 ≤ first.toNat - 48 := by
      have hne : first ≠ 48 := by
        intro hfirst
        exact hzero ⟨by simp only [length_cons] at hlong ⊢; omega, by rw [hfirst]; rfl⟩
      have hdigit : isAsciiDigit first = true := by
        simp only [not_not, all_cons, Bool.and_eq_true] at hdigits
        exact hdigits.1
      simp only [isAsciiDigit, decide_eq_true_eq, UInt8.le_iff_toNat_le] at hdigit
      have hlow : (48 : UInt8).toNat = 48 := rfl
      have hne' : first.toNat ≠ 48 := fun hfirst => hne (UInt8.toNat.inj (by rw [hfirst, hlow]))
      omega
    have hrest : 19 ≤ rest.length := by
      simp only [length_cons] at hlong
      omega
    have hlarge := pow_le_parsed rest (first.toNat - 48)
    have hpow : 10 ^ 19 ≤ (first.toNat - 48) * 10 ^ rest.length :=
      (Nat.pow_le_pow_right (by decide) hrest).trans (Nat.le_mul_of_pos_left _ hfirst)
    simp only [parseI64, foldl_cons, Nat.mul_zero, Nat.zero_add] at h
    rw [if_neg (by omega)] at h
    cases h

namespace Occurrence

variable {occurrence : Occurrence}

theorem valueOf_of_mem {pair : Text × Text} (hnodup : (occurrence.identity.map Prod.fst).Nodup)
    (hpair : pair ∈ occurrence.identity) : occurrence.valueOf pair.1 = some pair.2 := by
  rw [valueOf, find?_of_unique hpair (decide_eq_true rfl) fun other hother hname =>
    inj_on_of_nodup_map hnodup hother hpair (of_decide_eq_true hname)]
  rfl

theorem valueOf_eq_none {name : Text} (h : name ∉ occurrence.identity.map Prod.fst) :
    occurrence.valueOf name = none := by
  rw [valueOf, Option.map_eq_none_iff, find?_eq_none]
  intro pair hpair
  have hne : pair.1 ≠ name := fun heq => h (heq ▸ mem_map_of_mem hpair)
  simpa using hne

/-- Either way the values are those of the fields, and the identity names each field once. -/
theorem identityValues_eq_ok {names values : List Text} (hnames : names.Nodup)
    (h : occurrence.identityValues names = .ok values) :
    (occurrence.identity.map Prod.fst).Perm names ∧
      names.map occurrence.valueOf = values.map some := by
  rw [identityValues] at h
  by_cases horder : occurrence.identity.map Prod.fst = names
  · rw [if_pos horder] at h
    cases h
    refine ⟨horder ▸ .refl _, ?_⟩
    rw [← horder, map_map, map_map]
    exact map_congr_left fun pair hpair => valueOf_of_mem (horder ▸ hnames) hpair
  · rw [if_neg horder] at h
    split at h
    · cases h
    · rename_i hfound
      split_ifs at h with hforeign
      cases h
      obtain ⟨hlength, -⟩ := not_or.mp hforeign
      have hvalues := mapM_eq_some_iff.mp hfound
      refine ⟨.symm ?_, hvalues⟩
      refine (subperm_of_subset hnames fun name hname => ?_).perm_of_length_le ?_
      · by_contra hmissing
        have hmem := mem_map_of_mem (f := occurrence.valueOf) hname
        rw [hvalues, valueOf_eq_none hmissing] at hmem
        simp at hmem
      · rw [length_map, not_not.mp hlength]

theorem canonicalRevision_of_checkRevision {revision : Nat}
    (h : occurrence.checkRevision = .ok revision) :
    canonicalRevision occurrence.revision = some revision := by
  rw [checkRevision] at h
  split_ifs at h
  split at h
  · cases h
  · cases h
    assumption

structure Accepted (occurrence : Occurrence) (occurrenceClass : OccurrenceClass)
    (values : List Text) : Prop where
  code : occurrenceClass.code = occurrence.occurrenceClass
  names : (occurrence.identity.map Prod.fst).Perm occurrenceClass.identityFields
  lookup : occurrenceClass.identityFields.map occurrence.valueOf = values.map some
  wellFormed : ∀ value ∈ values, wellFormedValue value = true
  revision : Framing.Short (utf8 occurrence.revision)
  representation : occurrence.representation ∈ occurrenceClass.representations

theorem validatedPrefix_eq_ok {occurrenceClass : OccurrenceClass} {bytes : Bytes} {revision : Nat}
    (h : occurrence.validatedPrefix = .ok (occurrenceClass, bytes, revision)) :
    ∃ values, Accepted occurrence occurrenceClass values ∧
      bytes = identityPrefix occurrenceClass values ∧
      canonicalRevision occurrence.revision = some revision := by
  rw [validatedPrefix] at h
  split at h
  · cases h
  · rename_i hclass
    obtain ⟨values, hvalues, h⟩ := bind_eq_ok_iff.mp h
    by_cases hmalformed : ¬ values.all wellFormedValue = true
    · rw [if_pos hmalformed] at h
      cases h
    rw [if_neg hmalformed] at h
    obtain ⟨-, -, h⟩ := bind_eq_ok_iff.mp h
    obtain ⟨-, -, h⟩ := bind_eq_ok_iff.mp h
    obtain ⟨number, hnumber, h⟩ := bind_eq_ok_iff.mp h
    split_ifs at h with hrepresentation
    cases h
    obtain ⟨hnames, hlookup⟩ := identityValues_eq_ok occurrenceClass.nodup_identityFields hvalues
    have hcanonical := canonicalRevision_of_checkRevision hnumber
    exact ⟨values,
      { code := OccurrenceClass.fromCode_eq_some hclass
        names := hnames
        lookup := hlookup
        wellFormed := all_eq_true.mp (not_not.mp hmalformed)
        revision := short_of_canonicalRevision hcanonical
        representation := hrepresentation }, rfl, hcanonical⟩

namespace Accepted

variable {a b : Occurrence} {c d : OccurrenceClass} {values values' : List Text}

theorem length_values (h : Accepted a c values) : values.length = c.identityFields.length := by
  simpa using (congrArg List.length h.lookup).symm

theorem valueOf_eq_iff (ha : Accepted a c values) (hb : Accepted b c values') :
    a.valueOf = b.valueOf ↔ values = values' := by
  constructor
  · intro h
    have hvalues := ha.lookup
    rw [h, hb.lookup] at hvalues
    exact (map_injective_iff.mpr (fun _ _ => Option.some.inj) hvalues).symm
  · rintro rfl
    funext name
    by_cases hname : name ∈ c.identityFields
    · exact map_inj_left.mp (ha.lookup.trans hb.lookup.symm) name hname
    · rw [valueOf_eq_none (fun h => hname (ha.names.subset h)),
        valueOf_eq_none (fun h => hname (hb.names.subset h))]

theorem class_eq_iff (ha : Accepted a c values) (hb : Accepted b d values') :
    a.occurrenceClass = b.occurrenceClass ↔ c = d := by
  rw [← ha.code, ← hb.code]
  exact ⟨OccurrenceClass.code_injective, congrArg _⟩

end Accepted

end Occurrence

/-! ## The encodings can be read in one way -/

theorem pushStr_append_inj {a b : Text} {rest rest' : Bytes} (ha : Framing.Short (utf8 a))
    (hb : Framing.Short (utf8 b)) :
    pushStr a ++ rest = pushStr b ++ rest' ↔ a = b ∧ rest = rest' := by
  rw [pushStr, pushStr, Framing.field_append_inj ha hb, utf8_inj]

theorem spanEncoding_injective : Function.Injective spanEncoding := by
  intro a b h
  have hbound : ∀ offset : UInt64, offset.toNat < 256 ^ 8 := fun offset => offset.toNat_lt
  match a, b with
  | none, none => rfl
  | none, some _ => cases h
  | some _, none => cases h
  | some ⟨start, stop⟩, some ⟨start', stop'⟩ =>
    obtain ⟨hstart, hstop⟩ :=
      (Framing.bigEndian_append_inj (hbound start) (hbound start')).mp (List.cons.inj h).2
    have hstop' := Framing.bigEndian_injective (hbound stop) (hbound stop') hstop
    rw [UInt64.toNat.inj hstart, UInt64.toNat.inj hstop']

theorem pairs_append_inj {names values values' : List Text} {rest rest' : Bytes}
    (hnames : ∀ name ∈ names, Framing.Short (utf8 name))
    (hlength : values.length = names.length) (hlength' : values'.length = names.length)
    (hvalues : ∀ value ∈ values, Framing.Short (utf8 value))
    (hvalues' : ∀ value ∈ values', Framing.Short (utf8 value)) :
    ((names.zip values).flatMap fun (name, value) => pushStr name ++ pushStr value) ++ rest =
        ((names.zip values').flatMap fun (name, value) => pushStr name ++ pushStr value) ++ rest' ↔
      values = values' ∧ rest = rest' := by
  induction names generalizing values values' with
  | nil =>
    obtain rfl := eq_nil_of_length_eq_zero hlength
    obtain rfl := eq_nil_of_length_eq_zero hlength'
    simp
  | cons name names ih =>
    obtain ⟨value, values, rfl⟩ := exists_cons_of_length_eq_add_one hlength
    obtain ⟨value', values', rfl⟩ := exists_cons_of_length_eq_add_one hlength'
    rw [forall_mem_cons] at hnames hvalues hvalues'
    simp only [zip_cons_cons, flatMap_cons, append_assoc]
    rw [pushStr_append_inj hnames.1 hnames.1, pushStr_append_inj hvalues.1 hvalues'.1,
      ih hnames.2 (Nat.succ.inj hlength) (Nat.succ.inj hlength') hvalues.2 hvalues'.2,
      List.cons.injEq, and_assoc]
    simp

namespace Occurrence.Accepted

variable {a b : Occurrence} {c d : OccurrenceClass} {values values' : List Text}

theorem short_values (h : Accepted a c values) : ∀ value ∈ values, Framing.Short (utf8 value) :=
  fun value hvalue => short_of_wellFormedValue (h.wellFormed value hvalue)

theorem identityPrefix_append_inj (ha : Accepted a c values) (hb : Accepted b d values')
    {rest rest' : Bytes} :
    identityPrefix c values ++ rest = identityPrefix d values' ++ rest' ↔
      (a.occurrenceClass = b.occurrenceClass ∧ a.valueOf = b.valueOf) ∧ rest = rest' := by
  simp only [identityPrefix, append_assoc]
  rw [pushStr_append_inj c.short_names.1 d.short_names.1, class_eq_iff ha hb]
  constructor
  · rintro ⟨hcode, hrest⟩
    obtain rfl := OccurrenceClass.code_injective hcode
    rw [Framing.bigEndian_append_inj c.length_identityFields_lt c.length_identityFields_lt,
      pairs_append_inj c.short_names.2.1 ha.length_values hb.length_values ha.short_values
        hb.short_values] at hrest
    exact ⟨⟨rfl, (valueOf_eq_iff ha hb).mpr hrest.2.1⟩, hrest.2.2⟩
  · rintro ⟨⟨rfl, hidentity⟩, rfl⟩
    rw [(valueOf_eq_iff ha hb).mp hidentity]
    exact ⟨rfl, rfl⟩

theorem occurrenceTuple_inj (ha : Accepted a c values) (hb : Accepted b d values') :
    a.occurrenceTuple (identityPrefix c values) = b.occurrenceTuple (identityPrefix d values') ↔
      a.occurrenceClass = b.occurrenceClass ∧ a.valueOf = b.valueOf ∧ a.revision = b.revision ∧
        a.representation = b.representation ∧ a.span = b.span := by
  have hshort := c.short_names.2.2 _ ha.representation
  have hshort' := d.short_names.2.2 _ hb.representation
  simp only [occurrenceTuple, finish, append_assoc, append_cancel_left_eq,
    flatMap_cons, flatMap_nil, nil_append]
  rw [identityPrefix_append_inj ha hb, pushStr_append_inj ha.revision hb.revision,
    pushStr_append_inj hshort hshort', spanEncoding_injective.eq_iff, and_assoc]

theorem lineageEncoding_inj (ha : Accepted a c values) (hb : Accepted b d values') :
    a.lineageEncoding (identityPrefix c values) = b.lineageEncoding (identityPrefix d values') ↔
      a.occurrenceClass = b.occurrenceClass ∧ a.valueOf = b.valueOf ∧
        a.representation = b.representation ∧ a.span = b.span := by
  have hshort := c.short_names.2.2 _ ha.representation
  have hshort' := d.short_names.2.2 _ hb.representation
  simp only [lineageEncoding, finish, append_assoc, append_cancel_left_eq,
    flatMap_cons, flatMap_nil, nil_append]
  rw [identityPrefix_append_inj ha hb, pushStr_append_inj hshort hshort',
    spanEncoding_injective.eq_iff, and_assoc]

end Occurrence.Accepted

theorem lineageEncoding_ne_occurrenceTuple (a b : Occurrence) (bytes bytes' : Bytes) :
    a.lineageEncoding bytes ≠ b.occurrenceTuple bytes' := by
  intro h
  have hrole := (List.cons.inj (List.cons.inj h).2).1
  exact absurd hrole (by decide)

theorem encodePreservingSpan_eq_ok {sha256 : Bytes → Bytes} {occurrence : Occurrence}
    {encoded : EncodedOccurrence} (h : encodePreservingSpan sha256 occurrence = .ok encoded) :
    ∃ values lineage,
      occurrence.Accepted encoded.occurrenceClass values ∧
      encoded.tuple = occurrence.occurrenceTuple (identityPrefix encoded.occurrenceClass values) ∧
      lineage = occurrence.lineageEncoding (identityPrefix encoded.occurrenceClass values) ∧
      lineagePreservingSpan occurrence = .ok lineage ∧
      encoded.occurrenceId = identityDigest sha256 encoded.tuple ∧
      encoded.lineageId = identityDigest sha256 lineage := by
  obtain ⟨⟨occurrenceClass, bytes, revision⟩, hprefix, h⟩ := bind_eq_ok_iff.mp h
  cases h
  obtain ⟨values, haccepted, rfl, -⟩ := Occurrence.validatedPrefix_eq_ok hprefix
  refine ⟨values, _, haccepted, rfl, rfl, ?_, rfl, rfl⟩
  rw [lineagePreservingSpan, hprefix]
  rfl

/-- Accepted occurrences have one tuple exactly when they agree in everything, and one
lineage exactly when they agree in everything but the revision; no lineage is a tuple.
The identity is the map from names to values. -/
theorem encodings_injective {sha256 : Bytes → Bytes} {a b : Occurrence}
    {encoded encoded' : EncodedOccurrence} (ha : encodePreservingSpan sha256 a = .ok encoded)
    (hb : encodePreservingSpan sha256 b = .ok encoded') :
    ∃ lineage lineage',
      lineagePreservingSpan a = .ok lineage ∧ lineagePreservingSpan b = .ok lineage' ∧
      encoded.occurrenceId = identityDigest sha256 encoded.tuple ∧
      encoded.lineageId = identityDigest sha256 lineage ∧
      (encoded.tuple = encoded'.tuple ↔
        a.occurrenceClass = b.occurrenceClass ∧ a.valueOf = b.valueOf ∧
          a.revision = b.revision ∧ a.representation = b.representation ∧ a.span = b.span) ∧
      (lineage = lineage' ↔
        a.occurrenceClass = b.occurrenceClass ∧ a.valueOf = b.valueOf ∧
          a.representation = b.representation ∧ a.span = b.span) ∧
      lineage ≠ encoded'.tuple := by
  obtain ⟨values, lineage, haccepted, htuple, rfl, hlineage, hid, hlineageId⟩ :=
    encodePreservingSpan_eq_ok ha
  obtain ⟨values', lineage', hbccepted, htuple', rfl, hlineage', -, -⟩ :=
    encodePreservingSpan_eq_ok hb
  refine ⟨_, _, hlineage, hlineage', hid, hlineageId, ?_, ?_, ?_⟩
  · rw [htuple, htuple']
    exact haccepted.occurrenceTuple_inj hbccepted
  · exact haccepted.lineageEncoding_inj hbccepted
  · rw [htuple']
    exact lineageEncoding_ne_occurrenceTuple _ _ _ _

/-- A commit at revision 7, its fields not in tuple order. -/
def commitShuffled : Occurrence :=
  { occurrenceClass := "git_commits".toList
    identity :=
      [("oid".toList, List.replicate 40 'a'), ("repository_id".toList, "r".toList),
        ("object_format".toList, "sha1".toList)]
    revision := "7".toList
    representation := "commit_message".toList
    span := none }

/-- The same commit in tuple order at revision 8, of which bytes 2 to 5 are selected. -/
def commitSpan : Occurrence :=
  { commitShuffled with
    identity :=
      [("repository_id".toList, "r".toList), ("object_format".toList, "sha1".toList),
        ("oid".toList, List.replicate 40 'a')]
    revision := "8".toList
    span := some ⟨2, 5⟩ }

def commitPrefix : Bytes :=
  identityPrefix .gitCommits ["r".toList, "sha1".toList, List.replicate 40 'a']

theorem encodings_injective_commits :
    ∃ lineage lineage',
      lineagePreservingSpan commitShuffled = .ok lineage ∧
      lineagePreservingSpan commitSpan = .ok lineage' ∧
      commitShuffled.occurrenceTuple commitPrefix ≠ commitSpan.occurrenceTuple commitPrefix ∧
      lineage ≠ lineage' ∧ lineage ≠ commitSpan.occurrenceTuple commitPrefix := by
  have ha : encodePreservingSpan id commitShuffled = .ok
      { occurrenceClass := .gitCommits
        tuple := commitShuffled.occurrenceTuple commitPrefix
        occurrenceId := identityDigest id (commitShuffled.occurrenceTuple commitPrefix)
        lineageId := identityDigest id (commitShuffled.lineageEncoding commitPrefix)
        revision := 7
        span := none } := by rfl
  have hb : encodePreservingSpan id commitSpan = .ok
      { occurrenceClass := .gitCommits
        tuple := commitSpan.occurrenceTuple commitPrefix
        occurrenceId := identityDigest id (commitSpan.occurrenceTuple commitPrefix)
        lineageId := identityDigest id (commitSpan.lineageEncoding commitPrefix)
        revision := 8
        span := some ⟨2, 5⟩ } := by rfl
  obtain ⟨lineage, lineage', hlineage, hlineage', -, -, htuple, hlineages, hroles⟩ :=
    encodings_injective ha hb
  have hspan : commitShuffled.span ≠ commitSpan.span := by decide
  exact ⟨lineage, lineage', hlineage, hlineage', fun h => hspan (htuple.mp h).2.2.2.2,
    fun h => hspan (hlineages.mp h).2.2.2, hroles⟩

end Eidnara.Kernel
