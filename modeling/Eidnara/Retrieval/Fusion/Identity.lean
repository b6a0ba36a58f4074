import Eidnara.Kernel.SourceIdentity
import Eidnara.Retrieval.Fusion.Rrf

/-!
# Selection and preparation digests

`fusion/identity.rs`: the bytes the two digests are taken of.  Every sequence is preceded by
its count and every component by its length, so the bytes can be read in only one way.
-/

namespace Eidnara.Retrieval.Fusion

open Lib Utf8 Eidnara.Kernel

/-- A 32-byte digest, as `digest_identity!` declares it. -/
abbrev Digest := Vector UInt8 32

/-- A `token_identity!`: only a well-formed value parses. -/
structure Token where
  value : Text
  wellFormed : wellFormedValue value = true

theorem Token.ext_value {a b : Token} (h : a.value = b.value) : a = b := by
  cases a
  cases b
  cases h
  rfl

/-- A slice, whose length is a `usize`. -/
abbrev Slice (α : Type*) := { items : List α // items.length < 2 ^ 64 }

structure SelectedSpan where
  occurrence : Digest
  span : Option Kernel.Span

structure PreparationInputs where
  context : Token
  representation : Token
  spans : Slice SelectedSpan
  selection : Digest
  profileIdentity : Token
  profileRevision : Token

namespace Derivation

def new (domain : Text) : Bytes := utf8 domain ++ [0]

def component (bytes : Bytes) : Bytes := Framing.bigEndian 8 bytes.length ++ bytes

def count (n : Nat) : Bytes := Framing.bigEndian 8 n

end Derivation

open Eidnara.Retrieval.Fusion.Derivation

def selectionDomain : Text := "eidnara-retrieval-selection-v1".toList

def preparationDomain : Text := "eidnara-retrieval-prepared-context-v1".toList

/-- What `SelectionDigest::derive` feeds to the hash. -/
def selectionInput (selection : Slice Digest) : Bytes :=
  new selectionDomain ++ count selection.1.length ++
    selection.1.flatMap fun occurrence => component occurrence.toList

def selectedSpanInput (selected : SelectedSpan) : Bytes :=
  component selected.occurrence.toList ++ component (spanEncoding selected.span)

/-- What `PreparationDigest::derive` feeds to the hash. -/
def preparationInput (inputs : PreparationInputs) : Bytes :=
  new preparationDomain ++ component (utf8 inputs.context.value) ++
    component (utf8 inputs.representation.value) ++ count inputs.spans.1.length ++
    inputs.spans.1.flatMap selectedSpanInput ++ component inputs.selection.toList ++
    component (utf8 inputs.profileIdentity.value) ++
    component (utf8 inputs.profileRevision.value)

/-! ## Reading the components back -/

variable {rest rest' : Bytes}

theorem component_append_inj {a b : Bytes} (ha : a.length < 256 ^ 8) (hb : b.length < 256 ^ 8)
    (h : component a ++ rest = component b ++ rest') : a = b ∧ rest = rest' := by
  simp only [component, List.append_assoc] at h
  obtain ⟨hlength, hrest⟩ := (Framing.bigEndian_append_inj ha hb).mp h
  exact List.append_inj hrest hlength

theorem digest_append_inj {a b : Digest}
    (h : component a.toList ++ rest = component b.toList ++ rest') : a = b ∧ rest = rest' := by
  have hshort : ∀ digest : Digest, digest.toList.length < 256 ^ 8 := by simp
  obtain ⟨hdigest, hrest⟩ := component_append_inj (hshort a) (hshort b) h
  exact ⟨Vector.toList_inj.mp hdigest, hrest⟩

theorem token_append_inj {a b : Token}
    (h : component (utf8 a.value) ++ rest = component (utf8 b.value) ++ rest') :
    a = b ∧ rest = rest' := by
  have hshort : ∀ token : Token, (utf8 token.value).length < 256 ^ 8 := fun token =>
    (short_of_wellFormedValue token.wellFormed).trans (by decide)
  obtain ⟨hvalue, hrest⟩ := component_append_inj (hshort a) (hshort b) h
  exact ⟨Token.ext_value (utf8_inj.mp hvalue), hrest⟩

theorem selectedSpan_append_inj {a b : SelectedSpan}
    (h : selectedSpanInput a ++ rest = selectedSpanInput b ++ rest') : a = b ∧ rest = rest' := by
  have hshort : ∀ span : Option Kernel.Span, (spanEncoding span).length < 256 ^ 8 := by
    rintro (_ | span)
    · simp [spanEncoding]
    · simp [spanEncoding, Framing.length_bigEndian]
  simp only [selectedSpanInput, List.append_assoc] at h
  obtain ⟨hoccurrence, htail⟩ := digest_append_inj h
  obtain ⟨hspan, hrest⟩ := component_append_inj (hshort a.span) (hshort b.span) htail
  cases a
  cases b
  exact ⟨SelectedSpan.mk.injEq .. ▸ ⟨hoccurrence, spanEncoding_injective hspan⟩, hrest⟩

/-- A counted sequence whose items can each be read off the front. -/
theorem counted_append_inj {α : Type*} {encode : α → Bytes}
    (hencode : ∀ {a b rest rest'}, encode a ++ rest = encode b ++ rest' → a = b ∧ rest = rest')
    {xs ys : Slice α}
    (h : count xs.1.length ++ (xs.1.flatMap encode ++ rest) =
      count ys.1.length ++ (ys.1.flatMap encode ++ rest')) :
    xs = ys ∧ rest = rest' := by
  obtain ⟨hlength, hitems⟩ := (Framing.bigEndian_append_inj xs.2 ys.2).mp h
  obtain ⟨hxs, hrest⟩ := Framing.flatMap_append_inj hencode hlength hitems
  exact ⟨Subtype.ext hxs, hrest⟩

theorem selectionInput_injective : Function.Injective selectionInput := by
  intro a b h
  simp only [selectionInput, List.append_assoc] at h
  have hcounted := congrArg (· ++ []) (List.append_cancel_left h)
  simp only [List.append_assoc] at hcounted
  exact (counted_append_inj digest_append_inj hcounted).1

theorem preparationInput_injective : Function.Injective preparationInput := by
  intro a b h
  simp only [preparationInput, List.append_assoc] at h
  obtain ⟨hcontext, h⟩ := token_append_inj (List.append_cancel_left h)
  obtain ⟨hrepresentation, h⟩ := token_append_inj h
  obtain ⟨hspans, h⟩ := counted_append_inj selectedSpan_append_inj h
  obtain ⟨hselection, h⟩ := digest_append_inj h
  obtain ⟨hidentity, h⟩ := token_append_inj h
  obtain ⟨hrevision, -⟩ := token_append_inj (congrArg (· ++ []) h)
  cases a
  cases b
  simp_all only

/-- The domains differ within their first nineteen bytes. -/
theorem preparationInput_ne_selectionInput (inputs : PreparationInputs)
    (selection : Slice Digest) : preparationInput inputs ≠ selectionInput selection := by
  intro h
  have htake := congrArg (List.take 19) h
  simp only [preparationInput, selectionInput, new, List.append_assoc] at htake
  rw [List.take_append_of_le_length (by decide +kernel),
    List.take_append_of_le_length (by decide +kernel)] at htake
  exact absurd htake (by decide +kernel)

/-- Both digests bind their whole input: the bytes fed to the hash determine every field, with
the number and order of occurrences and spans and whether each span is there, and no
preparation is fed as a selection is. -/
theorem digest_inputs_bind :
    (∀ a b : Slice Digest, selectionInput a = selectionInput b ↔ a = b) ∧
      (∀ a b : PreparationInputs, preparationInput a = preparationInput b ↔ a = b) ∧
      ∀ inputs selection, preparationInput inputs ≠ selectionInput selection :=
  ⟨fun _ _ => selectionInput_injective.eq_iff, fun _ _ => preparationInput_injective.eq_iff,
    preparationInput_ne_selectionInput⟩

def sampleDigest : Digest := Vector.replicate 32 7

/-- One occurrence, prepared as a whole or in part. -/
def samplePreparation (span : Option Kernel.Span) : PreparationInputs where
  context := ⟨['c'], by decide⟩
  representation := ⟨['r'], by decide⟩
  spans := ⟨[⟨sampleDigest, span⟩], by simp⟩
  selection := sampleDigest
  profileIdentity := ⟨['p'], by decide⟩
  profileRevision := ⟨['1'], by decide⟩

theorem digest_inputs_bind_sample :
    preparationInput (samplePreparation none) ≠
      preparationInput (samplePreparation (some ⟨0, 1⟩)) := by
  rw [ne_eq, digest_inputs_bind.2.1]
  intro h
  have hspans := congrArg (fun inputs => inputs.spans.1.map SelectedSpan.span) h
  simp [samplePreparation] at hspans

/-- The occurrence ranked by two lanes, or by one and at another place. -/
def rankedTwice : FusedEntry Digest Nat Nat :=
  ⟨sampleDigest, 1, 0, fun lane =>
    if lane = .exact then some ⟨1, .exact⟩ else if lane = .dense then some ⟨1, .dense 5⟩ else none⟩

def rankedOnce : FusedEntry Digest Nat Nat :=
  ⟨sampleDigest, 1, 0, fun lane => if lane = .dense then some ⟨2, .dense 5⟩ else none⟩

/-- Neither which lanes rank an occurrence nor where they do is fed to the hash. -/
theorem selectionInput_skips_lanes :
    rankedTwice.contributions .exact ≠ none ∧ rankedOnce.contributions .exact = none ∧
      (rankedTwice.contributions .dense).map LaneContribution.position = some 1 ∧
      (rankedOnce.contributions .dense).map LaneContribution.position = some 2 ∧
      selectionInput ⟨[rankedTwice.occurrence], Nat.one_lt_two_pow (by decide)⟩ =
        selectionInput ⟨[rankedOnce.occurrence], Nat.one_lt_two_pow (by decide)⟩ :=
  ⟨by decide, rfl, rfl, rfl, rfl⟩

end Eidnara.Retrieval.Fusion
