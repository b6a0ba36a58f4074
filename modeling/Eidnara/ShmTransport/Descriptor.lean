import Eidnara.ShmTransport.Pool

/-!
# Descriptors and completions

`descriptor.rs`: what a receiver checks of a descriptor copied from shared memory, and
what the producer ledger checks of a completion.
-/

namespace Eidnara.ShmTransport

open Lib

inductive DescriptorError where
  | randomSourceUnavailable
  | invalidHardwareProfile
  | invalidSequence
  | invalidBlock
  | invalidGeneration
  | frameTooLarge
  | bodyExceedsBlock
  | overflow
  | wireHeaderMismatch
  | staleCompletion
  | futureCompletion
  | duplicateLiveBlock
  | nonIncreasingGeneration
deriving DecidableEq, Repr

/-- The bytes of a wire header. -/
abbrev WireHeader := Vector UInt8 20

def WireHeader.declaredLen (header : WireHeader) : Nat :=
  header[0].toNat + 256 * header[1].toNat + 65536 * header[2].toNat + 16777216 * header[3].toNat

def checkWireHeader (header : WireHeader) (bodyLen : Nat) : Except DescriptorError Unit :=
  if header.declaredLen ≠ bodyLen then .error .wireHeaderMismatch else .ok ()

structure PayloadIdentity where
  incarnation : Vector UInt8 16
  lane : Nat
  block : Nat
  generation : Nat
deriving DecidableEq

structure PoolDescriptor where
  sequence : Nat
  block : Nat
  generation : Nat
  bodyLen : Nat
deriving DecidableEq, Repr

/-- A descriptor whose block exists and holds its body. -/
structure ValidatedDescriptor (geometry : PoolGeometry) where
  sequence : Nat
  block : Nat
  generation : Nat
  bodyLen : Nat
  placement : BlockPlacement
  placed : geometry.placement block = some placement
  generation_ne : generation ≠ 0
  body_le : bodyLen ≤ placement.bodyCapacity

/-- `PoolDescriptor::validate`; the first failed check is the answer. -/
def PoolDescriptor.validate (descriptor : PoolDescriptor) (expectedSequence : Nat)
    (geometry : PoolGeometry) : Except DescriptorError (ValidatedDescriptor geometry) :=
  if descriptor.sequence = 0 ∨ descriptor.sequence ≠ expectedSequence then
    .error .invalidSequence
  else if descriptor.block ≥ 2 ^ 32 then .error .invalidBlock
  else
    match hplaced : geometry.placement descriptor.block with
    | none => .error .invalidBlock
    | some placement =>
      if hgeneration : descriptor.generation = 0 then .error .invalidGeneration
      else if descriptor.bodyLen > maxFrameBytes then .error .frameTooLarge
      else if hbody : descriptor.bodyLen > placement.bodyCapacity then
        .error .bodyExceedsBlock
      else
        match (checkedAdd 64 placement.offset wireHeaderBytes).bind
            (checkedAdd 64 · descriptor.bodyLen) with
        | none => .error .overflow
        | some _ =>
          .ok
            { sequence := descriptor.sequence
              block := descriptor.block
              generation := descriptor.generation
              bodyLen := descriptor.bodyLen
              placement
              placed := hplaced
              generation_ne := hgeneration
              body_le := Nat.not_lt.mp hbody }

structure CompletionRecord where
  block : Nat
  generation : Nat
deriving DecidableEq, Repr

/-- `CompletionRecord::validate`; `live` is the generation outstanding on the block. -/
def CompletionRecord.validate (record : CompletionRecord) (geometry : PoolGeometry)
    (live : Option Nat) : Except DescriptorError Nat :=
  if record.block ≥ 2 ^ 32 then .error .invalidBlock
  else if !geometry.contains record.block then .error .invalidBlock
  else if record.generation = 0 then .error .invalidGeneration
  else
    match live with
    | none => .error .futureCompletion
    | some live =>
      if record.generation > live then .error .futureCompletion
      else if record.generation < live then .error .staleCompletion
      else .ok record.block

/-! ## What is accepted -/

theorem CompletionRecord.validate_ok {geometry : PoolGeometry} {block generation live freed : Nat}
    (h : CompletionRecord.validate ⟨block, generation⟩ geometry (some live) = .ok freed) :
    freed = block ∧ block < geometry.blockCount ∧ generation = live ∧ generation ≠ 0 := by
  unfold CompletionRecord.validate at h
  split_ifs at h with hwide hcontains hzero
  · simp only at h
    split_ifs at h with hfuture hstale
    cases h
    have hblock : geometry.contains block = true := by simpa using hcontains
    have hlt : block < geometry.blockCount := of_decide_eq_true hblock
    exact ⟨rfl, hlt, by omega, hzero⟩

end Eidnara.ShmTransport
