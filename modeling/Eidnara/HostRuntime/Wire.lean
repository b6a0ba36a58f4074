/-!
# The wire header

`EnvelopeHeader` and `decode_header` of `wire.rs`: every field is validated
before a header is accepted, in the order of the source.
-/

namespace Eidnara.HostRuntime

def headerLen : Nat := 20

inductive FrameType where
  | request | response | push | streamData | streamEnd | error
  | cancel | ping | pong | hello | helloAck | goodbye
deriving DecidableEq, Repr

namespace FrameType

def fromU8 : UInt8 → Option FrameType
  | 0 => some request
  | 1 => some response
  | 2 => some push
  | 3 => some streamData
  | 4 => some streamEnd
  | 5 => some error
  | 6 => some cancel
  | 7 => some ping
  | 8 => some pong
  | 9 => some hello
  | 10 => some helloAck
  | 11 => some goodbye
  | _ => none

def isPureHeader : FrameType → Bool
  | cancel | ping | pong | goodbye => true
  | _ => false

end FrameType

inductive Priority where
  | passive | interactive | background
deriving DecidableEq, Repr

def Priority.fromBits : UInt8 → Option Priority
  | 0 => some passive
  | 1 => some interactive
  | 2 => some background
  | _ => none

inductive AdmissionClass where
  | normal | expedite | sheddable
deriving DecidableEq, Repr

def AdmissionClass.fromBits : UInt8 → Option AdmissionClass
  | 0 => some normal
  | 1 => some expedite
  | 2 => some sheddable
  | _ => none

structure Flags where
  bits : UInt8
deriving DecidableEq, Repr

namespace Flags

def priority (flags : Flags) : Option Priority :=
  Priority.fromBits ((flags.bits &&& 0b00000110) >>> 1)

def admissionClass (flags : Flags) : Option AdmissionClass :=
  AdmissionClass.fromBits ((flags.bits &&& 0b00110000) >>> 4)

def hasReservedBits (flags : Flags) : Bool :=
  flags.bits &&& 0b11000000 != 0

end Flags

structure EnvelopeHeader where
  len : Nat
  ty : FrameType
  flags : Flags
  channel : Nat
  epoch : Nat
  corr : Nat
deriving DecidableEq, Repr

inductive DecodeError where
  | tooShortForHeader (haveBytes : Nat)
  | unknownFrameType (byte : UInt8)
  | reservedFlagBits (flags : UInt8)
  | reservedPriorityBits (flags : UInt8)
  | reservedAdmissionClass (flags : UInt8)
  | sheddableIllegalFrameType (ty : FrameType) (flags : UInt8)
  | nonzeroEpochOnControlChannel (epoch : Nat)
  | zeroEpochOnRoutedChannel (channel : Nat)
  | pureHeaderFrameWithBody (ty : FrameType) (len : Nat)
deriving DecidableEq, Repr

def fromLeBytes : List UInt8 → Nat
  | [] => 0
  | byte :: rest => byte.toNat + 256 * fromLeBytes rest

def field (bytes : List UInt8) (offset size : Nat) : Nat :=
  fromLeBytes ((bytes.drop offset).take size)

def decodeHeader (bytes : List UInt8) : Except DecodeError EnvelopeHeader := do
  if bytes.length < headerLen then throw (.tooShortForHeader bytes.length)
  let len := field bytes 0 4
  let tag := bytes.getD 4 0
  let ty ← match FrameType.fromU8 tag with
    | some ty => pure ty
    | none => throw (.unknownFrameType tag)
  let flagByte := bytes.getD 5 0
  let flags : Flags := ⟨flagByte⟩
  if flags.hasReservedBits then throw (.reservedFlagBits flagByte)
  if flags.priority.isNone then throw (.reservedPriorityBits flagByte)
  let admissionClass ← match flags.admissionClass with
    | some admissionClass => pure admissionClass
    | none => throw (.reservedAdmissionClass flagByte)
  if admissionClass = .sheddable ∧ ¬ (ty = .push ∨ ty = .streamData) then
    throw (.sheddableIllegalFrameType ty flagByte)
  if ty.isPureHeader ∧ len ≠ 0 then throw (.pureHeaderFrameWithBody ty len)
  let channel := field bytes 6 2
  let epoch := field bytes 8 4
  if channel = 0 ∧ epoch ≠ 0 then throw (.nonzeroEpochOnControlChannel epoch)
  -- Epoch 0 is reserved for channel 0.
  if channel ≠ 0 ∧ epoch = 0 then throw (.zeroEpochOnRoutedChannel channel)
  pure { len, ty, flags, channel, epoch, corr := field bytes 12 8 }

end Eidnara.HostRuntime
