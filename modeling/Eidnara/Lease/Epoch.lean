import Eidnara.Lib.TornWrites

/-!
# Writer epochs of a file lease

The epoch of a lease key is kept in a file as twenty decimal digits.  An exclusive acquisition
reads it, takes a larger one and writes that over it, most significant digit first; a crash may
cut the write anywhere.
-/

namespace Eidnara.Lease

open Lib List

def epochWidth : Nat := 20

inductive EpochError
  | exceedsWidth
  | empty
  | notDecimal
  | outsideRange
  | exhausted
  deriving DecidableEq, Repr

def EpochError.message : EpochError → String
  | .exceedsWidth => "lease epoch exceeds 20 bytes"
  | .empty => "lease epoch is empty"
  | .notDecimal => "lease epoch is not an unsigned decimal integer"
  | .outsideRange => "lease epoch is outside the u64 range"
  | .exhausted => "lease epoch is exhausted"

def isAsciiDigit (byte : UInt8) : Bool := 48 ≤ byte && byte ≤ 57

def digitValue (byte : UInt8) : Nat := byte.toNat - 48

def digitByte (digit : Nat) : UInt8 := UInt8.ofNat (48 + digit)

def padByte : UInt8 := 120

def readEpoch (content : List UInt8) : Except EpochError Nat :=
  let bytes := content.take (epochWidth + 1)
  if bytes.length > epochWidth then .error .exceedsWidth
  else if bytes.isEmpty then .error .empty
  else if !bytes.all isAsciiDigit then .error .notDecimal
  else match checkedValue 64 10 (bytes.map digitValue) with
    | some epoch => .ok epoch
    | none => .error .outsideRange

def formatEpoch (epoch : Nat) : List UInt8 := (digitsOf 10 epochWidth epoch).map digitByte

/-- The bytes that `persist_epoch` writes, in order: a short file is padded to the full width
before the digits are written over it. -/
def persistWrites (content : List UInt8) (epoch : Nat) : List (Nat × UInt8) :=
  writesAt content.length (List.replicate (epochWidth - content.length) padByte) ++
    writesAt 0 (formatEpoch epoch)

def persistEpoch (content : List UInt8) (epoch : Nat) : List UInt8 :=
  performWrites content (persistWrites content epoch)

/-- `persist_epoch` cut off after `cut` bytes. -/
def persistCut (content : List UInt8) (epoch cut : Nat) : List UInt8 :=
  performWrites content ((persistWrites content epoch).take cut)

def prevEpoch (content : List UInt8) : Option Nat → Except EpochError Nat
  | some floor => if content.length = 0 then .ok floor else readEpoch content
  | none => readEpoch content

def nextEpoch (content : List UInt8) (recoveryFloor : Option Nat) : Except EpochError Nat := do
  let epochFloor := recoveryFloor.getD 0
  let prev ← prevEpoch content recoveryFloor
  match checkedAdd 64 (max prev epochFloor) 1 with
  | some next => .ok next
  | none => .error .exhausted

def bumpEpochAbove (content : List UInt8) (recoveryFloor : Option Nat) :
    Except EpochError (Nat × List UInt8) := do
  let next ← nextEpoch content recoveryFloor
  .ok (next, persistEpoch content next)

def openLeaseFile : List UInt8 := persistEpoch [] 0

/-! ## Histories -/

/-- What happens to one lease file.  `emptied` is a loss of the content. -/
inductive Op
  | acquire
  | acquireAbove (floor : Nat)
  | acquireShared
  | interrupted (recoveryFloor : Option Nat) (cut : Nat)
  | emptied
  deriving DecidableEq, Repr

structure History where
  content : List UInt8
  returned : List Nat
  deriving DecidableEq, Repr

namespace History

def start : History := ⟨openLeaseFile, []⟩

def acquireExclusive (h : History) (recoveryFloor : Option Nat) : History :=
  match bumpEpochAbove h.content recoveryFloor with
  | .ok (epoch, content) => ⟨content, epoch :: h.returned⟩
  | .error _ => h

def step (h : History) : Op → History
  | .acquire => h.acquireExclusive none
  | .acquireAbove floor => h.acquireExclusive (some floor)
  | .acquireShared =>
    match readEpoch h.content with
    | .ok epoch => { h with returned := epoch :: h.returned }
    | .error _ => h
  | .interrupted recoveryFloor cut =>
    match nextEpoch h.content recoveryFloor with
    | .ok next => { h with content := persistCut h.content next cut }
    | .error _ => h
  | .emptied => { h with content := [] }

def run (h : History) (ops : List Op) : History := ops.foldl step h

end History

/-! ## Reading -/

theorem digitValue_digitByte : ∀ digit < 10, digitValue (digitByte digit) = digit := by decide

theorem isAsciiDigit_digitByte : ∀ digit < 10, isAsciiDigit (digitByte digit) = true := by decide

theorem digitValue_lt {byte : UInt8} (h : isAsciiDigit byte = true) : digitValue byte < 10 := by
  simp only [isAsciiDigit, Bool.and_eq_true, decide_eq_true_eq] at h
  have hle : byte.toNat ≤ 57 := h.2
  unfold digitValue
  omega

variable {content : List UInt8} {epoch : Nat}

theorem readEpoch_eq_ok_iff :
    readEpoch content = .ok epoch ↔
      content.length ≤ epochWidth ∧ content ≠ [] ∧ (∀ byte ∈ content, isAsciiDigit byte = true) ∧
        value 10 (content.map digitValue) = epoch ∧ epoch < 2 ^ 64 := by
  simp only [readEpoch, checkedValue_eq _ (show 0 < 10 by decide)]
  constructor
  · intro h
    split_ifs at h with hlong hnil hall hfits
    have hshort : content.length ≤ epochWidth := by
      rw [length_take] at hlong
      omega
    rw [take_of_length_le (by omega)] at hnil hall hfits h
    cases h
    exact ⟨hshort, by simpa using hnil, by simpa using hall, rfl, hfits⟩
  · rintro ⟨hshort, hnil, hall, rfl, hfits⟩
    rw [take_of_length_le (by omega), if_neg (by omega), if_neg (by simpa using hnil),
      if_neg (by simpa using hall), if_pos hfits]

theorem length_formatEpoch (epoch : Nat) : (formatEpoch epoch).length = epochWidth := by
  simp [formatEpoch]

theorem map_digitValue_formatEpoch (epoch : Nat) :
    (formatEpoch epoch).map digitValue = digitsOf 10 epochWidth epoch := by
  rw [formatEpoch, map_map]
  refine (map_congr_left fun digit hdigit => ?_).trans (map_id _)
  exact digitValue_digitByte digit (digitsOf_lt (by decide) hdigit)

theorem value_formatEpoch (h : epoch < 2 ^ 64) :
    value 10 ((formatEpoch epoch).map digitValue) = epoch := by
  rw [map_digitValue_formatEpoch, value_digitsOf]
  exact Nat.mod_eq_of_lt (h.trans (by decide))

theorem isAsciiDigit_formatEpoch {byte : UInt8} (h : byte ∈ formatEpoch epoch) :
    isAsciiDigit byte = true := by
  obtain ⟨digit, hdigit, rfl⟩ := mem_map.mp h
  exact isAsciiDigit_digitByte digit (digitsOf_lt (by decide) hdigit)

theorem formatEpoch_ne_nil (epoch : Nat) : formatEpoch epoch ≠ [] :=
  ne_nil_of_length_eq_add_one (length_formatEpoch epoch)

theorem readEpoch_formatEpoch (h : epoch < 2 ^ 64) : readEpoch (formatEpoch epoch) = .ok epoch :=
  readEpoch_eq_ok_iff.mpr ⟨(length_formatEpoch epoch).le, formatEpoch_ne_nil epoch,
    fun _ => isAsciiDigit_formatEpoch, value_formatEpoch h, h⟩

theorem readEpoch_ne_ok_of_padByte (h : padByte ∈ content) (epoch : Nat) :
    readEpoch content ≠ .ok epoch := by
  intro hread
  have hdigit := (readEpoch_eq_ok_iff.mp hread).2.2.1 padByte h
  exact absurd hdigit (by decide)

/-! ## Writing -/

variable {cut : Nat}

theorem persistCut_padding (epoch : Nat) (hcut : cut ≤ epochWidth - content.length) :
    persistCut content epoch cut = content ++ List.replicate cut padByte := by
  unfold persistCut persistWrites
  rw [take_append_of_le_length (by rw [length_writesAt, length_replicate]; exact hcut),
    take_writesAt, performWrites_writesAt _ le_rfl, take_length, take_replicate,
    Nat.min_eq_left hcut, drop_of_length_le (Nat.le_add_right _ _), append_nil]

theorem persistCut_digits (epoch : Nat) (hcut : epochWidth - content.length ≤ cut) :
    persistCut content epoch cut =
      (formatEpoch epoch).take (cut - (epochWidth - content.length)) ++
        (content ++ List.replicate (epochWidth - content.length) padByte).drop
          (min (cut - (epochWidth - content.length)) epochWidth) := by
  unfold persistCut persistWrites
  rw [take_append, length_writesAt, length_replicate,
    take_of_length_le (by rw [length_writesAt, length_replicate]; exact hcut),
    performWrites_append, performWrites_writesAt _ le_rfl, take_length,
    drop_of_length_le (Nat.le_add_right _ _), append_nil, take_writesAt,
    performWrites_writesAt _ (Nat.zero_le _), take_zero, nil_append, Nat.zero_add,
    length_take, length_formatEpoch]

theorem persistEpoch_eq (epoch : Nat) (h : content.length ≤ epochWidth) :
    persistEpoch content epoch = formatEpoch epoch := by
  have hwrites : (persistWrites content epoch).length =
      epochWidth - content.length + epochWidth := by
    simp [persistWrites, length_writesAt, length_formatEpoch]
  have hcut : persistEpoch content epoch =
      persistCut content epoch (epochWidth - content.length + epochWidth) := by
    rw [persistCut, take_of_length_le hwrites.le, persistEpoch]
  rw [hcut, persistCut_digits epoch (Nat.le_add_right _ _), Nat.add_sub_cancel_left, Nat.min_self,
    take_of_length_le (length_formatEpoch epoch).le, drop_of_length_le, append_nil]
  rw [length_append, length_replicate]
  omega

variable {next : Nat}

/-- Over short content, nothing but the untouched content or all of the digits is accepted: any
other cut leaves padding. -/
theorem readEpoch_persistCut_of_short (hshort : content.length < epochWidth) (hfits : next < 2 ^ 64)
    (hcut : readEpoch (persistCut content next cut) = .ok epoch) :
    readEpoch content = .ok epoch ∨ epoch = next := by
  rcases Nat.lt_or_ge cut (epochWidth - content.length) with hpad | hpad
  · rw [persistCut_padding next hpad.le] at hcut
    cases cut with
    | zero =>
      rw [replicate_zero, append_nil] at hcut
      exact .inl hcut
    | succ cut =>
      refine absurd hcut (readEpoch_ne_ok_of_padByte ?_ epoch)
      exact mem_append_right _ (by simp)
  · rw [persistCut_digits next hpad] at hcut
    generalize cut - (epochWidth - content.length) = written at hcut
    rcases Nat.lt_or_ge written epochWidth with hpart | hall
    · -- The last padding byte is still there.
      refine absurd hcut (readEpoch_ne_ok_of_padByte (mem_append_right _ ?_) epoch)
      have hlast : content ++ List.replicate (epochWidth - content.length) padByte =
          (content ++ List.replicate (epochWidth - content.length - 1) padByte) ++ [padByte] := by
        rw [append_assoc, ← replicate_succ', show
          epochWidth - content.length - 1 + 1 = epochWidth - content.length by omega]
      rw [hlast, drop_append_of_le_length]
      · exact mem_append_right _ mem_cons_self
      · rw [length_append, length_replicate]
        omega
    · rw [Nat.min_eq_right hall, take_of_length_le ((length_formatEpoch next).le.trans hall),
        drop_of_length_le (by
          rw [length_append, length_replicate]
          omega), append_nil, readEpoch_formatEpoch hfits] at hcut
      exact .inr (Except.ok.inj hcut).symm

/-- Whatever the content, a larger epoch written over it and cut anywhere leaves content that is
refused or names no smaller epoch. -/
theorem le_of_readEpoch_persistCut {prev : Nat} (hprev : readEpoch content = .ok prev)
    (hnext : prev ≤ next) (hfits : next < 2 ^ 64)
    (hcut : readEpoch (persistCut content next cut) = .ok epoch) : prev ≤ epoch := by
  obtain ⟨hlong, -, hdigits, hvalue, -⟩ := readEpoch_eq_ok_iff.mp hprev
  rcases Nat.lt_or_eq_of_le hlong with hshort | hwidth
  · rcases readEpoch_persistCut_of_short hshort hfits hcut with hsame | rfl
    · exact (Except.ok.inj (hprev.symm.trans hsame)).le
    · exact hnext
  · rw [persistCut_digits next (by omega), hwidth, Nat.sub_self, Nat.sub_zero,
      replicate_zero, append_nil] at hcut
    have hdrop : content.drop (min cut epochWidth) = content.drop cut := by
      rcases Nat.le_total cut epochWidth with hle | hge
      · rw [Nat.min_eq_left hle]
      · rw [Nat.min_eq_right hge, drop_of_length_le hwidth.le,
          drop_of_length_le (hwidth.le.trans hge)]
    obtain ⟨-, -, -, rfl, -⟩ := readEpoch_eq_ok_iff.mp hcut
    rw [hdrop, map_append, map_take, map_drop, ← hvalue]
    refine value_le_torn cut ?_ ?_ ?_ ?_
    · rw [length_map, length_map, length_formatEpoch, hwidth]
    · intro digit hdigit
      obtain ⟨byte, hbyte, rfl⟩ := mem_map.mp hdigit
      exact digitValue_lt (hdigits byte hbyte)
    · intro digit hdigit
      obtain ⟨byte, hbyte, rfl⟩ := mem_map.mp hdigit
      exact digitValue_lt (isAsciiDigit_formatEpoch hbyte)
    · rw [hvalue, value_formatEpoch hfits]
      exact hnext

/-! ## Taking an epoch -/

theorem nextEpoch_eq_ok {recoveryFloor : Option Nat}
    (h : nextEpoch content recoveryFloor = .ok next) :
    recoveryFloor.getD 0 < next ∧ next < 2 ^ 64 ∧ content.length ≤ epochWidth ∧
      ((∃ prev, readEpoch content = .ok prev ∧ prev < next) ∨
        (content = [] ∧ ∃ floor, recoveryFloor = some floor ∧ floor < next)) := by
  obtain ⟨prev, hprev, hnext⟩ := bind_eq_ok_iff.mp h
  have hbounds : max prev (recoveryFloor.getD 0) + 1 = next ∧ next < 2 ^ 64 := by
    cases hadd : checkedAdd 64 (max prev (recoveryFloor.getD 0)) 1 with
    | none =>
      simp only [hadd] at hnext
      cases hnext
    | some sum =>
      simp only [hadd, Except.ok.injEq] at hnext
      obtain ⟨hsum, hlt⟩ := checkedAdd_some hadd
      omega
  have hread : readEpoch content = .ok prev →
      content.length ≤ epochWidth ∧ ((∃ prev, readEpoch content = .ok prev ∧ prev < next) ∨
        (content = [] ∧ ∃ floor, recoveryFloor = some floor ∧ floor < next)) := by
    intro hread
    exact ⟨(readEpoch_eq_ok_iff.mp hread).1, .inl ⟨prev, hread, by omega⟩⟩
  refine ⟨by omega, hbounds.2, ?_⟩
  cases recoveryFloor with
  | none => exact hread hprev
  | some floor =>
    unfold prevEpoch at hprev
    split_ifs at hprev with hempty
    · obtain rfl := eq_nil_of_length_eq_zero hempty
      have hfloor : floor < next := by
        rw [Option.getD_some] at hbounds
        omega
      exact ⟨Nat.zero_le _, .inr ⟨rfl, floor, rfl, hfloor⟩⟩
    · exact hread hprev

theorem bumpEpochAbove_eq_ok {written : List UInt8} {recoveryFloor : Option Nat}
    (h : bumpEpochAbove content recoveryFloor = .ok (epoch, written)) :
    nextEpoch content recoveryFloor = .ok epoch ∧ readEpoch written = .ok epoch := by
  obtain ⟨next, hnext, hwritten⟩ := bind_eq_ok_iff.mp h
  simp only [Except.ok.injEq, Prod.mk.injEq] at hwritten
  obtain ⟨rfl, rfl⟩ := hwritten
  obtain ⟨-, hfits, hlong, -⟩ := nextEpoch_eq_ok hnext
  rw [persistEpoch_eq next hlong]
  exact ⟨hnext, readEpoch_formatEpoch hfits⟩

/-! ## Histories keep every returned epoch below the content -/

namespace History

variable {h : History} {ops : List Op} {op : Op}

variable {floor : Option Nat}

theorem step_interrupted_error {error : EpochError} (cut : Nat)
    (hnext : nextEpoch h.content floor = .error error) : h.step (.interrupted floor cut) = h := by
  simp only [step, hnext]

theorem step_interrupted_ok {next : Nat} (cut : Nat)
    (hnext : nextEpoch h.content floor = .ok next) :
    h.step (.interrupted floor cut) = { h with content := persistCut h.content next cut } := by
  simp only [step, hnext]

theorem acquireExclusive_error {error : EpochError}
    (hprev : prevEpoch h.content floor = .error error) : h.acquireExclusive floor = h := by
  simp only [acquireExclusive, bumpEpochAbove, nextEpoch, hprev]
  rfl

theorem content_step_acquireShared : (h.step .acquireShared).content = h.content := by
  unfold step
  cases readEpoch h.content <;> rfl

def recoveryFloor : Op → Option Nat
  | .acquireAbove floor => some floor
  | .interrupted floor _ => floor
  | _ => none

/-- An empty file is recovered with a floor that covers every epoch returned before. -/
def Covers (h : History) (op : Op) : Prop :=
  h.content = [] → ∀ floor ∈ recoveryFloor op, ∀ epoch ∈ h.returned, epoch ≤ floor

def CoversAll (h : History) : List Op → Prop
  | [] => True
  | op :: rest => h.Covers op ∧ (h.step op).CoversAll rest

def Bounded (h : History) : Prop :=
  ∀ current, readEpoch h.content = .ok current → ∀ epoch ∈ h.returned, epoch ≤ current

theorem bounded_start : start.Bounded := fun _ _ _ hmem => by cases hmem

theorem returned_lt_nextEpoch {next : Nat} (hbounded : h.Bounded)
    (hcovers : h.content = [] → ∀ f ∈ floor, ∀ epoch ∈ h.returned, epoch ≤ f)
    (hnext : nextEpoch h.content floor = .ok next) : ∀ epoch ∈ h.returned, epoch < next := by
  intro epoch hepoch
  obtain ⟨-, -, -, hsource⟩ := nextEpoch_eq_ok hnext
  rcases hsource with ⟨prev, hprev, hlt⟩ | ⟨hempty, f, rfl, hlt⟩
  · exact (hbounded prev hprev epoch hepoch).trans_lt hlt
  · exact (hcovers hempty f rfl epoch hepoch).trans_lt hlt

theorem Bounded.acquireExclusive (hbounded : h.Bounded)
    (hcovers : h.content = [] → ∀ f ∈ floor, ∀ epoch ∈ h.returned, epoch ≤ f) :
    (h.acquireExclusive floor).Bounded := by
  unfold History.acquireExclusive
  cases hbump : bumpEpochAbove h.content floor with
  | error e => exact hbounded
  | ok bumped =>
    obtain ⟨hnext, hread⟩ := bumpEpochAbove_eq_ok hbump
    intro current hcurrent
    obtain rfl := Except.ok.inj (hread.symm.trans hcurrent)
    exact forall_mem_cons.mpr ⟨le_rfl, fun epoch hepoch =>
      (returned_lt_nextEpoch hbounded hcovers hnext epoch hepoch).le⟩

/-- An interrupted write leaves content that is refused or names an epoch not below the one
named before, and not below a floor that the empty file was to be recovered with. -/
theorem le_of_readEpoch_interrupted {cut bound epoch : Nat}
    (hbound : readEpoch h.content = .ok bound ∨ (h.content = [] ∧ floor = some bound))
    (hread : readEpoch (h.step (.interrupted floor cut)).content = .ok epoch) : bound ≤ epoch := by
  cases hnext : nextEpoch h.content floor with
  | error e =>
    rw [step_interrupted_error cut hnext] at hread
    rcases hbound with hbound | ⟨hempty, -⟩
    · exact (Except.ok.inj (hbound.symm.trans hread)).le
    · rw [hempty] at hread
      cases hread
  | ok next =>
    rw [step_interrupted_ok cut hnext] at hread
    obtain ⟨hfloor, hfits, -, hsource⟩ := nextEpoch_eq_ok hnext
    rcases hbound with hbound | ⟨hempty, rfl⟩
    · rcases hsource with ⟨prev, hprev, hlt⟩ | ⟨hempty, -⟩
      · obtain rfl := Except.ok.inj (hprev.symm.trans hbound)
        exact le_of_readEpoch_persistCut hprev hlt.le hfits hread
      · rw [hempty] at hbound
        cases hbound
    · have hshort : h.content.length < epochWidth := by
        rw [hempty]
        decide
      rcases readEpoch_persistCut_of_short hshort hfits hread with hsame | rfl
      · rw [hempty] at hsame
        cases hsame
      · exact hfloor.le

theorem Bounded.interrupted {cut : Nat} (hbounded : h.Bounded)
    (hcovers : h.Covers (.interrupted floor cut)) : (h.step (.interrupted floor cut)).Bounded := by
  cases hnext : nextEpoch h.content floor with
  | error e =>
    rw [step_interrupted_error cut hnext]
    exact hbounded
  | ok next =>
    intro current hcurrent epoch hepoch
    have hreturned : (h.step (.interrupted floor cut)).returned = h.returned := by
      rw [step_interrupted_ok cut hnext]
    rw [hreturned] at hepoch
    obtain ⟨-, -, -, hsource⟩ := nextEpoch_eq_ok hnext
    rcases hsource with ⟨prev, hprev, -⟩ | ⟨hempty, f, rfl, -⟩
    · exact (hbounded prev hprev epoch hepoch).trans
        (le_of_readEpoch_interrupted (.inl hprev) hcurrent)
    · exact (hcovers hempty f rfl epoch hepoch).trans
        (le_of_readEpoch_interrupted (.inr ⟨hempty, rfl⟩) hcurrent)

theorem Bounded.acquireShared (hbounded : h.Bounded) : (h.step .acquireShared).Bounded := by
  unfold History.step
  cases hread : readEpoch h.content with
  | error e => exact hbounded
  | ok current =>
    intro current' hcurrent
    obtain rfl := Except.ok.inj (hread.symm.trans hcurrent)
    exact forall_mem_cons.mpr ⟨le_rfl, hbounded current hread⟩

theorem Bounded.step (hbounded : h.Bounded) (hcovers : h.Covers op) : (h.step op).Bounded := by
  cases op with
  | acquire => exact hbounded.acquireExclusive fun _ _ hf => by cases hf
  | acquireAbove floor => exact hbounded.acquireExclusive hcovers
  | acquireShared => exact hbounded.acquireShared
  | interrupted floor cut => exact hbounded.interrupted hcovers
  | emptied =>
    intro current hcurrent
    cases hcurrent

theorem Bounded.run (hbounded : h.Bounded) (hcovers : h.CoversAll ops) : (h.run ops).Bounded := by
  induction ops generalizing h with
  | nil => exact hbounded
  | cons op rest ih => exact ih (hbounded.step hcovers.1) hcovers.2

/-! ## Content that is never lost -/

theorem length_le_persistCut {content : List UInt8} (epoch cut : Nat) :
    content.length ≤ (persistCut content epoch cut).length := by
  rcases Nat.lt_or_ge cut (epochWidth - content.length) with hpad | hpad
  · rw [persistCut_padding epoch hpad.le, length_append]
    exact Nat.le_add_right _ _
  · rw [persistCut_digits epoch hpad, length_append, length_take, length_drop,
      length_append, length_replicate, length_formatEpoch]
    omega

theorem content_step_ne_nil (hcontent : h.content ≠ []) (hop : op ≠ .emptied) :
    (h.step op).content ≠ [] := by
  have hexclusive (floor : Option Nat) : (h.acquireExclusive floor).content ≠ [] := by
    unfold acquireExclusive
    cases hbump : bumpEpochAbove h.content floor with
    | error e => exact hcontent
    | ok bumped =>
      intro hnil
      have hread := (bumpEpochAbove_eq_ok hbump).2
      rw [show bumped.2 = [] from hnil] at hread
      cases hread
  cases op with
  | acquire => exact hexclusive none
  | acquireAbove floor => exact hexclusive (some floor)
  | acquireShared =>
    rw [content_step_acquireShared]
    exact hcontent
  | interrupted floor cut =>
    cases hnext : nextEpoch h.content floor with
    | error e =>
      rw [step_interrupted_error cut hnext]
      exact hcontent
    | ok next =>
      rw [step_interrupted_ok cut hnext]
      exact ne_nil_of_length_pos
        ((length_pos_iff.mpr hcontent).trans_le (length_le_persistCut next cut))
  | emptied => exact absurd rfl hop

theorem coversAll_of_kept (hcontent : h.content ≠ []) (hkept : .emptied ∉ ops) :
    h.CoversAll ops := by
  induction ops generalizing h with
  | nil => trivial
  | cons op rest ih =>
    have hop : op ≠ .emptied := fun heq => hkept (heq ▸ mem_cons_self)
    refine ⟨fun hempty => absurd hempty hcontent, ?_⟩
    exact ih (content_step_ne_nil hcontent hop) fun hmem => hkept (mem_cons_of_mem _ hmem)

theorem content_start_ne_nil : start.content ≠ [] := by
  have hstart : start.content = formatEpoch 0 := persistEpoch_eq 0 (Nat.zero_le _)
  exact hstart ▸ formatEpoch_ne_nil 0

/-- Along every history of a lease file, whose loss, if any, is recovered with a covering floor:
an exclusive acquisition takes an epoch above every epoch returned before and above its floor; an
interrupted one leaves content that is refused or names no smaller epoch; refused content gives
no epoch, except that an empty file is recovered above a floor; and a shared acquisition leaves
the bytes alone. -/
theorem epochs_increase (hops : .emptied ∉ ops ∨ start.CoversAll ops) :
    let h := start.run ops
    (∀ floor epoch content, (h.content = [] → ∀ f ∈ floor, ∀ e ∈ h.returned, e ≤ f) →
      bumpEpochAbove h.content floor = .ok (epoch, content) →
      (∀ e ∈ h.returned, e < epoch) ∧ floor.getD 0 < epoch) ∧
    (∀ floor cut before after, readEpoch h.content = .ok before →
      readEpoch (h.step (.interrupted floor cut)).content = .ok after → before ≤ after) ∧
    (∀ error, readEpoch h.content = .error error →
      h.step .acquire = h ∧ h.step .acquireShared = h ∧
      (h.content ≠ [] → ∀ floor, h.step (.acquireAbove floor) = h)) ∧
    (h.step .acquireShared).content = h.content := by
  intro h
  have hcovers : start.CoversAll ops :=
    hops.elim (coversAll_of_kept content_start_ne_nil) id
  have hbounded : h.Bounded := bounded_start.run hcovers
  refine ⟨?_, ?_, ?_, ?_⟩
  · intro floor epoch content hfloor hbump
    have hnext := (bumpEpochAbove_eq_ok hbump).1
    exact ⟨returned_lt_nextEpoch hbounded hfloor hnext, (nextEpoch_eq_ok hnext).1⟩
  · intro floor cut before after hbefore hafter
    exact le_of_readEpoch_interrupted (.inl hbefore) hafter
  · intro error hread
    refine ⟨acquireExclusive_error hread, by simp only [step, hread], ?_⟩
    intro hcontent floor
    exact acquireExclusive_error (by
      rw [prevEpoch, if_neg (length_eq_zero_iff.not.mpr hcontent), hread])
  · exact content_step_acquireShared

/-- Epoch 99 is handed out and the write of 100 is cut before its last two digits: the file names
199, and the next acquisition takes 200. -/
theorem epochs_increase_torn :
    let ops : List Op := [.acquireAbove 98, .interrupted none 18, .acquireShared]
    (start.run ops).returned = [199, 99] ∧
      ∃ content, bumpEpochAbove (start.run ops).content none = .ok (200, content) ∧
        ∀ e ∈ (start.run ops).returned, e < 200 := by
  intro ops
  have hbump : bumpEpochAbove (start.run ops).content none = .ok (200, formatEpoch 200) := by
    decide +kernel
  have hops : .emptied ∉ ops ∨ start.CoversAll ops := .inl (by decide)
  have hincrease := (epochs_increase hops).1
  exact ⟨by decide +kernel, _, hbump, (hincrease none 200 _ (fun _ _ hf => by cases hf) hbump).1⟩

/-! ## Content of full width -/

/-- The content is `epochWidth` digits. -/
def Decimal (content : List UInt8) : Prop :=
  content.length = epochWidth ∧ ∀ byte ∈ content, isAsciiDigit byte = true

theorem decimal_formatEpoch (epoch : Nat) : Decimal (formatEpoch epoch) :=
  ⟨length_formatEpoch epoch, fun _ => isAsciiDigit_formatEpoch⟩

/-- Digits of the new epoch up to the cut, digits of the old content behind it. -/
theorem Decimal.persistCut {content : List UInt8} (hdecimal : Decimal content) (epoch cut : Nat) :
    Decimal (persistCut content epoch cut) := by
  obtain ⟨hlength, hdigits⟩ := hdecimal
  rw [persistCut_digits epoch (by omega), hlength, Nat.sub_self, replicate_zero, append_nil,
    Nat.sub_zero]
  constructor
  · simp only [length_append, length_take, length_drop, length_formatEpoch]
    omega
  · intro byte hbyte
    rcases mem_append.mp hbyte with hnew | hold
    · exact isAsciiDigit_formatEpoch (mem_of_mem_take hnew)
    · exact hdigits byte (mem_of_mem_drop hold)

theorem Decimal.step (hdecimal : Decimal h.content) (hop : op ≠ .emptied) :
    Decimal (h.step op).content := by
  have hexclusive (floor : Option Nat) : Decimal (h.acquireExclusive floor).content := by
    unfold acquireExclusive bumpEpochAbove
    cases nextEpoch h.content floor with
    | error e => exact hdecimal
    | ok next =>
      change Decimal (persistEpoch h.content next)
      rw [persistEpoch_eq next hdecimal.1.le]
      exact decimal_formatEpoch next
  cases op with
  | acquire => exact hexclusive none
  | acquireAbove floor => exact hexclusive (some floor)
  | acquireShared =>
    rw [content_step_acquireShared]
    exact hdecimal
  | interrupted floor cut =>
    simp only [step]
    cases nextEpoch h.content floor with
    | error e => exact hdecimal
    | ok next => exact hdecimal.persistCut next cut
  | emptied => exact absurd rfl hop

/-- Wherever writes are cut off, the file is a decimal of full width, so its epoch is read exactly
if that decimal fits 64 bits. -/
theorem torn_file_stays_decimal (hkept : .emptied ∉ ops) :
    let content := (start.run ops).content
    Decimal content ∧
      ((∃ epoch, readEpoch content = .ok epoch) ↔ value 10 (content.map digitValue) < 2 ^ 64) := by
  intro content
  have hstart : start.content = formatEpoch 0 := persistEpoch_eq 0 (Nat.zero_le _)
  have hdecimal : Decimal content :=
    foldlRecOn (motive := fun h => Decimal h.content) ops History.step
      (hstart ▸ decimal_formatEpoch 0)
      fun h hdecimal op hop => hdecimal.step (ne_of_mem_of_not_mem hop hkept)
  refine ⟨hdecimal, ?_, fun hfits => ?_⟩
  · rintro ⟨epoch, hepoch⟩
    obtain ⟨-, -, -, rfl, hfits⟩ := readEpoch_eq_ok_iff.mp hepoch
    exact hfits
  · have hne : content ≠ [] := ne_nil_of_length_pos (by rw [hdecimal.1]; decide)
    exact ⟨_, readEpoch_eq_ok_iff.mpr ⟨hdecimal.1.le, hne, hdecimal.2, rfl, hfits⟩⟩

theorem torn_file_stays_decimal_twice :
    Decimal (start.run [.interrupted (some 98) 19, .interrupted none 20]).content :=
  (torn_file_stays_decimal (by decide)).1

end History

end Eidnara.Lease
