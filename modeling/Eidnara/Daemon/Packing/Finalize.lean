import Eidnara.Daemon.Packing.Prepare

/-!
# The body that is sent

`finalize` of `packing/serialize.rs`: the closed render is written out if it is within the
transport's length and the serialized bound.  If not, the last admitted group goes and the render
is built anew from the base, as often as the adjustment cap allows.
-/

namespace Eidnara.Daemon.Packing

open Lib Utf8 Tokenizer List
open Retrieval.Packing (Group SelectedOccurrence)

inductive SerializationBound where
  | transport | serializedBytes
deriving DecidableEq, Repr

inductive PackingFailure where
  | adjustmentCapExhausted (passes : Nat) (bound : SerializationBound)
  | deadline
  | lengthMismatch (measured written : Nat)
  | write
deriving DecidableEq, Repr

structure SerializationBounds where
  maxSerializedBytes : Nat
  maxAdjustmentPasses : Nat
deriving DecidableEq, Repr

inductive Step where
  | exceeded (bound : SerializationBound)
  | failed (failure : PackingFailure)
deriving DecidableEq, Repr

section

variable {Id Key Digest : Type}

structure Preparation (Id Key Digest : Type) where
  body : Bytes
  identity : Digest
  ledger : Ledger Id
  admitted : List (CostedGroup Id Key)
  removed : List (CostedGroup Id Key)
  passes : Nat

/-- `write_to` into a vector of the measured length. -/
def writeTo (measured : Nat) (bytes : Bytes) : Except PackingFailure Bytes :=
  if bytes.length = measured then .ok bytes
  else .error (.lengthMismatch measured bytes.length)

/-- A transport measures a body of up to `transportLimit` bytes and refuses a longer one. -/
def serialize (transportLimit : Nat) (bounds : SerializationBounds) (ledger : Ledger Id) :
    Except Step Bytes :=
  let output := utf8 ledger.text
  if transportLimit < output.length then .error (.exceeded .transport)
  else if bounds.maxSerializedBytes < output.length then .error (.exceeded .serializedBytes)
  else (writeTo output.length output).mapError .failed

variable (classes : Classes) (texts : Texts Id)

def rebuild (base : Ledger Id) (admitted : List (CostedGroup Id Key)) : Ledger Id :=
  ((renderGroups classes texts base admitted).close classes).1

/-- The loop of `finalize`.  The admitted groups are a stack with the last one on top. -/
def finalizeFrom (digest : Bytes → Digest) (transportLimit : Nat) (bounds : SerializationBounds)
    (budget : EvalBudget) (base : Ledger Id) (stack removed : List (CostedGroup Id Key))
    (passes : Nat) (ledger : Ledger Id) : Except PackingFailure (Preparation Id Key Digest) :=
  if budget.isExhausted passes then .error .deadline
  else
    match serialize transportLimit bounds ledger with
    | .ok body =>
      -- the write and the hash run after the loop's poll
      if budget.isExhausted (passes + 1) then .error .deadline
      else .ok ⟨body, digest body, ledger, stack.reverse, removed, passes⟩
    | .error (.failed failure) => .error failure
    | .error (.exceeded bound) =>
      if bounds.maxAdjustmentPasses ≤ passes then .error (.adjustmentCapExhausted passes bound)
      else
        match stack with
        | [] => .error (.adjustmentCapExhausted passes bound)
        | last :: rest =>
          finalizeFrom digest transportLimit bounds budget base rest (removed ++ [last])
            (passes + 1) (rebuild classes texts base rest.reverse)

def finalize (digest : Bytes → Digest) (transportLimit : Nat) (bounds : SerializationBounds)
    (budget : EvalBudget) (admission : OptionalAdmission Id Key) :
    Except PackingFailure (Preparation Id Key Digest) :=
  finalizeFrom classes texts digest transportLimit bounds budget admission.base
    admission.admitted.reverse [] 0 admission.ledger

/-! ## What a render is -/

/-- The text of a group, which its place among the groups does not enter. -/
def groupText (group : Group Id Key) : List Char :=
  groupOpenFragment group ++ group.ranges.flatMap (rangeFragment texts) ++ groupCloseFragment

variable {classes texts}

theorem groupFragments_text (index : Nat) (group : Group Id Key) :
    ((groupFragments texts index group).map Prod.snd).flatten = groupText texts group := by
  have hranges : (group.ranges.zipIdx.map fun range =>
      ((.range index range.2, rangeFragment texts range.1) : Charged Id × List Char)).map Prod.snd =
      group.ranges.map (rangeFragment texts) := by
    rw [map_map]
    calc group.ranges.zipIdx.map _
        = (group.ranges.zipIdx.map Prod.fst).map (rangeFragment texts) := by
          rw [map_map]
          rfl
      _ = group.ranges.map (rangeFragment texts) := by rw [zipIdx_map_fst]
  rw [groupFragments, cons_append, map_cons, map_append, hranges, groupText]
  simp [List.flatMap]

theorem renderGroups_text (base : Ledger Id) (groups : List (CostedGroup Id Key)) :
    (renderGroups classes texts base groups).text =
      base.text ++ groups.flatMap fun group => groupText texts group.group := by
  induction groups using List.reverseRecOn with
  | nil => simp [renderGroups]
  | append_singleton groups group ih =>
    rw [renderGroups_concat, Ledger.commit_stage_text, ih, groupFragments_text,
      flatMap_append, append_assoc]
    simp

theorem rebuild_text (base : Ledger Id) (groups : List (CostedGroup Id Key)) :
    (rebuild classes texts base groups).text =
      base.text ++ (groups.flatMap fun group => groupText texts group.group) ++
        blockCloseFragment := by
  rw [rebuild, Ledger.close_text, renderGroups_text]

variable {ledger : Ledger Id}

theorem reserveItems_text {tokenLimit : Nat} {items : List (SelectedOccurrence Id Key × Bytes)}
    {charged : Nat} {reserved : List (MaterializedRequired Id) × Ledger Id}
    (h : reserveItems classes texts tokenLimit items charged ledger = .ok reserved) :
    reserved.2.text = ledger.text ++
      items.flatMap fun item => requiredFragment texts item.1.occurrence item.2 := by
  induction items generalizing charged ledger reserved with
  | nil =>
    obtain rfl := Except.ok.inj h
    simp
  | cons item items ih =>
    rw [reserveItems] at h
    split_ifs at h
    simp only at h
    split at h
    · cases h
    · split_ifs at h
      obtain ⟨rest, hrest, hok⟩ := bind_eq_ok_iff.mp h
      obtain rfl := Except.ok.inj hok
      rw [ih hrest, Ledger.append, Ledger.commit_stage_text]
      simp

theorem prepareRequired_text {profile : AccountingProfile} {budget : EvalBudget}
    {tokenLimit : UInt64} {accounting : AccountingBounds}
    {rows : List (SelectedOccurrence Id Key)} {bytes : List Bytes}
    {required : RequiredMaterialization Id}
    (h : prepareRequired classes texts profile budget tokenLimit accounting rows bytes =
      .ok required) :
    required.ledger.text = blockOpenFragment ++
      (rows.zip bytes).flatMap fun item => requiredFragment texts item.1.occurrence item.2 := by
  have hopened : (Ledger.opened classes profile : Ledger Id).text = blockOpenFragment := by
    rw [Ledger.opened, Ledger.append, Ledger.commit_stage_text]
    simp [Ledger.new]
  obtain ⟨-, -, h⟩ := bind_eq_ok_iff.mp h
  simp only at h
  split at h
  · cases h
  · split at h
    · cases h
    · cases h
    · rename_i reserved hreserved
      obtain ⟨-, -, h⟩ := bind_eq_ok_iff.mp h
      obtain ⟨-, -, h⟩ := bind_eq_ok_iff.mp h
      obtain rfl := Except.ok.inj h
      unfold reserveRequired at hreserved
      split at hreserved
      · cases hreserved
      · rw [reserveItems_text hreserved, hopened]

variable (texts) in
def blockText (rows : List (SelectedOccurrence Id Key)) (bytes : List Bytes)
    (groups : List (CostedGroup Id Key)) : List Char :=
  blockOpenFragment ++
    ((rows.zip bytes).flatMap fun item => requiredFragment texts item.1.occurrence item.2) ++
    (groups.flatMap fun group => groupText texts group.group) ++ blockCloseFragment

/-! ## The loop -/

def Fits (transportLimit : Nat) (bounds : SerializationBounds) (text : List Char) : Prop :=
  (utf8 text).length ≤ transportLimit ∧ (utf8 text).length ≤ bounds.maxSerializedBytes

theorem serialize_fits {transportLimit : Nat} {bounds : SerializationBounds}
    (h : Fits transportLimit bounds ledger.text) :
    serialize transportLimit bounds ledger = .ok (utf8 ledger.text) := by
  have htransport : ¬ transportLimit < (utf8 ledger.text).length := Nat.not_lt.mpr h.1
  have hserialized : ¬ bounds.maxSerializedBytes < (utf8 ledger.text).length := Nat.not_lt.mpr h.2
  simp [serialize, htransport, hserialized, writeTo, Except.mapError]

theorem serialize_exceeds {transportLimit : Nat} {bounds : SerializationBounds}
    (h : ¬ Fits transportLimit bounds ledger.text) :
    ∃ bound, serialize transportLimit bounds ledger = .error (.exceeded bound) := by
  unfold serialize
  simp only
  split_ifs with htransport hserialized
  · exact ⟨_, rfl⟩
  · exact ⟨_, rfl⟩
  · exact absurd ⟨Nat.le_of_not_lt htransport, Nat.le_of_not_lt hserialized⟩ h

section

variable (classes texts) (digest : Bytes → Digest) (transportLimit : Nat)
  (bounds : SerializationBounds) (base : Ledger Id)

def trimmed (stack : List (CostedGroup Id Key)) (count : Nat) : Ledger Id :=
  rebuild classes texts base (stack.drop count).reverse

/-- How the loop ends: with the first render that fits, or when no more may go. -/
inductive Settles (stack removed : List (CostedGroup Id Key)) (passes : Nat) :
    Except PackingFailure (Preparation Id Key Digest) → Prop where
  | kept (count : Nat) (hcount : count ≤ stack.length)
      (hover : ∀ i < count, ¬ Fits transportLimit bounds (trimmed classes texts base stack i).text)
      (hfits : Fits transportLimit bounds (trimmed classes texts base stack count).text)
      (hcap : count = 0 ∨ passes + count ≤ bounds.maxAdjustmentPasses) :
      Settles stack removed passes (.ok
        ⟨utf8 (trimmed classes texts base stack count).text,
          digest (utf8 (trimmed classes texts base stack count).text),
          trimmed classes texts base stack count, (stack.drop count).reverse,
          removed ++ stack.take count, passes + count⟩)
  | refused (count : Nat) (bound : SerializationBound)
      (hover : ∀ i ≤ count, ¬ Fits transportLimit bounds (trimmed classes texts base stack i).text)
      (hlast : bounds.maxAdjustmentPasses ≤ passes + count ∨ stack.length ≤ count) :
      Settles stack removed passes (.error (.adjustmentCapExhausted (passes + count) bound))

variable {classes texts digest transportLimit bounds base}

variable {stack removed : List (CostedGroup Id Key)} {passes : Nat}

theorem Settles.of_fits (h : Fits transportLimit bounds (trimmed classes texts base stack 0).text) :
    Settles classes texts digest transportLimit bounds base stack removed passes (.ok
      ⟨utf8 (trimmed classes texts base stack 0).text,
        digest (utf8 (trimmed classes texts base stack 0).text),
        trimmed classes texts base stack 0, stack.reverse, removed, passes⟩) := by
  have hkept := @Settles.kept Id Key Digest classes texts digest transportLimit bounds base stack
    removed passes 0 (Nat.zero_le _) (fun i hi => absurd hi (Nat.not_lt_zero i)) h (.inl rfl)
  rwa [take_zero, append_nil] at hkept

theorem Settles.of_exceeds (bound : SerializationBound)
    (h : ¬ Fits transportLimit bounds (trimmed classes texts base stack 0).text)
    (hlast : bounds.maxAdjustmentPasses ≤ passes ∨ stack.length ≤ 0) :
    Settles classes texts digest transportLimit bounds base stack removed passes
      (.error (.adjustmentCapExhausted passes bound)) :=
  .refused 0 bound (fun _ hi => Nat.le_zero.mp hi ▸ h) hlast

theorem Settles.cons {last : CostedGroup Id Key}
    {result : Except PackingFailure (Preparation Id Key Digest)}
    (hover : ¬ Fits transportLimit bounds (trimmed classes texts base (last :: stack) 0).text)
    (hcap : passes < bounds.maxAdjustmentPasses)
    (h : Settles classes texts digest transportLimit bounds base stack (removed ++ [last])
      (passes + 1) result) :
    Settles classes texts digest transportLimit bounds base (last :: stack) removed passes
      result := by
  cases h with
  | kept count hcount hless hfits hpasses =>
    rw [append_assoc, Nat.add_right_comm, Nat.add_assoc]
    refine .kept (count + 1) (Nat.succ_le_succ hcount) ?_ hfits (.inr (by omega))
    intro i hi
    cases i with
    | zero => exact hover
    | succ i => exact hless i (Nat.lt_of_succ_lt_succ hi)
  | refused count bound hless hlast =>
    rw [Nat.add_right_comm, Nat.add_assoc]
    refine .refused (count + 1) bound ?_ ?_
    · intro i hi
      cases i with
      | zero => exact hover
      | succ i => exact hless i (Nat.le_of_succ_le_succ hi)
    · rw [length_cons]
      omega

section

variable {budget : EvalBudget} (hbudget : ∀ poll, budget.isExhausted poll = false)
  {stack removed : List (CostedGroup Id Key)} {passes : Nat} {ledger : Ledger Id}

include hbudget

theorem finalizeFrom_fits (h : Fits transportLimit bounds ledger.text) :
    finalizeFrom classes texts digest transportLimit bounds budget base stack removed passes
        ledger =
      .ok ⟨utf8 ledger.text, digest (utf8 ledger.text), ledger, stack.reverse, removed,
        passes⟩ := by
  unfold finalizeFrom
  simp only [hbudget, Bool.false_eq_true, if_false, serialize_fits h]

theorem finalizeFrom_exceeds (h : ¬ Fits transportLimit bounds ledger.text) :
    ∃ bound,
      finalizeFrom classes texts digest transportLimit bounds budget base stack removed passes
          ledger =
        if bounds.maxAdjustmentPasses ≤ passes then .error (.adjustmentCapExhausted passes bound)
        else
          match stack with
          | [] => .error (.adjustmentCapExhausted passes bound)
          | last :: rest =>
            finalizeFrom classes texts digest transportLimit bounds budget base rest
              (removed ++ [last]) (passes + 1) (rebuild classes texts base rest.reverse) := by
  obtain ⟨bound, hbound⟩ := serialize_exceeds h
  refine ⟨bound, ?_⟩
  rw [finalizeFrom.eq_def]
  simp only [hbudget, Bool.false_eq_true, if_false, hbound]

theorem finalizeFrom_settles (stack removed : List (CostedGroup Id Key)) (passes : Nat) :
    Settles classes texts digest transportLimit bounds base stack removed passes
      (finalizeFrom classes texts digest transportLimit bounds budget base stack removed passes
        (trimmed classes texts base stack 0)) := by
  induction stack generalizing removed passes with
  | nil =>
    by_cases hfits : Fits transportLimit bounds
        (trimmed classes texts base ([] : List (CostedGroup Id Key)) 0).text
    · rw [finalizeFrom_fits hbudget hfits]
      exact .of_fits hfits
    · obtain ⟨bound, hbound⟩ := finalizeFrom_exceeds hbudget hfits
      rw [hbound]
      split_ifs
      · exact .of_exceeds bound hfits (.inr (Nat.le_refl 0))
      · exact .of_exceeds bound hfits (.inr (Nat.le_refl 0))
  | cons last stack ih =>
    by_cases hfits : Fits transportLimit bounds
        (trimmed classes texts base (last :: stack) 0).text
    · rw [finalizeFrom_fits hbudget hfits]
      exact .of_fits hfits
    · obtain ⟨bound, hbound⟩ := finalizeFrom_exceeds hbudget hfits
      rw [hbound]
      split_ifs with hcap
      · exact .of_exceeds bound hfits (.inl hcap)
      · exact .cons hfits (Nat.lt_of_not_le hcap) (ih (removed ++ [last]) (passes + 1))

end

/-- Finalization keeps the longest prefix of the admitted groups that fits, and gives up exactly
if that takes more removals than the cap allows or than there are groups. -/
theorem finalize_keeps_longest {profile : AccountingProfile}
    {budget laterBudget finalBudget : EvalBudget} {tokenLimit : UInt64}
    {accounting laterAccounting : AccountingBounds}
    {rows : List (SelectedOccurrence Id Key)} {bytes : List Bytes}
    {required : RequiredMaterialization Id} {groups : List (Group Id Key)}
    {admission : OptionalAdmission Id Key}
    (hrequired : prepareRequired classes texts profile budget tokenLimit accounting rows bytes =
      .ok required)
    (hoptional : prepareOptional classes texts laterBudget laterAccounting required groups =
      .ok admission)
    (hbudget : ∀ poll, finalBudget.isExhausted poll = false)
    (digest : Bytes → Digest) (transportLimit : Nat) (bounds : SerializationBounds) :
    let total := admission.admitted.length
    let fits count := Fits transportLimit bounds
      (blockText texts rows bytes (admission.admitted.take count))
    let result := finalize classes texts digest transportLimit bounds finalBudget admission
    (∀ preparation, result = .ok preparation → ∃ count ≤ total,
      fits count ∧ (∀ more ≤ total, count < more → ¬ fits more) ∧
      preparation.admitted = admission.admitted.take count ∧
      preparation.removed = (admission.admitted.drop count).reverse ∧
      preparation.passes = preparation.removed.length ∧
      preparation.passes ≤ bounds.maxAdjustmentPasses ∧
      preparation.body = utf8 (blockText texts rows bytes preparation.admitted) ∧
      preparation.ledger.text = blockText texts rows bytes preparation.admitted) ∧
    ((∃ passes bound, result = .error (.adjustmentCapExhausted passes bound)) ↔
      ∀ count ≤ total, total - count ≤ bounds.maxAdjustmentPasses → ¬ fits count) ∧
    (∀ failure, result = .error failure →
      ∃ passes bound, failure = .adjustmentCapExhausted passes bound) := by
  intro total fits result
  obtain ⟨hbase, hledger⟩ := prepareOptional_ledger hoptional
  have htext : ∀ count,
      (trimmed classes texts admission.base admission.admitted.reverse count).text =
      blockText texts rows bytes (admission.admitted.take (total - count)) := by
    intro count
    rw [trimmed, rebuild_text, hbase, prepareRequired_text hrequired, drop_reverse,
      reverse_reverse, blockText]
  have hsettles : Settles classes texts digest transportLimit bounds admission.base
      admission.admitted.reverse [] 0 result := by
    have hstart : admission.ledger =
        trimmed classes texts admission.base admission.admitted.reverse 0 := by
      rw [hledger, trimmed, drop_zero, reverse_reverse, rebuild]
    have hrun := @finalizeFrom_settles Id Key Digest classes texts digest transportLimit bounds
      admission.base finalBudget hbudget admission.admitted.reverse [] 0
    rwa [← hstart] at hrun
  clear_value result
  cases hsettles with
  | kept count hcount hover hfits hcap =>
    rw [length_reverse] at hcount
    rw [htext] at hfits
    have hkept : (admission.admitted.reverse.drop count).reverse =
        admission.admitted.take (total - count) := by
      rw [drop_reverse, reverse_reverse]
    have hremoved : [] ++ admission.admitted.reverse.take count =
        (admission.admitted.drop (total - count)).reverse := by
      rw [nil_append, take_reverse]
    refine ⟨?_, ⟨nofun, ?_⟩, nofun⟩
    · intro preparation hpreparation
      obtain rfl := Except.ok.inj hpreparation
      refine ⟨total - count, Nat.sub_le _ _, hfits, ?_, hkept, hremoved, ?_, ?_, ?_, ?_⟩
      · intro more hmore hlt
        have hless := hover (total - more) (by omega)
        rwa [htext, Nat.sub_sub_self hmore] at hless
      · simp only [nil_append, length_take, length_reverse]
        omega
      · simp only
        omega
      · rw [htext, hkept]
      · rw [htext, hkept]
    · intro hnone
      exact absurd hfits (hnone (total - count) (Nat.sub_le _ _) (by omega))
  | refused count bound hover hlast =>
    rw [length_reverse] at hlast
    refine ⟨nofun, ⟨fun _ kept hkept hcap => ?_, fun _ => ⟨_, _, rfl⟩⟩, ?_⟩
    · have hless := hover (total - kept) (by omega)
      rwa [htext, Nat.sub_sub_self hkept] at hless
    · intro failure hfailure
      exact ⟨_, _, (Except.error.inj hfailure).symm⟩

/-- A required item and two groups of which one has to go. -/
theorem finalize_keeps_longest_trimming :
    ∃ required admission, sampleRequired = .ok required ∧ required.items.length = 1 ∧
      sampleOptional [spanGroup 0 3, spanGroup 1 3] required = .ok admission ∧
      ∃ preparation,
        finalize spaceNewline.classes byteTexts List.length 1000 ⟨130, 1⟩ unlimited admission =
          .ok preparation ∧ preparation.passes = 1 ∧
        preparation.passes = preparation.removed.length ∧
        preparation.body =
          utf8 (blockText byteTexts [requiredRow] [[98, 99]] preparation.admitted) := by
  have hrun : (sampleRequired >>= fun required =>
      (sampleOptional [spanGroup 0 3, spanGroup 1 3] required).map fun admission =>
        (required.items.length, (finalize spaceNewline.classes byteTexts List.length 1000 ⟨130, 1⟩
          unlimited admission).toOption.map Preparation.passes)).toOption = some (1, some 1) := by
    decide +kernel
  obtain ⟨required, hrequired, hmap⟩ := bind_eq_ok_iff.mp (toOption_eq_some_iff.mp hrun)
  obtain ⟨admission, hoptional, hanswers⟩ := map_eq_ok_iff.mp hmap
  simp only [Prod.mk.injEq] at hanswers
  obtain ⟨hitems, hfinal⟩ := hanswers
  obtain ⟨preparation, hok, hpasses⟩ := Option.map_eq_some_iff.mp hfinal
  have hpreparation := toOption_eq_some_iff.mp hok
  obtain ⟨-, -, -, -, -, -, hlength, -, hbody, -⟩ :=
    (finalize_keeps_longest hrequired hoptional (fun _ => rfl) List.length 1000
      ⟨130, 1⟩).1 preparation hpreparation
  exact ⟨required, admission, hrequired, hitems, hoptional, preparation, hpreparation, hpasses,
    hlength, hbody⟩

end

end

end Eidnara.Daemon.Packing
