import Eidnara.Lib.Checked
import Mathlib.Data.List.Nodup

/-!
# The cache-stability core

A pass either defers, replaying the frozen bytes, or busts the cached prefix softly or
hard.  The frozen units, the anchor of the covered prefix, the deferred queue and the
reconcile flag are one value, changed by `step` alone.
-/

namespace Eidnara.CacheStability

open Lib List

/-- How a pass treats the cached prefix. -/
inductive Action
  | softPlus
  | soft
  | hard
  deriving DecidableEq, Repr

inductive DurabilityClass
  | episode
  | lineage
  deriving DecidableEq, Repr

structure FrozenUnit where
  key : String
  kind : String
  frozenPayload : String
  durabilityClass : DurabilityClass
  resetRule : String
  deriving DecidableEq, Repr

inductive StepError
  | versionExhausted (version : Nat)
  | duplicateFrozenKey (key : String)
  deriving DecidableEq, Repr

/-- The durable state of one session.  `version` is a 64-bit counter and the empty
`boundaryId` says that no boundary was ever minted. -/
structure CoreState where
  version : Nat
  boundaryId : String
  frozenUnits : List FrozenUnit
  pendingChanges : List FrozenUnit
  reconcilePending : Bool
  deriving DecidableEq, Repr

structure PassInput where
  proposed : Action
  boundaryPresent : String
  renderedUnits : List FrozenUnit := []
  queued : List FrozenUnit := []
  newBoundaryId : Option String := none
  runStarted : Bool := false
  deriving DecidableEq, Repr

structure StepResult where
  action : Action
  reconcilePending : Bool
  deriving DecidableEq, Repr

def FrozenUnit.isLineage (unit : FrozenUnit) : Bool := unit.durabilityClass = .lineage

/-! ## Freezing units -/

/-- Freeze one unit: the first unit of its key gives its slot, a new key is appended. -/
def applyUnit (frozen : List FrozenUnit) (unit : FrozenUnit) : List FrozenUnit :=
  match frozen with
  | [] => [unit]
  | head :: rest => if head.key = unit.key then unit :: rest else head :: applyUnit rest unit

def applyUnits (frozen units : List FrozenUnit) : List FrozenUnit := units.foldl applyUnit frozen

/-- The first key that a list of keys repeats. -/
def firstDuplicate : List String → List String → Option String
  | _, [] => none
  | seen, key :: rest =>
    if key ∈ seen then some key else firstDuplicate (key :: seen) rest

namespace CoreState

def empty : CoreState :=
  { version := 0, boundaryId := "", frozenUnits := [], pendingChanges := [],
    reconcilePending := false }

def keys (s : CoreState) : List String := s.frozenUnits.map (·.key)

def cachedPrefixBytes (s : CoreState) : String := String.join (s.frozenUnits.map (·.frozenPayload))

/-- The run boundary: episode units leave the frozen set and the deferred queue. -/
def resetEpisodes (s : CoreState) : CoreState :=
  { s with
    frozenUnits := s.frozenUnits.filter (·.isLineage)
    pendingChanges := s.pendingChanges.filter (·.isLineage) }

def stepDefer (s : CoreState) (input : PassInput) (boundaryMatch : Bool) : CoreState :=
  { s with
    pendingChanges := s.pendingChanges ++ input.queued
    reconcilePending := !boundaryMatch && s.boundaryId ≠ "" }

def stepSoft (s : CoreState) (input : PassInput) (boundaryMatch : Bool) : CoreState :=
  let reconcilePending := s.reconcilePending || (!boundaryMatch && s.boundaryId ≠ "")
  { s with
    frozenUnits := applyUnits s.frozenUnits input.renderedUnits
    reconcilePending := reconcilePending
    boundaryId :=
      if boundaryMatch && !reconcilePending then input.newBoundaryId.getD s.boundaryId
      else s.boundaryId
    version := s.version + 1 }

def stepHard (s : CoreState) (input : PassInput) (boundaryMatch : Bool) : CoreState :=
  let renderedKeys := input.renderedUnits.map (·.key)
  -- A deferred copy of a key that the bust rendered is stale.
  let units :=
    input.renderedUnits ++ s.pendingChanges.filter fun queued => queued.key ∉ renderedKeys
  let boundaryId := input.newBoundaryId.getD s.boundaryId
  { s with
    frozenUnits := applyUnits [] units
    pendingChanges := []
    boundaryId := boundaryId
    reconcilePending := !input.newBoundaryId.isSome && !boundaryMatch && boundaryId ≠ ""
    version := s.version + 1 }

/-- The effect of a pass whose loaded state was accepted. -/
def perform (s : CoreState) (input : PassInput) : CoreState :=
  let boundaryMatch := input.boundaryPresent = s.boundaryId
  let s := if input.runStarted then s.resetEpisodes else s
  match input.proposed with
  | .softPlus => s.stepDefer input boundaryMatch
  | .soft => s.stepSoft input boundaryMatch
  | .hard => s.stepHard input boundaryMatch

def step (s : CoreState) (input : PassInput) : Except StepError (StepResult × CoreState) :=
  if input.proposed ≠ .softPlus ∧ s.version = u64Max then
    .error (.versionExhausted s.version)
  else
    match firstDuplicate [] s.keys with
    | some key => .error (.duplicateFrozenKey key)
    | none =>
      let s := s.perform input
      .ok (⟨input.proposed, s.reconcilePending⟩, s)

/-- A sequence of passes, all of them successful. -/
def run (s : CoreState) : List PassInput → Except StepError CoreState
  | [] => .ok s
  | input :: rest => do
    let (_, s) ← s.step input
    s.run rest

end CoreState

/-! ## Frozen keys -/

theorem keys_applyUnit (frozen : List FrozenUnit) (unit : FrozenUnit) :
    (applyUnit frozen unit).map (·.key) =
      if unit.key ∈ frozen.map (·.key) then frozen.map (·.key)
      else frozen.map (·.key) ++ [unit.key] := by
  induction frozen with
  | nil => simp [applyUnit]
  | cons head rest ih =>
    unfold applyUnit
    by_cases hkey : head.key = unit.key
    · simp [hkey]
    · rw [if_neg hkey, map_cons, ih, map_cons]
      have hne : ¬unit.key = head.key := fun h => hkey h.symm
      by_cases hmem : unit.key ∈ rest.map (·.key)
      · rw [if_pos hmem, if_pos (mem_cons_of_mem _ hmem)]
      · rw [if_neg hmem, if_neg (by simp only [mem_cons, not_or]; exact ⟨hne, hmem⟩),
          cons_append]

theorem nodup_keys_applyUnit {frozen : List FrozenUnit} (unit : FrozenUnit)
    (h : (frozen.map (·.key)).Nodup) : ((applyUnit frozen unit).map (·.key)).Nodup := by
  rw [keys_applyUnit]
  split_ifs with hmem
  · exact h
  · exact List.Nodup.append h (nodup_singleton _) (by simpa using hmem)

theorem nodup_keys_applyUnits {frozen : List FrozenUnit} (units : List FrozenUnit)
    (h : (frozen.map (·.key)).Nodup) : ((applyUnits frozen units).map (·.key)).Nodup := by
  induction units generalizing frozen with
  | nil => exact h
  | cons unit rest ih => exact ih (nodup_keys_applyUnit unit h)

theorem firstDuplicate_eq_none_iff {seen keys : List String} :
    firstDuplicate seen keys = none ↔ keys.Nodup ∧ ∀ key ∈ keys, key ∉ seen := by
  induction keys generalizing seen with
  | nil => simp [firstDuplicate]
  | cons key rest ih =>
    unfold firstDuplicate
    split_ifs with hmem
    · simp [hmem]
    · rw [ih, nodup_cons]
      simp only [mem_cons, not_or]
      constructor
      · rintro ⟨hnodup, hrest⟩
        refine ⟨⟨fun h => (hrest key h).1 rfl, hnodup⟩, ?_⟩
        rintro k (rfl | hk)
        · exact hmem
        · exact (hrest k hk).2
      · rintro ⟨⟨hnot, hnodup⟩, hall⟩
        exact ⟨hnodup, fun k hk => ⟨fun h => hnot (h ▸ hk), hall k (.inr hk)⟩⟩

namespace CoreState

variable {s t u : CoreState} {input : PassInput} {result : StepResult}

/-- What every state of a run has. -/
def Distinct (s : CoreState) : Prop := s.keys.Nodup

theorem distinct_empty : empty.Distinct := nodup_nil

theorem Distinct.resetEpisodes (h : s.Distinct) : s.resetEpisodes.Distinct :=
  List.Nodup.sublist (List.Sublist.map _ filter_sublist) h

theorem Distinct.perform (h : s.Distinct) (input : PassInput) : (s.perform input).Distinct := by
  unfold CoreState.perform
  generalize hstart : (if input.runStarted then s.resetEpisodes else s) = start
  have hdistinct : start.Distinct := by
    rw [← hstart]
    split_ifs
    · exact h.resetEpisodes
    · exact h
  cases input.proposed with
  | softPlus => exact hdistinct
  | soft => exact nodup_keys_applyUnits _ hdistinct
  | hard => exact nodup_keys_applyUnits _ nodup_nil

/-! ## One step -/

theorem step_cases (h : s.step input = .ok (result, t)) :
    t = s.perform input ∧ s.Distinct ∧ (input.proposed ≠ .softPlus → s.version ≠ u64Max) ∧
      result = ⟨input.proposed, t.reconcilePending⟩ := by
  unfold step at h
  split_ifs at h with hversion
  cases hdup : firstDuplicate [] s.keys with
  | some key =>
    rw [hdup] at h
    cases h
  | none =>
    rw [hdup] at h
    obtain ⟨rfl, rfl⟩ := h
    refine ⟨rfl, (firstDuplicate_eq_none_iff.mp hdup).1, ?_, rfl⟩
    intro hbust heq
    exact hversion ⟨hbust, heq⟩

theorem step_ne_duplicate (h : s.Distinct) (input : PassInput) (key : String) :
    s.step input ≠ .error (.duplicateFrozenKey key) := by
  intro herror
  have hdup : firstDuplicate [] s.keys = none :=
    firstDuplicate_eq_none_iff.mpr ⟨h, fun _ _ => not_mem_nil⟩
  unfold step at herror
  rw [hdup] at herror
  split_ifs at herror
  cases herror

theorem version_perform (s : CoreState) (input : PassInput) :
    (s.perform input).version =
      s.version + if input.proposed ≠ .softPlus then 1 else 0 := by
  unfold perform
  cases hproposed : input.proposed <;> cases hrun : input.runStarted <;>
    simp [stepDefer, stepSoft, stepHard, resetEpisodes]

theorem cachedPrefixBytes_perform_defer (hproposed : input.proposed = .softPlus)
    (hrun : input.runStarted = false) :
    (s.perform input).cachedPrefixBytes = s.cachedPrefixBytes := by
  simp [perform, hproposed, hrun, stepDefer, cachedPrefixBytes]

theorem cachedPrefixBytes_perform_runStarted (hproposed : input.proposed = .softPlus)
    (hrun : input.runStarted = true) :
    (s.perform input).cachedPrefixBytes =
      String.join ((s.frozenUnits.filter (·.isLineage)).map (·.frozenPayload)) := by
  simp [perform, hproposed, hrun, stepDefer, cachedPrefixBytes, resetEpisodes]

/-- A run boundary is the removal of the episode units, whatever the pass then does. -/
theorem step_runStarted (h : s.Distinct) (hrun : input.runStarted = true) :
    s.step input = s.resetEpisodes.step { input with runStarted := false } := by
  have hdup : firstDuplicate [] s.keys = none :=
    firstDuplicate_eq_none_iff.mpr ⟨h, fun _ _ => not_mem_nil⟩
  have hreset : firstDuplicate [] s.resetEpisodes.keys = none :=
    firstDuplicate_eq_none_iff.mpr ⟨h.resetEpisodes, fun _ _ => not_mem_nil⟩
  have hperform : s.perform input = s.resetEpisodes.perform { input with runStarted := false } := by
    obtain ⟨proposed, present, rendered, queued, minted, started⟩ := input
    obtain rfl : started = true := hrun
    cases proposed <;> rfl
  unfold step
  rw [hdup, hreset, ← hperform]
  rfl

theorem boundaryId_perform (hchanged : (s.perform input).boundaryId ≠ s.boundaryId) :
    (input.proposed = .hard ∧ input.newBoundaryId.isSome) ∨
      (input.proposed = .soft ∧ input.boundaryPresent = s.boundaryId ∧
        s.reconcilePending = false) := by
  have hreset : (if input.runStarted then s.resetEpisodes else s).boundaryId = s.boundaryId := by
    split_ifs <;> rfl
  have hflag : (if input.runStarted then s.resetEpisodes else s).reconcilePending =
      s.reconcilePending := by
    split_ifs <;> rfl
  unfold perform at hchanged
  cases hproposed : input.proposed with
  | softPlus =>
    simp only [hproposed, stepDefer] at hchanged
    exact absurd hreset hchanged
  | soft =>
    simp only [hproposed, stepSoft, hreset, hflag] at hchanged
    split_ifs at hchanged with hguard
    · simp only [Bool.and_eq_true, decide_eq_true_eq, Bool.not_eq_true', Bool.or_eq_false_iff]
        at hguard
      exact .inr ⟨rfl, hguard.1, hguard.2.1⟩
    · exact absurd rfl hchanged
  | hard =>
    simp only [hproposed, stepHard, hreset] at hchanged
    cases hminted : input.newBoundaryId with
    | none => simp [hminted] at hchanged
    | some _ => exact .inl ⟨rfl, rfl⟩

/-! ## A lost anchor -/

/-- The passes that re-establish `anchor`: a defer that sees it, or a hard bust that mints an
anchor or sees it. -/
def Restores (anchor : String) (input : PassInput) : Prop :=
  (input.proposed = .softPlus ∧ input.boundaryPresent = anchor) ∨
    (input.proposed = .hard ∧ (input.newBoundaryId.isSome ∨ input.boundaryPresent = anchor))

/-- The stale prefix is still anchored at `anchor` and a reconcile is due. -/
def Lost (anchor : String) (s : CoreState) : Prop :=
  s.reconcilePending = true ∧ s.boundaryId = anchor

theorem lost_perform_of_absent (hproposed : input.proposed ≠ .hard) (hanchor : s.boundaryId ≠ "")
    (habsent : input.boundaryPresent ≠ s.boundaryId) : (s.perform input).Lost s.boundaryId := by
  unfold perform Lost
  cases hrun : input.runStarted <;> cases hkind : input.proposed <;>
    simp_all [stepDefer, stepSoft, resetEpisodes]

theorem Lost.perform {anchor : String} (hlost : s.Lost anchor) (hanchor : anchor ≠ "")
    (hkeep : ¬Restores anchor input) : (s.perform input).Lost anchor := by
  obtain ⟨hpending, rfl⟩ := hlost
  unfold CoreState.perform Lost
  cases hrun : input.runStarted <;> cases hkind : input.proposed <;>
    simp_all [stepDefer, stepSoft, stepHard, resetEpisodes, Restores]

/-! ## Runs -/

theorem run_cons_eq_ok {rest : List PassInput} (h : s.run (input :: rest) = .ok t) :
    (s.perform input).run rest = .ok t ∧ s.Distinct := by
  obtain ⟨⟨result, next⟩, hstep, hrest⟩ := bind_eq_ok_iff.mp h
  obtain ⟨rfl, hdistinct, -, -⟩ := step_cases hstep
  exact ⟨hrest, hdistinct⟩

variable {inputs : List PassInput}

theorem run_induction {P : CoreState → Prop} {allowed : PassInput → Prop}
    (hstep : ∀ s input, allowed input → P s → P (s.perform input))
    (hallowed : ∀ input ∈ inputs, allowed input) (hstart : P s) (h : s.run inputs = .ok t) :
    P t := by
  induction inputs generalizing s with
  | nil =>
    cases h
    exact hstart
  | cons input rest ih =>
    refine ih (fun i hi => hallowed i (mem_cons_of_mem _ hi)) ?_ (run_cons_eq_ok h).1
    exact hstep s input (hallowed input mem_cons_self) hstart

theorem distinct_run (hstart : s.Distinct) (h : s.run inputs = .ok t) : t.Distinct :=
  run_induction (P := Distinct) (fun _ input (_ : True) hs => hs.perform input)
    (fun _ _ => trivial) hstart h

theorem version_run (h : s.run inputs = .ok t) :
    t.version = s.version + inputs.countP (fun input => input.proposed ≠ .softPlus) := by
  induction inputs generalizing s with
  | nil =>
    cases h
    rfl
  | cons input rest ih =>
    rw [ih (run_cons_eq_ok h).1, version_perform, countP_cons]
    simp only [decide_eq_true_eq]
    omega

theorem cachedPrefixBytes_run_defers
    (hdefer : ∀ input ∈ inputs, input.proposed = .softPlus ∧ input.runStarted = false)
    (h : s.run inputs = .ok t) : t.cachedPrefixBytes = s.cachedPrefixBytes :=
  run_induction (P := fun u => u.cachedPrefixBytes = s.cachedPrefixBytes)
    (fun _ _ hi hs => (cachedPrefixBytes_perform_defer hi.1 hi.2).trans hs) hdefer rfl h

theorem lost_run {anchor : String} (hlost : s.Lost anchor) (hanchor : anchor ≠ "")
    (hkeep : ∀ input ∈ inputs, ¬Restores anchor input) (h : s.run inputs = .ok t) : t.Lost anchor :=
  run_induction (P := Lost anchor) (fun _ _ hi hs => hs.perform hanchor hi) hkeep hlost h

/-- Every state that successful passes reach from the empty state: its frozen keys are distinct,
so no pass on it meets a duplicate; its version counts the busts; deferring keeps its bytes and
a run boundary drops the episode units only; its anchor moves only where the prefix is rebuilt
or known to be live; and an anchor found absent stays named, with the reconcile pending, until
a pass restores it. -/
theorem runs_never_strand {inputs : List PassInput} (hrun : empty.run inputs = .ok s) :
    s.keys.Nodup ∧
    (∀ input key, s.step input ≠ .error (.duplicateFrozenKey key)) ∧
    s.version = inputs.countP (fun input => input.proposed ≠ .softPlus) ∧
    (∀ defers t, (∀ input ∈ defers, input.proposed = .softPlus ∧ input.runStarted = false) →
      s.run defers = .ok t → t.cachedPrefixBytes = s.cachedPrefixBytes) ∧
    (∀ input, input.runStarted = true →
      s.step input = s.resetEpisodes.step { input with runStarted := false }) ∧
    (∀ input result t, input.proposed = .softPlus → input.runStarted = true →
      s.step input = .ok (result, t) →
      t.cachedPrefixBytes =
        String.join ((s.frozenUnits.filter (·.durabilityClass ≠ .episode)).map (·.frozenPayload))) ∧
    (∀ input result t, s.step input = .ok (result, t) → t.boundaryId ≠ s.boundaryId →
      (input.proposed = .hard ∧ input.newBoundaryId.isSome) ∨
        (input.proposed = .soft ∧ input.boundaryPresent = s.boundaryId ∧
          s.reconcilePending = false)) ∧
    (∀ input result t later u, s.step input = .ok (result, t) → input.proposed ≠ .hard →
      s.boundaryId ≠ "" → input.boundaryPresent ≠ s.boundaryId →
      (∀ pass ∈ later, ¬Restores s.boundaryId pass) → t.run later = .ok u →
      u.reconcilePending = true ∧ u.boundaryId = s.boundaryId) := by
  have hdistinct : s.Distinct := distinct_run distinct_empty hrun
  refine ⟨hdistinct, step_ne_duplicate hdistinct, ?_, ?_, ?_, ?_, ?_, ?_⟩
  · rw [version_run hrun]
    exact Nat.zero_add _
  · intro defers t hdefer ht
    exact cachedPrefixBytes_run_defers hdefer ht
  · intro input hstarted
    exact step_runStarted hdistinct hstarted
  · intro input result t hproposed hstarted hstep
    obtain ⟨rfl, -⟩ := step_cases hstep
    rw [cachedPrefixBytes_perform_runStarted hproposed hstarted]
    congr 3
    funext unit
    unfold FrozenUnit.isLineage
    cases unit.durabilityClass <;> rfl
  · intro input result t hstep hchanged
    obtain ⟨rfl, -⟩ := step_cases hstep
    exact boundaryId_perform hchanged
  · intro input result t later u hstep hproposed hanchor habsent hkeep hlater
    obtain ⟨rfl, -⟩ := step_cases hstep
    exact lost_run (lost_perform_of_absent hproposed hanchor habsent) hanchor hkeep hlater

/-- A hard bust mints an anchor, a defer with a run boundary does not see it and queues a unit,
and a soft bust follows: the anchor is still named and the reconcile pending. -/
theorem runs_never_strand_reverted :
    let unit : FrozenUnit := ⟨"m0", "baseline", "summary", .lineage, ""⟩
    let minted : PassInput :=
      { proposed := .hard, boundaryPresent := "", renderedUnits := [unit, unit],
        newBoundaryId := some "a" }
    let reverted : PassInput :=
      { proposed := .softPlus, boundaryPresent := "b", queued := [unit], runStarted := true }
    let soft : PassInput := { proposed := .soft, boundaryPresent := "a", newBoundaryId := some "c" }
    ∃ s t u, empty.run [minted] = .ok s ∧ s.step reverted = .ok (⟨.softPlus, true⟩, t) ∧
      t.run [soft] = .ok u ∧ s.version = 1 ∧ u.reconcilePending = true ∧ u.boundaryId = "a" := by
  intro unit minted reverted soft
  have hrun : empty.run [minted] = .ok (empty.perform minted) := rfl
  obtain ⟨-, -, hversion, -, -, -, -, hlost⟩ := runs_never_strand hrun
  refine ⟨_, _, _, hrun, rfl, rfl, hversion, ?_⟩
  refine hlost reverted _ _ [soft] _ rfl (by decide) (by decide) (by decide) ?_ rfl
  intro pass hpass
  obtain rfl := mem_singleton.mp hpass
  rintro (⟨h, -⟩ | ⟨h, -⟩) <;> cases h

end CoreState

end Eidnara.CacheStability
