import Eidnara.CacheStability.Core
import Mathlib.Data.List.Induction

/-!
# How old a frozen unit can be

A deferred copy waits for the next hard bust, which drops it only if that bust renders its key
again.  What a soft bust rendered for the key in between is not compared with it.
-/

namespace Eidnara.CacheStability

open List

/-- The last unit of a key. -/
def latest (units : List FrozenUnit) (key : String) : Option FrozenUnit :=
  units.reverse.find? (·.key = key)

variable {units frozen : List FrozenUnit} {unit other : FrozenUnit} {key : String}

theorem latest_append (before after : List FrozenUnit) (key : String) :
    latest (before ++ after) key = (latest after key).or (latest before key) := by
  rw [latest, reverse_append, find?_append]
  rfl

theorem latest_eq_none_iff : latest units key = none ↔ ∀ unit ∈ units, unit.key ≠ key := by
  simp [latest]

theorem key_mem_of_latest (h : latest units key = some unit) : key ∈ units.map (·.key) :=
  mem_map.mpr ⟨unit, mem_reverse.mp (mem_of_find?_eq_some h),
    of_decide_eq_true (find?_some h :)⟩

theorem latest_filter (keep : String → Bool) (hkeep : keep key = true) :
    latest (units.filter (keep ·.key)) key = latest units key := by
  rw [latest, ← filter_reverse, find?_filter]
  refine congrArg (List.find? · units.reverse) (funext fun unit => ?_)
  by_cases hkey : unit.key = key <;> simp [hkey, hkeep]

theorem mem_applyUnit (hnodup : (frozen.map (·.key)).Nodup) (h : unit ∈ applyUnit frozen other) :
    unit = other ∨ unit ∈ frozen ∧ unit.key ≠ other.key := by
  induction frozen with
  | nil => exact .inl (mem_singleton.mp h)
  | cons head rest ih =>
    obtain ⟨hnot, hnodup⟩ := nodup_cons.mp hnodup
    unfold applyUnit at h
    split_ifs at h with hkey
    · rcases mem_cons.mp h with rfl | hrest
      · exact .inl rfl
      · refine .inr ⟨mem_cons_of_mem _ hrest, fun heq => hnot ?_⟩
        exact mem_map.mpr ⟨unit, hrest, heq.trans hkey.symm⟩
    · rcases mem_cons.mp h with rfl | hrest
      · exact .inr ⟨mem_cons_self, hkey⟩
      · exact (ih hnodup hrest).imp_right fun hold => ⟨mem_cons_of_mem _ hold.1, hold.2⟩

/-- Freezing a list from nothing keeps the last unit of every key. -/
theorem latest_of_mem_applyUnits (h : unit ∈ applyUnits [] units) :
    latest units unit.key = some unit := by
  induction units using List.reverseRecOn with
  | nil => cases h
  | append_singleton units other ih =>
    rw [applyUnits, foldl_concat] at h
    rw [latest_append]
    have hnodup : ((applyUnits [] units).map (·.key)).Nodup :=
      nodup_keys_applyUnits units (by exact nodup_nil)
    rcases mem_applyUnit hnodup h with rfl | ⟨hold, hkey⟩
    · simp [latest]
    · rw [ih hold, latest_eq_none_iff.mpr (by simpa using hkey.symm)]
      rfl

/-- All that passes supplied, each rendered unit after the queued units of its pass. -/
def supplied (inputs : List PassInput) : List FrozenUnit :=
  inputs.flatMap fun input => input.queued ++ input.renderedUnits

theorem latest_supplied_concat (inputs : List PassInput) (input : PassInput) (key : String) :
    latest (supplied (inputs ++ [input])) key =
      (latest input.renderedUnits key).or
        ((latest input.queued key).or (latest (supplied inputs) key)) := by
  simp [supplied, latest_append, Option.or_assoc]

namespace CoreState

variable {s t : CoreState} {input : PassInput} {inputs before : List PassInput}

/-- A key with a deferred copy is supplied by queueing it alone, until a hard bust. -/
def Fresh (s : CoreState) (input : PassInput) : Prop :=
  match input.proposed with
  | .softPlus =>
    ∀ unit ∈ input.renderedUnits, unit.key ∉ (s.pendingChanges ++ input.queued).map (·.key)
  | .soft => ∀ unit ∈ input.queued ++ input.renderedUnits, unit.key ∉ s.pendingChanges.map (·.key)
  | .hard => ∀ unit ∈ input.queued, unit.key ∈ s.pendingChanges.map (·.key) →
    unit.key ∈ input.renderedUnits.map (·.key)

def FreshRun : CoreState → List PassInput → Prop
  | _, [] => True
  | s, input :: rest => s.Fresh input ∧ FreshRun (s.perform input) rest

/-- The queue holds the last supply of its keys, and so does the frozen set after a hard bust. -/
structure Current (before : List PassInput) (s : CoreState) : Prop where
  queue : ∀ key unit, latest s.pendingChanges key = some unit →
    latest (supplied before) key = some unit
  frozen : ∀ input, before.getLast? = some input → input.proposed = .hard →
    ∀ unit ∈ s.frozenUnits, latest (supplied before) unit.key = some unit

theorem Current.perform (h : Current before s) (hrun : input.runStarted = false)
    (hfresh : s.Fresh input) : Current (before ++ [input]) (s.perform input) := by
  unfold Fresh at hfresh
  refine ⟨fun key unit hunit => ?_, fun last hlast hhard unit hunit => ?_⟩
  · unfold CoreState.perform at hunit
    rw [hrun] at hunit
    cases hproposed : input.proposed with
    | softPlus =>
      rw [hproposed] at hfresh hunit
      have hkey := key_mem_of_latest hunit
      rw [latest_supplied_concat,
        latest_eq_none_iff.mpr fun other hother heq => hfresh other hother (heq ▸ hkey)]
      replace hunit : latest (s.pendingChanges ++ input.queued) key = some unit := hunit
      rw [latest_append] at hunit
      cases hqueued : latest input.queued key with
      | none =>
        rw [hqueued] at hunit
        exact h.queue key unit hunit
      | some _ => rwa [hqueued] at hunit
    | soft =>
      rw [hproposed] at hfresh hunit
      have hkey : key ∈ s.pendingChanges.map (·.key) := key_mem_of_latest hunit
      have hnone := latest_eq_none_iff.mpr fun other hother heq =>
        hfresh other hother (heq ▸ hkey)
      rw [latest_append, Option.or_eq_none_iff] at hnone
      rw [latest_supplied_concat, hnone.1, hnone.2]
      exact h.queue key unit hunit
    | hard =>
      rw [hproposed] at hunit
      cases hunit
  · obtain rfl : input = last := by simpa using hlast
    unfold CoreState.perform at hunit
    rw [hrun, hhard] at hunit
    rw [hhard] at hfresh
    have hunits := latest_of_mem_applyUnits hunit
    rw [latest_append] at hunits
    rw [latest_supplied_concat]
    by_cases hkey : unit.key ∈ input.renderedUnits.map (·.key)
    · rw [latest_eq_none_iff.mpr fun other hother heq => ?_, Option.none_or] at hunits
      · rw [hunits]
        rfl
      · exact of_decide_eq_true (mem_filter.mp hother).2 (heq ▸ hkey)
    · have hnone : latest input.renderedUnits unit.key = none :=
        latest_eq_none_iff.mpr fun other hother heq => hkey (heq ▸ mem_map_of_mem hother)
      rw [hnone, Option.or_none, latest_filter (fun key => key ∉ input.renderedUnits.map (·.key))
        (decide_eq_true hkey)] at hunits
      have hqueued : latest input.queued unit.key = none := latest_eq_none_iff.mpr
        fun other hother heq => hkey (heq ▸ hfresh other hother (heq ▸ key_mem_of_latest hunits))
      rw [hnone, hqueued]
      exact h.queue _ _ hunits

theorem Current.run (h : Current before s) (hrun : ∀ input ∈ inputs, input.runStarted = false)
    (hfresh : FreshRun s inputs) (hok : s.run inputs = .ok t) : Current (before ++ inputs) t := by
  induction inputs generalizing s before with
  | nil =>
    cases hok
    rwa [append_nil]
  | cons input rest ih =>
    obtain ⟨hinput, hrest⟩ := forall_mem_cons.mp hrun
    rw [append_cons]
    exact ih (h.perform hinput hfresh.1) hrest hfresh.2 (run_cons_eq_ok hok).1

/-- Where every pass meets `Fresh`, a frozen unit is the last supply of its key after every hard
bust. -/
theorem frozen_current (inputs : List PassInput) (hard : PassInput)
    (hproposed : hard.proposed = .hard)
    (hstarted : ∀ input ∈ inputs ++ [hard], input.runStarted = false)
    (hfresh : FreshRun empty (inputs ++ [hard])) (hrun : empty.run (inputs ++ [hard]) = .ok s) :
    ∀ unit ∈ s.frozenUnits, latest (supplied (inputs ++ [hard])) unit.key = some unit := by
  have hstart : Current [] empty := by
    refine ⟨fun key unit h => ?_, fun input h => ?_⟩ <;> cases h
  exact (hstart.run hstarted hfresh hrun).frozen hard getLast?_concat hproposed

def sampleUnit (payload : String) : FrozenUnit := ⟨"m1", "delta", payload, .lineage, ""⟩

def deferOld : PassInput :=
  { proposed := .softPlus, boundaryPresent := "", queued := [sampleUnit "old"] }

theorem frozen_current_rendered :
    let hard : PassInput :=
      { proposed := .hard, boundaryPresent := "", renderedUnits := [sampleUnit "new"] }
    ∃ s, empty.run [deferOld, hard] = .ok s ∧
      latest (supplied [deferOld, hard]) "m1" = some (sampleUnit "new") ∧
      ∀ unit ∈ s.frozenUnits, latest (supplied [deferOld, hard]) unit.key = some unit := by
  intro hard
  refine ⟨_, rfl, by decide, frozen_current [deferOld] hard rfl (by decide) ?_ rfl⟩
  simp [FreshRun, Fresh, deferOld, hard]

/-- A copy deferred before a soft bust rendered its key is what a hard bust freezes that does not
render the key. -/
theorem deferred_copy_outlives_soft :
    let soft : PassInput :=
      { proposed := .soft, boundaryPresent := "", renderedUnits := [sampleUnit "new"] }
    let hard : PassInput := { proposed := .hard, boundaryPresent := "" }
    ∃ s, empty.run [deferOld, soft, hard] = .ok s ∧ s.frozenUnits = [sampleUnit "old"] ∧
      latest (supplied [deferOld, soft, hard]) "m1" = some (sampleUnit "new") :=
  ⟨_, rfl, rfl, by decide⟩

end CoreState

end Eidnara.CacheStability
