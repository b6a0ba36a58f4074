import Eidnara.Daemon.Selection.Select

/-!
# Where decisions come from

A decision that a pass returns was proposed by a selector and survived the guards: its block is
not protected, and its arc would not leave reasoning alone.
-/

namespace Eidnara.Daemon.Selection

open Lib List

variable {Input F : Type} [Numbers F] {vocabulary : Vocabulary Input}
  {items : List (SelItem Input)} {frozen : List String} {ctx : SelectionContext F}
  {config : SelectionConfig} {decision : ReductionDecision}

theorem mem_of_mem_dedupeAndSort {decisions : List ReductionDecision}
    (h : decision ∈ dedupeAndSort decisions) : decision ∈ decisions := by
  obtain ⟨⟨target, best⟩, hentry, rfl⟩ := mem_map.mp h
  have hmem := EntryMap.find_collect_induct (P := fun ds best => best ∈ ds) (k := target)
    (fun d _ => mem_singleton.mpr rfl)
    (fun ds best d _ ih => by
      simp only
      split_ifs
      · exact mem_append_left _ ih
      · exact mem_append_right _ (mem_singleton.mpr rfl))
    (EntryMap.find_eq_some_iff.mpr hentry)
  exact (mem_filter.mp hmem).1

theorem mem_selectReductions
    (h : decision ∈ selectReductions vocabulary items frozen ctx config) :
    keepsDecision items ctx decision = true ∧
      ((∃ shapes withheld,
          decision ∈ arcDecisions vocabulary items frozen shapes withheld) ∨
        decision ∈ selectAgentDrops ctx (liveIds items) frozen) := by
  unfold selectReductions selectReductionsWithOutcome at h
  split_ifs at h with hdefer
  · cases h
  · obtain ⟨hmem, hkeeps⟩ := mem_filter.mp (mem_of_mem_dedupeAndSort h)
    refine ⟨hkeeps, ?_⟩
    rcases mem_append.mp hmem with harc | hagent
    · exact .inl ⟨_, _, harc⟩
    · exact .inr hagent

theorem not_protected_of_mem_selectReductions
    (h : decision ∈ selectReductions vocabulary items frozen ctx config) :
    ctx.blockIsProtected decision.targetId = false := by
  have hkeeps := (mem_selectReductions h).1
  unfold keepsDecision at hkeeps
  simp only [Bool.and_eq_true, Bool.not_eq_true'] at hkeeps
  exact hkeeps.2

end Eidnara.Daemon.Selection
