import Eidnara.Daemon.Boundary.Resolve

/-!
# The boundary separates no call from its result

Every adjustment of the boundary ends in a fence over the completed arcs.  A fence result is
crossed by no completed arc, and where none crosses the floor a fence never moves a boundary up
past the floor, which keeps recent unanswered calls out of the head.
-/

namespace Eidnara.Daemon.Boundary

open Lib Selection List

variable {Input F : Type}

/-! ## The token index answers every query -/

namespace TokenIndex

variable (index : TokenIndex F)

theorem terminalOrdinal_le : index.terminalOrdinal ≤ u64Max := by
  unfold terminalOrdinal
  cases index.ordinals.getLast? with
  | none => exact Nat.le_of_ble_eq_true rfl
  | some last => exact saturatingSucc_le last

theorem clampOrdinal_le (h : index.ordinals ≠ []) (ordinal : Nat) :
    index.clampOrdinal ordinal ≤ u64Max := by
  unfold clampOrdinal
  rw [isEmpty_eq_false_iff.mpr h, if_neg Bool.false_ne_true]
  exact (min_le_right _ _).trans index.terminalOrdinal_le

theorem lowerBound_le (ordinal : Nat) : index.lowerBound ordinal ≤ index.ordinals.length :=
  (takeWhile_sublist _).length_le

theorem exists_total {i : Nat} (h : i ≤ index.ordinals.length) :
    ∃ total, index.totals[i]? = some total :=
  ⟨_, getElem?_eq_getElem (by rw [index.length_totals]; omega)⟩

theorem exists_exclusiveEndForPrefixIndex {i : Nat} (h : i ≤ index.ordinals.length) :
    ∃ ordinal, index.exclusiveEndForPrefixIndex i = some ordinal := by
  unfold exclusiveEndForPrefixIndex
  split_ifs with hzero
  · exact ⟨_, rfl⟩
  · rw [getElem?_eq_getElem (by omega)]
    exact ⟨_, rfl⟩

variable [Numbers F]

theorem extend_ne_nil (entries : List (Nat × F)) (ordinal : Nat) (total : F) :
    extend entries ordinal total ≠ [] := by
  cases entries with
  | nil => exact cons_ne_nil _ _
  | cons entry rest =>
    unfold extend
    simp only
    split_ifs <;> exact cons_ne_nil _ _

theorem ordinals_ne_nil {messages : List (BoundaryMsg Input)} (h : messages ≠ []) :
    (new messages : TokenIndex F).ordinals ≠ [] := by
  have hsorted : sortByKey (·.messageOrdinal) messages ≠ [] := fun hnil =>
    h (nil_perm.mp (hnil ▸ perm_sortByKey))
  -- The last message to be added leaves the entries nonempty.
  have hlast := dropLast_append_getLast hsorted
  unfold new
  simp only [ne_eq, map_eq_nil_iff, reverse_eq_nil_iff]
  rw [← hlast, foldl_append]
  exact extend_ne_nil _ _ _

theorem exists_tokenForOrdinal (ordinal : Nat) :
    ∃ tokens, index.tokenForOrdinal ordinal = some tokens := by
  unfold tokenForOrdinal
  cases hfind : index.ordinals.findIdx? (· = ordinal) with
  | none => exact ⟨_, rfl⟩
  | some i =>
    obtain ⟨hlt, -⟩ := findIdx?_eq_some_iff_getElem.mp hfind
    obtain ⟨after, hafter⟩ := index.exists_total (i := i + 1) hlt
    obtain ⟨before, hbefore⟩ := index.exists_total (i := i) hlt.le
    exact ⟨after - before, by simp [hafter, hbefore]⟩

theorem exists_suffixTokensFromOrdinal (ordinal : Nat) :
    ∃ tokens, index.suffixTokensFromOrdinal ordinal = some tokens := by
  obtain ⟨total, htotal⟩ := index.exists_total (index.lowerBound_le ordinal)
  unfold suffixTokensFromOrdinal
  rw [htotal]
  split_ifs <;> exact ⟨_, rfl⟩

theorem exists_rangeTokens (startInclusive endExclusive : Nat) :
    ∃ tokens, index.rangeTokens startInclusive endExclusive = some tokens := by
  have htotal (ordinal : Nat) := index.exists_total (index.lowerBound_le ordinal)
  obtain ⟨after, hafter⟩ := htotal (min (max endExclusive (max startInclusive index.firstOrdinal))
    index.terminalOrdinal)
  obtain ⟨before, hbefore⟩ := htotal (max startInclusive index.firstOrdinal)
  simp only [rangeTokens, hafter, hbefore, some_bind]
  split_ifs <;> exact ⟨_, rfl⟩

/-- The interval shrinks at each step, so a search with more fuel than its width returns. -/
theorem exists_search (cut : F) (fuel lo hi best : Nat) (hlo : lo ≤ hi + 1)
    (hfuel : hi + 1 < lo + fuel) (hhi : hi ≤ index.ordinals.length)
    (hbest : best ≤ index.ordinals.length) :
    ∃ found, index.search cut fuel lo hi best = some found ∧ found ≤ index.ordinals.length := by
  induction fuel generalizing lo hi best with
  | zero => omega
  | succ fuel ih =>
    unfold search
    by_cases hle : lo ≤ hi
    · obtain ⟨total, htotal⟩ := index.exists_total (i := (lo + hi) / 2) (by omega)
      simp only [if_pos hle, htotal]
      split_ifs with hcut hzero
      · exact ih _ _ _ (by omega) (by omega) hhi (by omega)
      · exact ⟨best, rfl, hbest⟩
      · exact ih _ _ _ (by omega) (by omega) (by omega) hbest
    · rw [if_neg hle]
      exact ⟨best, rfl, hbest⟩

theorem exists_findSuffixStartForTokens (tokens : F) :
    ∃ cutoff, index.findSuffixStartForTokens tokens = some cutoff := by
  have hlength := index.length_totals
  obtain ⟨best, hbest, -⟩ := index.exists_search
    (index.totalTokens - Numbers.max (Numbers.floor tokens) 0.0)
    (index.totals.length - 1 + 2) 0 (index.totals.length - 1) 0
    (by omega) (by omega) (by omega) (by omega)
  unfold findSuffixStartForTokens
  simp only [hbest, Option.map_some]
  split_ifs <;> exact ⟨_, rfl⟩

theorem exists_findHeadEndForCap (startInclusive endExclusive : Nat) (capTokens : F) :
    ∃ last, index.findHeadEndForCap startInclusive endExclusive capTokens = some last := by
  unfold findHeadEndForCap
  simp only
  split_ifs with hempty hcap hindex
  · exact ⟨_, rfl⟩
  · exact ⟨_, rfl⟩
  · exact ⟨_, rfl⟩
  · generalize min (max endExclusive _) index.terminalOrdinal = last at hindex ⊢
    generalize min (max startInclusive _) _ = first at hindex ⊢
    have hlast := index.lowerBound_le last
    have hfirst := index.lowerBound_le first
    obtain ⟨before, hbefore⟩ := index.exists_total hfirst
    obtain ⟨best, hbest, hle⟩ := index.exists_search (before + Numbers.floor capTokens)
      (index.lowerBound last + 2) (index.lowerBound first) (index.lowerBound last)
      (index.lowerBound first) (by omega) (by omega) hlast hfirst
    obtain ⟨ordinal, hordinal⟩ := index.exists_exclusiveEndForPrefixIndex hle
    have hget := getElem?_eq_getElem (l := index.ordinals) (i := index.lowerBound first)
      (by omega)
    simp only [hbefore, hbest, hordinal, hget, some_bind,
      Option.map_some]
    split_ifs <;> exact ⟨_, rfl⟩

end TokenIndex

/-! ## Result ordinals are message ordinals -/

def ResultsSatisfy (P : Nat → Prop) (arcs : PartialArcs) : Prop :=
  ∀ id inv res, arcs.find id = some (inv, res) → ∀ ordinal ∈ res, P ordinal

variable {P : Nat → Prop} {arcs : PartialArcs}

theorem ResultsSatisfy.getD (h : ResultsSatisfy P arcs) (id : String) :
    ∀ ordinal ∈ ((arcs.find id).getD ([], [])).2, P ordinal := by
  cases hfind : arcs.find id with
  | none => exact fun _ hmem => absurd hmem not_mem_nil
  | some entry => exact h id entry.1 entry.2 hfind

theorem ResultsSatisfy.insert (h : ResultsSatisfy P arcs) {id : String} {inv res : List Nat}
    (hres : ∀ ordinal ∈ res, P ordinal) : ResultsSatisfy P (arcs.insert id (inv, res)) := by
  intro k inv' res' hfind
  rw [EntryMap.find_insert] at hfind
  split_ifs at hfind with hkey
  · cases hfind
    exact hres
  · exact h k inv' res' hfind

theorem ResultsSatisfy.collectBlock (h : ResultsSatisfy P arcs) {ordinal : Nat} (hP : P ordinal)
    (block : BoundaryBlock Input) : ResultsSatisfy P (collectBlock ordinal arcs block) := by
  unfold Boundary.collectBlock
  split_ifs
  · exact h
  · cases harc : block.arcId with
    | none => exact h
    | some id =>
      have hold := h.getD id
      simp only
      split
      · exact h.insert hold
      · refine h.insert fun result hresult => ?_
        rcases mem_append.mp hresult with hresult | hresult
        · exact hold result hresult
        · rwa [mem_singleton.mp hresult]
      · exact h.insert hold

theorem ResultsSatisfy.collectMessage (h : ResultsSatisfy P arcs) {message : BoundaryMsg Input}
    (hP : P message.messageOrdinal) : ResultsSatisfy P (collectMessage arcs message) := by
  unfold Boundary.collectMessage
  induction message.blocks generalizing arcs with
  | nil => exact h
  | cons block rest ih => exact ih (h.collectBlock hP block)

variable {messages : List (BoundaryMsg Input)}

theorem resultsSatisfy_foldl (h : ResultsSatisfy P arcs)
    (hP : ∀ message ∈ messages, P message.messageOrdinal) :
    ResultsSatisfy P (messages.foldl collectMessage arcs) := by
  induction messages generalizing arcs with
  | nil => exact h
  | cons message rest ih =>
    exact ih (h.collectMessage (hP message mem_cons_self)) fun m hm =>
      hP m (mem_cons_of_mem _ hm)

variable {arc : ToolArc}

theorem mem_of_mem_pairArcs {inv res : List Nat} (h : arc ∈ pairArcs inv res) {result : Nat}
    (hresult : arc.resOrdinal = some result) : result ∈ res := by
  induction inv generalizing res with
  | nil => cases h
  | cons first rest ih =>
    unfold pairArcs at h
    cases hfind : res.find? (first ≤ ·) with
    | none =>
      rw [hfind] at h
      rcases mem_cons.mp h with rfl | h
      · cases hresult
      · exact ih h
    | some taken =>
      rw [hfind] at h
      rcases mem_cons.mp h with rfl | h
      · cases hresult
        exact mem_of_find?_eq_some hfind
      · exact mem_of_mem_erase (ih h)

theorem results_lt (hordinals : ∀ message ∈ messages, message.messageOrdinal < u64Max) :
    ∀ arc ∈ completedArcs (buildToolArcs messages), arc.2 < u64Max := by
  intro span hspan
  obtain ⟨arc, harc, hpair⟩ := mem_filterMap.mp hspan
  obtain ⟨result, hresult, rfl⟩ := Option.map_eq_some_iff.mp hpair
  have hmem := perm_sortByKey.mem_iff.mp harc
  obtain ⟨⟨id, inv, res⟩, hentry, hpaired⟩ := mem_flatMap.mp hmem
  have hsorted := mem_of_mem_pairArcs hpaired hresult
  have hempty : ResultsSatisfy (· < u64Max) .empty := fun _ _ _ hfind => by cases hfind
  exact resultsSatisfy_foldl hempty hordinals id inv res (EntryMap.find_eq_some_iff.mpr hentry)
    result (perm_sortByKey.mem_iff.mp hsorted)

/-! ## Fences -/

variable {toolArcs : List ToolArc} {candidate floor : Nat}

/-- A fence keeps an uncrossed candidate, or goes to an end of the candidate's component. -/
theorem fence_cases (candidate : Nat) (toolArcs : List ToolArc) (floor : Nat) :
    ((∀ arc ∈ completedArcs toolArcs, crosses arc candidate = false) ∧
      fenceBoundaryForCompletedToolArcs candidate toolArcs floor = candidate) ∨
    ∃ first component, first ≠ [] ∧ (∀ arc ∈ first, crosses arc candidate = true) ∧
      first ⊆ completedArcs toolArcs ∧
      component = expand candidate (completedArcs toolArcs)
        ((completedArcs toolArcs).length + 1) first ∧
      ((leastStart candidate component < floor ∧
        fenceBoundaryForCompletedToolArcs candidate toolArcs floor =
          saturatingSucc (greatestEnd candidate component)) ∨
      (floor ≤ leastStart candidate component ∧
        fenceBoundaryForCompletedToolArcs candidate toolArcs floor =
          leastStart candidate component)) := by
  unfold fenceBoundaryForCompletedToolArcs
  simp only
  by_cases hempty : ((completedArcs toolArcs).filter (crosses · candidate)).isEmpty
  · refine .inl ⟨fun arc harc => ?_, if_pos hempty⟩
    rw [List.isEmpty_iff, filter_eq_nil_iff] at hempty
    exact Bool.eq_false_iff.mpr (hempty arc harc)
  · refine .inr ⟨(completedArcs toolArcs).filter (crosses · candidate), _, ?_, ?_,
      filter_subset_self _, rfl, ?_⟩
    · exact fun hnil => hempty (List.isEmpty_iff.mpr hnil)
    · exact fun arc harc => (mem_filter.mp harc).2
    · split_ifs with hfloor
      · exact .inl ⟨hfloor, rfl⟩
      · exact .inr ⟨not_lt.mp hfloor, rfl⟩

theorem component_spec {first : List Span} (hne : first ≠ [])
    (hcross : ∀ arc ∈ first, crosses arc candidate = true) (all : List Span) :
    let component := expand candidate all (all.length + 1) first
    Closed candidate all component ∧ leastStart candidate component < candidate ∧
      candidate ≤ greatestEnd candidate component := by
  intro component
  obtain ⟨arc, harc⟩ := exists_mem_of_ne_nil first hne
  obtain ⟨hstart, hend⟩ := crosses_iff.mp (hcross arc harc)
  have hmem : arc ∈ component := subset_expand _ _ _ harc
  have hleast : leastStart candidate component ≤ arc.1 := leastStart_le hmem
  have hgreatest : arc.2 ≤ greatestEnd candidate component := le_greatestEnd hmem
  refine ⟨closed_expand ?_, by omega, by omega⟩
  exact Nat.lt_succ_of_le countP_le_length

theorem not_crosses_fence (hresults : ∀ arc ∈ completedArcs toolArcs, arc.2 < u64Max)
    {arc : Span} (harc : arc ∈ completedArcs toolArcs) :
    crosses arc (fenceBoundaryForCompletedToolArcs candidate toolArcs floor) = false := by
  rcases fence_cases candidate toolArcs floor with
    ⟨huncrossed, heq⟩ | ⟨first, component, hne, hcross, hsubset, rfl, hside⟩
  · rw [heq]
    exact huncrossed arc harc
  · obtain ⟨hclosed, hleast, hgreatest⟩ := component_spec hne hcross (completedArcs toolArcs)
    have hhull := hleast.le.trans hgreatest
    rcases hside with ⟨-, heq⟩ | ⟨-, heq⟩
    · obtain ⟨last, hlast, hend⟩ := exists_greatestEnd _
        (ne_nil_of_mem (subset_expand _ _ _ (head_mem hne)))
      have hbound := hresults last (expand_subset hne hsubset hlast)
      rw [heq, saturatingSucc_of_lt (hend ▸ hbound)]
      exact not_crosses_greatestEnd hclosed hhull harc
    · rw [heq]
      exact not_crosses_leastStart hclosed hhull harc

theorem fence_le (toolArcs : List ToolArc) (floor : Nat) (h : candidate ≤ u64Max) :
    fenceBoundaryForCompletedToolArcs candidate toolArcs floor ≤ u64Max := by
  rcases fence_cases candidate toolArcs floor with
    ⟨-, heq⟩ | ⟨first, component, hne, hcross, -, rfl, hside⟩
  · rwa [heq]
  · obtain ⟨-, hleast, -⟩ := component_spec hne hcross (completedArcs toolArcs)
    rcases hside with ⟨-, heq⟩ | ⟨-, heq⟩
    · exact heq ▸ saturatingSucc_le _
    · omega

/-- With an uncrossed floor, a fence moves a boundary down or leaves it below the floor. -/
theorem fence_le_of_uncrossed
    (huncrossed : ∀ arc ∈ completedArcs toolArcs, crosses arc floor = false) :
    fenceBoundaryForCompletedToolArcs candidate toolArcs floor ≤ candidate ∨
      fenceBoundaryForCompletedToolArcs candidate toolArcs floor ≤ floor := by
  rcases fence_cases candidate toolArcs floor with
    ⟨-, heq⟩ | ⟨first, component, hne, hcross, hsubset, rfl, hside⟩
  · exact .inl heq.le
  · obtain ⟨-, hleast, -⟩ := component_spec hne hcross (completedArcs toolArcs)
    rcases hside with ⟨hfloor, heq⟩ | ⟨-, heq⟩
    · have hcomponent := ne_nil_of_mem (subset_expand candidate (completedArcs toolArcs)
        ((completedArcs toolArcs).length + 1) (head_mem hne))
      rcases lt_or_ge floor candidate with hlt | hge
      · -- The whole component starts at or above the floor, so the fence did not pass it.
        have habove : ∀ arc ∈ first, floor ≤ arc.1 := by
          intro arc harc
          by_contra hbelow
          have hend := (crosses_iff.mp (hcross arc harc)).2
          have hfalse := huncrossed arc (hsubset harc)
          rw [crosses_iff.mpr ⟨by omega, by omega⟩] at hfalse
          cases hfalse
        obtain ⟨least, hmem, hstart⟩ := exists_leastStart candidate hcomponent
        have hbound := expand_above huncrossed hne habove least hmem
        omega
      · have hbelow : ∀ arc ∈ first, arc.2 < floor := by
          intro arc harc
          by_contra habove
          have hstart := (crosses_iff.mp (hcross arc harc)).1
          have hfalse := huncrossed arc (hsubset harc)
          rw [crosses_iff.mpr ⟨by omega, by omega⟩] at hfalse
          cases hfalse
        obtain ⟨last, hmem, hend⟩ := exists_greatestEnd candidate hcomponent
        have hbound := expand_below huncrossed hne hbelow last hmem
        refine .inr (heq ▸ (min_le_left _ _).trans ?_)
        omega
    · exact .inl (heq ▸ hleast.le)

/-! ## The head -/

def RecentOpen (offset cutoff : Nat) (arc : ToolArc) : Prop :=
  arc.resOrdinal = none ∧ cutoff ≤ arc.invOrdinal ∧ offset ≤ arc.invOrdinal

theorem endAtOpenArc_le (offset cutoff : Nat) (state : Nat × Bool) (arc : ToolArc) :
    (endAtOpenArc offset cutoff state arc).1 ≤ state.1 := by
  unfold endAtOpenArc
  split_ifs
  · exact le_rfl
  · exact min_le_left _ _
  · exact le_rfl

variable {cutoff : Nat}

theorem endAtOpenArc_le_inv {offset : Nat} (hopen : RecentOpen offset cutoff arc)
    (state : Nat × Bool) : (endAtOpenArc offset cutoff state arc).1 ≤ arc.invOrdinal := by
  unfold endAtOpenArc
  rw [hopen.1, if_neg (by simp)]
  split_ifs with hinside
  · exact min_le_right _ _
  · exact not_lt.mp fun hlt => hinside ⟨hopen.2.1, hopen.2.2, hlt⟩

theorem foldl_endAtOpenArc_le (offset cutoff : Nat) (toolArcs : List ToolArc) (state : Nat × Bool) :
    (toolArcs.foldl (endAtOpenArc offset cutoff) state).1 ≤ state.1 := by
  induction toolArcs generalizing state with
  | nil => exact le_rfl
  | cons head rest ih => exact (ih _).trans (endAtOpenArc_le offset cutoff state head)

theorem endAtOpenArcs_le {offset : Nat} (harc : arc ∈ toolArcs)
    (hopen : RecentOpen offset cutoff arc) (last : Nat) :
    (endAtOpenArcs offset cutoff toolArcs last).1 ≤ arc.invOrdinal := by
  obtain ⟨before, after, rfl⟩ := append_of_mem harc
  unfold endAtOpenArcs
  rw [foldl_append, foldl_cons]
  exact (foldl_endAtOpenArc_le offset cutoff after _).trans (endAtOpenArc_le_inv hopen _)

theorem protectNewest_le (ctx : BoundaryContext F) {index : TokenIndex F}
    (hne : index.ordinals ≠ []) (toolArcs : List ToolArc) (offset start : Nat) :
    protectNewest ctx index toolArcs offset (index.clampOrdinal start) ≤ u64Max := by
  unfold protectNewest
  split_ifs
  · exact index.clampOrdinal_le hne _
  · exact index.clampOrdinal_le hne _

variable [Numbers F]

/-- The end of the head below a boundary: the head is empty, or no completed arc crosses its end
and, over an uncrossed offset, no recent unanswered call is in it. -/
def HeadEnds (toolArcs : List ToolArc) (offset cutoff start last : Nat) : Prop :=
  last = offset ∨ (offset < last ∧ last ≤ start ∧
    (∀ arc ∈ completedArcs toolArcs, crosses arc last = false) ∧
    ((∀ arc ∈ completedArcs toolArcs, crosses arc offset = false) →
      ∀ arc ∈ toolArcs, RecentOpen offset cutoff arc → last ≤ arc.invOrdinal))

theorem applyHeadCap_spec (index : TokenIndex F) {start : Nat} (offset cutoff : Nat) (cap : F)
    (hresults : ∀ arc ∈ completedArcs toolArcs, arc.2 < u64Max) (hstart : start ≤ u64Max)
    (huncrossed : ∀ arc ∈ completedArcs toolArcs, crosses arc start = false) :
    ∃ head, applyHeadCap index start offset toolArcs cap cutoff = some head ∧
      HeadEnds toolArcs offset cutoff start head.eligibleEndOrdinal := by
  unfold applyHeadCap
  by_cases hoffset : offset ≥ start
  · exact ⟨_, if_pos hoffset, .inl rfl⟩
  · obtain ⟨first, hfirst⟩ := index.exists_findHeadEndForCap offset start cap
    obtain ⟨tokens, htokens⟩ := index.exists_tokenForOrdinal offset
    have hadd : checkedAdd 64 offset 1 = some (offset + 1) :=
      checkedAdd_of_lt (by unfold u64Max at hstart; omega)
    simp only [hfirst, htokens, hadd, some_bind]
    generalize fenceBoundaryForCompletedToolArcs first toolArcs offset = fenced
    have hopen : ∀ arc ∈ toolArcs, RecentOpen offset cutoff arc →
        (endAtOpenArcs offset cutoff toolArcs fenced).1 ≤ arc.invOrdinal :=
      fun arc harc hrecent => endAtOpenArcs_le harc hrecent fenced
    generalize endAtOpenArcs offset cutoff toolArcs fenced = ended at hopen ⊢
    split_ifs with hempty
    · exact ⟨_, rfl, .inl rfl⟩
    · refine ⟨_, rfl, .inr ⟨?_, min_le_right _ _, fun arc harc => ?_,
        fun hclear arc harc hrecent => ?_⟩⟩
      · exact lt_min (not_le.mp hempty) (not_le.mp hoffset)
      · rcases min_choice
          (fenceBoundaryForCompletedToolArcs ended.1 toolArcs offset) start with hmin | hmin
        · simp only [hmin]
          exact not_crosses_fence hresults harc
        · simp only [hmin]
          exact huncrossed arc harc
      · refine (min_le_left _ _).trans ?_
        rcases fence_le_of_uncrossed hclear with hle | hle
        · exact hle.trans (hopen arc harc hrecent)
        · exact absurd hle hempty

/-! ## The adjustments before the last fence -/

theorem exists_sizeWalk (index : TokenIndex F) (cutoff : Nat) (scaledN : F) :
    ∃ walked, sizeWalk index cutoff scaledN = some walked := by
  obtain ⟨tokens, htokens⟩ := index.exists_tokenForOrdinal cutoff
  have hterminal := index.terminalOrdinal_le
  unfold sizeWalk
  simp only [htokens, some_bind]
  split_ifs with hhuge
  · simp only [Bool.and_eq_true, decide_eq_true_eq] at hhuge
    have hadd : checkedAdd 64 cutoff 1 = some (cutoff + 1) :=
      checkedAdd_of_lt (by unfold u64Max at hterminal; omega)
    exact ⟨_, by rw [hadd]; rfl⟩
  · exact ⟨_, rfl⟩
  · exact ⟨_, rfl⟩

theorem exists_semanticSnapBoundary (meaningful : String → Bool)
    (messages : List (BoundaryMsg Input)) (index : TokenIndex F) (candidate : Nat) (scaledN : F)
    (floor : Nat) :
    ∃ snapped, semanticSnapBoundary meaningful messages index candidate scaledN floor =
      some snapped := by
  unfold semanticSnapBoundary
  simp only
  generalize snapTarget _ _ _ _ = target
  obtain ⟨fromTarget, htarget⟩ := index.exists_suffixTokensFromOrdinal target
  obtain ⟨fromCandidate, hcandidate⟩ := index.exists_suffixTokensFromOrdinal candidate
  obtain ⟨tokens, htokens⟩ := index.exists_tokenForOrdinal target
  simp only [htarget, hcandidate, htokens, some_bind]
  split_ifs <;> exact ⟨_, rfl⟩

theorem exists_applyHysteresis (index : TokenIndex F) (offset start : Nat) :
    ∃ settled, applyHysteresis index offset start = some settled := by
  obtain ⟨tokens, htokens⟩ := index.exists_rangeTokens offset start
  unfold applyHysteresis
  rw [htokens]
  split_ifs <;> exact ⟨_, rfl⟩

theorem exists_unfencedStart (meaningful : String → Bool) (messages : List (BoundaryMsg Input))
    (ctx : BoundaryContext F) {index : TokenIndex F} (hne : index.ordinals ≠ [])
    (toolArcs : List ToolArc) (offset cutoff : Nat) :
    ∃ result, unfencedStart meaningful messages ctx index toolArcs offset cutoff = some result ∧
      result.1 ≤ u64Max := by
  obtain ⟨walked, hwalked⟩ := exists_sizeWalk index cutoff (scaledTarget ctx)
  obtain ⟨snapped, hsnapped⟩ := exists_semanticSnapBoundary meaningful messages index
    (fenceBoundaryForToolArcs walked.1 toolArcs offset cutoff).1 (scaledTarget ctx) offset
  unfold unfencedStart
  simp only [hwalked, hsnapped, some_bind]
  generalize floorAtLivePrompt meaningful messages ctx offset _ = floored
  obtain ⟨settled, hsettled⟩ := exists_applyHysteresis index offset floored.1
  simp only [hsettled]
  exact ⟨_, rfl, protectNewest_le ctx hne toolArcs offset settled⟩

/-! ## The resolution -/

/-- With messages, the resolution is a fenced start and the head below it. -/
theorem exists_resolve (meaningful : String → Bool) (ctx : BoundaryContext F) (hne : messages ≠ [])
    (hresults : ∀ arc ∈ completedArcs (buildToolArcs messages), arc.2 < u64Max)
    (hcutoff : sizeWalkCutoff messages ctx = some cutoff) :
    ∃ resolution, resolveProtectedTailBoundary meaningful messages ctx = some resolution ∧
      (∀ arc ∈ completedArcs (buildToolArcs messages),
        crosses arc resolution.protectedStartOrdinal = false) ∧
      resolution.eligibleHeadStart =
        historySegmentOffset ctx.lastHistorySegmentEndOrdinal messages ∧
      HeadEnds (buildToolArcs messages) resolution.eligibleHeadStart cutoff
        resolution.protectedStartOrdinal resolution.eligibleHeadEnd := by
  have hordinals : (TokenIndex.new messages : TokenIndex F).ordinals ≠ [] :=
    TokenIndex.ordinals_ne_nil hne
  unfold resolveProtectedTailBoundary
  simp only [length_eq_zero_iff, if_neg hordinals, hcutoff, Option.bind_eq_bind,
    Option.bind_some]
  generalize historySegmentOffset ctx.lastHistorySegmentEndOrdinal messages = offset
  generalize selectPerRunCap (clampPercentage ctx.usagePercentage) (scaledTarget ctx)
    ctx.contextLimit ctx.executeThresholdPercentage = cap
  obtain ⟨unfenced, hunfenced, hbound⟩ :=
    exists_unfencedStart meaningful messages ctx hordinals (buildToolArcs messages) offset cutoff
  have hstart := fence_le (buildToolArcs messages) offset hbound
  have huncrossed : ∀ arc ∈ completedArcs (buildToolArcs messages), crosses arc
      (fenceBoundaryForCompletedToolArcs unfenced.1 (buildToolArcs messages) offset) = false :=
    fun arc harc => not_crosses_fence hresults harc
  simp only [hunfenced, Option.bind_some]
  generalize fenceBoundaryForCompletedToolArcs unfenced.1 _ offset = start at hstart huncrossed ⊢
  obtain ⟨head, hhead, hends⟩ := applyHeadCap_spec (TokenIndex.new messages : TokenIndex F)
    offset cutoff cap hresults hstart huncrossed
  obtain ⟨eligible, heligible⟩ :=
    (TokenIndex.new messages : TokenIndex F).exists_rangeTokens offset start
  simp only [hhead, heligible, Option.bind_some]
  exact ⟨_, rfl, huncrossed, rfl, hends⟩

def sampleBlock (kind : SelKind Unit) (arcId : Option String) : BoundaryBlock Unit :=
  ⟨kind, false, arcId, "text", 9000, false⟩

/-- Two interleaved calls; the walk stops after them and snaps back to the second result. -/
def sampleMessages : List (BoundaryMsg Unit) :=
  [⟨1, .user, [sampleBlock .text none]⟩,
    ⟨2, .assistant, [sampleBlock (.toolCall "read" ()) (some "a")]⟩,
    ⟨3, .assistant, [sampleBlock (.toolCall "read" ()) (some "b")]⟩,
    ⟨4, .other "tool", [sampleBlock (.toolResult "read") (some "a")]⟩,
    ⟨5, .other "tool", [sampleBlock (.toolResult "read") (some "b")]⟩,
    ⟨6, .assistant, [sampleBlock .text none]⟩]

def sampleContext : BoundaryContext ℚ :=
  ⟨128000.0, 65.0, 96.0, 60000.0, none, 0, false, none, none, false⟩

/-- A boundary never separates a call from its result: no completed arc crosses the protected
start or the end of a nonempty head, which runs from the offset to the protected start at most
and, unless an arc crosses the offset, holds no unanswered call from the size walk's cutoff on. -/
theorem resolve_keeps_arcs (meaningful : String → Bool) (messages : List (BoundaryMsg Input))
    (ctx : BoundaryContext F)
    (hordinals : ∀ message ∈ messages, message.messageOrdinal < u64Max) :
    let arcs := buildToolArcs messages
    let offset := historySegmentOffset ctx.lastHistorySegmentEndOrdinal messages
    ∃ resolution cutoff,
      resolveProtectedTailBoundary meaningful messages ctx = some resolution ∧
      sizeWalkCutoff messages ctx = some cutoff ∧
      (∀ arc ∈ completedArcs arcs, crosses arc resolution.protectedStartOrdinal = false) ∧
      resolution.eligibleHeadStart = offset ∧
      (resolution.eligibleHeadStart < resolution.eligibleHeadEnd →
        resolution.eligibleHeadEnd ≤ resolution.protectedStartOrdinal ∧
        ∀ arc ∈ completedArcs arcs, crosses arc resolution.eligibleHeadEnd = false) ∧
      ((∀ arc ∈ completedArcs arcs, crosses arc offset = false) →
        ∀ arc ∈ arcs, arc.resOrdinal = none → cutoff ≤ arc.invOrdinal →
          ¬(resolution.eligibleHeadStart ≤ arc.invOrdinal ∧
            arc.invOrdinal < resolution.eligibleHeadEnd)) := by
  intro arcs offset
  have hresults := results_lt hordinals
  obtain ⟨cutoff, hcutoff⟩ :=
    (TokenIndex.new messages : TokenIndex F).exists_findSuffixStartForTokens (scaledTarget ctx)
  by_cases hne : messages = []
  · subst hne
    refine ⟨_, cutoff, rfl, hcutoff, ?_, rfl, fun hlt => absurd hlt (lt_irrefl _), ?_⟩
    · exact fun arc harc => absurd harc not_mem_nil
    · exact fun _ arc harc => absurd harc not_mem_nil
  · obtain ⟨resolution, hresolve, huncrossed, hoffset, hends⟩ :=
      exists_resolve meaningful ctx hne hresults hcutoff
    refine ⟨resolution, cutoff, hresolve, hcutoff, huncrossed, hoffset, ?_, ?_⟩
    · intro hnonempty
      rcases hends with hempty | ⟨-, hle, hclear, -⟩
      · omega
      · exact ⟨hle, hclear⟩
    · rintro hclear arc harc hopen hrecent ⟨hge, hlt⟩
      rcases hends with hempty | ⟨-, -, -, hbelow⟩
      · omega
      · have hout := hbelow (hoffset ▸ hclear) arc harc ⟨hopen, hrecent, hge⟩
        omega

theorem resolve_keeps_arcs_interleaved :
    ∃ resolution,
      resolveProtectedTailBoundary (fun _ => true) sampleMessages sampleContext =
        some resolution ∧
      completedArcs (buildToolArcs sampleMessages) = [(2, 4), (3, 5)] ∧
      resolution.protectedStartOrdinal = 2 ∧
      ∀ arc ∈ completedArcs (buildToolArcs sampleMessages),
        crosses arc resolution.protectedStartOrdinal = false := by
  obtain ⟨resolution, cutoff, hresolve, -, huncrossed, -⟩ :=
    resolve_keeps_arcs (fun _ => true) sampleMessages sampleContext (by decide)
  refine ⟨resolution, hresolve, by decide, ?_, huncrossed⟩
  have hstart : (resolveProtectedTailBoundary (fun _ => true) sampleMessages sampleContext).map
      (·.protectedStartOrdinal) = some 2 := by decide +kernel
  rw [hresolve] at hstart
  exact Option.some.inj hstart

end Eidnara.Daemon.Boundary
