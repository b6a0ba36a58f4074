import Mathlib.Order.Basic

/-!
# Boundaries and the spans they cross

A span runs from its start to its end, and a boundary crosses it when the span starts before the
boundary and ends at or after it.  Spans that overlap, directly or through others, form one
component; neither the start of a component nor the position just after its end crosses a span.
-/

namespace Eidnara.Lib

open List

abbrev Span := Nat × Nat

/-- The span starts before `boundary` and ends at or after it. -/
def crosses (span : Span) (boundary : Nat) : Bool := span.1 < boundary && boundary ≤ span.2

theorem crosses_iff {span : Span} {boundary : Nat} :
    crosses span boundary = true ↔ span.1 < boundary ∧ boundary ≤ span.2 := by
  simp [crosses]

/-! ## The hull of a component -/

def leastStart (default : Nat) (spans : List Span) : Nat :=
  (spans.map Prod.fst).min?.getD default

def greatestEnd (default : Nat) (spans : List Span) : Nat :=
  (spans.map Prod.snd).max?.getD default

variable {default boundary : Nat} {spans all component : List Span} {span : Span}

theorem leastStart_le (h : span ∈ spans) : leastStart default spans ≤ span.1 := by
  have hmem : span.1 ∈ spans.map Prod.fst := mem_map_of_mem h
  unfold leastStart
  cases hmin : (spans.map Prod.fst).min? with
  | none =>
    rw [min?_eq_none_iff] at hmin
    rw [hmin] at hmem
    cases hmem
  | some least => exact (min?_eq_some_iff.mp hmin).2 _ hmem

theorem le_greatestEnd (h : span ∈ spans) : span.2 ≤ greatestEnd default spans := by
  have hmem : span.2 ∈ spans.map Prod.snd := mem_map_of_mem h
  unfold greatestEnd
  cases hmax : (spans.map Prod.snd).max? with
  | none =>
    rw [max?_eq_none_iff] at hmax
    rw [hmax] at hmem
    cases hmem
  | some greatest => exact (max?_eq_some_iff.mp hmax).2 _ hmem

variable (default) in
theorem exists_leastStart (h : spans ≠ []) :
    ∃ span ∈ spans, span.1 = leastStart default spans := by
  unfold leastStart
  cases hmin : (spans.map Prod.fst).min? with
  | none =>
    rw [min?_eq_none_iff, map_eq_nil_iff] at hmin
    exact absurd hmin h
  | some least =>
    obtain ⟨span, hspan, heq⟩ := mem_map.mp (min?_eq_some_iff.mp hmin).1
    exact ⟨span, hspan, heq⟩

variable (default) in
theorem exists_greatestEnd (h : spans ≠ []) :
    ∃ span ∈ spans, span.2 = greatestEnd default spans := by
  unfold greatestEnd
  cases hmax : (spans.map Prod.snd).max? with
  | none =>
    rw [max?_eq_none_iff, map_eq_nil_iff] at hmax
    exact absurd hmax h
  | some greatest =>
    obtain ⟨span, hspan, heq⟩ := mem_map.mp (max?_eq_some_iff.mp hmax).1
    exact ⟨span, hspan, heq⟩

/-! ## Closing a component -/

/-- The spans that meet the hull of `component`, added to it. -/
def absorb (default : Nat) (all component : List Span) : List Span :=
  all.foldl
    (fun grown span =>
      if span.1 ≤ greatestEnd default component ∧ leastStart default component ≤ span.2 ∧
          span ∉ grown then
        grown ++ [span]
      else grown)
    component

/-- `absorb` until nothing is added, at most `rounds` times. -/
def expand (default : Nat) (all : List Span) : Nat → List Span → List Span
  | 0, component => component
  | rounds + 1, component =>
    let grown := absorb default all component
    if grown.length = component.length then grown else expand default all rounds grown

/-- Every span that meets the hull belongs to the component. -/
def Closed (default : Nat) (all component : List Span) : Prop :=
  ∀ span ∈ all, span.1 ≤ greatestEnd default component → leastStart default component ≤ span.2 →
    span ∈ component

theorem absorb_fold (meets : Span → Prop) [DecidablePred meets] (rest grown : List Span) :
    ∃ extra, rest.foldl
        (fun grown span => if meets span ∧ span ∉ grown then grown ++ [span] else grown) grown =
          grown ++ extra ∧
      (∀ span ∈ rest, meets span → span ∈ grown ++ extra) ∧
      ∀ span ∈ extra, span ∈ rest ∧ meets span ∧ span ∉ grown := by
  induction rest generalizing grown with
  | nil => exact ⟨[], by simp⟩
  | cons head rest ih =>
    rw [foldl_cons]
    by_cases hadd : meets head ∧ head ∉ grown
    · rw [if_pos hadd]
      obtain ⟨extra, heq, hall, hfrom⟩ := ih (grown ++ [head])
      rw [append_assoc, singleton_append] at heq hall
      refine ⟨head :: extra, heq, forall_mem_cons.mpr ⟨by simp, hall⟩, forall_mem_cons.mpr
        ⟨⟨mem_cons_self, hadd⟩, fun span hspan => ?_⟩⟩
      obtain ⟨hmem, hmeets, hnot⟩ := hfrom span hspan
      exact ⟨mem_cons_of_mem _ hmem, hmeets, fun hold => hnot (mem_append_left _ hold)⟩
    · rw [if_neg hadd]
      obtain ⟨extra, heq, hall, hfrom⟩ := ih grown
      refine ⟨extra, heq, forall_mem_cons.mpr ⟨fun hmeets => ?_, hall⟩, fun span hspan => ?_⟩
      · by_contra hnot
        exact hadd ⟨hmeets, fun hold => hnot (mem_append_left _ hold)⟩
      · exact (hfrom span hspan).imp_left (mem_cons_of_mem _)

theorem absorb_spec (default : Nat) (all component : List Span) :
    ∃ extra, absorb default all component = component ++ extra ∧
      (∀ span ∈ all, span.1 ≤ greatestEnd default component →
        leastStart default component ≤ span.2 → span ∈ component ++ extra) ∧
      ∀ span ∈ extra, span ∈ all ∧ span.1 ≤ greatestEnd default component ∧
        leastStart default component ≤ span.2 ∧ span ∉ component := by
  have hfold := absorb_fold
    (fun span => span.1 ≤ greatestEnd default component ∧ leastStart default component ≤ span.2)
    all component
  simp only [and_assoc, and_imp] at hfold
  exact hfold

def outside (all component : List Span) : Nat := all.countP (· ∉ component)

theorem outside_absorb_lt (h : (absorb default all component).length ≠ component.length) :
    outside all (absorb default all component) < outside all component := by
  obtain ⟨extra, heq, -, hfrom⟩ := absorb_spec default all component
  rw [heq] at h ⊢
  obtain ⟨span, hadded⟩ := exists_mem_of_ne_nil extra (by rintro rfl; simp at h)
  obtain ⟨hspan, -, -, hnot⟩ := hfrom span hadded
  obtain ⟨before, after, rfl⟩ := append_of_mem hspan
  have hmono (rest : List Span) :
      rest.countP (· ∉ component ++ extra) ≤ rest.countP (· ∉ component) := by
    refine countP_mono_left fun x _ hx => ?_
    simp only [decide_eq_true_eq] at hx ⊢
    exact fun hmem => hx (mem_append_left _ hmem)
  have hbefore := hmono before
  have hafter := hmono after
  unfold outside
  simp only [countP_append, countP_cons, mem_append_right component hadded, hnot,
    not_true_eq_false, not_false_eq_true, decide_true, decide_false] at *
  simp only [if_true, Bool.false_eq_true, if_false]
  omega

variable {rounds : Nat}

theorem closed_expand (h : outside all component < rounds) :
    Closed default all (expand default all rounds component) := by
  induction rounds generalizing component with
  | zero => omega
  | succ rounds ih =>
    unfold expand
    simp only
    split_ifs with hlength
    · obtain ⟨extra, heq, hall, -⟩ := absorb_spec default all component
      obtain rfl : extra = [] := by simpa [heq] using hlength
      rw [append_nil] at heq hall
      rw [heq]
      exact hall
    · exact ih (by have := outside_absorb_lt hlength; omega)

/-- What the first component has and every absorbed span keeps, the closed component has. -/
theorem expand_induction {P : List Span → Prop}
    (hstep : ∀ component, P component → P (absorb default all component)) (h : P component) :
    P (expand default all rounds component) := by
  induction rounds generalizing component with
  | zero => exact h
  | succ rounds ih =>
    unfold expand
    simp only
    split_ifs
    · exact hstep component h
    · exact ih (hstep component h)

variable (default all) in
theorem subset_expand (rounds : Nat) : component ⊆ expand default all rounds component :=
  expand_induction (P := fun c => component ⊆ c)
    (fun c hc span hspan => by
      obtain ⟨extra, heq, -⟩ := absorb_spec default all c
      rw [heq]
      exact mem_append_left _ (hc hspan)) fun _ => id

/-- What the component has and every span that meets its hull, the closed component has. -/
theorem expand_all {Q : Span → Prop} (hne : component ≠ []) (h : ∀ span ∈ component, Q span)
    (hmeets : ∀ c, c ≠ [] → (∀ span ∈ c, Q span) → ∀ span ∈ all,
      span.1 ≤ greatestEnd default c → leastStart default c ≤ span.2 → Q span) :
    ∀ span ∈ expand default all rounds component, Q span := by
  refine (expand_induction (P := fun c => c ≠ [] ∧ ∀ span ∈ c, Q span) ?_ ⟨hne, h⟩).2
  rintro c ⟨hne, hall⟩
  obtain ⟨extra, heq, -, hfrom⟩ := absorb_spec default all c
  rw [heq]
  refine ⟨by simp [hne], forall_mem_append.mpr ⟨hall, fun span hnew => ?_⟩⟩
  obtain ⟨hmem, hend, hstart, -⟩ := hfrom span hnew
  exact hmeets c hne hall span hmem hend hstart

theorem expand_subset (hne : component ≠ []) (h : component ⊆ all) :
    expand default all rounds component ⊆ all :=
  expand_all hne h fun _ _ _ _ hspan _ _ => hspan

/-! ## A component stays on one side of an uncrossed boundary -/

variable (huncrossed : ∀ span ∈ all, crosses span boundary = false)
include huncrossed

theorem expand_above (hne : component ≠ []) (habove : ∀ span ∈ component, boundary ≤ span.1) :
    ∀ span ∈ expand default all rounds component, boundary ≤ span.1 := by
  refine expand_all hne habove fun c hne habove span hspan _ hstart => ?_
  obtain ⟨least, hleast, heq⟩ := exists_leastStart default hne
  have hbound := habove least hleast
  by_contra hbelow
  have hcross : crosses span boundary = true := crosses_iff.mpr ⟨by omega, by omega⟩
  rw [huncrossed span hspan] at hcross
  cases hcross

theorem expand_below (hne : component ≠ []) (hbelow : ∀ span ∈ component, span.2 < boundary) :
    ∀ span ∈ expand default all rounds component, span.2 < boundary := by
  refine expand_all hne hbelow fun c hne hbelow span hspan hend _ => ?_
  obtain ⟨greatest, hgreatest, heq⟩ := exists_greatestEnd default hne
  have hbound := hbelow greatest hgreatest
  by_contra habove
  have hcross : crosses span boundary = true := crosses_iff.mpr ⟨by omega, by omega⟩
  rw [huncrossed span hspan] at hcross
  cases hcross

omit huncrossed

/-! ## Nothing crosses the ends of a closed component -/

variable (hclosed : Closed default all component)
  (hhull : leastStart default component ≤ greatestEnd default component) (hspan : span ∈ all)
include hclosed hhull hspan

theorem not_crosses_leastStart :
    crosses span (leastStart default component) = false := by
  cases hcross : crosses span (leastStart default component) with
  | false => rfl
  | true =>
    obtain ⟨hstart, hend⟩ := crosses_iff.mp hcross
    have hmem := hclosed span hspan (by omega) hend
    have hleast : leastStart default component ≤ span.1 := leastStart_le hmem
    omega

theorem not_crosses_greatestEnd :
    crosses span (greatestEnd default component + 1) = false := by
  cases hcross : crosses span (greatestEnd default component + 1) with
  | false => rfl
  | true =>
    obtain ⟨hstart, hend⟩ := crosses_iff.mp hcross
    have hmem := hclosed span hspan (by omega) (by omega)
    have hgreatest : span.2 ≤ greatestEnd default component := le_greatestEnd hmem
    omega

end Eidnara.Lib
