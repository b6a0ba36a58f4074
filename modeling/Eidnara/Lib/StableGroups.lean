import Mathlib.Data.List.Sort
import Mathlib.Data.List.SplitBy

/-!
# Stable sorting and grouping by a key

A stable sort by a key keeps the elements of one key in the order they came in, so
cutting the sorted list where the key changes gives, in increasing order of the keys, the
elements of each key as they came in.
-/

namespace Eidnara.Lib

open List

variable {α κ : Type} [LinearOrder κ] (key : α → κ)

def sortByKey (xs : List α) : List α := xs.insertionSort fun a b => key a ≤ key b

def groupByKey (xs : List α) : List (List α) := xs.splitBy fun a b => key a = key b

/-- The elements of each key, by increasing key. -/
def stableGroups (xs : List α) : List (List α) := groupByKey key (sortByKey key xs)

variable {key} {xs group : List α}

instance instTotalKeyLe : Std.Total fun a b : α => key a ≤ key b :=
  ⟨fun a b => le_total (key a) (key b)⟩

instance instIsTransKeyLe : IsTrans α fun a b => key a ≤ key b := ⟨fun _ _ _ => le_trans⟩

theorem perm_sortByKey : (sortByKey key xs).Perm xs := perm_insertionSort _ _

theorem pairwise_sortByKey : (sortByKey key xs).Pairwise (key · ≤ key ·) :=
  pairwise_insertionSort _ _

theorem filter_sortByKey (k : κ) :
    (sortByKey key xs).filter (key · = k) = xs.filter (key · = k) := by
  have hequal : (xs.filter (key · = k)).Pairwise (key · ≤ key ·) := by
    rw [pairwise_filter]
    refine pairwise_of_forall fun a b ha hb => ?_
    simp only [decide_eq_true_eq] at ha hb
    rw [ha, hb]
  have hsublist := (sublist_insertionSort hequal filter_sublist).filter (key · = k)
  rw [filter_filter] at hsublist
  simp only [Bool.and_self] at hsublist
  refine (hsublist.eq_of_length ?_).symm
  exact (perm_sortByKey.symm.filter _).length_eq

/-- Where the keys tell the elements apart, the order they come in does not matter. -/
theorem sortByKey_eq_of_perm {ys : List α} (hperm : xs.Perm ys)
    (hkey : ∀ a ∈ xs, ∀ b ∈ xs, key a = key b → a = b) : sortByKey key xs = sortByKey key ys := by
  refine List.Perm.eq_of_pairwise ?_ pairwise_sortByKey pairwise_sortByKey
    ((perm_sortByKey.trans hperm).trans perm_sortByKey.symm)
  intro a b ha hb hab hba
  exact hkey a (perm_sortByKey.subset ha) b (hperm.symm.subset (perm_sortByKey.subset hb))
    (le_antisymm hab hba)

theorem compare_congr {α β : Type} [LinearOrder α] [LinearOrder β] {a a' : α} {b b' : β}
    (hlt : a < a' ↔ b < b') (hgt : a' < a ↔ b' < b) : compare a a' = compare b b' := by
  rcases lt_trichotomy a a' with h | h | h
  · rw [compare_lt_iff_lt.mpr h, compare_lt_iff_lt.mpr (hlt.mp h)]
  · have hb : b = b' := by
      subst h
      exact le_antisymm (not_lt.mp (hgt.not.mp (lt_irrefl a)))
        (not_lt.mp (hlt.not.mp (lt_irrefl a)))
    rw [compare_eq_iff_eq.mpr h, compare_eq_iff_eq.mpr hb]
  · rw [compare_gt_iff_gt.mpr h, compare_gt_iff_gt.mpr (hgt.mp h)]

def sortByCmp (cmp : α → α → Ordering) (xs : List α) : List α :=
  xs.insertionSort fun a b => (cmp a b).isLE

theorem sortByCmp_eq {cmp : α → α → Ordering} (h : ∀ a b, cmp a b = compare (key a) (key b)) :
    sortByCmp cmp xs = sortByKey key xs := by
  have hrel : (fun a b => (cmp a b).isLE = true) = fun a b => key a ≤ key b := by
    funext a b
    rw [h, Ordering.isLE_iff_ne_gt, compare_gt_iff_gt, not_lt]
  unfold sortByCmp sortByKey
  congr!

/-! ## Groups of a sorted list -/

variable (key) in
theorem flatten_groupByKey (xs : List α) : (groupByKey key xs).flatten = xs :=
  flatten_splitBy _ _

theorem ne_nil_of_mem_groupByKey (h : group ∈ groupByKey key xs) : group ≠ [] :=
  ne_nil_of_mem_splitBy h

theorem key_eq_of_mem_groupByKey (h : group ∈ groupByKey key xs) {a b : α} (ha : a ∈ group)
    (hb : b ∈ group) : key a = key b := by
  have hchain := isChain_of_mem_splitBy h
  simp only [decide_eq_true_eq] at hchain
  have hpairwise := isChain_iff_pairwise.mp hchain
  exact List.Pairwise.forall_of_forall (R := fun a b => key a = key b) (fun _ _ => rfl) hpairwise
    ha hb

theorem pairwise_groupByKey (hsorted : xs.Pairwise (key · ≤ key ·)) :
    (groupByKey key xs).Pairwise fun g h => ∀ a ∈ g, ∀ b ∈ h, key a < key b := by
  have hchain := isChain_getLast_head_splitBy (fun a b => decide (key a = key b)) xs
  have hequal : ∀ g ∈ groupByKey key xs, ∀ a ∈ g, ∀ b ∈ g, key a = key b :=
    fun g hg a ha b hb => key_eq_of_mem_groupByKey hg ha hb
  rw [← flatten_groupByKey key xs, pairwise_flatten] at hsorted
  have hle := hsorted.2
  change List.IsChain _ (groupByKey key xs) at hchain
  generalize groupByKey key xs = groups at hchain hequal hle
  induction groups with
  | nil => exact .nil
  | cons g groups ih =>
    rw [pairwise_cons] at hle
    refine pairwise_cons.mpr ⟨?_, ih hchain.tail
      (fun g hg => hequal g (mem_cons_of_mem _ hg)) hle.2⟩
    -- The next group differs from `g`, and every later one is at or above it.
    intro later hlater a ha b hb
    cases groups with
    | nil => cases hlater
    | cons next groups =>
      obtain ⟨hg, hnext, hne⟩ := (isChain_cons_cons.mp hchain).1
      have hlast := hequal g mem_cons_self a ha _ (getLast_mem hg)
      have hstep := hle.1 next mem_cons_self a ha _ (head_mem hnext)
      have hlt : key a < key (next.head hnext) := by
        refine lt_of_le_of_ne hstep ?_
        rw [hlast]
        simpa using hne
      refine hlt.trans_le ?_
      rcases mem_cons.mp hlater with rfl | hlater
      · exact (hequal later (by simp) _ (head_mem hnext) b hb).le
      · exact (pairwise_cons.mp hle.2).1 later hlater _ (head_mem hnext) b hb

theorem eq_filter_of_mem_groupByKey (hsorted : xs.Pairwise (key · ≤ key ·))
    (h : group ∈ groupByKey key xs) {a : α} (ha : a ∈ group) :
    group = xs.filter (key · = key a) := by
  obtain ⟨before, after, hsplit⟩ := append_of_mem h
  have hpairwise := pairwise_groupByKey hsorted
  rw [hsplit, pairwise_append] at hpairwise
  obtain ⟨-, hafter, hbefore⟩ := hpairwise
  have hlow : before.flatten.filter (key · = key a) = [] := by
    rw [filter_eq_nil_iff]
    intro b hb
    obtain ⟨g, hg, hbg⟩ := mem_flatten.mp hb
    have := hbefore g hg group mem_cons_self b hbg a ha
    simp [this.ne]
  have hhigh : after.flatten.filter (key · = key a) = [] := by
    rw [filter_eq_nil_iff]
    intro b hb
    obtain ⟨g, hg, hbg⟩ := mem_flatten.mp hb
    have := (pairwise_cons.mp hafter).1 g hg a ha b hbg
    simp [this.ne']
  have hgroup : group.filter (key · = key a) = group := by
    rw [filter_eq_self]
    intro b hb
    simpa using key_eq_of_mem_groupByKey h hb ha
  rw [← flatten_groupByKey key xs, hsplit, flatten_append, flatten_cons,
    filter_append, filter_append, hlow, hhigh, hgroup]
  simp

/-! ## Stable groups -/

variable (key) in
theorem perm_flatten_stableGroups (xs : List α) : (stableGroups key xs).flatten.Perm xs := by
  rw [stableGroups, flatten_groupByKey]
  exact perm_sortByKey

variable (key) in
theorem pairwise_stableGroups (xs : List α) :
    (stableGroups key xs).Pairwise fun g h => ∀ a ∈ g, ∀ b ∈ h, key a < key b :=
  pairwise_groupByKey pairwise_sortByKey

theorem mem_stableGroups : group ∈ stableGroups key xs ↔
    ∃ a ∈ xs, group = xs.filter (key · = key a) := by
  constructor
  · intro h
    obtain ⟨a, ha⟩ := exists_mem_of_ne_nil group (ne_nil_of_mem_groupByKey h)
    have heq := eq_filter_of_mem_groupByKey pairwise_sortByKey h ha
    rw [filter_sortByKey] at heq
    exact ⟨a, (mem_filter.mp (heq ▸ ha)).1, heq⟩
  · rintro ⟨a, ha, rfl⟩
    obtain ⟨group, hgroup, hmem⟩ :=
      mem_flatten.mp ((perm_flatten_stableGroups key xs).mem_iff.mpr ha)
    have heq := eq_filter_of_mem_groupByKey pairwise_sortByKey hgroup hmem
    rw [filter_sortByKey] at heq
    exact heq ▸ hgroup

/-! ## Renaming -/

section

variable {β : Type} (key) (f : β → α)

theorem sortByKey_map (ys : List β) :
    sortByKey key (ys.map f) = (sortByKey (fun b => key (f b)) ys).map f :=
  (map_insertionSort _ _ f ys fun _ _ _ _ => Iff.rfl).symm

theorem groupByKey_map (ys : List β) :
    groupByKey key (ys.map f) = (groupByKey (fun b => key (f b)) ys).map (List.map f) := by
  rw [groupByKey, splitBy_eq_iff]
  refine ⟨?_, ?_, ?_, ?_⟩
  · rw [← map_flatten, flatten_groupByKey]
  · intro hnil
    obtain ⟨group, hmem, hempty⟩ := mem_map.mp hnil
    exact ne_nil_of_mem_groupByKey hmem (map_eq_nil_iff.mp hempty)
  · rintro _ hmapped
    obtain ⟨group, hgroup, rfl⟩ := mem_map.mp hmapped
    rw [isChain_map]
    exact isChain_of_mem_splitBy hgroup
  · rw [isChain_map]
    refine (isChain_getLast_head_splitBy _ ys).imp ?_
    rintro g h ⟨hg, hh, hne⟩
    refine ⟨by simpa using hg, by simpa using hh, ?_⟩
    rwa [getLast_map, head_map]

theorem stableGroups_map (ys : List β) :
    stableGroups key (ys.map f) = (stableGroups (fun b => key (f b)) ys).map (List.map f) := by
  rw [stableGroups, sortByKey_map, groupByKey_map]
  rfl

end

end Eidnara.Lib
