import Mathlib.Data.List.Induction
import Mathlib.Data.List.Lex
import Mathlib.Data.List.Sort

/-!
# Ordered maps built by repeated insertion

An ordered map is represented by its entries in key order.  `insertEntry` is
the insertion of such a map: a new key takes its place in the order and an
existing key has its value replaced.  `collectEntries` inserts the entries of
a list one after another, which is how an ordered map is collected from an
iterator.
-/

namespace Eidnara.Lib.SortedEntries

open List

variable {κ α : Type} [LinearOrder κ]

def insertEntry (key : κ) (value : α) : List (κ × α) → List (κ × α)
  | [] => [(key, value)]
  | (k, v) :: rest =>
    if key < k then (key, value) :: (k, v) :: rest
    else if key = k then (key, value) :: rest
    else (k, v) :: insertEntry key value rest

/-- The ordered map collected from `entries`; later duplicates win. -/
def collectEntries (entries : List (κ × α)) : List (κ × α) :=
  entries.foldl (fun sorted entry => insertEntry entry.1 entry.2 sorted) []

def Ascending (entries : List (κ × α)) : Prop :=
  entries.Pairwise fun a b => a.1 < b.1

variable {key : κ} {value : α} {entries : List (κ × α)}

theorem mem_insertEntry {entry : κ × α} (h : entry ∈ insertEntry key value entries) :
    entry = (key, value) ∨ entry ∈ entries := by
  induction entries with
  | nil => simpa [insertEntry] using h
  | cons head rest ih =>
    unfold insertEntry at h
    split_ifs at h with hlt heq
    · simpa using h
    · simp only [mem_cons] at h ⊢
      tauto
    · rcases mem_cons.mp h with h | h
      · exact Or.inr (by simp [h])
      · rcases ih h with h | h
        · exact Or.inl h
        · exact Or.inr (mem_cons_of_mem _ h)

theorem ascending_insertEntry (h : Ascending entries) :
    Ascending (insertEntry key value entries) := by
  induction entries with
  | nil => simp [insertEntry, Ascending]
  | cons head rest ih =>
    obtain ⟨hhead, hrest⟩ := pairwise_cons.mp h
    unfold insertEntry
    split_ifs with hlt heq
    · exact pairwise_cons.mpr
        ⟨forall_mem_cons.mpr ⟨hlt, fun entry hentry => hlt.trans (hhead entry hentry)⟩, h⟩
    · subst heq
      exact pairwise_cons.mpr ⟨hhead, hrest⟩
    · refine pairwise_cons.mpr ⟨?_, ih hrest⟩
      intro entry hentry
      rcases mem_insertEntry hentry with rfl | hentry
      · exact lt_of_le_of_ne (not_lt.mp hlt) (Ne.symm heq)
      · exact hhead entry hentry

theorem collectEntries_concat (entries : List (κ × α)) (entry : κ × α) :
    collectEntries (entries ++ [entry]) = insertEntry entry.1 entry.2 (collectEntries entries) := by
  simp [collectEntries]

theorem ascending_collectEntries (entries : List (κ × α)) :
    Ascending (collectEntries entries) := by
  induction entries using List.reverseRecOn with
  | nil => exact .nil
  | append_singleton entries entry ih =>
    rw [collectEntries_concat]
    exact ascending_insertEntry ih

theorem perm_insertEntry (hfresh : ∀ entry ∈ entries, entry.1 ≠ key) :
    (insertEntry key value entries).Perm ((key, value) :: entries) := by
  induction entries with
  | nil => simp [insertEntry]
  | cons head rest ih =>
    obtain ⟨k, v⟩ := head
    have hk : k ≠ key := hfresh (k, v) (by simp)
    unfold insertEntry
    split_ifs with hlt heq
    · exact List.Perm.refl _
    · exact absurd heq.symm hk
    · have hrest := ih fun entry hentry => hfresh entry (mem_cons_of_mem _ hentry)
      exact (hrest.cons (k, v)).trans (List.Perm.swap _ _ _)

theorem perm_collectEntries (hnodup : (entries.map Prod.fst).Nodup) :
    (collectEntries entries).Perm entries := by
  induction entries using List.reverseRecOn with
  | nil => exact .refl _
  | append_singleton entries entry ih =>
    rw [map_append, nodup_append] at hnodup
    have hperm := ih hnodup.1
    rw [collectEntries_concat]
    refine (perm_insertEntry fun a ha => ?_).trans ((hperm.cons entry).trans
      (perm_append_singleton _ _).symm)
    exact hnodup.2.2 _ (mem_map_of_mem (hperm.subset ha)) _ (mem_singleton_self _)

theorem eq_of_perm_ascending {a b : List (κ × α)} (ha : Ascending a)
    (hb : Ascending b) (h : a.Perm b) : a = b := by
  have hasymm : ∀ x y : κ × α, x ∈ a → y ∈ b → x.1 < y.1 → y.1 < x.1 → x = y := by
    intro x y _ _ hxy hyx
    exact absurd hyx (not_lt.mpr hxy.le)
  exact List.Perm.eq_of_pairwise hasymm ha hb h

theorem collectEntries_eq_insertionSort (hnodup : (entries.map Prod.fst).Nodup) :
    collectEntries entries = entries.insertionSort fun a b => a.1 ≤ b.1 := by
  refine eq_of_perm_ascending (ascending_collectEntries entries) ?_
    ((perm_collectEntries hnodup).trans (perm_insertionSort _ entries).symm)
  have hle : (entries.insertionSort fun a b => a.1 ≤ b.1).Pairwise fun a b => a.1 ≤ b.1 :=
    pairwise_insertionSort _ entries
  have hkeys : ((entries.insertionSort fun a b => a.1 ≤ b.1).map Prod.fst).Nodup :=
    ((perm_insertionSort _ entries).map Prod.fst).nodup_iff.mpr hnodup
  have hne : (entries.insertionSort fun a b => a.1 ≤ b.1).Pairwise fun a b => a.1 ≠ b.1 :=
    pairwise_map.mp hkeys
  exact (hle.and hne).imp fun h => lt_of_le_of_ne h.1 h.2

end Eidnara.Lib.SortedEntries
