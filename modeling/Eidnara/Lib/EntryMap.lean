import Eidnara.Lib.SortedEntries
import Mathlib.Data.Finset.Card

/-!
# Ordered maps

An ordered map is its entries in strictly ascending key order.  Lookups after each operation
and the number of entries are all that a client needs.
-/

namespace Eidnara.Lib

open SortedEntries List

namespace EntryMap

variable {κ α : Type} [DecidableEq κ] {key : κ} {value : α}

theorem lookup_cons (entry : κ × α) (rest : List (κ × α)) (key : κ) :
    (entry :: rest).lookup key = if key = entry.1 then some entry.2 else rest.lookup key := by
  obtain ⟨k, v⟩ := entry
  by_cases hkey : key = k
  · simp [hkey]
  · rw [List.lookup_cons, beq_eq_false_iff_ne.mpr hkey, if_neg hkey]

theorem lookup_eq_some_iff {entries : List (κ × α)} (h : (entries.map Prod.fst).Nodup) :
    entries.lookup key = some value ↔ (key, value) ∈ entries := by
  induction entries with
  | nil => simp
  | cons head rest ih =>
    obtain ⟨k, v⟩ := head
    obtain ⟨hnot, hrest⟩ := nodup_cons.mp h
    rw [lookup_cons]
    by_cases hkey : key = k
    · subst hkey
      simp only [if_true, mem_cons, Prod.mk.injEq, true_and]
      constructor
      · intro hv
        exact .inl (Option.some.inj hv).symm
      · rintro (rfl | hmem)
        · rfl
        · exact absurd (mem_map_of_mem hmem) hnot
    · simp only [hkey, if_false, mem_cons, Prod.mk.injEq, false_and, false_or]
      exact ih hrest

end EntryMap

structure EntryMap (κ α : Type) [LinearOrder κ] where
  entries : List (κ × α)
  ascending : Ascending entries

namespace EntryMap

variable {κ α : Type} [LinearOrder κ]

def empty : EntryMap κ α := ⟨[], List.Pairwise.nil⟩

def find (m : EntryMap κ α) (key : κ) : Option α := m.entries.lookup key

def size (m : EntryMap κ α) : Nat := m.entries.length

def insert (m : EntryMap κ α) (key : κ) (value : α) : EntryMap κ α :=
  ⟨insertEntry key value m.entries, ascending_insertEntry m.ascending⟩

variable {m : EntryMap κ α} {key : κ} {value : α}

theorem nodup_keys (m : EntryMap κ α) : (m.entries.map Prod.fst).Nodup :=
  pairwise_map.mpr (m.ascending.imp fun h => h.ne)

theorem find_eq_some_iff : m.find key = some value ↔ (key, value) ∈ m.entries :=
  lookup_eq_some_iff m.nodup_keys

@[simp] theorem find_empty : (empty : EntryMap κ α).find key = none := rfl

theorem lookup_insertEntry (key : κ) (value : α) (entries : List (κ × α)) (k : κ) :
    (insertEntry key value entries).lookup k =
      if k = key then some value else entries.lookup k := by
  induction entries with
  | nil => simp [insertEntry, lookup_cons]
  | cons head rest ih =>
    obtain ⟨k', v⟩ := head
    unfold insertEntry
    by_cases hlt : key < k'
    · rw [if_pos hlt, lookup_cons]
    · rw [if_neg hlt]
      by_cases heq : key = k'
      · subst heq
        rw [if_pos rfl, lookup_cons, lookup_cons]
        by_cases hk : k = key <;> simp [hk]
      · rw [if_neg heq, lookup_cons, lookup_cons, ih]
        by_cases hk : k = key
        · subst hk
          simp [heq]
        · simp [hk]

theorem find_insert (m : EntryMap κ α) (key : κ) (value : α) (k : κ) :
    (m.insert key value).find k = if k = key then some value else m.find k :=
  lookup_insertEntry key value m.entries k

theorem eq_of_find {m m' : EntryMap κ α} (h : ∀ k, m.find k = m'.find k) : m = m' := by
  have hmem : ∀ entry, entry ∈ m.entries ↔ entry ∈ m'.entries := by
    intro entry
    rw [← find_eq_some_iff, ← find_eq_some_iff, h]
  have hperm : m.entries.Perm m'.entries :=
    (perm_ext_iff_of_nodup (List.Nodup.of_map _ m.nodup_keys)
      (List.Nodup.of_map _ m'.nodup_keys)).mpr hmem
  have hentries := eq_of_perm_ascending m.ascending m'.ascending hperm
  cases m
  cases m'
  cases hentries
  rfl

theorem size_eq_card {m : EntryMap κ α} {keys : Finset κ}
    (h : ∀ k, (m.find k).isSome = true ↔ k ∈ keys) : m.size = keys.card := by
  have hkeys : (m.entries.map Prod.fst).toFinset = keys := by
    ext k
    rw [mem_toFinset, ← h, Option.isSome_iff_exists, mem_map]
    simp only [find_eq_some_iff]
    constructor
    · rintro ⟨⟨key, value⟩, hmem, rfl⟩
      exact ⟨value, hmem⟩
    · rintro ⟨value, hmem⟩
      exact ⟨(k, value), hmem, rfl⟩
  rw [← hkeys, toFinset_card_of_nodup m.nodup_keys, length_map]
  rfl

/-! ## Collecting by key -/

section Collect

variable {β : Type} (key : β → Option κ) (add : Option α → β → α)

def collectOne (m : EntryMap κ α) (x : β) : EntryMap κ α :=
  match key x with
  | none => m
  | some k => m.insert k (add (m.find k) x)

/-- One value for each key among the elements, built by `add` from those elements in turn. -/
def collect (xs : List β) : EntryMap κ α := xs.foldl (collectOne key add) empty

theorem find_collectOne (m : EntryMap κ α) (x : β) (k : κ) :
    (collectOne key add m x).find k =
      if key x = some k then some (add (m.find k) x) else m.find k := by
  unfold collectOne
  cases hkey : key x with
  | none => simp
  | some k' =>
    simp only [find_insert, Option.some.injEq]
    by_cases heq : k = k'
    · subst heq
      simp
    · rw [if_neg heq, if_neg (Ne.symm heq)]

theorem find_foldl_collectOne (xs : List β) (m : EntryMap κ α) (k : κ) :
    (xs.foldl (collectOne key add) m).find k =
      (xs.filter (key · = some k)).foldl (fun value x => some (add value x)) (m.find k) := by
  induction xs generalizing m with
  | nil => rfl
  | cons x rest ih =>
    rw [foldl_cons, ih, find_collectOne]
    by_cases hkey : key x = some k
    · rw [if_pos hkey, filter_cons_of_pos (by simpa using hkey), foldl_cons]
    · rw [if_neg hkey, filter_cons_of_neg (by simpa using hkey)]

theorem find_collect (xs : List β) (k : κ) :
    (collect key add xs).find k =
      (xs.filter (key · = some k)).foldl (fun value x => some (add value x)) none :=
  find_foldl_collectOne key add xs empty k

variable {key add} in
/-- What holds of a value started from one element and is kept by adding another holds of each
collected value and the elements of its key. -/
theorem find_collect_induct {P : List β → α → Prop} {k : κ}
    (hfirst : ∀ x, key x = some k → P [x] (add none x))
    (hmore : ∀ xs value x, key x = some k → P xs value → P (xs ++ [x]) (add (some value) x))
    {xs : List β} {value : α} (h : (collect key add xs).find k = some value) :
    P (xs.filter (key · = some k)) value := by
  rw [find_collect] at h
  have hkey : ∀ x ∈ xs.filter (key · = some k), key x = some k := fun x hx => by
    simpa using (mem_filter.mp hx).2
  generalize xs.filter (key · = some k) = ys at h hkey
  induction ys using List.reverseRecOn generalizing value with
  | nil => cases h
  | append_singleton ys x ih =>
    rw [foldl_append, foldl_cons, foldl_nil, Option.some.injEq] at h
    subst h
    have hx := hkey x (by simp)
    cases hbefore : ys.foldl (fun value x => some (add value x)) none with
    | none =>
      cases ys using List.reverseRecOn with
      | nil => exact hfirst x hx
      | append_singleton ys y => simp at hbefore
    | some before =>
      exact hmore ys before x hx
        (ih hbefore fun y hy => hkey y (mem_append_left _ hy))

variable {key add} in
theorem exists_find_collect {xs : List β} {x : β} (hx : x ∈ xs) {k : κ} (hkey : key x = some k) :
    ∃ value, (collect key add xs).find k = some value := by
  rw [find_collect]
  have hmem : x ∈ xs.filter (key · = some k) := mem_filter.mpr ⟨hx, by simpa using hkey⟩
  generalize xs.filter (key · = some k) = ys at hmem
  cases ys using List.reverseRecOn with
  | nil => cases hmem
  | append_singleton ys y => exact ⟨_, by rw [foldl_append]; rfl⟩

end Collect

end EntryMap

end Eidnara.Lib
