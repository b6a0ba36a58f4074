import Mathlib.Data.List.Induction
import Mathlib.Data.List.Perm.Basic
import Mathlib.Data.List.Perm.Lattice

/-!
# Buckets by a key

Elements are collected under their keys, the keys in the order they are first seen and the
elements of a key in the order they come.
-/

namespace Eidnara.Lib

open List

variable {α β κ : Type} [DecidableEq κ] (key : α → κ)

def insertBucket (x : α) : List (κ × List α) → List (κ × List α)
  | [] => [(key x, [x])]
  | (k, xs) :: rest => if k = key x then (k, xs ++ [x]) :: rest else (k, xs) :: insertBucket x rest

def buckets (xs : List α) : List (κ × List α) :=
  xs.foldl (fun opened x => insertBucket key x opened) []

variable {key} {xs ys : List α}

structure Bucketed (key : α → κ) (xs : List α) (opened : List (κ × List α)) : Prop where
  nodup : (opened.map Prod.fst).Nodup
  bucket : ∀ b ∈ opened, b.2 = xs.filter (key · = b.1)
  keys : ∀ k, k ∈ opened.map Prod.fst ↔ k ∈ xs.map key

theorem insertBucket_map {keys : List κ} (hnodup : keys.Nodup) {x : α}
    (hnew : key x ∉ keys → xs.filter (key · = key x) = []) :
    insertBucket key x (keys.map fun k => (k, xs.filter (key · = k))) =
      (if key x ∈ keys then keys else keys ++ [key x]).map
        fun k => (k, (xs ++ [x]).filter (key · = k)) := by
  induction keys with
  | nil => simp [insertBucket, hnew not_mem_nil]
  | cons k keys ih =>
    rw [nodup_cons] at hnodup
    rw [map_cons, insertBucket]
    by_cases hkey : k = key x
    · subst hkey
      have hrest : ∀ k ∈ keys, key x ≠ k := fun k hk heq => hnodup.1 (heq ▸ hk)
      simp only [if_true, mem_cons_self, map_cons, filter_append]
      refine congrArg₂ cons (by simp) (map_congr_left fun k hk => by simp [hrest k hk])
    · have hne : key x ≠ k := Ne.symm hkey
      rw [if_neg hkey, ih hnodup.2 fun h => hnew (by simp [hne, h])]
      simp only [mem_cons, hne, false_or]
      split_ifs <;> simp [hne]

variable (key) in
theorem bucketed_buckets (xs : List α) : Bucketed key xs (buckets key xs) := by
  suffices ∃ keys : List κ, keys.Nodup ∧ (∀ k, k ∈ keys ↔ k ∈ xs.map key) ∧
      buckets key xs = keys.map fun k => (k, xs.filter (key · = k)) by
    obtain ⟨keys, hnodup, hkeys, heq⟩ := this
    have hfst : (buckets key xs).map Prod.fst = keys := by simp [heq, Function.comp_def]
    refine ⟨hfst ▸ hnodup, fun b hb => ?_, fun k => hfst ▸ hkeys k⟩
    obtain ⟨k, -, rfl⟩ := mem_map.mp (heq ▸ hb)
    rfl
  induction xs using List.reverseRecOn with
  | nil => exact ⟨[], nodup_nil, by simp, rfl⟩
  | append_singleton xs x ih =>
    obtain ⟨keys, hnodup, hkeys, heq⟩ := ih
    refine ⟨if key x ∈ keys then keys else keys ++ [key x], ?_, fun k => ?_, ?_⟩
    · split_ifs with hmem
      · exact hnodup
      · exact concat_eq_append ▸ hnodup.concat hmem
    · split_ifs with hmem
      · have hold := (hkeys _).mp hmem
        simp only [hkeys, map_append, mem_append]
        exact ⟨.inl, fun h => h.elim id fun hk => (mem_singleton.mp hk) ▸ hold⟩
      · simp [hkeys]
    · rw [buckets, foldl_append, foldl_cons, foldl_nil, ← buckets, heq]
      refine insertBucket_map hnodup fun hnew => filter_eq_nil_iff.mpr fun y hy heq => hnew ?_
      exact (hkeys _).mpr (of_decide_eq_true heq ▸ mem_map_of_mem hy)

namespace Bucketed

variable {opened opened' : List (κ × List α)}

theorem perm_flatMap (h : Bucketed key xs opened) : (opened.flatMap Prod.snd).Perm xs := by
  have hcount : ∀ (opened : List (κ × List α)) (xs : List α), (opened.map Prod.fst).Nodup →
      (∀ b ∈ opened, b.2 = xs.filter (key · = b.1)) →
      (∀ x ∈ xs, key x ∈ opened.map Prod.fst) → (opened.flatMap Prod.snd).Perm xs := by
    intro opened
    induction opened with
    | nil =>
      intro xs _ _ hkeys
      cases xs with
      | nil => exact .refl _
      | cons x xs => exact absurd (hkeys x mem_cons_self) not_mem_nil
    | cons b rest ih =>
      intro xs hnodup hbucket hkeys
      rw [map_cons, nodup_cons] at hnodup
      rw [flatMap_cons, hbucket b mem_cons_self]
      -- The other buckets are those of the elements with another key.
      have hrest := ih (xs.filter (¬ key · = b.1)) hnodup.2
        (by
          intro c hc
          have hne : c.1 ≠ b.1 := fun heq => hnodup.1 (heq ▸ mem_map_of_mem hc)
          rw [hbucket c (mem_cons_of_mem _ hc), filter_filter]
          refine filter_congr fun x _ => ?_
          by_cases hkey : key x = c.1
          · simp [hkey, hne]
          · simp [hkey])
        (by
          intro x hx
          obtain ⟨hx, hne⟩ := mem_filter.mp hx
          have hmem := hkeys x hx
          rw [map_cons, mem_cons] at hmem
          exact hmem.resolve_left (of_decide_eq_true hne))
      refine (hrest.append_left _).trans ?_
      have hsplit := filter_append_perm (fun x => decide (key x = b.1)) xs
      simpa using hsplit
  exact hcount opened xs h.nodup h.bucket fun x hx => (h.keys _).mpr (mem_map_of_mem hx)

/-- Two lists with the same keys whose buckets give the same, up to order. -/
theorem perm_flatMap_congr (h : Bucketed key xs opened) (h' : Bucketed key ys opened')
    (hkeys : ∀ k, k ∈ xs.map key ↔ k ∈ ys.map key) {f : κ × List α → List β}
    (hf : ∀ k, (f (k, xs.filter (key · = k))).Perm (f (k, ys.filter (key · = k)))) :
    (opened.flatMap f).Perm (opened'.flatMap f) := by
  have hopened : (opened.map Prod.fst).Perm (opened'.map Prod.fst) := by
    rw [perm_ext_iff_of_nodup h.nodup h'.nodup]
    intro k
    rw [h.keys, h'.keys, hkeys]
  have hbuckets : ∀ {zs opened}, Bucketed key zs opened →
      opened.flatMap f = (opened.map Prod.fst).flatMap fun k => f (k, zs.filter (key · = k)) := by
    intro zs opened h
    rw [flatMap_map]
    refine flatMap_congr fun b hb => ?_
    rw [← h.bucket b hb]
  rw [hbuckets h, hbuckets h']
  exact (hopened.flatMap_right _).trans (List.Perm.flatMap_left _ fun k _ => hf k)

end Bucketed

end Eidnara.Lib
