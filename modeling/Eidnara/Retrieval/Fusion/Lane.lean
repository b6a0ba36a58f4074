import Eidnara.Lib.Checked
import Eidnara.Lib.EntryMap
import Eidnara.Lib.StableGroups
import Mathlib.Data.Prod.Lex
import Mathlib.Order.WithBot

/-!
# Lane rankings

`fusion/lane.rs`: the hits of one lane become a ranking in which each occurrence stands once, at
its best score.  Identifiers and scores are elements of any linear orders; `total_cmp` is the
one on scores.
-/

namespace Eidnara.Retrieval.Fusion

open Lib List

inductive Lane where
  | exact | lexical | dense
deriving DecidableEq, Repr

def Lane.order : List Lane := [.exact, .lexical, .dense]

def Lane.index : Lane → Nat
  | .exact => 0
  | .lexical => 1
  | .dense => 2

inductive RawScore (V : Type) where
  | exact
  | lexical (value : V)
  | dense (value : V)
deriving DecidableEq, Repr

inductive IdentityRefusal where
  | scoreLaneMismatch (declared found : Lane)
  | nonFiniteScore
  | duplicateLane (lane : Lane)
  | encodingVersion (lane : Lane) (expected found : Nat)
deriving DecidableEq, Repr

def occurrenceEncodingVersion : Nat := 2

structure LaneHit (Id V : Type) where
  occurrence : Id
  rawScore : RawScore V
deriving DecidableEq, Repr

structure LaneEntry (Id V : Type) where
  occurrence : Id
  position : Nat
  rawScore : RawScore V
deriving DecidableEq, Repr

namespace RawScore

variable {V : Type}

def lane : RawScore V → Lane
  | .exact => .exact
  | .lexical _ => .lexical
  | .dense _ => .dense

def isFinite (finite : V → Bool) : RawScore V → Bool
  | .exact => true
  | .lexical value => finite value
  | .dense value => finite value

variable [LinearOrder V]

/-- Lower lexical and higher dense scores come first.  Scores of two lanes are never compared;
here they are in the order of the lanes. -/
def betterFirst : RawScore V → RawScore V → Ordering
  | .exact, .exact => .eq
  | .lexical left, .lexical right => compare left right
  | .dense left, .dense right => compare right left
  | left, right => compare left.lane.index right.lane.index

/-- What a score is compared by. -/
def key : RawScore V → Nat ×ₗ WithBot V ×ₗ WithBot Vᵒᵈ
  | .exact => toLex (0, toLex (⊥, ⊥))
  | .lexical value => toLex (1, toLex (↑value, ⊥))
  | .dense value => toLex (2, toLex (⊥, ↑(OrderDual.toDual value)))

theorem betterFirst_eq (a b : RawScore V) : a.betterFirst b = compare a.key b.key := by
  cases a <;> cases b
  case exact.exact => exact (compare_eq_iff_eq.mpr rfl).symm
  all_goals
    refine compare_congr ?_ ?_ <;>
      simp [key, lane, Lane.index, Prod.Lex.toLex_lt_toLex, OrderDual.toDual_lt_toDual]

omit [LinearOrder V] in
theorem key_injective : Function.Injective (key : RawScore V → _) := by
  intro a b h
  cases a <;> cases b <;> simp_all [key]

end RawScore

/-! ## The order of a ranking -/

section

variable {Id V : Type}

def number (ordered : List (Id × RawScore V)) : List (LaneEntry Id V) :=
  (ordered.zipIdx 1).map fun scored => ⟨scored.1.1, scored.2, scored.1.2⟩

def LaneEntry.scored (entry : LaneEntry Id V) : Id × RawScore V :=
  (entry.occurrence, entry.rawScore)

theorem map_number (xs : List (Id × RawScore V)) : (number xs).map LaneEntry.scored = xs := by
  rw [number, map_map]
  exact zipIdx_map_fst ..

theorem occurrence_number (xs : List (Id × RawScore V)) :
    (number xs).map LaneEntry.occurrence = xs.map Prod.fst := by
  conv_rhs => rw [← map_number xs, map_map]
  rfl

theorem positions_number (xs : List (Id × RawScore V)) :
    (number xs).map LaneEntry.position = List.range' 1 (number xs).length := by
  rw [number, map_map, length_map, length_zipIdx]
  exact zipIdx_map_snd ..

variable [LinearOrder Id] [LinearOrder V]

/-- By score, then by identifier. -/
def rankOrder (left right : Id × RawScore V) : Ordering :=
  (left.2.betterFirst right.2).then (compare left.1 right.1)

def rankKey (scored : Id × RawScore V) : (Nat ×ₗ WithBot V ×ₗ WithBot Vᵒᵈ) ×ₗ Id :=
  toLex (scored.2.key, scored.1)

theorem rankOrder_eq (a b : Id × RawScore V) :
    rankOrder a b = compare (rankKey a) (rankKey b) := by
  rw [rankOrder, RawScore.betterFirst_eq]
  rfl

omit [LinearOrder Id] [LinearOrder V] in
theorem rankKey_injective : Function.Injective (rankKey : Id × RawScore V → _) := by
  rintro ⟨id, score⟩ ⟨id', score'⟩ h
  obtain ⟨hscore, hid⟩ := Prod.ext_iff.mp (toLex.injective h)
  exact Prod.ext hid (RawScore.key_injective hscore)

/-- A ranking of one lane.  Its entries are in order, at the positions from one on, and no
occurrence stands twice. -/
structure LaneRanking (Id V : Type) [LinearOrder Id] [LinearOrder V] where
  lane : Lane
  encodingVersion : Nat
  entries : List (LaneEntry Id V)
  ordered : entries.Pairwise fun a b => rankOrder a.scored b.scored = .lt
  positions : entries.map LaneEntry.position = List.range' 1 entries.length
  distinct : (entries.map LaneEntry.occurrence).Nodup

theorem perm_sorted (best : EntryMap Id (RawScore V)) :
    (sortByCmp rankOrder best.entries).Perm best.entries := by
  rw [sortByCmp_eq rankOrder_eq]
  exact perm_sortByKey

theorem pairwise_sorted (best : EntryMap Id (RawScore V)) :
    (sortByCmp rankOrder best.entries).Pairwise fun a b => rankOrder a b = .lt := by
  have hnodup : (sortByCmp rankOrder best.entries).Nodup :=
    (perm_sorted best).nodup_iff.mpr (List.Nodup.of_map _ best.nodup_keys)
  rw [sortByCmp_eq rankOrder_eq] at hnodup ⊢
  refine (pairwise_sortByKey.and hnodup).imp fun h => ?_
  rw [rankOrder_eq, compare_lt_iff_lt]
  exact lt_of_le_of_ne h.1 (rankKey_injective.ne h.2)

def LaneRanking.ofBest (lane : Lane) (encodingVersion : Nat) (best : EntryMap Id (RawScore V)) :
    LaneRanking Id V where
  lane := lane
  encodingVersion := encodingVersion
  entries := number (sortByCmp rankOrder best.entries)
  ordered := by
    rw [← pairwise_map (f := LaneEntry.scored) (R := fun a b => rankOrder a b = .lt), map_number]
    exact pairwise_sorted best
  positions := positions_number _
  distinct := by
    rw [occurrence_number]
    exact ((perm_sorted best).map Prod.fst).nodup_iff.mpr best.nodup_keys

/-! ## Consolidation -/

def keep (incumbent : Option (RawScore V)) (hit : LaneHit Id V) : RawScore V :=
  match incumbent with
  | none => hit.rawScore
  | some incumbent => if hit.rawScore.betterFirst incumbent = .lt then hit.rawScore else incumbent

def admitHit (finite : V → Bool) (lane : Lane) (best : EntryMap Id (RawScore V))
    (hit : LaneHit Id V) : Except IdentityRefusal (EntryMap Id (RawScore V)) :=
  if hit.rawScore.lane ≠ lane then .error (.scoreLaneMismatch lane hit.rawScore.lane)
  else if !hit.rawScore.isFinite finite then .error .nonFiniteScore
  else .ok (EntryMap.collectOne (fun hit => some hit.occurrence) keep best hit)

def consolidate (finite : V → Bool) (lane : Lane) (encodingVersion : Nat)
    (hits : List (LaneHit Id V)) : Except IdentityRefusal (LaneRanking Id V) :=
  if encodingVersion ≠ occurrenceEncodingVersion then
    .error (.encodingVersion lane occurrenceEncodingVersion encodingVersion)
  else do
    let best ← hits.foldlM (admitHit finite lane) EntryMap.empty
    .ok (.ofBest lane encodingVersion best)

def bestOf (hits : List (LaneHit Id V)) : EntryMap Id (RawScore V) :=
  EntryMap.collect (fun hit => some hit.occurrence) keep hits

def Taken (finite : V → Bool) (lane : Lane) (hit : LaneHit Id V) : Prop :=
  hit.rawScore.lane = lane ∧ hit.rawScore.isFinite finite = true

/-- The score is one of the occurrence's and none of them comes before it. -/
def IsBest (hits : List (LaneHit Id V)) (occurrence : Id) (score : RawScore V) : Prop :=
  ⟨occurrence, score⟩ ∈ hits ∧
    ∀ hit ∈ hits, hit.occurrence = occurrence → hit.rawScore.betterFirst score ≠ .lt

variable {finite : V → Bool} {lane : Lane}

theorem admitHit_eq_ok {hit : LaneHit Id V} {best final : EntryMap Id (RawScore V)} :
    admitHit finite lane best hit = .ok final ↔
      Taken finite lane hit ∧
        final = EntryMap.collectOne (fun hit => some hit.occurrence) keep best hit := by
  unfold admitHit Taken
  by_cases hlane : hit.rawScore.lane = lane
  · by_cases hfinite : hit.rawScore.isFinite finite = true
    · simp [hlane, hfinite, eq_comm]
    · simp [hlane, hfinite]
  · simp [hlane]

variable {hits : List (LaneHit Id V)}

theorem foldlM_admitHit {best final : EntryMap Id (RawScore V)} :
    hits.foldlM (admitHit finite lane) best = .ok final ↔ (∀ hit ∈ hits, Taken finite lane hit) ∧
      final = hits.foldl (EntryMap.collectOne (fun hit => some hit.occurrence) keep) best := by
  induction hits generalizing best with
  | nil =>
    exact ⟨fun h => ⟨by simp, (Except.ok.inj h).symm⟩, fun h => congrArg _ h.2.symm⟩
  | cons hit hits ih =>
    rw [foldlM_cons, bind_eq_ok_iff, forall_mem_cons, foldl_cons]
    simp only [admitHit_eq_ok, ih]
    constructor
    · rintro ⟨next, ⟨htaken, rfl⟩, hall, hfinal⟩
      exact ⟨⟨htaken, hall⟩, hfinal⟩
    · rintro ⟨⟨htaken, hall⟩, hfinal⟩
      exact ⟨_, ⟨htaken, rfl⟩, hall, hfinal⟩

theorem consolidate_eq_ok {encodingVersion : Nat} {ranking : LaneRanking Id V} :
    consolidate finite lane encodingVersion hits = .ok ranking ↔
      encodingVersion = occurrenceEncodingVersion ∧ (∀ hit ∈ hits, Taken finite lane hit) ∧
        ranking = .ofBest lane encodingVersion (bestOf hits) := by
  unfold consolidate
  by_cases hversion : encodingVersion = occurrenceEncodingVersion
  · rw [if_neg (not_not.mpr hversion), bind_eq_ok_iff]
    simp only [foldlM_admitHit, Except.ok.injEq]
    constructor
    · rintro ⟨best, ⟨htaken, rfl⟩, rfl⟩
      exact ⟨hversion, htaken, rfl⟩
    · rintro ⟨-, htaken, rfl⟩
      exact ⟨_, ⟨htaken, rfl⟩, rfl⟩
  · rw [if_pos hversion]
    exact ⟨nofun, fun h => absurd h.1 hversion⟩

theorem betterFirst_ne_lt {a b : RawScore V} : a.betterFirst b ≠ .lt ↔ b.key ≤ a.key := by
  rw [RawScore.betterFirst_eq, ne_eq, compare_lt_iff_lt, not_lt]

variable {occurrence : Id} {score : RawScore V}

omit [LinearOrder Id] in
theorem IsBest.unique {score' : RawScore V} (h : IsBest hits occurrence score)
    (h' : IsBest hits occurrence score') : score = score' :=
  RawScore.key_injective (le_antisymm (betterFirst_ne_lt.mp (h.2 _ h'.1 rfl))
    (betterFirst_ne_lt.mp (h'.2 _ h.1 rfl)))

omit [LinearOrder Id] in
theorem keep_some (incumbent : RawScore V) (hit : LaneHit Id V) :
    (keep (some incumbent) hit = hit.rawScore ∨ keep (some incumbent) hit = incumbent) ∧
      (keep (some incumbent) hit).key ≤ hit.rawScore.key ∧
      (keep (some incumbent) hit).key ≤ incumbent.key := by
  unfold keep
  by_cases hbetter : hit.rawScore.betterFirst incumbent = .lt
  · simp only [hbetter, if_true]
    rw [RawScore.betterFirst_eq, compare_lt_iff_lt] at hbetter
    exact ⟨.inl trivial, le_rfl, hbetter.le⟩
  · simp only [hbetter, if_false]
    exact ⟨.inr trivial, betterFirst_ne_lt.mp hbetter, le_rfl⟩

theorem find_bestOf :
    (bestOf hits).find occurrence = some score ↔ IsBest hits occurrence score := by
  have hbest : ∀ {score}, (bestOf hits).find occurrence = some score →
      IsBest hits occurrence score := by
    intro score h
    obtain ⟨⟨hit, hhit, rfl⟩, hleast⟩ := EntryMap.find_collect_induct
      (P := fun (seen : List (LaneHit Id V)) (score : RawScore V) =>
        (∃ hit ∈ seen, hit.rawScore = score) ∧ ∀ hit ∈ seen, score.key ≤ hit.rawScore.key)
      (fun hit _ => ⟨⟨hit, by simp, rfl⟩, by simp [keep]⟩)
      (fun seen score hit _ ⟨⟨other, hother, hscore⟩, hseen⟩ => by
        obtain ⟨hone, hhit, hscore'⟩ := keep_some score hit
        refine ⟨?_, ?_⟩
        · rcases hone with hone | hone
          · exact ⟨hit, by simp, hone.symm⟩
          · exact ⟨other, by simp [hother], hscore.trans hone.symm⟩
        · simp only [mem_append, mem_singleton]
          rintro later (hlater | rfl)
          · exact hscore'.trans (hseen later hlater)
          · exact hhit) h
    obtain ⟨hmem, hkey⟩ := mem_filter.mp hhit
    obtain rfl : hit.occurrence = occurrence := by simpa using hkey
    refine ⟨hmem, fun other hother hsame => betterFirst_ne_lt.mpr ?_⟩
    exact hleast other (mem_filter.mpr ⟨hother, by simpa using hsame⟩)
  refine ⟨hbest, fun h => ?_⟩
  obtain ⟨found, hfound⟩ : ∃ found, (bestOf hits).find occurrence = some found :=
    EntryMap.exists_find_collect h.1 rfl
  rw [hfound, (hbest hfound).unique h]

theorem bestOf_congr {hits' : List (LaneHit Id V)} (h : ∀ hit, hit ∈ hits' ↔ hit ∈ hits) :
    bestOf hits' = bestOf hits := by
  refine EntryMap.eq_of_find fun occurrence => Option.ext fun score => ?_
  rw [find_bestOf, find_bestOf]
  simp only [IsBest, h]

theorem mem_ofBest {encodingVersion : Nat} :
    (∃ entry ∈ (LaneRanking.ofBest lane encodingVersion (bestOf hits)).entries,
      entry.occurrence = occurrence ∧ entry.rawScore = score) ↔ IsBest hits occurrence score := by
  have hmap : ∀ scored : Id × RawScore V,
      scored ∈
        (LaneRanking.ofBest lane encodingVersion (bestOf hits)).entries.map LaneEntry.scored ↔
        scored ∈ (bestOf hits).entries := by
    intro scored
    have hentries : (LaneRanking.ofBest lane encodingVersion (bestOf hits)).entries.map
        LaneEntry.scored = sortByCmp rankOrder (bestOf hits).entries := map_number _
    rw [hentries, (perm_sorted _).mem_iff]
  rw [← find_bestOf, EntryMap.find_eq_some_iff, ← hmap, mem_map]
  simp only [LaneEntry.scored, Prod.mk.injEq]

/-- The ranking of hits: each occurrence once, at its best score, by score and identifier, at
the positions from one on. -/
structure IsRanking (hits : List (LaneHit Id V)) (entries : List (LaneEntry Id V)) : Prop where
  best : ∀ occurrence score, (∃ entry ∈ entries, entry.occurrence = occurrence ∧
    entry.rawScore = score) ↔ IsBest hits occurrence score
  distinct : (entries.map LaneEntry.occurrence).Nodup
  ordered : entries.Pairwise fun a b => rankOrder a.scored b.scored = .lt
  positions : entries.map LaneEntry.position = List.range' 1 entries.length

theorem isRanking_ofBest (lane : Lane) (encodingVersion : Nat) (hits : List (LaneHit Id V)) :
    IsRanking hits (LaneRanking.ofBest lane encodingVersion (bestOf hits)).entries where
  best _ _ := mem_ofBest
  distinct := LaneRanking.distinct _
  ordered := LaneRanking.ordered _
  positions := LaneRanking.positions _

end

end Eidnara.Retrieval.Fusion
