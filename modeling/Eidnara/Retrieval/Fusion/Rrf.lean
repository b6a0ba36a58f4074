import Eidnara.Retrieval.Fusion.Lane

/-!
# Fusion of lanes

`fusion/rrf.rs`: the rankings of the declared lanes become one, by the sum of a term for each
lane that ranks an occurrence.  An array indexed by `Lane::index` is a function of the lane.
Fused scores are elements of a linear order with the operations the terms use.
-/

namespace Eidnara.Retrieval.Fusion

open Lib List

section

variable {Id V : Type} [LinearOrder Id] [LinearOrder V]

/-! ## Declared lanes -/

/-- One slot for each lane, with a ranking of that lane. -/
structure DeclaredLanes (Id V : Type) [LinearOrder Id] [LinearOrder V] where
  slots : Lane → Option (LaneRanking Id V)
  lane_of_slot : ∀ lane ranking, slots lane = some ranking → ranking.lane = lane

namespace DeclaredLanes

def empty : DeclaredLanes Id V := ⟨fun _ => none, nofun⟩

def put (lanes : DeclaredLanes Id V) (ranking : LaneRanking Id V) : DeclaredLanes Id V where
  slots := Function.update lanes.slots ranking.lane (some ranking)
  lane_of_slot := by
    intro lane found h
    by_cases hlane : lane = ranking.lane
    · subst hlane
      rw [Function.update_self] at h
      rw [Option.some.inj h]
    · rw [Function.update_of_ne hlane] at h
      exact lanes.lane_of_slot lane found h

def admitRanking (lanes : DeclaredLanes Id V) (ranking : LaneRanking Id V) :
    Except IdentityRefusal (DeclaredLanes Id V) :=
  if (lanes.slots ranking.lane).isSome then .error (.duplicateLane ranking.lane)
  else .ok (lanes.put ranking)

def admitRankings (rankings : List (LaneRanking Id V)) :
    Except IdentityRefusal (DeclaredLanes Id V) :=
  rankings.foldlM admitRanking empty

def rankings (lanes : DeclaredLanes Id V) : List (LaneRanking Id V) :=
  Lane.order.filterMap lanes.slots

end DeclaredLanes

/-! ## The union -/

structure UnionExceeded where
  bound : Nat
deriving DecidableEq, Repr

structure LaneContribution (V : Type) where
  position : Nat
  rawScore : RawScore V
deriving DecidableEq, Repr

def LaneEntry.contribution (entry : LaneEntry Id V) : LaneContribution V :=
  ⟨entry.position, entry.rawScore⟩

abbrev Contributions (V : Type) := Lane → Option (LaneContribution V)

/-- One entry of a lane's ranking: refused where it would be one occurrence too many. -/
def contribute (bound : Nat) (lane : Lane) (union : EntryMap Id (Contributions V))
    (entry : LaneEntry Id V) : Except UnionExceeded (EntryMap Id (Contributions V)) :=
  match union.find entry.occurrence with
  | none =>
    if bound ≤ union.size then .error ⟨bound⟩
    else .ok (union.insert entry.occurrence
      (Function.update (fun _ => none) lane (some entry.contribution)))
  | some slot =>
    .ok (union.insert entry.occurrence (Function.update slot lane (some entry.contribution)))

def unionOf (bound : Nat) (lanes : DeclaredLanes Id V) :
    Except UnionExceeded (EntryMap Id (Contributions V)) :=
  lanes.rankings.foldlM
    (fun union ranking => ranking.entries.foldlM (contribute bound ranking.lane) union)
    EntryMap.empty

end

/-! ## Scores -/

structure FusionParameters (F : Type) where
  weights : Lane → F
  k : F

structure FusedEntry (Id V F : Type) where
  occurrence : Id
  position : Nat
  score : F
  contributions : Contributions V

structure Fused (Id V F : Type) where
  entries : List (FusedEntry Id V F)
  undeclared : Lane → Bool

section

variable {Id V F : Type} [LinearOrder Id] [LinearOrder V] [LinearOrder F]
  [Zero F] [Add F] [Div F] [NatCast F]

def FusionParameters.term (parameters : FusionParameters F) (lane : Lane) (position : Nat) : F :=
  parameters.weights lane / (parameters.k + (position : F))

def FusionParameters.score (parameters : FusionParameters F) (contributions : Contributions V) :
    F :=
  Lane.order.foldl (fun sum lane =>
    match contributions lane with
    | some contribution => sum + parameters.term lane contribution.position
    | none => sum) 0

/-- By descending score, then by identifier. -/
def fusedOrder (left right : FusedEntry Id V F) : Ordering :=
  (compare right.score left.score).then (compare left.occurrence right.occurrence)

def numberFused (entries : List (FusedEntry Id V F)) : List (FusedEntry Id V F) :=
  (entries.zipIdx 1).map fun entry => { entry.1 with position := entry.2 }

def fuse (lanes : DeclaredLanes Id V) (parameters : FusionParameters F) (bound : Nat) :
    Except UnionExceeded (Fused Id V F) := do
  let union ← unionOf bound lanes
  let entries := union.entries.map fun entry =>
    { occurrence := entry.1, position := 1, score := parameters.score entry.2,
      contributions := entry.2 }
  .ok { entries := numberFused (sortByCmp fusedOrder entries),
        undeclared := fun lane => (lanes.slots lane).isNone }

end

/-! ## Declaring lanes -/

section

variable {Id V : Type} [LinearOrder Id] [LinearOrder V]

namespace DeclaredLanes

variable {lanes : DeclaredLanes Id V}

theorem eq_of_slots {lanes' : DeclaredLanes Id V} (h : lanes.slots = lanes'.slots) :
    lanes = lanes' := by
  cases lanes
  cases lanes'
  cases h
  rfl

theorem admitRanking_eq_ok {final : DeclaredLanes Id V} {ranking : LaneRanking Id V} :
    lanes.admitRanking ranking = .ok final ↔
      lanes.slots ranking.lane = none ∧ final = lanes.put ranking := by
  unfold admitRanking
  cases hslot : lanes.slots ranking.lane with
  | none => simp [eq_comm]
  | some found => simp

theorem admitRankings_concat (rankings : List (LaneRanking Id V)) (last : LaneRanking Id V) :
    admitRankings (rankings ++ [last]) =
      admitRankings rankings >>= fun lanes => lanes.admitRanking last := by
  rw [admitRankings, foldlM_append]
  simp only [foldlM_cons, foldlM_nil, bind_pure]
  rfl

variable {rankings : List (LaneRanking Id V)}

theorem slots_of_admitRankings (h : admitRankings rankings = .ok lanes) (lane : Lane)
    (ranking : LaneRanking Id V) :
    lanes.slots lane = some ranking ↔ ranking ∈ rankings ∧ ranking.lane = lane := by
  induction rankings using List.reverseRecOn generalizing lanes with
  | nil =>
    obtain rfl := Except.ok.inj h
    simp [empty]
  | append_singleton rankings last ih =>
    rw [admitRankings_concat, bind_eq_ok_iff] at h
    obtain ⟨mid, hmid, hlast⟩ := h
    obtain ⟨hfree, rfl⟩ := admitRanking_eq_ok.mp hlast
    simp only [mem_append, mem_singleton, put]
    by_cases hlane : lane = last.lane
    · subst hlane
      rw [Function.update_self, Option.some.injEq]
      constructor
      · rintro rfl
        exact ⟨.inr rfl, rfl⟩
      · rintro ⟨hmem | rfl, hsame⟩
        · have hslot := (ih hmid).mpr ⟨hmem, hsame⟩
          rw [hfree] at hslot
          cases hslot
        · rfl
    · rw [Function.update_of_ne hlane, ih hmid]
      refine and_congr_left fun hsame => ⟨.inl, fun hmem => hmem.resolve_right ?_⟩
      rintro rfl
      exact hlane hsame.symm

theorem exists_admitRankings :
    (∃ lanes, admitRankings rankings = .ok lanes) ↔ (rankings.map LaneRanking.lane).Nodup := by
  induction rankings using List.reverseRecOn with
  | nil => exact ⟨fun _ => nodup_nil, fun _ => ⟨empty, rfl⟩⟩
  | append_singleton rankings last ih =>
    simp only [admitRankings_concat, bind_eq_ok_iff, admitRanking_eq_ok]
    rw [map_append, map_singleton, nodup_append, ← ih]
    constructor
    · rintro ⟨lanes, mid, hmid, hfree, -⟩
      refine ⟨⟨mid, hmid⟩, nodup_singleton _, fun lane hlane other hother hsame => ?_⟩
      obtain ⟨ranking, hmem, rfl⟩ := mem_map.mp hlane
      obtain rfl := mem_singleton.mp hother
      have hslot := (slots_of_admitRankings hmid _ ranking).mpr ⟨hmem, hsame⟩
      rw [hfree] at hslot
      cases hslot
    · rintro ⟨⟨mid, hmid⟩, -, hfresh⟩
      refine ⟨_, mid, hmid, ?_, rfl⟩
      cases hslot : mid.slots last.lane with
      | none => rfl
      | some ranking =>
        obtain ⟨hmem, hsame⟩ := (slots_of_admitRankings hmid _ _).mp hslot
        exact absurd hsame (hfresh _ (mem_map_of_mem hmem) _ (mem_singleton_self _))

theorem admitRankings_perm {rankings' : List (LaneRanking Id V)} (hperm : rankings'.Perm rankings)
    (h : admitRankings rankings = .ok lanes) : admitRankings rankings' = .ok lanes := by
  have hnodup := exists_admitRankings.mp ⟨lanes, h⟩
  obtain ⟨lanes', h'⟩ := exists_admitRankings.mpr ((hperm.map _).nodup_iff.mpr hnodup)
  have hsame : lanes' = lanes := by
    refine eq_of_slots (funext fun lane => Option.ext fun ranking => ?_)
    rw [slots_of_admitRankings h', slots_of_admitRankings h, hperm.mem_iff]
  rw [h', hsame]

end DeclaredLanes

/-! ## The union of the lanes -/

/-- The entries of all lanes in the order they are united, each with its lane. -/
def DeclaredLanes.ranked (lanes : DeclaredLanes Id V) : List (Lane × LaneEntry Id V) :=
  lanes.rankings.flatMap fun ranking => ranking.entries.map (ranking.lane, ·)

def occurrences (pairs : List (Lane × LaneEntry Id V)) : Finset Id :=
  (pairs.map fun pair => pair.2.occurrence).toFinset

def uniteAll (bound : Nat) (pairs : List (Lane × LaneEntry Id V)) :
    Except UnionExceeded (EntryMap Id (Contributions V)) :=
  pairs.foldlM (fun union pair => contribute bound pair.1 union pair.2) EntryMap.empty

theorem unionOf_eq (bound : Nat) (lanes : DeclaredLanes Id V) :
    unionOf bound lanes = uniteAll bound lanes.ranked := by
  unfold unionOf uniteAll DeclaredLanes.ranked
  generalize lanes.rankings = rankings
  generalize (EntryMap.empty : EntryMap Id (Contributions V)) = start
  induction rankings generalizing start with
  | nil => rfl
  | cons ranking rankings ih =>
    rw [foldlM_cons, flatMap_cons, foldlM_append, foldlM_map]
    simp only [ih]

theorem mem_rankings {lanes : DeclaredLanes Id V} {ranking : LaneRanking Id V} :
    ranking ∈ lanes.rankings ↔ lanes.slots ranking.lane = some ranking := by
  rw [DeclaredLanes.rankings, mem_filterMap]
  constructor
  · rintro ⟨lane, -, hslot⟩
    rwa [lanes.lane_of_slot lane ranking hslot]
  · exact fun hslot => ⟨ranking.lane, by cases ranking.lane <;> decide, hslot⟩

theorem mem_ranked {lanes : DeclaredLanes Id V} {lane : Lane} {entry : LaneEntry Id V} :
    (lane, entry) ∈ lanes.ranked ↔
      ∃ ranking, lanes.slots lane = some ranking ∧ entry ∈ ranking.entries := by
  simp only [DeclaredLanes.ranked, mem_flatMap, mem_map, Prod.mk.injEq]
  constructor
  · rintro ⟨ranking, hranking, found, hfound, rfl, rfl⟩
    exact ⟨ranking, mem_rankings.mp hranking, hfound⟩
  · rintro ⟨ranking, hslot, hentry⟩
    obtain rfl := lanes.lane_of_slot lane ranking hslot
    exact ⟨ranking, mem_rankings.mpr hslot, entry, hentry, rfl, rfl⟩

theorem nodup_ranked (lanes : DeclaredLanes Id V) :
    (lanes.ranked.map fun pair => (pair.1, pair.2.occurrence)).Nodup := by
  have hlanes : lanes.rankings.Pairwise fun a b => a.lane ≠ b.lane := by
    rw [DeclaredLanes.rankings, pairwise_filterMap]
    have horder : Lane.order.Pairwise (· ≠ ·) := by decide
    refine horder.imp fun hne a ha b hb => ?_
    rwa [lanes.lane_of_slot _ a ha, lanes.lane_of_slot _ b hb]
  rw [DeclaredLanes.ranked, map_flatMap, nodup_flatMap]
  refine ⟨fun ranking _ => ?_, hlanes.imp fun hne => ?_⟩
  · rw [map_map]
    have := ranking.distinct.map (f := fun id => (ranking.lane, id)) (Prod.mk_right_injective _)
    rwa [map_map] at this
  · intro pair hleft hright
    simp only [map_map, mem_map, Function.comp] at hleft hright
    obtain ⟨_, -, rfl⟩ := hleft
    obtain ⟨_, -, hsame⟩ := hright
    exact hne (Prod.mk.inj hsame).1.symm

end

section

variable {Id V : Type} [LinearOrder Id]

/-- The union of the entries seen: every occurrence, and for it the lanes that rank it. -/
structure Unites (seen : List (Lane × LaneEntry Id V)) (union : EntryMap Id (Contributions V)) :
    Prop where
  found : ∀ id, (union.find id).isSome = true ↔ id ∈ occurrences seen
  slots : ∀ id slot, union.find id = some slot → ∀ lane contribution,
    slot lane = some contribution ↔
      ∃ entry, (lane, entry) ∈ seen ∧ entry.occurrence = id ∧ entry.contribution = contribution

variable {seen pairs : List (Lane × LaneEntry Id V)} {union : EntryMap Id (Contributions V)}
  {lane : Lane} {entry : LaneEntry Id V}

theorem Unites.size_eq (h : Unites seen union) : union.size = (occurrences seen).card :=
  EntryMap.size_eq_card h.found

theorem unites_nil : Unites ([] : List (Lane × LaneEntry Id V)) EntryMap.empty where
  found := by simp [occurrences]
  slots := by simp

theorem occurrences_concat (seen : List (Lane × LaneEntry Id V)) (lane : Lane)
    (entry : LaneEntry Id V) :
    occurrences (seen ++ [(lane, entry)]) = insert entry.occurrence (occurrences seen) := by
  ext id
  simp [occurrences]

theorem Unites.getD_find (h : Unites seen union) (id : Id) (lane : Lane)
    (contribution : LaneContribution V) :
    (union.find id).getD (fun _ => none) lane = some contribution ↔
      ∃ entry, (lane, entry) ∈ seen ∧ entry.occurrence = id ∧
        entry.contribution = contribution := by
  cases hfind : union.find id with
  | some slot => exact h.slots id slot hfind lane contribution
  | none =>
    refine iff_of_false (by simp) ?_
    rintro ⟨entry, hentry, rfl, -⟩
    have hmem : entry.occurrence ∈ occurrences seen :=
      mem_toFinset.mpr (mem_map_of_mem hentry)
    rw [← h.found, hfind] at hmem
    cases hmem

theorem Unites.insert (h : Unites seen union)
    (hnew : ∀ other, (lane, other) ∈ seen → other.occurrence ≠ entry.occurrence) :
    Unites (seen ++ [(lane, entry)]) (union.insert entry.occurrence
      (Function.update ((union.find entry.occurrence).getD fun _ => none) lane
        (some entry.contribution))) where
  found id := by
    rw [EntryMap.find_insert, occurrences_concat, Finset.mem_insert, ← h.found]
    split_ifs with hid <;> simp [hid]
  slots id slot hslot lane' contribution := by
    simp only [mem_append, mem_singleton, Prod.mk.injEq]
    rw [EntryMap.find_insert] at hslot
    split_ifs at hslot with hid
    · subst hid
      obtain rfl := Option.some.inj hslot
      by_cases hlane : lane' = lane
      · subst hlane
        rw [Function.update_self, Option.some.injEq]
        constructor
        · exact fun hsame => ⟨entry, .inr ⟨rfl, rfl⟩, rfl, hsame⟩
        · rintro ⟨other, hseen | ⟨-, rfl⟩, hid, hsame⟩
          · exact absurd hid (hnew other hseen)
          · exact hsame
      · rw [Function.update_of_ne hlane, h.getD_find]
        simp [hlane]
    · rw [h.slots id slot hslot]
      refine exists_congr fun other => ?_
      refine and_congr_left fun hother => ⟨.inl, fun hmem => hmem.resolve_right ?_⟩
      rintro ⟨-, rfl⟩
      exact hid hother.1.symm

theorem contribute_eq (bound : Nat) (lane : Lane) (union : EntryMap Id (Contributions V))
    (entry : LaneEntry Id V) : contribute bound lane union entry =
      if union.find entry.occurrence = none ∧ bound ≤ union.size then .error ⟨bound⟩
      else .ok (union.insert entry.occurrence
        (Function.update ((union.find entry.occurrence).getD fun _ => none) lane
          (some entry.contribution))) := by
  unfold contribute
  cases hfind : union.find entry.occurrence with
  | none => simp
  | some slot => simp

theorem uniteAll_concat (bound : Nat) (pairs : List (Lane × LaneEntry Id V)) (lane : Lane)
    (entry : LaneEntry Id V) : uniteAll bound (pairs ++ [(lane, entry)]) =
      uniteAll bound pairs >>= fun union => contribute bound lane union entry := by
  rw [uniteAll, foldlM_append]
  simp only [foldlM_cons, foldlM_nil, bind_pure]
  rfl

theorem uniteAll_cases (bound : Nat)
    (hnodup : (pairs.map fun pair => (pair.1, pair.2.occurrence)).Nodup) :
    (bound < (occurrences pairs).card ∧ uniteAll bound pairs = .error ⟨bound⟩) ∨
      ((occurrences pairs).card ≤ bound ∧ ∃ union, uniteAll bound pairs = .ok union ∧
        Unites pairs union) := by
  induction pairs using List.reverseRecOn with
  | nil => exact .inr ⟨Nat.zero_le _, EntryMap.empty, rfl, unites_nil⟩
  | append_singleton pairs last ih =>
    obtain ⟨lane, entry⟩ := last
    rw [map_append, map_singleton, nodup_append] at hnodup
    obtain ⟨hbefore, -, hfresh⟩ := hnodup
    rw [uniteAll_concat, occurrences_concat]
    rcases ih hbefore with ⟨hlarge, herror⟩ | ⟨hsmall, union, hunion, hunites⟩
    · refine .inl ⟨hlarge.trans_le (Finset.card_le_card (Finset.subset_insert _ _)), ?_⟩
      rw [herror]
      rfl
    · have hnew : ∀ other, (lane, other) ∈ pairs → other.occurrence ≠ entry.occurrence := by
        intro other hother hsame
        refine hfresh _ (mem_map_of_mem hother) _ (mem_singleton_self _) ?_
        rw [hsame]
      have hsize := hunites.size_eq
      have hpresent := hunites.found entry.occurrence
      have hstep : (uniteAll bound pairs >>= fun union => contribute bound lane union entry) =
          contribute bound lane union entry := by
        rw [hunion]
        rfl
      rw [hstep, contribute_eq]
      by_cases hmem : entry.occurrence ∈ occurrences pairs
      · obtain ⟨slot, hslot⟩ := Option.isSome_iff_exists.mp (hpresent.mpr hmem)
        rw [Finset.insert_eq_of_mem hmem, if_neg (by simp [hslot])]
        exact .inr ⟨hsmall, _, rfl, hunites.insert hnew⟩
      · have habsent : union.find entry.occurrence = none := by
          rw [← Option.not_isSome_iff_eq_none]
          exact hpresent.not.mpr hmem
        rw [Finset.card_insert_of_notMem hmem]
        by_cases hfull : bound ≤ union.size
        · rw [if_pos ⟨habsent, hfull⟩]
          exact .inl ⟨by omega, rfl⟩
        · rw [if_neg fun h => hfull h.2]
          exact .inr ⟨by omega, _, rfl, hunites.insert hnew⟩

end

/-! ## The fused ranking -/

section

variable {Id V F : Type}

theorem map_numberFused {β : Type} (f : FusedEntry Id V F → β)
    (h : ∀ entry n, f { entry with position := n } = f entry) (xs : List (FusedEntry Id V F)) :
    (numberFused xs).map f = xs.map f := by
  rw [numberFused, map_map]
  conv_rhs => rw [← zipIdx_map_fst 1 xs, map_map]
  exact map_congr_left fun entry _ => h entry.1 entry.2

theorem positions_numberFused (xs : List (FusedEntry Id V F)) :
    (numberFused xs).map FusedEntry.position = List.range' 1 (numberFused xs).length := by
  rw [numberFused, map_map, length_map, length_zipIdx]
  exact zipIdx_map_snd ..

def FusedEntry.body (entry : FusedEntry Id V F) : Id × F × Contributions V :=
  (entry.occurrence, entry.score, entry.contributions)

variable [LinearOrder Id] [LinearOrder F]

def fusedKey (entry : FusedEntry Id V F) : Fᵒᵈ ×ₗ Id :=
  toLex (OrderDual.toDual entry.score, entry.occurrence)

theorem fusedOrder_eq (a b : FusedEntry Id V F) :
    fusedOrder a b = compare (fusedKey a) (fusedKey b) := rfl

variable [Zero F] [Add F] [Div F] [NatCast F]

def fusedEntries (parameters : FusionParameters F) (union : EntryMap Id (Contributions V)) :
    List (FusedEntry Id V F) :=
  union.entries.map fun entry =>
    { occurrence := entry.1, position := 1, score := parameters.score entry.2,
      contributions := entry.2 }

def placed (parameters : FusionParameters F) (union : EntryMap Id (Contributions V)) :
    List (FusedEntry Id V F) :=
  numberFused (sortByCmp fusedOrder (fusedEntries parameters union))

variable (parameters : FusionParameters F) (union : EntryMap Id (Contributions V))

theorem perm_body_placed : ((placed parameters union).map FusedEntry.body).Perm
      (union.entries.map fun entry => (entry.1, parameters.score entry.2, entry.2)) := by
  rw [placed, map_numberFused _ fun _ _ => rfl, sortByCmp_eq fusedOrder_eq]
  have hperm := (@perm_sortByKey _ _ _ fusedKey (fusedEntries parameters union)).map
    FusedEntry.body
  rw [fusedEntries, map_map] at hperm
  exact hperm

theorem distinct_placed : ((placed parameters union).map FusedEntry.occurrence).Nodup := by
  have hperm := (perm_body_placed parameters union).map Prod.fst
  rw [map_map, map_map] at hperm
  exact hperm.nodup_iff.mpr union.nodup_keys

theorem ordered_placed : (placed parameters union).Pairwise fun a b => fusedOrder a b = .lt := by
  have hsorted : ((placed parameters union).map fusedKey).Pairwise (· ≤ ·) := by
    rw [placed, map_numberFused _ fun _ _ => rfl, sortByCmp_eq fusedOrder_eq]
    exact pairwise_map.mpr pairwise_sortByKey
  have hdistinct : (placed parameters union).Pairwise fun a b => a.occurrence ≠ b.occurrence :=
    pairwise_map.mp (distinct_placed parameters union)
  refine ((pairwise_map.mp hsorted).and hdistinct).imp fun {a b} h => ?_
  rw [fusedOrder_eq, compare_lt_iff_lt]
  refine lt_of_le_of_ne h.1 fun hsame => h.2 ?_
  exact congrArg Prod.snd (toLex.injective hsame)

variable {parameters union}

theorem mem_placed {body : Id × F × Contributions V} :
    body ∈ (placed parameters union).map FusedEntry.body ↔
      union.find body.1 = some body.2.2 ∧ body.2.1 = parameters.score body.2.2 := by
  rw [(perm_body_placed parameters union).mem_iff, mem_map]
  obtain ⟨id, score, slot⟩ := body
  simp only [EntryMap.find_eq_some_iff, Prod.mk.injEq, Prod.exists]
  constructor
  · rintro ⟨_, _, hmem, rfl, rfl, rfl⟩
    exact ⟨hmem, rfl⟩
  · rintro ⟨hmem, rfl⟩
    exact ⟨id, slot, hmem, rfl, rfl, rfl⟩

variable [LinearOrder V]

/-- The fusion of rankings: the union of their occurrences, each with what the lanes that rank
it contribute and the sum of it, by descending score and identifier. -/
structure IsFusion (parameters : FusionParameters F) (rankings : List (LaneRanking Id V))
    (entries : List (FusedEntry Id V F)) : Prop where
  union : ∀ id, (∃ entry ∈ entries, entry.occurrence = id) ↔
    ∃ ranking ∈ rankings, ∃ entry ∈ ranking.entries, entry.occurrence = id
  distinct : (entries.map FusedEntry.occurrence).Nodup
  contributions : ∀ entry ∈ entries, ∀ lane contribution,
    entry.contributions lane = some contribution ↔ ∃ ranking ∈ rankings, ranking.lane = lane ∧
      ∃ ranked ∈ ranking.entries, ranked.occurrence = entry.occurrence ∧
        ranked.contribution = contribution
  score : ∀ entry ∈ entries, entry.score = parameters.score entry.contributions
  ordered : entries.Pairwise fun a b => fusedOrder a b = .lt
  positions : entries.map FusedEntry.position = List.range' 1 entries.length

variable {lanes : DeclaredLanes Id V}

theorem fuse_eq_ok {bound : Nat} {fused : Fused Id V F} :
    fuse lanes parameters bound = .ok fused ↔
      ∃ union, unionOf bound lanes = .ok union ∧
        fused = ⟨placed parameters union, fun lane => (lanes.slots lane).isNone⟩ := by
  rw [fuse, bind_eq_ok_iff]
  simp only [Except.ok.injEq, eq_comm]
  rfl

/-- The union of declared lanes in its order is the fusion of their rankings. -/
theorem isFusion_placed {rankings : List (LaneRanking Id V)}
    (hlanes : DeclaredLanes.admitRankings rankings = .ok lanes)
    (hunion : Unites lanes.ranked union) (parameters : FusionParameters F) :
    IsFusion parameters rankings (placed parameters union) := by
  have hranked : ∀ lane entry, (lane, entry) ∈ lanes.ranked ↔
      ∃ ranking ∈ rankings, ranking.lane = lane ∧ entry ∈ ranking.entries := by
    intro lane entry
    rw [mem_ranked]
    simp only [DeclaredLanes.slots_of_admitRankings hlanes, and_assoc]
  refine ⟨fun id => ?_, distinct_placed _ _, fun entry hentry lane contribution => ?_,
    fun entry hentry => ?_, ordered_placed _ _, positions_numberFused _⟩
  · constructor
    · rintro ⟨entry, hentry, rfl⟩
      obtain ⟨hfind, -⟩ := mem_placed.mp (mem_map_of_mem (f := FusedEntry.body) hentry)
      have hmem := (hunion.found _).mp (Option.isSome_iff_exists.mpr ⟨_, hfind⟩)
      obtain ⟨⟨lane, ranked⟩, hpair, hid⟩ := mem_map.mp (mem_toFinset.mp hmem)
      obtain ⟨ranking, hranking, -, hentry⟩ := (hranked lane ranked).mp hpair
      exact ⟨ranking, hranking, ranked, hentry, hid⟩
    · rintro ⟨ranking, hranking, ranked, hentry, rfl⟩
      have hpair := (hranked ranking.lane ranked).mpr ⟨ranking, hranking, rfl, hentry⟩
      have hmem : ranked.occurrence ∈ occurrences lanes.ranked :=
        mem_toFinset.mpr (mem_map_of_mem hpair)
      obtain ⟨slot, hslot⟩ := Option.isSome_iff_exists.mp ((hunion.found _).mpr hmem)
      obtain ⟨entry, hplaced, hbody⟩ := mem_map.mp
        (mem_placed.mpr (show union.find (ranked.occurrence, parameters.score slot, slot).1 = _ ∧ _
          from ⟨hslot, rfl⟩))
      exact ⟨entry, hplaced, congrArg Prod.fst hbody⟩
  · obtain ⟨hfind, -⟩ := mem_placed.mp (mem_map_of_mem (f := FusedEntry.body) hentry)
    refine (hunion.slots _ _ hfind lane contribution).trans ?_
    constructor
    · rintro ⟨ranked, hpair, hid, hsame⟩
      obtain ⟨ranking, hranking, hlane, hmem⟩ := (hranked lane ranked).mp hpair
      exact ⟨ranking, hranking, hlane, ranked, hmem, hid, hsame⟩
    · rintro ⟨ranking, hranking, hlane, ranked, hmem, hid, hsame⟩
      exact ⟨ranked, (hranked lane ranked).mpr ⟨ranking, hranking, hlane, hmem⟩, hid, hsame⟩
  · exact (mem_placed.mp (mem_map_of_mem (f := FusedEntry.body) hentry)).2

def unionOccurrences (rankings : List (LaneRanking Id V)) : Finset Id :=
  (rankings.flatMap fun ranking => ranking.entries.map LaneEntry.occurrence).toFinset

theorem occurrences_ranked {rankings : List (LaneRanking Id V)}
    (hlanes : DeclaredLanes.admitRankings rankings = .ok lanes) :
    occurrences lanes.ranked = unionOccurrences rankings := by
  ext id
  simp only [occurrences, unionOccurrences, mem_toFinset, mem_map, mem_flatMap,
    Prod.exists, mem_ranked, DeclaredLanes.slots_of_admitRankings hlanes]
  constructor
  · rintro ⟨lane, entry, ⟨ranking, ⟨hranking, -⟩, hentry⟩, hid⟩
    exact ⟨ranking, hranking, entry, hentry, hid⟩
  · rintro ⟨ranking, hranking, entry, hentry, hid⟩
    exact ⟨ranking.lane, entry, ⟨ranking, ⟨hranking, rfl⟩, hentry⟩, hid⟩

/-- A ranking depends only on which hits there are, and ranks each occurrence once at its best
score.  Lanes declared in any order are the same lanes; their fusion is refused exactly if the
union of their occurrences exceeds the bound, and is that union with what each lane says. -/
theorem fusion_ignores_presentation (finite : V → Bool) (parameters : FusionParameters F)
    (bound : Nat) :
    (∀ (lane : Lane) (hits : List (LaneHit Id V)), (∀ hit ∈ hits, Taken finite lane hit) →
      ∃ ranking, IsRanking hits ranking.entries ∧
        ∀ hits', (∀ hit, hit ∈ hits' ↔ hit ∈ hits) →
          consolidate finite lane occurrenceEncodingVersion hits' = .ok ranking) ∧
    ∀ rankings : List (LaneRanking Id V), (rankings.map LaneRanking.lane).Nodup →
      ∃ lanes, (∀ rankings', rankings'.Perm rankings →
          DeclaredLanes.admitRankings rankings' = .ok lanes) ∧
        ((bound < (unionOccurrences rankings).card ∧
            fuse lanes parameters bound = .error ⟨bound⟩) ∨
          (unionOccurrences rankings).card ≤ bound ∧ ∃ fused,
            fuse lanes parameters bound = .ok fused ∧
              IsFusion parameters rankings fused.entries) := by
  refine ⟨fun lane hits htaken => ?_, fun rankings hnodup => ?_⟩
  · refine ⟨.ofBest lane occurrenceEncodingVersion (bestOf hits), isRanking_ofBest _ _ _,
      fun hits' hsame => consolidate_eq_ok.mpr ⟨rfl, ?_, by rw [bestOf_congr hsame]⟩⟩
    exact fun hit hhit => htaken hit ((hsame hit).mp hhit)
  · obtain ⟨lanes, hlanes⟩ := DeclaredLanes.exists_admitRankings.mpr hnodup
    refine ⟨lanes, fun rankings' hperm => DeclaredLanes.admitRankings_perm hperm hlanes, ?_⟩
    rw [← occurrences_ranked hlanes]
    rcases uniteAll_cases bound (nodup_ranked lanes) with ⟨hlarge, herror⟩ |
      ⟨hsmall, union, hunion, hunites⟩
    · refine .inl ⟨hlarge, ?_⟩
      rw [fuse, unionOf_eq, herror]
      rfl
    · refine .inr ⟨hsmall, _, fuse_eq_ok.mpr ⟨union, by rw [unionOf_eq, hunion], rfl⟩, ?_⟩
      exact isFusion_placed hlanes hunites parameters

end

def exactHits : List (LaneHit Nat Nat) := [⟨1, .exact⟩, ⟨2, .exact⟩]

/-- Two hits of one occurrence, which the exact lane ranks too. -/
def denseHits : List (LaneHit Nat Nat) := [⟨2, .dense 7⟩, ⟨3, .dense 9⟩, ⟨2, .dense 8⟩]

theorem fusion_ignores_presentation_two :
    ∃ (first second : LaneRanking Nat Nat) (lanes : DeclaredLanes Nat Nat)
      (fused : Fused Nat Nat Nat),
      consolidate (fun _ => true) .exact occurrenceEncodingVersion exactHits = .ok first ∧
      consolidate (fun _ => true) .dense occurrenceEncodingVersion denseHits.reverse =
        .ok second ∧
      DeclaredLanes.admitRankings [second, first] = .ok lanes ∧
      fuse lanes ⟨fun _ => 600, 60⟩ 3 = .ok fused ∧
      IsFusion ⟨fun _ => 600, 60⟩ [first, second] fused.entries := by
  obtain ⟨hrank, hfuse⟩ := @fusion_ignores_presentation Nat Nat Nat _ _ _ _ _ _ _
    (fun _ => true) ⟨fun _ => 600, 60⟩ 3
  obtain ⟨first, -, hfirst⟩ := hrank .exact exactHits
    (by simp [exactHits, Taken, RawScore.lane, RawScore.isFinite])
  obtain ⟨second, -, hsecond⟩ := hrank .dense denseHits
    (by simp [denseHits, Taken, RawScore.lane, RawScore.isFinite])
  obtain ⟨-, -, rfl⟩ := consolidate_eq_ok.mp (hfirst exactHits (by simp))
  obtain ⟨-, -, rfl⟩ := consolidate_eq_ok.mp (hsecond denseHits (by simp))
  obtain ⟨lanes, hlanes, hlarge | ⟨-, fused, hfused, hfusion⟩⟩ := hfuse
    [.ofBest .exact occurrenceEncodingVersion (bestOf exactHits),
      .ofBest .dense occurrenceEncodingVersion (bestOf denseHits)] (by decide)
  · exact absurd hlarge.1 (by decide +kernel)
  · exact ⟨_, _, lanes, fused, hfirst _ (by simp), hsecond _ (by simp),
      hlanes _ (.swap _ _ _), hfused, hfusion⟩

end Eidnara.Retrieval.Fusion
