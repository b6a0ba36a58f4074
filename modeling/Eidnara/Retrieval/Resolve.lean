import Eidnara.Lib.Checked
import Eidnara.Lib.StableGroups
import Mathlib.Data.List.TakeWhile

/-!
# Layer resolution

`dense/resolve.rs`: one base layer and its deltas become the current occurrences.
Identifiers are compared by their bytes, and only their order matters here, so they are
elements of any linear order.  The order of the layers is kept as the layers beside
their indexes.
-/

namespace Eidnara.Retrieval

open Lib List

variable {Id : Type}

structure Precedence where
  baseEpoch : Nat
  deltaOrdinal : Nat
deriving DecidableEq, Repr

structure ProjectionCheckpoint where
  snapshotCommitSeq : Int
  checkpointCommitSeq : Int
deriving DecidableEq, Repr

/-- One layer's contents.  Of its rows only their number is read. -/
structure Layer (Id : Type) where
  precedence : Precedence
  checkpoint : ProjectionCheckpoint
  occurrenceIds : List Id
  rowCount : Nat
  tombstones : List Id

abbrev Layer.ordinal (layer : Layer Id) : Nat := layer.precedence.deltaOrdinal

structure Winner (Id : Type) where
  occurrenceId : Id
  layer : Nat
  row : Nat
deriving DecidableEq, Repr

structure Resolved (Id : Type) where
  winners : List (Winner Id)
  superseded : Nat
  masked : Nat
deriving DecidableEq, Repr

inductive OrderedList where
  | occurrenceIdentifiers | tombstones
deriving DecidableEq, Repr

inductive ResolveRefusal (Id : Type) where
  | noBase
  | multipleBases (first second : Nat)
  | epochMismatch (index epoch baseEpoch : Nat)
  | equalPrecedence (first second : Nat)
  | listedAndTombstoned (index : Nat) (occurrenceId : Id)
  | checkpointOrder (index : Nat)
  | incompleteView (index ids rows : Nat)
  | order (index : Nat) (list : OrderedList) (entry : Nat)
  | overBound (max : Nat)
deriving DecidableEq, Repr

structure Entry (Id : Type) where
  occurrenceId : Id
  layer : Nat
  /-- `none` for a tombstone. -/
  row : Option Nat
deriving DecidableEq, Repr

/-! ## Refusals -/

def spendEntries : Nat → List (Layer Id) → Option Nat
  | remaining, [] => some remaining
  | remaining, layer :: layers =>
    if layer.occurrenceIds.length ≤ remaining then
      let left := remaining - layer.occurrenceIds.length
      if layer.tombstones.length ≤ left then spendEntries (left - layer.tombstones.length) layers
      else none
    else none

section

variable [LinearOrder Id]

def firstDisorder : Nat → List Id → Option Nat
  | entry, previous :: id :: ids =>
    if id ≤ previous then some entry else firstDisorder (entry + 1) (id :: ids)
  | _, _ => none

/-- The merge walk for an occurrence that is listed and tombstoned. -/
def firstTombstoned : List Id → List Id → Option Id
  | [], _ => none
  | id :: ids, tombstones =>
    let rest := tombstones.dropWhile (· < id)
    if rest.head? = some id then some id else firstTombstoned ids rest

def checkLayer (index : Nat) (layer : Layer Id) : Except (ResolveRefusal Id) Unit :=
  if layer.checkpoint.snapshotCommitSeq > layer.checkpoint.checkpointCommitSeq then
    .error (.checkpointOrder index)
  else if layer.occurrenceIds.length ≠ layer.rowCount then
    .error (.incompleteView index layer.occurrenceIds.length layer.rowCount)
  else
    match firstDisorder 1 layer.occurrenceIds with
    | some entry => .error (.order index .occurrenceIdentifiers entry)
    | none =>
      match firstDisorder 1 layer.tombstones with
      | some entry => .error (.order index .tombstones entry)
      | none =>
        match firstTombstoned layer.occurrenceIds layer.tombstones with
        | some occurrenceId => .error (.listedAndTombstoned index occurrenceId)
        | none => .ok ()

def checkLayers : List (Layer Id × Nat) → Except (ResolveRefusal Id) Unit
  | [] => .ok ()
  | (layer, index) :: rest => do
    checkLayer index layer
    checkLayers rest

end

def checkEpochs (baseEpoch : Nat) : List (Layer Id × Nat) → Except (ResolveRefusal Id) Unit
  | [] => .ok ()
  | (layer, index) :: rest =>
    if layer.precedence.baseEpoch ≠ baseEpoch then
      .error (.epochMismatch index layer.precedence.baseEpoch baseEpoch)
    else checkEpochs baseEpoch rest

/-- Neighbours in the order: distinct ordinals, and a checkpoint that does not move back. -/
def checkNeighbours : List (Layer Id × Nat) → Except (ResolveRefusal Id) Unit
  | (previous, first) :: (layer, index) :: rest =>
    if layer.ordinal = previous.ordinal then .error (.equalPrecedence first index)
    else if layer.checkpoint.snapshotCommitSeq < previous.checkpoint.checkpointCommitSeq ∨
        layer.checkpoint.checkpointCommitSeq < previous.checkpoint.checkpointCommitSeq then
      .error (.checkpointOrder index)
    else checkNeighbours ((layer, index) :: rest)
  | _ => .ok ()

/-- The base is found and every epoch is checked against it before anything is ordered. -/
def orderLayers (layers : List (Layer Id)) :
    Except (ResolveRefusal Id) (List (Layer Id × Nat)) :=
  match layers.zipIdx.filter (·.1.ordinal = 0) with
  | [] => .error .noBase
  | (_, first) :: (_, second) :: _ => .error (.multipleBases first second)
  | [(base, _)] => do
    checkEpochs base.precedence.baseEpoch layers.zipIdx
    let order := sortByKey (·.1.ordinal) layers.zipIdx
    checkNeighbours order
    .ok order

section

variable [LinearOrder Id]

def checkTopology (layers : List (Layer Id)) (maxEntries : Nat) :
    Except (ResolveRefusal Id) (List (Layer Id × Nat)) :=
  match spendEntries maxEntries layers with
  | none => .error (.overBound maxEntries)
  | some _ => do
    checkLayers layers.zipIdx
    orderLayers layers

/-! ## Resolution -/

def Layer.entries (layer : Layer Id) (index : Nat) : List (Entry Id) :=
  layer.occurrenceIds.zipIdx.map (fun (id, row) => ⟨id, index, some row⟩) ++
    layer.tombstones.map fun id => ⟨id, index, none⟩

/-- One occurrence's entries, oldest first; the newest one decides. -/
def Resolved.addGroup (resolved : Resolved Id) (group : List (Entry Id)) : Resolved Id :=
  match group.getLast? with
  | none => resolved
  | some newest =>
    let olderRows := (group.dropLast.filter (·.row.isSome)).length
    match newest.row with
    | some row =>
      { resolved with
        superseded := resolved.superseded + olderRows
        winners := resolved.winners ++ [⟨newest.occurrenceId, newest.layer, row⟩] }
    | none => { resolved with masked := resolved.masked + olderRows }

def resolveOrder (order : List (Layer Id × Nat)) : Resolved Id :=
  let entries := order.flatMap fun (layer, index) => layer.entries index
  (stableGroups Entry.occurrenceId entries).foldl Resolved.addGroup ⟨[], 0, 0⟩

def resolve (layers : List (Layer Id)) (maxEntries : Nat) :
    Except (ResolveRefusal Id) (Resolved Id) := do
  let order ← checkTopology layers maxEntries
  .ok (resolveOrder order)

end

/-! ## The order of the layers -/

variable {layers : List (Layer Id)} {layer : Layer Id}

theorem spendEntries_isSome {remaining : Nat} :
    (spendEntries remaining layers).isSome ↔
      (layers.map fun layer => layer.occurrenceIds.length + layer.tombstones.length).sum ≤
        remaining := by
  induction layers generalizing remaining with
  | nil => simp [spendEntries]
  | cons layer layers ih =>
    simp only [spendEntries, map_cons, sum_cons]
    split_ifs with hids htombstones
    · rw [ih]
      omega
    · simp only [Option.isSome_none, Bool.false_eq_true, false_iff]
      omega
    · simp only [Option.isSome_none, Bool.false_eq_true, false_iff]
      omega

theorem checkEpochs_ok {baseEpoch : Nat} {layers : List (Layer Id × Nat)} :
    checkEpochs baseEpoch layers = .ok () ↔
      ∀ entry ∈ layers, entry.1.precedence.baseEpoch = baseEpoch := by
  induction layers with
  | nil => simp [checkEpochs]
  | cons entry layers ih =>
    rw [checkEpochs, forall_mem_cons, ← ih]
    split_ifs with hepoch
    · simp [hepoch]
    · simp [not_not.mp hepoch]

def Follows (older newer : Layer Id) : Prop :=
  older.ordinal < newer.ordinal ∧
    older.checkpoint.checkpointCommitSeq ≤ newer.checkpoint.snapshotCommitSeq

theorem checkNeighbours_ok {order : List (Layer Id × Nat)}
    (hsorted : order.Pairwise fun a b => a.1.ordinal ≤ b.1.ordinal)
    (hlayers : ∀ entry ∈ order, entry.1.checkpoint.snapshotCommitSeq ≤
      entry.1.checkpoint.checkpointCommitSeq) :
    checkNeighbours order = .ok () ↔ order.Pairwise fun a b => Follows a.1 b.1 := by
  induction order with
  | nil => simp [checkNeighbours]
  | cons first order ih =>
    cases order with
    | nil => simp [checkNeighbours]
    | cons second order =>
      obtain ⟨previous, firstIndex⟩ := first
      obtain ⟨layer, index⟩ := second
      obtain ⟨hfirst, hsorted⟩ := pairwise_cons.mp hsorted
      have hle : previous.ordinal ≤ layer.ordinal := hfirst _ mem_cons_self
      have hown := hlayers (layer, index) (by simp)
      have hrest := ih hsorted fun entry hentry => hlayers entry (mem_cons_of_mem _ hentry)
      rw [pairwise_cons, ← hrest, checkNeighbours]
      simp only at hown
      split_ifs with hequal hback
      · simp only [false_iff, not_and]
        intro hfollows
        have hlt : previous.ordinal < layer.ordinal := (hfollows _ mem_cons_self).1
        omega
      · simp only [false_iff, not_and]
        intro hfollows
        have hlater : previous.checkpoint.checkpointCommitSeq ≤
            layer.checkpoint.snapshotCommitSeq := (hfollows _ mem_cons_self).2
        omega
      · refine ⟨fun h => ⟨fun entry hentry => ?_, h⟩, fun h => h.2⟩
        have hneighbour : Follows previous layer := by
          unfold Follows
          omega
        rcases mem_cons.mp hentry with rfl | hentry
        · exact hneighbour
        · have hlater : Follows layer entry.1 :=
            (pairwise_cons.mp (hrest.mp h)).1 entry hentry
          exact ⟨hneighbour.1.trans hlater.1, hneighbour.2.trans (hown.trans hlater.2)⟩

def oldestFirst (layers : List (Layer Id)) : List (Layer Id × Nat) :=
  sortByKey (·.1.ordinal) layers.zipIdx

theorem map_fst_perm_oldestFirst (layers : List (Layer Id)) :
    ((oldestFirst layers).map Prod.fst).Perm layers := by
  have hperm : (oldestFirst layers).Perm layers.zipIdx := perm_sortByKey
  have hfst := hperm.map Prod.fst
  rwa [zipIdx_map_fst] at hfst

theorem fst_mem_oldestFirst : (∃ index, (layer, index) ∈ oldestFirst layers) ↔ layer ∈ layers := by
  rw [← (map_fst_perm_oldestFirst layers).mem_iff]
  simp

theorem mem_oldestFirst {index : Nat} :
    (layer, index) ∈ oldestFirst layers ↔ layers[index]? = some layer := by
  rw [oldestFirst, perm_sortByKey.mem_iff, mem_zipIdx_iff_getElem?]

theorem pairwise_follows_iff :
    ((oldestFirst layers).Pairwise fun a b => Follows a.1 b.1) ↔
      (layers.map Layer.ordinal).Nodup ∧
        ∀ older ∈ layers, ∀ newer ∈ layers, older.ordinal < newer.ordinal →
          older.checkpoint.checkpointCommitSeq ≤ newer.checkpoint.snapshotCommitSeq := by
  have hordinals : ((oldestFirst layers).map (·.1.ordinal)).Perm (layers.map Layer.ordinal) := by
    have := (map_fst_perm_oldestFirst layers).map Layer.ordinal
    rwa [map_map] at this
  rw [← hordinals.nodup_iff]
  constructor
  · intro h
    refine ⟨?_, ?_⟩
    · rw [List.Nodup, pairwise_map]
      exact h.imp fun hfollows => hfollows.1.ne
    · intro older holder newer hnewer hlt
      obtain ⟨i, hi⟩ := fst_mem_oldestFirst.mpr holder
      obtain ⟨j, hj⟩ := fst_mem_oldestFirst.mpr hnewer
      -- Either one follows the other, and the ordinals say which.
      have hsymm : Std.Symm fun a b : Layer Id × Nat => Follows a.1 b.1 ∨ Follows b.1 a.1 :=
        ⟨fun _ _ => Or.symm⟩
      have hboth := (h.imp fun hfollows => Or.inl hfollows :
        (oldestFirst layers).Pairwise fun a b => Follows a.1 b.1 ∨ Follows b.1 a.1).forall hi hj
      rcases hboth (by rintro ⟨⟩; exact lt_irrefl _ hlt) with hfollows | hfollows
      · exact hfollows.2
      · exact absurd hfollows.1 hlt.not_gt
  · rintro ⟨hnodup, hforwards⟩
    rw [List.Nodup, pairwise_map] at hnodup
    have hsorted : (oldestFirst layers).Pairwise fun a b => a.1.ordinal ≤ b.1.ordinal :=
      pairwise_sortByKey
    refine (hsorted.and hnodup).imp_of_mem ?_
    rintro a b ha hb ⟨hle, hne⟩
    have hlt : a.1.ordinal < b.1.ordinal := lt_of_le_of_ne hle hne
    exact ⟨hlt, hforwards a.1 (fst_mem_oldestFirst.mp ⟨a.2, ha⟩) b.1
      (fst_mem_oldestFirst.mp ⟨b.2, hb⟩) hlt⟩

theorem orderLayers_ok {order : List (Layer Id × Nat)}
    (hlayers : ∀ layer ∈ layers, layer.checkpoint.snapshotCommitSeq ≤
      layer.checkpoint.checkpointCommitSeq) :
    orderLayers layers = .ok order ↔
      (∃ base, layers.filter (·.ordinal = 0) = [base] ∧
        ∀ layer ∈ layers, layer.precedence.baseEpoch = base.precedence.baseEpoch) ∧
      ((oldestFirst layers).Pairwise fun a b => Follows a.1 b.1) ∧
      oldestFirst layers = order := by
  have hbases : (layers.zipIdx.filter (·.1.ordinal = 0)).map Prod.fst =
      layers.filter (·.ordinal = 0) := by
    conv_rhs => rw [← zipIdx_map_fst 0 layers, filter_map]
    rfl
  have hneighbours : checkNeighbours (oldestFirst layers) = .ok () ↔
      (oldestFirst layers).Pairwise fun a b => Follows a.1 b.1 :=
    checkNeighbours_ok pairwise_sortByKey fun entry hentry =>
      hlayers entry.1 (fst_mem_oldestFirst.mp ⟨entry.2, hentry⟩)
  have hepochs : ∀ epoch, checkEpochs epoch layers.zipIdx = .ok () ↔
      ∀ layer ∈ layers, layer.precedence.baseEpoch = epoch := by
    intro epoch
    rw [checkEpochs_ok]
    conv_rhs => rw [← zipIdx_map_fst 0 layers, forall_mem_map]
  rw [← hbases, ← hneighbours]
  unfold orderLayers
  split
  · next hnone => simp [hnone]
  · next hmany => simp [hmany]
  · next base index hone =>
      simp only [hone, map_cons, map_nil, List.cons.injEq, and_true, exists_eq_left',
        ← hepochs, bind_eq_ok_iff, Except.ok.injEq]
      exact ⟨fun ⟨_, hbase, _, hfollows, h⟩ => ⟨hbase, hfollows, h⟩,
        fun ⟨hbase, hfollows, h⟩ => ⟨(), hbase, (), hfollows, h⟩⟩

/-! ## Groups of entries -/

def winnerOf (group : List (Entry Id)) : Option (Winner Id) :=
  group.getLast?.bind fun newest =>
    newest.row.map fun row => ⟨newest.occurrenceId, newest.layer, row⟩

def rowsOf (entries : List (Entry Id)) : Nat := (entries.filter (·.row.isSome)).length

theorem winnerOf_eq_some {group : List (Entry Id)} {winner : Winner Id} :
    winnerOf group = some winner ↔
      group.getLast? = some ⟨winner.occurrenceId, winner.layer, some winner.row⟩ := by
  unfold winnerOf
  cases group.getLast? with
  | none => simp
  | some newest =>
    obtain ⟨id, layer, row⟩ := newest
    obtain ⟨id', layer', row'⟩ := winner
    cases row <;> simp [eq_comm]

theorem winners_addGroup (resolved : Resolved Id) (group : List (Entry Id)) :
    (resolved.addGroup group).winners = resolved.winners ++ (winnerOf group).toList := by
  unfold Resolved.addGroup winnerOf
  cases group.getLast? with
  | none => simp
  | some newest => cases hrow : newest.row <;> simp [hrow]

theorem counts_addGroup (resolved : Resolved Id) (group : List (Entry Id)) :
    (resolved.addGroup group).winners.length + (resolved.addGroup group).superseded +
        (resolved.addGroup group).masked =
      resolved.winners.length + resolved.superseded + resolved.masked + rowsOf group := by
  unfold Resolved.addGroup rowsOf
  cases hlast : group.getLast? with
  | none =>
    obtain rfl := getLast?_eq_none_iff.mp hlast
    simp
  | some newest =>
    have hsplit := dropLast_append_getLast? newest hlast
    rw [← hsplit, filter_append, length_append, dropLast_concat]
    cases hrow : newest.row <;> simp [hrow] <;> omega

theorem foldl_addGroup (groups : List (List (Entry Id))) (resolved : Resolved Id) :
    (groups.foldl Resolved.addGroup resolved).winners =
        resolved.winners ++ groups.filterMap winnerOf ∧
      (groups.foldl Resolved.addGroup resolved).winners.length +
          (groups.foldl Resolved.addGroup resolved).superseded +
          (groups.foldl Resolved.addGroup resolved).masked =
        resolved.winners.length + resolved.superseded + resolved.masked +
          rowsOf groups.flatten := by
  induction groups generalizing resolved with
  | nil => simp [rowsOf]
  | cons group groups ih =>
    obtain ⟨hwinners, hcounts⟩ := ih (resolved.addGroup group)
    rw [foldl_cons]
    constructor
    · rw [hwinners, winners_addGroup, filterMap_cons]
      cases winnerOf group <;> simp
    · rw [hcounts, counts_addGroup]
      simp only [rowsOf, flatten_cons, filter_append, length_append]
      omega

theorem map_occurrenceId_entries (layer : Layer Id) (index : Nat) :
    (layer.entries index).map Entry.occurrenceId = layer.occurrenceIds ++ layer.tombstones := by
  simp [Layer.entries, Function.comp_def]

theorem row_mem_entries {index row : Nat} {id : Id} {other : Nat} :
    ⟨id, other, some row⟩ ∈ layer.entries index ↔
      other = index ∧ layer.occurrenceIds[row]? = some id := by
  simp only [Layer.entries, mem_append, mem_map, Prod.exists,
    mem_zipIdx_iff_getElem?]
  constructor
  · rintro (⟨id', row', hat, heq⟩ | ⟨id', -, heq⟩)
    · cases heq
      exact ⟨rfl, hat⟩
    · cases heq
  · rintro ⟨rfl, hat⟩
    exact .inl ⟨id, row, hat, rfl⟩

theorem exists_mem_entries {index : Nat} {id : Id} :
    (∃ entry ∈ layer.entries index, entry.occurrenceId = id) ↔
      id ∈ layer.occurrenceIds ∨ id ∈ layer.tombstones := by
  rw [← mem_append, ← map_occurrenceId_entries, mem_map]

/-! ## Renaming the layers -/

def Entry.rename (f : Nat → Nat) (entry : Entry Id) : Entry Id :=
  { entry with layer := f entry.layer }

def Winner.rename (f : Nat → Nat) (winner : Winner Id) : Winner Id :=
  { winner with layer := f winner.layer }

def Resolved.rename (f : Nat → Nat) (resolved : Resolved Id) : Resolved Id :=
  { resolved with winners := resolved.winners.map (Winner.rename f) }

theorem addGroup_rename (f : Nat → Nat) (resolved : Resolved Id) (group : List (Entry Id)) :
    (resolved.rename f).addGroup (group.map (Entry.rename f)) =
      (resolved.addGroup group).rename f := by
  simp only [Resolved.addGroup, getLast?_map, ← map_dropLast, filter_map,
    Function.comp_def, length_map]
  cases group.getLast? with
  | none => rfl
  | some newest =>
    obtain ⟨id, layer, row⟩ := newest
    cases row <;> simp [Entry.rename, Resolved.rename, Winner.rename]

theorem exists_rename {order order' : List (Layer Id × Nat)}
    (hfst : order'.map Prod.fst = order.map Prod.fst) (hnodup : (order'.map Prod.snd).Nodup) :
    ∃ f : Nat → Nat, order = order'.map fun entry => (entry.1, f entry.2) := by
  induction order' generalizing order with
  | nil => exact ⟨fun _ => 0, map_eq_nil_iff.mp hfst.symm⟩
  | cons entry order' ih =>
    obtain ⟨hnew, hnodup⟩ := nodup_cons.mp hnodup
    cases order with
    | nil => cases hfst
    | cons first order =>
      obtain ⟨hfirst, hrest⟩ := List.cons.inj hfst
      obtain ⟨f, rfl⟩ := ih hrest hnodup
      refine ⟨Function.update f entry.2 first.2, ?_⟩
      rw [map_cons, Function.update_self, hfirst]
      congr 1
      refine map_congr_left fun other hother => ?_
      have hne : other.2 ≠ entry.2 := fun heq => hnew (mem_map.mpr ⟨other, hother, heq⟩)
      rw [Function.update_of_ne hne]

variable [LinearOrder Id]

/-! ## What is refused -/

theorem firstDisorder_eq_none {entry : Nat} {ids : List Id} :
    firstDisorder entry ids = none ↔ ids.Pairwise (· < ·) := by
  rw [← isChain_iff_pairwise]
  induction ids generalizing entry with
  | nil => simp [firstDisorder]
  | cons previous ids ih =>
    cases ids with
    | nil => simp [firstDisorder]
    | cons id ids =>
      rw [firstDisorder, isChain_cons_cons]
      split_ifs with hle
      · simp [hle]
      · rw [ih]
        simp [not_le.mp hle]

/-- Skipping the tombstones below an identifier skips none that is listed from it on. -/
theorem firstTombstoned_eq_none {ids tombstones : List Id} (hids : ids.Pairwise (· < ·))
    (htombstones : tombstones.Pairwise (· < ·)) :
    firstTombstoned ids tombstones = none ↔ ∀ id ∈ ids, id ∉ tombstones := by
  induction ids generalizing tombstones with
  | nil => simp [firstTombstoned]
  | cons id ids ih =>
    obtain ⟨habove, hids⟩ := pairwise_cons.mp hids
    have hrest : (tombstones.dropWhile (· < id)).Pairwise (· < ·) :=
      htombstones.sublist (dropWhile_sublist _)
    have hmem : ∀ other, id ≤ other →
        (other ∈ tombstones.dropWhile (· < id) ↔ other ∈ tombstones) := by
      intro other hother
      conv_rhs => rw [← takeWhile_append_dropWhile (p := (· < id)) (l := tombstones)]
      rw [mem_append]
      refine ⟨Or.inr, fun h => h.resolve_left fun hlow => ?_⟩
      have := mem_takeWhile_imp hlow
      simp only [decide_eq_true_eq] at this
      exact absurd hother (not_le.mpr this)
    have hhead : (tombstones.dropWhile (· < id)).head? = some id ↔ id ∈ tombstones := by
      rw [← hmem id le_rfl]
      cases hdrop : tombstones.dropWhile (· < id) with
      | nil => simp
      | cons first later =>
        have hfirst : id ≤ first := by
          have := head?_dropWhile_not (· < id) tombstones
          rw [hdrop] at this
          simpa using this
        rw [hdrop] at hrest
        have hlater := (pairwise_cons.mp hrest).1
        simp only [head?_cons, Option.some.injEq, mem_cons]
        refine ⟨fun h => .inl h.symm, fun h => ?_⟩
        rcases h with rfl | h
        · rfl
        · exact absurd hfirst (not_le.mpr (hlater id h))
    simp only [firstTombstoned, forall_mem_cons, hhead]
    split_ifs with hlisted
    · simp [hlisted]
    · rw [ih hids hrest]
      simp only [hlisted, not_false_eq_true, true_and]
      exact forall₂_congr fun other hother => by rw [hmem other (habove other hother).le]

structure Layer.WellFormed (layer : Layer Id) : Prop where
  checkpoint_le : layer.checkpoint.snapshotCommitSeq ≤ layer.checkpoint.checkpointCommitSeq
  parallel : layer.occurrenceIds.length = layer.rowCount
  ids_increasing : layer.occurrenceIds.Pairwise (· < ·)
  tombstones_increasing : layer.tombstones.Pairwise (· < ·)
  disjoint : ∀ id ∈ layer.occurrenceIds, id ∉ layer.tombstones

theorem checkLayer_ok {index : Nat} : checkLayer index layer = .ok () ↔ layer.WellFormed := by
  constructor
  · intro h
    unfold checkLayer at h
    split_ifs at h with hcheckpoint hparallel
    split at h
    · cases h
    rename_i hids
    split at h
    · cases h
    rename_i htombstones
    split at h
    · cases h
    rename_i hdisjoint
    rw [firstDisorder_eq_none] at hids htombstones
    exact ⟨not_lt.mp hcheckpoint, not_not.mp hparallel, hids, htombstones,
      (firstTombstoned_eq_none hids htombstones).mp hdisjoint⟩
  · intro h
    rw [checkLayer, if_neg (not_lt.mpr h.checkpoint_le), if_neg (not_not.mpr h.parallel),
      firstDisorder_eq_none.mpr h.ids_increasing, firstDisorder_eq_none.mpr h.tombstones_increasing,
      (firstTombstoned_eq_none h.ids_increasing h.tombstones_increasing).mpr h.disjoint]

theorem checkLayers_ok {layers : List (Layer Id × Nat)} :
    checkLayers layers = .ok () ↔ ∀ entry ∈ layers, entry.1.WellFormed := by
  induction layers with
  | nil => simp [checkLayers]
  | cons entry layers ih =>
    obtain ⟨layer, index⟩ := entry
    rw [checkLayers, forall_mem_cons, ← ih, ← @checkLayer_ok _ _ _ index]
    cases checkLayer index layer <;> simp [bind, Except.bind]

structure WellFormed (layers : List (Layer Id)) (maxEntries : Nat) : Prop where
  fits : (layers.map fun layer =>
    layer.occurrenceIds.length + layer.tombstones.length).sum ≤ maxEntries
  layers_wf : ∀ layer ∈ layers, layer.WellFormed
  base : ∃ base, layers.filter (·.ordinal = 0) = [base] ∧
    ∀ layer ∈ layers, layer.precedence.baseEpoch = base.precedence.baseEpoch
  distinct : (layers.map Layer.ordinal).Nodup
  forwards : ∀ older ∈ layers, ∀ newer ∈ layers, older.ordinal < newer.ordinal →
    older.checkpoint.checkpointCommitSeq ≤ newer.checkpoint.snapshotCommitSeq

theorem resolve_eq_ok {maxEntries : Nat} {resolved : Resolved Id} :
    resolve layers maxEntries = .ok resolved ↔
      WellFormed layers maxEntries ∧ resolveOrder (oldestFirst layers) = resolved := by
  have hfits := @spendEntries_isSome _ layers maxEntries
  have hlayers : checkLayers layers.zipIdx = .ok () ↔ ∀ layer ∈ layers, layer.WellFormed := by
    rw [checkLayers_ok]
    conv_rhs => rw [← zipIdx_map_fst 0 layers, forall_mem_map]
  have horder (hwf : ∀ layer ∈ layers, layer.WellFormed) (order : List (Layer Id × Nat)) :=
    @orderLayers_ok _ layers order fun layer hlayer => (hwf layer hlayer).checkpoint_le
  rw [resolve, bind_eq_ok_iff]
  unfold checkTopology
  constructor
  · rintro ⟨order, h, hresolved⟩
    split at h
    · cases h
    · rename_i left hspend
      obtain ⟨_, hcheck, hordered⟩ := bind_eq_ok_iff.mp h
      have hwf := hlayers.mp hcheck
      obtain ⟨hbase, hfollows, rfl⟩ := (horder hwf order).mp hordered
      obtain ⟨hdistinct, hforwards⟩ := pairwise_follows_iff.mp hfollows
      exact ⟨⟨hfits.mp (hspend ▸ rfl), hwf, hbase, hdistinct, hforwards⟩, Except.ok.inj hresolved⟩
  · rintro ⟨h, rfl⟩
    obtain ⟨left, hleft⟩ := Option.isSome_iff_exists.mp (hfits.mpr h.fits)
    rw [hleft]
    refine ⟨_, bind_eq_ok_iff.mpr ⟨(), hlayers.mpr h.layers_wf, ?_⟩, rfl⟩
    exact (horder h.layers_wf _).mpr
      ⟨h.base, pairwise_follows_iff.mpr ⟨h.distinct, h.forwards⟩, rfl⟩

/-! ## The newest entry of an occurrence -/

theorem nodup_entries (h : layer.WellFormed) (index : Nat) :
    ((layer.entries index).map Entry.occurrenceId).Nodup := by
  rw [map_occurrenceId_entries]
  refine nodup_append.mpr ⟨h.ids_increasing.imp fun hlt => hlt.ne,
    h.tombstones_increasing.imp fun hlt => hlt.ne, ?_⟩
  rintro id hid _ hother rfl
  exact h.disjoint id hid hother

theorem filter_eq_of_nodup {α : Type} {key : α → Id} {xs : List α} (h : (xs.map key).Nodup)
    {x : α} (hx : x ∈ xs) : xs.filter (key · = key x) = [x] := by
  induction xs with
  | nil => cases hx
  | cons first xs ih =>
    obtain ⟨hfirst, hrest⟩ := nodup_cons.mp h
    rcases mem_cons.mp hx with rfl | hx
    · have hnone : xs.filter (key · = key x) = [] := by
        rw [filter_eq_nil_iff]
        intro other hother heq
        exact hfirst (mem_map.mpr ⟨other, hother, by simpa using heq⟩)
      simp [hnone]
    · have hne : key first ≠ key x := fun heq => hfirst (heq ▸ mem_map_of_mem hx)
      rw [filter_cons, if_neg (by simpa using hne), ih hrest hx]

/-- The newest of the entries of an occurrence is that of the last layer with one. -/
theorem getLast?_filter_entries {order : List (Layer Id × Nat)} {id : Id} {newest : Entry Id}
    (hwf : ∀ entry ∈ order, entry.1.WellFormed)
    (hfollows : order.Pairwise fun a b => Follows a.1 b.1) :
    ((order.flatMap fun (layer, index) => layer.entries index).filter
        (·.occurrenceId = id)).getLast? = some newest ↔
      newest.occurrenceId = id ∧ ∃ layer index, (layer, index) ∈ order ∧
        newest ∈ layer.entries index ∧
        ∀ other ∈ order, (id ∈ other.1.occurrenceIds ∨ id ∈ other.1.tombstones) →
          other.1.ordinal ≤ layer.ordinal := by
  induction order using List.reverseRecOn with
  | nil => simp
  | append_singleton order last ih =>
    obtain ⟨layer, index⟩ := last
    have hlast := hwf (layer, index) (by simp)
    have hrest := ih (fun entry hentry => hwf entry (mem_append_left _ hentry))
      (pairwise_append.mp hfollows).1
    have hbelow : ∀ other ∈ order, other.1.ordinal < layer.ordinal := fun other hother =>
      ((pairwise_append.mp hfollows).2.2 other hother _ (mem_singleton_self _)).1
    rw [flatMap_append, filter_append, flatMap_singleton, getLast?_append]
    by_cases hmentions : id ∈ layer.occurrenceIds ∨ id ∈ layer.tombstones
    · -- The last layer mentions the occurrence, so it decides.
      obtain ⟨entry, hentry, rfl⟩ := (@exists_mem_entries _ layer index id).mpr hmentions
      rw [filter_eq_of_nodup (nodup_entries hlast index) hentry]
      simp only [getLast?_singleton, Option.some_or, Option.some.injEq]
      constructor
      · rintro rfl
        exact ⟨rfl, layer, index, by simp, hentry, forall_mem_append.mpr
          ⟨fun other hother _ => (hbelow other hother).le,
            forall_mem_singleton.mpr fun _ => le_rfl⟩⟩
      · rintro ⟨hid, layer', index', hmem, hnewest, hlargest⟩
        have hordinal := hlargest (layer, index) (by simp) hmentions
        rcases mem_append.mp hmem with hmem | hmem
        · exact absurd hordinal (not_le.mpr (hbelow _ hmem))
        · cases mem_singleton.mp hmem
          exact inj_on_of_nodup_map (nodup_entries hlast index) hentry hnewest hid.symm
    · have hnone : (layer.entries index).filter (·.occurrenceId = id) = [] := by
        rw [filter_eq_nil_iff]
        intro entry hentry heq
        exact hmentions (exists_mem_entries.mp ⟨entry, hentry, by simpa using heq⟩)
      rw [hnone, getLast?_nil, Option.none_or, hrest]
      refine and_congr_right fun hid => ?_
      constructor
      · rintro ⟨layer', index', hmem, hnewest, hlargest⟩
        exact ⟨layer', index', mem_append_left _ hmem, hnewest, forall_mem_append.mpr
          ⟨hlargest, forall_mem_singleton.mpr fun h => absurd h hmentions⟩⟩
      · rintro ⟨layer', index', hmem, hnewest, hlargest⟩
        rcases mem_append.mp hmem with hmem | hmem
        · exact ⟨layer', index', hmem, hnewest, fun other hother =>
            hlargest other (mem_append_left _ hother)⟩
        · cases mem_singleton.mp hmem
          exact absurd (exists_mem_entries.mp ⟨newest, hnewest, hid⟩) hmentions

/-- The newest entry of the winner's occurrence is the winner's row. -/
def Newest (layers : List (Layer Id)) (winner : Winner Id) : Prop :=
  ∃ layer, layers[winner.layer]? = some layer ∧
    layer.occurrenceIds[winner.row]? = some winner.occurrenceId ∧
    ∀ other ∈ layers,
      (winner.occurrenceId ∈ other.occurrenceIds ∨ winner.occurrenceId ∈ other.tombstones) →
      other.ordinal ≤ layer.ordinal

section

variable {maxEntries : Nat}

theorem WellFormed.follows (h : WellFormed layers maxEntries) :
    (oldestFirst layers).Pairwise fun a b => Follows a.1 b.1 :=
  pairwise_follows_iff.mpr ⟨h.distinct, h.forwards⟩

theorem WellFormed.mem_winners (h : WellFormed layers maxEntries) {winner : Winner Id} :
    winner ∈ (resolveOrder (oldestFirst layers)).winners ↔ Newest layers winner := by
  have hwf : ∀ entry ∈ oldestFirst layers, entry.1.WellFormed := fun entry hentry =>
    h.layers_wf _ (fst_mem_oldestFirst.mp ⟨entry.2, hentry⟩)
  have hnewest := @getLast?_filter_entries _ _ (oldestFirst layers) winner.occurrenceId
    ⟨winner.occurrenceId, winner.layer, some winner.row⟩ hwf h.follows
  simp only [row_mem_entries, mem_oldestFirst, true_and] at hnewest
  simp only [resolveOrder, (foldl_addGroup _ _).1, nil_append, mem_filterMap,
    mem_stableGroups, winnerOf_eq_some]
  constructor
  · rintro ⟨group, ⟨entry, hentry, rfl⟩, hlast⟩
    have hid : entry.occurrenceId = winner.occurrenceId := by
      have := (mem_filter.mp (mem_of_getLast? hlast)).2
      simpa [eq_comm] using this
    rw [hid] at hlast
    obtain ⟨layer, index, hat, ⟨rfl, hrow⟩, hlargest⟩ := hnewest.mp hlast
    refine ⟨layer, hat, hrow, fun other hother => ?_⟩
    obtain ⟨j, hj⟩ := fst_mem_oldestFirst.mpr hother
    exact hlargest (other, j) hj
  · rintro ⟨layer, hat, hrow, hlargest⟩
    have hlast := hnewest.mpr ⟨layer, winner.layer, hat, ⟨rfl, hrow⟩, fun other hother =>
      hlargest other.1 (fst_mem_oldestFirst.mp ⟨other.2, hother⟩)⟩
    exact ⟨_, ⟨_, (mem_filter.mp (mem_of_getLast? hlast)).1, rfl⟩, hlast⟩

end

theorem pairwise_winners (order : List (Layer Id × Nat)) :
    (resolveOrder order).winners.Pairwise fun a b => a.occurrenceId < b.occurrenceId := by
  simp only [resolveOrder, (foldl_addGroup _ _).1, nil_append]
  refine List.Pairwise.filterMap _ ?_ (pairwise_stableGroups _ _)
  intro g h hlt a ha b hb
  have hga := mem_of_getLast? (winnerOf_eq_some.mp ha)
  have hhb := mem_of_getLast? (winnerOf_eq_some.mp hb)
  exact hlt _ hga _ hhb

theorem counts_resolveOrder (order : List (Layer Id × Nat)) :
    (resolveOrder order).winners.length + (resolveOrder order).superseded +
        (resolveOrder order).masked =
      (order.map fun entry => entry.1.occurrenceIds.length).sum := by
  have hrows : ∀ order : List (Layer Id × Nat),
      rowsOf (order.flatMap fun (layer, index) => layer.entries index) =
        (order.map fun entry => entry.1.occurrenceIds.length).sum := by
    intro order
    induction order with
    | nil => rfl
    | cons entry order ih =>
      rw [flatMap_cons, map_cons, sum_cons, ← ih]
      simp [rowsOf, Layer.entries, filter_map, Function.comp_def]
  simp only [resolveOrder, (foldl_addGroup _ _).2, length_nil, Nat.zero_add]
  rw [← hrows, rowsOf, rowsOf]
  exact ((perm_flatten_stableGroups _ _).filter _).length_eq

/-! ## Permuted layers -/

/-- The indexes only name the winners' layers. -/
theorem resolveOrder_rename (f : Nat → Nat) (order : List (Layer Id × Nat)) :
    resolveOrder (order.map fun entry => (entry.1, f entry.2)) = (resolveOrder order).rename f := by
  have hentries : ((order.map fun entry => (entry.1, f entry.2)).flatMap
      fun (layer, index) => layer.entries index) =
      (order.flatMap fun (layer, index) => layer.entries index).map (Entry.rename f) := by
    rw [flatMap_map, map_flatMap]
    congr 1
    funext entry
    simp [Layer.entries, Entry.rename, Function.comp_def]
  have hfold : ∀ (groups : List (List (Entry Id))) (resolved : Resolved Id),
      (groups.map (List.map (Entry.rename f))).foldl Resolved.addGroup (resolved.rename f) =
        (groups.foldl Resolved.addGroup resolved).rename f := by
    intro groups
    induction groups with
    | nil => exact fun _ => rfl
    | cons group groups ih =>
      intro resolved
      rw [map_cons, foldl_cons, addGroup_rename, ih, foldl_cons]
  simp only [resolveOrder, hentries, stableGroups_map]
  exact hfold _ ⟨[], 0, 0⟩

section

variable {layers layers' : List (Layer Id)} {maxEntries : Nat}

theorem WellFormed.perm (h : WellFormed layers maxEntries) (hperm : layers'.Perm layers) :
    WellFormed layers' maxEntries where
  fits := (hperm.map _).sum_nat ▸ h.fits
  layers_wf layer hlayer := h.layers_wf layer (hperm.mem_iff.mp hlayer)
  base := by
    obtain ⟨base, hbase, hepochs⟩ := h.base
    have hfilter := hperm.filter (fun layer => decide (layer.ordinal = 0))
    rw [hbase, perm_singleton] at hfilter
    exact ⟨base, hfilter, fun layer hlayer => hepochs layer (hperm.mem_iff.mp hlayer)⟩
  distinct := (hperm.map _).nodup_iff.mpr h.distinct
  forwards older holder newer hnewer :=
    h.forwards older (hperm.mem_iff.mp holder) newer (hperm.mem_iff.mp hnewer)

theorem WellFormed.oldestFirst_perm (h : WellFormed layers maxEntries)
    (hperm : layers'.Perm layers) :
    ∃ f : Nat → Nat,
      oldestFirst layers = (oldestFirst layers').map fun entry => (entry.1, f entry.2) := by
  have hstrict : ∀ {layers : List (Layer Id)}, WellFormed layers maxEntries →
      ((oldestFirst layers).map Prod.fst).Pairwise fun a b => a.ordinal < b.ordinal := by
    intro layers h
    rw [pairwise_map]
    exact h.follows.imp fun hfollows => hfollows.1
  have hfst : (oldestFirst layers').map Prod.fst = (oldestFirst layers).map Prod.fst := by
    refine List.Perm.eq_of_pairwise ?_ (hstrict (h.perm hperm)) (hstrict h) ?_
    · exact fun a b _ _ hlt hgt => absurd hlt hgt.not_gt
    · exact (map_fst_perm_oldestFirst layers').trans
        (hperm.trans (map_fst_perm_oldestFirst layers).symm)
  have hnodup : ((oldestFirst layers').map Prod.snd).Nodup := by
    have hsnd : ((oldestFirst layers').map Prod.snd).Perm (layers'.zipIdx.map Prod.snd) :=
      perm_sortByKey.map _
    rw [hsnd.nodup_iff, zipIdx_map_snd]
    exact nodup_range'
  exact exists_rename hfst hnodup

end

/-- Resolution answers exactly the well-formed layer sets; then the newest entry of each
occurrence decides, every row is accounted for, and the order in which the layers are
handed in only changes the indexes that name them. -/
theorem resolve_newest_wins (layers : List (Layer Id)) (maxEntries : Nat) :
    ((∃ resolved, resolve layers maxEntries = .ok resolved) ↔ WellFormed layers maxEntries) ∧
    ∀ resolved, resolve layers maxEntries = .ok resolved →
      (∀ winner, winner ∈ resolved.winners ↔ Newest layers winner) ∧
      (resolved.winners.Pairwise fun a b => a.occurrenceId < b.occurrenceId) ∧
      resolved.winners.length + resolved.superseded + resolved.masked =
        (layers.map fun layer => layer.occurrenceIds.length).sum ∧
      ∀ layers' : List (Layer Id), layers'.Perm layers →
        ∃ resolved', resolve layers' maxEntries = .ok resolved' ∧
          resolved'.superseded = resolved.superseded ∧ resolved'.masked = resolved.masked ∧
          (resolved'.winners.map fun winner =>
            (winner.occurrenceId, layers'[winner.layer]?, winner.row)) =
          resolved.winners.map fun winner =>
            (winner.occurrenceId, layers[winner.layer]?, winner.row) := by
  refine ⟨⟨?_, fun h => ⟨_, resolve_eq_ok.mpr ⟨h, rfl⟩⟩⟩, ?_⟩
  · rintro ⟨resolved, h⟩
    exact (resolve_eq_ok.mp h).1
  rintro _ h
  obtain ⟨hwf, rfl⟩ := resolve_eq_ok.mp h
  refine ⟨fun winner => hwf.mem_winners, pairwise_winners _, ?_, ?_⟩
  · rw [counts_resolveOrder]
    have hsum := ((map_fst_perm_oldestFirst layers).map fun layer =>
      layer.occurrenceIds.length).sum_nat
    rwa [map_map] at hsum
  · intro layers' hperm
    obtain ⟨f, horder⟩ := hwf.oldestFirst_perm hperm
    refine ⟨_, resolve_eq_ok.mpr ⟨hwf.perm hperm, rfl⟩, ?_⟩
    rw [horder, resolveOrder_rename]
    refine ⟨rfl, rfl, ?_⟩
    simp only [Resolved.rename, map_map]
    refine map_congr_left fun winner hwinner => ?_
    obtain ⟨layer, hat, -⟩ := (hwf.perm hperm).mem_winners.mp hwinner
    have hrenamed : (layer, f winner.layer) ∈ oldestFirst layers := by
      rw [horder, mem_map]
      exact ⟨(layer, winner.layer), mem_oldestFirst.mpr hat, rfl⟩
    simp [Winner.rename, hat, mem_oldestFirst.mp hrenamed]

/-- A delta handed in before its base: it replaces one row of the base and masks another. -/
def deltaOverBase : List (Layer Nat) :=
  [⟨⟨7, 1⟩, ⟨2, 3⟩, [20], 1, [10]⟩, ⟨⟨7, 0⟩, ⟨1, 2⟩, [10, 20, 30], 3, []⟩]

theorem resolve_newest_wins_deltaOverBase :
    resolve deltaOverBase 5 = .ok ⟨[⟨20, 0, 0⟩, ⟨30, 1, 2⟩], 1, 1⟩ ∧
      ∀ winner, winner ∈ [⟨20, 0, 0⟩, ⟨30, 1, 2⟩] ↔ Newest deltaOverBase winner := by
  have hresolve : resolve deltaOverBase 5 = .ok ⟨[⟨20, 0, 0⟩, ⟨30, 1, 2⟩], 1, 1⟩ := by
    decide +kernel
  exact ⟨hresolve, ((resolve_newest_wins deltaOverBase 5).2 _ hresolve).1⟩

/-- A base whose snapshot is after its checkpoint, with nothing else wrong. -/
def lateSnapshot : Layer Nat := ⟨⟨7, 0⟩, ⟨3, 2⟩, [10], 1, [20]⟩

/-- A single base has no neighbour that its checkpoint could move back from, and is refused. -/
theorem resolve_refuses_lateSnapshot :
    lateSnapshot.ordinal = 0 ∧ lateSnapshot.occurrenceIds.Pairwise (· < ·) ∧
      lateSnapshot.tombstones.Pairwise (· < ·) ∧
      lateSnapshot.occurrenceIds.length = lateSnapshot.rowCount ∧
      (∀ id ∈ lateSnapshot.occurrenceIds, id ∉ lateSnapshot.tombstones) ∧
      resolve [lateSnapshot] 2 = .error (.checkpointOrder 0) := by
  decide

end Eidnara.Retrieval
