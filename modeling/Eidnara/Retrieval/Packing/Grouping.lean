import Eidnara.Kernel.SourceIdentity
import Eidnara.Lib.Buckets
import Eidnara.Lib.Slices
import Eidnara.Lib.StableGroups
import Mathlib.Data.Prod.Lex
import Mathlib.Order.Bounds.Defs

/-!
# Grouping selected spans

`packing/grouping.rs`: the selected rows of one parent are merged into maximal ranges.
Occurrence identifiers are compared by their bytes and grouping keys only for equality, so
they are elements of any linear order and of any type.  A slice or an index out of bounds,
or a subtraction below zero, is `none`.
-/

namespace Eidnara.Retrieval.Packing

open Lib Utf8 List
open Eidnara.Kernel (OccurrenceClass)

variable {Id Key : Type}

inductive Grouping (Key : Type) where
  | grouped (key : Key)
  | nonGrouping (occurrenceClass : OccurrenceClass)
deriving DecidableEq

structure PayloadRef where
  payloadId : Bytes
  byteLength : UInt64
deriving DecidableEq

structure SelectedOccurrence (Id Key : Type) where
  occurrence : Id
  revision : Int
  span : Option Kernel.Span
  payload : PayloadRef
  tombstoned : Bool
  grouping : Grouping Key

structure Selected (Id Key : Type) where
  row : SelectedOccurrence Id Key
  bytes : Bytes

inductive Ungrouped where
  | emptySpan | spanOverflow | overlapDisagreement | utf8Boundary
deriving DecidableEq, Repr

inductive GroupIdentity (Id Key : Type) where
  | grouped (key : Key)
  | single (occurrence : Id)
deriving DecidableEq

def GroupIdentity.of (row : SelectedOccurrence Id Key) : GroupIdentity Id Key :=
  match row.grouping with
  | .grouped key => .grouped key
  | .nonGrouping _ => .single row.occurrence

structure ByteRange where
  start : Nat
  stop : Nat
deriving DecidableEq, Repr

structure MergedRange (Id : Type) where
  span : ByteRange
  bytes : Bytes
  members : List Id
deriving DecidableEq

structure Group (Id Key : Type) where
  identity : GroupIdentity Id Key
  firstFused : Nat
  ranges : List (MergedRange Id)
deriving DecidableEq

def Group.members (group : Group Id Key) : List Id := group.ranges.flatMap MergedRange.members

structure Partition (Id Key : Type) where
  groups : List (Group Id Key)
  refused : List (Id × Ungrouped)
deriving DecidableEq

/-- What is merged.  The position of a member stands beside it. -/
structure Member (Id : Type) where
  occurrence : Id
  start : Nat
  stop : Nat
  wholeBuffer : Bool
  bytes : Bytes
deriving DecidableEq

def Selected.member (item : Selected Id Key) : Member Id :=
  match item.row.span with
  | none =>
    { occurrence := item.row.occurrence
      start := 0
      stop := item.row.payload.byteLength.toNat
      wholeBuffer := true
      bytes := item.bytes }
  | some span =>
    { occurrence := item.row.occurrence
      start := span.start.toNat
      stop := span.stop.toNat
      wholeBuffer := false
      bytes := item.bytes }

/-! ## Merging the spans of one group -/

/-- `Vec::retain`, with what was refused on the way. -/
def retain (reason : Member Id → Option Ungrouped) (members : List (Member Id)) :
    List (Member Id) × List (Id × Ungrouped) :=
  (members.filter fun member => (reason member).isNone,
    members.filterMap fun member => (reason member).map (member.occurrence, ·))

def ownReason (member : Member Id) : Option Ungrouped :=
  if member.stop < member.start then some .spanOverflow
  else if member.stop = member.start ∧ ¬ member.wholeBuffer then some .emptySpan
  else if member.stop - member.start ≠ member.bytes.length then some .spanOverflow
  else none

/-- A known whole length bounds the other members. -/
def beyondReason (wholeLength : Option Nat) (member : Member Id) : Option Ungrouped :=
  match wholeLength with
  | none => none
  | some length => if member.stop > length then some .spanOverflow else none

def wholeLength (members : List (Member Id)) : Option Nat :=
  (members.find? (·.wholeBuffer)).map Member.stop

def kept (members : List (Member Id)) : List (Member Id) × List (Id × Ungrouped) :=
  retain ownReason members

def bounded (members : List (Member Id)) : List (Member Id) × List (Id × Ungrouped) :=
  retain (beyondReason (wholeLength (kept members).1)) (kept members).1

/-- A range with whether an overlap disagreed. -/
structure Run (Id : Type) where
  range : MergedRange Id
  disagreed : Bool

def openRun (member : Member Id) : Run Id :=
  { range :=
      { span := ⟨member.start, member.stop⟩
        bytes := member.bytes
        members := [member.occurrence] }
    disagreed := false }

/-- Extends the current run by a member that starts inside it or at its end. -/
def absorb (run : Run Id) (member : Member Id) : Option (Run Id) := do
  let current := run.range
  let overlap ← checkedSub current.span.stop member.start
  let (shared, tail) := member.bytes.splitAt (min overlap member.bytes.length)
  let offset ← checkedSub member.start current.span.start
  let window ← checkedSlice current.bytes offset (offset + shared.length)
  some
    { range :=
        { span := ⟨current.span.start, max current.span.stop member.stop⟩
          bytes := current.bytes ++ tail
          members := current.members ++ [member.occurrence] }
      disagreed := run.disagreed || window != shared }

def runsFrom (current : Run Id) : List (Member Id) → Option (List (Run Id))
  | [] => some [current]
  | member :: members =>
    if member.start ≤ current.range.span.stop then do
      let next ← absorb current member
      runsFrom next members
    else do
      let rest ← runsFrom (openRun member) members
      some (current :: rest)

def runs : List (Member Id) → Option (List (Run Id))
  | [] => some []
  | member :: members => runsFrom (openRun member) members

/-- `std::str::from_utf8` is a parameter. -/
def finishReason (isUtf8 : Bytes → Bool) (run : Run Id) : Option Ungrouped :=
  if run.disagreed then some .overlapDisagreement
  else if ¬ isUtf8 run.range.bytes then some .utf8Boundary
  else none

def finish (isUtf8 : Bytes → Bool) (finished : List (Run Id)) :
    List (MergedRange Id) × List (Id × Ungrouped) :=
  ((finished.filter fun run => (finishReason isUtf8 run).isNone).map Run.range,
    finished.flatMap fun run =>
      match finishReason isUtf8 run with
      | none => []
      | some reason => run.range.members.map (·, reason))

section

variable [LinearOrder Id]

def sortKey (member : Member Id) : Nat ×ₗ Nat ×ₗ Id :=
  toLex (member.start, toLex (member.stop, member.occurrence))

def merge (isUtf8 : Bytes → Bool) (members : List (Member Id)) :
    Option (List (MergedRange Id) × List (Id × Ungrouped)) := do
  let finished ← runs (sortByKey sortKey (bounded members).1)
  let (ranges, unfinished) := finish isUtf8 finished
  some (ranges, (kept members).2 ++ (bounded members).2 ++ unfinished)

/-! ## Grouping -/

def fusedOf (bucket : List (Selected Id Key × Nat)) (id : Id) : Option Nat :=
  (bucket.find? (·.1.row.occurrence = id)).map Prod.snd

def groupOf (isUtf8 : Bytes → Bool) (identity : GroupIdentity Id Key)
    (bucket : List (Selected Id Key × Nat)) :
    Option (Option (Group Id Key) × List (Id × Ungrouped)) := do
  let (ranges, refused) ← merge isUtf8 (bucket.map (·.1.member))
  let positions ← (ranges.flatMap MergedRange.members).mapM (fusedOf bucket)
  some (positions.min?.map fun firstFused => { identity, firstFused, ranges }, refused)

variable [DecidableEq Key]

def group (isUtf8 : Bytes → Bool) (selected : List (Selected Id Key)) :
    Option (Partition Id Key) := do
  let results ← (buckets (fun item => GroupIdentity.of item.1.row) selected.zipIdx).mapM
    fun bucket => groupOf isUtf8 bucket.1 bucket.2
  some
    { groups := sortByKey Group.firstFused (results.filterMap Prod.fst)
      refused := results.flatMap Prod.snd }

end

/-! ## The sweep -/

structure Member.Fits (member : Member Id) : Prop where
  ordered : member.start ≤ member.stop
  length : member.bytes.length = member.stop - member.start

/-- A member stands in a range, its bytes at its offset. -/
structure Member.Within (member : Member Id) (range : MergedRange Id) : Prop where
  start : range.span.start ≤ member.start
  stop : member.stop ≤ range.span.stop
  bytes : OccursAt range.bytes (member.start - range.span.start) member.bytes

structure MergedRange.Fits (range : MergedRange Id) : Prop where
  ordered : range.span.start ≤ range.span.stop
  length : range.bytes.length = range.span.stop - range.span.start

/-- A run made of members.  Those of a run that agrees stand in its range. -/
structure Run.Covers (run : Run Id) (members : List (Member Id)) : Prop where
  fits : run.range.Fits
  ids : run.range.members = members.map Member.occurrence
  within : run.disagreed = false → ∀ member ∈ members, member.Within run.range

variable {member : Member Id}

theorem Run.covers_openRun (h : member.Fits) :
    Run.Covers (openRun member) [member] where
  fits := ⟨h.ordered, h.length⟩
  ids := rfl
  within := by
    intro _ other hother
    obtain rfl := mem_singleton.mp hother
    refine ⟨le_rfl, le_rfl, ?_⟩
    change OccursAt other.bytes (other.start - other.start) other.bytes
    rw [Nat.sub_self]
    exact occursAt_self _

variable {members : List (Member Id)}

/-- A member that starts no earlier than the run and no later than its end is absorbed
within bounds. -/
theorem Run.Covers.absorb {run : Run Id} (h : run.Covers members) (hfits : member.Fits)
    (hstart : run.range.span.start ≤ member.start) (hstop : member.start ≤ run.range.span.stop) :
    ∃ next, Packing.absorb run member = some next ∧ next.Covers (members ++ [member]) ∧
      next.range.span.start = run.range.span.start := by
  obtain ⟨current, disagreed⟩ := run
  have hlength := h.fits.length
  have hmember := hfits.length
  set offset := member.start - current.span.start with hoffset
  set overlap := current.span.stop - member.start with hoverlap
  set shared := member.bytes.take (min overlap member.bytes.length) with hshared
  set tail := member.bytes.drop (min overlap member.bytes.length) with htail
  have hjoin : shared ++ tail = member.bytes := take_append_drop _ _
  have hsharedLength : shared.length = min overlap member.bytes.length := by
    rw [hshared, length_take]
    omega
  have htailLength : tail.length = member.bytes.length - min overlap member.bytes.length :=
    length_drop
  have hbound : offset + shared.length ≤ current.bytes.length := by
    simp only at hlength hstart hstop
    omega
  refine ⟨⟨⟨⟨current.span.start, max current.span.stop member.stop⟩, current.bytes ++ tail,
    current.members ++ [member.occurrence]⟩,
    disagreed || slice current.bytes offset (offset + shared.length) != shared⟩, ?_, ?_, rfl⟩
  · simp only [Packing.absorb, checkedSub_of_le hstop, checkedSub_of_le hstart,
      splitAt_eq, some_bind]
    rw [checkedSlice_eq_some (Nat.le_add_right _ _) hbound]
    rfl
  · simp only at hlength hstart hstop
    refine ⟨⟨?_, ?_⟩, ?_, ?_⟩
    · have := h.fits.ordered
      simp only at this ⊢
      omega
    · simp only [length_append]
      omega
    · rw [map_append, ← h.ids]
      rfl
    · intro hagreed
      rw [Bool.or_eq_false_iff, bne_eq_false_iff_eq] at hagreed
      intro other hother
      rcases mem_append.mp hother with hold | hnew
      · obtain ⟨hleft, hright, hbytes⟩ := h.within hagreed.1 other hold
        exact ⟨hleft, hright.trans (le_max_left _ _), hbytes.append tail⟩
      · obtain rfl := mem_singleton.mp hnew
        refine ⟨hstart, le_max_right _ _, ?_⟩
        have hat := occursAt_of_slice_eq hbound hagreed.2
        rw [← hjoin]
        -- Either the member ends inside the run and adds nothing, or its shared part is the
        -- end of the run.
        rcases Nat.le_total overlap other.bytes.length with hlong | hshort
        · exact hat.extend (by omega) tail
        · have hnil : tail = [] := eq_nil_of_length_eq_zero (by omega)
          rw [hnil, append_nil, append_nil]
          exact hat

/-- The runs of sorted members cover them one after the other, and no two runs touch. -/
theorem exists_runsFrom {current : Run Id} {absorbed : List (Member Id)}
    (hcurrent : current.Covers absorbed) (hfits : ∀ member ∈ members, member.Fits)
    (hsorted : members.Pairwise (·.start ≤ ·.start))
    (hstart : ∀ member ∈ members, current.range.span.start ≤ member.start) :
    ∃ finished pieces, runsFrom current members = some finished ∧
      pieces.flatten = absorbed ++ members ∧ List.Forall₂ Run.Covers finished pieces ∧
      finished.Pairwise (·.range.span.stop < ·.range.span.start) ∧
      ∀ run ∈ finished, current.range.span.start ≤ run.range.span.start := by
  induction members generalizing current absorbed with
  | nil =>
    refine ⟨[current], [absorbed], rfl, by simp, .cons hcurrent .nil, pairwise_singleton _ _,
      ?_⟩
    intro run hrun
    rw [mem_singleton.mp hrun]
  | cons member members ih =>
    rw [forall_mem_cons] at hfits hstart
    rw [pairwise_cons] at hsorted
    rw [runsFrom]
    by_cases htouch : member.start ≤ current.range.span.stop
    · obtain ⟨next, hnext, hcovers, hsame⟩ := hcurrent.absorb hfits.1 hstart.1 htouch
      obtain ⟨finished, pieces, hruns, hpieces, hall, hapart, hafter⟩ :=
        ih hcovers hfits.2 hsorted.2 (by rw [hsame]; exact hstart.2)
      refine ⟨finished, pieces, ?_, ?_, hall, hapart, hsame ▸ hafter⟩
      · rw [if_pos htouch, hnext]
        exact hruns
      · rw [hpieces, append_assoc]
        rfl
    · obtain ⟨finished, pieces, hruns, hpieces, hall, hapart, hafter⟩ :=
        ih (Run.covers_openRun hfits.1) hfits.2 hsorted.2 hsorted.1
      refine ⟨current :: finished, absorbed :: pieces, ?_, ?_, .cons hcurrent hall,
        pairwise_cons.mpr ⟨?_, hapart⟩, ?_⟩
      · rw [if_neg htouch, hruns]
        rfl
      · rw [flatten_cons, hpieces]
        rfl
      · intro run hrun
        exact (Nat.lt_of_not_le htouch).trans_le (hafter run hrun)
      · exact forall_mem_cons.mpr ⟨le_rfl, fun run hrun => hstart.1.trans (hafter run hrun)⟩

theorem exists_runs (hfits : ∀ member ∈ members, member.Fits)
    (hsorted : members.Pairwise (·.start ≤ ·.start)) :
    ∃ finished pieces, runs members = some finished ∧ pieces.flatten = members ∧
      List.Forall₂ Run.Covers finished pieces ∧
      finished.Pairwise (·.range.span.stop < ·.range.span.start) := by
  cases members with
  | nil => exact ⟨[], [], rfl, rfl, .nil, .nil⟩
  | cons member members =>
    rw [forall_mem_cons] at hfits
    rw [pairwise_cons] at hsorted
    obtain ⟨finished, pieces, hruns, hpieces, hall, hapart, -⟩ :=
      exists_runsFrom (Run.covers_openRun hfits.1) hfits.2 hsorted.2 hsorted.1
    exact ⟨finished, pieces, hruns, hpieces, hall, hapart⟩

/-! ## Merging -/

theorem perm_retain (reason : Member Id → Option Ungrouped) (members : List (Member Id)) :
    ((retain reason members).1.map Member.occurrence ++
      (retain reason members).2.map Prod.fst).Perm (members.map Member.occurrence) := by
  induction members with
  | nil => exact .refl _
  | cons member members ih =>
    simp only [retain] at ih ⊢
    cases hreason : reason member with
    | none =>
      rw [filter_cons_of_pos (by rw [hreason]; rfl),
        filterMap_cons_none (by rw [hreason]; rfl), map_cons, map_cons]
      exact ih.cons _
    | some found =>
      rw [filter_cons_of_neg (by rw [hreason]; exact Bool.false_ne_true),
        filterMap_cons_some (by rw [hreason]; rfl), map_cons, map_cons]
      exact perm_middle.trans (ih.cons _)

theorem Member.fits_of_ownReason (h : ownReason member = none) : member.Fits := by
  unfold ownReason at h
  split_ifs at h with hreversed hempty hlength
  exact ⟨Nat.le_of_not_lt hreversed, by omega⟩

/-- What landed in ranges is sound, and what did not was refused. -/
structure Merged (members : List (Member Id)) (ranges : List (MergedRange Id))
    (refused : List (Id × Ungrouped)) : Prop where
  perm : (ranges.flatMap MergedRange.members ++ refused.map Prod.fst).Perm
    (members.map Member.occurrence)
  apart : ranges.Pairwise (·.span.stop < ·.span.start)
  fits : ∀ range ∈ ranges, range.Fits
  within : ∀ range ∈ ranges, ∀ id ∈ range.members,
    ∃ member ∈ members, member.occurrence = id ∧ member.Within range

theorem merged_finish (isUtf8 : Bytes → Bool) {finished : List (Run Id)}
    {pieces : List (List (Member Id))} (hcovers : List.Forall₂ Run.Covers finished pieces)
    (hapart : finished.Pairwise (·.range.span.stop < ·.range.span.start)) :
    Merged pieces.flatten (finish isUtf8 finished).1 (finish isUtf8 finished).2 := by
  induction hcovers with
  | nil => exact ⟨.refl _, .nil, by simp [finish], by simp [finish]⟩
  | @cons run piece finished pieces hrun hrest ih =>
    rw [pairwise_cons] at hapart
    obtain ⟨hperm, hranges, hfits, hwithin⟩ := ih hapart.2
    have hlater : ∀ range ∈ (finish isUtf8 finished).1, run.range.span.stop < range.span.start := by
      intro range hrange
      obtain ⟨later, hlater, rfl⟩ := mem_map.mp hrange
      exact hapart.1 later (mem_filter.mp hlater).1
    have hold : ∀ range ∈ (finish isUtf8 finished).1, ∀ id ∈ range.members,
        ∃ member ∈ (piece :: pieces).flatten, member.occurrence = id ∧ member.Within range := by
      intro range hrange id hid
      obtain ⟨member, hmember, hfound⟩ := hwithin range hrange id hid
      exact ⟨member, mem_append_right _ hmember, hfound⟩
    cases hreason : finishReason isUtf8 run with
    | none =>
      have hfinish : finish isUtf8 (run :: finished) =
          (run.range :: (finish isUtf8 finished).1, (finish isUtf8 finished).2) := by
        simp [finish, hreason]
      have hagreed : run.disagreed = false := by
        unfold finishReason at hreason
        split_ifs at hreason with hdisagreed
        exact Bool.eq_false_iff.mpr hdisagreed
      rw [hfinish]
      refine ⟨?_, pairwise_cons.mpr ⟨hlater, hranges⟩,
        forall_mem_cons.mpr ⟨hrun.fits, hfits⟩,
        forall_mem_cons.mpr ⟨fun id hid => ?_, hold⟩⟩
      · rw [flatMap_cons, flatten_cons, map_append, append_assoc, hrun.ids]
        exact hperm.append_left _
      · rw [hrun.ids] at hid
        obtain ⟨member, hmember, rfl⟩ := mem_map.mp hid
        exact ⟨member, mem_append_left _ hmember, rfl, hrun.within hagreed member hmember⟩
    | some reason =>
      have hfinish : finish isUtf8 (run :: finished) =
          ((finish isUtf8 finished).1,
            run.range.members.map (·, reason) ++ (finish isUtf8 finished).2) := by
        simp [finish, hreason]
      rw [hfinish]
      refine ⟨?_, hranges, hfits, hold⟩
      have hids : (run.range.members.map (·, reason)).map Prod.fst =
          piece.map Member.occurrence := by
        rw [map_map, ← hrun.ids]
        exact map_id _
      rw [map_append, hids, flatten_cons, map_append]
      refine perm_append_comm_assoc _ _ _ |>.trans ?_
      exact hperm.append_left _

theorem Selected.occurrence_member (item : Selected Id Key) :
    item.member.occurrence = item.row.occurrence := by
  unfold Selected.member
  cases item.row.span <;> rfl

theorem wholeBuffer_member (item : Selected Id Key) :
    item.member.wholeBuffer = item.row.span.isNone := by
  unfold Selected.member
  cases item.row.span <;> rfl

section

variable [LinearOrder Id]

theorem start_le_of_sortKey_le {a b : Member Id} (h : sortKey a ≤ sortKey b) :
    a.start ≤ b.start := by
  rcases Prod.Lex.toLex_le_toLex.mp h with hlt | ⟨heq, -⟩
  · exact hlt.le
  · exact heq.le

theorem exists_merge (isUtf8 : Bytes → Bool) (members : List (Member Id)) :
    ∃ ranges refused, merge isUtf8 members = some (ranges, refused) ∧
      Merged members ranges refused := by
  have hsubset : ∀ member ∈ sortByKey sortKey (bounded members).1, member ∈ (kept members).1 :=
    fun member hmember => (mem_filter.mp (perm_sortByKey.subset hmember)).1
  have hfits : ∀ member ∈ sortByKey sortKey (bounded members).1, member.Fits := by
    intro member hmember
    have hreason := (mem_filter.mp (hsubset member hmember)).2
    exact Member.fits_of_ownReason (Option.isNone_iff_eq_none.mp hreason)
  obtain ⟨finished, pieces, hruns, hpieces, hcovers, hapart⟩ :=
    exists_runs hfits (pairwise_sortByKey.imp start_le_of_sortKey_le)
  obtain ⟨hperm, hranges, hrangesFit, hwithin⟩ := merged_finish isUtf8 hcovers hapart
  rw [hpieces] at hperm hwithin
  refine ⟨_, (kept members).2 ++ (bounded members).2 ++ (finish isUtf8 finished).2, ?_, ?_, hranges,
    hrangesFit, ?_⟩
  · rw [merge, hruns]
    rfl
  · have hsorted := hperm.trans (perm_sortByKey.map Member.occurrence)
    have hbeyond := perm_retain (beyondReason (wholeLength (kept members).1)) (kept members).1
    have hown := perm_retain ownReason members
    rw [map_append, map_append]
    generalize (finish isUtf8 finished).2.map Prod.fst = unfinished at hsorted ⊢
    generalize (finish isUtf8 finished).1.flatMap MergedRange.members = inRanges at hsorted ⊢
    calc
      inRanges ++
          ((kept members).2.map Prod.fst ++ (bounded members).2.map Prod.fst ++ unfinished)
        |>.Perm (inRanges ++ unfinished ++ ((bounded members).2.map Prod.fst ++
            (kept members).2.map Prod.fst)) := by
          rw [append_assoc inRanges unfinished]
          exact (perm_append_comm.trans (perm_append_comm.append_left _)).append_left _
      _ |>.Perm ((bounded members).1.map Member.occurrence ++ (bounded members).2.map Prod.fst ++
            (kept members).2.map Prod.fst) := by
          rw [append_assoc ((bounded members).1.map Member.occurrence)]
          exact hsorted.append_right _
      _ |>.Perm ((kept members).1.map Member.occurrence ++ (kept members).2.map Prod.fst) :=
          hbeyond.append_right _
      _ |>.Perm (members.map Member.occurrence) := hown
  · intro range hrange id hid
    obtain ⟨member, hmember, hfound⟩ := hwithin range hrange id hid
    exact ⟨member, (mem_filter.mp (hsubset member hmember)).1, hfound⟩

/-- Spans with distinct identifiers and at most one whole buffer merge in any order. -/
theorem merge_perm (isUtf8 : Bytes → Bool) {members members' : List (Member Id)}
    (hperm : members.Perm members') (hids : (members.map Member.occurrence).Nodup)
    (hwhole : (members.filter Member.wholeBuffer).length ≤ 1)
    {ranges : List (MergedRange Id)} {refused : List (Id × Ungrouped)}
    (h : merge isUtf8 members = some (ranges, refused)) :
    ∃ refused', merge isUtf8 members' = some (ranges, refused') ∧ refused.Perm refused' := by
  have hkept : (kept members).1.Perm (kept members').1 := hperm.filter _
  have hlength : wholeLength (kept members).1 = wholeLength (kept members').1 := by
    rw [wholeLength, wholeLength, ← head?_filter, ← head?_filter]
    have hsublist : (kept members).1.Sublist members := filter_sublist
    have hfew := (hsublist.filter Member.wholeBuffer).length_le.trans hwhole
    have hfiltered := hkept.filter Member.wholeBuffer
    generalize (kept members).1.filter Member.wholeBuffer = whole at hfew hfiltered
    rcases whole with _ | ⟨only, _ | ⟨_, _⟩⟩
    · rw [nil_perm.mp hfiltered]
    · rw [singleton_perm.mp hfiltered]
    · simp at hfew
  have hbounded : (bounded members).1.Perm (bounded members').1 := by
    rw [bounded, bounded, ← hlength]
    exact hkept.filter _
  have hsorted : sortByKey sortKey (bounded members).1 =
      sortByKey sortKey (bounded members').1 := by
    refine sortByKey_eq_of_perm hbounded fun a ha b hb heq => ?_
    have hmem : ∀ c ∈ (bounded members).1, c ∈ members :=
      fun c hc => (mem_filter.mp (mem_filter.mp hc).1).1
    have hoccurrence : a.occurrence = b.occurrence :=
      congrArg (fun k : Nat ×ₗ Nat ×ₗ Id => (ofLex (ofLex k).2).2) heq
    exact inj_on_of_nodup_map hids (hmem a ha) (hmem b hb) hoccurrence
  obtain ⟨finished, hfinished, h⟩ := Option.bind_eq_some_iff.mp h
  cases h
  refine ⟨_, Option.bind_eq_some_iff.mpr ⟨finished, hsorted ▸ hfinished, rfl⟩, ?_⟩
  refine (List.Perm.append (hperm.filterMap _) ?_).append_right _
  rw [bounded, bounded, ← hlength]
  exact hkept.filterMap _

/-! ## Groups -/

variable {isUtf8 : Bytes → Bool} {identity : GroupIdentity Id Key}
  {bucket : List (Selected Id Key × Nat)}

def landed (group : Option (Group Id Key)) : List Id := (group.map Group.members).getD []

structure Landed (identity : GroupIdentity Id Key) (bucket : List (Selected Id Key × Nat))
    (result : Option (Group Id Key) × List (Id × Ungrouped)) : Prop where
  perm : (landed result.1 ++ result.2.map Prod.fst).Perm (bucket.map (·.1.row.occurrence))
  identity : ∀ group ∈ result.1, group.identity = identity
  apart : ∀ group ∈ result.1, group.ranges.Pairwise (·.span.stop < ·.span.start)
  fits : ∀ group ∈ result.1, ∀ range ∈ group.ranges, range.Fits
  within : ∀ group ∈ result.1, ∀ range ∈ group.ranges, ∀ id ∈ range.members,
    ∃ item ∈ bucket, item.1.row.occurrence = id ∧ item.1.member.Within range
  first : ∀ group ∈ result.1,
    ∃ item ∈ bucket, item.2 = group.firstFused ∧ item.1.row.occurrence ∈ group.members
  least : ∀ group ∈ result.1, ∀ item ∈ bucket,
    item.1.row.occurrence ∈ group.members → group.firstFused ≤ item.2

theorem fusedOf_eq_some (hids : (bucket.map (·.1.row.occurrence)).Nodup)
    {item : Selected Id Key × Nat} (hitem : item ∈ bucket) :
    fusedOf bucket item.1.row.occurrence = some item.2 := by
  have hfound : bucket.find? (·.1.row.occurrence = item.1.row.occurrence) = some item :=
    find?_of_unique hitem (decide_eq_true rfl) fun other hother hsame =>
      inj_on_of_nodup_map hids hother hitem (of_decide_eq_true hsame)
  rw [fusedOf, hfound]
  rfl

theorem exists_groupOf (isUtf8 : Bytes → Bool) (identity : GroupIdentity Id Key)
    (hids : (bucket.map (·.1.row.occurrence)).Nodup) :
    ∃ result, groupOf isUtf8 identity bucket = some result ∧ Landed identity bucket result := by
  obtain ⟨ranges, refused, hmerge, hperm, hapart, hfits, hwithin⟩ :=
    exists_merge isUtf8 (bucket.map (·.1.member))
  have hoccurrences : (bucket.map (·.1.member)).map Member.occurrence =
      bucket.map (·.1.row.occurrence) := by
    rw [map_map]
    exact map_congr_left fun item _ => item.1.occurrence_member
  have hwithin' : ∀ range ∈ ranges, ∀ id ∈ range.members,
      ∃ item ∈ bucket, item.1.row.occurrence = id ∧ item.1.member.Within range := by
    intro range hrange id hid
    obtain ⟨member, hmember, hid, hfound⟩ := hwithin range hrange id hid
    obtain ⟨item, hitem, rfl⟩ := mem_map.mp hmember
    exact ⟨item, hitem, item.1.occurrence_member.symm.trans hid, hfound⟩
  have hitems : ∀ id ∈ ranges.flatMap MergedRange.members,
      ∃ item ∈ bucket, item.1.row.occurrence = id := by
    intro id hid
    obtain ⟨range, hrange, hid⟩ := mem_flatMap.mp hid
    obtain ⟨item, hitem, hid, -⟩ := hwithin' range hrange id hid
    exact ⟨item, hitem, hid⟩
  obtain ⟨positions, hpositions⟩ :
      ∃ positions, (ranges.flatMap MergedRange.members).mapM (fusedOf bucket) = some positions := by
    refine exists_mapM_eq_some fun id hid => ?_
    obtain ⟨item, hitem, rfl⟩ := hitems id hid
    exact ⟨_, fusedOf_eq_some hids hitem⟩
  have hpaired := mapM_eq_some_iff.mp hpositions
  refine ⟨(positions.min?.map fun firstFused => { identity, firstFused, ranges }, refused), ?_, ?_⟩
  · simp only [groupOf, hmerge, hpositions, some_bind]
  · rw [hoccurrences] at hperm
    cases hleast : positions.min? with
    | none =>
      have hnone : ranges.flatMap MergedRange.members = [] := by
        rw [min?_eq_none_iff.mp hleast] at hpaired
        exact map_eq_nil_iff.mp hpaired
      rw [hnone] at hperm
      exact ⟨hperm, by simp, by simp, by simp, by simp, by simp, by simp⟩
    | some firstFused =>
      obtain ⟨hmem, hle⟩ := min?_eq_some_iff.mp hleast
      refine ⟨hperm, ?_, ?_, ?_, ?_, ?_, ?_⟩ <;> rintro _ ⟨⟩
      · rfl
      · exact hapart
      · exact hfits
      · exact hwithin'
      · obtain ⟨id, hid, hfused⟩ := mem_map.mp (hpaired ▸ mem_map_of_mem hmem)
        obtain ⟨item, hitem, rfl⟩ := hitems id hid
        rw [fusedOf_eq_some hids hitem] at hfused
        exact ⟨item, hitem, Option.some.inj hfused, hid⟩
      · intro item hitem hmember
        have hposition := mem_map_of_mem (f := fusedOf bucket) hmember
        rw [Group.members, hpaired, fusedOf_eq_some hids hitem, mem_map] at hposition
        obtain ⟨position, hposition, heq⟩ := hposition
        exact Option.some.inj heq ▸ hle position hposition

def resultOf (isUtf8 : Bytes → Bool)
    (bucket : GroupIdentity Id Key × List (Selected Id Key × Nat)) :
    Option (Group Id Key) × List (Id × Ungrouped) :=
  (groupOf isUtf8 bucket.1 bucket.2).getD (none, [])

theorem resultOf_spec (isUtf8 : Bytes → Bool) (identity : GroupIdentity Id Key)
    (hids : (bucket.map (·.1.row.occurrence)).Nodup) :
    groupOf isUtf8 identity bucket = some (resultOf isUtf8 (identity, bucket)) ∧
      Landed identity bucket (resultOf isUtf8 (identity, bucket)) := by
  obtain ⟨result, hresult, hlanded⟩ := exists_groupOf isUtf8 identity hids
  have heq : resultOf isUtf8 (identity, bucket) = result := by
    rw [resultOf, hresult]
    rfl
  exact heq ▸ ⟨hresult, hlanded⟩

def Group.content (group : Group Id Key) : GroupIdentity Id Key × List (MergedRange Id) :=
  (group.identity, group.ranges)

theorem groupOf_content {ranges : List (MergedRange Id)} {refused : List (Id × Ungrouped)}
    {result : Option (Group Id Key) × List (Id × Ungrouped)}
    (hmerge : merge isUtf8 (bucket.map (·.1.member)) = some (ranges, refused))
    (h : groupOf isUtf8 identity bucket = some result) :
    result.1.map Group.content =
        (if ranges.flatMap MergedRange.members = [] then none else some (identity, ranges)) ∧
      result.2 = refused := by
  rw [groupOf, hmerge, some_bind] at h
  obtain ⟨positions, hpositions, h⟩ := Option.bind_eq_some_iff.mp h
  cases h
  refine ⟨?_, rfl⟩
  have hpaired := mapM_eq_some_iff.mp hpositions
  by_cases hnone : ranges.flatMap MergedRange.members = []
  · rw [hnone] at hpaired
    rw [if_pos hnone, map_eq_nil_iff.mp hpaired.symm]
    rfl
  · obtain ⟨first, hfirst⟩ : ∃ first, positions.min? = some first := by
      refine Option.ne_none_iff_exists'.mp fun hempty => hnone ?_
      rw [min?_eq_none_iff.mp hempty] at hpaired
      exact map_eq_nil_iff.mp hpaired
    rw [if_neg hnone, hfirst]
    rfl

/-! ## The partition -/

abbrev bucketKey (item : Selected Id Key × Nat) : GroupIdentity Id Key := .of item.1.row

variable {selected selected' : List (Selected Id Key)}

omit [LinearOrder Id] in
theorem map_fst_filter_zipIdx (p : Selected Id Key → Bool) :
    (selected.zipIdx.filter (fun item => p item.1)).map Prod.fst = selected.filter p := by
  conv_rhs => rw [← zipIdx_map_fst 0 selected, filter_map]
  rfl

variable [DecidableEq Key]

def bucketOf (selected : List (Selected Id Key)) (identity : GroupIdentity Id Key) :
    List (Selected Id Key × Nat) :=
  selected.zipIdx.filter (bucketKey · = identity)

section

variable (hids : (selected.map (·.row.occurrence)).Nodup)

include hids

theorem nodup_bucketOf (identity : GroupIdentity Id Key) :
    ((bucketOf selected identity).map (·.1.row.occurrence)).Nodup := by
  have hfiltered : ((selected.filter (GroupIdentity.of ·.row = identity)).map
      (·.row.occurrence)).Nodup := hids.sublist (filter_sublist.map _)
  rw [← map_fst_filter_zipIdx, map_map] at hfiltered
  exact hfiltered

theorem landed_resultOf (isUtf8 : Bytes → Bool)
    {bucket : GroupIdentity Id Key × List (Selected Id Key × Nat)}
    (hbucket : bucket ∈ buckets bucketKey selected.zipIdx) :
    groupOf isUtf8 bucket.1 bucket.2 = some (resultOf isUtf8 bucket) ∧
      Landed bucket.1 bucket.2 (resultOf isUtf8 bucket) := by
  apply resultOf_spec
  rw [(bucketed_buckets bucketKey selected.zipIdx).bucket bucket hbucket]
  exact nodup_bucketOf hids bucket.1

def opened (isUtf8 : Bytes → Bool) (selected : List (Selected Id Key)) : List (Group Id Key) :=
  (buckets bucketKey selected.zipIdx).filterMap fun bucket => (resultOf isUtf8 bucket).1

def refusals (isUtf8 : Bytes → Bool) (selected : List (Selected Id Key)) : List (Id × Ungrouped) :=
  (buckets bucketKey selected.zipIdx).flatMap fun bucket => (resultOf isUtf8 bucket).2

theorem group_eq :
    group isUtf8 selected = some
      { groups := sortByKey Group.firstFused (opened isUtf8 selected)
        refused := refusals isUtf8 selected } := by
  have hresults : (buckets bucketKey selected.zipIdx).mapM
      (fun bucket => groupOf isUtf8 bucket.1 bucket.2) =
        some ((buckets bucketKey selected.zipIdx).map (resultOf isUtf8)) := by
    rw [mapM_eq_some_iff, map_map]
    exact map_congr_left fun bucket hbucket => (landed_resultOf hids isUtf8 hbucket).1
  simp only [group, Option.bind_eq_bind]
  rw [hresults, Option.bind_some, filterMap_map, flatMap_map]
  rfl

theorem resultOf_perm (hperm : selected.Perm selected')
    (hwhole : ((selected.filter (·.row.span.isNone)).map (GroupIdentity.of ·.row)).Nodup)
    (identity : GroupIdentity Id Key) :
    (resultOf isUtf8 (identity, bucketOf selected identity)).1.map Group.content =
        (resultOf isUtf8 (identity, bucketOf selected' identity)).1.map Group.content ∧
      (resultOf isUtf8 (identity, bucketOf selected identity)).2.Perm
        (resultOf isUtf8 (identity, bucketOf selected' identity)).2 := by
  have hmembers (rows : List (Selected Id Key)) : (bucketOf rows identity).map (·.1.member) =
      (rows.filter (GroupIdentity.of ·.row = identity)).map Selected.member := by
    rw [← map_fst_filter_zipIdx, map_map]
    rfl
  have hids' : (selected'.map (·.row.occurrence)).Nodup := (hperm.map _).nodup_iff.mp hids
  have hnodup := nodup_bucketOf hids identity
  have hnodup' := nodup_bucketOf hids' identity
  have hmembersPerm : ((bucketOf selected identity).map (·.1.member)).Perm
      ((bucketOf selected' identity).map (·.1.member)) := by
    rw [hmembers, hmembers]
    exact (hperm.filter _).map _
  have hmembersNodup :
      (((bucketOf selected identity).map (·.1.member)).map Member.occurrence).Nodup := by
    rw [map_map]
    simpa only [Function.comp_def, Selected.occurrence_member] using hnodup
  have hfew :
      (((bucketOf selected identity).map (·.1.member)).filter Member.wholeBuffer).length ≤ 1 := by
    rw [hmembers, filter_map, length_map, filter_filter]
    have hcount := nodup_iff_count_le_one.mp hwhole identity
    rw [List.count, countP_map, countP_filter, countP_eq_length_filter] at hcount
    refine le_trans (le_of_eq ?_) hcount
    refine congrArg List.length (filter_congr fun item _ => ?_)
    simp only [Function.comp_apply, wholeBuffer_member]
    rw [Bool.and_comm]
    rfl
  obtain ⟨ranges, refused, hmerge, -⟩ :=
    exists_merge isUtf8 ((bucketOf selected identity).map (·.1.member))
  obtain ⟨refused', hmerge', hrefused⟩ :=
    merge_perm isUtf8 hmembersPerm hmembersNodup hfew hmerge
  have hresult := groupOf_content hmerge (resultOf_spec isUtf8 identity hnodup).1
  have hresult' := groupOf_content hmerge' (resultOf_spec isUtf8 identity hnodup').1
  refine ⟨hresult.1.trans hresult'.1.symm, ?_⟩
  rw [hresult.2, hresult'.2]
  exact hrefused

theorem perm_partition :
    ((opened isUtf8 selected).flatMap Group.members ++
      (refusals isUtf8 selected).map Prod.fst).Perm (selected.map (·.row.occurrence)) := by
  have hopened := bucketed_buckets bucketKey selected.zipIdx
  have hgroups : (opened isUtf8 selected).flatMap Group.members =
      (buckets bucketKey selected.zipIdx).flatMap fun bucket =>
        landed (resultOf isUtf8 bucket).1 := by
    rw [opened, filterMap_eq_flatMap_toList, flatMap_assoc]
    refine congrArg (List.flatMap · _) (funext fun bucket => ?_)
    cases (resultOf isUtf8 bucket).1 <;> simp [landed]
  rw [hgroups, refusals, map_flatMap]
  refine (flatMap_append_perm _ _ _).trans ?_
  have hall : selected.map (·.row.occurrence) = selected.zipIdx.map (·.1.row.occurrence) := by
    conv_lhs => rw [← zipIdx_map_fst 0 selected, map_map]
    rfl
  rw [hall]
  refine .trans ?_ (hopened.perm_flatMap.map _)
  rw [map_flatMap]
  exact List.Perm.flatMap_left _ fun bucket hbucket => (landed_resultOf hids isUtf8 hbucket).2.perm

theorem exists_bucket {group : Group Id Key} (hgroup : group ∈ opened isUtf8 selected) :
    ∃ refused, Landed group.identity (bucketOf selected group.identity) (some group, refused) := by
  have hopened := bucketed_buckets bucketKey selected.zipIdx
  obtain ⟨bucket, hbucket, hresult⟩ := mem_filterMap.mp hgroup
  obtain ⟨-, hlanded⟩ := landed_resultOf hids isUtf8 hbucket
  have hidentity := hlanded.identity group hresult
  have hpair : resultOf isUtf8 bucket = (some group, (resultOf isUtf8 bucket).2) :=
    Prod.ext hresult rfl
  refine ⟨(resultOf isUtf8 bucket).2, ?_⟩
  rw [hidentity, bucketOf, ← hopened.bucket bucket hbucket, ← hpair]
  exact hlanded

theorem nodup_identity : ((opened isUtf8 selected).map Group.identity).Nodup := by
  have hkeys : (opened isUtf8 selected).map Group.identity =
      ((buckets bucketKey selected.zipIdx).filter fun bucket =>
        (resultOf isUtf8 bucket).1.isSome).map Prod.fst := by
    rw [opened, map_filterMap, ← filterMap_eq_map, filterMap_filter]
    refine filterMap_congr fun bucket hbucket => ?_
    cases hresult : (resultOf isUtf8 bucket).1 with
    | none => rfl
    | some group =>
      exact congrArg some ((landed_resultOf hids isUtf8 hbucket).2.identity group hresult)
  rw [hkeys]
  exact (bucketed_buckets bucketKey selected.zipIdx).nodup.sublist (filter_sublist.map _)

theorem nodup_firstFused : ((opened isUtf8 selected).map Group.firstFused).Nodup := by
  have hlookup : ((opened isUtf8 selected).map Group.firstFused).map
      (fun position => selected[position]?.map (GroupIdentity.of ·.row)) =
        ((opened isUtf8 selected).map Group.identity).map some := by
    rw [map_map, map_map]
    refine map_congr_left fun group hgroup => ?_
    obtain ⟨refused, hlanded⟩ := exists_bucket hids hgroup
    obtain ⟨item, hitem, hfirst, -⟩ := hlanded.first group rfl
    obtain ⟨hitem, hkey⟩ := mem_filter.mp hitem
    have hposition := mk_mem_zipIdx_iff_getElem?.mp hitem
    rw [hfirst] at hposition
    simp only [Function.comp_apply, hposition, Option.map_some]
    exact congrArg some (of_decide_eq_true hkey)
  refine List.Nodup.of_map (fun position => selected[position]?.map (GroupIdentity.of ·.row)) ?_
  rw [hlookup]
  exact (nodup_identity hids).map fun _ _ => Option.some.inj

theorem isLeast_firstFused {group : Group Id Key} (hgroup : group ∈ opened isUtf8 selected) :
    IsLeast {position | ∃ item, selected[position]? = some item ∧
      item.row.occurrence ∈ group.members} group.firstFused := by
  obtain ⟨refused, hlanded⟩ := exists_bucket hids hgroup
  constructor
  · obtain ⟨item, hitem, hfirst, hmember⟩ := hlanded.first group rfl
    refine ⟨item.1, ?_, hmember⟩
    rw [← hfirst]
    exact mk_mem_zipIdx_iff_getElem?.mp (mem_filter.mp hitem).1
  · rintro position ⟨item, hposition, hmember⟩
    refine hlanded.least group rfl (item, position) ?_ hmember
    -- The row of a landed identifier is the one the bucket has.
    obtain ⟨range, hrange, hid⟩ := mem_flatMap.mp hmember
    obtain ⟨other, hother, hsame, -⟩ := hlanded.within group rfl range hrange _ hid
    obtain ⟨hother, hkey⟩ := mem_filter.mp hother
    have hrow : other.1 = item := inj_on_of_nodup_map hids
      (mem_of_getElem? (mk_mem_zipIdx_iff_getElem?.mp hother))
      (mem_of_getElem? hposition) hsame
    exact mem_filter.mpr ⟨mk_mem_zipIdx_iff_getElem?.mpr hposition, hrow ▸ hkey⟩

/-- The order of the rows shows only in the positions. -/
theorem perm_content (hperm : selected.Perm selected')
    (hwhole : ((selected.filter (·.row.span.isNone)).map (GroupIdentity.of ·.row)).Nodup) :
    ((opened isUtf8 selected).map Group.content).Perm
        ((opened isUtf8 selected').map Group.content) ∧
      (refusals isUtf8 selected).Perm (refusals isUtf8 selected') := by
  have hopened := bucketed_buckets bucketKey selected.zipIdx
  have hopened' := bucketed_buckets bucketKey selected'.zipIdx
  have hkeys : ∀ identity, identity ∈ selected.zipIdx.map bucketKey ↔
      identity ∈ selected'.zipIdx.map bucketKey := by
    have hrows : ∀ rows : List (Selected Id Key),
        rows.zipIdx.map bucketKey = rows.map (GroupIdentity.of ·.row) := by
      intro rows
      conv_rhs => rw [← zipIdx_map_fst 0 rows, map_map]
      rfl
    intro identity
    rw [hrows, hrows, (hperm.map _).mem_iff]
  have hcontents : ∀ rows : List (Selected Id Key), (opened isUtf8 rows).map Group.content =
      (buckets bucketKey rows.zipIdx).flatMap fun bucket =>
        ((resultOf isUtf8 bucket).1.map Group.content).toList := by
    intro rows
    rw [opened, map_filterMap, filterMap_eq_flatMap_toList]
  refine ⟨?_, hopened.perm_flatMap_congr hopened' hkeys fun identity =>
    (resultOf_perm hids hperm hwhole identity).2⟩
  rw [hcontents, hcontents]
  refine hopened.perm_flatMap_congr hopened' hkeys fun identity => ?_
  exact .of_eq (congrArg Option.toList (resultOf_perm hids hperm hwhole identity).1)

end

/-- Grouping loses nothing.  Rows with distinct identifiers, at most one of a group a whole
buffer, all land in one range of one group or are refused; ranges of a group are in order
and do not touch, have the bytes their span says, and hold the bytes of each member at its
offset; groups come in the order of their first landed member; and another order of the
rows gives the same groups, ranges and refusals. -/
theorem group_lossless (isUtf8 : Bytes → Bool) (selected : List (Selected Id Key))
    (hids : (selected.map (·.row.occurrence)).Nodup)
    (hwhole : ((selected.filter (·.row.span.isNone)).map (GroupIdentity.of ·.row)).Nodup) :
    ∃ partition, group isUtf8 selected = some partition ∧
      (partition.groups.flatMap Group.members ++ partition.refused.map Prod.fst).Perm
        (selected.map (·.row.occurrence)) ∧
      (∀ group ∈ partition.groups,
        group.ranges.Pairwise (·.span.stop < ·.span.start) ∧
        ∀ range ∈ group.ranges, range.Fits ∧ ∀ id ∈ range.members, ∃ item ∈ selected,
          item.row.occurrence = id ∧ GroupIdentity.of item.row = group.identity ∧
            item.member.Within range) ∧
      (partition.groups.map Group.identity).Nodup ∧
      partition.groups.Pairwise (·.firstFused < ·.firstFused) ∧
      (∀ group ∈ partition.groups,
        IsLeast {position | ∃ item, selected[position]? = some item ∧
          item.row.occurrence ∈ group.members} group.firstFused) ∧
      ∀ selected', selected.Perm selected' → ∃ partition',
        group isUtf8 selected' = some partition' ∧
        (partition.groups.map Group.content).Perm (partition'.groups.map Group.content) ∧
        partition.refused.Perm partition'.refused := by
  refine ⟨_, group_eq hids, ?_, ?_, ?_, ?_, ?_, ?_⟩
  · exact ((perm_sortByKey.flatMap_right _).append_right _).trans (perm_partition hids)
  · intro group hgroup
    obtain ⟨refused, hlanded⟩ := exists_bucket hids (perm_sortByKey.subset hgroup)
    refine ⟨hlanded.apart group rfl, fun range hrange =>
      ⟨hlanded.fits group rfl range hrange, fun id hid => ?_⟩⟩
    obtain ⟨item, hitem, hid, hwithin⟩ := hlanded.within group rfl range hrange id hid
    obtain ⟨hitem, hkey⟩ := mem_filter.mp hitem
    exact ⟨item.1, mem_of_getElem? (mk_mem_zipIdx_iff_getElem?.mp hitem), hid,
      of_decide_eq_true hkey, hwithin⟩
  · exact (perm_sortByKey.map _).nodup_iff.mpr (nodup_identity hids)
  · have hnodup : ((sortByKey Group.firstFused (opened isUtf8 selected)).map
        Group.firstFused).Nodup := (perm_sortByKey.map _).nodup_iff.mpr (nodup_firstFused hids)
    exact (pairwise_sortByKey.and (pairwise_map.mp hnodup)).imp fun h => lt_of_le_of_ne h.1 h.2
  · intro group hgroup
    exact isLeast_firstFused hids (perm_sortByKey.subset hgroup)
  · intro selected' hperm
    obtain ⟨hgroups, hrefused⟩ := perm_content hids hperm hwhole
    refine ⟨_, group_eq ((hperm.map _).nodup_iff.mp hids), ?_, hrefused⟩
    exact ((perm_sortByKey.map _).trans hgroups).trans (perm_sortByKey.map _).symm

end

/-- Two overlapping spans and the whole buffer of one parent, and a row of its own. -/
def fourRows : List (Selected Nat Nat) :=
  let row (occurrence : Nat) (span : Option Kernel.Span) (length : UInt64) (grouping : Grouping Nat)
      (bytes : Bytes) : Selected Nat Nat :=
    { row :=
        { occurrence, revision := 1, span, payload := ⟨[], length⟩, tombstoned := false, grouping }
      bytes }
  [row 4 (some ⟨2, 4⟩) 5 (.grouped 7) [99, 100], row 3 none 2 (.nonGrouping .messages) [120, 121],
    row 2 (some ⟨1, 3⟩) 5 (.grouped 7) [98, 99], row 1 none 5 (.grouped 7) [97, 98, 99, 100, 101]]

def isAscii (bytes : Bytes) : Bool := bytes.all (· < 128)

theorem group_lossless_fourRows :
    group isAscii fourRows = some
        { groups :=
            [⟨.grouped 7, 0, [⟨⟨0, 5⟩, [97, 98, 99, 100, 101], [1, 2, 4]⟩]⟩,
              ⟨.single 3, 1, [⟨⟨0, 2⟩, [120, 121], [3]⟩]⟩]
          refused := [] } ∧
      ∃ partition, group isAscii fourRows = some partition ∧
        (partition.groups.flatMap Group.members ++ partition.refused.map Prod.fst).Perm
          [4, 3, 2, 1] := by
  obtain ⟨partition, hgroup, hperm, -⟩ := group_lossless isAscii fourRows (by decide) (by decide)
  exact ⟨by decide +kernel, partition, hgroup, hperm⟩

end Eidnara.Retrieval.Packing
