import Eidnara.Lib.Checked
import Eidnara.Lib.EntryMap
import Eidnara.Lib.Runs
import Mathlib.Algebra.BigOperators.Group.List.Basic

/-!
# Counting artifact usage

`usage.rs`: the bytes below `objects` are counted as objects are published and unlinked, each
under the writer lock, and reconciliations walk the tree entry by entry, usually without the
lock, to compare.  A walk counts only if no tree change was recorded between its snapshot and
the comparison.

The tree changes only through these steps, and its device holds fewer than 2^64 bytes.
-/

namespace Eidnara.Kernel.Cas

open Lib List

variable {Name : Type} [DecidableEq Name]

inductive Op
  | none
  /-- The fallback linked the object and has to remove it again. -/
  | rollBack
  /-- The publication is over: the bytes that landed, if it succeeded. -/
  | recordPublish (landed : Option Nat)
  /-- The unlink is over: the bytes that its stat reported. -/
  | recordUnlink (removed : Nat) (unlinked : Bool)
  deriving DecidableEq, Repr

inductive WriterLock
  | free
  | held (op : Op)
  | reconciler (thread : Nat)
  deriving DecidableEq, Repr

/-- A reconciliation; snapshots and listings are those it has taken so far. -/
inductive Reconciliation (Name : Type)
  | idle
  | begun (conclusive : Bool)
  | snapped (changes settlements : Nat)
  /-- Entries listed, those still to be read, and the bytes read. -/
  | walking (changes settlements : Nat) (listed pending : List Name) (bytes : Nat)
  | walked (changes settlements : Nat) (bytes : Option Nat)
  deriving DecidableEq, Repr

structure UsageState (Name : Type) where
  files : List (Name × Nat)
  bytes : Option Nat
  /-- Tree changes and settlements so far; the source keeps both modulo 2^64. -/
  changes : Nat
  settlements : Nat
  racedReconciliations : Nat
  lock : WriterLock
  reconciliations : Nat → Reconciliation Name
  /-- The fail-closed state. -/
  latched : Bool

namespace UsageState

/-- A store that opened on a tree, with or without a first census. -/
def opened (files : List (Name × Nat)) (seeded : Bool) : UsageState Name where
  files := files
  bytes := if seeded then some (files.map Prod.snd).sum else none
  changes := 0
  settlements := if seeded then 1 else 0
  racedReconciliations := 0
  lock := .free
  reconciliations _ := .idle
  latched := false

def total (s : UsageState Name) : Nat := (s.files.map Prod.snd).sum

def names (s : UsageState Name) : List Name := s.files.map Prod.fst

def sizeOf (s : UsageState Name) (name : Name) : Nat := (s.files.lookup name).getD 0

def setReconciliation (s : UsageState Name) (thread : Nat) (r : Reconciliation Name) :
    UsageState Name :=
  { s with reconciliations := Function.update s.reconciliations thread r }

end UsageState

inductive PublishResult
  | published
  /-- Linked by the fallback, which then cannot remove the staged name. -/
  | linked
  | alreadyExists
  | failed
  deriving DecidableEq, Repr

inductive UnlinkResult
  | unlinked
  /-- An error after the file was removed, or before. -/
  | failedAfter
  | failedBefore
  deriving DecidableEq, Repr

inductive Move (Name : Type)
  | begin
  | lock
  /-- The writer lock cannot be had. -/
  | giveUp
  | snapshot
  | startWalk
  | visit (name : Name)
  | visitNew (name : Name)
  | failWalk
  | endWalk
  | compare
  deriving DecidableEq, Repr

inductive UsageEvent (Name : Type)
  | lock
  | unlock
  | count
  | publish (name : Name) (byteLength : Nat) (result : PublishResult)
  | rollBack
  | unlink (name : Name) (result : UnlinkResult)
  | record
  | reconcile (thread : Nat) (move : Move Name)
  deriving DecidableEq, Repr

def maxRacedReconciliations : Nat := 3

def settleCensus (s : UsageState Name) : Option Nat → UsageState Name
  | none => s
  | some walked =>
    { s with
      latched := s.latched || s.bytes.any (· ≠ walked)
      bytes := some walked
      settlements := s.settlements + 1 }

def compareWalk (s : UsageState Name) (changes settlements : Nat) (walked : Option Nat) :
    UsageState Name :=
  if s.settlements % 2 ^ 64 = settlements % 2 ^ 64 then
    if s.changes % 2 ^ 64 = changes % 2 ^ 64 then
      settleCensus { s with racedReconciliations := 0 } walked
    else { s with racedReconciliations := min (s.racedReconciliations + 1) 255 }
  else s

def reconcileStep (s : UsageState Name) (thread : Nat) (move : Move Name) :
    Option (UsageState Name) :=
  match s.reconciliations thread, move with
  | .idle, .begin =>
    some (s.setReconciliation thread
      (.begun (maxRacedReconciliations ≤ s.racedReconciliations)))
  | .begun true, .lock =>
    if s.lock = .free then some { s with lock := .reconciler thread } else none
  | .begun true, .giveUp =>
    if s.lock ≠ .reconciler thread then some (s.setReconciliation thread .idle) else none
  | .begun conclusive, .snapshot =>
    if conclusive = true → s.lock = .reconciler thread then
      some (s.setReconciliation thread (.snapped s.changes s.settlements))
    else none
  | .snapped changes settlements, .startWalk =>
    some (s.setReconciliation thread (.walking changes settlements s.names s.names 0))
  | .walking changes settlements listed pending bytes, .visit name =>
    if name ∈ pending then
      some (s.setReconciliation thread (.walking changes settlements listed (pending.erase name)
        (min (bytes + s.sizeOf name) u64Max)))
    else none
  | .walking changes settlements listed pending bytes, .visitNew name =>
    if name ∈ s.names ∧ name ∉ listed then
      some (s.setReconciliation thread (.walking changes settlements (name :: listed) pending
        (min (bytes + s.sizeOf name) u64Max)))
    else none
  | .walking changes settlements _ _ _, .failWalk =>
    some (s.setReconciliation thread (.walked changes settlements none))
  | .walking changes settlements _ pending bytes, .endWalk =>
    if pending = [] then
      some (s.setReconciliation thread (.walked changes settlements (some bytes)))
    else none
  | .walked _ _ _, .lock =>
    if s.lock = .free then some { s with lock := .reconciler thread } else none
  | .walked _ _ _, .giveUp =>
    if s.lock ≠ .reconciler thread then some (s.setReconciliation thread .idle) else none
  | .walked changes settlements bytes, .compare =>
    if s.lock = .reconciler thread then
      some { (compareWalk s changes settlements bytes).setReconciliation thread .idle with
        lock := .free }
    else none
  | _, _ => none

/-- The object is in the tree, and the writer goes on with `op`. -/
def link (s : UsageState Name) (name : Name) (byteLength : Nat) (capacity : Nat) (op : Op) :
    Option (UsageState Name) :=
  if name ∉ s.names ∧ s.total + byteLength ≤ capacity then
    some { s with files := (name, byteLength) :: s.files, lock := .held op }
  else none

def publish (s : UsageState Name) (name : Name) (byteLength : Nat) (capacity : Nat) :
    PublishResult → Option (UsageState Name)
  | .published => link s name byteLength capacity (.recordPublish (some byteLength))
  | .linked => link s name byteLength capacity .rollBack
  | .alreadyExists => if name ∈ s.names then some s else none
  | .failed => some { s with lock := .held (.recordPublish none) }

def unlink (s : UsageState Name) (name : Name) (result : UnlinkResult) : UsageState Name :=
  { s with
    files := if result = .failedBefore then s.files else s.files.filter (·.1 ≠ name)
    lock := .held (.recordUnlink (s.sizeOf name) (result = .unlinked)) }

def record (s : UsageState Name) : Op → Option (UsageState Name)
  | .none | .rollBack => none
  | .recordPublish landed =>
    some { s with
      changes := s.changes + 1
      bytes := s.bytes.map fun bytes => min (bytes + landed.getD 0) u64Max
      lock := .held .none }
  | .recordUnlink removed unlinked =>
    let s := { s with changes := s.changes + 1, lock := .held .none }
    some (match s.bytes with
      | none => s
      | some bytes =>
        if !unlinked then { s with bytes := none }
        else if removed ≤ bytes then { s with bytes := some (bytes - removed) }
        else { s with bytes := none, latched := true })

/-- One step; `capacity` is what the device holds. -/
def usageStep (capacity : Nat) (s : UsageState Name) : UsageEvent Name → Option (UsageState Name)
  | .lock => if s.lock = .free then some { s with lock := .held .none } else none
  | .unlock => if s.lock = .held .none then some { s with lock := .free } else none
  | .count =>
    -- Nothing changes the tree during a walk under the lock.
    if s.lock = .held .none then some { s with bytes := some (s.bytes.getD s.total) } else none
  | .publish name byteLength result =>
    if s.lock = .held .none then publish s name byteLength capacity result else none
  | .rollBack =>
    -- The link made last is the first of the files.
    if s.lock = .held .rollBack then
      some { s with files := s.files.tail, lock := .held (.recordPublish none) }
    else none
  | .unlink name result => if s.lock = .held .none then some (unlink s name result) else none
  | .record => match s.lock with
    | .held op => record s op
    | _ => none
  | .reconcile thread move => reconcileStep s thread move

/-! ## The tree -/

variable {files : List (Name × Nat)} {name : Name}

theorem lookup_of_notMem (h : name ∉ files.map Prod.fst) : files.lookup name = none := by
  rw [lookup_eq_none_iff]
  intro file hfile
  have hne : name ≠ file.1 := fun heq => h (heq ▸ mem_map_of_mem hfile)
  simpa using hne

theorem sum_lookup (h : (files.map Prod.fst).Nodup) :
    ((files.map Prod.fst).map fun name => (files.lookup name).getD 0).sum =
      (files.map Prod.snd).sum := by
  have hlookup : ∀ file ∈ files, (files.lookup file.1).getD 0 = file.2 := by
    intro file hfile
    rw [(EntryMap.lookup_eq_some_iff h).mpr hfile, Option.getD_some]
  rw [map_map]
  exact congrArg List.sum (map_congr_left hlookup)

theorem sum_filter_ne (h : (files.map Prod.fst).Nodup) (name : Name) :
    ((files.filter (·.1 ≠ name)).map Prod.snd).sum + (files.lookup name).getD 0 =
      (files.map Prod.snd).sum := by
  induction files with
  | nil => rfl
  | cons head rest ih =>
    obtain ⟨hnot, hrest⟩ := nodup_cons.mp h
    have hih := ih hrest
    rw [EntryMap.lookup_cons, map_cons, sum_cons]
    by_cases hname : name = head.1
    · rw [hname, lookup_of_notMem hnot] at hih
      rw [if_pos hname, hname, filter_cons_of_neg (by simp)]
      simp only [Option.getD_none, Option.getD_some] at hih ⊢
      omega
    · have hne : head.1 ≠ name := fun heq => hname heq.symm
      rw [if_neg hname, filter_cons_of_pos (by simpa using hne), map_cons,
        sum_cons]
      omega

/-! ## What every step keeps -/

namespace UsageState

/-- A change of the tree is made and not counted yet. -/
def halfApplied (s : UsageState Name) : Bool :=
  match s.lock with
  | .held .rollBack | .held (.recordPublish _) | .held (.recordUnlink _ _) => true
  | _ => false

/-- Nothing changed since the snapshot, as far as can be told without the lock. -/
def Clean (s : UsageState Name) (changes : Nat) : Prop :=
  s.changes = changes ∧ s.halfApplied = false

/-- What a reconciliation knows if nothing changed since its snapshot. -/
def Knows (s : UsageState Name) : Reconciliation Name → Prop
  | .idle | .begun _ => True
  | .snapped changes _ | .walked changes _ none => changes ≤ s.changes
  | .walking changes _ listed pending bytes => changes ≤ s.changes ∧ (s.Clean changes →
      (∀ name ∈ s.names, name ∈ listed) ∧ bytes + (pending.map s.sizeOf).sum = s.total)
  | .walked changes _ (some bytes) => changes ≤ s.changes ∧ (s.Clean changes → bytes = s.total)

/-- What the count says, with the change that is still to be recorded. -/
def Counts (s : UsageState Name) : Prop :=
  match s.lock with
  | .held .rollBack => ∀ bytes, s.bytes = some bytes → bytes = (s.files.tail.map Prod.snd).sum
  | .held (.recordPublish landed) => ∀ bytes, s.bytes = some bytes →
      bytes + landed.getD 0 = s.total
  | .held (.recordUnlink removed unlinked) => unlinked = true → ∀ bytes, s.bytes = some bytes →
      bytes = s.total + removed
  | _ => ∀ bytes, s.bytes = some bytes → bytes = s.total

structure Inv (capacity : Nat) (s : UsageState Name) : Prop where
  nodup : s.names.Nodup
  fits : s.total ≤ capacity
  counts : s.Counts
  latched : s.latched = false
  knows : ∀ thread, s.Knows (s.reconciliations thread)

variable {capacity : Nat} {s s' : UsageState Name}

variable {r : Reconciliation Name}

/-- A step after which nothing looks clean that was not, and the tree is what it was. -/
theorem Knows.mono (h : s.Knows r) (hle : s.changes ≤ s'.changes)
    (hclean : ∀ changes ≤ s.changes, s'.Clean changes → s.Clean changes ∧ s'.files = s.files) :
    s'.Knows r := by
  match r with
  | .idle | .begun _ => exact trivial
  | .snapped changes _ | .walked changes _ none => exact Nat.le_trans h hle
  | .walking changes _ listed pending bytes =>
    refine ⟨Nat.le_trans h.1 hle, fun hc => ?_⟩
    obtain ⟨hc', hfiles⟩ := hclean changes h.1 hc
    have hsize : s'.sizeOf = s.sizeOf := by
      funext name
      simp only [sizeOf, hfiles]
    simpa only [names, total, hfiles, hsize] using h.2 hc'
  | .walked changes _ (some bytes) =>
    refine ⟨Nat.le_trans h.1 hle, fun hc => ?_⟩
    obtain ⟨hc', hfiles⟩ := hclean changes h.1 hc
    simpa only [total, hfiles] using h.2 hc'

/-- A change that is not counted yet leaves nothing clean. -/
theorem Knows.of_halfApplied (h : s.Knows r) (hchanges : s'.changes = s.changes)
    (hhalf : s'.halfApplied = true) : s'.Knows r :=
  h.mono (Nat.le_of_eq hchanges.symm) fun _ _ hc => by
    rw [Clean, hhalf] at hc
    cases hc.2

theorem Knows.of_lt (h : s.Knows r) (hchanges : s.changes < s'.changes) : s'.Knows r :=
  h.mono (Nat.le_of_lt hchanges) fun changes hle hc => by
    have := hc.1
    omega

end UsageState

variable {capacity : Nat} {s s' : UsageState Name}

theorem opened_inv (hnodup : (files.map Prod.fst).Nodup)
    (hfits : (files.map Prod.snd).sum ≤ capacity) (seeded : Bool) :
    (UsageState.opened files seeded).Inv capacity where
  nodup := hnodup
  fits := hfits
  counts := by
    intro bytes hbytes
    cases seeded with
    | false => cases hbytes
    | true => exact (Option.some.inj hbytes).symm
  latched := rfl
  knows _ := trivial

omit [DecidableEq Name] in
theorem UsageState.counts_iff (h : s.halfApplied = false) :
    s.Counts ↔ ∀ bytes, s.bytes = some bytes → bytes = s.total := by
  unfold Counts
  unfold halfApplied at h
  split at h
  · cases h
  · cases h
  · cases h
  · rfl

open UsageState (halfApplied counts_iff setReconciliation)

variable {thread : Nat}

section

variable (h : s.Inv capacity)

include h

theorem inv_withLock (hcalm : s.halfApplied = false) {lock : WriterLock}
    (hcalm' : { s with lock }.halfApplied = false) : { s with lock }.Inv capacity := by
  refine ⟨h.nodup, h.fits, ?_, h.latched, fun thread => ?_⟩
  · exact (counts_iff hcalm').mpr ((counts_iff hcalm).mp h.counts)
  · exact (h.knows thread).mono (Nat.le_refl _) fun changes _ hc => ⟨⟨hc.1, hcalm⟩, rfl⟩

theorem inv_withBytes (hcalm : s.halfApplied = false) {bytes : Option Nat}
    (hbytes : ∀ b, bytes = some b → b = s.total) (settlements racedReconciliations : Nat) :
    { s with bytes, settlements, racedReconciliations }.Inv capacity := by
  refine ⟨h.nodup, h.fits, ?_, h.latched, fun thread => ?_⟩
  · have hcalm' : { s with bytes, settlements, racedReconciliations }.halfApplied = false := hcalm
    exact (counts_iff hcalm').mpr hbytes
  · exact (h.knows thread).mono (Nat.le_refl _) fun changes _ hc => ⟨⟨hc.1, hcalm⟩, rfl⟩

theorem inv_setReconciliation {r : Reconciliation Name} (hr : s.Knows r) :
    (s.setReconciliation thread r).Inv capacity := by
  refine ⟨h.nodup, h.fits, h.counts, h.latched, fun other => ?_⟩
  have hknows : s.Knows ((s.setReconciliation thread r).reconciliations other) := by
    simp only [setReconciliation, Function.update_apply]
    split_ifs
    · exact hr
    · exact h.knows other
  exact hknows.mono (Nat.le_refl _) fun changes _ hc => ⟨hc, rfl⟩

theorem inv_publish (hlock : s.lock = .held .none) {byteLength : Nat} {result : PublishResult}
    (hstep : publish s name byteLength capacity result = some s') : s'.Inv capacity := by
  have hcalm : s.halfApplied = false := by simp [halfApplied, hlock]
  have hcount := (counts_iff hcalm).mp h.counts
  have hlink {op : Op} (hstep : link s name byteLength capacity op = some s')
      (hhalf : { s with lock := .held op }.halfApplied = true)
      (hcounts : { s with files := (name, byteLength) :: s.files, lock := .held op }.Counts) :
      s'.Inv capacity := by
    obtain ⟨⟨hname, hroom⟩, rfl⟩ := guarded_eq_some hstep
    exact ⟨nodup_cons.mpr ⟨hname, h.nodup⟩, (Nat.add_comm _ _).trans_le hroom, hcounts, h.latched,
      fun thread => (h.knows thread).of_halfApplied rfl hhalf⟩
  cases result with
  | published =>
    refine hlink hstep rfl fun bytes hbytes => ?_
    rw [hcount bytes hbytes]
    exact Nat.add_comm _ _
  | linked => exact hlink hstep rfl hcount
  | alreadyExists =>
    obtain ⟨-, rfl⟩ := guarded_eq_some hstep
    exact h
  | failed =>
    obtain rfl := Option.some.inj hstep
    exact ⟨h.nodup, h.fits, fun bytes hbytes => hcount bytes hbytes, h.latched,
      fun thread => (h.knows thread).of_halfApplied rfl rfl⟩

theorem inv_rollBack (hlock : s.lock = .held .rollBack) :
    { s with files := s.files.tail, lock := .held (.recordPublish none) }.Inv capacity := by
  have hcount := h.counts
  unfold UsageState.Counts at hcount
  rw [hlock] at hcount
  have htotal : (s.files.tail.map Prod.snd).sum ≤ s.total := by
    unfold UsageState.total
    cases s.files with
    | nil => exact Nat.le_refl _
    | cons file files => simp
  exact ⟨h.nodup.sublist ((tail_sublist _).map _), Nat.le_trans htotal h.fits, hcount, h.latched,
    fun thread => (h.knows thread).of_halfApplied rfl rfl⟩

theorem inv_unlink (hlock : s.lock = .held .none) (name : Name) (result : UnlinkResult) :
    (unlink s name result).Inv capacity := by
  have hcalm : s.halfApplied = false := by simp [halfApplied, hlock]
  have hcount := (counts_iff hcalm).mp h.counts
  have hsum := sum_filter_ne h.nodup name
  have htotal : (unlink s name result).total ≤ s.total := by
    unfold unlink UsageState.total
    simp only
    split_ifs
    · exact Nat.le_refl _
    · omega
  refine ⟨?_, Nat.le_trans htotal h.fits, fun hunlinked bytes hbytes => ?_, h.latched,
    fun thread => (h.knows thread).of_halfApplied rfl rfl⟩
  · unfold unlink UsageState.names
    split_ifs
    · exact h.nodup
    · exact h.nodup.sublist (filter_sublist.map _)
  · have hresult : result = .unlinked := by simpa using hunlinked
    subst hresult
    rw [hcount bytes hbytes]
    exact hsum.symm

theorem inv_record (hcapacity : capacity ≤ u64Max) {op : Op} (hlock : s.lock = .held op)
    (hstep : record s op = some s') : s'.Inv capacity := by
  have hcount := h.counts
  have hfits := h.fits
  unfold UsageState.Counts at hcount
  rw [hlock] at hcount
  cases op with
  | none | rollBack => cases hstep
  | recordPublish landed =>
    obtain rfl := Option.some.inj hstep
    refine ⟨h.nodup, h.fits, fun bytes hbytes => ?_, h.latched,
      fun thread => (h.knows thread).of_lt (Nat.lt_succ_self _)⟩
    obtain ⟨before, hbefore, rfl⟩ := Option.map_eq_some_iff.mp hbytes
    have htotal := hcount before hbefore
    exact (Nat.min_eq_left (by omega)).trans htotal
  | recordUnlink removed unlinked =>
    obtain rfl := Option.some.inj hstep
    have hknows (bytes : Option Nat) (latched : Bool) (thread : Nat) :
        { s with bytes, latched, changes := s.changes + 1, lock := .held .none }.Knows
          (s.reconciliations thread) :=
      (h.knows thread).of_lt (Nat.lt_succ_self _)
    cases hbytes : s.bytes with
    | none => exact ⟨h.nodup, h.fits, (fun _ hb => nomatch hb), h.latched, hknows _ _⟩
    | some bytes =>
      simp only
      split_ifs with hunlinked hremoved
      · exact ⟨h.nodup, h.fits, (fun _ hb => nomatch hb), h.latched, hknows _ _⟩
      · have htotal := hcount (by simpa using hunlinked) bytes hbytes
        refine ⟨h.nodup, h.fits, fun remaining hremaining => ?_, h.latched, hknows _ _⟩
        rw [← Option.some.inj hremaining, htotal, Nat.add_sub_cancel]
        rfl
      · -- The count covers what it takes off, so the latch is out of reach.
        have htotal := hcount (by simpa using hunlinked) bytes hbytes
        omega

theorem inv_compare (hchanges : s.changes < 2 ^ 64) {changes settlements : Nat} {bytes : Option Nat}
    (hwalk : s.reconciliations thread = .walked changes settlements bytes)
    (hlock : s.lock = .reconciler thread) :
    (compareWalk s changes settlements bytes).Inv capacity ∧
      (compareWalk s changes settlements bytes).lock = .reconciler thread := by
  have hcalm : s.halfApplied = false := by simp [halfApplied, hlock]
  have hcount := (counts_iff hcalm).mp h.counts
  have hknows := h.knows thread
  rw [hwalk] at hknows
  unfold compareWalk
  split_ifs with hsettlements hsame
  · cases bytes with
    | none => exact ⟨inv_withBytes h hcalm hcount _ _, hlock⟩
    | some walked =>
      have hclean : s.Clean changes := by
        refine ⟨?_, hcalm⟩
        have hle := hknows.1
        rw [Nat.mod_eq_of_lt hchanges, Nat.mod_eq_of_lt (by omega)] at hsame
        exact hsame
      have hwalked : walked = s.total := hknows.2 hclean
      have hagree : s.bytes.any (· ≠ walked) = false := by
        cases hbytes : s.bytes with
        | none => rfl
        | some b => simp [hcount b hbytes, hwalked]
      refine ⟨?_, hlock⟩
      have hinv := inv_withBytes h hcalm
        (fun b hb => (Option.some.inj hb).symm.trans hwalked) (s.settlements + 1) 0
      unfold settleCensus
      simp only [hagree, Bool.or_false]
      exact hinv
  · exact ⟨inv_withBytes h hcalm hcount _ _, hlock⟩
  · exact ⟨h, hlock⟩

theorem knows_visit (hcapacity : capacity ≤ u64Max) {changes settlements : Nat}
    {listed pending : List Name} {bytes : Nat}
    (hknows : s.Knows (.walking changes settlements listed pending bytes)) (hmem : name ∈ pending) :
    s.Knows (.walking changes settlements listed (pending.erase name)
      (min (bytes + s.sizeOf name) u64Max)) := by
  refine ⟨hknows.1, fun hclean => ?_⟩
  obtain ⟨hlisted, hsum⟩ := hknows.2 hclean
  have hfits := h.fits
  have hsplit : (pending.map s.sizeOf).sum =
      s.sizeOf name + ((pending.erase name).map s.sizeOf).sum := by
    rw [((perm_cons_erase hmem).map s.sizeOf).sum_eq, map_cons, sum_cons]
  refine ⟨hlisted, ?_⟩
  omega

theorem inv_reconcileStep (hcapacity : capacity ≤ u64Max) (hchanges : s.changes < 2 ^ 64)
    {move : Move Name} (hstep : reconcileStep s thread move = some s') : s'.Inv capacity := by
  have hknows := h.knows thread
  unfold reconcileStep at hstep
  split at hstep
  case h_1 =>
    obtain rfl := Option.some.inj hstep
    exact inv_setReconciliation h trivial
  case h_2 | h_10 =>
    obtain ⟨hfree, rfl⟩ := guarded_eq_some hstep
    exact inv_withLock h (by simp [halfApplied, hfree]) rfl
  case h_3 | h_11 =>
    obtain ⟨-, rfl⟩ := guarded_eq_some hstep
    exact inv_setReconciliation h trivial
  case h_4 =>
    obtain ⟨-, rfl⟩ := guarded_eq_some hstep
    exact inv_setReconciliation h (Nat.le_refl _)
  case h_5 hstage =>
    obtain rfl := Option.some.inj hstep
    rw [hstage] at hknows
    refine inv_setReconciliation h ⟨hknows, fun _ => ⟨fun _ hname => hname, ?_⟩⟩
    rw [Nat.zero_add]
    exact sum_lookup h.nodup
  case h_6 hstage =>
    obtain ⟨hmem, rfl⟩ := guarded_eq_some hstep
    rw [hstage] at hknows
    exact inv_setReconciliation h (knows_visit h hcapacity hknows hmem)
  case h_7 hstage =>
    obtain ⟨⟨hpresent, hnew⟩, rfl⟩ := guarded_eq_some hstep
    rw [hstage] at hknows
    -- A name that the walk did not list at its start shows that the tree changed.
    refine inv_setReconciliation h ⟨hknows.1, fun hclean => ?_⟩
    exact absurd ((hknows.2 hclean).1 _ hpresent) hnew
  case h_8 hstage =>
    obtain rfl := Option.some.inj hstep
    rw [hstage] at hknows
    exact inv_setReconciliation h hknows.1
  case h_9 hstage =>
    obtain ⟨rfl, rfl⟩ := guarded_eq_some hstep
    rw [hstage] at hknows
    exact inv_setReconciliation h ⟨hknows.1, fun hclean => by simpa using (hknows.2 hclean).2⟩
  case h_12 hstage =>
    obtain ⟨hlock, rfl⟩ := guarded_eq_some hstep
    obtain ⟨hinv, hlock'⟩ := inv_compare h hchanges hstage hlock
    have hidle : (compareWalk s _ _ _).setReconciliation thread .idle |>.Inv capacity :=
      inv_setReconciliation hinv trivial
    exact inv_withLock hidle (by simp [halfApplied, setReconciliation, hlock'])
      rfl
  case h_13 => cases hstep

end

omit [DecidableEq Name] in
theorem changes_compareWalk (changes settlements : Nat) (walked : Option Nat) :
    (compareWalk s changes settlements walked).changes = s.changes := by
  unfold compareWalk settleCensus
  split_ifs
  · cases walked <;> rfl
  · rfl
  · rfl

theorem changes_of_reconcileStep {move : Move Name}
    (hstep : reconcileStep s thread move = some s') :
    s'.changes = s.changes := by
  unfold reconcileStep at hstep
  split at hstep
  case h_1 | h_5 | h_8 =>
    obtain rfl := Option.some.inj hstep
    rfl
  case h_12 =>
    obtain ⟨-, rfl⟩ := guarded_eq_some hstep
    exact changes_compareWalk _ _ _
  case h_13 => cases hstep
  all_goals
    obtain ⟨-, rfl⟩ := guarded_eq_some hstep
    rfl

theorem changes_le_of_step {e : UsageEvent Name} (hstep : usageStep capacity s e = some s') :
    s.changes ≤ s'.changes := by
  cases e with
  | publish name byteLength result =>
    simp only [usageStep] at hstep
    split_ifs at hstep
    cases result with
    | failed =>
      obtain rfl := Option.some.inj hstep
      exact Nat.le_refl _
    | _ =>
      obtain ⟨-, rfl⟩ := guarded_eq_some hstep
      exact Nat.le_refl _
  | record =>
    simp only [usageStep] at hstep
    split at hstep
    · rename_i op hlock
      cases op with
      | none | rollBack => cases hstep
      | recordPublish landed =>
        obtain rfl := Option.some.inj hstep
        exact Nat.le_succ _
      | recordUnlink removed unlinked =>
        obtain rfl := Option.some.inj hstep
        split
        · exact Nat.le_succ _
        · split_ifs <;> exact Nat.le_succ _
    · cases hstep
  | reconcile thread move => exact Nat.le_of_eq (changes_of_reconcileStep hstep).symm
  | _ =>
    obtain ⟨-, rfl⟩ := guarded_eq_some hstep
    exact Nat.le_refl _

theorem inv_usageStep (hcapacity : capacity ≤ u64Max) {e : UsageEvent Name}
    (hstep : usageStep capacity s e = some s') (hchanges : s.changes < 2 ^ 64)
    (h : s.Inv capacity) : s'.Inv capacity := by
  cases e with
  | lock =>
    obtain ⟨hfree, rfl⟩ := guarded_eq_some hstep
    exact inv_withLock h (by simp [halfApplied, hfree]) rfl
  | unlock =>
    obtain ⟨hheld, rfl⟩ := guarded_eq_some hstep
    exact inv_withLock h (by simp [halfApplied, hheld]) rfl
  | count =>
    obtain ⟨hheld, rfl⟩ := guarded_eq_some hstep
    have hcalm : s.halfApplied = false := by simp [halfApplied, hheld]
    refine inv_withBytes h hcalm (fun b hb => ?_) _ _
    cases hbytes : s.bytes with
    | none => simpa [hbytes] using hb.symm
    | some bytes =>
      have hcount := (counts_iff hcalm).mp h.counts bytes hbytes
      simpa [hbytes, hcount] using hb.symm
  | publish name byteLength result =>
    simp only [usageStep] at hstep
    split_ifs at hstep with hheld
    exact inv_publish h hheld hstep
  | rollBack =>
    obtain ⟨hheld, rfl⟩ := guarded_eq_some hstep
    exact inv_rollBack h hheld
  | unlink name result =>
    obtain ⟨hheld, rfl⟩ := guarded_eq_some hstep
    exact inv_unlink h hheld name result
  | record =>
    simp only [usageStep] at hstep
    split at hstep
    · rename_i op hlock
      exact inv_record h hcapacity hlock hstep
    · cases hstep
  | reconcile thread move => exact inv_reconcileStep h hcapacity hchanges hstep

/-! ## Runs -/

/-- In every run of fewer than 2^64 changes a held count is the sum of the published sizes whenever
no change is half applied, and the fail-closed state is never latched. -/
theorem usage_never_drifts (hcapacity : capacity ≤ u64Max) {files : List (Name × Nat)}
    (hnodup : (files.map Prod.fst).Nodup) (hfits : (files.map Prod.snd).sum ≤ capacity)
    (seeded : Bool) {events : List (UsageEvent Name)}
    (h : runEvents (usageStep capacity) (.opened files seeded) events = some s)
    (hchanges : s.changes < 2 ^ 64) :
    (s.halfApplied = false → ∀ bytes, s.bytes = some bytes → bytes = s.total) ∧
      s.latched = false := by
  have hinv : s.changes < 2 ^ 64 → s.Inv capacity :=
    runEvents_invariant (P := fun s : UsageState Name => s.changes < 2 ^ 64 → s.Inv capacity)
      (fun hstep hs hlt => by
        have hle := changes_le_of_step hstep
        exact inv_usageStep hcapacity hstep (by omega) (hs (by omega)))
      (fun _ => opened_inv hnodup hfits seeded) h
  exact ⟨fun hcalm => (counts_iff hcalm).mp (hinv hchanges).counts,
    (hinv hchanges).latched⟩

/-- A walk that misses an object published behind it and meets one that is rolled back, and one
that sees the tree as it is. -/
def racedWalk : List (UsageEvent Nat) :=
  [.reconcile 0 .begin, .reconcile 0 .snapshot, .reconcile 0 .startWalk, .lock,
    .publish 7 5 .published, .record, .publish 9 4 .linked, .reconcile 0 (.visitNew 9), .rollBack,
    .record, .unlock, .reconcile 0 (.visit 1), .reconcile 0 .endWalk, .reconcile 0 .lock,
    .reconcile 0 .compare, .reconcile 1 .begin, .reconcile 1 .snapshot, .reconcile 1 .startWalk,
    .reconcile 1 (.visit 7), .reconcile 1 (.visit 1), .reconcile 1 .endWalk, .reconcile 1 .lock,
    .reconcile 1 .compare]

theorem usage_never_drifts_racedWalk :
    (runEvents (usageStep 100) (.opened [(1, 3)] true) racedWalk).map
        (fun s => (s.bytes, s.changes, s.settlements, s.racedReconciliations)) =
        some (some 8, 2, 2, 0) ∧
      ∃ s, runEvents (usageStep 100) (.opened [(1, 3)] true) racedWalk = some s ∧
        (s.halfApplied = false → ∀ bytes, s.bytes = some bytes → bytes = s.total) ∧
        s.latched = false := by
  have hresult : (runEvents (usageStep 100) (.opened [(1, 3)] true) racedWalk).map
      (fun s => (s.bytes, s.changes, s.settlements, s.racedReconciliations)) =
      some (some 8, 2, 2, 0) := by decide
  obtain ⟨s, hs, hfields⟩ := Option.map_eq_some_iff.mp hresult
  have hchanges : s.changes = 2 := congrArg (fun fields => fields.2.1) hfields
  exact ⟨hresult, s, hs,
    usage_never_drifts (by decide) (by decide) (by decide) true hs (by rw [hchanges]; decide)⟩

end Eidnara.Kernel.Cas
