import Eidnara.Kernel.Applicability.Records
import Mathlib.Data.List.Induction

/-!
# Reducing the records of an object

The reducer walks an object's rows newest first and settles its verdict at the newest change of
kind, while every invalidation still counts.  The generation it derives for a kind turns out to be
the commit of the newest event that a repair of this kind must not pass over: a record of another
kind, an unreadable record, or an invalidation.
-/

namespace Eidnara.Kernel.Applicability

open Lib List

def repairProducer : String := "applicability-engine"

structure InjectionBlock where
  observationKind : String
  commitSeq : Nat
  /-- The newest row of another kind, or 0. -/
  priorKindCommitSeq : Nat
  /-- The newest invalidation, or 0. -/
  invalidatedCommitSeq : Nat
  /-- The key of the repair that wrote the newest row. -/
  repairIdentity : String
deriving DecidableEq, Repr

namespace InjectionBlock

/-- All records were invalidated: nothing blocks, but the generation moved on. -/
def invalidated (invalidatedCommitSeq : Nat) : InjectionBlock :=
  ⟨"", 0, 0, invalidatedCommitSeq, ""⟩

end InjectionBlock

inductive BlockState where
  | recorded (block : InjectionBlock)
  | unreadable
deriving DecidableEq, Repr

inductive Reduction where
  | latest
  | priorKind (block : InjectionBlock)
  | done (block : InjectionBlock)
  | unreadable
deriving DecidableEq, Repr

def Reduction.finish : Reduction → Option BlockState
  | latest => none
  | priorKind block => some (.recorded block)
  | done block => some (.recorded block)
  | unreadable => some .unreadable

structure Scan where
  pending : Option Reduction
  invalidation : Option Nat
deriving DecidableEq, Repr

/-- The identity of a row, if the engine wrote it. -/
def repairIdentityOf (row : Observation) : String :=
  if row.sourceKind = repairProducer then row.sourceId else ""

def settleUnreadable (row : Observation) : Option Reduction → Reduction
  | some (.priorKind block) => .done { block with priorKindCommitSeq := row.createdCommitSeq }
  | some (.done block) => .done block
  | some .unreadable => .unreadable
  | some .latest => .unreadable
  | none => .unreadable

def settleMatch (row : Observation) : Option Reduction → Reduction
  | some (.done block) => .done block
  | some .unreadable => .unreadable
  | some (.priorKind block) =>
    if block.observationKind = row.kind then .priorKind block
    else .done { block with priorKindCommitSeq := row.createdCommitSeq }
  | _ => .priorKind ⟨row.kind, row.createdCommitSeq, 0, 0, repairIdentityOf row⟩

def scanRow (checkoutDigest : String) (scan : Scan) (row : Observation) : Scan :=
  let matched := classifyRow row.payload row.kind checkoutDigest
  match row.invalidatedCommitSeq with
  | some invalidated =>
    if matched = .otherCheckout then scan
    else { scan with invalidation := some (max (scan.invalidation.getD 0) invalidated) }
  | none =>
    match matched with
    | .otherCheckout => scan
    | .unreadable => { scan with pending := some (settleUnreadable row scan.pending) }
    | .sameCheckout => { scan with pending := some (settleMatch row scan.pending) }

def Scan.state (scan : Scan) : Option BlockState :=
  match scan.pending.bind Reduction.finish with
  | some (.recorded block) =>
    some (.recorded { block with invalidatedCommitSeq := scan.invalidation.getD 0 })
  | some .unreadable => some .unreadable
  | none => scan.invalidation.map fun invalidated => .recorded (.invalidated invalidated)

/-! ## The scan, row by row -/

section

variable {checkoutDigest kind : String} {row : Observation} {rows : Rows}

/-- A row that counts for the checkout: it is of this one, or it may be. -/
def counts (checkoutDigest : String) (row : Observation) : Bool :=
  classifyRow row.payload row.kind checkoutDigest != .otherCheckout

def isUnreadable (checkoutDigest : String) (row : Observation) : Bool :=
  classifyRow row.payload row.kind checkoutDigest == .unreadable

/-- A row that a repair of a kind must not pass over. -/
def differs (checkoutDigest kind : String) (row : Observation) : Bool :=
  isUnreadable checkoutDigest row || row.kind != kind

def liveRows (checkoutDigest : String) (rows : Rows) : Rows :=
  rows.filter fun row => row.invalidatedCommitSeq.isNone && counts checkoutDigest row

def invalidations (checkoutDigest : String) (rows : Rows) : List Nat :=
  (rows.filter (counts checkoutDigest)).filterMap (·.invalidatedCommitSeq)

def reductionOf (checkoutDigest : String) : Rows → Option Reduction
  | [] => none
  | row :: rest =>
    if isUnreadable checkoutDigest row then some .unreadable
    else
      let block : InjectionBlock := ⟨row.kind, row.createdCommitSeq, 0, 0, repairIdentityOf row⟩
      match rest.find? (differs checkoutDigest row.kind) with
      | none => some (.priorKind block)
      | some prior => some (.done { block with priorKindCommitSeq := prior.createdCommitSeq })

def newest (seqs : List Nat) : Nat := seqs.foldl max 0

theorem newest_append_singleton (seqs : List Nat) (seq : Nat) :
    newest (seqs ++ [seq]) = max (newest seqs) seq := by
  unfold newest
  rw [foldl_append]
  rfl

theorem newest_spec (seqs : List Nat) :
    newest seqs ∈ 0 :: seqs ∧ ∀ seq ∈ 0 :: seqs, seq ≤ newest seqs :=
  max?_eq_some_iff.mp rfl

theorem le_newest {seqs : List Nat} {seq : Nat} (h : seq ∈ seqs) : seq ≤ newest seqs :=
  (newest_spec seqs).2 seq (mem_cons_of_mem _ h)

theorem newest_mem_or_zero (seqs : List Nat) : newest seqs ∈ seqs ∨ newest seqs = 0 :=
  (mem_cons.mp (newest_spec seqs).1).symm

theorem settleUnreadable_reductionOf (hunreadable : isUnreadable checkoutDigest row = true) :
    some (settleUnreadable row (reductionOf checkoutDigest rows)) =
      reductionOf checkoutDigest (rows ++ [row]) := by
  cases rows with
  | nil =>
    simp only [nil_append, reductionOf, hunreadable, if_true]
    rfl
  | cons first rest =>
    have hdiffers : differs checkoutDigest first.kind row = true := by
      unfold differs
      rw [hunreadable]
      rfl
    simp only [cons_append, reductionOf, find?_append, find?_singleton, hdiffers]
    by_cases hfirst : isUnreadable checkoutDigest first = true
    · rw [if_pos hfirst, if_pos hfirst]
      rfl
    · rw [if_neg hfirst, if_neg hfirst]
      cases rest.find? (differs checkoutDigest first.kind) with
      | none => rfl
      | some prior => rfl

theorem settleMatch_reductionOf (hreadable : isUnreadable checkoutDigest row = false) :
    some (settleMatch row (reductionOf checkoutDigest rows)) =
      reductionOf checkoutDigest (rows ++ [row]) := by
  cases rows with
  | nil =>
    simp only [nil_append, reductionOf, hreadable]
    rfl
  | cons first rest =>
    simp only [cons_append, reductionOf, find?_append, find?_singleton]
    by_cases hfirst : isUnreadable checkoutDigest first = true
    · rw [if_pos hfirst, if_pos hfirst]
      rfl
    · rw [if_neg hfirst, if_neg hfirst]
      cases rest.find? (differs checkoutDigest first.kind) with
      | some prior => rfl
      | none =>
        have hdiffers : differs checkoutDigest first.kind row = (row.kind != first.kind) := by
          unfold differs
          rw [hreadable, Bool.false_or]
        rw [hdiffers]
        by_cases hkind : first.kind = row.kind
        · simp [settleMatch, hkind]
        · simp [settleMatch, hkind, Ne.symm hkind]

def newest? (seqs : List Nat) : Option Nat := if seqs = [] then none else some (newest seqs)

theorem getD_newest? (seqs : List Nat) : (newest? seqs).getD 0 = newest seqs := by
  unfold newest?
  split
  · next hempty =>
      subst hempty
      rfl
  · rfl

theorem newest?_append_singleton (seqs : List Nat) (seq : Nat) :
    newest? (seqs ++ [seq]) = some (max ((newest? seqs).getD 0) seq) := by
  rw [getD_newest?, ← newest_append_singleton]
  exact if_neg (by simp)

theorem liveRows_append (rows others : Rows) :
    liveRows checkoutDigest (rows ++ others) =
      liveRows checkoutDigest rows ++ liveRows checkoutDigest others :=
  filter_append _ _

theorem invalidations_append (rows others : Rows) :
    invalidations checkoutDigest (rows ++ others) =
      invalidations checkoutDigest rows ++ invalidations checkoutDigest others := by
  unfold invalidations
  rw [filter_append, filterMap_append]

theorem foldl_scanRow (rows : Rows) :
    rows.foldl (scanRow checkoutDigest) ⟨none, none⟩ =
      ⟨reductionOf checkoutDigest (liveRows checkoutDigest rows),
        newest? (invalidations checkoutDigest rows)⟩ := by
  induction rows using List.reverseRecOn with
  | nil => rfl
  | append_singleton rows row ih =>
    rw [foldl_append, ih, liveRows_append, invalidations_append]
    have hlive : liveRows checkoutDigest [row] =
        if row.invalidatedCommitSeq.isNone && counts checkoutDigest row then [row] else [] :=
      filter_cons
    have hinvalid : invalidations checkoutDigest [row] =
        if counts checkoutDigest row then row.invalidatedCommitSeq.toList else [] := by
      unfold invalidations
      rw [filter_cons, filter_nil]
      split
      · cases hcase : row.invalidatedCommitSeq <;> simp [hcase]
      · rfl
    rw [hlive, hinvalid, foldl_cons, foldl_nil]
    unfold scanRow counts
    cases hcase : row.invalidatedCommitSeq with
    | some invalidated =>
      by_cases hmatch : classifyRow row.payload row.kind checkoutDigest = .otherCheckout
      · simp [hmatch]
      · simp [hmatch, newest?_append_singleton]
    | none =>
      cases hmatch : classifyRow row.payload row.kind checkoutDigest with
      | otherCheckout => simp
      | unreadable =>
        have hunreadable : isUnreadable checkoutDigest row = true := by
          unfold isUnreadable
          rw [hmatch]
          rfl
        simp [settleUnreadable_reductionOf hunreadable]
      | sameCheckout =>
        have hreadable : isUnreadable checkoutDigest row = false := by
          unfold isUnreadable
          rw [hmatch]
          rfl
        simp [settleMatch_reductionOf hreadable]

/-! ## The generation -/

/-- The newest live row that a repair of a kind must not pass over, or 0. -/
def firstDiffering (checkoutDigest kind : String) (rows : Rows) : Nat :=
  ((rows.find? (differs checkoutDigest kind)).map (·.createdCommitSeq)).getD 0

/-- A readable newest row gives the block. -/
theorem state_cons_readable (hreadable : isUnreadable checkoutDigest row = false)
    (seqs : List Nat) :
    Scan.state ⟨reductionOf checkoutDigest (row :: rows), newest? seqs⟩ =
      some (.recorded ⟨row.kind, row.createdCommitSeq, firstDiffering checkoutDigest row.kind rows,
        newest seqs, repairIdentityOf row⟩) := by
  unfold firstDiffering
  cases hprior : rows.find? (differs checkoutDigest row.kind) <;>
    simp [Scan.state, reductionOf, hreadable, hprior, Reduction.finish, getD_newest?]

/-- In rows newest first, the first that differs is the newest that does. -/
theorem le_firstDiffering
    (hordered : rows.Pairwise fun a b => b.createdCommitSeq ≤ a.createdCommitSeq)
    (hmem : row ∈ rows) (hdiffers : differs checkoutDigest kind row = true) :
    row.createdCommitSeq ≤ firstDiffering checkoutDigest kind rows := by
  unfold firstDiffering
  induction rows with
  | nil => cases hmem
  | cons first rest ih =>
    rw [pairwise_cons] at hordered
    by_cases hfirst : differs checkoutDigest kind first = true
    · rw [find?_cons_of_pos hfirst, Option.map_some, Option.getD_some]
      rcases mem_cons.mp hmem with rfl | hrest
      · exact Nat.le_refl _
      · exact hordered.1 row hrest
    · rw [find?_cons_of_neg hfirst]
      rcases mem_cons.mp hmem with rfl | hrest
      · exact absurd hdiffers hfirst
      · exact ih hordered.2 hrest

theorem firstDiffering_mem_or_zero (checkoutDigest kind : String) (rows : Rows) :
    (∃ row ∈ rows, differs checkoutDigest kind row = true ∧
      row.createdCommitSeq = firstDiffering checkoutDigest kind rows) ∨
      firstDiffering checkoutDigest kind rows = 0 := by
  unfold firstDiffering
  cases hfind : rows.find? (differs checkoutDigest kind) with
  | none => exact .inr rfl
  | some row => exact .inl ⟨row, mem_of_find?_eq_some hfind, find?_some hfind, rfl⟩

/-! ## Events -/

variable {objectId : String} {tip asOf : Nat}

theorem mem_invalidations {seq : Nat} :
    seq ∈ invalidations checkoutDigest rows ↔
      ∃ row ∈ rows, counts checkoutDigest row = true ∧ row.invalidatedCommitSeq = some seq := by
  unfold invalidations
  simp only [mem_filterMap, mem_filter, and_assoc]

end

end Eidnara.Kernel.Applicability
