import Eidnara.Kernel.Applicability.Reduction
import Mathlib.Data.List.Nodup
import Mathlib.Data.Prod.Lex
import Mathlib.Data.String.Basic

/-!
# Reducing many objects in one scan

`reduce_chunk` streams the rows of many objects in one order and keeps a reduction for each.  What
it records of an object depends on that object's rows alone, and says which of them is the newest.
-/

namespace Eidnara.Kernel.Applicability

open Lib List OrderDual

/-- A row, with the ordinal of the change event that wrote it. -/
structure EventRow where
  row : Observation
  ordinal : Option Nat

/-- The newer of two rows has the greater key. -/
def EventRow.key (r : EventRow) : Nat ×ₗ Nat ×ₗ String :=
  toLex (r.row.createdCommitSeq, toLex (r.ordinal.getD 0, r.row.observationId))

structure Observations where
  rows : List EventRow
  /-- The observation id is the primary key. -/
  nodup : (rows.map (·.row.observationId)).Nodup

section

variable (table : Observations) (checkoutDigest : String) (asOf : Nat)

def sortKey (entry : String × EventRow) : String ×ₗ (Nat ×ₗ Nat ×ₗ String)ᵒᵈ :=
  toLex (entry.1, toDual entry.2.key)

/-- The rows of the query, in its order. -/
def selectRows (objectIds : List String) : List (String × EventRow) :=
  ((table.rows.filter fun r =>
      likeApplicability r.row.kind && decide (r.row.createdCommitSeq ≤ asOf)).flatMap fun r =>
    (r.row.targets.filter (· ∈ objectIds)).map (·, r)).mergeSort fun a b => sortKey a ≤ sortKey b

def scanEntry (scans : String → Scan) (entry : String × EventRow) : String → Scan :=
  Function.update scans entry.1
    (scanRow checkoutDigest (scans entry.1) (entry.2.row.asOf asOf))

/-- A settled object replaces the entry of its id, one that has only invalidations does not. -/
def Scan.into (scan : Scan) (existing : Option BlockState) : Option BlockState :=
  match scan.pending.bind Reduction.finish with
  | some _ => scan.state
  | none => existing.or scan.state

def reduceChunk (states : String → Option BlockState) (objectIds : List String) :
    String → Option BlockState :=
  let scans := (selectRows table asOf objectIds).foldl (scanEntry checkoutDigest asOf)
    fun _ => ⟨none, none⟩
  fun objectId => (scans objectId).into (states objectId)

def reduceDigestStates (chunks : List (List String)) : String → Option BlockState :=
  chunks.foldl (reduceChunk table checkoutDigest asOf) fun _ => none

end

/-! ## What the rows of an object say -/

section

variable (about : EventRow → Prop) (checkoutDigest : String) (asOf : Nat)

def Live (r : EventRow) (verdict : RowMatch) : Prop :=
  about r ∧ r.row.invalidatedCommitSeq.filter (· ≤ asOf) = none ∧
    classifyRow r.row.payload r.row.kind checkoutDigest = verdict

def Invalidation (seq : Nat) : Prop :=
  ∃ r, about r ∧ classifyRow r.row.payload r.row.kind checkoutDigest ≠ .otherCheckout ∧
    r.row.invalidatedCommitSeq = some seq ∧ seq ≤ asOf

/-- A live row before this one that is unreadable or of another kind. -/
def Before (r prior : EventRow) : Prop :=
  prior.key < r.key ∧ (Live about checkoutDigest asOf prior .unreadable ∨
    Live about checkoutDigest asOf prior .sameCheckout ∧ prior.row.kind ≠ r.row.kind)

/-- The greatest of the numbers, or 0 if there are none. -/
def NewestOrZero (P : Nat → Prop) (n : Nat) : Prop :=
  (P n ∧ ∀ m, P m → m ≤ n) ∨ ((∀ m, ¬ P m) ∧ n = 0)

/-- The newest live row of the checkout gives the block, unless an unreadable one is newer. -/
structure Verdict (state : Option BlockState) : Prop where
  unreadable : state = some .unreadable ↔ ∃ u, Live about checkoutDigest asOf u .unreadable ∧
    ∀ r, Live about checkoutDigest asOf r .sameCheckout → r.key < u.key
  recorded : ∀ block, state = some (.recorded block) →
    NewestOrZero (Invalidation about checkoutDigest asOf) block.invalidatedCommitSeq ∧
      ((∃ r, Live about checkoutDigest asOf r .sameCheckout ∧
          (∀ other, Live about checkoutDigest asOf other .sameCheckout → other.key ≤ r.key) ∧
          block.observationKind = r.row.kind ∧ block.commitSeq = r.row.createdCommitSeq ∧
          block.repairIdentity = repairIdentityOf r.row ∧
          NewestOrZero (fun seq => ∃ prior, Before about checkoutDigest asOf r prior ∧
            prior.row.createdCommitSeq = seq) block.priorKindCommitSeq) ∨
        (∀ r, ¬ Live about checkoutDigest asOf r .sameCheckout) ∧
          block = .invalidated block.invalidatedCommitSeq)
  none : state = none ↔ (∀ r, ¬ Live about checkoutDigest asOf r .sameCheckout) ∧
    (∀ r, ¬ Live about checkoutDigest asOf r .unreadable) ∧
    ∀ seq, ¬ Invalidation about checkoutDigest asOf seq

end

theorem newestOrZero_of_le {P : Nat → Prop} {n : Nat} (hle : ∀ m, P m → m ≤ n)
    (hmem : P n ∨ n = 0) : NewestOrZero P n := by
  by_cases hn : P n
  · exact .inl ⟨hn, hle⟩
  · obtain rfl := hmem.resolve_left hn
    exact .inr ⟨fun m hm => hn (Nat.le_zero.mp (hle m hm) ▸ hm), rfl⟩

variable {table : Observations} {checkoutDigest objectId : String} {asOf : Nat}

section

variable {rows : List EventRow} {r : EventRow}

/-- The rows as they are read. -/
def readRows (asOf : Nat) (rows : List EventRow) : Rows := rows.map (·.row.asOf asOf)

def liveOf (checkoutDigest : String) (asOf : Nat) (rows : List EventRow) : List EventRow :=
  rows.filter fun r => (r.row.asOf asOf).invalidatedCommitSeq.isNone &&
    counts checkoutDigest (r.row.asOf asOf)

theorem liveRows_readRows :
    liveRows checkoutDigest (readRows asOf rows) =
      readRows asOf (liveOf checkoutDigest asOf rows) :=
  filter_map

theorem mem_liveOf :
    r ∈ liveOf checkoutDigest asOf rows ↔ Live (· ∈ rows) checkoutDigest asOf r .sameCheckout ∨
      Live (· ∈ rows) checkoutDigest asOf r .unreadable := by
  rw [liveOf, mem_filter, Bool.and_eq_true, Option.isNone_iff_eq_none]
  unfold Live counts
  change _ ∧ (_ ∧ (classifyRow r.row.payload r.row.kind checkoutDigest !=
    .otherCheckout) = true) ↔ _
  cases classifyRow r.row.payload r.row.kind checkoutDigest <;> simp [Observation.asOf]

theorem mem_invalidations_readRows {seq : Nat} :
    seq ∈ invalidations checkoutDigest (readRows asOf rows) ↔
      Invalidation (· ∈ rows) checkoutDigest asOf seq := by
  rw [mem_invalidations]
  unfold readRows Invalidation counts
  simp only [mem_map, exists_exists_and_eq_and, bne_iff_ne]
  refine exists_congr fun r => and_congr_right fun _ => and_congr_right fun _ => ?_
  simp [Observation.asOf, Option.filter_eq_some_iff]

theorem differs_iff {about : EventRow → Prop} {kind : String}
    (h : Live about checkoutDigest asOf r .sameCheckout ∨
      Live about checkoutDigest asOf r .unreadable) :
    differs checkoutDigest kind (r.row.asOf asOf) = true ↔
      Live about checkoutDigest asOf r .unreadable ∨
        Live about checkoutDigest asOf r .sameCheckout ∧ r.row.kind ≠ kind := by
  change (classifyRow r.row.payload r.row.kind checkoutDigest == .unreadable ||
    r.row.kind != kind) = true ↔ _
  rcases h with ⟨habout, hlive, hverdict⟩ | ⟨habout, hlive, hverdict⟩ <;>
    simp [Live, habout, hlive, hverdict]

theorem newestOrZero_invalidations :
    NewestOrZero (Invalidation (· ∈ rows) checkoutDigest asOf)
      (newest (invalidations checkoutDigest (readRows asOf rows))) := by
  refine newestOrZero_of_le (fun m hm => le_newest (mem_invalidations_readRows.mpr hm)) ?_
  exact (newest_mem_or_zero _).imp_left mem_invalidations_readRows.mp

/-- The state after a scan, by the live rows it met. -/
def stateOf (checkoutDigest : String) (asOf : Nat) (rows live : List EventRow) :
    Option BlockState :=
  Scan.state ⟨reductionOf checkoutDigest (readRows asOf live),
    newest? (invalidations checkoutDigest (readRows asOf rows))⟩

theorem verdict_of_none_live (hlive : liveOf checkoutDigest asOf rows = []) :
    Verdict (· ∈ rows) checkoutDigest asOf (stateOf checkoutDigest asOf rows []) := by
  have hnone r : ¬ Live (· ∈ rows) checkoutDigest asOf r .sameCheckout ∧
      ¬ Live (· ∈ rows) checkoutDigest asOf r .unreadable :=
    not_or.mp fun h => not_mem_nil (hlive ▸ mem_liveOf.mpr h)
  have hstate : stateOf checkoutDigest asOf rows [] =
      (newest? (invalidations checkoutDigest (readRows asOf rows))).map
        fun seq => .recorded (.invalidated seq) := rfl
  rw [hstate]
  unfold newest?
  split
  · next hempty =>
      exact ⟨by simp [hnone], by simp, by simp [hnone, ← mem_invalidations_readRows, hempty]⟩
  · next hne =>
      obtain ⟨seq, hseq⟩ := exists_mem_of_ne_nil _ hne
      refine ⟨by simp [hnone], ?_, ?_⟩
      · rintro block ⟨⟩
        exact ⟨newestOrZero_invalidations, .inr ⟨fun r => (hnone r).1, rfl⟩⟩
      · simpa [hnone] using ⟨seq, mem_invalidations_readRows.mp hseq⟩

section

variable {first : EventRow} {rest : List EventRow}
  (hlive : liveOf checkoutDigest asOf rows = first :: rest)
  (hordered : rows.Pairwise fun a b => b.key ≤ a.key)
  (hkey : ∀ a ∈ rows, ∀ b ∈ rows, a.key = b.key → a = b)

include hlive hordered

theorem pairwise_live : (first :: rest).Pairwise fun a b => b.key ≤ a.key :=
  hlive ▸ hordered.filter _

theorem le_first {other : EventRow} (h : other ∈ first :: rest) : other.key ≤ first.key := by
  rcases mem_cons.mp h with rfl | hrest
  · exact le_rfl
  · exact (pairwise_cons.mp (pairwise_live hlive hordered)).1 other hrest

include hkey

theorem lt_first {other : EventRow} (h : other ∈ first :: rest) (hne : other ≠ first) :
    other.key < first.key := by
  have hmem {r} (h : r ∈ first :: rest) : r ∈ rows := mem_of_mem_filter (hlive ▸ h)
  refine lt_of_le_of_ne (le_first hlive hordered h) fun heq => hne ?_
  exact hkey _ (hmem h) _ (hmem mem_cons_self) heq

theorem verdict_of_unreadable
    (hunreadable : Live (· ∈ rows) checkoutDigest asOf first .unreadable) :
    Verdict (· ∈ rows) checkoutDigest asOf
      (stateOf checkoutDigest asOf rows (first :: rest)) := by
  have hhead : isUnreadable checkoutDigest (first.row.asOf asOf) = true :=
    beq_iff_eq.mpr hunreadable.2.2
  have hstate : stateOf checkoutDigest asOf rows (first :: rest) = some .unreadable := by
    simp [stateOf, readRows, reductionOf, hhead, Scan.state, Reduction.finish]
  rw [hstate]
  refine ⟨iff_of_true rfl ⟨first, hunreadable, fun r hr => ?_⟩, by simp, ?_⟩
  · refine lt_first hlive hordered hkey (hlive ▸ mem_liveOf.mpr (.inl hr)) fun heq => ?_
    have hverdict := hr.2.2
    rw [heq, hunreadable.2.2] at hverdict
    cases hverdict
  · exact iff_of_false (by simp) fun h => h.2.1 first hunreadable

/-- Of the live rows behind the newest, the first that differs from it is the newest to differ. -/
theorem newestOrZero_firstDiffering
    (hsame : Live (· ∈ rows) checkoutDigest asOf first .sameCheckout) :
    NewestOrZero (fun seq => ∃ prior, Before (· ∈ rows) checkoutDigest asOf first prior ∧
        prior.row.createdCommitSeq = seq)
      (firstDiffering checkoutDigest first.row.kind (readRows asOf rest)) := by
  have hmem {r} : r ∈ first :: rest ↔ _ := hlive ▸ mem_liveOf (r := r)
  refine newestOrZero_of_le ?_ ?_
  · rintro seq ⟨prior, ⟨holder, hbefore⟩, rfl⟩
    have hlisted := hmem.mpr (hbefore.elim .inr fun hother => .inl hother.1)
    have hprior : prior ∈ rest :=
      (mem_cons.mp hlisted).resolve_left fun heq => holder.ne (congrArg EventRow.key heq)
    change (prior.row.asOf asOf).createdCommitSeq ≤ _
    refine le_firstDiffering (pairwise_map.mpr ?_) (mem_map_of_mem hprior)
      ((differs_iff (hmem.mp hlisted)).mpr hbefore)
    exact (pairwise_cons.mp (pairwise_live hlive hordered)).2.imp fun h =>
      Prod.Lex.monotone_fst _ _ h
  · refine (firstDiffering_mem_or_zero _ _ _).imp_left ?_
    rintro ⟨row, hrow, hdiffers, hcreated⟩
    obtain ⟨prior, hprior, rfl⟩ := mem_map.mp hrow
    have hlisted := mem_cons_of_mem first hprior
    have hbefore := (differs_iff (hmem.mp hlisted)).mp hdiffers
    refine ⟨prior, ⟨lt_first hlive hordered hkey hlisted fun heq => ?_, hbefore⟩, hcreated⟩
    subst heq
    rcases hbefore with hunreadable | ⟨-, hkind⟩
    · exact RowMatch.noConfusion (hsame.2.2.symm.trans hunreadable.2.2)
    · exact hkind rfl

theorem verdict_of_readable (hsame : Live (· ∈ rows) checkoutDigest asOf first .sameCheckout) :
    Verdict (· ∈ rows) checkoutDigest asOf
      (stateOf checkoutDigest asOf rows (first :: rest)) := by
  have hreadable : isUnreadable checkoutDigest (first.row.asOf asOf) = false :=
    beq_eq_false_iff_ne.mpr fun heq => RowMatch.noConfusion (hsame.2.2.symm.trans heq)
  have hle {other} (h : Live (· ∈ rows) checkoutDigest asOf other .sameCheckout ∨
      Live (· ∈ rows) checkoutDigest asOf other .unreadable) : other.key ≤ first.key :=
    le_first hlive hordered (hlive ▸ mem_liveOf.mpr h)
  change Verdict _ _ _ (Scan.state
    ⟨reductionOf checkoutDigest (first.row.asOf asOf :: readRows asOf rest), _⟩)
  rw [state_cons_readable hreadable]
  refine ⟨iff_of_false (by simp) ?_, ?_, iff_of_false (by simp) fun h => h.1 first hsame⟩
  · rintro ⟨u, hu, hnewer⟩
    exact absurd (hnewer first hsame) (hle (.inr hu)).not_gt
  · rintro block ⟨⟩
    exact ⟨newestOrZero_invalidations, .inl ⟨first, hsame, fun other h => hle (.inl h), rfl, rfl,
      rfl, newestOrZero_firstDiffering hlive hordered hkey hsame⟩⟩

end

/-- What a scan in order says of the rows. -/
theorem verdict_readRows (hordered : rows.Pairwise fun a b => b.key ≤ a.key)
    (hkey : ∀ a ∈ rows, ∀ b ∈ rows, a.key = b.key → a = b) :
    Verdict (· ∈ rows) checkoutDigest asOf
      ((readRows asOf rows).foldl (scanRow checkoutDigest) ⟨none, none⟩).state := by
  rw [foldl_scanRow, liveRows_readRows, ← stateOf]
  cases hlive : liveOf checkoutDigest asOf rows with
  | nil => exact verdict_of_none_live hlive
  | cons first rest =>
    rcases mem_liveOf.mp (hlive ▸ mem_cons_self) with hsame | hunreadable
    · exact verdict_of_readable hlive hordered hkey hsame
    · exact verdict_of_unreadable hlive hordered hkey hunreadable

end

/-! ## The stream of many objects -/

/-- The entries of an object in the stream. -/
def entriesOf (objectId : String) (entries : List (String × EventRow)) : List EventRow :=
  (entries.filter (·.1 = objectId)).map (·.2)

/-- Entries of other objects leave the scan of this one alone. -/
theorem foldl_scanEntry (entries : List (String × EventRow)) (scans : String → Scan) :
    entries.foldl (scanEntry checkoutDigest asOf) scans objectId =
      (readRows asOf (entriesOf objectId entries)).foldl (scanRow checkoutDigest)
        (scans objectId) := by
  induction entries generalizing scans with
  | nil => rfl
  | cons entry rest ih =>
    rw [foldl_cons, ih]
    unfold scanEntry entriesOf
    by_cases hentry : entry.1 = objectId
    · rw [filter_cons_of_pos (by simpa using hentry), ← hentry, Function.update_self]
      rfl
    · rw [Function.update_of_ne (Ne.symm hentry), filter_cons_of_neg (by simpa using hentry)]

def About (table : Observations) (objectId : String) (asOf : Nat) (r : EventRow) : Prop :=
  r ∈ table.rows ∧ objectId ∈ r.row.targets ∧ likeApplicability r.row.kind = true ∧
    r.row.createdCommitSeq ≤ asOf

theorem mem_entriesOf {objectIds : List String} {r : EventRow} :
    r ∈ entriesOf objectId (selectRows table asOf objectIds) ↔
      objectId ∈ objectIds ∧ About table objectId asOf r := by
  unfold entriesOf selectRows About
  simp only [mem_map, mem_filter, mem_mergeSort, mem_flatMap, Bool.and_eq_true, decide_eq_true_eq]
  constructor
  · rintro ⟨entry, ⟨⟨r, ⟨hmem, hkind, hcreated⟩, id, ⟨htarget, hid⟩, rfl⟩, rfl⟩, rfl⟩
    exact ⟨hid, hmem, htarget, hkind, hcreated⟩
  · rintro ⟨hid, hmem, htarget, hkind, hcreated⟩
    exact ⟨(objectId, r), ⟨⟨r, ⟨hmem, hkind, hcreated⟩, objectId, ⟨htarget, hid⟩, rfl⟩, rfl⟩, rfl⟩

theorem ordered_entriesOf (objectIds : List String) :
    (entriesOf objectId (selectRows table asOf objectIds)).Pairwise fun a b => b.key ≤ a.key := by
  refine pairwise_map.mpr (Pairwise.imp_of_mem ?_ (List.Pairwise.filter _ (pairwise_mergeSort
    (fun a b c hab hbc => ?_) (fun a b => ?_) _)))
  · intro a b ha hb hle
    have hsame : a.1 = b.1 := by
      rw [of_decide_eq_true (mem_filter.mp ha).2, of_decide_eq_true (mem_filter.mp hb).2]
    rcases Prod.Lex.toLex_le_toLex.mp (of_decide_eq_true hle) with hlt | ⟨-, hkey⟩
    · exact absurd hsame hlt.ne
    · exact hkey
  · exact decide_eq_true ((of_decide_eq_true hab).trans (of_decide_eq_true hbc))
  · simpa using le_total (sortKey a) (sortKey b)

theorem Observations.eq_of_key (table : Observations) {a b : EventRow} (ha : a ∈ table.rows)
    (hb : b ∈ table.rows) (h : a.key = b.key) : a = b :=
  inj_on_of_nodup_map table.nodup ha hb (congrArg (fun key => (ofLex (ofLex key).2).2) h)

theorem verdict_reduceChunk {states : String → Option BlockState} {objectIds : List String}
    (hmem : objectId ∈ objectIds)
    (hstates : states objectId = none ∨
      Verdict (About table objectId asOf) checkoutDigest asOf (states objectId)) :
    Verdict (About table objectId asOf) checkoutDigest asOf
      (reduceChunk table checkoutDigest asOf states objectIds objectId) := by
  unfold reduceChunk
  rw [foldl_scanEntry]
  have hverdict := @verdict_readRows checkoutDigest asOf
    (entriesOf objectId (selectRows table asOf objectIds)) (ordered_entriesOf objectIds) ?_
  · have habout : (· ∈ entriesOf objectId (selectRows table asOf objectIds)) =
        About table objectId asOf := by
      funext r
      rw [mem_entriesOf, and_iff_right hmem]
    rw [habout] at hverdict
    unfold Scan.into
    split
    · exact hverdict
    · rcases hstates with hnone | hverdict'
      · rwa [hnone, Option.none_or]
      · cases hexisting : states objectId with
        | none => exact hverdict
        | some state =>
          rw [hexisting] at hverdict'
          exact hverdict'
  · exact fun a ha b hb =>
      table.eq_of_key (mem_entriesOf.mp ha).2.1 (mem_entriesOf.mp hb).2.1

theorem reduceChunk_of_not_mem {states : String → Option BlockState} {objectIds : List String}
    (h : objectId ∉ objectIds) :
    reduceChunk table checkoutDigest asOf states objectIds objectId = states objectId := by
  have hempty : entriesOf objectId (selectRows table asOf objectIds) = [] :=
    eq_nil_iff_forall_not_mem.mpr fun r hr => h (mem_entriesOf.mp hr).1
  unfold reduceChunk
  rw [foldl_scanEntry, hempty]
  exact Option.or_none

/-- For every table, as-of commit and batch of ids, in chunks of any size, each object of the batch
gets what its own rows say, and no other object gets an entry. -/
theorem newest_live_row_wins (table : Observations) (checkoutDigest : String) (asOf : Nat)
    (chunks : List (List String)) (objectId : String) :
    (objectId ∈ chunks.flatten → Verdict (About table objectId asOf) checkoutDigest asOf
        (reduceDigestStates table checkoutDigest asOf chunks objectId)) ∧
      (objectId ∉ chunks.flatten →
        reduceDigestStates table checkoutDigest asOf chunks objectId = none) := by
  induction chunks using List.reverseRecOn with
  | nil => exact ⟨fun h => absurd h not_mem_nil, fun _ => rfl⟩
  | append_singleton chunks objectIds ih =>
    obtain ⟨hin, hout⟩ := ih
    unfold reduceDigestStates at hin hout ⊢
    rw [foldl_append, foldl_cons, foldl_nil, flatten_append, flatten_singleton, mem_append]
    by_cases hmem : objectId ∈ objectIds
    · refine ⟨fun _ => verdict_reduceChunk hmem ?_, fun h => absurd (.inr hmem) h⟩
      by_cases hearlier : objectId ∈ chunks.flatten
      · exact .inr (hin hearlier)
      · exact .inl (hout hearlier)
    · rw [reduceChunk_of_not_mem hmem]
      exact ⟨fun h => hin (h.resolve_right hmem), fun h => hout fun hearlier => h (.inl hearlier)⟩

def sampleRow (state : ApplicabilityState) (commitSeq : Nat) : EventRow where
  row :=
    { observationId := state.label, objectId := state.label, kind := state.observationKind
      payload := .detail ⟨observationSchema, "checkout", "", "", "", state.label, ""⟩
      sourceKind := "import", sourceId := "", sourceRevision := 1, targets := ["object"]
      createdCommitSeq := commitSeq, invalidatedCommitSeq := none }
  ordinal := some 0

/-- An object that was found stale and then current. -/
def sampleTable : Observations := ⟨[sampleRow .stale 1, sampleRow .current 2], by decide⟩

theorem newest_live_row_wins_current :
    ∃ block, reduceDigestStates sampleTable "checkout" 2 [["object"]] "object" =
      some (.recorded block) ∧ block.commitSeq = 2 := by
  have hverdict := (newest_live_row_wins sampleTable "checkout" 2 [["object"]] "object").1 (by simp)
  have hcurrent : Live (About sampleTable "object" 2) "checkout" 2 (sampleRow .current 2)
      .sameCheckout :=
    ⟨⟨by simp [sampleTable], by decide, by decide, by decide⟩, rfl, by decide⟩
  have hrows : ∀ r ∈ sampleTable.rows,
      classifyRow r.row.payload r.row.kind "checkout" = .sameCheckout := by decide
  cases hstate : reduceDigestStates sampleTable "checkout" 2 [["object"]] "object" with
  | none => exact absurd hcurrent ((hverdict.none.mp hstate).1 _)
  | some state =>
    cases state with
    | unreadable =>
      obtain ⟨u, ⟨hu, -, hclass⟩, -⟩ := hverdict.unreadable.mp hstate
      rw [hrows u hu.1] at hclass
      cases hclass
    | recorded block =>
      refine ⟨block, rfl, ?_⟩
      obtain ⟨-, ⟨r, hr, hnewest, -, hseq, -⟩ | ⟨hnone, -⟩⟩ := hverdict.recorded block hstate
      · rw [hseq]
        have hmem := hr.1.1
        simp only [sampleTable, mem_cons, not_mem_nil, or_false] at hmem
        rcases hmem with rfl | rfl
        · exact absurd (hnewest _ hcurrent) (by decide)
        · rfl
      · exact absurd hcurrent (hnone _)

end Eidnara.Kernel.Applicability
