import Eidnara.Daemon.Packing.Ledger

/-!
# Required and optional content under one budget

`packing/mod.rs`: required occurrences are rendered first, then every group of the optional
partition is priced on the render as it stands and committed if the budget covers it, and the
block is closed.  What reads, judges and loads the rows is before this; the rows, their bytes and
the partition are given.
-/

namespace Eidnara.Daemon.Packing

open Lib Utf8 Tokenizer List
open Retrieval.Packing (Group SelectedOccurrence)

/-- The answers of a budget to successive polls.  Once exhausted it stays so. -/
structure EvalBudget where
  isExhausted : Nat → Bool
  latched : ∀ poll, isExhausted poll = true → isExhausted (poll + 1) = true

section

variable {Id Key : Type}

inductive AccountingBound where
  | renderedBytes | estimatedTokens
deriving DecidableEq, Repr

structure AccountingExceeded where
  bound : AccountingBound
  value : Nat
  limit : Nat
deriving DecidableEq, Repr

structure AccountingBounds where
  maxRenderedBytes : Nat
  maxEstimatedTokens : Nat
deriving DecidableEq, Repr

inductive RequiredContextFailure (Id : Type) where
  | corrupt (occurrence : Id)
  | overBudget (limit charged : Nat)
deriving DecidableEq, Repr

inductive PreparationRefusal (Id : Type) where
  | required (failure : RequiredContextFailure Id)
  | accounting (exceeded : AccountingExceeded)
  | closeOverBudget (limit charged : Nat)
  | optionalCostOverflow (position : Nat)
  | deadline
deriving DecidableEq, Repr

def admitRender (ledger : Ledger Id) (bounds : AccountingBounds) :
    Except (PreparationRefusal Id) Unit :=
  if bounds.maxRenderedBytes < ledger.renderedBytes then
    .error (.accounting ⟨.renderedBytes, ledger.renderedBytes, bounds.maxRenderedBytes⟩)
  else if bounds.maxEstimatedTokens < ledger.totalWithHeadroom then
    .error (.accounting ⟨.estimatedTokens, ledger.totalWithHeadroom, bounds.maxEstimatedTokens⟩)
  else .ok ()

def deadline (budget : EvalBudget) (poll : Nat) : Except (PreparationRefusal Id) Unit :=
  if budget.isExhausted poll then .error .deadline else .ok ()

/-! ## Required content -/

structure MaterializedRequired (Id : Type) where
  occurrence : Id
  revision : Int
  bytes : Bytes
  cost : Nat

structure RequiredMaterialization (Id : Type) where
  items : List (MaterializedRequired Id)
  charged : Nat
  remaining : Nat
  ledger : Ledger Id

variable (classes : Classes) (texts : Texts Id)

/-- Renders the items one after the other; a sum over the limit names what it came to. -/
def reserveItems (tokenLimit : Nat) :
    List (SelectedOccurrence Id Key × Bytes) → Nat → Ledger Id →
      Except (RequiredContextFailure Id) (List (MaterializedRequired Id) × Ledger Id)
  | [], _, ledger => .ok ([], ledger)
  | (row, bytes) :: items, charged, ledger =>
    if bytes.length ≠ row.payload.byteLength.toNat then .error (.corrupt row.occurrence)
    else
      let appended := ledger.append classes (.required row.occurrence)
        (requiredFragment texts row.occurrence bytes)
      let cost := appended.2.withHeadroom
      match checkedAdd 64 charged cost with
      | none => .error (.overBudget tokenLimit u64Max)
      | some sum =>
        if sum ≤ tokenLimit then do
          let reserved ← reserveItems tokenLimit items sum appended.1
          .ok (⟨row.occurrence, row.revision, bytes, cost⟩ :: reserved.1, reserved.2)
        else .error (.overBudget tokenLimit sum)

def reserveRequired (tokenLimit : Nat) (rows : List (SelectedOccurrence Id Key))
    (bytes : List Bytes) (ledger : Ledger Id) :
    Except (RequiredContextFailure Id) (List (MaterializedRequired Id) × Ledger Id) :=
  match rows[bytes.length]? with
  | some unloaded => .error (.corrupt unloaded.occurrence)
  | none => reserveItems classes texts tokenLimit (rows.zip bytes) 0 ledger

/-- `prepare_required` once the payloads are loaded. -/
def prepareRequired (profile : AccountingProfile) (budget : EvalBudget) (tokenLimit : UInt64)
    (accounting : AccountingBounds) (rows : List (SelectedOccurrence Id Key)) (bytes : List Bytes) :
    Except (PreparationRefusal Id) (RequiredMaterialization Id) := do
  deadline budget 0
  let ledger := Ledger.opened classes profile
  let blockOpen := ledger.totalWithHeadroom
  match checkedSub tokenLimit.toNat blockOpen with
  | none => .error (.required (.overBudget tokenLimit.toNat blockOpen))
  | some itemsLimit =>
    match reserveRequired classes texts itemsLimit rows bytes ledger with
    | .error (.overBudget _ charged) =>
      .error (.required (.overBudget tokenLimit.toNat (saturatingAdd charged blockOpen)))
    | .error failure => .error (.required failure)
    | .ok reserved => do
      deadline budget 1
      admitRender reserved.2 accounting
      .ok { items := reserved.1
            charged := reserved.2.totalWithHeadroom
            remaining := (checkedSub tokenLimit.toNat reserved.2.totalWithHeadroom).getD 0
            ledger := reserved.2 }

/-! ## Optional content -/

structure CostedGroup (Id Key : Type) where
  index : Nat
  group : Group Id Key
  cost : Nat

structure Scan where
  admitted : List Nat
  skipped : List Nat
  remaining : Nat
deriving DecidableEq, Repr

/-- An item is admitted if its cost is covered, and skipped otherwise. -/
def visit {σ : Type} (marginal : σ → Nat → Nat × σ) (admitOne : σ → Nat → σ) (acc : Scan × σ)
    (index : Nat) : Scan × σ :=
  let priced := marginal acc.2 index
  match checkedSub acc.1.remaining priced.1 with
  | some left =>
    ({ acc.1 with remaining := left, admitted := acc.1.admitted ++ [index] },
      admitOne priced.2 index)
  | none => ({ acc.1 with skipped := acc.1.skipped ++ [index] }, priced.2)

def skipAndContinue {σ : Type} (marginal : σ → Nat → Nat × σ) (admitOne : σ → Nat → σ)
    (budget count : Nat) (state : σ) : Scan × σ :=
  (List.range count).foldl (visit marginal admitOne) (⟨[], [], budget⟩, state)

structure Pricing (Id : Type) where
  ledger : Ledger Id
  staged : Option (Staged Id)
  costs : List Nat
  overflow : Option Nat

def priceGroup (budget : EvalBudget) (groups : List (Group Id Key)) (state : Pricing Id)
    (index : Nat) : Nat × Pricing Id :=
  if budget.isExhausted index then (u64Max, { state with costs := state.costs ++ [u64Max] })
  else
    match groups[index]? with
    | none => (u64Max, state)
    | some group =>
      let priced := state.ledger.stage (groupFragments texts index group)
      match priced.cost with
      | none =>
        (u64Max, { state with overflow := state.overflow.or (some group.firstFused),
                              costs := state.costs ++ [u64Max] })
      | some cost =>
        (cost, { state with costs := state.costs ++ [cost], staged := some priced })

def commitStaged (state : Pricing Id) : Pricing Id :=
  match state.staged with
  | none => state
  | some priced => { state with ledger := state.ledger.commit classes priced, staged := none }

structure OptionalAdmission (Id Key : Type) where
  base : Ledger Id
  ledger : Ledger Id
  admitted : List (CostedGroup Id Key)
  skipped : List (CostedGroup Id Key)
  remaining : Nat

def scanGroups (budget : EvalBudget) (groups : List (Group Id Key)) (scanBudget : Nat)
    (base : Ledger Id) (count : Nat) : Scan × Pricing Id :=
  skipAndContinue (priceGroup texts budget groups) (fun state _ => commitStaged classes state)
    scanBudget count ⟨base, none, [], none⟩

def costedGroups (groups : List (Group Id Key)) (costs : List Nat) : List (CostedGroup Id Key) :=
  (groups.zip costs).zipIdx.map fun item => ⟨item.2, item.1.1, item.1.2⟩

/-- `prepare_optional` once the partition is made. -/
def prepareOptional (budget : EvalBudget) (accounting : AccountingBounds)
    (required : RequiredMaterialization Id) (groups : List (Group Id Key)) :
    Except (PreparationRefusal Id) (OptionalAdmission Id Key) :=
  let closeReserve := (required.ledger.delta blockCloseFragment).withHeadroom
  match checkedSub required.remaining closeReserve with
  | none => .error (.required (.overBudget (saturatingAdd required.charged required.remaining)
      (saturatingAdd required.charged closeReserve)))
  | some scanBudget => do
    let scanned := scanGroups classes texts budget groups scanBudget required.ledger
      groups.length
    deadline budget groups.length
    match scanned.2.overflow with
    | some position => .error (.optionalCostOverflow position)
    | none => do
      let closed := scanned.2.ledger.close classes
      deadline budget (groups.length + 1)
      match (checkedAdd 64 scanned.1.remaining closeReserve).bind
          (checkedSub · closed.2.withHeadroom) with
      | none => .error (.closeOverBudget (saturatingAdd required.charged required.remaining)
          closed.1.totalWithHeadroom)
      | some remaining => do
        admitRender closed.1 accounting
        let costed := costedGroups groups scanned.2.costs
        .ok { base := required.ledger
              ledger := closed.1
              admitted := costed.filter fun group => group.index ∈ scanned.1.admitted
              skipped := costed.filter fun group => group.index ∉ scanned.1.admitted
              remaining := remaining }

/-! ## The budget of the required content -/

variable {classes texts}

theorem reserveItems_ok {tokenLimit : Nat} {items : List (SelectedOccurrence Id Key × Bytes)}
    {charged : Nat} {ledger : Ledger Id} {reserved : List (MaterializedRequired Id) × Ledger Id}
    (h : reserveItems classes texts tokenLimit items charged ledger = .ok reserved)
    (hcharged : charged ≤ tokenLimit) (hsummed : ledger.Summed) :
    reserved.2.Summed ∧ ∃ sum ≤ tokenLimit,
      Ledger.headroomSum reserved.2.entries + charged =
        Ledger.headroomSum ledger.entries + sum := by
  induction items generalizing charged ledger reserved with
  | nil =>
    obtain rfl := Except.ok.inj h
    exact ⟨hsummed, charged, hcharged, rfl⟩
  | cons item items ih =>
    obtain ⟨row, bytes⟩ := item
    rw [reserveItems] at h
    split_ifs at h with hbytes
    simp only at h
    split at h
    · cases h
    · rename_i sum hsum
      obtain ⟨rfl, -⟩ := checkedAdd_some hsum
      split_ifs at h with hlimit
      obtain ⟨rest, hrest, hok⟩ := bind_eq_ok_iff.mp h
      obtain rfl := Except.ok.inj hok
      obtain ⟨hfinal, total, htotal, hentries⟩ := ih hrest hlimit (hsummed.commit classes _)
      refine ⟨hfinal, total, htotal, ?_⟩
      rw [Ledger.append_entries, Ledger.headroomSum_append] at hentries
      have hone : Ledger.headroomSum [(⟨.required row.occurrence,
          (utf8 (requiredFragment texts row.occurrence bytes)).length,
          ledger.delta (requiredFragment texts row.occurrence bytes)⟩ : LedgerEntry Id)] =
          (ledger.delta (requiredFragment texts row.occurrence bytes)).withHeadroom := rfl
      simp only [Ledger.append] at hentries ⊢
      omega

theorem uint64_le (limit : UInt64) : limit.toNat ≤ u64Max := by
  have := limit.toNat_lt
  unfold u64Max
  omega

variable {budget : EvalBudget} {accounting : AccountingBounds}
  {required : RequiredMaterialization Id}

theorem prepareRequired_ok {profile : AccountingProfile} {tokenLimit : UInt64}
    {rows : List (SelectedOccurrence Id Key)} {bytes : List Bytes}
    (h : prepareRequired classes texts profile budget tokenLimit accounting rows bytes =
      .ok required) :
    required.ledger.Summed ∧ Ledger.headroomSum required.ledger.entries = required.charged ∧
      required.charged + required.remaining = tokenLimit.toNat := by
  obtain ⟨-, -, h⟩ := bind_eq_ok_iff.mp h
  have hopened := @Ledger.summed_opened Id classes profile
  have hblockOpen := hopened.total_eq (Ledger.headroomSum_opened_le classes profile)
  have hmax := uint64_le tokenLimit
  simp only at h
  split at h
  · cases h
  · rename_i itemsLimit hitems
    have hlimit := checkedSub_some hitems
    split at h
    · cases h
    · cases h
    · rename_i reserved hreserved
      obtain ⟨-, -, h⟩ := bind_eq_ok_iff.mp h
      obtain ⟨-, -, h⟩ := bind_eq_ok_iff.mp h
      obtain rfl := Except.ok.inj h
      have hloop : reserveItems classes texts itemsLimit (rows.zip bytes) 0
          (Ledger.opened classes profile) = .ok reserved := by
        unfold reserveRequired at hreserved
        split at hreserved
        · cases hreserved
        · exact hreserved
      obtain ⟨hsummed, sum, hsum, hentries⟩ := reserveItems_ok hloop (Nat.zero_le _) hopened
      have htotal := hsummed.total_eq (by omega)
      refine ⟨hsummed, htotal.symm, ?_⟩
      simp only
      rw [checkedSub_of_le (by omega), Option.getD_some]
      omega

/-! ## The scan of the optional groups -/

variable (classes texts) in
def renderGroups (base : Ledger Id) (groups : List (CostedGroup Id Key)) : Ledger Id :=
  groups.foldl (fun ledger group =>
    ledger.commit classes (ledger.stage (groupFragments texts group.index group.group))) base

def chosen (groups : List (Group Id Key)) (acc : Scan × Pricing Id) : List (CostedGroup Id Key) :=
  (costedGroups groups acc.2.costs).filter fun group => group.index ∈ acc.1.admitted

variable (classes texts) in
structure ScanInv (base : Ledger Id) (groups : List (Group Id Key)) (n : Nat)
    (acc : Scan × Pricing Id) : Prop where
  costs : acc.2.costs.length = n
  ledger : acc.2.ledger = renderGroups classes texts base (chosen groups acc)
  bounded : ∀ index ∈ acc.1.admitted, index < n

variable {groups : List (Group Id Key)}

theorem costedGroups_concat {costs : List Nat} {group : Group Id Key}
    (hgroup : groups[costs.length]? = some group) (cost : Nat) :
    costedGroups groups (costs ++ [cost]) =
      costedGroups groups costs ++ [⟨costs.length, group, cost⟩] := by
  obtain ⟨before, after, rfl, hlength⟩ : ∃ before after, groups = before ++ group :: after ∧
      before.length = costs.length := by
    obtain ⟨hlt, rfl⟩ := List.getElem?_eq_some_iff.mp hgroup
    refine ⟨groups.take costs.length, groups.drop (costs.length + 1), ?_, by simp; omega⟩
    rw [getElem_cons_drop, take_append_drop]
  have hzip : (before ++ group :: after).zip costs = before.zip costs := by
    have happend : (before ++ group :: after).zip (costs ++ []) =
        before.zip costs ++ (group :: after).zip [] := zip_append hlength
    rwa [append_nil, zip_nil_right, append_nil] at happend
  rw [costedGroups, costedGroups, zip_append hlength, hzip, zip_cons_cons,
    zip_nil_right, zipIdx_append, map_append, length_zip, hlength]
  simp

theorem index_lt_of_mem_costedGroups {costs : List Nat} {group : CostedGroup Id Key}
    (h : group ∈ costedGroups groups costs) : group.index < costs.length := by
  obtain ⟨item, hitem, rfl⟩ := mem_map.mp h
  have hlt := snd_lt_of_mem_zipIdx hitem
  rw [length_zip] at hlt
  simp only
  omega

theorem scanGroups_succ (budget : EvalBudget) (groups : List (Group Id Key)) (scanBudget : Nat)
    (base : Ledger Id) (n : Nat) :
    scanGroups classes texts budget groups scanBudget base (n + 1) =
      visit (priceGroup texts budget groups) (fun state _ => commitStaged classes state)
        (scanGroups classes texts budget groups scanBudget base n) n := by
  rw [scanGroups, skipAndContinue, range_succ, foldl_append]
  rfl

variable {n : Nat}

theorem priceGroup_eq {state : Pricing Id} {group : Group Id Key}
    (hpoll : budget.isExhausted n = false) (hgroup : groups[n]? = some group)
    (hoverflow : (priceGroup texts budget groups state n).2.overflow = none) :
    ∃ cost, (state.ledger.stage (groupFragments texts n group)).cost = some cost ∧
      priceGroup texts budget groups state n =
        (cost, { state with
          costs := state.costs ++ [cost]
          staged := some (state.ledger.stage (groupFragments texts n group)) }) := by
  unfold priceGroup at hoverflow ⊢
  rw [hpoll, hgroup] at hoverflow ⊢
  simp only [Bool.false_eq_true, if_false] at hoverflow ⊢
  cases hcost : (state.ledger.stage (groupFragments texts n group)).cost with
  | none =>
    rw [hcost] at hoverflow
    cases hstate : state.overflow <;> simp [hstate] at hoverflow
  | some cost => exact ⟨cost, rfl, rfl⟩

theorem overflow_commitStaged (state : Pricing Id) :
    (commitStaged classes state).overflow = state.overflow := by
  unfold commitStaged
  split <;> rfl

theorem overflow_visit (budget : EvalBudget) (groups : List (Group Id Key))
    (acc : Scan × Pricing Id) (n : Nat) :
    (visit (priceGroup texts budget groups) (fun state _ => commitStaged classes state) acc
        n).2.overflow =
      (priceGroup texts budget groups acc.2 n).2.overflow := by
  unfold visit
  simp only
  split
  · exact overflow_commitStaged _
  · rfl

theorem overflow_of_priceGroup {state : Pricing Id}
    (h : (priceGroup texts budget groups state n).2.overflow = none) : state.overflow = none := by
  unfold priceGroup at h
  split at h
  · exact h
  · split at h
    · exact h
    · simp only at h
      split at h
      · cases hstate : state.overflow <;> simp [hstate] at h
      · exact h

theorem renderGroups_concat (base : Ledger Id) (groups : List (CostedGroup Id Key))
    (group : CostedGroup Id Key) :
    renderGroups classes texts base (groups ++ [group]) =
      (renderGroups classes texts base groups).commit classes
        ((renderGroups classes texts base groups).stage
          (groupFragments texts group.index group.group)) := by
  simp only [renderGroups, foldl_append, foldl_cons, foldl_nil]

section

variable {base : Ledger Id} {n : Nat} {groups : List (Group Id Key)}
  {acc after : Scan × Pricing Id} {group : Group Id Key} {cost : Nat}

section

variable (hinv : ScanInv classes texts base groups n acc)

include hinv

theorem ScanInv.index_lt {group : CostedGroup Id Key}
    (h : group ∈ costedGroups groups acc.2.costs) : group.index < n := by
  have hlt := index_lt_of_mem_costedGroups h
  rwa [hinv.costs] at hlt

theorem ScanInv.costedGroups_next (hgroup : groups[n]? = some group)
    (hcosts : after.2.costs = acc.2.costs ++ [cost]) :
    costedGroups groups after.2.costs =
      costedGroups groups acc.2.costs ++ [⟨n, group, cost⟩] := by
  rw [hcosts, costedGroups_concat (by rw [hinv.costs, hgroup]) cost, hinv.costs]

theorem ScanInv.chosen_admitted
    (hcosted : costedGroups groups after.2.costs =
      costedGroups groups acc.2.costs ++ [⟨n, group, cost⟩])
    (hadmitted : after.1.admitted = acc.1.admitted ++ [n]) :
    chosen groups after = chosen groups acc ++ [⟨n, group, cost⟩] := by
  rw [chosen, hcosted, hadmitted, filter_append]
  congr 1
  · refine filter_congr fun other hother => ?_
    have hne : other.index ≠ n := Nat.ne_of_lt (hinv.index_lt hother)
    simp [hne]
  · simp

theorem ScanInv.chosen_skipped
    (hcosted : costedGroups groups after.2.costs =
      costedGroups groups acc.2.costs ++ [⟨n, group, cost⟩])
    (hadmitted : after.1.admitted = acc.1.admitted) : chosen groups after = chosen groups acc := by
  have hnot : n ∉ acc.1.admitted := fun hmem => Nat.lt_irrefl n (hinv.bounded n hmem)
  rw [chosen, hcosted, hadmitted, filter_append]
  simp [hnot, chosen]

end

variable (classes texts) in
inductive Visited (n : Nat) (group : Group Id Key) (cost : Nat)
    (acc after : Scan × Pricing Id) : Prop where
  | admitted (hcovered : cost ≤ acc.1.remaining)
      (hremaining : after.1.remaining = acc.1.remaining - cost)
      (hadmitted : after.1.admitted = acc.1.admitted ++ [n])
      (hskipped : after.1.skipped = acc.1.skipped)
      (hledger : after.2.ledger =
        acc.2.ledger.commit classes (acc.2.ledger.stage (groupFragments texts n group)))
  | skipped (hcovered : ¬ cost ≤ acc.1.remaining)
      (hremaining : after.1.remaining = acc.1.remaining)
      (hadmitted : after.1.admitted = acc.1.admitted)
      (hskipped : after.1.skipped = acc.1.skipped ++ [n])
      (hledger : after.2.ledger = acc.2.ledger)

theorem visited {budget : EvalBudget} (hpoll : budget.isExhausted n = false)
    (hgroup : groups[n]? = some group)
    (hoverflow : (priceGroup texts budget groups acc.2 n).2.overflow = none) :
    ∃ cost, (acc.2.ledger.stage (groupFragments texts n group)).cost = some cost ∧
      (visit (priceGroup texts budget groups) (fun state _ => commitStaged classes state)
        acc n).2.costs = acc.2.costs ++ [cost] ∧
      Visited classes texts n group cost acc
        (visit (priceGroup texts budget groups) (fun state _ => commitStaged classes state)
          acc n) := by
  obtain ⟨cost, hcost, hpriced⟩ := priceGroup_eq hpoll hgroup hoverflow
  refine ⟨cost, hcost, ?_⟩
  unfold visit
  rw [hpriced]
  by_cases hcovered : cost ≤ acc.1.remaining
  · simp only [checkedSub_of_le hcovered, commitStaged]
    exact ⟨trivial, .admitted hcovered rfl rfl rfl rfl⟩
  · have hnone : checkedSub acc.1.remaining cost = none := if_neg hcovered
    simp only [hnone]
    exact ⟨trivial, .skipped hcovered rfl rfl rfl rfl⟩

theorem ScanInv.step (hinv : ScanInv classes texts base groups n acc)
    (hgroup : groups[n]? = some group) (hcosts : after.2.costs = acc.2.costs ++ [cost])
    (hvisited : Visited classes texts n group cost acc after) :
    ScanInv classes texts base groups (n + 1) after := by
  have hcosted := hinv.costedGroups_next hgroup hcosts
  have hlength : after.2.costs.length = n + 1 := by
    rw [hcosts, length_append, hinv.costs, length_singleton]
  cases hvisited with
  | admitted hcovered hremaining hadmitted hskipped hledger =>
    refine ⟨hlength, ?_, ?_⟩
    · rw [hledger, hinv.chosen_admitted hcosted hadmitted, renderGroups_concat, ← hinv.ledger]
    · intro index hindex
      rw [hadmitted, mem_append, mem_singleton] at hindex
      rcases hindex with hindex | rfl
      · exact Nat.lt_succ_of_lt (hinv.bounded index hindex)
      · exact Nat.lt_succ_self index
  | skipped hcovered hremaining hadmitted hskipped hledger =>
    refine ⟨hlength, ?_, ?_⟩
    · rw [hledger, hinv.chosen_skipped hcosted hadmitted, ← hinv.ledger]
    · intro index hindex
      rw [hadmitted] at hindex
      exact Nat.lt_succ_of_lt (hinv.bounded index hindex)

end

theorem EvalBudget.not_exhausted_of_le {poll later : Nat} (h : poll ≤ later)
    (hlater : budget.isExhausted later = false) : budget.isExhausted poll = false := by
  induction h with
  | refl => exact hlater
  | step h ih =>
    refine ih (Bool.eq_false_iff.mpr fun hexhausted => ?_)
    rw [budget.latched _ hexhausted] at hlater
    cases hlater

theorem overflow_scanGroups {scanBudget : Nat} {base : Ledger Id} {count : Nat} (h : n ≤ count)
    (hcount : (scanGroups classes texts budget groups scanBudget base count).2.overflow = none) :
    (scanGroups classes texts budget groups scanBudget base n).2.overflow = none := by
  induction h with
  | refl => exact hcount
  | step h ih =>
    rw [scanGroups_succ, overflow_visit] at hcount
    exact ih (overflow_of_priceGroup hcount)

section

variable {groups : List (Group Id Key)} {scan : Nat → Scan × Pricing Id} {n cost : Nat}
  {group : Group Id Key}

variable (classes texts) in
/-- The states of a scan in which every group is priced. -/
def ScanRun (groups : List (Group Id Key)) (scan : Nat → Scan × Pricing Id) : Prop :=
  ∀ n group, groups[n]? = some group →
    ∃ cost, ((scan n).2.ledger.stage (groupFragments texts n group)).cost = some cost ∧
      (scan (n + 1)).2.costs = (scan n).2.costs ++ [cost] ∧
      Visited classes texts n group cost (scan n) (scan (n + 1))

theorem scanRun_scanGroups {budget : EvalBudget} {scanBudget : Nat} {base : Ledger Id}
    (hpolls : budget.isExhausted groups.length = false)
    (hoverflow : (scanGroups classes texts budget groups scanBudget base
      groups.length).2.overflow = none) :
    ScanRun classes texts groups (scanGroups classes texts budget groups scanBudget base) := by
  intro n group hgroup
  obtain ⟨hlt, -⟩ := List.getElem?_eq_some_iff.mp hgroup
  have hnext := overflow_scanGroups hlt hoverflow
  rw [scanGroups_succ, overflow_visit] at hnext
  rw [scanGroups_succ]
  exact visited (EvalBudget.not_exhausted_of_le (Nat.le_of_lt hlt) hpolls) hgroup hnext

/-- A visit moves what is left of the budget into the entries, and keeps the total their sum. -/
theorem Visited.conserves {acc after : Scan × Pricing Id}
    (hcost : (acc.2.ledger.stage (groupFragments texts n group)).cost = some cost)
    (h : Visited classes texts n group cost acc after) (hsummed : acc.2.ledger.Summed) :
    after.2.ledger.Summed ∧
      Ledger.headroomSum after.2.ledger.entries + after.1.remaining =
        Ledger.headroomSum acc.2.ledger.entries + acc.1.remaining := by
  cases h with
  | admitted hcovered hremaining hadmitted hskipped hledger =>
    have hstaged := Ledger.headroomSum_stage hcost
    rw [hledger, hremaining]
    refine ⟨hsummed.commit classes _, ?_⟩
    rw [Ledger.commit_entries, Ledger.headroomSum_append, hstaged]
    omega
  | skipped hcovered hremaining hadmitted hskipped hledger =>
    rw [hledger, hremaining]
    exact ⟨hsummed, rfl⟩

theorem ScanRun.conserves (h : ScanRun classes texts groups scan)
    (hsummed : (scan 0).2.ledger.Summed) : ∀ n ≤ groups.length, (scan n).2.ledger.Summed ∧
      Ledger.headroomSum (scan n).2.ledger.entries + (scan n).1.remaining =
        Ledger.headroomSum (scan 0).2.ledger.entries + (scan 0).1.remaining := by
  intro n
  induction n with
  | zero => exact fun _ => ⟨hsummed, rfl⟩
  | succ n ih =>
    intro hn
    obtain ⟨cost, hcost, -, hvisited⟩ := h n _ (getElem?_eq_getElem hn)
    obtain ⟨hbefore, hsum⟩ := ih (Nat.le_of_lt hn)
    obtain ⟨hafter, hstep⟩ := hvisited.conserves hcost hbefore
    exact ⟨hafter, hstep.trans hsum⟩

theorem ScanRun.inv {base : Ledger Id} (h : ScanRun classes texts groups scan)
    (hzero : ScanInv classes texts base groups 0 (scan 0)) :
    ∀ n ≤ groups.length, ScanInv classes texts base groups n (scan n) := by
  intro n
  induction n with
  | zero => exact fun _ => hzero
  | succ n ih =>
    intro hn
    have hgroup : groups[n]? = some groups[n] := getElem?_eq_getElem hn
    obtain ⟨cost, -, hcosts, hvisited⟩ := h n _ hgroup
    exact (ih (Nat.le_of_lt hn)).step hgroup hcosts hvisited

theorem scanInv_zero {budget : EvalBudget} {scanBudget : Nat} {base : Ledger Id} :
    ScanInv classes texts base groups 0
      (scanGroups classes texts budget groups scanBudget base 0) := by
  refine ⟨rfl, ?_, ?_⟩ <;> simp [scanGroups, skipAndContinue, chosen, costedGroups, renderGroups]

/-- The visit of a group settles it: its cost stays noted, and no later visit admits it. -/
theorem ScanRun.settled {base : Ledger Id} (h : ScanRun classes texts groups scan)
    (hinv : ∀ n ≤ groups.length, ScanInv classes texts base groups n (scan n))
    (hgroup : groups[n]? = some group)
    (hcosts : (scan (n + 1)).2.costs = (scan n).2.costs ++ [cost]) :
    ∀ count, n + 1 ≤ count → count ≤ groups.length →
      ⟨n, group, cost⟩ ∈ costedGroups groups (scan count).2.costs ∧
      (n ∈ (scan count).1.admitted ↔ n ∈ (scan (n + 1)).1.admitted) := by
  intro count hcount
  induction count, hcount using Nat.le_induction with
  | base =>
    intro hn
    rw [(hinv n (Nat.le_of_lt hn)).costedGroups_next hgroup hcosts]
    exact ⟨mem_append_right _ (mem_singleton_self _), Iff.rfl⟩
  | succ count hcount ih =>
    intro hle
    obtain ⟨hnoted, hadmitted⟩ := ih (Nat.le_of_lt hle)
    have hnext : groups[count]? = some groups[count] := getElem?_eq_getElem hle
    obtain ⟨later, -, hlater, hvisited⟩ := h count _ hnext
    refine ⟨?_, ?_⟩
    · rw [(hinv count (Nat.le_of_lt hle)).costedGroups_next hnext hlater]
      exact mem_append_left _ hnoted
    · rw [← hadmitted]
      have hne : n ≠ count := Nat.ne_of_lt hcount
      cases hvisited with
      | admitted _ _ h _ _ => simp [h, hne]
      | skipped _ _ h _ _ => rw [h]

end

/-! ## The budget of the whole block -/

theorem deadline_ok {poll : Nat}
    (h : (deadline budget poll : Except (PreparationRefusal Id) Unit) = .ok ()) :
    budget.isExhausted poll = false := by
  unfold deadline at h
  split_ifs at h with hexhausted
  exact Bool.eq_false_iff.mpr hexhausted

variable {admission : OptionalAdmission Id Key}

/-- A successful preparation: every group was tried, and what the scan left and the reserve for
the close pay for the close. -/
theorem prepareOptional_ok
    (h : prepareOptional classes texts budget accounting required groups = .ok admission) :
    ∃ closeReserve scanBudget scanned,
      closeReserve = (required.ledger.delta blockCloseFragment).withHeadroom ∧
      required.remaining = scanBudget + closeReserve ∧
      scanned = scanGroups classes texts budget groups scanBudget required.ledger groups.length ∧
      budget.isExhausted groups.length = false ∧
      scanned.2.overflow = none ∧
      scanned.1.remaining + closeReserve =
        admission.remaining + (scanned.2.ledger.close classes).2.withHeadroom ∧
      admission.base = required.ledger ∧
      admission.ledger = (scanned.2.ledger.close classes).1 ∧
      admission.admitted = chosen groups scanned ∧
      admission.skipped = (costedGroups groups scanned.2.costs).filter
        fun group => group.index ∉ scanned.1.admitted := by
  unfold prepareOptional at h
  simp only at h
  split at h
  · cases h
  · rename_i scanBudget hscanBudget
    obtain ⟨_, hpolls, h⟩ := bind_eq_ok_iff.mp h
    split at h
    · cases h
    · rename_i hoverflow
      obtain ⟨-, -, h⟩ := bind_eq_ok_iff.mp h
      split at h
      · cases h
      · rename_i remaining hremaining
        obtain ⟨-, -, h⟩ := bind_eq_ok_iff.mp h
        obtain rfl := Except.ok.inj h
        obtain ⟨sum, hsum, hleft⟩ := Option.bind_eq_some_iff.mp hremaining
        obtain ⟨rfl, -⟩ := checkedAdd_some hsum
        exact ⟨_, _, _, rfl, checkedSub_some hscanBudget, rfl, deadline_ok hpolls, hoverflow,
          checkedSub_some hleft, rfl, rfl, rfl, rfl⟩

theorem totalWithHeadroom_add_remaining {profile : AccountingProfile} {laterBudget : EvalBudget}
    {tokenLimit : UInt64} {laterAccounting : AccountingBounds}
    {rows : List (SelectedOccurrence Id Key)} {bytes : List Bytes}
    (hrequired : prepareRequired classes texts profile budget tokenLimit accounting rows bytes =
      .ok required)
    (hoptional : prepareOptional classes texts laterBudget laterAccounting required groups =
      .ok admission) :
    admission.ledger.totalWithHeadroom + admission.remaining = tokenLimit.toNat := by
  obtain ⟨hsummed, hcharged, hlimit⟩ := prepareRequired_ok hrequired
  obtain ⟨closeReserve, scanBudget, scanned, -, hscanBudget, rfl, hpolls, hoverflow, hremaining, -,
    hledger, -⟩ := prepareOptional_ok hoptional
  obtain ⟨hscanned, hsum⟩ :=
    (scanRun_scanGroups hpolls hoverflow).conserves hsummed groups.length (Nat.le_refl _)
  change _ = Ledger.headroomSum required.ledger.entries + scanBudget at hsum
  generalize scanGroups classes texts laterBudget groups scanBudget required.ledger
    groups.length = scanned at *
  have hclosed : Ledger.headroomSum admission.ledger.entries =
      Ledger.headroomSum scanned.2.ledger.entries +
        (scanned.2.ledger.close classes).2.withHeadroom := by
    rw [hledger, Ledger.close, Ledger.append_entries, Ledger.headroomSum_append]
    rfl
  have hmax := uint64_le tokenLimit
  have hfinal : admission.ledger.Summed := hledger ▸ hscanned.commit classes _
  rw [hfinal.total_eq (by omega)]
  omega

theorem prepareOptional_ledger
    (h : prepareOptional classes texts budget accounting required groups = .ok admission) :
    admission.base = required.ledger ∧ admission.ledger =
      ((renderGroups classes texts admission.base admission.admitted).close classes).1 := by
  obtain ⟨_, _, _, -, -, rfl, hpolls, hoverflow, -, hbase, hledger, hadmitted, -⟩ :=
    prepareOptional_ok h
  refine ⟨hbase, ?_⟩
  rw [hledger, hadmitted, hbase,
    ((scanRun_scanGroups hpolls hoverflow).inv scanInv_zero _ (Nat.le_refl _)).ledger]

/-- The closed block and what is left are the token limit.  Every group is tried on what those
before it left: one that is admitted is charged what its entries are, and one that is skipped
leaves the ledger as it was.  The entries tile the text. -/
theorem packing_budget_exact {profile : AccountingProfile} {budget laterBudget : EvalBudget}
    {tokenLimit : UInt64} {accounting laterAccounting : AccountingBounds}
    {rows : List (SelectedOccurrence Id Key)} {bytes : List Bytes}
    {required : RequiredMaterialization Id} {groups : List (Group Id Key)}
    {admission : OptionalAdmission Id Key}
    (hrequired : prepareRequired classes texts profile budget tokenLimit accounting rows bytes =
      .ok required)
    (hoptional : prepareOptional classes texts laterBudget laterAccounting required groups =
      .ok admission) :
    admission.ledger.totalWithHeadroom + admission.remaining = tokenLimit.toNat ∧
    (∃ scanBudget,
      scanBudget + (required.ledger.delta blockCloseFragment).withHeadroom = required.remaining ∧
      ∀ n group, groups[n]? = some group →
        let before := scanGroups classes texts laterBudget groups scanBudget required.ledger n
        let after := scanGroups classes texts laterBudget groups scanBudget required.ledger (n + 1)
        ∃ cost, (before.2.ledger.stage (groupFragments texts n group)).cost = some cost ∧
          ((⟨n, group, cost⟩ ∈ admission.admitted ∧
              after.1.remaining + cost = before.1.remaining ∧
              ∃ committed, after.2.ledger.entries = before.2.ledger.entries ++ committed ∧
                Ledger.headroomSum committed = cost) ∨
            (⟨n, group, cost⟩ ∈ admission.skipped ∧ before.1.remaining < cost ∧
              after.1.remaining = before.1.remaining ∧ after.2.ledger = before.2.ledger))) ∧
    admission.ledger =
      ((renderGroups classes texts required.ledger admission.admitted).close classes).1 ∧
    Tiles admission.ledger.entries admission.ledger.text := by
  refine ⟨totalWithHeadroom_add_remaining hrequired hoptional, ?_, ?_, admission.ledger.tiled⟩
  · obtain ⟨closeReserve, scanBudget, scanned, rfl, hscanBudget, rfl, hpolls, hoverflow, -, -, -,
      hadmitted, hskipped⟩ := prepareOptional_ok hoptional
    refine ⟨scanBudget, hscanBudget.symm, ?_⟩
    intro n group hgroup
    obtain ⟨hlt, -⟩ := List.getElem?_eq_some_iff.mp hgroup
    have hrun := scanRun_scanGroups hpolls hoverflow
    have hinv := hrun.inv scanInv_zero
    obtain ⟨cost, hcost, hcosts, hvisited⟩ := hrun n group hgroup
    obtain ⟨hnoted, hsettled⟩ := hrun.settled hinv hgroup hcosts _ hlt (Nat.le_refl _)
    refine ⟨cost, hcost, ?_⟩
    cases hvisited with
    | admitted hcovered hremaining hmember _ hledger =>
      refine .inl ⟨?_, ?_, _, ?_, Ledger.headroomSum_stage hcost⟩
      · rw [hadmitted, chosen, mem_filter]
        refine ⟨hnoted, decide_eq_true (hsettled.mpr ?_)⟩
        rw [hmember]
        exact mem_append_right _ (mem_singleton_self n)
      · rw [hremaining, Nat.sub_add_cancel hcovered]
      · rw [hledger, Ledger.commit_entries]
    | skipped hcovered hremaining hmember _ hledger =>
      refine .inr ⟨?_, Nat.lt_of_not_le hcovered, hremaining, hledger⟩
      rw [hskipped, mem_filter]
      refine ⟨hnoted, decide_eq_true fun hmem => ?_⟩
      have hearlier := hsettled.mp hmem
      rw [hmember] at hearlier
      exact Nat.lt_irrefl n ((hinv n (Nat.le_of_lt hlt)).bounded n hearlier)
  · obtain ⟨hbase, hledger⟩ := prepareOptional_ledger hoptional
    rwa [hbase] at hledger

/-- One token a character and half as much again for headroom; bytes are read as characters. -/
def halfAgain : AccountingProfile := ⟨"characters", .heuristic "characters" 500, List.length⟩

def byteTexts : Texts Nat where
  display := fun id => (toString id).toList
  lossy := fun bytes => bytes.map fun byte => Char.ofNat byte.toNat

def unlimited : EvalBudget := ⟨fun _ => false, nofun⟩

def spanGroup (first length : Nat) : Group Nat Nat :=
  ⟨.single first, first, [⟨⟨0, length⟩, List.replicate length 97, [first]⟩]⟩

def requiredRow : SelectedOccurrence Nat Nat := ⟨7, 1, none, ⟨[], 2⟩, false, .grouped 0⟩

def sampleRequired : Except (PreparationRefusal Nat) (RequiredMaterialization Nat) :=
  prepareRequired spaceNewline.classes byteTexts halfAgain unlimited 400 ⟨1000, 1000⟩
    [requiredRow] [[98, 99]]

def sampleOptional (groups : List (Group Nat Nat)) (required : RequiredMaterialization Nat) :
    Except (PreparationRefusal Nat) (OptionalAdmission Nat Nat) :=
  prepareOptional spaceNewline.classes byteTexts unlimited ⟨1000, 1000⟩ required groups

/-- A required item and three groups, of which the second is too large and the third fits
again. -/
theorem packing_budget_exact_skipping :
    ∃ required admission, sampleRequired = .ok required ∧ required.items.length = 1 ∧
      sampleOptional [spanGroup 0 3, spanGroup 1 200, spanGroup 2 3] required = .ok admission ∧
      admission.admitted.map CostedGroup.index = [0, 2] ∧
      admission.skipped.map CostedGroup.index = [1] ∧
      admission.ledger.totalWithHeadroom + admission.remaining = 400 := by
  have hrun : (sampleRequired >>= fun required =>
      (sampleOptional [spanGroup 0 3, spanGroup 1 200, spanGroup 2 3] required).map fun admission =>
        (required.items.length, admission.admitted.map CostedGroup.index,
          admission.skipped.map CostedGroup.index)).toOption = some (1, [0, 2], [1]) := by
    decide +kernel
  obtain ⟨required, hrequired, hmap⟩ := bind_eq_ok_iff.mp (toOption_eq_some_iff.mp hrun)
  obtain ⟨admission, hoptional, hanswers⟩ := map_eq_ok_iff.mp hmap
  simp only [Prod.mk.injEq] at hanswers
  obtain ⟨hitems, hadmitted, hskipped⟩ := hanswers
  exact ⟨required, admission, hrequired, hitems, hoptional, hadmitted, hskipped,
    (packing_budget_exact hrequired hoptional).1⟩

end

end Eidnara.Daemon.Packing
