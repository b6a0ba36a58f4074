import Mathlib.Algebra.Ring.Nat
import Mathlib.Data.List.Chain

/-!
# The ordinals of a transform window

`assignOrdinals` numbers the messages of a window from an anchor: live messages count one up and
synthetic ones borrow, or continue the numbering behind the last live message.  `resolve` says
what a declared anchor means and numbers what is left of the window after the cut.
-/

namespace Eidnara.Daemon.WindowCoverage

structure WindowMessage where
  mid : String
  synthetic : Bool
  deriving DecidableEq, Repr

structure DeclaredAnchor where
  mid : String
  sequence : Int
  deriving DecidableEq, Repr

structure HistorySegmentEdge where
  sequence : Int
  endMessage : Int
  endMessageId : String
  deriving DecidableEq, Repr

structure CoverageSnapshot where
  continuationBase : Option Nat := none
  rendered : Option HistorySegmentEdge := none
  declared : Option HistorySegmentEdge := none
  newestWindowEnd : Option HistorySegmentEdge := none
  deriving DecidableEq, Repr

inductive Resolution
  | normal
  | staleSlice (cut : Nat)
  | revert (keepThroughSeq : Option Int)
  | unknown
  | firstPass
  deriving DecidableEq, Repr

def Resolution.cut : Resolution → Nat
  | .staleSlice cut => cut
  | _ => 0

structure Resolved where
  resolution : Resolution
  anchor : Option HistorySegmentEdge
  ordinals : List Nat
  deriving DecidableEq, Repr

/-- The refusals, each with the values its text names. -/
inductive ResolveError
  | windowStart (declaredMid : String)
  | declaredEnd (sequence : Int) (endMessageId declaredMid : String)
  | declaredNewer (sequence : Int)
  | unmatched (sequence : Int)
  | negativeEnd (sequence endMessage : Int)
  deriving DecidableEq, Repr

/-! ## Numbering -/

/-- The loop over the window: a synthetic message at a position below the last live one has a live
message in the rest. -/
def assignFrom (anchorOrdinal : Option Nat) (first : Nat) :
    Nat → Option Nat → List WindowMessage → List Nat
  | _, _, [] => []
  | nextLive, prior, message :: rest =>
    if message.synthetic = false then
      nextLive :: assignFrom anchorOrdinal first (nextLive + 1) (some nextLive) rest
    else
      let ordinal :=
        if rest.any (!·.synthetic) then prior.getD (anchorOrdinal.getD 0)
        else prior.elim first (· + 1)
      ordinal :: assignFrom anchorOrdinal first nextLive (some ordinal) rest

def assignOrdinals (window : List WindowMessage) (anchorOrdinal continuationBase : Option Nat) :
    List Nat :=
  let first := anchorOrdinal.getD (continuationBase.getD 0 + 1)
  assignFrom anchorOrdinal first first none window

/-! ## Resolving an anchor -/

def parseUsize (text : List Char) : Option Nat :=
  let digits := if text.head? = some '+' then text.tail else text
  let value := Nat.ofDigitChars 10 digits 0
  if digits ≠ [] ∧ digits.all Char.isDigit ∧ value < 2 ^ 64 then some value else none

/-- The parts of a block id around its one hash. -/
def splitBlockId (id : String) : Option (String × Nat) :=
  let mid := id.toList.takeWhile (· ≠ '#')
  match id.toList.dropWhile (· ≠ '#') with
  | [] => none
  | _ :: index =>
    if mid = [] ∨ '#' ∈ index then none
    else (parseUsize index).map (String.ofList mid, ·)

def endMid (row : HistorySegmentEdge) : Option String :=
  (splitBlockId row.endMessageId).map Prod.fst

def position (window : List WindowMessage) (row : HistorySegmentEdge) : Option Nat := do
  let mid ← endMid row
  window.findIdx? (·.mid = mid)

def anchored (window : List WindowMessage) (resolution : Resolution) (anchor : HistorySegmentEdge) :
    Except ResolveError Resolved :=
  if anchor.endMessage < 0 then .error (.negativeEnd anchor.sequence anchor.endMessage)
  else
    .ok
      { resolution
        anchor := some anchor
        ordinals :=
          assignOrdinals (window.drop resolution.cut) (some anchor.endMessage.toNat) none }

def resolveDeclared (snapshot : CoverageSnapshot) (declared : DeclaredAnchor)
    (window : List WindowMessage) : Except ResolveError Resolved :=
  if window.head?.map (·.mid) ≠ some declared.mid then .error (.windowStart declared.mid)
  else
    match snapshot.declared with
    | none => .ok ⟨.unknown, none, []⟩
    | some row =>
      if endMid row ≠ some declared.mid then
        .error (.declaredEnd row.sequence row.endMessageId declared.mid)
      else
        match snapshot.rendered with
        | none => .ok ⟨.unknown, none, []⟩
        | some rendered =>
          if rendered.sequence = row.sequence then anchored window .normal row
          else if row.sequence < rendered.sequence then
            match position window rendered with
            | some cut => anchored window (.staleSlice cut) rendered
            | none => anchored window (.revert (some row.sequence)) row
          else .error (.declaredNewer row.sequence)

def resolve (snapshot : CoverageSnapshot) (declared : Option DeclaredAnchor)
    (window : List WindowMessage) : Except ResolveError Resolved :=
  match declared with
  | some declared => resolveDeclared snapshot declared window
  | none =>
    match snapshot.rendered, snapshot.newestWindowEnd with
    | none, _ => .ok ⟨.firstPass, none, assignOrdinals window none snapshot.continuationBase⟩
    | some _, none => .ok ⟨.revert none, none, assignOrdinals window none none⟩
    | some _, some hit =>
      match position window hit with
      | none => .error (.unmatched hit.sequence)
      | some cut => anchored window (.staleSlice cut) hit

/-! ## Where the numbering starts -/

variable {anchor : Option Nat} {first nextLive : Nat} {prior : Option Nat}
  {window : List WindowMessage}

theorem length_assignFrom :
    (assignFrom anchor first nextLive prior window).length = window.length := by
  induction window generalizing nextLive prior with
  | nil => rfl
  | cons message rest ih =>
    unfold assignFrom
    split_ifs <;> simp [ih]

/-- Once a message has an ordinal, nothing depends on the anchor. -/
theorem assignFrom_some (anchor' : Option Nat) (first' : Nat) {ordinal : Nat} :
    assignFrom anchor first nextLive (some ordinal) window =
      assignFrom anchor' first' nextLive (some ordinal) window := by
  induction window generalizing nextLive ordinal with
  | nil => rfl
  | cons message rest ih =>
    simp only [assignFrom, Option.getD_some, Option.elim_some]
    split_ifs <;> rw [ih]

theorem drop_assignFrom {i ordinal : Nat} {message : WindowMessage}
    (hat : window[i]? = some message)
    (hlive : message.synthetic = false)
    (hordinal : (assignFrom anchor first nextLive prior window)[i]? = some ordinal) :
    assignFrom (some ordinal) ordinal ordinal none (window.drop i) =
      (assignFrom anchor first nextLive prior window).drop i := by
  induction window generalizing i nextLive prior with
  | nil => cases hat
  | cons head rest ih =>
    cases i with
    | zero =>
      obtain rfl : head = message := by simpa using hat
      simp only [assignFrom, hlive, if_true, List.getElem?_cons_zero, Option.some.injEq] at hordinal
      subst hordinal
      simp only [List.drop_zero, assignFrom, hlive, if_true]
      rw [assignFrom_some anchor first]
    | succ i =>
      simp only [assignFrom] at hordinal ⊢
      split_ifs at hordinal ⊢ <;> exact ih hat hordinal

theorem live_assignFrom :
    ((window.zip (assignFrom anchor first nextLive prior window)).filter (!·.1.synthetic)).map
      Prod.snd = List.range' nextLive (window.countP (!·.synthetic)) := by
  induction window generalizing nextLive prior with
  | nil => rfl
  | cons message rest ih =>
    unfold assignFrom
    split_ifs with hlive <;> simp_all [List.range'_succ]

/-- An ordinal is at least the one before it; in front of the first stands the anchor. -/
theorem chain_assignFrom (hfirst : anchor.getD 0 ≤ first)
    (hnext : window.any (!·.synthetic) = true → prior.getD (anchor.getD 0) ≤ nextLive) :
    (prior.getD (anchor.getD 0) :: assignFrom anchor first nextLive prior window).IsChain
      (· ≤ ·) := by
  induction window generalizing nextLive prior with
  | nil => exact .singleton _
  | cons message rest ih =>
    unfold assignFrom
    by_cases hlive : message.synthetic = false
    · rw [if_pos hlive]
      refine .cons_cons (hnext (by simp [hlive])) ?_
      exact @ih (nextLive + 1) (some nextLive) fun _ => Nat.le_succ nextLive
    rw [if_neg hlive]
    by_cases hlater : rest.any (!·.synthetic) = true
    · simp only [hlater, if_true]
      refine .cons_cons le_rfl (@ih nextLive (some _) fun _ => hnext ?_)
      rw [List.any_cons, hlater, Bool.or_true]
    · simp only [hlater]
      refine .cons_cons ?_ (@ih nextLive (some _) fun h => absurd h hlater)
      cases prior with
      | none => exact hfirst
      | some ordinal => exact Nat.le_succ ordinal

/-! ## Cutting a window -/

theorem anchored_eq_ok {resolution : Resolution} {edge : HistorySegmentEdge} {resolved : Resolved}
    (h : anchored window resolution edge = .ok resolved) :
    resolved = ⟨resolution, some edge,
      assignOrdinals (window.drop resolution.cut) (some edge.endMessage.toNat) none⟩ := by
  unfold anchored at h
  split_ifs at h
  exact (Except.ok.inj h).symm

theorem resolve_staleSlice {snapshot : CoverageSnapshot} {declared : Option DeclaredAnchor}
    {resolved : Resolved} {cut : Nat} (h : resolve snapshot declared window = .ok resolved)
    (hcut : resolved.resolution = .staleSlice cut) : ∃ edge, resolved.anchor = some edge ∧
      resolved.ordinals = assignOrdinals (window.drop cut) (some edge.endMessage.toNat) none := by
  have hanchored {resolution : Resolution} {edge : HistorySegmentEdge}
      (h : anchored window resolution edge = .ok resolved) : ∃ edge, resolved.anchor = some edge ∧
        resolved.ordinals = assignOrdinals (window.drop cut) (some edge.endMessage.toNat) none := by
    obtain rfl := anchored_eq_ok h
    obtain rfl : resolution = .staleSlice cut := hcut
    exact ⟨edge, rfl, rfl⟩
  unfold resolve resolveDeclared at h
  split at h
  · split_ifs at h
    split at h
    · cases h
      cases hcut
    split_ifs at h
    split at h
    · cases h
      cases hcut
    split_ifs at h
    · exact hanchored h
    · split at h <;> exact hanchored h
  · split at h
    · cases h
      cases hcut
    · cases h
      cases hcut
    · split at h
      · cases h
      · exact hanchored h

/-- Every window is numbered in order, one ordinal a message, the live ones one up; a window cut at
a live message and anchored at its ordinal keeps its numbers, so a stale slice at a live message
whose stored end is its ordinal does. -/
theorem ordinals_survive_cut (window : List WindowMessage) (anchorOrdinal base : Option Nat) :
    let ordinals := assignOrdinals window anchorOrdinal base
    ordinals.length = window.length ∧ ordinals.Pairwise (· ≤ ·) ∧
    ((window.zip ordinals).filter (!·.1.synthetic)).map Prod.snd =
      List.range' (anchorOrdinal.getD (base.getD 0 + 1)) (window.countP (!·.synthetic)) ∧
    (∀ i message ordinal, window[i]? = some message → message.synthetic = false →
      ordinals[i]? = some ordinal →
        assignOrdinals (window.drop i) (some ordinal) none = ordinals.drop i) ∧
    ∀ snapshot declared resolved cut message, resolve snapshot declared window = .ok resolved →
      resolved.resolution = .staleSlice cut → window[cut]? = some message →
      message.synthetic = false → ∃ edge, resolved.anchor = some edge ∧
        (ordinals[cut]? = some edge.endMessage.toNat → resolved.ordinals = ordinals.drop cut) := by
  refine ⟨length_assignFrom, ?_, live_assignFrom, fun _ _ _ => drop_assignFrom, ?_⟩
  · have hfirst : anchorOrdinal.getD 0 ≤ anchorOrdinal.getD (base.getD 0 + 1) := by
      cases anchorOrdinal with
      | none => exact Nat.zero_le _
      | some ordinal => exact le_rfl
    have hchain := @chain_assignFrom _ _ _ none window hfirst fun _ => hfirst
    exact (List.pairwise_cons.mp hchain.pairwise).2
  · intro snapshot declared resolved cut message hresolve hslice hat hlive
    obtain ⟨edge, hedge, hordinals⟩ := resolve_staleSlice hresolve hslice
    exact ⟨edge, hedge, fun hordinal => hordinals.trans (drop_assignFrom hat hlive hordinal)⟩

/-- A window declared at `a`, ordinal 5, whose rendered boundary is the message `mid`, ordinal 6. -/
def sampleWindow : List WindowMessage := [⟨"a", false⟩, ⟨"b", false⟩, ⟨"s", true⟩, ⟨"c", false⟩]

def sampleSnapshot (mid : String) : CoverageSnapshot :=
  { declared := some ⟨1, 5, "a#0"⟩, rendered := some ⟨2, 6, mid ++ "#0"⟩ }

theorem ordinals_survive_cut_live :
    assignOrdinals sampleWindow (some 5) none = [5, 6, 6, 7] ∧
      ∃ resolved, resolve (sampleSnapshot "b") (some ⟨"a", 1⟩) sampleWindow = .ok resolved ∧
        resolved.ordinals = [6, 6, 7] := by
  obtain ⟨-, -, -, -, hslice⟩ := ordinals_survive_cut sampleWindow (some 5) none
  have hresolve : resolve (sampleSnapshot "b") (some ⟨"a", 1⟩) sampleWindow =
      .ok ⟨.staleSlice 1, some ⟨2, 6, "b#0"⟩, [6, 6, 7]⟩ := by decide +kernel
  obtain ⟨edge, hedge, hordinals⟩ := hslice _ _ _ 1 ⟨"b", false⟩ hresolve rfl rfl rfl
  obtain rfl := Option.some.inj hedge
  exact ⟨rfl, _, hresolve, hordinals rfl⟩

/-- Cut at a synthetic message, the live message behind it loses its number. -/
theorem synthetic_cut_renumbers :
    (assignOrdinals sampleWindow (some 5) none)[2]? = some 6 ∧
      (assignOrdinals sampleWindow (some 5) none).drop 2 = [6, 7] ∧
      resolve (sampleSnapshot "s") (some ⟨"a", 1⟩) sampleWindow =
        .ok ⟨.staleSlice 2, some ⟨2, 6, "s#0"⟩, [6, 6]⟩ := by
  decide +kernel

end Eidnara.Daemon.WindowCoverage
