import Eidnara.Lib.Checked

/-!
# Applicability observations

An observation row records a verdict about its target objects at a checkout.  Rows are never
deleted, and carry the commit that made them and the commit that invalidated them.
-/

namespace Eidnara.Kernel.Applicability

open Lib List

inductive ApplicabilityState where
  | current
  | historical
  | outOfScope
  | uncertain
  | dirtyTreeUncertain
  | stale
  | lifecycleInvalidated
deriving DecidableEq, Repr

namespace ApplicabilityState

def label : ApplicabilityState → String
  | current => "current"
  | historical => "historical"
  | outOfScope => "out_of_scope"
  | uncertain => "uncertain"
  | dirtyTreeUncertain => "dirty_tree_uncertain"
  | stale => "stale"
  | lifecycleInvalidated => "lifecycle_invalidated"

def all : List ApplicabilityState :=
  [current, historical, outOfScope, uncertain, dirtyTreeUncertain, stale, lifecycleInvalidated]

def fromLabel (text : String) : Option ApplicabilityState := all.find? (·.label = text)

def observationKind : ApplicabilityState → String
  | current => "applicability.current"
  | historical => "applicability.historical"
  | outOfScope => "applicability.out_of_scope"
  | uncertain => "applicability.uncertain"
  | dirtyTreeUncertain => "applicability.dirty_tree_uncertain"
  | stale => "applicability.stale"
  | lifecycleInvalidated => "applicability.lifecycle_invalidated"

end ApplicabilityState

structure ApplicabilityObservationPayload where
  schema : String
  checkoutIdentityDigest : String
  head : String
  dirtyFingerprint : String
  patchIdAlgorithm : String
  state : String
  evidence : String
deriving DecidableEq, Repr

/-- What the stored payload parses to. -/
inductive StoredPayload where
  | undecodable
  | withoutDetail
  | undecodableDetail
  | detail (payload : ApplicabilityObservationPayload)
deriving DecidableEq, Repr

def observationSchema : String := "eidnara.applicability.observation.v2"

/-- A row of `observations` with its registry row and its targets. -/
structure Observation where
  observationId : String
  objectId : String
  kind : String
  payload : StoredPayload
  sourceKind : String
  sourceId : String
  sourceRevision : Int
  targets : List String
  createdCommitSeq : Nat
  invalidatedCommitSeq : Option Nat
deriving DecidableEq, Repr

inductive RowMatch where
  | sameCheckout
  | otherCheckout
  | unreadable
deriving DecidableEq, Repr

/-- Whether a row describes the checkout.  A row whose payload disagrees with its kind is not
trusted. -/
def classifyRow (payload : StoredPayload) (observationKind checkoutDigest : String) : RowMatch :=
  match payload with
  | .detail detail =>
    match ApplicabilityState.fromLabel detail.state with
    | none => .unreadable
    | some state =>
      if detail.schema ≠ observationSchema ∨ observationKind ≠ state.observationKind then
        .unreadable
      else if detail.checkoutIdentityDigest = checkoutDigest then .sameCheckout
      else .otherCheckout
  | _ => .unreadable

/-- `LIKE 'applicability.%'`, which does not tell upper from lower case. -/
def likeApplicability (kind : String) : Bool :=
  (kind.toList.take 14).map Char.toLower = "applicability.".toList

/-- Rows newest first: by commit, and inside one commit by the ordinal of the change. -/
abbrev Rows := List Observation

def Observation.asOf (row : Observation) (seq : Nat) : Observation :=
  { row with invalidatedCommitSeq := row.invalidatedCommitSeq.filter (· ≤ seq) }

end Eidnara.Kernel.Applicability
