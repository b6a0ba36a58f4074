import Mathlib.Algebra.Order.BigOperators.Group.List
import Mathlib.Algebra.Order.Ring.Nat

/-!
# Admission accounting

`profile.rs`: the controller charges each admitted connection and the holders refund it
or move it to the quarantined bucket.  Every operation reads and writes the two totals in
one critical section, in which nothing can panic, so a run is a sequence of operations
on any of the holders made so far.
-/

namespace Eidnara.ShmTransport

open List

/-! ## Charges -/

/-- The fields of `ResourceCharges` and `HostLimits`. -/
inductive Resource where
  | descriptors | mappingBytes | ledgerBytes | leases | mappings | fileDescriptors | wakeHandles
  | workers | clientInstances | pinnedWorkers
deriving DecidableEq, Repr

namespace Resource

def all : List Resource :=
  [descriptors, mappingBytes, ledgerBytes, leases, mappings, fileDescriptors, wakeHandles,
    workers, clientInstances, pinnedWorkers]

theorem mem_all (resource : Resource) : resource ∈ all := by
  cases resource <;> decide

instance (p : Resource → Prop) [DecidablePred p] : Decidable (∀ resource, p resource) :=
  decidable_of_iff (∀ resource ∈ all, p resource)
    ⟨fun h resource => h resource (mem_all resource), fun h resource _ => h resource⟩

/-- Charged for a thread and not for a mapping. -/
def isWorker : Resource → Bool
  | workers | pinnedWorkers => true
  | _ => false

end Resource

abbrev ResourceCharges : Type := Resource → Nat

abbrev HostLimits : Type := Resource → Nat

namespace ResourceCharges

variable (charges other : ResourceCharges)

def zero : ResourceCharges := fun _ => 0

def checkedAdd : Option ResourceCharges :=
  if ∀ resource, charges resource + other resource < 2 ^ 64 then
    some fun resource => charges resource + other resource
  else none

def checkedSub : Option ResourceCharges :=
  if ∀ resource, other resource ≤ charges resource then
    some fun resource => charges resource - other resource
  else none

def workerPart : ResourceCharges := fun resource =>
  if resource.isWorker then charges resource else 0

def backingPart : ResourceCharges := fun resource =>
  if resource.isWorker then 0 else charges resource

variable {charges other}

theorem checkedAdd_eq_some {total : ResourceCharges} (h : charges.checkedAdd other = some total) :
    ∀ resource, total resource = charges resource + other resource ∧ total resource < 2 ^ 64 := by
  unfold checkedAdd at h
  split_ifs at h with hfits
  obtain rfl := Option.some.inj h
  exact fun resource => ⟨rfl, hfits resource⟩

theorem checkedSub_of_le (h : ∀ resource, other resource ≤ charges resource) :
    charges.checkedSub other = some fun resource => charges resource - other resource :=
  if_pos h

theorem workerPart_add_backingPart (resource : Resource) :
    charges.workerPart resource + charges.backingPart resource = charges resource := by
  unfold workerPart backingPart
  split_ifs <;> omega

theorem backingPart_le (resource : Resource) : charges.backingPart resource ≤ charges resource := by
  unfold backingPart
  split_ifs <;> omega

end ResourceCharges

/-! ## The controller -/

inductive AdmissionError where
  | physicalCoreBudgetExceeded
  | descriptorLimit
  | mappingByteLimit
  | ledgerByteLimit
  | leaseLimit
  | mappingLimit
  | fileDescriptorLimit
  | wakeHandleLimit
  | workerLimit
  | clientInstanceLimit
  | chargeOverflow
  | chargeUnderflow
deriving DecidableEq, Repr

structure Accounting where
  active : ResourceCharges
  quarantined : ResourceCharges

namespace Accounting

variable (accounting : Accounting)

def new : Accounting := ⟨.zero, .zero⟩

/-- The limits, checked in field order once both sums exist. -/
def checkLimits (limits : HostLimits) (active committed : ResourceCharges)
    (physicalCores : Option Nat) : Except AdmissionError ResourceCharges :=
  if committed .descriptors > limits .descriptors then .error .descriptorLimit
  else if committed .mappingBytes > limits .mappingBytes then .error .mappingByteLimit
  else if committed .ledgerBytes > limits .ledgerBytes then .error .ledgerByteLimit
  else if committed .leases > limits .leases then .error .leaseLimit
  else if committed .mappings > limits .mappings then .error .mappingLimit
  else if committed .fileDescriptors > limits .fileDescriptors then .error .fileDescriptorLimit
  else if committed .wakeHandles > limits .wakeHandles then .error .wakeHandleLimit
  else if active .workers > limits .workers then .error .workerLimit
  else if committed .clientInstances > limits .clientInstances then .error .clientInstanceLimit
  else if active .pinnedWorkers >
      min (physicalCores.getD (limits .pinnedWorkers)) (limits .pinnedWorkers) then
    .error .physicalCoreBudgetExceeded
  else .ok active

def checkAdmission (limits : HostLimits) (requested : ResourceCharges)
    (physicalCores : Option Nat) : Except AdmissionError ResourceCharges :=
  match accounting.active.checkedAdd requested with
  | none => .error .chargeOverflow
  | some active =>
    match active.checkedAdd accounting.quarantined with
    | none => .error .chargeOverflow
    | some committed => checkLimits limits active committed physicalCores

/-- A failed subtraction is skipped. -/
def release (charges : ResourceCharges) : Accounting :=
  match accounting.active.checkedSub charges with
  | none => accounting
  | some active => { accounting with active }

/-- Both totals are computed before either is stored. -/
def quarantine (charges : ResourceCharges) : Except AdmissionError Accounting :=
  match accounting.active.checkedSub charges with
  | none => .error .chargeUnderflow
  | some active =>
    match accounting.quarantined.checkedAdd charges.backingPart with
    | none => .error .chargeOverflow
    | some quarantined => .ok { active, quarantined }

end Accounting

/-! ## Holders -/

inductive AdmissionState where
  | active | released | quarantined
deriving DecidableEq, Repr

structure Admission where
  charges : ResourceCharges
  state : AdmissionState

structure WorkerAdmission where
  charges : ResourceCharges
  released : Bool

inductive BackingState where
  | active | quarantined | retainedUncertain
deriving DecidableEq, Repr

structure BackingAdmission where
  charges : ResourceCharges
  state : BackingState

namespace Admission

def admitCharges (limits : HostLimits) (accounting : Accounting) (charges : ResourceCharges)
    (physicalCores : Option Nat) : Except AdmissionError (Accounting × Admission) := do
  let active ← accounting.checkAdmission limits charges physicalCores
  .ok ({ accounting with active }, { charges, state := .active })

variable (self : Admission) (accounting : Accounting)

def drop : Accounting × Admission :=
  if self.state = .active then (accounting.release self.charges, { self with state := .released })
  else (accounting, self)

/-- A refused quarantine drops the admission while it is still active. -/
def quarantine : Except AdmissionError Unit × Accounting × Admission :=
  match accounting.quarantine self.charges with
  | .error error => (.error error, self.drop accounting)
  | .ok accounting => (.ok (), { self with state := .quarantined : Admission }.drop accounting)

def split : Accounting × Admission × WorkerAdmission × BackingAdmission :=
  let (accounting, dropped) := { self with state := .released : Admission }.drop accounting
  (accounting, dropped, { charges := self.charges.workerPart, released := false },
    { charges := self.charges.backingPart, state := .active })

end Admission

def WorkerAdmission.drop (self : WorkerAdmission) (accounting : Accounting) :
    Accounting × WorkerAdmission :=
  if self.released then (accounting, self)
  else (accounting.release self.charges, { self with released := true })

namespace BackingAdmission

variable (self : BackingAdmission) (accounting : Accounting)

/-- The state leaves `Active` before the accounting call, so a failure cannot fall
through to the refunding destructor. -/
def quarantine : Except AdmissionError Unit × Accounting × BackingAdmission :=
  if self.state ≠ .active then (.error .chargeUnderflow, accounting, self)
  else
    match accounting.quarantine self.charges with
    | .error error => (.error error, accounting, { self with state := .retainedUncertain })
    | .ok accounting => (.ok (), accounting, { self with state := .quarantined })

def retainUncertain : BackingAdmission :=
  if self.state = .active then { self with state := .retainedUncertain } else self

def drop : Accounting :=
  if self.state = .active then accounting.release self.charges else accounting

end BackingAdmission

/-! ## Runs -/

/-- A holder that was made, as its last operation left it.  An admission and a worker
admission record in their state that they are gone. -/
inductive Holder where
  | admission (object : Admission)
  | worker (object : WorkerAdmission)
  | backing (object : BackingAdmission) (live : Bool)

structure Process where
  accounting : Accounting
  holders : List Holder

inductive Operation where
  | admitCharges (charges : ResourceCharges) (physicalCores : Option Nat)
  | dropAdmission (index : Nat)
  | quarantineAdmission (index : Nat)
  | splitAdmission (index : Nat)
  | dropWorker (index : Nat)
  | quarantineBacking (index : Nat)
  | retainUncertain (index : Nat)
  | dropBacking (index : Nat)

namespace Process

variable (limits : HostLimits) (process : Process)

def new : Process := ⟨.new, []⟩

def admissionAt (index : Nat) : Option Admission :=
  match process.holders[index]? with
  | some (.admission object) => if object.state = .active then some object else none
  | _ => none

def workerAt (index : Nat) : Option WorkerAdmission :=
  match process.holders[index]? with
  | some (.worker object) => if object.released then none else some object
  | _ => none

def backingAt (index : Nat) : Option BackingAdmission :=
  match process.holders[index]? with
  | some (.backing object true) => some object
  | _ => none

def update (accounting : Accounting) (index : Nat) (holder : Holder) (made : List Holder) :
    Process where
  accounting := accounting
  holders := process.holders.set index holder ++ made

/-- What an operation answers and leaves, if its caller can make it. -/
def perform : Operation → Option (Except AdmissionError Unit × Process)
  | .admitCharges charges physicalCores =>
    match Admission.admitCharges limits process.accounting charges physicalCores with
    | .error error => some (.error error, process)
    | .ok (accounting, object) =>
      some (.ok (), ⟨accounting, process.holders ++ [.admission object]⟩)
  | .dropAdmission index => do
    let self ← process.admissionAt index
    let (accounting, self) := self.drop process.accounting
    some (.ok (), process.update accounting index (.admission self) [])
  | .quarantineAdmission index => do
    let self ← process.admissionAt index
    let (outcome, accounting, self) := self.quarantine process.accounting
    some (outcome, process.update accounting index (.admission self) [])
  | .splitAdmission index => do
    let self ← process.admissionAt index
    let (accounting, self, worker, backing) := self.split process.accounting
    some (.ok (), process.update accounting index (.admission self)
      [.worker worker, .backing backing true])
  | .dropWorker index => do
    let self ← process.workerAt index
    let (accounting, self) := self.drop process.accounting
    some (.ok (), process.update accounting index (.worker self) [])
  | .quarantineBacking index => do
    let self ← process.backingAt index
    let (outcome, accounting, self) := self.quarantine process.accounting
    some (outcome, process.update accounting index (.backing self true) [])
  | .retainUncertain index => do
    let self ← process.backingAt index
    some (.ok (), process.update process.accounting index (.backing self.retainUncertain true) [])
  | .dropBacking index => do
    let self ← process.backingAt index
    some (.ok (), process.update (self.drop process.accounting) index (.backing self false) [])

inductive Reaches : Process → Process → Prop
  | refl (process : Process) : Reaches process process
  | step {start process process' : Process} {operation : Operation}
      {outcome : Except AdmissionError Unit} : Reaches start process →
      process.perform limits operation = some (outcome, process') → Reaches start process'

def performAll : Process → List Operation → Option Process
  | process, [] => some process
  | process, operation :: operations => do
    let (_, process) ← process.perform limits operation
    performAll process operations

theorem reaches_of_performAll {limits : HostLimits} {start process last : Process}
    {operations : List Operation} (hstart : Reaches limits start process)
    (h : process.performAll limits operations = some last) : Reaches limits start last := by
  induction operations generalizing process with
  | nil =>
    obtain rfl := Option.some.inj h
    exact hstart
  | cons operation operations ih =>
    obtain ⟨⟨outcome, process'⟩, hperform, hrest⟩ := Option.bind_eq_some_iff.mp h
    exact ih (hstart.step hperform) hrest

end Process

/-! ## What the totals are made of -/

namespace Holder

/-- What a holder has in the active total.  An uncertain backing keeps it for good. -/
def held : Holder → ResourceCharges
  | .admission object => if object.state = .active then object.charges else .zero
  | .worker object => if object.released then .zero else object.charges
  | .backing object live =>
    match object.state with
    | .active => if live then object.charges else .zero
    | .quarantined => .zero
    | .retainedUncertain => object.charges

def retained : Holder → ResourceCharges
  | .admission object => if object.state = .quarantined then object.charges.backingPart else .zero
  | .worker _ => .zero
  | .backing object _ => if object.state = .quarantined then object.charges.backingPart else .zero

/-- A holder whose charges its owner can still release or quarantine. -/
def Settleable : Holder → Prop
  | .admission object => object.state = .active
  | .worker object => object.released = false
  | .backing object live => object.state = .active ∧ live = true

def charges : Holder → ResourceCharges
  | .admission object => object.charges
  | .worker object => object.charges
  | .backing object _ => object.charges

theorem held_of_settleable {holder : Holder} (h : holder.Settleable) :
    holder.held = holder.charges := by
  cases holder with
  | admission object => exact if_pos h
  | worker object =>
    have hreleased : object.released = false := h
    simp [held, charges, hreleased]
  | backing object live =>
    obtain ⟨hstate, rfl⟩ := h
    simp [held, charges, hstate]

end Holder

def sumOf (part : Holder → ResourceCharges) (holders : List Holder) (resource : Resource) : Nat :=
  (holders.map (part · resource)).sum

section

variable (part : Holder → ResourceCharges) {holders : List Holder} {holder : Holder}
  (resource : Resource)

theorem sumOf_append (xs ys : List Holder) :
    sumOf part (xs ++ ys) resource = sumOf part xs resource + sumOf part ys resource := by
  simp [sumOf]

theorem sumOf_set {index : Nat} (holder' : Holder) (h : holders[index]? = some holder) :
    sumOf part (holders.set index holder') resource + part holder resource =
      sumOf part holders resource + part holder' resource := by
  induction holders generalizing index with
  | nil => simp at h
  | cons first rest ih =>
    cases index with
    | zero =>
      obtain rfl : first = holder := by simpa using h
      simp only [sumOf, set_cons_zero, map_cons, sum_cons]
      omega
    | succ index =>
      have hrest := @ih index (by simpa using h)
      simp only [sumOf, set_cons_succ, map_cons, sum_cons] at hrest ⊢
      omega

theorem le_sumOf (h : holder ∈ holders) : part holder resource ≤ sumOf part holders resource :=
  single_le_sum (fun _ _ => Nat.zero_le _) _ (mem_map_of_mem h)

end

namespace Process

/-- The totals are the sums of the holders' parts, and within the limits. -/
structure Balanced (limits : HostLimits) (process : Process) : Prop where
  active_eq : ∀ resource,
    process.accounting.active resource = sumOf Holder.held process.holders resource
  quarantined_eq : ∀ resource,
    process.accounting.quarantined resource = sumOf Holder.retained process.holders resource
  le_limits : ∀ resource,
    process.accounting.active resource + process.accounting.quarantined resource ≤ limits resource
  fits : ∀ resource,
    process.accounting.active resource + process.accounting.quarantined resource < 2 ^ 64

variable {limits : HostLimits} {process process' : Process} {index : Nat} {holder : Holder}

variable {holder' : Holder} {accounting : Accounting}

section

variable (h : process.Balanced limits)

include h

theorem Balanced.charges_le (hmem : holder ∈ process.holders) (hsettleable : holder.Settleable)
    (resource : Resource) : holder.charges resource ≤ process.accounting.active resource := by
  rw [h.active_eq, ← Holder.held_of_settleable hsettleable]
  exact le_sumOf _ resource hmem

theorem Balanced.release_eq (hmem : holder ∈ process.holders) (hsettleable : holder.Settleable) :
    process.accounting.release holder.charges =
      { process.accounting with
        active := fun resource =>
          process.accounting.active resource - holder.charges resource } := by
  rw [Accounting.release,
    ResourceCharges.checkedSub_of_le (h.charges_le hmem hsettleable)]

theorem Balanced.quarantine_eq (hmem : holder ∈ process.holders) (hsettleable : holder.Settleable) :
    process.accounting.quarantine holder.charges = .ok
      { active := fun resource => process.accounting.active resource - holder.charges resource
        quarantined := fun resource =>
          process.accounting.quarantined resource + holder.charges.backingPart resource } := by
  have hle := h.charges_le hmem hsettleable
  have hfits : ∀ resource, process.accounting.quarantined resource +
      holder.charges.backingPart resource < 2 ^ 64 := by
    intro resource
    have hbacking := holder.charges.backingPart_le resource
    have hcharges := hle resource
    have hboth := h.fits resource
    omega
  rw [Accounting.quarantine, ResourceCharges.checkedSub_of_le hle]
  simp only [ResourceCharges.checkedAdd, if_pos hfits]

theorem Balanced.quarantined_worker {resource : Resource} (hworker : resource.isWorker = true) :
    process.accounting.quarantined resource = 0 := by
  have hnone : ∀ holder : Holder, holder.retained resource = 0 := by
    rintro (object | object | ⟨object, live⟩) <;> simp only [Holder.retained]
    · split_ifs <;> simp [ResourceCharges.backingPart, hworker, ResourceCharges.zero]
    · rfl
    · split_ifs <;> simp [ResourceCharges.backingPart, hworker, ResourceCharges.zero]
  rw [h.quarantined_eq, sumOf]
  simp [hnone]

/-- What an operation on one holder has to show: the totals move as the holder's parts do,
and their sum does not grow. -/
theorem Balanced.update {made : List Holder} (hat : process.holders[index]? = some holder)
    (hactive : ∀ resource, accounting.active resource + holder.held resource =
      process.accounting.active resource + holder'.held resource + sumOf Holder.held made resource)
    (hquarantined : ∀ resource, accounting.quarantined resource + holder.retained resource =
      process.accounting.quarantined resource + holder'.retained resource +
        sumOf Holder.retained made resource)
    (hsum : ∀ resource, accounting.active resource + accounting.quarantined resource ≤
      process.accounting.active resource + process.accounting.quarantined resource) :
    (process.update accounting index holder' made).Balanced limits where
  active_eq resource := by
    have hset := sumOf_set Holder.held resource holder' hat
    have htotal := h.active_eq resource
    have hmoved := hactive resource
    simp only [Process.update, sumOf_append]
    omega
  quarantined_eq resource := by
    have hset := sumOf_set Holder.retained resource holder' hat
    have htotal := h.quarantined_eq resource
    have hmoved := hquarantined resource
    simp only [Process.update, sumOf_append]
    omega
  le_limits resource := (hsum resource).trans (h.le_limits resource)
  fits resource := (hsum resource).trans_lt (h.fits resource)

theorem Balanced.release (hat : process.holders[index]? = some holder)
    (hsettleable : holder.Settleable) (hheld : holder'.held = .zero)
    (hretained : holder'.retained = holder.retained) :
    (process.update (process.accounting.release holder.charges) index holder' []).Balanced
      limits := by
  have hmem := mem_of_getElem? hat
  have hle := h.charges_le hmem hsettleable
  rw [h.release_eq hmem hsettleable]
  refine h.update hat ?_ ?_ ?_ <;> intro resource
  · have hcharges := hle resource
    simp only [Holder.held_of_settleable hsettleable, hheld, ResourceCharges.zero, sumOf,
      map_nil, sum_nil]
    omega
  · simp only [hretained, sumOf, map_nil, sum_nil, Nat.add_zero]
  · exact Nat.add_le_add_right (Nat.sub_le _ _) _

theorem Balanced.quarantine (hat : process.holders[index]? = some holder)
    (hsettleable : holder.Settleable)
    (hok : process.accounting.quarantine holder.charges = .ok accounting)
    (hheld : holder'.held = .zero) (hretained : holder'.retained = holder.charges.backingPart)
    (hbefore : holder.retained = .zero) :
    (process.update accounting index holder' []).Balanced limits := by
  have hmem := mem_of_getElem? hat
  have hle := h.charges_le hmem hsettleable
  rw [h.quarantine_eq hmem hsettleable] at hok
  obtain rfl := Except.ok.inj hok
  refine h.update hat ?_ ?_ ?_ <;> intro resource
  · have hcharges := hle resource
    simp only [Holder.held_of_settleable hsettleable, hheld, ResourceCharges.zero, sumOf,
      map_nil, sum_nil]
    omega
  · simp only [hretained, hbefore, ResourceCharges.zero, sumOf, map_nil, sum_nil]
  · have hbacking := holder.charges.backingPart_le resource
    have hcharges := hle resource
    simp only
    omega

end

/-! ## Operations -/

theorem admissionAt_eq_some {self : Admission} (h : process.admissionAt index = some self) :
    process.holders[index]? = some (.admission self) ∧ self.state = .active := by
  unfold admissionAt at h
  split at h
  · next object hat =>
      split_ifs at h with hstate
      obtain rfl := Option.some.inj h
      exact ⟨hat, hstate⟩
  · cases h

theorem workerAt_eq_some {self : WorkerAdmission} (h : process.workerAt index = some self) :
    process.holders[index]? = some (.worker self) ∧ self.released = false := by
  unfold workerAt at h
  split at h
  · next object hat =>
      split_ifs at h with hreleased
      obtain rfl := Option.some.inj h
      exact ⟨hat, by simpa using hreleased⟩
  · cases h

theorem backingAt_eq_some {self : BackingAdmission} (h : process.backingAt index = some self) :
    process.holders[index]? = some (.backing self true) := by
  unfold backingAt at h
  split at h
  · next object hat =>
      obtain rfl := Option.some.inj h
      exact hat
  · cases h

section

variable {ε α : Type} {c : Prop} [Decidable c] {e e' : ε} {x : Except ε α} {a : α}

theorem refuse_eq_ok : (if c then .error e else x) = Except.ok a ↔ ¬ c ∧ x = .ok a := by
  split_ifs with hc <;> simp [hc]

theorem refuse_eq_error (hne : e ≠ e') :
    (if c then .error e else x) = Except.error e' ↔ ¬ c ∧ x = .error e' := by
  split_ifs with hc <;> simp [hc, hne]

end

variable {charges : ResourceCharges} {physicalCores : Option Nat}

theorem checkAdmission_ok {active : ResourceCharges}
    (h : accounting.checkAdmission limits charges physicalCores = .ok active) :
    ∀ resource, active resource = accounting.active resource + charges resource ∧
      active resource + accounting.quarantined resource < 2 ^ 64 ∧
      (resource.isWorker = false →
        active resource + accounting.quarantined resource ≤ limits resource) ∧
      (resource.isWorker = true → active resource ≤ limits resource) := by
  unfold Accounting.checkAdmission at h
  split at h
  · cases h
  · next total hactive =>
      split at h
      · cases h
      · next committed hcommitted =>
          have htotal := ResourceCharges.checkedAdd_eq_some hactive
          have hsum := ResourceCharges.checkedAdd_eq_some hcommitted
          simp only [Accounting.checkLimits, refuse_eq_ok, Except.ok.injEq] at h
          obtain ⟨_, _, _, _, _, _, _, _, _, _, rfl⟩ := h
          intro resource
          refine ⟨(htotal resource).1, ?_, ?_, ?_⟩
          · have := hsum resource
            omega
          · intro hworker
            have := hsum resource
            cases resource <;> first | omega | cases hworker
          · intro hworker
            cases resource <;> first | omega | cases hworker

theorem Balanced.admitCharges (h : process.Balanced limits) {object : Admission}
    (hok : Admission.admitCharges limits process.accounting charges physicalCores =
      .ok (accounting, object)) :
    (⟨accounting, process.holders ++ [.admission object]⟩ : Process).Balanced limits := by
  unfold Admission.admitCharges at hok
  cases hcheck : process.accounting.checkAdmission limits charges physicalCores with
  | error error =>
    rw [hcheck] at hok
    cases hok
  | ok active =>
    rw [hcheck] at hok
    cases hok
    have hactive := checkAdmission_ok hcheck
    refine ⟨fun resource => ?_, fun resource => ?_, fun resource => ?_, fun resource => ?_⟩
    · have hnew := hactive resource
      have hold := h.active_eq resource
      have hone : sumOf Holder.held [.admission ⟨charges, .active⟩] resource =
          charges resource := by
        simp [sumOf, Holder.held]
      simp only [sumOf_append, hone]
      omega
    · have hold := h.quarantined_eq resource
      simp only [sumOf_append, hold]
      simp [sumOf, Holder.retained, ResourceCharges.zero]
    · obtain ⟨-, -, hbacking, hworker⟩ := hactive resource
      cases hkind : resource.isWorker with
      | false => exact hbacking hkind
      | true =>
        have hzero := h.quarantined_worker hkind
        have := hworker hkind
        simp only [hzero]
        omega
    · exact (hactive resource).2.1

theorem Balanced.perform (h : process.Balanced limits) {operation : Operation}
    {outcome : Except AdmissionError Unit}
    (hstep : process.perform limits operation = some (outcome, process')) :
    process'.Balanced limits := by
  cases operation with
  | admitCharges charges physicalCores =>
    simp only [Process.perform] at hstep
    split at hstep
    · cases hstep
      exact h
    · next accounting object hok =>
        cases hstep
        exact h.admitCharges hok
  | dropAdmission index =>
    obtain ⟨self, hself, heq⟩ := Option.bind_eq_some_iff.mp hstep
    obtain ⟨hat, hstate⟩ := admissionAt_eq_some hself
    simp only [Admission.drop, hstate, if_true, Option.some.injEq, Prod.mk.injEq] at heq
    obtain ⟨-, rfl⟩ := heq
    exact h.release hat hstate rfl (by simp [Holder.retained, hstate])
  | quarantineAdmission index =>
    obtain ⟨self, hself, heq⟩ := Option.bind_eq_some_iff.mp hstep
    obtain ⟨hat, hstate⟩ := admissionAt_eq_some hself
    have hok := h.quarantine_eq (mem_of_getElem? hat) hstate
    simp only [Holder.charges] at hok
    simp only [Admission.quarantine, hok, Admission.drop, reduceCtorEq, if_false,
      Option.some.injEq, Prod.mk.injEq] at heq
    obtain ⟨-, rfl⟩ := heq
    exact h.quarantine hat hstate hok rfl rfl (by simp [Holder.retained, hstate])
  | splitAdmission index =>
    obtain ⟨self, hself, heq⟩ := Option.bind_eq_some_iff.mp hstep
    obtain ⟨hat, hstate⟩ := admissionAt_eq_some hself
    obtain ⟨-, rfl⟩ := heq
    refine h.update hat (fun resource => ?_) (fun resource => ?_) (fun _ => le_rfl)
    · have hparts := self.charges.workerPart_add_backingPart resource
      simp [sumOf, Holder.held, hstate, ResourceCharges.zero]
      omega
    · simp [sumOf, Holder.retained, hstate, ResourceCharges.zero]
  | dropWorker index =>
    obtain ⟨self, hself, heq⟩ := Option.bind_eq_some_iff.mp hstep
    obtain ⟨hat, hreleased⟩ := workerAt_eq_some hself
    simp only [WorkerAdmission.drop, hreleased, Bool.false_eq_true, if_false, Option.some.injEq,
      Prod.mk.injEq] at heq
    obtain ⟨-, rfl⟩ := heq
    exact h.release hat hreleased rfl rfl
  | quarantineBacking index =>
    obtain ⟨self, hself, heq⟩ := Option.bind_eq_some_iff.mp hstep
    have hat := backingAt_eq_some hself
    by_cases hstate : self.state = .active
    · have hok := h.quarantine_eq (mem_of_getElem? hat) ⟨hstate, rfl⟩
      simp only [Holder.charges] at hok
      simp only [BackingAdmission.quarantine, hstate, ne_eq, not_true_eq_false, if_false, hok,
        Option.some.injEq, Prod.mk.injEq] at heq
      obtain ⟨-, rfl⟩ := heq
      exact h.quarantine hat ⟨hstate, rfl⟩ hok rfl rfl (by simp [Holder.retained, hstate])
    · simp only [BackingAdmission.quarantine, ne_eq, hstate, not_false_eq_true, if_true,
        Option.some.injEq, Prod.mk.injEq] at heq
      obtain ⟨-, rfl⟩ := heq
      exact h.update hat (fun _ => by simp [sumOf]) (fun _ => by simp [sumOf])
        (fun _ => le_rfl)
  | retainUncertain index =>
    obtain ⟨self, hself, heq⟩ := Option.bind_eq_some_iff.mp hstep
    have hat := backingAt_eq_some hself
    obtain ⟨-, rfl⟩ := heq
    -- An uncertain backing stays in the active total, live or not.
    have hheld : (Holder.backing self.retainUncertain true).held =
        (Holder.backing self true).held := by
      unfold BackingAdmission.retainUncertain
      split_ifs with hstate <;> simp [Holder.held, hstate]
    have hretained : (Holder.backing self.retainUncertain true).retained =
        (Holder.backing self true).retained := by
      unfold BackingAdmission.retainUncertain
      split_ifs with hstate <;> simp [Holder.retained, hstate]
    exact h.update hat (fun _ => by simp [sumOf, hheld]) (fun _ => by simp [sumOf, hretained])
      (fun _ => le_rfl)
  | dropBacking index =>
    obtain ⟨self, hself, heq⟩ := Option.bind_eq_some_iff.mp hstep
    have hat := backingAt_eq_some hself
    obtain ⟨-, rfl⟩ := heq
    by_cases hstate : self.state = .active
    · rw [BackingAdmission.drop, if_pos hstate]
      exact h.release hat ⟨hstate, rfl⟩ (by simp [Holder.held, hstate]) rfl
    · rw [BackingAdmission.drop, if_neg hstate]
      have hheld : (Holder.backing self false).held = (Holder.backing self true).held := by
        cases hkind : self.state <;> simp_all [Holder.held]
      exact h.update hat (fun _ => by simp [sumOf, hheld])
        (fun _ => by simp [sumOf, Holder.retained])
        (fun _ => le_rfl)

theorem balanced_new (limits : HostLimits) : Process.new.Balanced limits where
  active_eq _ := rfl
  quarantined_eq _ := rfl
  le_limits _ := Nat.zero_le _
  fits _ := by
    show 0 + 0 < 2 ^ 64
    decide

theorem Reaches.balanced (h : Reaches limits .new process) : process.Balanced limits := by
  induction h with
  | refl => exact balanced_new limits
  | step _ hperform ih => exact ih.perform hperform

theorem admit_ne_underflow :
    Admission.admitCharges limits accounting charges physicalCores ≠ .error .chargeUnderflow := by
  intro h
  unfold Admission.admitCharges at h
  cases hcheck : accounting.checkAdmission limits charges physicalCores with
  | ok active =>
    rw [hcheck] at h
    cases h
  | error error =>
    rw [hcheck] at h
    obtain rfl : error = .chargeUnderflow := Except.error.inj h
    unfold Accounting.checkAdmission at hcheck
    split at hcheck
    · cases hcheck
    · split at hcheck
      · cases hcheck
      · simp [Accounting.checkLimits, refuse_eq_error] at hcheck

/-- The controller never reports an underflow; a backing that is no longer active does. -/
theorem Balanced.underflow (h : process.Balanced limits) {operation : Operation}
    (hstep : process.perform limits operation = some (.error .chargeUnderflow, process')) :
    ∃ index self, operation = .quarantineBacking index ∧
      process.backingAt index = some self ∧ self.state ≠ .active := by
  cases operation with
  | admitCharges charges physicalCores =>
    simp only [Process.perform] at hstep
    split at hstep
    · next error herror =>
        obtain rfl : error = .chargeUnderflow := by simpa using congrArg (·.map Prod.fst) hstep
        exact absurd herror admit_ne_underflow
    · simp at hstep
  | quarantineAdmission index =>
    obtain ⟨self, hself, heq⟩ := Option.bind_eq_some_iff.mp hstep
    obtain ⟨hat, hstate⟩ := admissionAt_eq_some hself
    have hok := h.quarantine_eq (mem_of_getElem? hat) hstate
    simp only [Holder.charges] at hok
    simp [Admission.quarantine, hok] at heq
  | quarantineBacking index =>
    obtain ⟨self, hself, heq⟩ := Option.bind_eq_some_iff.mp hstep
    refine ⟨index, self, rfl, hself, fun hstate => ?_⟩
    have hok := h.quarantine_eq (mem_of_getElem? (backingAt_eq_some hself)) ⟨hstate, rfl⟩
    simp only [Holder.charges] at hok
    simp [BackingAdmission.quarantine, hstate, hok] at heq
  | dropAdmission index | splitAdmission index | dropWorker index | retainUncertain index
  | dropBacking index =>
    obtain ⟨self, -, heq⟩ := Option.bind_eq_some_iff.mp hstep
    simp at heq

/-- In every process the controller runs in: the totals are the sums of what the holders
have in them and stay within the limits, whatever a holder can release or quarantine is
there to be taken, and a refused admission leaves everything as it was. -/
theorem accounting_never_drifts (limits : HostLimits) {process : Process}
    (h : Reaches limits .new process) :
    (∀ resource,
      process.accounting.active resource = sumOf Holder.held process.holders resource) ∧
    (∀ resource,
      process.accounting.quarantined resource = sumOf Holder.retained process.holders resource) ∧
    (∀ resource, process.accounting.active resource + process.accounting.quarantined resource ≤
      limits resource) ∧
    (∀ holder ∈ process.holders, holder.Settleable →
      (process.accounting.active.checkedSub holder.charges).isSome ∧
      ∃ accounting, process.accounting.quarantine holder.charges = .ok accounting) ∧
    (∀ operation process',
      process.perform limits operation = some (.error .chargeUnderflow, process') →
      ∃ index self, operation = .quarantineBacking index ∧
        process.backingAt index = some self ∧ self.state ≠ .active) ∧
    (∀ charges physicalCores error process',
      process.perform limits (.admitCharges charges physicalCores) = some (.error error, process') →
      process' = process) := by
  have hbalanced := h.balanced
  refine ⟨hbalanced.active_eq, hbalanced.quarantined_eq, hbalanced.le_limits, ?_,
    fun _ _ => hbalanced.underflow, ?_⟩
  · intro holder hmem hsettleable
    rw [ResourceCharges.checkedSub_of_le (hbalanced.charges_le hmem hsettleable)]
    exact ⟨rfl, _, hbalanced.quarantine_eq hmem hsettleable⟩
  · intro charges physicalCores error process' hstep
    simp only [perform] at hstep
    split at hstep
    · cases hstep
      rfl
    · cases hstep

/-- Two admissions of a host with room for two: one is split, its backing quarantined and
its worker dropped, the other is dropped. -/
def quarantinedOnce : List Operation :=
  [.admitCharges (fun _ => 1) none, .splitAdmission 0, .admitCharges (fun _ => 1) none,
    .quarantineBacking 2, .dropWorker 1, .dropAdmission 3]

theorem accounting_never_drifts_quarantinedOnce : ∃ process,
    Process.new.performAll (fun _ => 2) quarantinedOnce = some process ∧
      process.accounting.quarantined .leases = 1 ∧
      ∀ resource,
        process.accounting.active resource = sumOf Holder.held process.holders resource := by
  have hrun : ((Process.new.performAll (fun _ => 2) quarantinedOnce).map
      fun process => process.accounting.quarantined .leases) = some 1 := by
    decide
  obtain ⟨process, hprocess, hleases⟩ := Option.map_eq_some_iff.mp hrun
  exact ⟨process, hprocess, hleases,
    (accounting_never_drifts (fun _ => 2) (reaches_of_performAll (.refl .new) hprocess)).1⟩

end Process

end Eidnara.ShmTransport
