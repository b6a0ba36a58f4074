import Mathlib.Algebra.Ring.Nat
import Mathlib.Tactic.Common

/-!
# Checked arithmetic

Unsigned machine integers are naturals; the checked operations answer nothing
when the result does not fit their width.
-/

namespace Eidnara.Lib

theorem some_bind {α β : Type} (a : α) (f : α → Option β) : (some a >>= f) = f a := rfl

def u64Max : Nat := 2 ^ 64 - 1

def checkedAdd (width a b : Nat) : Option Nat := if a + b < 2 ^ width then some (a + b) else none

def checkedMul (width a b : Nat) : Option Nat := if a * b < 2 ^ width then some (a * b) else none

def checkedSub (a b : Nat) : Option Nat := if b ≤ a then some (a - b) else none

variable {a b : Nat}

theorem checkedSub_of_le (h : b ≤ a) : checkedSub a b = some (a - b) :=
  if_pos h

variable {width : Nat}

theorem checkedAdd_of_lt (h : a + b < 2 ^ width) : checkedAdd width a b = some (a + b) :=
  if_pos h

theorem checkedMul_of_lt (h : a * b < 2 ^ width) : checkedMul width a b = some (a * b) :=
  if_pos h

theorem checkedAdd_cases (width a b : Nat) :
    (checkedAdd width a b = some (a + b) ∧ a + b < 2 ^ width) ∨
      (checkedAdd width a b = none ∧ 2 ^ width ≤ a + b) := by
  by_cases h : a + b < 2 ^ width
  · exact .inl ⟨if_pos h, h⟩
  · exact .inr ⟨if_neg h, Nat.le_of_not_lt h⟩

variable {n : Nat}

theorem checkedAdd_some (h : checkedAdd width a b = some n) : n = a + b ∧ a + b < 2 ^ width := by
  rcases checkedAdd_cases width a b with ⟨hsome, hlt⟩ | ⟨hnone, -⟩
  · rw [hsome] at h
    exact ⟨(Option.some.inj h).symm, hlt⟩
  · rw [hnone] at h
    cases h

theorem checkedSub_some (h : checkedSub a b = some n) : a = n + b := by
  unfold checkedSub at h
  split_ifs at h with hle
  rw [← Option.some.inj h, Nat.sub_add_cancel hle]

theorem checkedMul_some (h : checkedMul width a b = some n) : n = a * b ∧ a * b < 2 ^ width := by
  unfold checkedMul at h
  split_ifs at h with hlt
  exact ⟨(Option.some.inj h).symm, hlt⟩

/-- One more, up to the greatest 64-bit value. -/
def saturatingSucc (n : Nat) : Nat := min (n + 1) u64Max

theorem saturatingSucc_le (n : Nat) : saturatingSucc n ≤ u64Max := Nat.min_le_right _ _

theorem saturatingSucc_of_lt (h : n < u64Max) : saturatingSucc n = n + 1 :=
  Nat.min_eq_left h

variable {ε α β : Type} {x : Except ε α}

theorem bind_eq_ok_iff {f : α → Except ε β} {b : β} :
    x >>= f = .ok b ↔ ∃ a, x = .ok a ∧ f a = .ok b := by
  cases x with
  | error e =>
    constructor
    · intro h
      cases h
    · rintro ⟨_, h, -⟩
      cases h
  | ok a =>
    constructor
    · intro h
      exact ⟨a, rfl, h⟩
    · rintro ⟨_, h, h'⟩
      cases h
      exact h'

theorem map_eq_ok_iff {f : α → β} {b : β} : x.map f = .ok b ↔ ∃ a, x = .ok a ∧ f a = b := by
  cases x <;> simp [Except.map]

theorem toOption_eq_some_iff {a : α} : x.toOption = some a ↔ x = .ok a := by
  cases x <;> simp [Except.toOption]

theorem mapError_eq_ok_iff {ε' : Type} {f : ε → ε'} {a : α} :
    x.mapError f = .ok a ↔ x = .ok a := by
  cases x <;> simp [Except.mapError]

/-- A check that stops with the error where the condition does not hold. -/
def ensure {ε : Type} (p : Prop) [Decidable p] (error : ε) : Except ε Unit :=
  if p then .ok () else .error error

theorem ensure_eq_ok_iff {p : Prop} [Decidable p] {error : ε} {u : Unit} :
    ensure p error = .ok u ↔ p := by
  by_cases hp : p <;> simp [ensure, hp]

theorem find?_of_unique {p : α → Bool} {xs : List α} {a : α} (hmem : a ∈ xs) (ha : p a = true)
    (hunique : ∀ b ∈ xs, p b = true → b = a) : xs.find? p = some a := by
  obtain ⟨b, hb⟩ := Option.isSome_iff_exists.mp (List.find?_isSome.mpr ⟨a, hmem, ha⟩)
  rw [hb, hunique b (List.mem_of_find?_eq_some hb) (List.find?_some hb)]

theorem mapM_eq_some_iff {f : α → Option β} {xs : List α} {ys : List β} :
    xs.mapM f = some ys ↔ xs.map f = ys.map some := by
  induction xs generalizing ys with
  | nil => cases ys <;> simp
  | cons x xs ih =>
    rw [List.mapM_cons, List.map_cons]
    constructor
    · intro h
      obtain ⟨y, hy, hrest⟩ := Option.bind_eq_some_iff.mp h
      obtain ⟨zs, hzs, hys⟩ := Option.bind_eq_some_iff.mp hrest
      cases hys
      rw [List.map_cons, hy, ih.mp hzs]
    · intro h
      obtain ⟨y, zs, rfl, hy, hzs⟩ := List.map_eq_cons_iff.mp h.symm
      rw [← hy, ih.mpr hzs.symm]
      rfl

theorem exists_mapM_eq_some {f : α → Option β} {xs : List α} (h : ∀ x ∈ xs, ∃ y, f x = some y) :
    ∃ ys, xs.mapM f = some ys := by
  induction xs with
  | nil => exact ⟨[], rfl⟩
  | cons x xs ih =>
    obtain ⟨y, hy⟩ := h x List.mem_cons_self
    obtain ⟨ys, hys⟩ := ih fun z hz => h z (List.mem_cons_of_mem _ hz)
    exact ⟨y :: ys, by rw [List.mapM_cons, hy, hys]; rfl⟩

end Eidnara.Lib
