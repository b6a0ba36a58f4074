import Mathlib.Algebra.Ring.Nat

/-!
# Patterns with ordered alternatives

A pattern run on a list answers what is left after each of its matches, the preferred match
first: alternatives in their order, repetitions and options as long as possible before they
give back.  A search reports the preferred match at the leftmost place that has one, again
and again from where the last match ended.
-/

namespace Eidnara.Lib

open List

variable {α : Type}

inductive Pattern (α : Type) where
  /-- One element of a set. -/
  | one (p : α → Bool)
  | seq (a b : Pattern α)
  | alt (a b : Pattern α)
  | opt (a : Pattern α)
  | plus (a : Pattern α)
  /-- Nothing, where the pattern does not match. -/
  | notAhead (a : Pattern α)

namespace Pattern

/-- What is left after each number of repetitions, the most first. -/
def starRun (f : List α → List (List α)) : Nat → List α → List (List α)
  | 0, s => [s]
  | fuel + 1, s => ((f s).filter fun t => t.length < s.length).flatMap (starRun f fuel) ++ [s]

/-- What is left after each match, the preferred match first. -/
def run : Pattern α → List α → List (List α)
  | .one p, s =>
    match s with
    | [] => []
    | c :: s => if p c then [s] else []
  | .seq a b, s => (a.run s).flatMap b.run
  | .alt a b, s => a.run s ++ b.run s
  | .opt a, s => a.run s ++ [s]
  | .plus a, s => (a.run s).flatMap fun t => starRun a.run t.length t
  | .notAhead a, s => if (a.run s).isEmpty then [s] else []

def literal [DecidableEq α] (c : α) : List α → Pattern α
  | [] => .one (· = c)
  | d :: rest => .seq (.one (· = c)) (literal d rest)

def anyOf (first : Pattern α) : List (Pattern α) → Pattern α
  | [] => first
  | next :: rest => .alt first (anyOf next rest)

/-- The successive matches in `s`, which stands at `offset`, as the spans they cover.  After an
empty match the search goes on behind the next element. -/
def findIter (p : Pattern α) (width : α → Nat) : Nat → Nat → List α → List (Nat × Nat)
  | 0, _, _ => []
  | fuel + 1, offset, s =>
    let later := match s with
      | [] => []
      | c :: s => findIter p width fuel (offset + width c) s
    match (p.run s).head? with
    | none => later
    | some rest =>
      let stop := offset + ((s.take (s.length - rest.length)).map width).sum
      if rest.length < s.length then (offset, stop) :: findIter p width fuel stop rest
      else (offset, offset) :: later

def spans (p : Pattern α) (width : α → Nat) (s : List α) : List (Nat × Nat) :=
  findIter p width (s.length + 1) 0 s

theorem run_one_cons (p : α → Bool) (c : α) (s : List α) :
    (one p).run (c :: s) = if p c then [s] else [] := rfl

theorem run_seq (a b : Pattern α) (s : List α) : (seq a b).run s = (a.run s).flatMap b.run := rfl

theorem run_opt (a : Pattern α) (s : List α) : (opt a).run s = a.run s ++ [s] := rfl

theorem run_plus (a : Pattern α) (s : List α) :
    (plus a).run s = (a.run s).flatMap fun t => starRun a.run t.length t := rfl

theorem run_notAhead (a : Pattern α) (s : List α) :
    (notAhead a).run s = if (a.run s).isEmpty then [s] else [] := rfl

theorem head?_run_alt (a b : Pattern α) (s : List α) :
    ((alt a b).run s).head? = (a.run s).head?.or (b.run s).head? :=
  head?_append

/-! ## Runs -/

/-- What is left after each nonempty run of elements of a set, the longest run first. -/
def runs (p : α → Bool) : List α → List (List α)
  | [] => []
  | c :: s => if p c then runs p s ++ [s] else []

theorem starRun_one (p : α → Bool) (s : List α) {fuel : Nat} (h : s.length ≤ fuel) :
    starRun (one p).run fuel s = runs p s ++ [s] := by
  induction s generalizing fuel with
  | nil => cases fuel <;> rfl
  | cons c s ih =>
    cases fuel with
    | zero => simp at h
    | succ fuel =>
      rw [starRun, run_one_cons, runs]
      by_cases hc : p c
      · simp [hc, ih (Nat.le_of_succ_le_succ h)]
      · simp [hc]

theorem run_plus_one (p : α → Bool) (s : List α) : (plus (one p)).run s = runs p s := by
  cases s with
  | nil => rfl
  | cons c s =>
    rw [run_plus, run_one_cons, runs]
    by_cases hc : p c
    · simp [hc, starRun_one p s (Nat.le_refl _)]
    · simp [hc]

theorem run_literal [DecidableEq α] (c : α) (rest s : List α) :
    (literal c rest).run s = if c :: rest <+: s then [s.drop (rest.length + 1)] else [] := by
  induction rest generalizing c s with
  | nil =>
    cases s with
    | nil => rfl
    | cons d s =>
      rw [literal, run_one_cons]
      by_cases hc : d = c
      · simp [hc]
      · simp [hc, Ne.symm hc]
  | cons d rest ih =>
    cases s with
    | nil => rfl
    | cons e s =>
      rw [literal, run_seq, run_one_cons]
      by_cases hc : e = c
      · simp only [hc, decide_true, if_true, flatMap_cons, flatMap_nil,
          append_nil, ih, cons_prefix_cons, true_and, length_cons,
          drop_succ_cons]
      · simp [hc, Ne.symm hc]

theorem run_opt_runs_cons (q p : α → Bool) (c : α) (s : List α) :
    (seq (opt (one q)) (plus (one p))).run (c :: s) =
      (if q c then runs p s else []) ++ runs p (c :: s) := by
  rw [run_seq, run_opt, run_one_cons]
  by_cases hc : q c
  · simp [hc, run_plus_one]
  · simp [hc, run_plus_one]

variable {p : α → Bool} {c : α}

theorem runs_eq_nil (h : p c = false) (s : List α) : runs p (c :: s) = [] := by
  simp [runs, h]

theorem head?_runs (h : p c = true) (s : List α) :
    (runs p (c :: s)).head? = some (s.dropWhile p) := by
  induction s generalizing c with
  | nil => simp [runs, h]
  | cons d s ih =>
    rw [runs, if_pos h, head?_append]
    by_cases hd : p d = true
    · rw [ih hd, dropWhile_cons_of_pos hd]
      rfl
    · rw [Bool.not_eq_true] at hd
      rw [runs_eq_nil hd]
      simp [hd]

/-- A run that must not stand before an element outside its set. -/
def maximalRun (p : α → Bool) : Pattern α := seq (plus (one p)) (notAhead (one fun c => !p c))

theorem run_maximalRun_cons (h : p c = true) (s : List α) :
    (maximalRun p).run (c :: s) =
      (maximalRun p).run s ++ (notAhead (one fun c => !p c)).run s := by
  simp [maximalRun, run_seq, run_plus_one, runs, h]

theorem run_maximalRun_eq_nil (h : p c = false) (s : List α) :
    (maximalRun p).run (c :: s) = [] := by
  simp [maximalRun, run_seq, run_plus_one, runs, h]

/-- To the end of the list such a run is maximal; before another element it gives its last one
back, and it does not match where that is its only one. -/
theorem head?_run_maximalRun (h : p c = true) (s : List α) :
    ((maximalRun p).run (c :: s)).head? =
      if s.dropWhile p = [] then some []
      else if s.takeWhile p = [] then none
      else some ((c :: s).drop (s.takeWhile p).length) := by
  induction s generalizing c with
  | nil =>
    rw [run_maximalRun_cons h]
    rfl
  | cons d s ih =>
    rw [run_maximalRun_cons h, head?_append, run_notAhead, run_one_cons]
    by_cases hd : p d = true
    · rw [ih hd, dropWhile_cons_of_pos hd, takeWhile_cons_of_pos hd]
      by_cases hend : s.dropWhile p = []
      · rw [if_pos hend, if_pos hend]
        rfl
      · by_cases hone : s.takeWhile p = []
        · simp [hend, hone, hd]
        · simp [hend, hone]
    · rw [Bool.not_eq_true] at hd
      rw [run_maximalRun_eq_nil hd]
      simp [hd]

end Pattern

end Eidnara.Lib
