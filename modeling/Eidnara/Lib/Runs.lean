import Mathlib.Data.List.Basic

/-!
# Runs of a state machine

A state machine is a partial step function: an event either has no effect defined in a state or
leads to the next one.  A run is a list of events that are all defined in turn.
-/

namespace Eidnara.Lib

variable {σ ε : Type} (step : σ → ε → Option σ)

/-- The state after the events, if each is defined where it comes. -/
def runEvents : σ → List ε → Option σ
  | s, [] => some s
  | s, e :: rest => (step s e).bind fun s' => runEvents s' rest

/-- What is observed of the steps in turn, up to the first event that is not defined. -/
def runTrace {α : Type} (observe : σ → ε → Option α) : σ → List ε → List α
  | _, [] => []
  | s, e :: rest =>
    match step s e with
    | none => []
    | some s' => (observe s e).toList ++ runTrace observe s' rest

theorem guarded_eq_some {p : Prop} [Decidable p] {x y : σ}
    (h : (if p then some x else none) = some y) : p ∧ x = y := by
  obtain ⟨hp, hx⟩ := Option.ite_none_right_eq_some.mp h
  exact ⟨hp, Option.some.inj hx⟩

variable {step} {s s' : σ} {events : List ε}

theorem runEvents_cons {e : ε} (h : runEvents step s (e :: events) = some s') :
    ∃ mid, step s e = some mid ∧ runEvents step mid events = some s' :=
  Option.bind_eq_some_iff.mp h

theorem runEvents_append {later : List ε} :
    runEvents step s (events ++ later) =
      (runEvents step s events).bind fun mid => runEvents step mid later := by
  induction events generalizing s with
  | nil => rfl
  | cons e events ih =>
    simp only [List.cons_append, runEvents]
    cases step s e with
    | none => rfl
    | some mid => exact ih

/-- What every step keeps holds after every run. -/
theorem runEvents_invariant {P : σ → Prop}
    (hstep : ∀ {s e s'}, step s e = some s' → P s → P s') (hs : P s)
    (h : runEvents step s events = some s') : P s' := by
  induction events generalizing s with
  | nil => exact Option.some.inj h ▸ hs
  | cons e events ih =>
    obtain ⟨mid, hmid, hrest⟩ := runEvents_cons h
    exact ih (hstep hmid hs) hrest

/-- What one step relates, where an invariant holds, every run relates. -/
theorem runEvents_related {P : σ → Prop} {R : σ → σ → Prop}
    (hstep : ∀ {s e s'}, step s e = some s' → P s → P s')
    (hrefl : ∀ s, R s s) (htrans : ∀ {a b c}, R a b → R b c → R a c)
    (hrel : ∀ {s e s'}, step s e = some s' → P s → R s s') (hs : P s)
    (h : runEvents step s events = some s') : R s s' := by
  induction events generalizing s with
  | nil => exact Option.some.inj h ▸ hrefl s
  | cons e events ih =>
    obtain ⟨mid, hmid, hrest⟩ := runEvents_cons h
    exact htrans (hrel hmid hs) (ih (hstep hmid hs) hrest)

/-- What is observed of a step, where an invariant holds, is so of all that a run shows. -/
theorem runTrace_forall {α : Type} {observe : σ → ε → Option α} {P : σ → Prop} {Q : α → Prop}
    (hstep : ∀ {s e s'}, step s e = some s' → P s → P s')
    (hobserve : ∀ {s e s' a}, step s e = some s' → P s → observe s e = some a → Q a) (hs : P s) :
    ∀ a ∈ runTrace step observe s events, Q a := by
  induction events generalizing s with
  | nil => exact fun _ hmem => absurd hmem List.not_mem_nil
  | cons e events ih =>
    intro a hmem
    unfold runTrace at hmem
    split at hmem
    · cases hmem
    · next s' hnext =>
        rcases List.mem_append.mp hmem with hhead | hrest
        · exact hobserve hnext hs (Option.mem_toList.mp hhead)
        · exact ih (hstep hnext hs) a hrest

end Eidnara.Lib
