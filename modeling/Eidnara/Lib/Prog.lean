import Mathlib.Tactic.Common

/-!
# Programs over atomic operations

A `Prog` is a tree of single atomic operations: each node names an operation and
continues with its answer.  An `Act` is a program with a private state and an
error, which keeps the state changes made before a failure.  Nothing is assumed
about the operations here; a `Logic` says what they answer on a shared state, what
other parties may do between two of them, and what each of them must meet.
-/

namespace Eidnara.Lib

/-- A tree of atomic operations. -/
inductive Prog (Op : Type) (Resp : Op → Type) (α : Type) where
  | done (a : α)
  | step (op : Op) (next : Resp op → Prog Op Resp α)

section

variable {Op : Type} {Resp : Op → Type} {σ ρ ε ε' α β : Type}

def Prog.bind : Prog Op Resp α → (α → Prog Op Resp β) → Prog Op Resp β
  | .done a, f => f a
  | .step op next, f => .step op fun answer => (next answer).bind f

/-- A program with a private state and an error. -/
def Act (Op : Type) (Resp : Op → Type) (ρ ε α : Type) : Type :=
  ρ → Prog Op Resp (Except ε α × ρ)

namespace Act

def pure (a : α) : Act Op Resp ρ ε α := fun state => .done (.ok a, state)

def bind (p : Act Op Resp ρ ε α) (f : α → Act Op Resp ρ ε β) : Act Op Resp ρ ε β := fun state =>
  (p state).bind fun
    | (.ok a, state) => f a state
    | (.error e, state) => .done (.error e, state)

instance : Monad (Act Op Resp ρ ε) where
  pure := Act.pure
  bind := Act.bind

theorem pure_bind (a : α) (f : α → Act Op Resp ρ ε β) : (Pure.pure a >>= f) = f a := rfl

def call (op : Op) : Act Op Resp ρ ε (Resp op) := fun state =>
  .step op fun answer => .done (.ok answer, state)

def get : Act Op Resp ρ ε ρ := fun state => .done (.ok state, state)

def modify (f : ρ → ρ) : Act Op Resp ρ ε Unit := fun state => .done (.ok (), f state)

def throw (e : ε) : Act Op Resp ρ ε α := fun state => .done (.error e, state)

def catchWith (p : Act Op Resp ρ ε α) (handler : ε → Act Op Resp ρ ε' α) :
    Act Op Resp ρ ε' α := fun state =>
  (p state).bind fun
    | (.ok a, state) => .done (.ok a, state)
    | (.error e, state) => handler e state

def mapError (f : ε → ε') (p : Act Op Resp ρ ε α) : Act Op Resp ρ ε' α :=
  p.catchWith fun e => throw (f e)

def lift : Except ε α → Act Op Resp ρ ε α
  | .ok a => pure a
  | .error e => throw e

def ignore (p : Act Op Resp ρ ε α) : Act Op Resp ρ ε' Unit := fun state =>
  (p state).bind fun (_, state) => .done (.ok (), state)

def outcome (p : Act Op Resp ρ ε α) : Act Op Resp ρ ε' (Except ε α) := fun state =>
  (p state).bind fun (result, state) => .done (.ok result, state)

end Act

/-! ## Runs -/

/-- A run of a program on its own. -/
inductive Prog.Runs (answers : (op : Op) → σ → Resp op → σ → Prop) :
    Prog Op Resp α → σ → α → σ → Prop
  | done (a : α) (s : σ) : Runs answers (.done a) s a s
  | step {op : Op} {next : Resp op → Prog Op Resp α} {s s₁ s₂ : σ} {answer : Resp op} {a : α} :
      answers op s answer s₁ → Runs answers (next answer) s₁ a s₂ →
      Runs answers (.step op next) s a s₂

/-- Runs a program on the answers of a log, which it must use up. -/
def Prog.replay [DecidableEq Op] : Prog Op Resp α → List (Σ op, Resp op) → Option α
  | .done a, [] => some a
  | .done _, _ :: _ => none
  | .step _ _, [] => none
  | .step op next, ⟨op', answer⟩ :: log =>
    if h : op' = op then (next (h ▸ answer)).replay log else none

variable {p : Prog Op Resp α}

theorem Prog.runs_of_replay [DecidableEq Op] {log : List (Σ op, Resp op)} {a : α}
    (h : p.replay log = some a) (before : List (Σ op, Resp op)) :
    p.Runs (fun op log answer log' => log' = log ++ [⟨op, answer⟩]) before a (before ++ log) := by
  induction p generalizing log before with
  | done b =>
    cases log with
    | nil =>
      cases h
      rw [List.append_nil]
      exact .done a before
    | cons _ _ => cases h
  | step op next ih =>
    cases log with
    | nil => cases h
    | cons entry log =>
      obtain ⟨op', answer⟩ := entry
      rw [replay] at h
      split_ifs at h with hop
      subst hop
      have hrest := ih answer h (before ++ [⟨op', answer⟩])
      rw [List.append_assoc] at hrest
      exact .step rfl hrest

/-! ## The logic -/

/-- What a program runs against. -/
structure Logic (Op : Type) (Resp : Op → Type) (σ : Type) where
  /-- What an operation may answer, and the state it leaves. -/
  answers : (op : Op) → σ → Resp op → σ → Prop
  /-- What the others may do between two operations. -/
  rely : σ → σ → Prop
  /-- What must hold whenever the program stands before an operation. -/
  allowed : Op → σ → Prop
  rely_refl : ∀ s, rely s s
  rely_trans : ∀ {s₁ s₂ s₃}, rely s₁ s₂ → rely s₂ s₃ → rely s₁ s₃

/-- Every operation of the program is allowed where it is made, and `post` holds
when the program is done, whatever the others do. -/
def Prog.Safe (logic : Logic Op Resp σ) : Prog Op Resp α → (α → σ → Prop) → σ → Prop
  | .done a, post, s => ∀ s', logic.rely s s' → post a s'
  | .step op next, post, s => ∀ s₁, logic.rely s s₁ → logic.allowed op s₁ ∧
      ∀ answer s₂, logic.answers op s₁ answer s₂ → (next answer).Safe logic post s₂

namespace Prog.Safe

variable {logic : Logic Op Resp σ} {p : Prog Op Resp α} {post post' : α → σ → Prop} {s s' : σ}

theorem rely (h : p.Safe logic post s) (hrely : logic.rely s s') : p.Safe logic post s' := by
  cases p with
  | done a | step op next => exact fun s₂ h₂ => h s₂ (logic.rely_trans hrely h₂)

theorem mono (h : p.Safe logic post s) (hpost : ∀ a s, post a s → post' a s) :
    p.Safe logic post' s := by
  induction p generalizing s with
  | done a => exact fun s' hrely => hpost a s' (h s' hrely)
  | step op next ih =>
    intro s₁ hrely
    obtain ⟨hallowed, hnext⟩ := h s₁ hrely
    exact ⟨hallowed, fun answer s₂ hanswer => ih answer (hnext answer s₂ hanswer)⟩

theorem and (h : p.Safe logic post s) (h' : p.Safe logic post' s) :
    p.Safe logic (fun a s => post a s ∧ post' a s) s := by
  induction p generalizing s with
  | done a => exact fun s' hrely => ⟨h s' hrely, h' s' hrely⟩
  | step op next ih =>
    intro s₁ hrely
    obtain ⟨hallowed, hnext⟩ := h s₁ hrely
    exact ⟨hallowed, fun answer s₂ hanswer =>
      ih answer (hnext answer s₂ hanswer) ((h' s₁ hrely).2 answer s₂ hanswer)⟩

/-- A postcondition survives what the others do next. -/
theorem stable (h : p.Safe logic post s) :
    p.Safe logic (fun a s => ∀ s', logic.rely s s' → post a s') s := by
  induction p generalizing s with
  | done a => exact fun s₁ h₁ s₂ h₂ => h s₂ (logic.rely_trans h₁ h₂)
  | step op next ih =>
    intro s₁ hrely
    obtain ⟨hallowed, hnext⟩ := h s₁ hrely
    exact ⟨hallowed, fun answer s₂ hanswer => ih answer (hnext answer s₂ hanswer)⟩

theorem bind_iff {f : α → Prog Op Resp β} {post : β → σ → Prop} :
    (p.bind f).Safe logic post s ↔ p.Safe logic (fun a s => (f a).Safe logic post s) s := by
  induction p generalizing s with
  | done a =>
    constructor
    · intro h s' hrely
      exact Safe.rely h hrely
    · intro h
      exact h s (logic.rely_refl s)
  | step op next ih =>
    refine forall₂_congr fun s₁ _ => and_congr_right fun _ => ?_
    exact forall₃_congr fun answer s₂ _ => ih answer

/-- What follows a program may be stated up to what the others do next. -/
theorem bind_iff_of {f : α → Prog Op Resp β} {after : β → σ → Prop}
    (hto : ∀ a s, (f a).Safe logic after s → post a s)
    (hfrom : ∀ a s, (∀ s', logic.rely s s' → post a s') → (f a).Safe logic after s) :
    (p.bind f).Safe logic after s ↔ p.Safe logic post s :=
  bind_iff.trans ⟨fun h => h.mono hto, fun h => h.stable.mono hfrom⟩

/-- A safe program on its own ends in its postcondition. -/
theorem of_runs (h : p.Safe logic post s) {a : α} (hrun : p.Runs logic.answers s a s') :
    post a s' := by
  induction hrun with
  | done a s => exact h s (logic.rely_refl s)
  | step hanswer _ ih => exact ih ((h _ (logic.rely_refl _)).2 _ _ hanswer)

end Prog.Safe

def Logic.solo (answers : (op : Op) → σ → Resp op → σ → Prop) : Logic Op Resp σ where
  answers := answers
  rely := Eq
  allowed _ _ := True
  rely_refl _ := rfl
  rely_trans := Eq.trans

theorem Prog.safe_solo_iff {answers : (op : Op) → σ → Resp op → σ → Prop} {post : α → σ → Prop}
    {s : σ} : p.Safe (Logic.solo answers) post s ↔ ∀ a s', p.Runs answers s a s' → post a s' := by
  constructor
  · intro h a s' hrun
    exact Safe.of_runs h hrun
  · intro h
    induction p generalizing s with
    | done a =>
      rintro s' rfl
      exact h a s (.done a s)
    | step op next ih =>
      rintro s₁ rfl
      refine ⟨trivial, fun answer s₂ hanswer => ih answer fun a s' hrun => ?_⟩
      exact h a s' (.step hanswer hrun)

namespace Act

/-- The postcondition for the way an action ended. -/
def Ends (post : α → ρ → σ → Prop) (failed : ε → ρ → σ → Prop) : Except ε α × ρ → σ → Prop
  | (.ok a, state) => post a state
  | (.error e, state) => failed e state

/-- Safety of an action from a private and a shared state, with a postcondition for
each way it ends. -/
def Safe (logic : Logic Op Resp σ) (p : Act Op Resp ρ ε α) (state : ρ) (s : σ)
    (post : α → ρ → σ → Prop) (failed : ε → ρ → σ → Prop) : Prop :=
  (p state).Safe logic (Ends post failed) s

variable {logic : Logic Op Resp σ} {state : ρ} {s : σ} {post : α → ρ → σ → Prop}
  {failed : ε → ρ → σ → Prop}

variable {p : Act Op Resp ρ ε α}

theorem Safe.mono {post' : α → ρ → σ → Prop} {failed' : ε → ρ → σ → Prop}
    (h : p.Safe logic state s post failed) (hpost : ∀ a state s, post a state s → post' a state s)
    (hfailed : ∀ e state s, failed e state s → failed' e state s) :
    p.Safe logic state s post' failed' := by
  apply Prog.Safe.mono h
  intro outcome s' hs'
  obtain ⟨e | a, state'⟩ := outcome
  · exact hfailed e state' s' hs'
  · exact hpost a state' s' hs'

theorem Safe.and {post' : α → ρ → σ → Prop} {failed' : ε → ρ → σ → Prop}
    (h : p.Safe logic state s post failed) (h' : p.Safe logic state s post' failed') :
    p.Safe logic state s (fun a state s => post a state s ∧ post' a state s)
      (fun e state s => failed e state s ∧ failed' e state s) := by
  apply Prog.Safe.mono (Prog.Safe.and h h')
  intro outcome s' hs'
  obtain ⟨e | a, state'⟩ := outcome <;> exact hs'

theorem safe_bind {f : α → Act Op Resp ρ ε β} {post : β → ρ → σ → Prop} :
    (p >>= f).Safe logic state s post failed ↔
      p.Safe logic state s (fun a state s => (f a).Safe logic state s post failed) failed := by
  refine Prog.Safe.bind_iff_of ?_ ?_ <;> rintro ⟨e | a, state'⟩ s' hs'
  · exact hs' s' (logic.rely_refl s')
  · exact hs'
  · exact hs'
  · exact hs' s' (logic.rely_refl s')

variable {op : Op}

/-! The three actions that only read or change one thing, in front of another action. -/

theorem safe_get_bind {f : ρ → Act Op Resp ρ ε β} {post : β → ρ → σ → Prop} :
    (get >>= f).Safe logic state s post failed ↔ (f state).Safe logic state s post failed :=
  Iff.rfl

theorem safe_modify_bind {g : ρ → ρ} {f : Unit → Act Op Resp ρ ε β} {post : β → ρ → σ → Prop} :
    (modify g >>= f).Safe logic state s post failed ↔
      (f ()).Safe logic (g state) s post failed :=
  Iff.rfl

theorem safe_catchWith {handler : ε → Act Op Resp ρ ε' α} {failed : ε' → ρ → σ → Prop} :
    (p.catchWith handler).Safe logic state s post failed ↔
      p.Safe logic state s post
        (fun e state s => (handler e).Safe logic state s post failed) := by
  refine Prog.Safe.bind_iff_of ?_ ?_ <;> rintro ⟨e | a, state'⟩ s' hs'
  · exact hs'
  · exact hs' s' (logic.rely_refl s')
  · exact hs' s' (logic.rely_refl s')
  · exact hs'

theorem safe_mapError {f : ε → ε'} {failed : ε' → ρ → σ → Prop} :
    (p.mapError f).Safe logic state s post failed ↔
      p.Safe logic state s post (fun e state s =>
        ∀ s', logic.rely s s' → failed (f e) state s') :=
  safe_catchWith

theorem safe_ignore {post : Unit → ρ → σ → Prop} {failed : ε' → ρ → σ → Prop} :
    (p.ignore : Act Op Resp ρ ε' Unit).Safe logic state s post failed ↔
      p.Safe logic state s (fun _ => post ()) (fun _ => post ()) := by
  refine Prog.Safe.bind_iff_of ?_ ?_ <;> rintro ⟨e | a, state'⟩ s' hs'
  · exact hs' s' (logic.rely_refl s')
  · exact hs' s' (logic.rely_refl s')
  · exact hs'
  · exact hs'

theorem safe_outcome {post : Except ε α → ρ → σ → Prop} {failed : ε' → ρ → σ → Prop} :
    (p.outcome : Act Op Resp ρ ε' (Except ε α)).Safe logic state s post failed ↔
      p.Safe logic state s (fun a => post (.ok a)) (fun e => post (.error e)) := by
  refine Prog.Safe.bind_iff_of ?_ ?_ <;> rintro ⟨e | a, state'⟩ s' hs'
  · exact hs' s' (logic.rely_refl s')
  · exact hs' s' (logic.rely_refl s')
  · exact hs'
  · exact hs'

end Act

/-! ## Evaluation -/

def Prog.eval (answer : (op : Op) → σ → Resp op × σ) : Prog Op Resp α → σ → α × σ
  | .done a, s => (a, s)
  | .step op next, s => (next (answer op s).1).eval answer (answer op s).2

theorem Prog.eval_bind (answer : (op : Op) → σ → Resp op × σ) (p : Prog Op Resp α)
    (f : α → Prog Op Resp β) (s : σ) :
    (p.bind f).eval answer s = (f (p.eval answer s).1).eval answer (p.eval answer s).2 := by
  induction p generalizing s with
  | done a => rfl
  | step op next ih => exact ih (answer op s).1 (answer op s).2

/-- Answers that are computed are answers some peer may give. -/
theorem Prog.Safe.eval_logged {post : α → List (Σ op, Resp op) → Prop} {log : List (Σ op, Resp op)}
    (h : p.Safe (Logic.solo fun op log answer log' => log' = log ++ [⟨op, answer⟩]) post log)
    (answer : (op : Op) → σ → Resp op × σ) (s : σ) : ∃ log', post (p.eval answer s).1 log' := by
  induction p generalizing s log with
  | done a => exact ⟨log, h log rfl⟩
  | step op next ih => exact ih _ ((h log rfl).2 _ _ rfl) _

namespace Act

variable {answer : (op : Op) → σ → Resp op × σ} {state : ρ} {s : σ}

/-- How an action ends, with the private and the shared state it leaves. -/
def eval (answer : (op : Op) → σ → Resp op × σ) (p : Act Op Resp ρ ε α) (state : ρ) (s : σ) :
    Except ε α × ρ × σ :=
  let ended := (p state).eval answer s
  (ended.1.1, ended.1.2, ended.2)

theorem eval_pure (a : α) :
    (Pure.pure a : Act Op Resp ρ ε α).eval answer state s = (.ok a, state, s) := rfl

theorem eval_throw (e : ε) :
    (throw e : Act Op Resp ρ ε α).eval answer state s = (.error e, state, s) := rfl

theorem eval_get_bind (f : ρ → Act Op Resp ρ ε β) :
    (get >>= f).eval answer state s = (f state).eval answer state s := rfl

theorem eval_modify_bind (g : ρ → ρ) (f : Unit → Act Op Resp ρ ε β) :
    (modify g >>= f).eval answer state s = (f ()).eval answer (g state) s := rfl

theorem eval_call_bind (op : Op) (f : Resp op → Act Op Resp ρ ε β) :
    (call op >>= f).eval answer state s =
      (f (answer op s).1).eval answer state (answer op s).2 := rfl

theorem eval_bind (p : Act Op Resp ρ ε α) (f : α → Act Op Resp ρ ε β) :
    (p >>= f).eval answer state s =
      match p.eval answer state s with
      | (.ok a, state', s') => (f a).eval answer state' s'
      | (.error e, state', s') => (.error e, state', s') := by
  have hbind := Prog.eval_bind answer (p state) (fun
    | (.ok a, state) => f a state
    | (.error e, state) => .done (.error e, state)) s
  unfold eval
  rw [show (p >>= f) state = (p state).bind _ from rfl, hbind]
  generalize (p state).eval answer s = ended
  obtain ⟨⟨e | a, state₁⟩, s₁⟩ := ended <;> rfl

variable {p : Act Op Resp ρ ε α} {state' : ρ} {s' : σ}

theorem eval_bind_of_ok {a : α} (h : p.eval answer state s = (.ok a, state', s'))
    (f : α → Act Op Resp ρ ε β) : (p >>= f).eval answer state s = (f a).eval answer state' s' := by
  rw [eval_bind, h]

theorem eval_bind_of_error {e : ε} (h : p.eval answer state s = (.error e, state', s'))
    (f : α → Act Op Resp ρ ε β) : (p >>= f).eval answer state s = (.error e, state', s') := by
  rw [eval_bind, h]

theorem eval_bind_eq_ok {f : α → Act Op Resp ρ ε β} {b : β}
    (h : (p >>= f).eval answer state s = (.ok b, state', s')) :
    ∃ a state₁ s₁, p.eval answer state s = (.ok a, state₁, s₁) ∧
      (f a).eval answer state₁ s₁ = (.ok b, state', s') := by
  rw [eval_bind] at h
  split at h
  · rename_i a state₁ s₁ hp
    exact ⟨a, state₁, s₁, hp, h⟩
  · cases h

theorem eval_mapError {f : ε → ε'} (p : Act Op Resp ρ ε α) :
    (p.mapError f).eval answer state s =
      ((p.eval answer state s).1.mapError f, (p.eval answer state s).2) := by
  simp only [mapError, catchWith, eval, Prog.eval_bind]
  generalize (p state).eval answer s = ended
  obtain ⟨⟨e | a, state₁⟩, s₁⟩ := ended <;> rfl

theorem eval_outcome (p : Act Op Resp ρ ε α) :
    (p.outcome : Act Op Resp ρ ε' (Except ε α)).eval answer state s =
      (.ok (p.eval answer state s).1, (p.eval answer state s).2) := by
  simp only [outcome, eval, Prog.eval_bind]
  rfl

end Act

end

end Eidnara.Lib
