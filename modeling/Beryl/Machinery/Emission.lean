import Beryl.Machinery.Fallible

/-!
# Machinery/Emission — steps that move a state, emit outputs, and may fail

A step ends in `Emits ε σ ω`: an error, or the next state with the outputs it emitted, oldest first.
`andThen` chains two steps and concatenates what they emit; `run` takes a step for every letter of a
word.  Two rules carry the proofs: a run over an appended word is one run after the other
(`run_append`), and what every step keeps, a run keeps (`ends_run`).  `Ends P E x` is the
postcondition of a step: it ends in `P`, or fails with an error of `E`.
-/

namespace Beryl.Emission

variable {ε σ τ υ ω α : Type} {os : List ω} {s : σ}

/-- The outcome of a step: an error, or a state and the outputs emitted on the way to it. -/
abbrev Emits (ε σ ω : Type) := Except ε (σ × List ω)

/-- Reach `s`, having emitted `os`. -/
def emit (s : σ) (os : List ω) : Emits ε σ ω := .ok (s, os)

/-- The outcome of a step behind outputs emitted before it. -/
def behind (os : List ω) (x : Emits ε σ ω) : Emits ε σ ω :=
  x.map fun r => (r.1, os ++ r.2)

/-- One step after the other. -/
def andThen (x : Emits ε σ ω) (f : σ → Emits ε τ ω) : Emits ε τ ω :=
  Except.bind x fun r => behind r.2 (f r.1)

@[simp] theorem behind_nil (x : Emits ε σ ω) : behind [] x = x := by
  cases x <;> rfl

@[simp] theorem behind_emit (os os' : List ω) (s : σ) :
    behind os (emit s os' : Emits ε σ ω) = emit s (os ++ os') := rfl

@[simp] theorem behind_error (os : List ω) (e : ε) :
    behind os (.error e : Emits ε σ ω) = .error e := rfl

theorem behind_append (os os' : List ω) (x : Emits ε σ ω) :
    behind (os ++ os') x = behind os (behind os' x) := by
  cases x with
  | error e => rfl
  | ok r => simp [behind, Except.map]

section

variable (f : σ → Emits ε τ ω)

@[simp] theorem emit_andThen (s : σ) (os : List ω) : andThen (emit s os) f = behind os (f s) := rfl

@[simp] theorem ok_andThen (s : σ) (os : List ω) : andThen (.ok (s, os)) f = behind os (f s) := rfl

@[simp] theorem error_andThen (e : ε) : andThen (.error e) f = .error e := rfl

theorem behind_andThen (os : List ω) (x : Emits ε σ ω) :
    andThen (behind os x) f = behind os (andThen x f) := by
  cases x with
  | error e => rfl
  | ok r => exact behind_append os r.2 (f r.1)

theorem andThen_assoc (x : Emits ε σ ω) (g : τ → Emits ε υ ω) :
    andThen (andThen x f) g = andThen x fun s => andThen (f s) g := by
  cases x with
  | error e => rfl
  | ok r => exact behind_andThen g r.2 (f r.1)

end

/-- A step that reaches its state and emits nothing more changes nothing. -/
@[simp] theorem andThen_emit_nil (x : Emits ε σ ω) : andThen x (fun s => emit s []) = x := by
  cases x with
  | error e => rfl
  | ok r => exact congrArg (fun os => Except.ok (r.1, os)) (List.append_nil r.2)

variable {x : Emits ε σ ω} {all : List ω}

/-- Only the state reached matters to what follows. -/
theorem andThen_congr {f g : σ → Emits ε τ ω}
    (h : ∀ s os, x = .ok (s, os) → f s = g s) : andThen x f = andThen x g := by
  rcases x with e | ⟨s, os⟩
  · rfl
  · rw [ok_andThen, ok_andThen, h s os rfl]

theorem behind_eq_ok : behind os x = .ok (s, all) ↔ ∃ os', x = .ok (s, os') ∧ all = os ++ os' := by
  cases x with
  | error e => simp
  | ok r =>
    obtain ⟨s', os'⟩ := r
    simp only [behind, Except.map, Except.ok.injEq, Prod.mk.injEq]
    constructor
    · rintro ⟨rfl, rfl⟩
      exact ⟨os', ⟨rfl, rfl⟩, rfl⟩
    · rintro ⟨os'', ⟨rfl, rfl⟩, rfl⟩
      exact ⟨rfl, rfl⟩

/-- **A successful chain is a chain of successes**, and emits what its links emit. -/
theorem andThen_eq_ok {f : σ → Emits ε τ ω} {t : τ} : andThen x f = .ok (t, all) ↔
      ∃ s os os', x = .ok (s, os) ∧ f s = .ok (t, os') ∧ all = os ++ os' := by
  cases x with
  | error e => simp
  | ok r =>
    obtain ⟨s, os⟩ := r
    refine behind_eq_ok.trans ⟨?_, ?_⟩
    · rintro ⟨os', hf, rfl⟩
      exact ⟨s, os, os', rfl, hf, rfl⟩
    · rintro ⟨s', os₁, os', h, hf, rfl⟩
      cases h
      exact ⟨os', hf, rfl⟩

/-! ## Runs -/

/-- A step for every letter, in order. -/
def run (step : σ → α → Emits ε σ ω) : σ → List α → Emits ε σ ω
  | s, [] => emit s []
  | s, x :: xs => andThen (step s x) fun s => run step s xs

variable {step : σ → α → Emits ε σ ω}

@[simp] theorem run_nil (s : σ) : run step s [] = emit s [] := rfl

theorem run_cons (s : σ) (x : α) (xs : List α) :
    run step s (x :: xs) = andThen (step s x) fun s => run step s xs := rfl

@[simp] theorem run_singleton (s : σ) (x : α) : run step s [x] = step s x :=
  andThen_emit_nil _

/-- **A run over an appended word is one run after the other.** -/
theorem run_append (s : σ) (xs ys : List α) :
    run step s (xs ++ ys) = andThen (run step s xs) fun s => run step s ys := by
  induction xs generalizing s with
  | nil => simp
  | cons x xs ih =>
    rw [List.cons_append, run_cons, run_cons, andThen_assoc]
    exact congrArg _ (funext fun s => ih s)

/-- **A change that every step passes on, a run passes on.** -/
theorem run_commute {change : σ → σ}
    (hstep : ∀ s x, step (change s) x = andThen (step s x) fun s => emit (change s) [])
    (s : σ) (xs : List α) :
    run step (change s) xs = andThen (run step s xs) fun s => emit (change s) [] := by
  induction xs generalizing s with
  | nil => rfl
  | cons x xs ih =>
    rw [run_cons, run_cons, hstep, andThen_assoc, andThen_assoc]
    refine congrArg _ (funext fun s => ?_)
    rw [emit_andThen, behind_nil, ih]

/-! ## Postconditions -/

/-- The step ends in a state and outputs that satisfy `P`, or fails with an error of `E`. -/
def Ends (P : σ → List ω → Prop) (E : ε → Prop) : Emits ε σ ω → Prop
  | .ok (s, os) => P s os
  | .error e => E e

variable {P P' : σ → List ω → Prop} {Q : τ → List ω → Prop} {E : ε → Prop}

theorem ends_emit : Ends P E (emit s os) ↔ P s os := .rfl

theorem Ends.mono (h : Ends P E x) (hP : ∀ s os, P s os → P' s os) : Ends P' E x := by
  rcases x with e | ⟨s, os⟩
  · exact h
  · exact hP s os h

theorem Ends.of_eq_ok (h : Ends P E x) (hx : x = .ok (s, os)) : P s os := by
  rw [hx] at h
  exact h

theorem ends_behind (h : Ends (fun s os' => P s (os ++ os')) E x) : Ends P E (behind os x) := by
  rcases x with e | ⟨s, os'⟩
  · exact h
  · exact h

/-- **The postcondition of a chain**, link by link. -/
theorem Ends.andThen {f : σ → Emits ε τ ω} (h : Ends P E x)
    (hf : ∀ s os, P s os → Ends (fun t os' => Q t (os ++ os')) E (f s)) :
    Ends Q E (andThen x f) := by
  rcases x with e | ⟨s, os⟩
  · exact h
  · exact ends_behind (hf s os h)

/-- **What every step keeps, a run keeps**: `Holds` relates the letters read, the outputs emitted
and the state reached, and `Legal` is what is known of the letters. -/
theorem ends_run {Holds : List α → List ω → σ → Prop} {Legal : List α → Prop}
    (hlegal : ∀ {xs ys}, Legal (xs ++ ys) → Legal xs)
    (hstep : ∀ {xs os s x}, Legal (xs ++ [x]) → Holds xs os s →
      Ends (fun s' os' => Holds (xs ++ [x]) (os ++ os') s') E (step s x))
    {xs : List α} (h : Holds xs os s) {ys : List α} (hys : Legal (xs ++ ys)) :
    Ends (fun s' os' => Holds (xs ++ ys) (os ++ os') s') E (run step s ys) := by
  induction ys generalizing xs os s with
  | nil => simpa [ends_emit] using h
  | cons y ys ih =>
    have hcons : xs ++ y :: ys = xs ++ [y] ++ ys := by simp
    rw [hcons] at hys ⊢
    refine (hstep (hlegal hys) h).andThen fun s₁ os₁ h₁ => ?_
    simpa using ih h₁ hys

end Beryl.Emission
