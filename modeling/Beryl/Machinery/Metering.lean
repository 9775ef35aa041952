import Beryl.Machinery.Fallible

/-!
# Machinery/Metering — steps that are counted

A `Metered` step counts what it reads and what it writes, and fails once a limit is reached.
`Spends R W x r w a` says that `x` answers `a` with at most `r` reads and `w` writes more, on every
meter that has so many left.  What steps spend adds up (`Spends.bind`), so **a run whose total lies
within the limits never trips them** (`Spends.once_eq`).
-/

namespace Beryl.Metering

open Fallible

variable {ε α β : Type}

/-- What has been read and written so far. -/
structure Meter where
  reads : ℕ
  writes : ℕ

/-- A step that may fail and is counted. -/
abbrev Metered (ε α : Type) := StateT Meter (Except ε) α

/-- A step that counts as one read. -/
def reading (limit : ℕ) (full : ε) (x : Except ε α) : Metered ε α := fun meter => do
  ensure (meter.reads < limit) full
  let a ← x
  return (a, { meter with reads := meter.reads + 1 })

/-- A step that counts as one write. -/
def writing (limit : ℕ) (full : ε) (x : Except ε α) : Metered ε α := fun meter => do
  ensure (meter.writes < limit) full
  let a ← x
  return (a, { meter with writes := meter.writes + 1 })

/-- A run on a fresh meter. -/
def once (x : Metered ε α) : Except ε α := Prod.fst <$> x ⟨0, 0⟩

/-- **A step answers within its share of the limits.** -/
def Spends (R W : ℕ) (x : Metered ε α) (r w : ℕ) (a : α) : Prop :=
  ∀ meter, meter.reads + r ≤ R → meter.writes + w ≤ W → ∃ meter', x meter = .ok (a, meter')
    ∧ meter'.reads ≤ meter.reads + r ∧ meter'.writes ≤ meter.writes + w

variable {R W r w r' w' : ℕ} {x : Metered ε α} {f : α → Metered ε β} {a : α} {b : β} {full : ε}

theorem spends_pure (a : α) : Spends R W (pure a : Metered ε α) 0 0 a := fun meter _ _ =>
  ⟨meter, rfl, Nat.le_refl _, Nat.le_refl _⟩

theorem spends_reading {x : Except ε α} (h : x = .ok a) :
    Spends R W (reading R full x) 1 0 a := fun meter hr _ =>
  ⟨{ meter with reads := meter.reads + 1 },
    by rw [reading, ensure_bind (by omega), h]; rfl, Nat.le_refl _, Nat.le_refl _⟩

theorem spends_writing {x : Except ε α} (h : x = .ok a) :
    Spends R W (writing W full x) 0 1 a := fun meter _ hw =>
  ⟨{ meter with writes := meter.writes + 1 },
    by rw [writing, ensure_bind (by omega), h]; rfl, Nat.le_refl _, Nat.le_refl _⟩

/-- After a step that stays within its share, the rest runs on a meter that has the rest left. -/
theorem Spends.run_bind (hx : Spends R W x r w a) (meter : Meter) (hr : meter.reads + r ≤ R)
    (hw : meter.writes + w ≤ W) : ∃ meter', (x >>= f) meter = f a meter'
      ∧ meter'.reads ≤ meter.reads + r ∧ meter'.writes ≤ meter.writes + w := by
  obtain ⟨meter', hx, hle⟩ := hx meter hr hw
  refine ⟨meter', ?_, hle⟩
  show (x meter >>= fun p => f p.1 p.2) = _
  rw [hx, ok_bind]

theorem Spends.bind (hx : Spends R W x r w a) (hf : Spends R W (f a) r' w' b) :
    Spends R W (x >>= f) (r + r') (w + w') b := by
  intro meter hr hw
  obtain ⟨meter₁, hx, hr₁, hw₁⟩ := hx.run_bind (f := f) meter (by omega) (by omega)
  obtain ⟨meter₂, hf, hr₂, hw₂⟩ := hf meter₁ (by omega) (by omega)
  exact ⟨meter₂, hx.trans hf, by omega, by omega⟩

/-- A step that is not counted, in front of one that is. -/
theorem Spends.lift_bind {x : Except ε α} (h : x = .ok a) (hf : Spends R W (f a) r w b) :
    Spends R W ((liftM x : Metered ε α) >>= f) r w b := by
  subst h
  exact hf

theorem Spends.mono (hx : Spends R W x r w a) (hr : r ≤ r') (hw : w ≤ w') :
    Spends R W x r' w' a := by
  intro meter hr' hw'
  obtain ⟨meter', hx, hr₁, hw₁⟩ := hx meter (by omega) (by omega)
  exact ⟨meter', hx, by omega, by omega⟩

theorem Spends.bind_le {rs ws : ℕ} (hx : Spends R W x r w a) (hf : Spends R W (f a) r' w' b)
    (hr : r + r' ≤ rs) (hw : w + w' ≤ ws) : Spends R W (x >>= f) rs ws b := (hx.bind hf).mono hr hw

theorem Spends.once_eq (hx : Spends R W x r w a) (hr : r ≤ R) (hw : w ≤ W) : once x = .ok a := by
  obtain ⟨meter, hx, -⟩ := hx ⟨0, 0⟩ (by simpa using hr) (by simpa using hw)
  rw [once, hx]
  rfl

/-- A step that is not counted, in front of a run. -/
theorem once_lift_bind (x : Except ε α) (f : α → Metered ε β) :
    once ((liftM x : Metered ε α) >>= f) = x >>= fun a => once (f a) := by
  cases x <;> rfl

end Beryl.Metering
