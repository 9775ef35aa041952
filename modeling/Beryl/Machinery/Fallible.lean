import Mathlib.Data.List.Forall2
import Mathlib.Algebra.Order.Ring.Nat

/-!
# Machinery/Fallible — steps that may fail, and sums that may overflow

A fallible step is a value of `Except ε α`.  Chains of such steps are taken apart from the back:
`bind_eq_ok` turns a successful chain into its successful links, `ensure_eq_ok` a passed check into
the fact it checked, and `checkedAdd_eq_ok` a passed sum into the bound it stayed under.

`Meets x c Q` is the specification of a step with both halves: whatever `x` answers is as `Q` says,
and under `c` it does answer.  Specifications are chained by `Meets.bind`.
-/

namespace Beryl.Fallible

open List

universe u
variable {ε : Type u} {α β : Type u}

@[simp] theorem ok_bind (a : α) (f : α → Except ε β) : ((.ok a : Except ε α) >>= f) = f a := rfl

@[simp] theorem error_bind (e : ε) (f : α → Except ε β) :
    ((.error e : Except ε α) >>= f) = .error e := rfl

@[simp] theorem pure_eq_ok (a : α) : (pure a : Except ε α) = .ok a := rfl

theorem pure_eq_ok_iff {a b : α} : (pure a : Except ε α) = .ok b ↔ a = b := by simp

@[simp] theorem throw_eq_error (e : ε) : (throw e : Except ε α) = .error e := rfl

variable {x : Except ε α} {f : α → Except ε β} {p : Prop} {b : β} {ε' : Type u} {u : Unit}

/-- **A successful chain is a chain of successes.** -/
theorem bind_eq_ok : (x >>= f) = .ok b ↔ ∃ a, x = .ok a ∧ f a = .ok b := by
  cases x with
  | error e => simp
  | ok a => simp

@[simp] theorem mapError_ok (f : ε → ε') (a : α) :
    (Except.ok a : Except ε α).mapError f = .ok a := rfl

theorem mapError_eq_ok {f : ε → ε'} {a : α} : x.mapError f = .ok a ↔ x = .ok a := by
  cases x <;> simp [Except.mapError]

theorem map_eq_ok {f : α → β} : x.map f = .ok b ↔ ∃ a, x = .ok a ∧ f a = b := by
  cases x <;> simp [Except.map]

/-- The one value of a computation that succeeds. -/
theorem eq_ok_iff_of_eq {a b : α} (h : x = .ok a) : x = .ok b ↔ b = a := by
  rw [h, Except.ok.injEq, eq_comm]

/-! ## Passes over a list -/

/-- **A pass over a list succeeds exactly when each of its steps does.** -/
theorem mapM_eq_ok : ∀ {as} {bs}, as.mapM f = .ok bs ↔ List.Forall₂ (fun a b => f a = .ok b) as bs
  | [], bs => by
    rw [mapM_nil, pure_eq_ok, Except.ok.injEq, forall₂_nil_left_iff, eq_comm]
  | a :: as, bs => by
    rw [mapM_cons, bind_eq_ok, forall₂_cons_left_iff]
    refine exists_congr fun b => ?_
    rw [bind_eq_ok]
    constructor
    · rintro ⟨hb, bs', hbs', hpure⟩
      exact ⟨bs', hb, mapM_eq_ok.mp hbs', (Except.ok.inj hpure).symm⟩
    · rintro ⟨bs', hb, hbs', rfl⟩
      exact ⟨hb, bs', mapM_eq_ok.mpr hbs', rfl⟩

/-- A pass each of whose steps succeeds. -/
theorem exists_mapM {as : List α} (h : ∀ a ∈ as, ∃ b, f a = .ok b) : ∃ bs, as.mapM f = .ok bs := by
  induction as with
  | nil => exact ⟨[], rfl⟩
  | cons a as ih =>
    obtain ⟨b, hb⟩ := h a mem_cons_self
    obtain ⟨bs, hbs⟩ := ih fun a' ha' => h a' (.tail _ ha')
    exact ⟨b :: bs, mapM_eq_ok.mpr (.cons hb (mapM_eq_ok.mp hbs))⟩

/-- A scan of checks succeeds exactly when each of them does. -/
theorem forM_eq_ok {ε α : Type} {f : α → Except ε Unit} {as : List α} :
    as.forM f = .ok u ↔ ∀ a ∈ as, f a = .ok () := by
  induction as with
  | nil => simp
  | cons a as ih =>
    change (f a >>= fun _ => as.forM f) = .ok u ↔ _
    rw [bind_eq_ok, forall_mem_cons]
    exact ⟨fun ⟨_, ha, has⟩ => ⟨ha, ih.mp has⟩, fun ⟨ha, has⟩ => ⟨(), ha, ih.mpr has⟩⟩

/-- A list in which others have taken the place of an element. -/
theorem forall_mem_middle {p : α → Prop} {before mid after : List α} {a : α}
    (h : ∀ b ∈ before ++ a :: after, p b) (hmid : ∀ b ∈ mid, p b) :
    ∀ b ∈ before ++ mid ++ after, p b := by
  simp only [forall_mem_append, forall_mem_cons] at h ⊢
  exact ⟨⟨h.1, hmid⟩, h.2.2⟩

section

variable {γ : Type u} {R : α → β → Prop} {S : β → γ → Prop} {as : List α} {bs : List β}
  {cs : List γ}

variable (h : List.Forall₂ R as bs)
include h

theorem exists_right {a : α} (ha : a ∈ as) : ∃ b ∈ bs, R a b := by
  induction h with
  | nil => cases ha
  | cons hab _ ih =>
    rcases mem_cons.mp ha with rfl | ha
    · exact ⟨_, mem_cons_self, hab⟩
    · obtain ⟨b, hb, hR⟩ := ih ha
      exact ⟨b, .tail _ hb, hR⟩

theorem exists_left (hb : b ∈ bs) : ∃ a ∈ as, R a b :=
  @exists_right _ _ (flip R) _ _ h.flip _ hb

/-- Two passes, one after the other. -/
theorem forall₂_trans :
    ∀ {cs}, List.Forall₂ S bs cs → List.Forall₂ (fun a c => ∃ b, R a b ∧ S b c) as cs := by
  induction h with
  | nil =>
    rintro _ ⟨⟩
    exact .nil
  | cons hab _ ih =>
    rintro _ (_ | ⟨hbc, hrest⟩)
    exact .cons ⟨_, hab, hbc⟩ (ih hrest)

/-- A pass that keeps an entry of what it passes over. -/
theorem map_eq_map_of_forall₂ {κ : Type} {f : α → κ} {g : β → κ}
    (hR : ∀ a b, R a b → g b = f a) : bs.map g = as.map f := by
  induction h with
  | nil => rfl
  | cons hab _ ih => rw [map_cons, map_cons, hR _ _ hab, ih]

end

/-! ## Checks -/

/-- Fail with `e` unless `p` holds. -/
def ensure {ε : Type} (p : Prop) [Decidable p] (e : ε) : Except ε Unit :=
  if p then .ok () else .error e

@[simp] theorem ensure_eq_ok {ε : Type} [Decidable p] {e : ε} : ensure p e = .ok u ↔ p := by
  unfold ensure
  split <;> simp_all

theorem ensure_true {ε : Type} [Decidable p] {e : ε} (h : p) : ensure p e = .ok () := if_pos h

theorem ensure_bind {ε β : Type} [Decidable p] {e : ε} {f : Unit → Except ε β} (h : p) :
    (ensure p e >>= f) = f () := by
  rw [ensure_true h, ok_bind]

theorem ensure_false {ε : Type} [Decidable p] {e : ε} (h : ¬ p) : ensure p e = .error e := if_neg h

/-- The value of an option, or the error of its absence. -/
def required {ε : Type} {α : Type} (e : ε) : Option α → Except ε α
  | none => .error e
  | some a => .ok a

@[simp] theorem required_some {ε α : Type} (e : ε) (a : α) : required e (some a) = .ok a := rfl
theorem required_bind {ε α β : Type} {e : ε} {a : α} {f : α → Except ε β} :
    (required e (some a) >>= f) = f a := rfl
@[simp] theorem required_none {ε α : Type} (e : ε) : required e (none : Option α) = .error e := rfl

theorem required_eq_ok {ε α : Type} {e : ε} {o : Option α} {a : α} :
    required e o = .ok a ↔ o = some a := by
  cases o <;> simp

/-! ## Specifications -/

/-- **A computation meets its specification**: every answer is as `Q` says, and under `c` there is
one. -/
structure Meets {ε α : Type} (x : Except ε α) (c : Prop) (Q : α → Prop) : Prop where
  sound : ∀ {a : α}, x = .ok a → Q a
  total : c → ∃ a, x = .ok a

section

variable {ε α β : Type} {x : Except ε α} {f : α → Except ε β} {c c' : Prop} {Q : α → Prop}

theorem meets_ok {a : α} (h : Q a) : Meets (.ok a : Except ε α) c Q :=
  ⟨fun heq => Except.ok.inj heq ▸ h, fun _ => ⟨a, rfl⟩⟩

theorem meets_ensure [Decidable p] {e : ε} (h : c → p) : Meets (ensure p e) c fun _ => p :=
  ⟨ensure_eq_ok.mp, fun hc => ⟨(), ensure_true (h hc)⟩⟩

theorem Meets.bind {R : β → Prop} (h : Meets x c Q) (hf : ∀ a, Q a → Meets (f a) c R) :
    Meets (x >>= f) c R := by
  constructor
  · intro b hb
    obtain ⟨a, ha, hb⟩ := bind_eq_ok.mp hb
    exact (hf a (h.sound ha)).sound hb
  · intro hc
    obtain ⟨a, ha⟩ := h.total hc
    obtain ⟨b, hb⟩ := (hf a (h.sound ha)).total hc
    exact ⟨b, bind_eq_ok.mpr ⟨a, ha, hb⟩⟩

theorem Meets.mono {R : α → Prop} (h : Meets x c Q) (hc : c' → c) (hQ : ∀ a, Q a → R a) :
    Meets x c' R :=
  ⟨fun ha => hQ _ (h.sound ha), fun hc' => h.total (hc hc')⟩

end

/-! ## Checked sums -/

/-- One more than `u64::MAX`. -/
abbrev u64Size : ℕ := 2 ^ 64

/-- `checked_add` on `u64`, with the error its call site reports. -/
def checkedAdd {ε : Type} (overflow : ε) (a b : ℕ) : Except ε ℕ :=
  if a + b < u64Size then .ok (a + b) else .error overflow

theorem checkedAdd_of_lt {ε : Type} {overflow : ε} {a b : ℕ} (h : a + b < u64Size) :
    checkedAdd overflow a b = .ok (a + b) := if_pos h

theorem checkedAdd_bind {ε β : Type} {overflow : ε} {a b : ℕ} {f : ℕ → Except ε β}
    (h : a + b < u64Size) : (checkedAdd overflow a b >>= f) = f (a + b) := by
  rw [checkedAdd_of_lt h, ok_bind]

theorem checkedAdd_eq_ok {ε : Type} {overflow : ε} {a b n : ℕ} :
    checkedAdd overflow a b = .ok n ↔ a + b = n ∧ a + b < u64Size := by
  unfold checkedAdd
  split
  · simp_all
  · simp only [reduceCtorEq, false_iff]; omega

/-- `checked_sub`. -/
def checkedSub {ε : Type} (underflow : ε) (a b : ℕ) : Except ε ℕ :=
  if b ≤ a then .ok (a - b) else .error underflow

theorem checkedSub_of_le {ε : Type} {underflow : ε} {a b : ℕ} (h : b ≤ a) :
    checkedSub underflow a b = .ok (a - b) := if_pos h

theorem checkedSub_eq_ok {ε : Type} {underflow : ε} {a b n : ℕ} :
    checkedSub underflow a b = .ok n ↔ a = b + n := by
  unfold checkedSub
  split
  · rw [Except.ok.injEq]; omega
  · simp only [reduceCtorEq, false_iff]; omega

end Beryl.Fallible
