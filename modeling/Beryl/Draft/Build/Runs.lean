import Beryl.Draft.Sequence.Tree
import Beryl.Machinery.Replace

/-!
# Draft/Build/Runs — a coordinate map, written as runs

A build keeps a map between the units of the predecessor and the units of the draft under
construction, written as runs: units copied, units deleted, units inserted.  `tagsFrom` spells the
runs out: **each unit of the draft, tagged with the unit of the predecessor it is a copy of.**  The
three operations of a leaf of the map are read on the tags: a source cut finds a tag
(`cutRuns_of_tag`), an insertion puts untagged units in (`exists_insertRuns`), a deletion cuts a
range of tags out (`tagsFrom_deleteRuns`).
-/

namespace Beryl.Draft

open Fallible Replace List

/-! ## Measures -/

/-- `MAX_UNITS`. -/
def maxUnits : ℕ := 2 * (u64Size - 1)

/-- `Measure`: units of the predecessor, units of the draft. -/
@[ext] structure Measure where
  source : ℕ
  target : ℕ
  deriving DecidableEq

/-- `Measure::valid`. -/
def Measure.valid (measure : Measure) (nonempty : Bool) : Bool :=
  measure.source ≤ maxUnits ∧ measure.target ≤ maxUnits
    ∧ (nonempty = false ∨ measure.source ≠ 0 ∨ measure.target ≠ 0)

/-- `Measure::add`; an overflow of the sum is beyond `MAX_UNITS` and fails alike. -/
def Measure.add (a b : Measure) : Prepared Measure := do
  let value : Measure := ⟨a.source + b.source, a.target + b.target⟩
  ensure (value.valid false = true) .invalidRoot
  return value

/-- `Run`. -/
inductive Run
  | copy (n : ℕ)
  | deleted (n : ℕ)
  | inserted (n : ℕ)
  deriving DecidableEq

namespace Run

/-- `Run::length`. -/
def length : Run → ℕ
  | copy n | deleted n | inserted n => n

/-- `Run::with_length`. -/
def withLength : Run → ℕ → Run
  | copy _, n => copy n
  | deleted _, n => deleted n
  | inserted _, n => inserted n

/-- `Run::measure`. -/
def measure : Run → Measure
  | copy n => ⟨n, n⟩
  | deleted n => ⟨n, 0⟩
  | inserted n => ⟨0, n⟩

/-- The run covers units that are no longer there. -/
def isDeleted : Run → Bool
  | deleted _ => true
  | _ => false

/-- The run covers units that are still there. -/
def isCopy : Run → Bool
  | copy _ => true
  | _ => false

end Run

open Run

/-! ## The operations of a leaf -/

/-- A source cut inside a run. -/
def Run.cut (requireCopy : Bool) (x target : ℕ) : Run → Prepared ℕ
  | .copy _ => .ok (target + x)
  | .deleted _ => if requireCopy then .error .invalidRoot else .ok target
  | .inserted _ => .error .invalidRoot

/-- The loop of `source_cut` over the runs of a leaf. -/
def cutRuns (requireCopy : Bool) : ℕ → ℕ → List Run → Prepared ℕ
  | x, target, [] => if x = 0 ∧ requireCopy = false then .ok target else .error .invalidRoot
  | x, target, run :: runs =>
    if x < run.measure.source then run.cut requireCopy x target
    else cutRuns requireCopy (x - run.measure.source) (target + run.measure.target) runs

/-- The loop of `insert` over the runs of a leaf. -/
def insertRuns (length : ℕ) : ℕ → List Run → Prepared (List Run)
  | remaining, [] => if remaining ≠ 0 then .error .invalidRoot else .ok [.inserted length]
  | remaining, run :: runs =>
    if remaining ≤ run.measure.target then
      .ok ((if 0 < remaining then [run.withLength remaining] else []) ++ [.inserted length]
        ++ (if remaining < run.length then [run.withLength (run.length - remaining)]
          else []) ++ runs)
    else do
      let rest ← insertRuns length (remaining - run.measure.target) runs
      return run :: rest

/-- What `delete_leaf` leaves of a run it deletes the units `lo ≤ i < hi` of. -/
def splitRun (lo hi cursor : ℕ) (run : Run) : List Run :=
  (if cursor < lo then [run.withLength (lo - cursor)] else [])
    ++ (if run.isCopy = true then [.deleted (hi - lo)] else [])
    ++ if hi < cursor + run.measure.target then [run.withLength (cursor + run.measure.target - hi)]
      else []

/-- What `delete_leaf` leaves of one run. -/
def deleteRun (a stop cursor : ℕ) (run : Run) : List Run :=
  let lo := max cursor a
  let hi := min (cursor + run.measure.target) stop
  if hi ≤ lo ∨ run.isDeleted = true then [run] else splitRun lo hi cursor run

/-- The loop of `delete_leaf` over the runs of a leaf. -/
def deleteRuns (a stop : ℕ) : ℕ → List Run → List Run
  | _, [] => []
  | cursor, run :: runs =>
    deleteRun a stop cursor run ++ deleteRuns a stop (cursor + run.measure.target) runs

/-! ## Tags -/

/-- The units of the predecessor under a run of leaves. -/
def sourceOf (runs : List Run) : ℕ := (runs.map (·.measure.source)).sum

/-- The units of the draft under a run of leaves. -/
def targetOf (runs : List Run) : ℕ := (runs.map (·.measure.target)).sum

section

variable (r : Run) (a b : List Run)

@[simp] theorem sourceOf_nil : sourceOf [] = 0 := rfl
@[simp] theorem targetOf_nil : targetOf [] = 0 := rfl
@[simp] theorem sourceOf_cons : sourceOf (r :: a) = r.measure.source + sourceOf a := rfl
@[simp] theorem targetOf_cons : targetOf (r :: a) = r.measure.target + targetOf a := rfl
@[simp] theorem sourceOf_append : sourceOf (a ++ b) = sourceOf a + sourceOf b := by simp [sourceOf]
@[simp] theorem targetOf_append : targetOf (a ++ b) = targetOf a + targetOf b := by simp [targetOf]

end

/-- The tags of one run whose first unit of the predecessor is `s`. -/
def Run.tags (s : ℕ) : Run → List (Option ℕ)
  | .copy n => (List.range' s n).map some
  | .deleted _ => []
  | .inserted n => List.replicate n none

/-- **The draft, each unit tagged with the unit of the predecessor it copies.** -/
def tagsFrom : ℕ → List Run → List (Option ℕ)
  | _, [] => []
  | s, run :: runs => run.tags s ++ tagsFrom (s + run.measure.source) runs

@[simp] theorem tagsFrom_nil (s : ℕ) : tagsFrom s [] = [] := rfl
@[simp] theorem tagsFrom_cons (s : ℕ) (run : Run) (runs : List Run) :
    tagsFrom s (run :: runs) = run.tags s ++ tagsFrom (s + run.measure.source) runs := rfl

theorem tagsFrom_append : ∀ s a b, tagsFrom s (a ++ b) = tagsFrom s a ++ tagsFrom (s + sourceOf a) b
  | _, [], _ => by simp
  | s, r :: a, b => by simp [tagsFrom_append _ a b, add_assoc]

@[simp] theorem Run.length_tags (s : ℕ) (run : Run) : (run.tags s).length = run.measure.target := by
  cases run <;> simp [tags, measure]

@[simp] theorem length_tagsFrom : ∀ s runs, (tagsFrom s runs).length = targetOf runs
  | _, [] => rfl
  | s, r :: runs => by simp [length_tagsFrom _ runs]

theorem Run.target_le_length (run : Run) : run.measure.target ≤ run.length := by
  cases run <;> simp [measure, Run.length]

theorem mem_tagsFrom : ∀ {runs} {s v}, some v ∈ tagsFrom s runs → s ≤ v ∧ v < s + sourceOf runs
  | run :: runs, s, v, h => by
    rw [tagsFrom_cons, mem_append] at h
    rw [sourceOf_cons]
    rcases h with h | h
    · cases run with
      | copy n =>
        have : s ≤ v ∧ v < s + n := by simpa [tags, mem_range'_1] using h
        simp only [Run.measure]
        omega
      | deleted | inserted => simp [tags] at h
    · have := mem_tagsFrom h
      omega

/-! ## Source cuts -/

/-- A cut skips the runs whose units of the predecessor lie in front of it. -/
theorem cutRuns_append (requireCopy : Bool) : ∀ x target a b, cutRuns requireCopy x target (a ++ b)
      = if x < sourceOf a then cutRuns requireCopy x target a
        else cutRuns requireCopy (x - sourceOf a) (target + targetOf a) b
  | x, target, [], b => by simp
  | x, target, r :: a, b => by
    rw [cons_append, cutRuns, cutRuns, sourceOf_cons, targetOf_cons]
    by_cases hx : x < r.measure.source
    · rw [if_pos hx, if_pos hx, if_pos (by omega)]
    · rw [if_neg hx, if_neg hx, cutRuns_append requireCopy _ _ a b]
      by_cases ha : x - r.measure.source < sourceOf a
      · rw [if_pos ha, if_pos (by omega)]
      · rw [if_neg ha, if_neg (by omega), Nat.sub_sub, add_assoc]

/-- **A cut at a copied unit finds the copy.** -/
theorem cutRuns_of_tag (requireCopy : Bool) : ∀ {runs} {s x i} target,
    (tagsFrom s runs)[i]? = some (some (s + x)) →
      cutRuns requireCopy x target runs = .ok (target + i)
  | [], _, _, _, _, h => by simp at h
  | run :: runs, s, x, i, target, h => by
    rw [tagsFrom_cons, getElem?_append, length_tags] at h
    by_cases hi : i < run.measure.target
    · rw [if_pos hi] at h
      cases run with
      | copy n =>
        have hin : i < n := hi
        obtain rfl : i = x := by simpa [tags, hin] using h
        exact if_pos hin
      | deleted n => exact absurd hi (Nat.not_lt_zero i)
      | inserted n => simp [tags, getElem?_replicate] at h
    · rw [if_neg hi] at h
      have hx := (mem_tagsFrom (mem_of_getElem? h)).1
      rw [cutRuns, if_neg (by omega)]
      have := cutRuns_of_tag requireCopy (target + run.measure.target)
        (h.trans (by rw [show s + x = s + run.measure.source + (x - run.measure.source) by omega]))
      rw [this]
      congr 1
      omega

/-- A cut behind the last unit of the predecessor is the end of the draft. -/
theorem cutRuns_end : ∀ target runs,
    cutRuns false (sourceOf runs) target runs = .ok (target + targetOf runs)
  | target, [] => rfl
  | target, run :: runs => by
    rw [cutRuns, sourceOf_cons, if_neg (by omega), Nat.add_sub_cancel_left,
      cutRuns_end (target + run.measure.target) runs, targetOf_cons, add_assoc]

/-- **Cuts at the copied end of the predecessor**, behind the last edit. -/
theorem cutRuns_tail {runs : List Run} {A : List (Option ℕ)} {c k u : ℕ}
    (htags : tagsFrom 0 runs = A ++ (List.range' c k).map some) (hsrc : sourceOf runs = c + k)
    (hc : c ≤ u) (hu : u ≤ c + k) : cutRuns false u 0 runs = .ok (A.length + (u - c)) := by
  rcases hu.lt_or_eq with hlt | rfl
  · have htag : (tagsFrom 0 runs)[A.length + (u - c)]? = some (some (0 + u)) := by
      rw [htags, getElem?_append_right (by omega)]
      simp [show u - c < k by omega, Nat.add_sub_cancel' hc]
    rw [cutRuns_of_tag false 0 htag, zero_add]
  · have hlen := length_tagsFrom 0 runs
    rw [htags] at hlen
    simp only [length_append, length_map, length_range'] at hlen
    rw [← hsrc, cutRuns_end, hsrc]
    congr 1
    omega

/-! ## Units -/

/-- What has become of a unit. -/
inductive RunUnit
  | copy | deleted | inserted
  deriving DecidableEq

/-- The units of a run are alike. -/
def Run.unit : Run → RunUnit
  | copy _ => .copy
  | deleted _ => .deleted
  | inserted _ => .inserted

/-- **The runs, spelled out.** -/
def spelled (runs : List Run) : List RunUnit :=
  runs.flatMap fun run => List.replicate run.length run.unit

@[simp] theorem spelled_nil : spelled [] = [] := rfl
@[simp] theorem spelled_cons (run : Run) (runs : List Run) :
    spelled (run :: runs) = List.replicate run.length run.unit ++ spelled runs := flatMap_cons
@[simp] theorem spelled_append (a b : List Run) : spelled (a ++ b) = spelled a ++ spelled b :=
  flatMap_append

@[simp] theorem Run.unit_withLength (run : Run) (k : ℕ) : (run.withLength k).unit = run.unit := by
  cases run <;> rfl

@[simp] theorem Run.length_withLength (run : Run) (k : ℕ) : (run.withLength k).length = k := by
  cases run <;> rfl

/-- A run of no units may as well be left out. -/
theorem spelled_optional {k : ℕ} (run : Run) {p : Prop} [Decidable p] (hp : p ↔ 0 < k) :
    spelled (if p then [run.withLength k] else []) = List.replicate k run.unit := by
  split
  · simp
  · rename_i h
    obtain rfl : k = 0 := Nat.eq_zero_of_not_pos (hp.not.mp h)
    rfl

/-- The unit of the predecessor a unit stands for, if any. -/
def RunUnit.source : RunUnit → ℕ
  | copy | deleted => 1
  | inserted => 0

/-- The unit of the draft a unit stands for, if any. -/
def RunUnit.target : RunUnit → ℕ
  | copy | inserted => 1
  | deleted => 0

/-- The units of the predecessor among some units. -/
def sourcesIn (units : List RunUnit) : ℕ := (units.map (·.source)).sum

/-- The units of the draft among some units. -/
def targetsIn (units : List RunUnit) : ℕ := (units.map (·.target)).sum

@[simp] theorem sourcesIn_nil : sourcesIn [] = 0 := rfl
@[simp] theorem targetsIn_nil : targetsIn [] = 0 := rfl
@[simp] theorem sourcesIn_cons (u : RunUnit) (x : List RunUnit) :
    sourcesIn (u :: x) = u.source + sourcesIn x := sum_cons
@[simp] theorem targetsIn_cons (u : RunUnit) (x : List RunUnit) :
    targetsIn (u :: x) = u.target + targetsIn x := sum_cons
@[simp] theorem sourcesIn_append (x y : List RunUnit) :
    sourcesIn (x ++ y) = sourcesIn x + sourcesIn y := by simp [sourcesIn]
@[simp] theorem targetsIn_append (x y : List RunUnit) :
    targetsIn (x ++ y) = targetsIn x + targetsIn y := by simp [targetsIn]

theorem targetsIn_replicate (run : Run) :
    targetsIn (List.replicate run.length run.unit) = run.measure.target := by
  cases run <;> simp [targetsIn, Run.unit, RunUnit.target, Run.length, Run.measure]

@[simp] theorem targetsIn_spelled (runs : List Run) : targetsIn (spelled runs) = targetOf runs := by
  induction runs with
  | nil => rfl
  | cons run runs ih => rw [spelled_cons, targetsIn_append, targetsIn_replicate, ih, targetOf_cons]

@[simp] theorem sourcesIn_spelled (runs : List Run) : sourcesIn (spelled runs) = sourceOf runs := by
  induction runs with
  | nil => rfl
  | cons run runs ih =>
    rw [spelled_cons, sourcesIn_append, ih, sourceOf_cons]
    cases run <;> simp [sourcesIn, Run.unit, RunUnit.source, Run.length, Run.measure]

/-- The tags of units. -/
def tagsOf : ℕ → List RunUnit → List (Option ℕ)
  | _, [] => []
  | s, .copy :: units => some s :: tagsOf (s + 1) units
  | s, .deleted :: units => tagsOf (s + 1) units
  | s, .inserted :: units => none :: tagsOf s units

theorem tagsOf_replicate (s n : ℕ) (units : List RunUnit) :
    tagsOf s (List.replicate n .inserted ++ units) = List.replicate n none ++ tagsOf s units := by
  induction n with
  | zero => rfl
  | succ n ih => simp [replicate_succ, tagsOf, ih]

theorem tagsFrom_eq : ∀ s runs, tagsFrom s runs = tagsOf s (spelled runs)
  | _, [] => rfl
  | s, run :: runs => by
    rw [tagsFrom_cons, spelled_cons, tagsFrom_eq _ runs]
    cases run with
    | inserted n => exact (tagsOf_replicate s n _).symm
    | copy n | deleted n =>
      simp only [tags, Run.measure, Run.length, Run.unit]
      induction n generalizing s with
      | zero => rfl
      | succ n ih =>
        have hs : s + (n + 1) = s + 1 + n := by omega
        simp [replicate_succ, range'_succ, tagsOf, ← ih (s + 1), hs]

/-! ## Edits of units -/

/-- The units of the draft from `a` to `stop` deleted: a copy is deleted, an insertion taken back.
-/
def deleteUnits (a stop : ℕ) : ℕ → List RunUnit → List RunUnit
  | _, [] => []
  | cursor, .deleted :: units => .deleted :: deleteUnits a stop cursor units
  | cursor, .copy :: units => (if a ≤ cursor ∧ cursor < stop then .deleted else .copy)
      :: deleteUnits a stop (cursor + 1) units
  | cursor, .inserted :: units => (if a ≤ cursor ∧ cursor < stop then [] else [.inserted])
      ++ deleteUnits a stop (cursor + 1) units

/-- Units inserted into the tags. -/
def insertTags (at' n : ℕ) (tags : List (Option ℕ)) : List (Option ℕ) :=
  tags.take at' ++ List.replicate n none ++ tags.drop at'

/-- **Runs that stand for edited tags**: every unit of the predecessor is still accounted for. -/
structure RunsEdited (runs out : List Run) (f : List (Option ℕ) → List (Option ℕ)) : Prop where
  tags : ∀ s, tagsFrom s out = f (tagsFrom s runs)
  source : sourceOf out = sourceOf runs
  nonzero : ∀ r ∈ out, 0 < r.length

/-- The tags of units depend on their spelling only. -/
theorem RunsEdited.of_spelled {runs runs' out : List Run} {f : List (Option ℕ) → List (Option ℕ)}
    (h : RunsEdited runs out f) (hspell : spelled runs = spelled runs') :
        RunsEdited runs' out f := by
  refine ⟨fun s => ?_, ?_, h.nonzero⟩
  · rw [h.tags, tagsFrom_eq, hspell, ← tagsFrom_eq]
  · rw [h.source, ← sourcesIn_spelled, hspell, sourcesIn_spelled]

section

variable {n at' : ℕ} {runs out before after : List Run}

/-- **A run inserted**, in front of whatever is deleted at its place. -/
def RunInserted (n at' : ℕ) (runs out : List Run) : Prop :=
  ∃ l r, out = l ++ .inserted n :: r ∧ spelled (l ++ r) = spelled runs ∧ targetOf l = at'
    ∧ ∀ run ∈ l.getLast?, run.isDeleted = false

/-- A run inserted among some runs is inserted among more. -/
theorem RunInserted.frame (h : RunInserted n (at' - targetOf before) runs out)
    (hat : before = [] ∨ targetOf before < at') :
    RunInserted n at' (before ++ runs ++ after) (before ++ out ++ after) := by
  obtain ⟨l, r, rfl, hspell, htgt, hlast⟩ := h
  refine ⟨before ++ l, r ++ after, by simp, ?_, ?_, fun run hrun => ?_⟩
  · simp only [spelled_append, append_assoc, ← hspell]
  · rw [targetOf_append, htgt]
    rcases hat with rfl | hlt
    · simp
    · omega
  by_cases hl : l = []
  · obtain rfl := hat.resolve_right (by subst hl; simp at htgt; omega)
    simp [hl] at hrun
  · exact hlast run (by rwa [getLast?_append_of_ne_nil before hl] at hrun)

/-- **A run inserted puts untagged units in.** -/
theorem RunInserted.edited (h : RunInserted n at' runs out) (hnz : ∀ r ∈ out, 0 < r.length) :
    RunsEdited runs out (insertTags at' n) := by
  obtain ⟨l, r, rfl, hspell, rfl, -⟩ := h
  refine .of_spelled ⟨fun s => ?_, by simp [Run.measure], hnz⟩ hspell
  have hlen := length_tagsFrom s l
  rw [insertTags, tagsFrom_append, tagsFrom_append, take_left' hlen, drop_left' hlen]
  simp [tags, Run.measure]

theorem exists_insertRuns (hn : 0 < n) : ∀ {runs} {remaining},
    (∀ r ∈ runs, 0 < r.length) → remaining ≤ targetOf runs →
    ∃ out, insertRuns n remaining runs = .ok out ∧ out.length ≤ runs.length + 2
      ∧ RunInserted n remaining runs out ∧ ∀ r ∈ out, 0 < r.length
  | [], remaining, _, hle => by
    obtain rfl : remaining = 0 := Nat.le_zero.mp hle
    exact ⟨[.inserted n], rfl, by simp, ⟨[], [], by simp⟩, by simpa [Run.length] using hn⟩
  | run :: runs, remaining, hpos, hle => by
    by_cases hin : remaining ≤ run.measure.target
    · have hlen : remaining ≤ run.length := hin.trans run.target_le_length
      have hlive : 0 < remaining → run.isDeleted = false := by
        cases run <;> simp [isDeleted, Run.measure] at hin ⊢
        omega
      refine ⟨_, if_pos hin, ?_, ⟨if 0 < remaining then [run.withLength remaining] else [],
        (if remaining < run.length then [run.withLength (run.length - remaining)] else []) ++ runs,
        by simp, ?_, ?_, ?_⟩, ?_⟩
      · simp only [length_append, length_cons]
        split_ifs <;> simp <;> omega
      · rw [spelled_append, spelled_append, spelled_optional run Iff.rfl,
          spelled_optional run (by omega), ← append_assoc, ← replicate_add,
          Nat.add_sub_cancel' hlen, spelled_cons]
      · split
        · cases run <;> simp_all [isDeleted, withLength, Run.measure]
        · simp only [targetOf_nil]
          omega
      · split
        · cases run <;> simp_all [isDeleted, withLength]
        · simp
      · intro r hr
        simp only [mem_append, mem_singleton] at hr
        rcases hr with ((hr | rfl) | hr) | hr
        · split at hr
          · simp_all
          · simp at hr
        · exact hn
        · split at hr
          · obtain rfl := mem_singleton.mp hr
            rw [length_withLength]
            omega
          · simp at hr
        · exact hpos r (by simp [hr])
    · rw [targetOf_cons] at hle
      have hle' : remaining - run.measure.target ≤ targetOf runs := by omega
      obtain ⟨out, hok, hlen, hin', hnz⟩ :=
        exists_insertRuns hn (fun r hr => hpos r (by simp [hr])) hle'
      refine ⟨run :: out, ?_, by simpa using hlen, ?_, ?_⟩
      · rw [insertRuns, if_neg hin, hok]
        rfl
      · have hframe : RunInserted n remaining ([run] ++ runs ++ []) ([run] ++ out ++ []) :=
          .frame (by simpa using hin') (.inr (by simpa using hin))
        simpa using hframe
      · simpa using ⟨hpos run (by simp), hnz⟩

end

section

variable {a stop cursor : ℕ} {x y : List RunUnit}

theorem deleteUnits_append : deleteUnits a stop cursor (x ++ y)
      = deleteUnits a stop cursor x ++ deleteUnits a stop (cursor + targetsIn x) y := by
  fun_induction deleteUnits a stop cursor x with
  | case1 => rfl
  | case2 cursor units ih | case3 cursor units ih | case4 cursor units ih =>
    simp [deleteUnits, ih, RunUnit.target, add_assoc]

/-- A range that does not meet some units leaves them alone. -/
theorem deleteUnits_outside (h : targetsIn x = 0 ∨ cursor + targetsIn x ≤ a ∨ stop ≤ cursor) :
    deleteUnits a stop cursor x = x := by
  fun_induction deleteUnits a stop cursor x with
  | case1 => rfl
  | case2 cursor units ih => rw [ih (by simpa [RunUnit.target] using h)]
  | case3 cursor units ih | case4 cursor units ih =>
    rw [targetsIn_cons, RunUnit.target] at h
    simp [ih (by omega), show ¬ (a ≤ cursor ∧ cursor < stop) by omega]

theorem deleteUnits_replicate (ha : a ≤ cursor) (n : ℕ) (hstop : cursor + n ≤ stop) :
    deleteUnits a stop cursor (List.replicate n .copy) = List.replicate n .deleted
      ∧ deleteUnits a stop cursor (List.replicate n .inserted) = [] := by
  induction n generalizing cursor with
  | zero => exact ⟨rfl, rfl⟩
  | succ n ih =>
    have hin : a ≤ cursor ∧ cursor < stop := by omega
    have ih := ih (show a ≤ cursor + 1 by omega) (by omega)
    simp [replicate_succ, deleteUnits, hin, ih]

theorem cutOut_cons (hle : a ≤ stop) (tag : Option ℕ) (tags : List (Option ℕ)) :
    cutOut (a - cursor) (stop - cursor) (tag :: tags)
      = (if a ≤ cursor ∧ cursor < stop then [] else [tag])
        ++ cutOut (a - (cursor + 1)) (stop - (cursor + 1)) tags := by
  have h := cutOut_append (show a - cursor ≤ stop - cursor by omega) [tag] tags
  rw [singleton_append, length_singleton, Nat.sub_sub, Nat.sub_sub] at h
  rw [h]
  congr 1
  split
  · rw [cutOut, show a - cursor = 0 by omega, drop_of_length_le (by simp; omega)]
    rfl
  · obtain h | h : cursor < a ∨ stop ≤ cursor := by omega
    · rw [cutOut, take_of_length_le (by simp; omega), drop_of_length_le (by simp; omega)]
      rfl
    · rw [show a - cursor = 0 by omega, show stop - cursor = 0 by omega, cutOut_self]

theorem tagsOf_deleteUnits (hle : a ≤ stop) (cursor s : ℕ) (x : List RunUnit) :
    tagsOf s (deleteUnits a stop cursor x) = cutOut (a - cursor) (stop - cursor) (tagsOf s x)
      ∧ sourcesIn (deleteUnits a stop cursor x) = sourcesIn x := by
  fun_induction deleteUnits a stop cursor x generalizing s with
  | case1 => exact ⟨(cutOut_nil _ _).symm, rfl⟩
  | case2 cursor units ih => simpa [tagsOf] using ih (s + 1)
  | case3 cursor units ih | case4 cursor units ih =>
    rw [tagsOf, cutOut_cons hle, ← (ih _).1]
    split_ifs <;> simp [tagsOf, ih 0, RunUnit.source]

/-- A run stays as it is, or loses the units in which the range meets it. -/
theorem deleteRun_cases (a stop cursor : ℕ) (run : Run) : (deleteRun a stop cursor run = [run]
        ∧ (min (cursor + run.measure.target) stop ≤ max cursor a ∨ run.isDeleted = true))
      ∨ ∃ lo hi, lo = max cursor a ∧ hi = min (cursor + run.measure.target) stop ∧ lo < hi
        ∧ run.isDeleted = false ∧ deleteRun a stop cursor run = splitRun lo hi cursor run := by
  unfold deleteRun
  by_cases hout : min (cursor + run.measure.target) stop ≤ max cursor a ∨ run.isDeleted = true
  · exact .inl ⟨if_pos hout, hout⟩
  · refine .inr ⟨_, _, rfl, rfl, ?_, ?_, if_neg hout⟩
    · omega
    · simpa using (not_or.mp hout).2

theorem spelled_deleteRun (hlt : a < stop) (run : Run) : spelled (deleteRun a stop cursor run)
    = deleteUnits a stop cursor (List.replicate run.length run.unit) := by
  obtain ⟨hrun, hout⟩ | ⟨lo, hi, hlo, hhi, hlt', hdel, hrun⟩ := deleteRun_cases a stop cursor run
  · have hzero : run.isDeleted = true → run.measure.target = 0 := by
      cases run <;> simp [isDeleted, Run.measure]
    rw [deleteUnits_outside (by rw [targetsIn_replicate]; rcases hout with hout | hout <;> grind),
      hrun]
    simp
  · have hlen : run.length = run.measure.target := by
      cases run <;> simp_all [isDeleted, Run.measure, Run.length]
    have htgts : ∀ k, targetsIn (List.replicate k run.unit) = k := by
      cases run <;> simp_all [isDeleted, Run.unit, targetsIn, RunUnit.target]
    have hparts : List.replicate run.length run.unit
        = List.replicate (lo - cursor) run.unit ++ (List.replicate (hi - lo) run.unit
          ++ List.replicate (cursor + run.measure.target - hi) run.unit) := by
      rw [← replicate_add, ← replicate_add]
      congr 1
      omega
    have hmiddle := @deleteUnits_replicate a stop (cursor + (lo - cursor)) (by omega) (hi - lo)
      (by omega)
    rw [hrun, splitRun, spelled_append, spelled_append, spelled_optional run (by omega),
      spelled_optional run (by omega), hparts, deleteUnits_append, deleteUnits_append,
      deleteUnits_outside (by rw [htgts]; omega), append_assoc, htgts, htgts,
      deleteUnits_outside (x := List.replicate (cursor + run.measure.target - hi) _)
        (by rw [htgts]; omega)]
    congr 2
    cases run with
    | deleted n => simp [isDeleted] at hdel
    | copy n => simp [isCopy, Run.unit, Run.length, hmiddle]
    | inserted n => simp [isCopy, Run.unit, hmiddle]

theorem deleteRun_nonzero {run : Run} (hpos : 0 < run.length) :
    ∀ r ∈ deleteRun a stop cursor run, 0 < r.length := by
  intro r hr
  obtain ⟨hrun, -⟩ | ⟨lo, hi, hlo, hhi, hlt, -, hrun⟩ := deleteRun_cases a stop cursor run
  · rw [hrun, mem_singleton] at hr
    exact hr ▸ hpos
  · rw [hrun, splitRun, mem_append, mem_append] at hr
    rcases hr with (hr | hr) | hr <;> split at hr
    · rw [mem_singleton.mp hr, length_withLength]
      omega
    · simp at hr
    · rw [mem_singleton.mp hr, Run.length]
      omega
    · simp at hr
    · rw [mem_singleton.mp hr, length_withLength]
      omega
    · simp at hr

/-- A deletion splits the runs at its two ends only. -/
theorem length_deleteRun (run : Run) :
    (deleteRun a stop cursor run).length + ((if cursor + run.measure.target < a then 1 else 0)
      + if cursor + run.measure.target < stop then 1 else 0)
      ≤ 1 + ((if cursor < a then 1 else 0) + if cursor < stop then 1 else 0) := by
  obtain ⟨hrun, -⟩ | ⟨lo, hi, hlo, hhi, hlt, -, hrun⟩ := deleteRun_cases a stop cursor run
  · rw [hrun, length_singleton]
    split_ifs <;> omega
  · rw [hrun, splitRun, length_append, length_append]
    split_ifs <;> simp only [length_nil, length_singleton] <;> omega

/-- **What a deletion makes of the runs of a leaf.** -/
theorem deleteRuns_spec (hlt : a < stop) : ∀ cursor {runs}, (∀ r ∈ runs, 0 < r.length) →
    spelled (deleteRuns a stop cursor runs) = deleteUnits a stop cursor (spelled runs)
      ∧ (∀ r ∈ deleteRuns a stop cursor runs, 0 < r.length) ∧ (deleteRuns a stop cursor runs).length
        ≤ runs.length + ((if cursor < a then 1 else 0) + if cursor < stop then 1 else 0)
  | _, [], _ => ⟨rfl, by simp [deleteRuns], by simp [deleteRuns]⟩
  | cursor, run :: runs, hpos => by
    obtain ⟨h1, h2, h3⟩ := deleteRuns_spec hlt (cursor + run.measure.target)
      fun r hr => hpos r (mem_cons_of_mem run hr)
    have h4 := @length_deleteRun a stop cursor run
    rw [deleteRuns]
    refine ⟨?_, ?_, ?_⟩
    · rw [spelled_append, spelled_cons, spelled_deleteRun hlt, h1, deleteUnits_append,
        targetsIn_replicate]
    · exact forall_mem_append.mpr ⟨deleteRun_nonzero (hpos run (by simp)), h2⟩
    · rw [length_append, length_cons]
      omega

/-- A deletion from some runs is one from more, as far as they go. -/
theorem deleteRuns_frame {before runs after : List Run} (hlt : a < stop)
    (hpos : ∀ r ∈ runs, 0 < r.length) (hhi : stop ≤ targetOf before + targetOf runs) :
    spelled (before ++ deleteRuns a stop (targetOf before) runs ++ after)
      = deleteUnits (max a (targetOf before)) stop 0 (spelled (before ++ runs ++ after)) := by
  have hmax : ∀ {cursor} {x}, targetOf before ≤ cursor →
      deleteUnits (max a (targetOf before)) stop cursor x = deleteUnits a stop cursor x := by
    intro cursor x hle
    fun_induction deleteUnits a stop cursor x with
    | case1 => rfl
    | case2 cursor units ih => rw [deleteUnits, ih hle]
    | case3 cursor units ih | case4 cursor units ih =>
      have hiff : max a (targetOf before) ≤ cursor ↔ a ≤ cursor := by omega
      simp only [deleteUnits, ih (Nat.le_succ_of_le hle), hiff]
  simp only [spelled_append, deleteUnits_append, targetsIn_append, targetsIn_spelled, zero_add]
  have hbefore : deleteUnits (max a (targetOf before)) stop 0 (spelled before) = spelled before :=
    deleteUnits_outside (by rw [targetsIn_spelled]; omega)
  rw [(deleteRuns_spec hlt _ hpos).1, hmax (le_refl _), hbefore, hmax (Nat.le_add_right _ _),
    deleteUnits_outside (x := spelled after) (by omega)]

/-- **A deletion cuts a range of tags out.** -/
theorem RunsEdited.of_delete {runs out : List Run} (hle : a ≤ stop)
    (hspell : spelled out = deleteUnits a stop 0 (spelled runs)) (hnz : ∀ r ∈ out, 0 < r.length) :
    RunsEdited runs out (cutOut a stop) := by
  have h := fun s => tagsOf_deleteUnits hle 0 s (spelled runs)
  refine ⟨fun s => ?_, ?_, hnz⟩
  · rw [tagsFrom_eq, tagsFrom_eq, hspell, (h s).1]
    rfl
  · rw [← sourcesIn_spelled, ← sourcesIn_spelled, hspell, (h 0).2]

end

end Beryl.Draft
