import Beryl.Draft.Build.MapTree

/-!
# Draft/Build/MapSound — the map tree does what its runs say

`MapEntry.Sound` is the shape of the map below its root, `MapRoot.Sound` that of a whole map.  **On
a sound map the operations of the tree always succeed and do to its runs what the operations of a
leaf do** (`sourceCut_eq`, `exists_insertMap`, `exists_deleteLeaf`).  The height of a map never
reaches its limit: a node doubles the runs below it, and there are no more runs than units.
-/

namespace Beryl.Draft

open Fallible Metering Replace List MapRoot

/-! ## Sound maps -/

variable {h : ℕ} {entries : List (MapEntry h)}

/-- The runs below an entry. -/
def mapRuns : (h : ℕ) → MapEntry h → List Run
  | 0, entry => [entry.run]
  | h + 1, entry => entry.entries.flatMap (mapRuns h)

/-- The runs below consecutive entries. -/
def runsOf {h : ℕ} (entries : List (MapEntry h)) : List Run := entries.flatMap (mapRuns h)

@[simp] theorem runsOf_nil : runsOf ([] : List (MapEntry h)) = [] := rfl
@[simp] theorem runsOf_cons (e : MapEntry h) (es : List (MapEntry h)) :
    runsOf (e :: es) = mapRuns h e ++ runsOf es := flatMap_cons
@[simp] theorem runsOf_append (es fs : List (MapEntry h)) :
    runsOf (es ++ fs) = runsOf es ++ runsOf fs := flatMap_append
@[simp] theorem mapRuns_succ (e : MapEntry (h + 1)) : mapRuns (h + 1) e = runsOf e.entries :=
  rfl

theorem runsOf_zero (entries : List (MapEntry 0)) : runsOf entries = entries.map (·.run) := by
  induction entries with
  | nil => rfl
  | cons e es ih => rw [runsOf_cons, ih, map_cons]; rfl

@[simp] theorem run_ofRun (run : Run) : (MapEntry.ofRun run).run = run := rfl

theorem runsOf_ofRun (runs : List Run) : runsOf (runs.map MapEntry.ofRun) = runs := by
  rw [runsOf_zero, map_map]
  exact map_id'' (fun run => rfl) runs

/-- The measure of a run of runs. -/
def measureOf (runs : List Run) : Measure := ⟨sourceOf runs, targetOf runs⟩

@[simp] theorem measureOf_source (runs : List Run) : (measureOf runs).source = sourceOf runs := rfl
@[simp] theorem measureOf_target (runs : List Run) : (measureOf runs).target = targetOf runs := rfl

/-- **The shape of the map below its root.** -/
def EntrySound : (h : ℕ) → MapEntry h → Prop
  | 0, entry => 0 < entry.run.length
  | h + 1, entry => entry.descriptor = measureOf (runsOf entry.entries)
      ∧ 8 ≤ entry.entries.length ∧ entry.entries.length ≤ 16 ∧ ∀ e ∈ entry.entries, EntrySound h e

/-- Every entry is sound. -/
abbrev AllSound {h : ℕ} (entries : List (MapEntry h)) : Prop := ∀ e ∈ entries, EntrySound h e

/-- No more units than a map may measure. -/
def Bounded (runs : List Run) : Prop := sourceOf runs ≤ maxUnits ∧ targetOf runs ≤ maxUnits

theorem Bounded.left {a b : List Run} (h : Bounded (a ++ b)) : Bounded a := by
  simp only [Bounded, sourceOf_append, targetOf_append] at h ⊢
  omega

theorem Bounded.right {a b : List Run} (h : Bounded (a ++ b)) : Bounded b := by
  simp only [Bounded, sourceOf_append, targetOf_append] at h ⊢
  omega

theorem entryMeasure_eq : ∀ {h} {e}, EntrySound h e → entryMeasure h e = measureOf (mapRuns h e)
  | 0, e, _ => by simp [entryMeasure, measureOf, mapRuns]
  | _ + 1, _, he => he.1

theorem EntrySound.nonzero : ∀ {h} {e}, EntrySound h e → ∀ r ∈ mapRuns h e, 0 < r.length
  | 0, e, he, r, hr => (mem_singleton.mp hr) ▸ he
  | h + 1, e, he, r, hr => by
    obtain ⟨c, hc, hrc⟩ := mem_flatMap.mp hr
    exact (he.2.2.2 c hc).nonzero r hrc

theorem nonzero_runsOf (hs : AllSound entries) : ∀ r ∈ runsOf entries, 0 < r.length := by
  intro r hr
  obtain ⟨e, he, hre⟩ := mem_flatMap.mp hr
  exact (hs e he).nonzero r hre

/-! ## Heights -/

theorem length_le_units {runs : List Run} (hpos : ∀ r ∈ runs, 0 < r.length) :
    runs.length ≤ sourceOf runs + targetOf runs := by
  induction runs with
  | nil => simp
  | cons run runs ih =>
    have h1 := ih fun r hr => hpos r (by simp [hr])
    have h2 : 0 < run.measure.source + run.measure.target := by
      have h0 := hpos run (by simp)
      cases run <;> simp only [Run.measure, Run.length] at h0 ⊢ <;> omega
    simp only [length_cons, sourceOf_cons, targetOf_cons]
    omega

/-- Entries of height `h` hold at least `8 ^ h` runs each. -/
theorem pow_le_runsOf (hs : AllSound entries) :
    8 ^ h * entries.length ≤ (runsOf entries).length := by
  induction h with
  | zero =>
    rw [runsOf_zero]
    simp
  | succ h ih =>
    induction entries with
    | nil => simp
    | cons e es ih' =>
      obtain ⟨-, h8, -, hsub⟩ := hs e (by simp)
      have h1 := ih hsub
      have h2 := ih' fun f hf => hs f (by simp [hf])
      have h3 : 8 ^ h * 8 ≤ 8 ^ h * e.entries.length := Nat.mul_le_mul_left _ h8
      rw [runsOf_cons, mapRuns_succ, length_append, length_cons, Nat.mul_succ]
      rw [pow_succ] at *
      omega

/-- **A map is never too high**: two entries of a height hold fewer runs than there are units. -/
theorem height_le (hs : AllSound entries) (hb : Bounded (runsOf entries))
    (hone : 1 ≤ entries.length) : h ≤ 21 := by
  by_contra hcon
  have h1 := pow_le_runsOf hs
  have h2 := length_le_units (nonzero_runsOf hs)
  have h3 : 8 ^ 22 ≤ 8 ^ h := Nat.pow_le_pow_right (by omega) (by omega)
  have h4 : 8 ^ h * 1 ≤ 8 ^ h * entries.length := Nat.mul_le_mul_left _ hone
  have hmax : maxUnits = 2 * (2 ^ 64 - 1) := rfl
  have hb1 := hb.1
  have hb2 := hb.2
  omega

/-! ## Loading and emitting -/

section

variable {h count : ℕ} {entries : List (MapEntry h)} {root : Bool} {e : MapEntry (h + 1)}

/-- Entries in the number a node of their height may hold. -/
def Shaped (root : Bool) (h count : ℕ) : Prop :=
  (if root then (if h = 0 then 1 else 2) else 8) ≤ count ∧ count ≤ 16

theorem Shaped.pos (hc : Shaped root h count) : 1 ≤ count := by
  unfold Shaped at hc
  split_ifs at hc <;> omega

theorem Shaped.two (hc : Shaped root (h + 1) count) : 2 ≤ count := by
  have := hc.1
  cases root <;> simp at this <;> omega

/-- **A node and the descriptor that names it.** -/
structure LinkSound (root : Bool) {h : ℕ} (link : MapEntry (h + 1)) : Prop where
  descriptor : link.descriptor = measureOf (runsOf link.entries)
  shaped : Shaped root h link.entries.length
  sound : ∀ e ∈ link.entries, EntrySound h e

theorem EntrySound.link (he : EntrySound (h + 1) e) : LinkSound false e :=
  ⟨he.1, ⟨he.2.1, he.2.2.1⟩, he.2.2.2⟩

theorem LinkSound.entry (he : LinkSound false e) : EntrySound (h + 1) e :=
  ⟨he.descriptor, he.shaped.1, he.shaped.2, he.sound⟩

variable {link : MapEntry (h + 1)}

theorem LinkSound.valid (hl : LinkSound root link) (hb : Bounded (runsOf link.entries)) :
    entryValid (h + 1) link = true := by
  have hle := height_le hl.sound hb hl.shaped.pos
  -- there is a run below the node, and a unit in the run
  have h1 := pow_le_runsOf hl.sound
  have h2 : 0 < 8 ^ h * link.entries.length := Nat.mul_pos (Nat.pow_pos (by omega)) hl.shaped.pos
  have h3 := length_le_units (nonzero_runsOf hl.sound)
  have h4 : sourceOf (runsOf link.entries) ≠ 0 ∨ targetOf (runsOf link.entries) ≠ 0 := by omega
  refine decide_eq_true ⟨by omega, ?_⟩
  rw [hl.descriptor]
  exact decide_eq_true ⟨hb.1, hb.2, .inr h4⟩

theorem entryValid_of_sound {e : MapEntry h} (he : EntrySound h e) (hb : Bounded (mapRuns h e)) :
    entryValid h e = true := by
  match h, e, he, hb with
  | 0, e, he, _ => simpa [entryValid] using Nat.pos_iff_ne_zero.mp he
  | h + 1, e, he, hb => exact he.link.valid hb

theorem foldlM_measure {sum : Measure} (hs : AllSound entries)
    (h1 : sum.source + sourceOf (runsOf entries) ≤ maxUnits)
    (h2 : sum.target + targetOf (runsOf entries) ≤ maxUnits) : entries.foldlM (fun sum entry => do
      ensure (entryValid h entry = true) DraftPiecePrepareError.invalidRoot
      sum.add (entryMeasure h entry)) sum
      = .ok ⟨sum.source + sourceOf (runsOf entries), sum.target + targetOf (runsOf entries)⟩ := by
  induction entries generalizing sum with
  | nil => rfl
  | cons e es ih =>
    have he := hs e (by simp)
    simp only [runsOf_cons, sourceOf_append, targetOf_append] at h1 h2 ⊢
    have hv : entryValid h e = true := entryValid_of_sound he ⟨by omega, by omega⟩
    have hadd : sum.add (entryMeasure h e)
        = .ok ⟨sum.source + sourceOf (mapRuns h e), sum.target + targetOf (mapRuns h e)⟩ := by
      have hvalid : (⟨sum.source + sourceOf (mapRuns h e), sum.target + targetOf (mapRuns h e)⟩
          : Measure).valid false = true :=
        decide_eq_true ⟨by simp only; omega, by simp only; omega, .inl rfl⟩
      rw [entryMeasure_eq he, Measure.add, measureOf, ensure_true hvalid]
      rfl
    rw [foldlM_cons, ensure_bind hv, hadd, ok_bind,
      ih (fun f hf => hs f (by simp [hf])) (by simp only; omega) (by simp only; omega)]
    simp [add_assoc]

section

variable (hs : AllSound entries) (hb : Bounded (runsOf entries))
include hs hb

theorem nodeMeasure_eq : nodeMeasure entries = .ok (measureOf (runsOf entries)) := by
  have := @foldlM_measure h entries ⟨0, 0⟩ hs (by simpa using hb.1) (by simpa using hb.2)
  simpa [nodeMeasure, measureOf] using this

theorem nodeShape_of_shaped (hc : Shaped root h entries.length) :
    nodeShape h entries.length root = true := by
  have := height_le hs hb hc.pos
  simp only [nodeShape, decide_eq_true_eq]
  exact ⟨by omega, hc⟩

end

theorem spends_loadMap (hl : LinkSound root link)
    (hb : Bounded (runsOf link.entries)) : Spends 43 45 (loadMap link root) 1 0 link.entries := by
  refine spends_reading ?_
  rw [ensure_bind (hl.valid hb), ensure_bind (nodeShape_of_shaped hl.sound hb hl.shaped),
    nodeMeasure_eq hl.sound hb, ok_bind, ensure_true hl.descriptor.symm]
  rfl

/-- The node of some entries, with its descriptor. -/
def nodeOf (entries : List (MapEntry h)) : MapEntry (h + 1) :=
  MapEntry.node (measureOf (runsOf entries)) entries

@[simp] theorem entries_nodeOf : (nodeOf entries).entries = entries := rfl

theorem linkSound_node (hs : AllSound entries) (hc : Shaped root h entries.length) :
    LinkSound root (nodeOf entries) := ⟨rfl, hc, hs⟩

variable (hs : AllSound entries) (hb : Bounded (runsOf entries))
include hs hb

theorem spends_emitMap (hc : Shaped root h entries.length) :
    Spends 43 45 (emitMap entries root) 0 1 (nodeOf entries) := by
  refine spends_writing ?_
  rw [ensure_bind (nodeShape_of_shaped hs hb hc), nodeMeasure_eq hs hb, ok_bind]
  have hv : entryValid (h + 1) (nodeOf entries) = true := (linkSound_node hs hc).valid hb
  exact bind_eq_ok.mpr ⟨(), ensure_true hv, rfl⟩

/-- Entries become one node, or two when they are too many. -/
theorem exists_emitRegion (hc : Shaped root h (min 16 entries.length)) (hle : entries.length ≤ 32) :
    ∃ nodes, Spends 43 45 (emitRegion entries root) 0 2 nodes ∧ runsOf nodes = runsOf entries
      ∧ ((∃ node, nodes = [node] ∧ LinkSound root node) ∨ nodes.length = 2 ∧ AllSound nodes) := by
  unfold emitRegion
  by_cases hfit : entries.length ≤ 16
  · rw [Nat.min_eq_right hfit] at hc
    refine ⟨[nodeOf entries], ?_, by simp, .inl ⟨_, rfl, linkSound_node hs hc⟩⟩
    rw [if_pos hfit]
    exact (spends_emitMap hs hb hc).bind_le (spends_pure _) (by omega) (by omega)
  · rw [if_neg hfit]
    generalize hk : entries.length / 2 = k
    have hruns : runsOf (entries.take k) ++ runsOf (entries.drop k) = runsOf entries := by
      rw [← runsOf_append, take_append_drop]
    rw [← hruns] at hb
    have hl : Shaped false h (entries.take k).length := by
      rw [length_take]
      exact ⟨show 8 ≤ _ by omega, by omega⟩
    have hr : Shaped false h (entries.drop k).length := by
      rw [length_drop]
      exact ⟨show 8 ≤ _ by omega, by omega⟩
    have hsl : AllSound (entries.take k) := fun e he => hs e (mem_of_mem_take he)
    have hsr : AllSound (entries.drop k) := fun e he => hs e (mem_of_mem_drop he)
    refine ⟨[nodeOf (entries.take k), nodeOf (entries.drop k)], ?_, by simpa using hruns,
      .inr ⟨rfl, ?_⟩⟩
    · exact .lift_bind (ensure_true hle) ((spends_emitMap hsl hb.left hl).bind_le
        ((spends_emitMap hsr hb.right hr).bind (spends_pure _)) (by omega) (by omega))
    · intro node hnode
      rcases mem_pair.mp hnode with rfl | rfl
      · exact (linkSound_node hsl hl).entry
      · exact (linkSound_node hsr hr).entry

end

/-! ## Roots and source cuts -/

/-- The runs of a map. -/
def MapRoot.runs : MapRoot → List Run
  | .empty => []
  | .identity n => [.copy n]
  | .stored _ link => runsOf link.entries

/-- **A map in good shape.** -/
def MapRoot.Sound : MapRoot → Prop
  | .empty => True
  | .identity n => 0 < n ∧ n ≤ maxUnits
  | .stored _ link => LinkSound true link ∧ Bounded (runsOf link.entries)

namespace MapRoot.Sound

variable {root : MapRoot} (hr : root.Sound)
include hr

theorem measure_eq : root.measure = measureOf root.runs := by
  cases root with
  | empty => rfl
  | identity n => simp [measure, measureOf, runs, Run.measure]
  | stored h link => exact hr.1.descriptor

theorem valid : root.valid = true := by
  cases root with
  | empty => rfl
  | identity n => exact decide_eq_true hr
  | stored h link => exact hr.1.valid hr.2

theorem bounded : Bounded root.runs := by
  cases root with
  | empty => exact ⟨Nat.zero_le _, Nat.zero_le _⟩
  | identity n => simpa [Bounded, runs, Run.measure] using hr.2
  | stored h link => exact hr.2

theorem nonzero : ∀ r ∈ root.runs, 0 < r.length := by
  cases root with
  | empty => simp [runs]
  | identity n => simpa [runs, Run.length] using hr.1
  | stored h link => exact nonzero_runsOf hr.1.sound

end MapRoot.Sound

section

variable (requireCopy : Bool)

theorem cutChildren_cases : ∀ {children : List (MapEntry (h + 1))} (x target : ℕ),
    AllSound children →
    (∃ c x' target', c ∈ children ∧ cutChildren x target children = (some c, x', target')
      ∧ cutRuns requireCopy x target (runsOf children)
        = cutRuns requireCopy x' target' (runsOf c.entries))
    ∨ ∃ x' target', cutChildren x target children = (none, x', target')
      ∧ cutRuns requireCopy x target (runsOf children) = cutRuns requireCopy x' target' []
  | [], x, target, _ => .inr ⟨x, target, rfl, rfl⟩
  | c :: cs, x, target, hs => by
    obtain ⟨hd, -⟩ := hs c (by simp)
    rw [cutChildren, hd, runsOf_cons, mapRuns_succ, cutRuns_append, measureOf_source,
      measureOf_target]
    by_cases hx : x < sourceOf (runsOf c.entries)
    · rw [if_pos hx, if_pos hx]
      exact .inl ⟨c, x, target, by simp, rfl, rfl⟩
    · rw [if_neg hx, if_neg hx]
      rcases cutChildren_cases (x - sourceOf (runsOf c.entries))
        (target + targetOf (runsOf c.entries)) (fun d hd => hs d (mem_cons_of_mem c hd)) with
        ⟨d, x', t', hd, h1, h2⟩ | h
      · exact .inl ⟨d, x', t', mem_cons_of_mem c hd, h1, h2⟩
      · exact .inr h

theorem bounded_of_mem (hb : Bounded (runsOf entries))
    {e : MapEntry h} (he : e ∈ entries) : Bounded (mapRuns h e) := by
  obtain ⟨l, r, rfl⟩ := append_of_mem he
  rw [runsOf_append, runsOf_cons] at hb
  exact hb.right.left

theorem cutTree_eq : ∀ {h : ℕ} {link : MapEntry (h + 1)} {root : Bool} (x target : ℕ)
    (meter : Meter), meter.reads + (h + 1) ≤ 43 → meter.writes ≤ 45 →
    LinkSound root link → Bounded (runsOf link.entries) →
    Prod.fst <$> cutTree requireCopy h link root x target meter
      = cutRuns requireCopy x target (runsOf link.entries)
  | 0, link, root, x, target, meter, hreads, hwrites, hl, hb => by
    rw [cutTree, runsOf_zero]
    obtain ⟨meter', hrun, -⟩ := (spends_loadMap hl hb).run_bind
      (f := fun runs => liftM (cutRuns requireCopy x target (runs.map (·.run)))) meter hreads
        hwrites
    erw [hrun]
    cases cutRuns requireCopy x target (link.entries.map (·.run)) <;> rfl
  | h + 1, link, root, x, target, meter, hreads, hwrites, hl, hb => by
    rw [cutTree]
    obtain ⟨meter', hrun, hr, hw⟩ := (spends_loadMap hl hb).run_bind meter (by omega) hwrites
    rw [hrun]
    rcases cutChildren_cases requireCopy x target hl.sound with
      ⟨c, x', t', hc, h1, h2⟩ | ⟨x', t', h1, h2⟩
    · rw [h1, h2]
      exact cutTree_eq x' t' meter' (by omega) (by omega) (hl.sound c hc).link
        (bounded_of_mem hb hc)
    · rw [h1, h2, cutRuns]
      dsimp only
      split <;> rfl

/-- **A source cut reads the runs of the map.** -/
theorem sourceCut_eq {root : MapRoot} (hr : root.Sound) {u : ℕ} (hu : u ≤ sourceOf root.runs)
    (hcopy : requireCopy = true → u ≠ sourceOf root.runs) :
    sourceCut root u requireCopy = cutRuns requireCopy u 0 root.runs := by
  have hcheck : root.valid = true ∧ u ≤ root.measure.source
      ∧ ¬ (requireCopy = true ∧ u = root.measure.source) := by
    rw [hr.measure_eq]
    exact ⟨hr.valid, hu, fun h => hcopy h.1 h.2⟩
  unfold sourceCut
  rw [ensure_bind hcheck]
  cases root with
  | empty =>
    obtain rfl : u = 0 := Nat.le_zero.mp hu
    cases requireCopy with
    | false => rfl
    | true => exact absurd rfl (hcopy rfl)
  | identity n =>
    have hu' : u ≤ n := by simpa [runs, Run.measure] using hu
    rcases hu'.lt_or_eq with hlt | rfl
    · have htag : (tagsFrom 0 [.copy n])[u]? = some (some (0 + u)) := by simp [Run.tags, hlt]
      rw [runs, cutRuns_of_tag requireCopy 0 htag, zero_add]
      rfl
    · have hrc : requireCopy = false := by
        by_contra hcon
        exact hcopy (by simpa using hcon) (by simp [runs, Run.measure])
      have hend := cutRuns_end 0 [.copy u]
      simp only [sourceOf_cons, targetOf_cons, sourceOf_nil, targetOf_nil, Run.measure, add_zero,
        zero_add] at hend
      rw [hrc, runs, hend]
      rfl
  | stored h link =>
    have hle := height_le hr.1.sound hr.2 hr.1.shaped.pos
    exact cutTree_eq requireCopy u 0 ⟨0, 0⟩ (by simp only; omega) (Nat.zero_le 45) hr.1 hr.2

end

/-! ## Descending to a leaf -/

/-- A place of the draft within some units: an insertion may stand at their end. -/
def Within (insertion : Bool) (target lo hi : ℕ) : Prop :=
  lo ≤ target ∧ if insertion then target ≤ hi else target < hi

/-- **The frames above a leaf**, with the runs before and behind it. -/
def PathSound : (root : Bool) → (h : ℕ) → MapPath h → List Run → List Run → Prop
  | _, 0, _, before, after => before = [] ∧ after = []
  | root, h + 1, path, before, after =>
    let frame := (show MapFrame h × MapPath h from path).1
    ∃ pre child post b a, frame.children = pre ++ child :: post ∧ frame.index = pre.length
      ∧ Shaped root (h + 1) frame.children.length ∧ (∀ c ∈ frame.children, EntrySound (h + 1) c)
      ∧ PathSound false h (show MapFrame h × MapPath h from path).2 b a
      ∧ before = runsOf pre ++ b ∧ after = a ++ runsOf post

/-- The runs before the place of an insertion end before it, if there are any. -/
def Behind (insertion : Bool) (target start : ℕ) (before : List Run) : Prop :=
  insertion = true → before = [] ∨ start + targetOf before < target

section

variable {target : ℕ} {insertion : Bool}

theorem exists_selectMapChild : ∀ {children : List (MapEntry (h + 1))} (index start : ℕ),
    AllSound children → Within insertion target start (start + targetOf (runsOf children)) →
      children ≠ [] →
    ∃ pre child post, children = pre ++ child :: post
      ∧ selectMapChild target insertion index start children
        = .ok (index + pre.length, child, start + targetOf (runsOf pre))
      ∧ Within insertion target (start + targetOf (runsOf pre))
        (start + targetOf (runsOf pre) + targetOf (runsOf child.entries))
      ∧ Behind insertion target start (runsOf pre)
  | c :: cs, index, start, hs, hin, _ => by
    obtain ⟨hd, -⟩ := hs c (by simp)
    obtain ⟨hlo, hhi⟩ := hin
    rw [runsOf_cons, targetOf_append, mapRuns_succ] at hhi
    have hsel : selectMapChild target insertion index start (c :: cs)
        = if (insertion = true ∧ target ≤ start + targetOf (runsOf c.entries))
            ∨ (insertion = false ∧ target < start + targetOf (runsOf c.entries))
          then .ok (index, c, start)
          else selectMapChild target insertion (index + 1) (start + targetOf (runsOf c.entries))
              cs := by
      simp only [selectMapChild, hd, measureOf_target]
    rw [hsel]
    split
    · rename_i hacc
      refine ⟨[], c, cs, rfl, by simp, ?_, fun _ => .inl rfl⟩
      simp only [runsOf_nil, targetOf_nil, add_zero]
      refine ⟨hlo, ?_⟩
      cases insertion with
      | true => simpa using hacc
      | false => simpa using hacc
    · rename_i hrej
      have hin' : Within insertion target (start + targetOf (runsOf c.entries))
          (start + targetOf (runsOf c.entries) + targetOf (runsOf cs)) := by
        unfold Within
        cases insertion <;> simp at hhi hrej ⊢ <;> omega
      have hne : cs ≠ [] := by
        rintro rfl
        cases insertion <;> simp at hhi hrej <;> omega
      obtain ⟨pre, child, post, rfl, hok, hw, hbehind⟩ := exists_selectMapChild (index + 1)
        (start + targetOf (runsOf c.entries)) (fun d hd => hs d (mem_cons_of_mem c hd)) hin' hne
      refine ⟨c :: pre, child, post, rfl, ?_, ?_, fun hins => .inr ?_⟩
      · rw [hok, runsOf_cons, targetOf_append, mapRuns_succ, length_cons, add_assoc start,
          add_assoc index, add_comm 1]
      · rw [runsOf_cons, targetOf_append, mapRuns_succ, ← add_assoc]
        exact hw
      · rw [runsOf_cons, targetOf_append, mapRuns_succ, ← add_assoc]
        rcases hbehind hins with hnil | hlt
        · rw [hnil, targetOf_nil]
          simp [hins] at hrej
          omega
        · exact hlt

/-- **The descent reaches the leaf that holds the place.** -/
theorem exists_descendTree : ∀ {h : ℕ} {link : MapEntry (h + 1)} {root : Bool} (start : ℕ),
    LinkSound root link → Bounded (runsOf link.entries) →
    Within insertion target start (start + targetOf (runsOf link.entries)) →
    ∃ path runs before after,
      Spends 43 45 (descendTree target insertion h link root start) (h + 1) 0
        (path, runs, start + targetOf before)
      ∧ runsOf link.entries = before ++ runs ++ after ∧ PathSound root h path before after
      ∧ runs.length ≤ 16
      ∧ Within insertion target (start + targetOf before) (start + targetOf before + targetOf runs)
      ∧ Behind insertion target start before
  | 0, link, root, start, hl, hb, hin => by
    refine ⟨(), link.entries.map (·.run), [], [], ?_, ?_, ⟨rfl, rfl⟩, ?_, ?_, fun _ => .inl rfl⟩
    · exact (spends_loadMap hl hb).bind_le (spends_pure _) (by omega) (by omega)
    · rw [runsOf_zero]
      simp
    · simpa using hl.shaped.2
    · simpa [runsOf_zero] using hin
  | h + 1, link, root, start, hl, hb, hin => by
    have hne : link.entries ≠ [] := length_pos_iff.mp hl.shaped.pos
    obtain ⟨pre, child, post, hsplit, hsel, hw, hpre⟩ :=
      exists_selectMapChild 0 start hl.sound hin hne
    have hchild : EntrySound (h + 1) child := hl.sound child (by rw [hsplit]; simp)
    have hruns : runsOf link.entries = runsOf pre ++ runsOf child.entries ++ runsOf post := by
      rw [hsplit, runsOf_append, runsOf_cons, mapRuns_succ, append_assoc]
    obtain ⟨path, runs, before, after, hok, hflat, hpath, hlen, hw', hbefore⟩ :=
      exists_descendTree (start + targetOf (runsOf pre)) hchild.link
        (by rw [hruns] at hb; exact hb.left.right) hw
    refine ⟨(⟨link.entries, pre.length⟩, path), runs, runsOf pre ++ before, after ++ runsOf post,
      ?_, ?_, ?_, hlen, ?_, ?_⟩
    · rw [zero_add] at hsel
      rw [targetOf_append, ← add_assoc]
      exact (spends_loadMap hl hb).bind_le (.lift_bind hsel (hok.bind (spends_pure _)))
        (by omega) (by omega)
    · rw [hruns, hflat]
      simp
    · exact ⟨pre, child, post, before, after, hsplit, rfl, hl.shaped, hl.sound, hpath, rfl, rfl⟩
    · rw [targetOf_append, ← add_assoc]
      exact hw'
    · intro hins
      rw [targetOf_append, ← add_assoc]
      rcases hbefore hins with rfl | hlt
      · rcases hpre hins with hnil | hlt
        · exact .inl (by rw [hnil]; rfl)
        · exact .inr hlt
      · exact .inr hlt

end

/-! ## Closing the frames -/

section

variable {h : ℕ}

/-- Entries in number for an inner node become one or two nodes between others. -/
theorem exists_splice {l r : List (MapEntry (h + 1))} {entries : List (MapEntry h)}
    (hl : AllSound l) (hr : AllSound r) (hs : AllSound entries) (hb : Bounded (runsOf entries))
    (h8 : 8 ≤ entries.length) (hle : entries.length ≤ 32) :
    ∃ nodes, Spends 43 45 (emitRegion entries false) 0 2 nodes ∧ AllSound (l ++ nodes ++ r)
      ∧ runsOf (l ++ nodes ++ r) = runsOf l ++ runsOf entries ++ runsOf r
      ∧ (l ++ nodes ++ r).length ≤ l.length + r.length + 2 := by
  have hc : Shaped false h (min 16 entries.length) :=
    ⟨show 8 ≤ _ by omega, by omega⟩
  obtain ⟨nodes, hok, hruns, hnodes⟩ := exists_emitRegion hs hb hc hle
  have hsound : nodes.length ≤ 2 ∧ AllSound nodes := by
    rcases hnodes with ⟨node, rfl, hnode⟩ | ⟨hlen, hsound⟩
    · exact ⟨by simp, forall_mem_singleton.mpr hnode.entry⟩
    · exact ⟨hlen.le, hsound⟩
  refine ⟨nodes, hok, ?_, by simp [hruns], by simp only [length_append]; omega⟩
  exact forall_mem_append.mpr ⟨forall_mem_append.mpr ⟨hl, hsound.2⟩, hr⟩

/-- **A frame takes the entries of its child back.** -/
theorem exists_closeFrame {frame : MapFrame h} {entries : List (MapEntry h)}
    {pre post : List (MapEntry (h + 1))} {child : MapEntry (h + 1)}
    (hsplit : frame.children = pre ++ child :: post) (hindex : frame.index = pre.length)
    (htwo : 2 ≤ frame.children.length) (hsound : AllSound frame.children)
    (hs : AllSound entries) (hle : entries.length ≤ 18)
    (hb : Bounded (runsOf pre ++ runsOf entries ++ runsOf post)) :
    ∃ out, Spends 43 45 (closeFrame frame entries) 1 2 out ∧ AllSound out
      ∧ runsOf out = runsOf pre ++ runsOf entries ++ runsOf post
      ∧ out.length ≤ frame.children.length + 1 := by
  have hpre : AllSound pre := fun c hc => hsound c (by rw [hsplit]; simp [hc])
  have hpost : AllSound post := fun c hc => hsound c (by rw [hsplit]; simp [hc])
  have hlen : frame.children.length = pre.length + post.length + 1 := by
    rw [hsplit, length_append, length_cons, add_assoc]
  unfold closeFrame
  by_cases hfew : entries.length < 8
  · rw [if_pos hfew]
    obtain rfl | ⟨pre', sibling, rfl⟩ := pre.eq_nil_or_concat'
    · -- the first child takes in its right sibling
      obtain _ | ⟨sibling, post⟩ := post
      · simp [hlen] at htwo
      have hsib : EntrySound (h + 1) sibling := hpost sibling (by simp)
      rw [runsOf_nil, nil_append, runsOf_cons, mapRuns_succ, ← append_assoc, ← runsOf_append] at hb
      obtain ⟨nodes, hok, hnodes, hruns, hcount⟩ := exists_splice (l := []) (r := post)
        nofun (fun c hc => hpost c (by simp [hc]))
        (forall_mem_append.mpr ⟨hs, hsib.2.2.2⟩) hb.left
        (by have := hsib.2.1; rw [length_append]; omega)
        (by have := hsib.2.2.1; rw [length_append]; omega)
      rw [runsOf_append] at hb
      refine ⟨[] ++ nodes ++ post, ?_, hnodes, ?_, by rw [hlen]; simp at hcount ⊢; omega⟩
      · rw [hindex, hsplit]
        exact .lift_bind (x := required invalid (some sibling)) rfl
          ((spends_loadMap hsib.link hb.left.right).bind_le (hok.bind (spends_pure _))
            (by omega) (by omega))
      · rw [hruns, runsOf_append, runsOf_cons]
        simp
    · -- any other child joins its left sibling
      have hsib : EntrySound (h + 1) sibling := hpre sibling (by simp)
      rw [runsOf_append, runsOf_cons, runsOf_nil, append_nil, mapRuns_succ,
        append_assoc (runsOf pre'), ← runsOf_append] at hb
      obtain ⟨nodes, hok, hnodes, hruns, hcount⟩ := exists_splice (l := pre')
        (fun c hc => hpre c (by simp [hc])) hpost
        (forall_mem_append.mpr ⟨hsib.2.2.2, hs⟩) hb.left.right
        (by have := hsib.2.1; rw [length_append]; omega)
        (by have := hsib.2.2.1; rw [length_append]; omega)
      rw [runsOf_append] at hb
      have hidx : frame.index = pre'.length + 1 := by simpa using hindex
      have hch : frame.children = pre' ++ sibling :: child :: post := by simpa using hsplit
      have hget : frame.children[pre'.length]? = some sibling := by simp [hch]
      have htake : frame.children.take pre'.length = pre' := by simp [hch]
      have hdrop : frame.children.drop (pre'.length + 1 + 1) = post := by
        rw [hch, append_cons, append_cons]
        exact drop_left' (by simp)
      refine ⟨pre' ++ nodes ++ post, ?_, hnodes, ?_, by rw [hlen]; simp at hcount ⊢; omega⟩
      · simp only [hidx, Nat.succ_pos, if_true, Nat.add_sub_cancel, hget, Nat.lt_succ_self, htake,
          hdrop]
        exact .lift_bind (x := required invalid (some sibling)) rfl
          ((spends_loadMap hsib.link hb.left.right.left).bind_le (hok.bind (spends_pure _))
            (by omega) (by omega))
      · rw [hruns]
        simp
  · rw [if_neg hfew]
    obtain ⟨nodes, hok, hnodes, hruns, hcount⟩ :=
      exists_splice hpre hpost hs hb.left.right (by omega) (by omega)
    have htake : frame.children.take frame.index = pre := by rw [hsplit, hindex, take_left]
    have hdrop : frame.children.drop (frame.index + 1) = post := by
      rw [hsplit, hindex, append_cons]
      exact drop_left' (by simp)
    rw [htake, hdrop, hlen]
    exact ⟨_, hok.bind_le (spends_pure _) (by omega) (by omega), hnodes, hruns, by omega⟩

end

/-- **The way back up**: the runs of the leaf change, the runs around them stay. -/
theorem exists_closeFrames : ∀ {root} {h} {path} {before after runs},
    PathSound root h path before after → (∀ r ∈ runs, 0 < r.length) → runs.length ≤ 18 →
    Bounded (before ++ runs ++ after) →
    ∃ entries, Spends 43 45 (closeFrames h path runs) h (2 * h) entries
      ∧ AllSound entries ∧ runsOf entries = before ++ runs ++ after ∧ entries.length ≤ 18
  | root, 0, path, before, after, runs, hpath, hpos, hle, _ => by
    obtain ⟨rfl, rfl⟩ := hpath
    refine ⟨runs.map MapEntry.ofRun, spends_pure _, ?_, by rw [runsOf_ofRun]; simp,
      by simpa using hle⟩
    intro e he
    obtain ⟨r, hr, rfl⟩ := mem_map.mp he
    exact hpos r hr
  | root, h + 1, path, before, after, runs, hpath, hpos, hle, hb => by
    obtain ⟨pre, child, post, b, a, hsplit, hindex, hshape, hsound, hsub, rfl, rfl⟩ := hpath
    have hb' : Bounded (runsOf pre ++ (b ++ runs ++ a) ++ runsOf post) := by simpa using hb
    obtain ⟨entries, hok, hs, hruns, hlen⟩ := exists_closeFrames hsub hpos hle hb'.left.right
    rw [← hruns] at hb'
    obtain ⟨out, hout, hso, hro, hhi⟩ := exists_closeFrame hsplit hindex hshape.two hsound hs
      hlen hb'
    refine ⟨out, hok.bind_le hout (by omega) (by omega), hso, ?_,
      (hhi.trans (Nat.succ_le_succ hshape.2)).trans (by omega)⟩
    rw [hro, hruns]
    simp

section

variable (hs : AllSound entries) (hb : Bounded (runsOf entries))
include hs hb

theorem exists_growRoot (hc : Shaped true h (min 16 entries.length)) (hle : entries.length ≤ 32) :
    ∃ root, Spends 43 45 (growRoot entries) 0 3 root ∧ root.Sound ∧ root.runs = runsOf entries := by
  obtain ⟨nodes, hok, hruns, ⟨node, rfl, hnode⟩ | ⟨hlen, hnodes⟩⟩ := exists_emitRegion hs hb hc hle
  · rw [runsOf_cons, runsOf_nil, append_nil, mapRuns_succ] at hruns
    exact ⟨.stored h node, hok.bind_le (spends_pure _) (by omega) (by omega),
      ⟨hnode, hruns ▸ hb⟩, hruns⟩
  · have hc' : Shaped true (h + 1) nodes.length := by
      rw [hlen]
      exact ⟨by simp, by omega⟩
    have hb' : Bounded (runsOf nodes) := hruns ▸ hb
    refine ⟨.stored (h + 1) (nodeOf nodes), ?_, ⟨linkSound_node hnodes hc', hb'⟩, hruns⟩
    obtain ⟨l, r, rfl⟩ := length_eq_two.mp hlen
    exact hok.bind_le ((spends_emitMap hnodes hb' hc').bind (spends_pure _)) (by omega) (by omega)

/-- **The new root.** -/
theorem exists_closeRoot (hle : entries.length ≤ 18) :
    ∃ root, Spends 43 45 (closeRoot h entries) 0 3 root ∧ root.Sound
        ∧ root.runs = runsOf entries := by
  match h, entries, hs, hb, hle with
  | _, [], _, _, _ =>
    exact ⟨.empty, by cases ‹ℕ› <;> exact (spends_pure _).mono (by omega) (by omega), trivial, rfl⟩
  | h + 1, [child], hs, hb, _ =>
    have hchild : EntrySound (h + 1) child := hs child (by simp)
    rw [runsOf_cons, runsOf_nil, append_nil, mapRuns_succ] at hb ⊢
    refine ⟨.stored h child, (spends_pure _).mono (by omega) (by omega),
      ⟨⟨hchild.1, ⟨?_, hchild.2.2.1⟩, hchild.2.2.2⟩, hb⟩, rfl⟩
    have := hchild.2.1
    split_ifs <;> omega
  | 0, e :: es, hs, hb, hle =>
    obtain ⟨root, hok, hroot⟩ := exists_growRoot hs hb ⟨by simp, by omega⟩ (by omega)
    exact ⟨root, by cases es <;> exact hok, hroot⟩
  | h + 1, e :: e' :: es, hs, hb, hle =>
    exact exists_growRoot hs hb ⟨by simp, by omega⟩ (by omega)

end

/-! ## Insertions and deletions -/

section

variable {before runs out after : List Run} {root : MapRoot}

/-- **The place a descent reaches.** -/
theorem exists_descendMap (hr : root.Sound) {target : ℕ} {insertion : Bool}
    (hin : Within insertion target 0 (targetOf root.runs)) : ∃ place before after, place.height ≤ 21
      ∧ Spends 43 45 (descendMap root target insertion) (place.height + 1) 0 place
      ∧ place.start = targetOf before ∧ root.runs = before ++ place.runs ++ after
      ∧ (∃ top, PathSound top place.height place.path before after) ∧ place.runs.length ≤ 16
      ∧ Within insertion target (targetOf before) (targetOf before + targetOf place.runs)
      ∧ Behind insertion target 0 before := by
  have hcheck : root.valid = true ∧ target ≤ root.measure.target
      ∧ ¬ (insertion = false ∧ target = root.measure.target) := by
    rw [hr.measure_eq, measureOf_target]
    refine ⟨hr.valid, ?_, ?_⟩
    · have := hin.2
      split_ifs at this <;> omega
    · rintro ⟨rfl, rfl⟩
      exact absurd hin.2 (by simp)
  unfold descendMap
  cases root with
  | empty | identity n =>
    exact ⟨_, [], [], Nat.zero_le _, .lift_bind (ensure_true hcheck)
      ((spends_pure _).mono (by omega) (by omega)), rfl, rfl, ⟨true, rfl, rfl⟩, by simp,
      by simpa [runs] using hin, fun _ => .inl rfl⟩
  | stored h link =>
    obtain ⟨path, runs, before, after, hok, hruns, hpath, hlen, hw, hbehind⟩ :=
      exists_descendTree 0 hr.1 hr.2 (by simpa [runs] using hin)
    rw [zero_add] at hok hw
    exact ⟨⟨h, path, runs, targetOf before⟩, before, after,
      height_le hr.1.sound hr.2 hr.1.shaped.pos,
      .lift_bind (ensure_true hcheck) (hok.bind_le (spends_pure _) (le_refl _) (by omega)), rfl,
      hruns, ⟨true, hpath⟩, hlen, hw, hbehind⟩

/-- Rewritten runs at a place become a map again. -/
theorem exists_normalize {place : MapPlace} {t : ℕ} (hr : root.Sound)
    (hpath : ∃ top, PathSound top place.height place.path before after)
    (hpos : ∀ r ∈ out, 0 < r.length) (hlen : out.length ≤ 18)
    (hsrc : sourceOf (before ++ out ++ after) = sourceOf root.runs)
    (htgt : targetOf (before ++ out ++ after) = t) (ht : t ≤ maxUnits) :
    ∃ new, Spends 43 45 (normalize place out) place.height (2 * place.height + 3) new
      ∧ new.Sound ∧ new.runs = before ++ out ++ after ∧ new.measure = ⟨root.measure.source, t⟩ := by
  obtain ⟨top, hpath⟩ := hpath
  have hb : Bounded (before ++ out ++ after) := ⟨hsrc ▸ hr.bounded.1, htgt ▸ ht⟩
  obtain ⟨entries, hok, hs, hruns, hle⟩ := exists_closeFrames hpath hpos hlen hb
  rw [← hruns] at hb ⊢ hsrc htgt
  obtain ⟨new, hnew, hsound, hnr⟩ := exists_closeRoot hs hb hle
  refine ⟨new, hok.bind_le hnew (by omega) (by omega), hsound, hnr, ?_⟩
  rw [hsound.measure_eq, hr.measure_eq, hnr, measureOf, hsrc, htgt]
  rfl

theorem RunsEdited.target {f : List (Option ℕ) → List (Option ℕ)} (h : RunsEdited runs out f) :
    targetOf out = (f (tagsFrom 0 runs)).length := by
  rw [← h.tags, length_tagsFrom]

/-- **An insertion into the map** puts a run in, within the loads and emissions it has. -/
theorem exists_insertMap (hr : root.Sound) {at' n : ℕ} (hn : 0 < n)
    (hroom : targetOf root.runs + n ≤ maxUnits) (hat : at' ≤ targetOf root.runs) :
    ∃ new, insertMap root at' n = .ok new ∧ new.Sound ∧ RunInserted n at' root.runs new.runs := by
  obtain ⟨place, before, after, hht, hplace, hstart, hruns, hpath, hlen, ⟨hlo, hhi⟩, hbehind⟩ :=
    exists_descendMap hr (show Within true at' 0 (targetOf root.runs) from ⟨by omega, hat⟩)
  have hnz := hr.nonzero
  rw [hruns] at hnz
  simp only [if_true] at hhi
  obtain ⟨out, hout, hlen', hin, hpos⟩ := exists_insertRuns hn
    (fun r h => hnz r (by simp [h])) (show at' - place.start ≤ targetOf place.runs by omega)
  have hwhole : RunInserted n at' root.runs (before ++ out ++ after) := by
    rw [hruns]
    rw [hstart] at hin
    exact hin.frame (by simpa using hbehind rfl)
  have hedit := hwhole.edited (by grind)
  have htgt : targetOf (before ++ out ++ after) = targetOf root.runs + n := by
    rw [hedit.target, insertTags]
    simp only [length_append, length_take, length_drop, length_tagsFrom, length_replicate]
    omega
  have hm : root.measure.target = targetOf root.runs := by rw [hr.measure_eq]; rfl
  rw [← hm] at htgt hroom
  obtain ⟨new, hnew, hsound, hnr, hm'⟩ := exists_normalize hr hpath hpos (by omega) hedit.source
    htgt hroom
  refine ⟨new, ?_, hsound, hnr ▸ hwhole⟩
  have hrun : Spends 43 45 (insertWithin root at' n) 43 45 new :=
    .lift_bind (ensure_true ⟨by omega, hroom⟩) (hplace.bind_le
      (.lift_bind (checkedSub_of_le (by omega)) (.lift_bind hout (hnew.bind
        (.lift_bind (ensure_true hm') (spends_pure _))))) (by omega) (by omega))
  exact hrun.once_eq (by omega) (by omega)

/-- **A deletion from a leaf of the map** deletes the end of the range, likewise. -/
theorem exists_deleteLeaf (hr : root.Sound) {a stop : ℕ} (ha : a < stop)
    (hstop : stop ≤ targetOf root.runs) :
    ∃ new next, deleteLeaf root a stop = .ok (new, next) ∧ a ≤ next ∧ next < stop ∧ new.Sound
      ∧ spelled new.runs = deleteUnits next stop 0 (spelled root.runs) := by
  obtain ⟨place, before, after, hht, hplace, hstart, hruns, hpath, hlen, ⟨hlo, hhi⟩, -⟩ :=
    exists_descendMap hr (show Within false (stop - 1) 0 (targetOf root.runs) from
      ⟨by omega, by simp only [Bool.false_eq_true, if_false]; omega⟩)
  have hnz := hr.nonzero
  rw [hruns] at hnz
  simp only [Bool.false_eq_true, if_false] at hhi
  have hnz' : ∀ r ∈ place.runs, 0 < r.length := fun r h => hnz r (by simp [h])
  obtain ⟨-, hpos, hlen'⟩ := deleteRuns_spec ha place.start hnz'
  have hwhole : spelled (before ++ deleteRuns a stop place.start place.runs ++ after)
      = deleteUnits (max a place.start) stop 0 (spelled root.runs) := by
    rw [hruns, hstart]
    exact deleteRuns_frame ha hnz' (by omega)
  have hedit := RunsEdited.of_delete (by omega) hwhole (by grind)
  have htgt : targetOf (before ++ deleteRuns a stop place.start place.runs ++ after)
      = targetOf root.runs - (stop - max a place.start) := by
    rw [hedit.target, cutOut]
    simp only [length_append, length_take, length_drop, length_tagsFrom]
    omega
  have h18 : (deleteRuns a stop place.start place.runs).length ≤ 18 := by
    split_ifs at hlen' <;> omega
  have hm : root.measure.target = targetOf root.runs := by rw [hr.measure_eq]; rfl
  rw [← hm] at htgt hstop
  obtain ⟨new, hnew, hsound, hnr, hm'⟩ := exists_normalize hr hpath hpos h18 hedit.source htgt
    ((Nat.sub_le ..).trans (hm ▸ hr.bounded.2))
  refine ⟨new, max a place.start, ?_, le_max_left _ _, by omega, hsound, hnr ▸ hwhole⟩
  have hrun : Spends 43 45 (deleteWithin root a stop) 43 45 (new, max a place.start) :=
    .lift_bind (ensure_true ⟨ha, hstop⟩) (hplace.bind_le
      (.lift_bind (ensure_true (by omega)) (.lift_bind (ensure_true h18) (hnew.bind
        (.lift_bind (ensure_true hm') (spends_pure _))))) (by omega) (by omega))
  exact hrun.once_eq (by omega) (by omega)

end

/-- **The map refines its list of runs**: on a map in good shape neither operation fails or runs out
of loads and emissions, an insertion is one into the list, a deletion one from the units it spells,
and the new map is in good shape and not too high. -/
theorem map_refines_runs {root : MapRoot} (hr : root.Sound) :
    (∀ at' n, 0 < n → targetOf root.runs + n ≤ maxUnits → at' ≤ targetOf root.runs →
      ∃ new, insertMap root at' n = .ok new ∧ new.Sound ∧ new.valid = true
        ∧ RunInserted n at' root.runs new.runs)
    ∧ ∀ a stop, a < stop → stop ≤ targetOf root.runs →
      ∃ new next, deleteLeaf root a stop = .ok (new, next) ∧ a ≤ next ∧ next < stop
        ∧ new.Sound ∧ new.valid = true
        ∧ spelled new.runs = deleteUnits next stop 0 (spelled root.runs) := by
  refine ⟨fun at' n hn hroom hat => ?_, fun a stop hlt hstop => ?_⟩
  · obtain ⟨new, hok, hsound, hin⟩ := exists_insertMap hr hn hroom hat
    exact ⟨new, hok, hsound, hsound.valid, hin⟩
  · obtain ⟨new, next, hok, hle, hnext, hsound, hspelled⟩ := exists_deleteLeaf hr hlt hstop
    exact ⟨new, next, hok, hle, hnext, hsound, hsound.valid, hspelled⟩

/-- Two units kept, one deleted, two inserted. -/
def threeRuns : MapRoot :=
  .stored 0 (nodeOf ([Run.copy 2, .deleted 1, .inserted 2].map MapEntry.ofRun))

theorem threeRuns_sound : threeRuns.Sound := by
  refine ⟨linkSound_node ?_ ⟨by decide, by decide⟩, by decide, by decide⟩
  intro e he
  obtain ⟨run, hrun, rfl⟩ := mem_map.mp he
  exact (show ∀ run ∈ [Run.copy 2, .deleted 1, .inserted 2], 0 < run.length by decide) run hrun

theorem map_refines_threeRuns :
    (∃ new, insertMap threeRuns 2 3 = .ok new ∧ new.Sound ∧ new.valid = true
      ∧ RunInserted 3 2 threeRuns.runs new.runs)
    ∧ ∃ new next, deleteLeaf threeRuns 1 4 = .ok (new, next) ∧ 1 ≤ next ∧ next < 4
      ∧ new.Sound ∧ new.valid = true
      ∧ spelled new.runs = deleteUnits next 4 0 (spelled threeRuns.runs) :=
  ⟨(map_refines_runs threeRuns_sound).1 2 3 (by decide) (by decide) (by decide),
    (map_refines_runs threeRuns_sound).2 1 4 (by decide) (by decide)⟩

end Beryl.Draft
