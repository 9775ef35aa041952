import Beryl.Home.Metadata
import Mathlib.Data.Nat.Bitwise
import Mathlib.Data.Nat.Factorization.Basic

/-!
# Turns/SelectedPath — ancestors of a turn within a fixed number of loads

A turn is stored with its depth, its parent and one *skip*: the ancestor at the depth that is left
when the lowest bit of its own is cleared.  A lift follows skips as long as they stay at or below
its target and takes one step to the parent where a skip would go too far.

**A lift from any depth of 64 bits ends within 64 + 63 + … + 1 loads** (`reaches`): behind a step to
the parent only the bits below the one that was refused are left.  The skip of a new turn is found
by such a lift, so a forest that is grown turn by turn never fails to take one more
(`ancestors_exact`).
-/

namespace Beryl.SelectedPath

open Fallible Home Relation

/-! ## Turns -/

/-- Depth of a turn, one for a root: a nonzero number of 64 bits. -/
abbrev TurnDepth := Revision

/-- `TurnRecord`, as far as ancestry reads it. -/
structure TurnRecord (Id D : Type) where
  id : Id
  parent : Option Id
  ancestorSkip : Option Id
  depth : TurnDepth
  chainDigest : D

/-- 64 + 63 + … + 1. -/
abbrev maxAncestorSteps : ℕ := 2080

/-- The depth of the stored skip, before it is a `TurnDepth`. -/
def skipOf (depth : ℕ) : ℕ := max (depth &&& (depth - 1)) 1

/-- The depth of a skip, if any. -/
def deterministicSkipDepth (depth : ℕ) : Option ℕ := if depth = 1 then none else some (skipOf depth)

/-- The same as a `TurnDepth`. -/
def ancestorSkipDepth (depth : TurnDepth) : Option TurnDepth :=
  (deterministicSkipDepth depth.get).bind fun depth => (Revision.new depth).toOption

section

variable {Id D E : Type} [DecidableEq Id]

/-- The turn that a lift loads next, and the depth it is to have. -/
def liftEdge (current : TurnRecord Id D) (target : TurnDepth) (invalid : String → E) :
    Except E (Id × ℕ) := do
  let skipDepth ← required (invalid "selected-path lift reached a root above its target")
    (ancestorSkipDepth current.depth)
  if target.get ≤ skipDepth.get then
    let id ← required (invalid "non-root turn is missing its deterministic ancestor skip")
      current.ancestorSkip
    return (id, skipDepth.get)
  else
    let id ← required (invalid "selected-path lift reached a root above its target") current.parent
    return (id, current.depth.get - 1)

/-- The rounds of `lift_to_depth`, with the number of their loads. -/
def liftRounds (target : TurnDepth) (load : Id → Except E (TurnRecord Id D))
    (invalid : String → E) : (rounds : ℕ) → TurnRecord Id D → Except E (TurnRecord Id D × ℕ)
  | 0, current =>
    if current.depth = target then .ok (current, 0)
    else .error (invalid "selected-path ancestry exceeded its bounded proof")
  | rounds + 1, current =>
    if current.depth = target then .ok (current, 0)
    else do
      let (nextId, expectedDepth) ← liftEdge current target invalid
      let next ← load nextId
      ensure (next.id = nextId ∧ next.depth.get = expectedDepth)
        (invalid "selected-path ancestor identity or deterministic depth disagrees")
      let (found, loads) ← liftRounds target load invalid rounds next
      return (found, loads + 1)

/-- The ancestor at a depth. -/
def liftToDepth (current : TurnRecord Id D) (target : TurnDepth)
    (load : Id → Except E (TurnRecord Id D)) (invalid : String → E) :
    Except E (TurnRecord Id D × ℕ) := do
  ensure (target.get ≤ current.depth.get) (invalid "selected-path target depth exceeds its tail")
  liftRounds target load invalid maxAncestorSteps current

/-- A failed `expect` counts as invalid. -/
def childAncestorSkip (parent : TurnRecord Id D) (childDepth : TurnDepth)
    (load : Id → Except E (TurnRecord Id D)) (invalid : String → E) : Except E Id := do
  let skipDepth ← required (invalid "every child turn has a deterministic ancestor-skip depth")
    (ancestorSkipDepth childDepth)
  let (turn, _) ← liftToDepth parent skipDepth load invalid
  return turn.id

/-- A turn is on the path of a tail. -/
def includesTurn (tail candidate : TurnRecord Id D) (load : Id → Except E (TurnRecord Id D))
    (invalid : String → E) : Except E Bool :=
  if tail.depth.get < candidate.depth.get then .ok false
  else do
    let (atCandidateDepth, _) ← liftToDepth tail candidate.depth load invalid
    return atCandidateDepth.id = candidate.id

/-- The digests of the chain of a root and of a child. -/
structure ChainDigests (Id D : Type) where
  root : Id → D
  child : Id → Id → D → D

/-- Why a turn has no shape. -/
inductive SyndicMutationError
  | sourceTailConflict
  | value (error : RevisionError)
  deriving DecidableEq

/-- The stored turns. -/
abbrev Turns (Id D : Type) := Id → Option (TurnRecord Id D)

/-- `required`, for the family of turns. -/
def readTurn (turns : Turns Id D) (missing : E) (id : Id) : Except E (TurnRecord Id D) :=
  required missing (turns id)

/-- Depth, digest and skip of a turn. -/
def turnShape (digests : ChainDigests Id D) (turns : Turns Id D) (turnId : Id) :
    (parent : Option Id) → Except SyndicMutationError (TurnDepth × D × Option Id)
  | none => .ok (.first, digests.root turnId, none)
  | some parentId => do
    let parent ← readTurn turns .sourceTailConflict parentId
    let depth ← parent.depth.checkedNext.mapError .value
    let ancestorSkip ← childAncestorSkip parent depth (readTurn turns .sourceTailConflict)
      fun _ => .sourceTailConflict
    return (depth, digests.child turnId parentId parent.chainDigest, some ancestorSkip)

/-- **A forest of turns**, grown by roots and children in the shape that `turn_shape` gives them. -/
inductive Grown (digests : ChainDigests Id D) : Turns Id D → Prop
  | empty : Grown digests fun _ => none
  | add (id : Id) (parent : Option Id) {turns : Turns Id D} {skip : Option Id} {depth : TurnDepth}
    {digest : D} (grown : Grown digests turns) (fresh : turns id = none)
    (shape : turnShape digests turns id parent = .ok (depth, digest, skip)) :
    Grown digests (Function.update turns id (some ⟨id, parent, skip, depth, digest⟩))

/-- The turn itself, its parent, the parent of that, and so on. -/
def Ancestor (turns : Turns Id D) : TurnRecord Id D → TurnRecord Id D → Prop :=
  ReflTransGen fun turn next => ∃ id, turn.parent = some id ∧ turns id = some next

end

/-! ## Depths -/

section

variable {t d a e j n : ℕ}

/-- Where a lift goes from a depth. -/
def nextDepth (t d : ℕ) : ℕ := if t ≤ skipOf d then skipOf d else d - 1

/-- A lift to depth `t` gets there from depth `d` within a number of loads. -/
def Reaches (t : ℕ) : (loads : ℕ) → (d : ℕ) → Prop
  | 0, d => d = t
  | n + 1, d => d = t ∨ Reaches t n (nextDepth t d)

theorem Reaches.succ (h : Reaches t n d) : Reaches t (n + 1) d := by
  induction n generalizing d with
  | zero => exact .inl h
  | succ n ih => exact h.imp_right ih

theorem Reaches.mono {m : ℕ} (h : Reaches t n d) (hle : n ≤ m) : Reaches t m d := by
  induction hle with
  | refl => exact h
  | step _ ih => exact ih.succ

/-- **The lowest bit of a depth is cleared.** -/
theorem skipOf_add (ha : 2 ^ (j + 1) ∣ a) : skipOf (a + 2 ^ j) = max a 1 := by
  obtain ⟨m, rfl⟩ := ha
  have hlt : 2 ^ j < 2 ^ (j + 1) := Nat.pow_lt_pow_succ (by decide)
  rw [skipOf, Nat.add_sub_assoc (Nat.two_pow_pos j)]
  congr 1
  refine Nat.eq_of_testBit_eq fun i => ?_
  rw [Nat.testBit_and, Nat.testBit_two_pow_mul_add _ hlt, Nat.testBit_two_pow_mul_add _ (by omega),
    Nat.testBit_two_pow_mul]
  by_cases hi : i < j + 1
  · simp only [hi, if_true, Nat.testBit_two_pow, Nat.testBit_two_pow_sub_one]
    grind
  · simp [hi, Nat.le_of_not_lt hi]

/-- The bits below a multiple of a power of two are cleared one by one. -/
theorem reaches_add (ha : 2 ^ j ∣ a) (ht : t ≤ a) (hpos : 0 < t) (he : e < 2 ^ j)
    (h : Reaches t n a) : Reaches t (n + j) (a + e) := by
  induction j generalizing a e n with
  | zero =>
    obtain rfl : e = 0 := by simpa using he
    exact h
  | succ j ih =>
    have hdvd := Nat.dvd_trans (pow_dvd_pow 2 (Nat.le_succ j)) ha
    rcases Nat.lt_or_ge e (2 ^ j) with hlow | hhigh
    · exact (ih hdvd ht hlow h).succ
    · have hbit : Reaches t (n + 1) (a + 2 ^ j) := by
        refine .inr ?_
        rw [nextDepth, skipOf_add ha, max_eq_left (by omega), if_pos ht]
        exact h
      obtain ⟨e, rfl⟩ := Nat.exists_eq_add_of_le hhigh
      have hrest := ih ((Nat.dvd_add_right hdvd).mpr dvd_rfl) (by omega)
        (by rw [pow_succ] at he; omega : e < 2 ^ j) hbit
      rwa [Nat.add_right_comm, Nat.add_assoc a] at hrest

/-- `j + … + 1`. -/
def triangle : ℕ → ℕ
  | 0 => 0
  | j + 1 => triangle j + 1 + j

/-- **Below a target that is not crossed, the `j` lowest bits cost at most `j + … + 1` loads.** -/
theorem reaches_of_lt (ha : 2 ^ j ∣ a) (hlt : a < t) (ht : t ≤ a + e) (he : e < 2 ^ j) :
    Reaches t (triangle j) (a + e) := by
  induction j generalizing a e with
  | zero => omega
  | succ j ih =>
    have hdvd := Nat.dvd_trans (pow_dvd_pow 2 (Nat.le_succ j)) ha
    have hbit := (Nat.dvd_add_right hdvd).mpr (dvd_refl (2 ^ j))
    have hpos := Nat.two_pow_pos j
    rcases Nat.lt_or_ge e (2 ^ j) with hlow | hhigh
    · exact (ih hdvd hlt ht hlow).mono (by rw [triangle]; omega)
    obtain ⟨e, rfl⟩ := Nat.exists_eq_add_of_le hhigh
    have he : e < 2 ^ j := by rw [pow_succ] at he; omega
    rw [← Nat.add_assoc] at ht ⊢
    rcases Nat.lt_or_ge (a + 2 ^ j) t with hin | hout
    · exact (ih hbit hin ht he).mono (by rw [triangle]; omega)
    refine reaches_add hbit hout (by omega) he ?_
    rcases Nat.eq_or_lt_of_le hout with rfl | hout
    · exact .inl rfl
    -- the skip of the bit is the target itself, or too far
    refine .inr ?_
    rw [nextDepth, skipOf_add ha]
    split
    · next hone =>
      obtain rfl : max a 1 = t := by omega
      exact Reaches.mono (n := 0) rfl (Nat.zero_le _)
    · rw [Nat.add_sub_assoc hpos]
      exact ih hdvd hlt (by omega) (by omega)

/-- **Every depth of 64 bits is lifted within 2080 loads.** -/
theorem reaches (hpos : 0 < t) (hle : t ≤ d) (hd : d < u64Size) : Reaches t maxAncestorSteps d := by
  have h := reaches_of_lt (⟨0, rfl⟩ : 2 ^ 64 ∣ 0) hpos (by rwa [Nat.zero_add]) hd
  rwa [Nat.zero_add] at h

end

/-! ## Forests -/

section

variable {Id D E : Type} {digests : ChainDigests Id D} {turns later : Turns Id D} {id : Id}
  {turn other above : TurnRecord Id D} {depth : TurnDepth}

/-- **What is stored of a turn**: a root has depth one, a parent lies one step above, and the skip
is the ancestor at the depth of the skip. -/
structure Stored (turns : Turns Id D) (turn : TurnRecord Id D) : Prop where
  found : turns turn.id = some turn
  root : turn.parent = none → turn.depth.get = 1
  parent : ∀ id, turn.parent = some id →
    ∃ next, turns id = some next ∧ turn.depth.get = next.depth.get + 1
  skip : turn.parent ≠ none → ∃ id above, turn.ancestorSkip = some id ∧ turns id = some above
    ∧ Ancestor turns turn above ∧ above.depth.get = skipOf turn.depth.get

/-- Every turn is stored as it should be. -/
def Sound (turns : Turns Id D) : Prop :=
  ∀ id turn, turns id = some turn → turn.id = id ∧ Stored turns turn

variable (hkeep : ∀ {id turn}, turns id = some turn → later id = some turn)
include hkeep

theorem Ancestor.mono (h : Ancestor turns turn above) : Ancestor later turn above :=
  ReflTransGen.mono (fun _ _ ⟨id, hid, hnext⟩ => ⟨id, hid, hkeep hnext⟩) _ _ h

theorem Stored.mono (h : Stored turns turn) : Stored later turn := by
  refine ⟨hkeep h.found, h.root, fun id hid => ?_, fun hchild => ?_⟩
  · obtain ⟨next, hnext, hdepth⟩ := h.parent id hid
    exact ⟨next, hkeep hnext, hdepth⟩
  · obtain ⟨id, above, hid, hfound, habove, hdepth⟩ := h.skip hchild
    exact ⟨id, above, hid, hkeep hfound, habove.mono hkeep, hdepth⟩

omit hkeep

theorem ancestorSkipDepth_eq (h : depth.get ≠ 1) :
    ∃ skip, ancestorSkipDepth depth = some skip ∧ skip.get = skipOf depth.get := by
  have hle : skipOf depth.get ≤ depth.get := max_le Nat.and_le_left depth.pos
  have hskip : 0 < skipOf depth.get ∧ skipOf depth.get < u64Size :=
    ⟨Nat.le_max_right .., Nat.lt_of_le_of_lt hle depth.lt⟩
  refine ⟨⟨_, hskip.1, hskip.2⟩, ?_, rfl⟩
  rw [ancestorSkipDepth, deterministicSkipDepth, if_neg h, Option.bind_some, Revision.new,
    dif_pos hskip]
  rfl

/-- An ancestor of a stored turn is stored, and lies above it or is the turn itself. -/
theorem Sound.ancestor (hs : Sound turns) (h : Stored turns turn) (ha : Ancestor turns turn above) :
    Stored turns above ∧ (above = turn ∨ above.depth.get < turn.depth.get) := by
  induction ha with
  | refl => exact ⟨h, .inl rfl⟩
  | tail _ hstep ih =>
    obtain ⟨id, hid, hnext⟩ := hstep
    obtain ⟨next, hfound, hdepth⟩ := ih.1.parent id hid
    cases hnext.symm.trans hfound
    refine ⟨(hs _ _ hnext).2, .inr ?_⟩
    rcases ih.2 with rfl | hlt <;> omega

/-- **There is one ancestor at a depth.** -/
theorem Sound.unique (hs : Sound turns) (h : Stored turns turn) (ha : Ancestor turns turn above)
    (hb : Ancestor turns turn other) (heq : other.depth = above.depth) : other = above := by
  have hparent : Relator.RightUnique fun turn next : TurnRecord Id D =>
      ∃ id, turn.parent = some id ∧ turns id = some next := by
    rintro turn next next' ⟨id, hid, hnext⟩ ⟨id', hid', hnext'⟩
    cases hid.symm.trans hid'
    exact Option.some.inj (hnext.symm.trans hnext')
  have hdepth := congrArg Revision.get heq
  rcases ReflTransGen.total_of_right_unique hparent ha hb with hab | hba
  · exact (hs.ancestor (hs.ancestor h ha).1 hab).2.resolve_right (by omega)
  · exact ((hs.ancestor (hs.ancestor h hb).1 hba).2.resolve_right (by omega)).symm

variable (missing : E) (invalid : String → E) {target : TurnDepth}

/-- **An edge leads to an ancestor at the next depth.** -/
theorem Stored.liftEdge (h : Stored turns turn) (hlt : target.get < turn.depth.get) :
    ∃ id next, liftEdge turn target invalid = .ok (id, next.depth.get) ∧ turns id = some next
      ∧ Ancestor turns turn next ∧ next.depth.get = nextDepth target.get turn.depth.get := by
  have hpos := target.pos
  obtain ⟨skip, hskip, hdepth⟩ := ancestorSkipDepth_eq (show turn.depth.get ≠ 1 by omega)
  have hchild : turn.parent ≠ none := fun hroot => by have := h.root hroot; omega
  rw [SelectedPath.liftEdge, hskip, required_bind, nextDepth, ← hdepth]
  split
  · obtain ⟨id, next, hid, hnext, hanc, hget⟩ := h.skip hchild
    refine ⟨id, next, ?_, hnext, hanc, hget.trans hdepth.symm⟩
    rw [hid, required_bind, hdepth, hget]
    rfl
  · obtain ⟨id, hid⟩ := Option.ne_none_iff_exists'.mp hchild
    obtain ⟨next, hnext, hget⟩ := h.parent id hid
    refine ⟨id, next, ?_, hnext, .single ⟨id, hid, hnext⟩, by omega⟩
    rw [hid, required_bind, hget]
    rfl

variable [DecidableEq Id]

variable (hs : Sound turns) (h : Stored turns turn) (hle : target.get ≤ turn.depth.get)
include hs h hle

/-- **A lift follows the depths.** -/
theorem Sound.liftRounds {n : ℕ} (hn : Reaches target.get n turn.depth.get) : ∃ above loads,
      liftRounds target (readTurn turns missing) invalid n turn = .ok (above, loads)
        ∧ loads ≤ n ∧ Ancestor turns turn above ∧ above.depth = target := by
  induction n generalizing turn with
  | zero =>
    have heq := Revision.eq_of_get hn
    exact ⟨turn, 0, if_pos heq, le_rfl, .refl, heq⟩
  | succ n ih =>
    by_cases heq : turn.depth = target
    · exact ⟨turn, 0, if_pos heq, Nat.zero_le _, .refl, heq⟩
    have hne : turn.depth.get ≠ target.get := fun h => heq (Revision.eq_of_get h)
    obtain ⟨id, next, hedge, hnext, hanc, hget⟩ :=
      h.liftEdge invalid (lt_of_le_of_ne hle hne.symm)
    obtain ⟨hid, hstored⟩ := hs id next hnext
    have hle' : target.get ≤ next.depth.get := by rw [hget, nextDepth]; split <;> omega
    obtain ⟨above, loads, hrun, hloads, habove, hdepth⟩ :=
      ih hstored hle' (hget ▸ hn.resolve_left hne)
    refine ⟨above, loads + 1, ?_, Nat.succ_le_succ hloads, hanc.trans habove, hdepth⟩
    rw [SelectedPath.liftRounds, if_neg heq, hedge, ok_bind]
    dsimp only
    rw [readTurn, hnext, required_bind, ensure_bind ⟨hid, rfl⟩, hrun]
    rfl

theorem Sound.liftToDepth : ∃ above loads,
      liftToDepth turn target (readTurn turns missing) invalid = .ok (above, loads)
        ∧ loads ≤ maxAncestorSteps ∧ Ancestor turns turn above ∧ above.depth = target := by
  rw [SelectedPath.liftToDepth, ensure_bind hle]
  exact hs.liftRounds missing invalid h hle (reaches target.pos hle turn.depth.lt)

omit hs h hle

/-- **A child of a stored turn has a shape** as long as there is a depth for it. -/
theorem Sound.turnShape (hs : Sound turns) (digests : ChainDigests Id D) (id : Id) {parentId : Id}
    (hp : turns parentId = some turn) (hd : depth.get = turn.depth.get + 1) :
    ∃ above, turnShape digests turns id (some parentId)
          = .ok (depth, digests.child id parentId turn.chainDigest, some above.id)
        ∧ turns above.id = some above ∧ Ancestor turns turn above
        ∧ above.depth.get = skipOf depth.get := by
  have hpos := turn.depth.pos
  obtain ⟨skip, hskip, hget⟩ := ancestorSkipDepth_eq (show depth.get ≠ 1 by omega)
  have hle : skip.get ≤ turn.depth.get := by
    have : depth.get &&& (depth.get - 1) ≤ depth.get - 1 := Nat.and_le_right
    rw [hget, skipOf]
    omega
  obtain ⟨above, loads, hlift, -, hanc, rfl⟩ := hs.liftToDepth
    SyndicMutationError.sourceTailConflict (fun _ => .sourceTailConflict) (hs _ _ hp).2 hle
  refine ⟨above, ?_, (hs.ancestor (hs _ _ hp).2 hanc).1.found, hanc, hget⟩
  rw [SelectedPath.turnShape, readTurn, hp, required_bind, Revision.checkedNext_of_lt hd,
    mapError_ok, ok_bind, childAncestorSkip, hskip, required_bind, hlift]
  rfl

/-! ## Growth -/

/-- **Every forest that was grown is sound.** -/
theorem Grown.sound (h : Grown digests turns) : Sound turns := by
  induction h with
  | empty => exact fun _ _ h => nomatch h
  | @add id parent turns skip depth digest _ fresh shape ih =>
    have hkeep : ∀ {i turn}, turns i = some turn →
        Function.update turns id (some ⟨id, parent, skip, depth, digest⟩) i = some turn := by
      intro i turn hturn
      rwa [Function.update_of_ne]
      rintro rfl
      cases fresh.symm.trans hturn
    intro i turn hturn
    by_cases hi : i = id
    · subst hi
      rw [Function.update_self] at hturn
      cases hturn
      cases parent with
      | none =>
        cases shape
        exact ⟨rfl, Function.update_self .., fun _ => rfl, nofun, fun h => absurd rfl h⟩
      | some parentId =>
        -- the skip is the one that a lift from the parent has found
        obtain ⟨next, hnext, h₁⟩ := bind_eq_ok.mp shape
        obtain ⟨_, hdepth, -⟩ := bind_eq_ok.mp h₁
        have hnext := required_eq_ok.mp hnext
        have hdepth := Revision.checkedNext_eq_ok (mapError_eq_ok.mp hdepth)
        obtain ⟨above, hshape, hfound, habove, hget⟩ := ih.turnShape _ _ hnext hdepth
        cases shape.symm.trans hshape
        refine ⟨rfl, Function.update_self .., nofun, ?_, fun _ => ?_⟩
        · rintro _ ⟨⟩
          exact ⟨next, hkeep hnext, hdepth⟩
        · exact ⟨above.id, above, rfl, hkeep hfound,
            .head ⟨parentId, rfl, hkeep hnext⟩ (habove.mono hkeep), hget⟩
    · rw [Function.update_of_ne hi] at hturn
      exact ⟨(ih _ _ hturn).1, (ih _ _ hturn).2.mono hkeep⟩

/-- The bit that a skip clears is the lowest. -/
theorem exists_skipOf_eq {d : ℕ} (hd : d ≠ 0) :
    ∃ k, 2 ^ k ∣ d ∧ ¬ 2 ^ (k + 1) ∣ d ∧ skipOf d = max (d - 2 ^ k) 1 := by
  obtain ⟨k, m, ⟨q, rfl⟩, rfl⟩ := Nat.exists_eq_two_pow_mul_odd hd
  have hsum : 2 ^ k * (2 * q + 1) = 2 ^ (k + 1) * q + 2 ^ k := by
    rw [Nat.mul_add, Nat.mul_one, ← Nat.mul_assoc, ← pow_succ]
  refine ⟨k, ⟨_, rfl⟩, fun hdvd => ?_, ?_⟩
  · rw [pow_succ] at hdvd
    have := Nat.dvd_of_mul_dvd_mul_left (Nat.two_pow_pos k) hdvd
    omega
  · rw [hsum, skipOf_add ⟨q, rfl⟩, Nat.add_sub_cancel]

/-! ## The result -/

/-- **Ancestors are looked up exactly, within the fixed number of loads.**  In every forest that was
grown, a skip is the ancestor at the depth without the lowest bit; a lift to any depth above a turn
returns the one ancestor there; membership in the path of a tail is decided; and every
new turn has a shape as long as there is a depth for it. -/
theorem ancestors_exact (h : Grown digests turns) :
    (∀ id turn, turns id = some turn → turn.parent ≠ none → ∃ k skip above,
      2 ^ k ∣ turn.depth.get ∧ ¬ 2 ^ (k + 1) ∣ turn.depth.get ∧ turn.ancestorSkip = some skip
        ∧ turns skip = some above ∧ Ancestor turns turn above
        ∧ above.depth.get = max (turn.depth.get - 2 ^ k) 1)
      ∧ (∀ id turn, turns id = some turn → ∀ target : TurnDepth, target.get ≤ turn.depth.get →
        ∀ (E : Type) (missing : E) (invalid : String → E), ∃ above loads,
          liftToDepth turn target (readTurn turns missing) invalid = .ok (above, loads)
            ∧ loads ≤ 2080 ∧ Ancestor turns turn above ∧ above.depth = target
            ∧ ∀ other, Ancestor turns turn other → other.depth = target → other = above)
      ∧ (∀ id tail id' candidate, turns id = some tail → turns id' = some candidate →
        ∀ (E : Type) (missing : E) (invalid : String → E), ∃ included,
          includesTurn tail candidate (readTurn turns missing) invalid = .ok included
            ∧ (included = true ↔ Ancestor turns tail candidate))
      ∧ ∀ id parent, (∀ parentId ∈ parent, ∃ turn, turns parentId = some turn
          ∧ turn.depth.get < u64Size - 1) →
        ∃ shape, turnShape digests turns id parent = .ok shape := by
  have hs := h.sound
  refine ⟨fun id turn hturn hchild => ?_, fun id turn hturn target hle E missing invalid => ?_,
    fun id tail id' candidate htail hcand E missing invalid => ?_,
    fun id parent hparent => ?_⟩
  · obtain ⟨skip, above, hskip, hfound, hanc, hdepth⟩ := (hs _ _ hturn).2.skip hchild
    obtain ⟨k, hdvd, hnot, heq⟩ := exists_skipOf_eq (Nat.ne_of_gt turn.depth.pos)
    exact ⟨k, skip, above, hdvd, hnot, hskip, hfound, hanc, hdepth.trans heq⟩
  · have hstored := (hs _ _ hturn).2
    obtain ⟨above, loads, hlift, hloads, hanc, rfl⟩ := hs.liftToDepth missing invalid hstored hle
    exact ⟨above, loads, hlift, hloads, hanc, rfl, fun other => hs.unique hstored hanc⟩
  · have hstored := (hs _ _ htail).2
    rw [includesTurn]
    split
    · next hlt =>
      refine ⟨false, rfl, iff_of_false Bool.false_ne_true fun hanc => ?_⟩
      rcases (hs.ancestor hstored hanc).2 with rfl | hle <;> omega
    · next hle =>
      obtain ⟨above, loads, hlift, -, hanc, hdepth⟩ := hs.liftToDepth missing invalid
        hstored (Nat.le_of_not_lt hle)
      refine ⟨_, by rw [hlift]; rfl, ?_⟩
      rw [decide_eq_true_eq]
      refine ⟨fun heq => ?_, fun hother => by rw [hs.unique hstored hanc hother hdepth.symm]⟩
      -- a turn is found under its identity
      have hfound := (hs.ancestor hstored hanc).1.found
      rw [heq, (hs _ _ hcand).2.found] at hfound
      exact Option.some.inj hfound ▸ hanc
  · cases parent with
    | none => exact ⟨_, rfl⟩
    | some parentId =>
      obtain ⟨turn, hturn, hlt⟩ := hparent parentId rfl
      let depth : TurnDepth := ⟨turn.depth.get + 1, Nat.succ_pos _, by omega⟩
      obtain ⟨above, hshape, -⟩ := hs.turnShape digests id hturn (rfl : depth.get = _)
      exact ⟨_, hshape⟩

end

/-- Digests that tell no chain from another. -/
def noDigests : ChainDigests ℕ Unit := ⟨fun _ => (), fun _ _ _ => ()⟩

/-- **From the last turn of a chain of seven, the third is found over two skips and a parent**, and
no other ancestor is at its depth. -/
theorem ancestors_exact_chain : ∃ (turns : Turns ℕ Unit) (turn above : TurnRecord ℕ Unit),
    Grown noDigests turns ∧ turns 6 = some turn ∧ turn.depth.get = 7 ∧ above.id = 2 ∧
      liftToDepth turn above.depth (readTurn turns ()) (fun _ => ()) = .ok (above, 3) ∧
      Ancestor turns turn above ∧
      ∀ other, Ancestor turns turn other → other.depth = above.depth → other = above := by
  have hthree : Grown noDigests _ :=
    .add 2 (some 1) (.add 1 (some 0) (.add 0 none .empty rfl rfl) rfl rfl) rfl rfl
  have hgrown : Grown noDigests _ := .add 6 (some 5) (.add 5 (some 4) (.add 4 (some 3)
    (.add 3 (some 2) hthree rfl rfl) rfl rfl) rfl rfl) rfl rfl
  obtain ⟨above, loads, hlift, -, hanc, hdepth, hunique⟩ := (ancestors_exact hgrown).2.1 6 _ rfl
    ⟨3, by decide, by decide⟩ (by decide) Unit () fun _ => ()
  obtain ⟨rfl, rfl⟩ := Prod.mk.inj (Except.ok.inj hlift)
  exact ⟨_, _, _, hgrown, rfl, rfl, rfl, hlift, hanc, hunique⟩

end Beryl.SelectedPath
