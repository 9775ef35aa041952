import Beryl.Machinery.Accounts
import Beryl.Outage.Facts

/-!
# Outage/Buffer — a bounded memory of facts that marks its gaps

The buffer keeps facts of a fixed list of targets under a limit of facts and of bytes.  A fact that
does not fit may push out facts of lower priority; every target that loses or is refused a fact is
marked with a *gap*, for good.

`held b i` is what the buffer has of target `i` — its facts in the order of their arrival — or
`none` under a gap.  **Each operation lets every target grow by what it was given, or marks it**
(`grows_offer`, `grows_capture`), so routed facts are kept in order or leave a gap
(`routed_facts_kept`).
-/

namespace Beryl.Outage

open Fallible Wire Provider Accounts List

/-- What a buffer may hold. -/
structure OutageBufferLimits where
  maxFacts : ℕ
  maxEncodedBytes : ℕ
  maxFieldBytes : ℕ
  maxTargets : ℕ

/-- A target and its gap. -/
structure TargetState where
  target : OutageTarget
  gap : Bool
  deriving DecidableEq

/-- A fact that is kept. -/
structure RetainedFact where
  target : ℕ
  priority : OutagePriority
  encoded : Bytes
  deriving DecidableEq

/-- The buffer. -/
structure OutageBuffer where
  limits : OutageBufferLimits
  targets : List TargetState
  facts : List RetainedFact
  encodedBytes : ℕ

/-- The numbers of the targets that a route names on a connection. -/
def routed (targets : List OutageTarget) (connection : OutageConnectionIdentity)
    (thread : CasThreadId) (turn : CasTurnId) : List ℕ :=
  (List.range targets.length).filter fun index => targets[index]?.any fun target =>
    target.connection = connection ∧ target.identity.casThreadId = thread ∧ target.casTurn = turn

variable {targets : List OutageTarget} {thread : CasThreadId} {turn : CasTurnId}

theorem mem_routed {connection : OutageConnectionIdentity}
    {i : ℕ} : i ∈ routed targets connection thread turn ↔
    ∃ target, targets[i]? = some target ∧ target.connection = connection ∧
      target.identity.casThreadId = thread ∧ target.casTurn = turn := by
  rw [routed, mem_filter, mem_range]
  rcases hi : targets[i]? with _ | target
  · simp
  · have hlt := (List.getElem?_eq_some_iff.mp hi).1
    simp [hlt]

namespace OutageBuffer

/-! ## The operations -/

/-- The targets one by one: no two equal ones, no turn of a thread twice, and all of them within the
limit of bytes.  `encodedBytes` counts the targets before. -/
def admitTargets (limits : OutageBufferLimits) :
    (prior rest : List OutageTarget) → (encodedBytes : ℕ) → Buffered ℕ
  | _, [], encodedBytes => .ok encodedBytes
  | prior, target :: rest, encodedBytes => do
    ensure (¬ prior.any fun p => decide (p = target ∨
      (p.identity.threadId = target.identity.threadId ∧ p.turn = target.turn))) .duplicateTarget
    let count ← targetLen target limits.maxFieldBytes
    let encodedBytes ← checkedAdd .encodedByteLimit encodedBytes count
    ensure (encodedBytes ≤ limits.maxEncodedBytes) .encodedByteLimit
    admitTargets limits (prior ++ [target]) rest encodedBytes

/-- No facts yet. -/
def new (limits : OutageBufferLimits) (targets : List OutageTarget) : Buffered OutageBuffer := do
  ensure (targets.length ≤ limits.maxTargets) .targetLimit
  let encodedBytes ← admitTargets limits [] targets 0
  return { limits, targets := targets.map (⟨·, false⟩), facts := [], encodedBytes }

/-- The targets, without their gaps. -/
def identities (b : OutageBuffer) : List OutageTarget := b.targets.map (·.target)

/-- Set the gap of the target with number `index`. -/
def mark (b : OutageBuffer) (index : ℕ) : OutageBuffer :=
  { b with targets := b.targets.modify index fun state => { state with gap := true } }

/-- `OutageConnectionIdentity::record_gap`: set the gap of every target of a connection. -/
def recordGap (b : OutageBuffer) (connection : OutageConnectionIdentity) : OutageBuffer :=
  { b with targets := b.targets.map fun state =>
      if state.target.connection = connection then { state with gap := true } else state }

/-- The number of a target. -/
def targetIndex (b : OutageBuffer) (target : OutageTarget) : Buffered ℕ :=
  required .unknownTarget (b.targets.findIdx? (·.target = target))

/-- The facts of lower priority: the lowest first, and of one priority the oldest first. -/
def victims (b : OutageBuffer) (priority : OutagePriority) : List ℕ :=
  let rank := fun index => (b.facts[index]?.elim 0 (·.priority.ctorIdx), index)
  ((List.range b.facts.length).filter fun index =>
    b.facts[index]?.any (·.priority.ctorIdx < priority.ctorIdx)).insertionSort
      fun left right => (rank left).1 < (rank right).1 ∨
        ((rank left).1 = (rank right).1 ∧ left ≤ right)

/-- Take victims until `count` facts of `bytes` bytes fit. -/
def makeRoom (b : OutageBuffer) : (victims : List ℕ) → (count bytes : ℕ) → Buffered (List ℕ × ℕ)
  | victims, count, bytes =>
    if b.limits.maxFacts < count ∨ b.limits.maxEncodedBytes < bytes then
      match victims with
      | [] => .error (if b.limits.maxFacts < count then .factLimit else .encodedByteLimit)
      | index :: rest => do
        let (removed, bytes) ← makeRoom b rest (count - 1)
          (bytes - b.facts[index]?.elim 0 (·.encoded.length))
        return (index :: removed, bytes)
    else .ok ([], bytes)

/-- Take out the fact at `index`, at the cost of its target's gap. -/
def evict (b : OutageBuffer) (index : ℕ) : OutageBuffer :=
  match b.facts[index]? with
  | none => b
  | some removed => { b with facts := b.facts.eraseIdx index }.mark removed.target

/-- How a fact of target `target` is retained. -/
def retain (target : ℕ) (fact : OutageFact) : RetainedFact :=
  ⟨target, fact.priority, encodeFact target fact⟩

/-- Keeps a fact if there is room. -/
def offerQualified (b : OutageBuffer) (target : ℕ) (fact : OutageFact) : Buffered OutageBuffer := do
  let length ← factLen target fact b.limits.maxFieldBytes
  let bytes ← checkedAdd .encodedByteLimit b.encodedBytes length
  let count ← checkedAdd .factLimit b.facts.length 1
  let (removed, bytes) ← b.makeRoom (b.victims fact.priority) count bytes
  -- the facts with the largest numbers go first, so that the others keep theirs
  let b := (removed.insertionSort (· ≥ ·)).foldl evict b
  return { b with facts := b.facts ++ [retain target fact], encodedBytes := bytes }

/-- Keeps a fact, or marks a gap. -/
def offer (b : OutageBuffer) (target : OutageTarget) (fact : OutageFact) :
    Buffered Unit × OutageBuffer :=
  match b.targetIndex target with
  | .error e => (.error e, b)
  | .ok index =>
    match b.offerQualified index fact with
    | .ok b => (.ok (), b)
    | .error e => (.error e, b.mark index)

/-- A fact, or a gap, of the one target that a route names. -/
def captureRouted (b : OutageBuffer) (connection : OutageConnectionIdentity) (thread : CasThreadId)
    (turn : CasTurnId) (fact : Option OutageFact) (gap : Bool) : OutageBuffer :=
  match routed b.identities connection thread turn with
  | [index] =>
    let b := if gap then b.mark index else b
    match fact, b.targets[index]? with
    | some fact, some state => (b.offer state.target fact).2
    | _, _ => b
  | _ => b.recordGap connection

/-! ## What is held -/

theorem exists_state {b : OutageBuffer} {i : ℕ} {target : OutageTarget}
    (h : b.identities[i]? = some target) :
    ∃ state, b.targets[i]? = some state ∧ state.target = target := by
  rw [identities, getElem?_map] at h
  exact Option.map_eq_some_iff.mp h

/-- The facts of target `i` in the order of their arrival, unless it has a gap. -/
def held (b : OutageBuffer) (i : ℕ) : Option (List RetainedFact) :=
  if b.targets[i]?.any (!·.gap) then some (b.facts.filter (·.target = i)) else none

variable {b b' : OutageBuffer} {i j index : ℕ} {target : OutageTarget} {fact : OutageFact}
  {connection : OutageConnectionIdentity} {limits : OutageBufferLimits}

theorem mem_held {l : List RetainedFact} : l ∈ b.held i ↔
    (∃ target, b.targets[i]? = some ⟨target, false⟩) ∧ l = b.facts.filter (·.target = i) := by
  rw [held, Option.mem_def]
  rcases hi : b.targets[i]? with _ | ⟨target, _ | _⟩ <;> simp [eq_comm]

theorem grows_of_targets (hfacts : b'.facts = b.facts)
    (h : ∀ target, b'.targets[j]? = some ⟨target, false⟩ → b.targets[j]? = some ⟨target, false⟩) :
    Grows (b.held j) (b'.held j) (some []) := by
  intro l hl
  obtain ⟨⟨target, htgt⟩, rfl⟩ := mem_held.mp hl
  refine ⟨_, mem_held.mpr ⟨⟨target, h target htgt⟩, rfl⟩, [], rfl, ?_⟩
  rw [hfacts, append_nil]

@[simp] theorem identities_mark : (b.mark i).identities = b.identities := by
  refine ext_getElem? fun j => ?_
  simp only [identities, mark, getElem?_map, getElem?_modify]
  split
  · rcases b.targets[j]? with _ | state <;> rfl
  · rcases b.targets[j]? with _ | state <;> rfl

theorem held_mark_self : (b.mark i).held i = none := by
  rw [held, mark]
  dsimp only
  rw [getElem?_modify]
  rcases b.targets[i]? with _ | state <;> simp

theorem grows_mark : Grows (b.held j) ((b.mark i).held j) (some []) := by
  refine grows_of_targets rfl fun target htgt => ?_
  simp only [mark, getElem?_modify] at htgt
  rcases hj : b.targets[j]? with _ | state
  · simp [hj] at htgt
  · rw [hj] at htgt
    split at htgt
    · cases htgt
    · exact htgt

@[simp] theorem identities_recordGap : (b.recordGap connection).identities = b.identities := by
  simp only [identities, recordGap, map_map]
  refine map_congr_left fun state _ => ?_
  dsimp only [Function.comp]
  split <;> rfl

theorem held_recordGap_self (hi : b.identities[i]? = some target)
    (hc : target.connection = connection) : (b.recordGap connection).held i = none := by
  obtain ⟨state, hstate, rfl⟩ := exists_state hi
  rw [held, recordGap]
  dsimp only
  rw [getElem?_map, hstate, Option.map_some, if_pos hc]
  rfl

theorem grows_recordGap : Grows (b.held j) ((b.recordGap connection).held j) (some []) := by
  refine grows_of_targets rfl fun target htgt => ?_
  simp only [recordGap, getElem?_map] at htgt
  obtain ⟨state, hstate, hgap⟩ := Option.map_eq_some_iff.mp htgt
  split at hgap
  · cases hgap
  · rw [hstate, hgap]

@[simp] theorem identities_evict : (b.evict index).identities = b.identities := by
  rw [evict]
  split
  · rfl
  · rw [identities_mark]
    rfl

/-- **A fact that is pushed out leaves a gap**; the facts of the other targets stay. -/
theorem grows_evict : Grows (b.held j) ((b.evict index).held j) (some []) := by
  rw [evict]
  split
  · exact .refl
  · rename_i removed hremoved
    by_cases hj : removed.target = j
    · subst hj
      exact .of_eq_none held_mark_self
    · refine .trans_refl ?_ grows_mark
      refine .of_eq ?_
      have hkeep : (b.facts.eraseIdx index).filter (·.target = j) =
          b.facts.filter (·.target = j) := by
        obtain ⟨hlt, hget⟩ := List.getElem?_eq_some_iff.mp hremoved
        conv_rhs => rw [← take_append_drop index b.facts, drop_eq_getElem_cons hlt, hget]
        rw [eraseIdx_eq_take_drop_succ, filter_append, filter_append,
          filter_cons_of_neg (by simpa using hj)]
      rw [held, held, hkeep]

@[simp] theorem identities_evictAll (indices : List ℕ) :
    (indices.foldl evict b).identities = b.identities := by
  induction indices generalizing b with
  | nil => rfl
  | cons index rest ih => rw [foldl_cons, ih, identities_evict]

theorem grows_evictAll (indices : List ℕ) :
    Grows (b.held j) ((indices.foldl evict b).held j) (some []) := by
  induction indices generalizing b with
  | nil => exact .refl
  | cons index rest ih => exact grows_evict.trans_refl ih

/-- The share of target `j` in a fact of target `i`. -/
def sole (i j : ℕ) (fact : OutageFact) : List RetainedFact := if j = i then [retain i fact] else []

theorem identities_offerQualified (h : b.offerQualified i fact = .ok b') :
    b'.identities = b.identities := by
  simp only [offerQualified, bind_eq_ok] at h
  obtain ⟨_, -, _, -, _, -, ⟨removed, bytes⟩, -, h⟩ := h
  rw [← Except.ok.inj h]
  exact identities_evictAll _

/-- A fact put behind the others is put behind those of its target. -/
theorem grows_push {bytes : ℕ} : Grows (b.held j)
    (held { b with facts := b.facts ++ [retain i fact], encodedBytes := bytes } j)
    (some (sole i j fact)) := by
  intro l hl
  obtain ⟨⟨target, htgt⟩, rfl⟩ := mem_held.mp hl
  refine ⟨_, mem_held.mpr ⟨⟨target, htgt⟩, rfl⟩, _, rfl, ?_⟩
  rw [filter_append, sole]
  congr 1
  by_cases hj : j = i
  · simp [retain, hj]
  · simp [retain, hj, Ne.symm hj]

theorem grows_offerQualified (h : b.offerQualified i fact = .ok b') :
    Grows (b.held j) (b'.held j) (some (sole i j fact)) := by
  simp only [offerQualified, bind_eq_ok] at h
  obtain ⟨_, -, _, -, _, -, ⟨removed, bytes⟩, -, h⟩ := h
  rw [← Except.ok.inj h]
  exact (grows_evictAll _).trans grows_push

/-! ## Distinct targets -/

/-- The number under which a target is found is its own. -/
theorem targetIndex_eq (hb : b.identities.Nodup) (hi : b.identities[i]? = some target) :
    b.targetIndex target = .ok i := by
  rw [targetIndex, required_eq_ok, findIdx?_eq_some_iff_getElem]
  obtain ⟨state, hstate, rfl⟩ := exists_state hi
  obtain ⟨hlt, rfl⟩ := List.getElem?_eq_some_iff.mp hstate
  refine ⟨hlt, by simp, fun k hk => ?_⟩
  rw [decide_eq_true_eq]
  intro heq
  have hlen : b.identities.length = b.targets.length := length_map _
  have hsame : b.identities[k] = b.identities[i] := by simpa [identities] using heq
  have := (List.Nodup.getElem_inj_iff hb).mp hsame
  omega

@[simp] theorem identities_offer : (b.offer target fact).2.identities = b.identities := by
  rw [offer]
  split
  · rfl
  · split
    · rename_i h
      exact identities_offerQualified h
    · exact identities_mark

/-- **An offered fact is retained behind the others of its target, or leaves a gap.** -/
theorem grows_offer (hb : b.identities.Nodup) (hi : b.identities[i]? = some target) :
    Grows (b.held j) ((b.offer target fact).2.held j) (some (sole i j fact)) := by
  rw [offer, targetIndex_eq hb hi]
  dsimp only
  split
  · rename_i h
    exact grows_offerQualified h
  · by_cases hj : j = i
    · subst hj
      exact .of_eq_none held_mark_self
    · rw [sole, if_neg hj]
      exact grows_mark

/-! ## Routed facts -/

/-- The arguments of `capture_routed`. -/
structure RoutedFact where
  connection : OutageConnectionIdentity
  thread : CasThreadId
  turn : CasTurnId
  fact : Option OutageFact
  gap : Bool

/-- `capture_routed` -/
def capture (b : OutageBuffer) (r : RoutedFact) : OutageBuffer :=
  b.captureRouted r.connection r.thread r.turn r.fact r.gap

/-- What target `j` is due, if the route names one target. -/
def RoutedFact.due (targets : List OutageTarget) (j : ℕ) (r : RoutedFact) : List RetainedFact :=
  match routed targets r.connection r.thread r.turn with
  | [i] => r.fact.elim [] (sole i j)
  | _ => []

/-- **A routed fact is retained by the one target of its route, or leaves a gap**: on that target,
or on the whole connection where no single target is named. -/
theorem grows_capture (hb : b.identities.Nodup) (r : RoutedFact) :
    (b.capture r).identities = b.identities
      ∧ Grows (b.held j) ((b.capture r).held j) (some (r.due b.identities j)) := by
  rw [capture, captureRouted, RoutedFact.due]
  split
  · rename_i i hroute
    have hgap : Grows (b.held j) ((if r.gap then b.mark i else b).held j) (some []) := by
      split
      · exact grows_mark
      · exact .refl
    have hids : (if r.gap then b.mark i else b).identities = b.identities := by
      split
      · exact identities_mark
      · rfl
    rcases r.fact with _ | fact
    · exact ⟨hids, hgap⟩
    · have hi : i ∈ routed b.identities r.connection r.thread r.turn :=
        hroute ▸ mem_singleton_self i
      obtain ⟨target, htgt, -⟩ := mem_routed.mp hi
      rw [← hids] at htgt
      obtain ⟨state, hstate, rfl⟩ := exists_state htgt
      dsimp only
      rw [hstate]
      exact ⟨identities_offer.trans hids, hgap.trans (grows_offer (hids ▸ hb) htgt)⟩
  · exact ⟨identities_recordGap, grows_recordGap⟩

/-! ## A fresh buffer -/

theorem nodup_of_admitTargets {prior rest : List OutageTarget}
    {bytes total : ℕ} (hprior : prior.Nodup)
    (h : admitTargets limits prior rest bytes = .ok total) : (prior ++ rest).Nodup := by
  induction rest generalizing prior bytes with
  | nil => rwa [append_nil]
  | cons target rest ih =>
    simp only [admitTargets, bind_eq_ok, ensure_eq_ok] at h
    obtain ⟨_, hnew, _, -, _, -, _, -, h⟩ := h
    have hmem : target ∉ prior := by
      intro hmem
      refine hnew (any_eq_true.mpr ⟨target, hmem, ?_⟩)
      simp
    have := ih (concat_eq_append ▸ hprior.concat hmem) h
    rwa [append_assoc] at this

/-- **A fresh buffer has distinct targets, no gap and no fact.** -/
theorem new_eq_ok (h : new limits targets = .ok b) :
    b.identities = targets ∧ targets.Nodup ∧ ∀ i, Honest (b.held i) (some []) := by
  simp only [new, bind_eq_ok, ensure_eq_ok] at h
  obtain ⟨_, -, bytes, hadmit, h⟩ := h
  rw [← Except.ok.inj h]
  refine ⟨?_, nodup_of_admitTargets nodup_nil hadmit, fun i l hl => ?_⟩
  · simp [identities, Function.comp_def]
  · rw [(mem_held.mp hl).2]
    rfl

/-- **Routed facts are kept in their order, or leave a gap**: whatever is routed into a fresh
buffer, a target without a gap holds exactly the facts whose routes named it alone. -/
theorem routed_facts_kept (h : new limits targets = .ok b) (calls : List RoutedFact) (i : ℕ) :
    Honest ((calls.foldl capture b).held i) (some (calls.flatMap (·.due targets i))) := by
  obtain ⟨rfl, hnodup, hfresh⟩ := new_eq_ok h
  suffices hrun : (calls.foldl capture b).identities = b.identities
      ∧ Honest ((calls.foldl capture b).held i) (some (calls.flatMap (·.due b.identities i)))
        from hrun.2
  induction calls using List.reverseRecOn with
  | nil => exact ⟨rfl, hfresh i⟩
  | append_singleton calls r ih =>
    obtain ⟨hids, hgrows⟩ := grows_capture (j := i) (ih.1 ▸ hnodup) r
    rw [foldl_concat, flatMap_append, flatMap_singleton]
    exact ⟨hids.trans ih.1, ih.2.grows (ih.1 ▸ hgrows)⟩

end OutageBuffer

end Beryl.Outage
