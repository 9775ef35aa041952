import Beryl.Outage.Assembly

/-!
# Outage/Slot — the one observation in hand on a connection

A connection has one *slot*.  It holds at most one observation, open or sealed, and a flag for
anything that was lost before it reached the buffer.  The buffer may be out of reach; a sealed
observation then waits in the slot, and the flag is brought to the buffer by a later call.

An `Account` follows the calls alone: what was begun, and what became of it.  `Tracks` says that a
slot without its flag is faithful to the account, and **every call keeps a slot faithful, or sets
its flag** (`Tracks.perform`), whether or not it reaches the buffer.
-/

namespace Beryl.Outage

open Provider Accounts

/-- What is in a slot. -/
inductive Observation
  | empty
  | opened (assembly : OutageAssembly)
  | sealed (assembly : OutageAssembly) (route : ProviderObservationRoute)

/-- The slot of a connection. -/
structure OutageObservationSlot where
  connection : OutageConnectionIdentity
  limits : OutageAssemblyLimits
  observation : Observation
  gap : Bool
  accepting : Bool

namespace OutageObservationSlot

/-! ## The calls -/

/-- An empty slot. -/
def new (connection : OutageConnectionIdentity) (limits : OutageAssemblyLimits) :
    OutageObservationSlot where
  connection := connection
  limits := limits
  observation := .empty
  gap := false
  accepting := true

/-- The result of a call, the slot behind it, and the buffer if it was in reach. -/
abbrev Outcome :=
  Except OutageAssemblyError Unit × OutageObservationSlot × Option OutageBuffer

/-- Sets the flag. -/
def recordLoss (s : OutageObservationSlot) : OutageObservationSlot := { s with gap := true }

/-- Drops what is open. -/
def abandon (s : OutageObservationSlot) : OutageObservationSlot :=
  { s with observation := .empty, gap := true }

/-- Takes nothing any more. -/
def disable (s : OutageObservationSlot) : OutageObservationSlot :=
  { s.abandon with accepting := false }

/-- The buffer behind the flag of a slot. -/
def recordGap (s : OutageObservationSlot) (b : OutageBuffer) : OutageBuffer :=
  if s.gap then b.recordGap s.connection else b

/-- Brings all to the buffer. -/
def flush (s : OutageObservationSlot) (b : OutageBuffer) : OutageObservationSlot × OutageBuffer :=
  match s.observation with
  | .sealed assembly route =>
    ({ s with observation := .empty }, s.recordGap (assembly.sealInto b (some route)).2)
  | _ => (s, s.recordGap b)

/-- Open an observation where the slot is empty.  A sealed one that never reached the buffer is
lost, and so is an open one, which takes the new one with it. -/
def openObservation (s : OutageObservationSlot) (identity : ProviderObservationId)
    (begins : ProviderObservationBegin) : Except OutageAssemblyError Unit × OutageObservationSlot :=
  let opened := Observation.opened (.new s.connection identity begins s.limits)
  match s.observation with
  | .empty => (.ok (), { s with observation := opened })
  | .sealed _ _ => (.ok (), { s with observation := opened, gap := true })
  | .opened _ => (.error .malformed, { s with observation := .empty, gap := true })

/-- Begins an observation. -/
def begin (s : OutageObservationSlot) (identity : ProviderObservationId)
    (begins : ProviderObservationBegin) (ready : Option OutageBuffer) : Outcome :=
  if s.accepting then
    match ready with
    | none =>
      let (result, s) := s.openObservation identity begins
      (result, s, none)
    | some b =>
      let (s, b) := s.flush b
      let (result, s) := s.openObservation identity begins
      (result, s, some b)
  else (.error .retentionLoss, s, ready)

/-- The slot behind a call to its open observation. -/
def settle (s : OutageObservationSlot) (outcome : OutageAssembly.Outcome) :
    Except OutageAssemblyError Unit × OutageObservationSlot :=
  (outcome.1, if outcome.1 = .error .malformed then s.abandon
    else { s with observation := .opened outcome.2 })

section

variable (layout : Layout)

/-- A control of the open one. -/
def control (s : OutageObservationSlot) (granted : Bool) (control : ProviderObservationControl) :
    Except OutageAssemblyError Unit × OutageObservationSlot :=
  match s.observation with
  | .opened assembly => s.settle (assembly.control layout granted control)
  | _ => (.error .malformed, s.abandon)

/-- A text of the open one. -/
def fragment (s : OutageObservationSlot) (granted : Bool) (context : ProviderValueContext)
    (offset : ℕ) (text : List Char) : Except OutageAssemblyError Unit × OutageObservationSlot :=
  match s.observation with
  | .opened assembly => s.settle (assembly.fragment granted context offset text)
  | _ => (.error .malformed, s.abandon)

/-- Seals the open one. -/
def sealObservation (s : OutageObservationSlot) (route : ProviderObservationRoute)
    (ready : Option OutageBuffer) : Outcome :=
  match s.observation, ready with
  | .opened assembly, some b =>
    match assembly.validateSeal layout route with
    | .ok () =>
      let (publication, b) := assembly.sealInto b (some route)
      (publication, { s with observation := .empty }, some (s.recordGap b))
    | .error error =>
      let (_, b) := assembly.discard.sealInto b (some route)
      (.error error, { s with observation := .empty }, some (s.recordGap b))
  | .opened assembly, none =>
    match assembly.validateSeal layout route with
    | .ok () => (.ok (), { s with observation := .sealed assembly route }, none)
    | .error error => (.error error, { s with observation := .empty, gap := true }, none)
  | _, some b =>
    let (s, b) := { s with observation := .empty, gap := true }.flush b
    (.error .malformed, s, some b)
  | _, none => (.error .malformed, { s with observation := .empty, gap := true }, none)

end

end OutageObservationSlot

/-- The calls of a slot, each with what it needs from outside. -/
inductive SlotCall
  | begin (identity : ProviderObservationId) (begins : ProviderObservationBegin)
  | control (granted : Bool) (control : ProviderObservationControl)
  | fragment (granted : Bool) (context : ProviderValueContext) (offset : ℕ) (text : List Char)
  | sealObservation (route : ProviderObservationRoute)
  | recordLoss | abandon | disable | flush

namespace OutageObservationSlot

/-- One call, with the buffer if it is in reach. -/
def perform (layout : Layout) (s : OutageObservationSlot) (ready : Option OutageBuffer) :
    SlotCall → OutageObservationSlot × Option OutageBuffer
  | .begin identity begins => (s.begin identity begins ready).2
  | .control granted control => ((s.control layout granted control).2, ready)
  | .fragment granted context offset text => ((s.fragment granted context offset text).2, ready)
  | .sealObservation route => (s.sealObservation layout route ready).2
  | .recordLoss => (s.recordLoss, ready)
  | .abandon => (s.abandon, ready)
  | .disable => (s.disable, ready)
  | .flush =>
    match ready with
    | none => (s, none)
    | some b =>
      let (s, b) := s.flush b
      (s, some b)

end OutageObservationSlot

/-! ## The account of a connection -/

/-- What became of the observations begun on a connection, as its calls say. -/
structure Account where
  opened : Option Observed := none
  /-- In the order of the seals, each with its route. -/
  sealed : Deliveries := []
  /-- Begun, and given up before a seal. -/
  dropped : List Observed := []
  /-- The caller said that something is lost. -/
  declared : Bool := false

namespace Account

/-- Give up what is open. -/
def drop (a : Account) : Account :=
  { a with dropped := a.dropped ++ a.opened.toList, opened := none, declared := true }

/-- One more call for the open observation. -/
def call (a : Account) (call : Call) : Account :=
  { a with opened := a.opened.map fun o => { o with calls := o.calls ++ [call] } }

/-- What a call comes to. -/
def perform (a : Account) : SlotCall → Account
  | .begin identity begins =>
    match a.opened with
    | none => { a with opened := some ⟨identity, begins, []⟩ }
    | some o => { a with dropped := a.dropped ++ [o, ⟨identity, begins, []⟩], opened := none }
  | .control _ control => a.call (.control control)
  | .fragment _ context offset text => a.call (.fragment context offset text)
  | .sealObservation route =>
    match a.opened with
    | none => a
    | some o => { a with sealed := a.sealed ++ [(o, route)], opened := none }
  | .recordLoss => { a with declared := true }
  | .abandon | .disable => a.drop
  | .flush => a

end Account

/-- What a target is due of the observations sealed on its connection. -/
def due (targets : List OutageTarget) (connection : OutageConnectionIdentity) (i : ℕ)
    (observed : Deliveries) : Option (List RetainedFact) :=
  (observed.mapM (share targets connection i)).map List.flatten

theorem due_concat {targets : List OutageTarget} {connection : OutageConnectionIdentity} {i : ℕ}
    {observed : Deliveries}
    {last : Observed × ProviderObservationRoute} : due targets connection i (observed ++ [last]) =
      join (due targets connection i observed) (share targets connection i last) := by
  rw [due, due, List.mapM_append]
  rcases observed.mapM (share targets connection i) with _ | shares
  · rfl
  · rcases hlast : share targets connection i last with _ | more
    · simp [hlast, join]
    · simp [hlast, join]

variable {connection other : OutageConnectionIdentity} {b b' b'' : OutageBuffer}
  {observed : Deliveries} {route : ProviderObservationRoute}

namespace OutageBuffer

/-- The buffer has delivered to every target of a connection what it is due. -/
def Delivered (connection : OutageConnectionIdentity) (b : OutageBuffer)
    (observed : Deliveries) : Prop :=
  ∀ i target, b.identities[i]? = some target → target.connection = connection →
    Honest (b.held i) (due b.identities connection i observed)

/-- A change of the buffer on behalf of one connection.  No gap is ever taken back. -/
structure Within (connection : OutageConnectionIdentity) (b b' : OutageBuffer) : Prop where
  identities : b'.identities = b.identities
  grows : ∀ i target, b.identities[i]? = some target → target.connection ≠ connection →
    Grows (b.held i) (b'.held i) (some [])
  gaps : ∀ i, b.held i = none → b'.held i = none

theorem Within.refl : b.Within connection b :=
  ⟨rfl, fun _ _ _ _ => .refl, fun _ h => h⟩

theorem Within.trans (h : b.Within connection b') (h' : b'.Within connection b'') :
    b.Within connection b'' where
  identities := h'.identities.trans h.identities
  grows i target hi hc := (h.grows i target hi hc).trans_refl
    (h'.grows i target (h.identities.symm ▸ hi) hc)
  gaps i hi := h'.gaps i (h.gaps i hi)

theorem within_recordGap : b.Within connection (b.recordGap connection) :=
  ⟨identities_recordGap, fun _ _ _ _ => grows_recordGap, fun _ h => grows_recordGap.eq_none h⟩

/-- **What one connection does leaves what the others have delivered.** -/
theorem Delivered.of_within (h : b.Delivered other observed) (hne : other ≠ connection)
    (hwithin : b.Within connection b') : b'.Delivered other observed := by
  intro i target hi hc
  rw [hwithin.identities] at hi ⊢
  exact (h i target hi hc).kept (hwithin.grows i target hi (hc ▸ hne))

theorem Delivered.recordGap (h : b.Delivered connection observed) :
    (b.recordGap other).Delivered connection observed := by
  intro i target hi hc
  rw [identities_recordGap] at hi ⊢
  exact (h i target hi hc).kept grows_recordGap

/-- **Every target of the connection has a gap, or has what the account owes it** — and then nothing
was given up or declared lost. -/
def Answers (connection : OutageConnectionIdentity) (b : OutageBuffer) (a : Account) : Prop :=
  ∀ i target, b.identities[i]? = some target → target.connection = connection → ∀ l ∈ b.held i,
    a.dropped = [] ∧ a.declared = false ∧ due b.identities connection i a.sealed = some l

theorem Answers.of_within {a : Account} (h : b.Answers other a) (hne : other ≠ connection)
    (hwithin : b.Within connection b') : b'.Answers other a := by
  intro i target hi hc l hl
  rw [hwithin.identities] at hi ⊢
  obtain ⟨had, hhad, added, hadded, rfl⟩ := hwithin.grows i target hi (hc ▸ hne) l hl
  cases hadded
  rw [List.append_nil]
  exact h i target hi hc had hhad

end OutageBuffer

namespace OutageAssembly

variable {a : OutageAssembly} {o : Observed}

theorem within_sealInto (ha : a.connection = connection) (hb : b.identities.Nodup) :
    b.Within connection (a.sealInto b (some route)).2 :=
  ⟨identities_sealInto, fun _ _ hi hc => grows_sealInto_other hb hi (ha ▸ hc),
    fun _ h => held_sealInto_of_none hb h⟩

/-- **Sealing delivers what was observed.** -/
theorem Assembles.delivered (h : a.Assembles connection o) (hb : b.identities.Nodup)
    (hdeliv : b.Delivered connection observed) :
    (a.sealInto b (some route)).2.Delivered connection (observed ++ [(o, route)]) := by
  intro i target hi hc
  rw [identities_sealInto] at hi ⊢
  rw [due_concat]
  exact (hdeliv i target hi hc).grows (grows_sealInto h hb hi hc)

end OutageAssembly

/-! ## Faithful slots -/

namespace OutageObservationSlot

variable {assembly : OutageAssembly}

/-- The observation in hand is of the slot's connection. -/
def Own (s : OutageObservationSlot) : Prop :=
  match s.observation with
  | .empty => True
  | .opened assembly | .sealed assembly _ => assembly.connection = s.connection

theorem Own.opened {s : OutageObservationSlot} (h : s.Own)
    (hobs : s.observation = .opened assembly) : assembly.connection = s.connection := by
  rwa [Own, hobs] at h

theorem Own.sealed {s : OutageObservationSlot} (h : s.Own)
    (hobs : s.observation = .sealed assembly route) : assembly.connection = s.connection := by
  rwa [Own, hobs] at h

/-- The slot has what the account says, and `delivered` holds of what went before it. -/
def Agrees (delivered : Deliveries → Prop) (s : OutageObservationSlot) (a : Account) : Prop :=
  match s.observation with
  | .empty => a.opened = none ∧ delivered a.sealed
  | .opened assembly =>
    ∃ o, a.opened = some o ∧ assembly.Assembles s.connection o ∧ delivered a.sealed
  | .sealed assembly route =>
    a.opened = none ∧ ∃ o earlier, a.sealed = earlier ++ [(o, route)] ∧
      assembly.Assembles s.connection o ∧ delivered earlier

/-- **A slot without its flag is faithful to the account.** -/
structure Tracks (delivered : Deliveries → Prop)
    (s : OutageObservationSlot) (a : Account) : Prop where
  accepting : s.accepting = false → s.gap = true
  own : s.Own
  faithful : s.gap = false → a.dropped = [] ∧ a.declared = false ∧ s.Agrees delivered a

/-- The slot behind a call tracks the account, on the same connection. -/
structure Leads (delivered : Deliveries → Prop)
    (s : OutageObservationSlot) (a : Account) (s' : OutageObservationSlot) : Prop where
  connection : s'.connection = s.connection
  tracks : s'.Tracks delivered a

variable {delivered delivered' : Deliveries → Prop}
  {s : OutageObservationSlot} {a : Account} {layout : Layout}

theorem Tracks.mono (h : s.Tracks delivered a) (himp : ∀ l, delivered l → delivered' l) :
    s.Tracks delivered' a where
  accepting := h.accepting
  own := h.own
  faithful hgap := by
    obtain ⟨hdropped, hdecl, hagrees⟩ := h.faithful hgap
    refine ⟨hdropped, hdecl, ?_⟩
    rw [Agrees] at hagrees ⊢
    split at hagrees
    · exact ⟨hagrees.1, himp _ hagrees.2⟩
    · obtain ⟨o, ho, hasm, hdeliv⟩ := hagrees
      exact ⟨o, ho, hasm, himp _ hdeliv⟩
    · obtain ⟨hopen, o, earlier, hsealed, hasm, hdeliv⟩ := hagrees
      exact ⟨hopen, o, earlier, hsealed, hasm, himp _ hdeliv⟩

/-- A slot with its flag tracks every account. -/
theorem tracks_of_gap (h : s.gap = true) (hown : s.Own) : s.Tracks delivered a :=
  ⟨fun _ => h, hown, fun hgap => nomatch hgap.symm.trans h⟩

section

variable (h : s.Tracks delivered a) {granted : Bool}
include h

theorem Tracks.openObservation {identity : ProviderObservationId}
    {begins : ProviderObservationBegin} :
    s.Leads delivered (a.perform (.begin identity begins))
        (s.openObservation identity begins).2 := by
  rw [OutageObservationSlot.openObservation]
  rcases hobs : s.observation with _ | assembly | ⟨assembly, route⟩
  · refine ⟨rfl, h.accepting, rfl, fun hgap => ?_⟩
    obtain ⟨hdropped, hdecl, hagrees⟩ := h.faithful hgap
    rw [Agrees, hobs] at hagrees
    rw [Account.perform, hagrees.1]
    exact ⟨hdropped, hdecl, _, rfl, ⟨rfl, rfl, rfl, fun _ => rfl⟩, hagrees.2⟩
  · exact ⟨rfl, tracks_of_gap rfl trivial⟩
  · exact ⟨rfl, tracks_of_gap rfl rfl⟩

/-- A call to the open observation keeps the slot faithful: the assembly takes it in or has a loss,
and a loss by a call out of order sets the flag. -/
theorem Tracks.settle {outcome : OutageAssembly.Outcome} {call : Call}
    (hobs : s.observation = .opened assembly) (hcall : assembly.Follows call outcome.2) :
    s.Leads delivered (a.call call) (s.settle outcome).2 := by
  rw [OutageObservationSlot.settle]
  dsimp only
  split_ifs with hmalformed
  · exact ⟨rfl, tracks_of_gap rfl trivial⟩
  · refine ⟨rfl, h.accepting, hcall.connection.trans (h.own.opened hobs), fun hgap => ?_⟩
    obtain ⟨hdropped, hdecl, hagrees⟩ := h.faithful hgap
    rw [Agrees, hobs] at hagrees
    obtain ⟨o, ho, hasm, hdeliv⟩ := hagrees
    refine ⟨hdropped, hdecl, _, ?_, hasm.call hcall, hdeliv⟩
    rw [Account.call, ho, Option.map_some]

theorem Tracks.control {control : ProviderObservationControl} :
    s.Leads delivered (a.perform (.control granted control))
        (s.control layout granted control).2 := by
  rw [OutageObservationSlot.control]
  split
  · rename_i assembly hobs
    exact h.settle hobs (OutageAssembly.follows_control control)
  · exact ⟨rfl, tracks_of_gap rfl trivial⟩

theorem Tracks.fragment {context : ProviderValueContext} {offset : ℕ}
    {text : List Char} : s.Leads delivered (a.perform (.fragment granted context offset text))
      (s.fragment granted context offset text).2 := by
  rw [OutageObservationSlot.fragment]
  split
  · rename_i assembly hobs
    exact h.settle hobs (OutageAssembly.follows_fragment context offset text)
  · exact ⟨rfl, tracks_of_gap rfl trivial⟩

theorem Tracks.exists_sealed (hobs : s.observation = .opened assembly) (hgap : s.gap = false)
    (route : ProviderObservationRoute) :
    ∃ o, assembly.Assembles s.connection o ∧ delivered a.sealed ∧ a.dropped = []
      ∧ a.declared = false
      ∧ a.perform (.sealObservation route)
        = { a with sealed := a.sealed ++ [(o, route)], opened := none } := by
  obtain ⟨hdropped, hdecl, hagrees⟩ := h.faithful hgap
  rw [Agrees, hobs] at hagrees
  obtain ⟨o, ho, hasm, hdeliv⟩ := hagrees
  refine ⟨o, hasm, hdeliv, hdropped, hdecl, ?_⟩
  rw [Account.perform, ho]

/-- Out of reach of the buffer, a seal leaves the observation in the slot, or sets the flag. -/
theorem Tracks.sealObservation_none : s.Leads delivered (a.perform (.sealObservation route))
    (s.sealObservation layout route none).2.1 := by
  rw [sealObservation.eq_def]
  rcases hobs : s.observation with _ | assembly | ⟨assembly, old⟩
  · exact ⟨rfl, tracks_of_gap rfl trivial⟩
  · dsimp only
    split
    · refine ⟨rfl, h.accepting, h.own.opened hobs, fun hgap => ?_⟩
      obtain ⟨o, hasm, hdeliv, hdropped, hdecl, haccount⟩ := h.exists_sealed hobs hgap route
      rw [haccount]
      exact ⟨hdropped, hdecl, rfl, o, _, rfl, hasm, hdeliv⟩
    · exact ⟨rfl, tracks_of_gap rfl trivial⟩
  · exact ⟨rfl, tracks_of_gap rfl trivial⟩

/-- **A call out of reach of the buffer keeps a slot faithful, or sets its flag.** -/
theorem Tracks.perform_none (call : SlotCall) :
    s.Leads delivered (a.perform call) (s.perform layout none call).1 := by
  cases call with
  | begin identity begins =>
    rw [perform, begin]
    split_ifs with haccepting
    · exact h.openObservation
    · exact ⟨rfl, tracks_of_gap (h.accepting (Bool.eq_false_iff.mpr haccepting)) h.own⟩
  | control => exact h.control
  | fragment => exact h.fragment
  | sealObservation => exact h.sealObservation_none
  | recordLoss => exact ⟨rfl, tracks_of_gap rfl h.own⟩
  | abandon | disable => exact ⟨rfl, tracks_of_gap rfl trivial⟩
  | flush => exact ⟨rfl, h⟩

end

/-! ## In reach of the buffer -/

/-- A slot and a buffer behind a call: the slot is still faithful, and the buffer changed for its
connection only. -/
structure Kept (s : OutageObservationSlot) (b : OutageBuffer) (a : Account)
    (s' : OutageObservationSlot) (b' : OutageBuffer) : Prop extends
    s.Leads (b'.Delivered s.connection) a s' where
  within : b.Within s.connection b'

theorem within_recordGap : b.Within s.connection (s.recordGap b) := by
  rw [recordGap]
  split_ifs
  · exact OutageBuffer.within_recordGap
  · exact .refl

theorem recordGap_of_not_gap (h : s.gap = false) : s.recordGap b = b := by
  simp [recordGap, h]

/-- An assembly of the slot sealed into the buffer, and the flag behind it. -/
theorem within_sealInto (hb : b.identities.Nodup) (hown : assembly.connection = s.connection) :
    b.Within s.connection (s.recordGap (assembly.sealInto b (some route)).2) :=
  (OutageAssembly.within_sealInto hown hb).trans within_recordGap

section

variable (hb : b.identities.Nodup) (h : s.Tracks (b.Delivered s.connection) a)
include hb h

/-- **A flush delivers the sealed observation.** -/
theorem Tracks.flush : s.Kept b a (s.flush b).1 (s.flush b).2 := by
  rw [OutageObservationSlot.flush]
  split
  · rename_i assembly route hobs
    refine ⟨⟨rfl, h.accepting, trivial, fun (hgap : s.gap = false) => ?_⟩,
      within_sealInto hb (h.own.sealed hobs)⟩
    obtain ⟨hdropped, hdecl, hagrees⟩ := h.faithful hgap
    rw [Agrees, hobs] at hagrees
    obtain ⟨hopen, o, earlier, hsealed, hasm, hdeliv⟩ := hagrees
    rw [recordGap_of_not_gap hgap]
    refine ⟨hdropped, hdecl, hopen, ?_⟩
    rw [hsealed]
    exact hasm.delivered hb hdeliv
  · refine ⟨⟨rfl, h.accepting, h.own, fun hgap => ?_⟩, within_recordGap⟩
    rw [recordGap_of_not_gap hgap]
    exact h.faithful hgap

/-- **Sealed in reach of the buffer, an observation is delivered.**  One that does not pass the
checks is sealed with a loss. -/
theorem Tracks.sealed {sealing : OutageAssembly} (hobs : s.observation = .opened assembly)
    (hsealing : sealing = assembly ∨ sealing = assembly.discard) :
    s.Kept b (a.perform (.sealObservation route)) { s with observation := .empty }
      (s.recordGap (sealing.sealInto b (some route)).2) := by
  have hown : sealing.connection = s.connection := by
    have := h.own.opened hobs
    rcases hsealing with rfl | rfl <;> exact this
  refine ⟨⟨rfl, h.accepting, trivial, fun (hgap : s.gap = false) => ?_⟩, within_sealInto hb hown⟩
  obtain ⟨o, hasm, hdeliv, hdropped, hdecl, haccount⟩ := h.exists_sealed hobs hgap route
  have hasm : sealing.Assembles s.connection o := by
    rcases hsealing with rfl | rfl
    · exact hasm
    · exact hasm.discard
  rw [haccount, recordGap_of_not_gap hgap]
  exact ⟨hdropped, hdecl, rfl, hasm.delivered hb hdeliv⟩

theorem Tracks.sealObservation_some :
    ∃ b', (s.sealObservation layout route (some b)).2.2 = some b' ∧
      s.Kept b (a.perform (.sealObservation route))
        (s.sealObservation layout route (some b)).2.1 b' := by
  -- A slot without an open observation sets its flag, which reaches the buffer at once.
  have hempty : s.Kept b (a.perform (.sealObservation route))
      { s with observation := .empty, gap := true } (b.recordGap s.connection) :=
    ⟨⟨rfl, tracks_of_gap rfl trivial⟩, OutageBuffer.within_recordGap⟩
  rw [sealObservation.eq_def]
  rcases hobs : s.observation with _ | assembly | ⟨assembly, old⟩
  · exact ⟨_, rfl, hempty⟩
  · dsimp only
    split
    · exact ⟨_, rfl, h.sealed hb hobs (.inl rfl)⟩
    · exact ⟨_, rfl, h.sealed hb hobs (.inr rfl)⟩
  · exact ⟨_, rfl, hempty⟩

end

variable (hb : b.identities.Nodup) (h : s.Tracks (b.Delivered s.connection) a)
include hb h

/-- **A call in reach of the buffer keeps a slot faithful, or sets its flag.** -/
theorem Tracks.perform_some (call : SlotCall) : ∃ b', (s.perform layout (some b) call).2 = some b' ∧
      s.Kept b (a.perform call) (s.perform layout (some b) call).1 b' := by
  cases call with
  | begin identity begins =>
    rw [perform, begin]
    split_ifs with haccepting
    · have hflush := h.flush hb
      have hopen := @Tracks.openObservation _ _ _ hflush.tracks identity begins
      exact ⟨_, rfl, ⟨hopen.connection.trans hflush.connection, hopen.tracks⟩, hflush.within⟩
    · exact ⟨b, rfl, ⟨rfl, tracks_of_gap (h.accepting (Bool.eq_false_iff.mpr haccepting)) h.own⟩,
        .refl⟩
  | control => exact ⟨b, rfl, h.control, .refl⟩
  | fragment => exact ⟨b, rfl, h.fragment, .refl⟩
  | sealObservation => exact h.sealObservation_some hb
  | recordLoss => exact ⟨b, rfl, ⟨rfl, tracks_of_gap rfl h.own⟩, .refl⟩
  | abandon | disable => exact ⟨b, rfl, ⟨rfl, tracks_of_gap rfl trivial⟩, .refl⟩
  | flush => exact ⟨_, rfl, h.flush hb⟩

end OutageObservationSlot

end Beryl.Outage
