import Beryl.Outage.Buffer

/-!
# Outage/Assembly — one observation put together, and its facts offered

An *assembly* collects the controls and the texts of one observation under limits.  It keeps the
first thing that went wrong as its *loss* and drops what it had.  Sealed with a route it offers its
facts to the one target that the route names.

What an observation tells is said without the assembly: `Reading` follows the calls made for it, and
`Observed.facts` are the facts that they spell.  **Sealing lets the target of the route grow by
exactly the facts of what was observed, or leaves a gap** (`grows_sealInto`).
-/

namespace Beryl.Outage

open Fallible Utf8 Provider Accounts OutageBuffer

/-- What an assembly may hold. -/
structure OutageAssemblyLimits where
  maxBytes : ℕ
  maxFieldBytes : ℕ
  maxEntries : ℕ

/-- The sizes in memory of the records that are counted. -/
structure Layout where
  entry : ℕ
  route : ℕ
  connection : ℕ

/-- What goes wrong. -/
inductive OutageAssemblyError
  | overflow | malformed | missingRoute | unqualifiedRoute | retentionLoss
  deriving DecidableEq

/-- A control, or a field with its text. -/
inductive Entry
  | control (control : ProviderObservationControl)
  | field (context : ProviderValueContext) (text : List Char)
  deriving DecidableEq

/-- The turn an observation is for. -/
structure ProviderObservationRoute where
  threadId : CasThreadId
  turnId : CasTurnId
  deriving DecidableEq

/-! ## The facts of an observation -/

/-- The one item that the fields name. -/
def itemId : (item : Option CasItemId) → List Entry → Except OutageAssemblyError CasItemId
  | item, [] => required .malformed item
  | item, .field (.field .itemId) text :: rest =>
    if item.isSome ∨ 256 < (utf8 text).length then .error .malformed
    else match ExternalId.new text with
      | .ok id => itemId (some id) rest
      | .error _ => .error .malformed
  | item, _ :: rest => itemId item rest

/-- The field of a context. -/
def root : ProviderValueContext → ProviderField
  | .field field => field
  | .structured root _ _ => root

/-- What a text is. -/
def textKind (context : ProviderValueContext) (begins : ProviderObservationBegin)
    (finalAnswer : Bool) : OutageTextKind :=
  let kind := match begins with
    | .item _ kind => kind
    | .delta kind => kind.expectedItemKind
  match root context with
  | .itemId | .lifecycleObservedAt => .identityCorrelation
  | .clientId => .userCorrelation
  | .imageGenerationSavedPath => .mediaHandoff
  | .agentMessageText => if finalAnswer then .assistantFinal else .transcriptNarrative
  | .planText | .reasoningSummaries | .reasoningSummary => .transcriptNarrative
  | .deltaText =>
    if kind = .agentMessage ∨ kind = .plan ∨ kind = .reasoning then .transcriptNarrative
    else .operational
  | _ => .operational

/-- How much a control matters. -/
def controlPriority (control : ProviderObservationControl) (begins : ProviderObservationBegin)
    (finalAnswer : Bool) : OutagePriority :=
  let context := match control with
    | .beginField context | .endField context | .beginContainer context _
    | .endContainer context _ | .beginElement context _ | .endElement context _
    | .enum context _ | .scalar context _ => context
    | .beginObjectEntry root _ _ | .endObjectEntry root _ _ => .field root
  match root context with
  | .itemId | .lifecycleObservedAt | .deltaSummaryIndex | .deltaContentIndex | .messagePhase =>
    .identityCorrelation
  | .clientId => .userCorrelation
  | .imageGenerationSavedPath => .mediaHandoff
  | _ => (textKind context begins finalAnswer).priority

/-- The entry that says that a message is the final answer. -/
def Entry.isFinalAnswer (entry : Entry) : Bool :=
  entry = .control (.enum (.field .messagePhase) .finalAnswer)

/-- The facts of an observation: its identity, its lifecycle, and one for each entry. -/
def observationFacts (observation : ProviderObservationId) (begins : ProviderObservationBegin)
    (entries : List Entry) (item : CasItemId) : List OutageFact :=
  let finalAnswer := entries.any Entry.isFinalAnswer
  .identity observation item :: .lifecycle observation begins ::
    entries.mapIdx fun ordinal entry => match entry with
      | .field context text =>
        .completeField observation ordinal context (textKind context begins finalAnswer) text
      | .control control =>
        .control observation ordinal (controlPriority control begins finalAnswer) control

/-! ## The assembly -/

/-- An observation put together. -/
structure OutageAssembly where
  connection : OutageConnectionIdentity
  observation : ProviderObservationId
  begins : ProviderObservationBegin
  limits : OutageAssemblyLimits
  entries : List Entry
  openField : Option (ProviderValueContext × List Char)
  retainedBytes : ℕ
  loss : Option OutageAssemblyError

/-- A sum that overflows or passes a limit. -/
def exceeds (a b limit : ℕ) : Bool := u64Size ≤ a + b ∨ limit < a + b

/-- Offer facts one after the other; whether one was refused. -/
def OutageBuffer.offerAll (b : OutageBuffer) (target : OutageTarget) :
    List OutageFact → Bool × OutageBuffer
  | [] => (false, b)
  | fact :: rest =>
    let (result, b) := b.offer target fact
    let (lost, b) := b.offerAll target rest
    (!result.isOk || lost, b)

namespace OutageAssembly

/-- Nothing yet. -/
def new (connection : OutageConnectionIdentity) (observation : ProviderObservationId)
    (begins : ProviderObservationBegin) (limits : OutageAssemblyLimits) : OutageAssembly where
  connection := connection
  observation := observation
  begins := begins
  limits := limits
  entries := []
  openField := none
  retainedBytes := 0
  loss := none

/-- The result of a call, and the assembly behind it. -/
abbrev Outcome := Except OutageAssemblyError Unit × OutageAssembly

/-- The entries, an open one too. -/
def retainedEntries (a : OutageAssembly) : ℕ := a.entries.length + a.openField.isSome.toNat

/-- Drop everything; the first error is kept. -/
def fail (a : OutageAssembly) (error : OutageAssemblyError) : Outcome :=
  let loss := a.loss.getD error
  (.error loss, { a with entries := [], openField := none, retainedBytes := 0, loss := some loss })

section

-- The sizes of the records, and whether the allocator granted the call its memory.
variable (layout : Layout) (granted : Bool)

/-- Room for one entry. -/
def reserveEntry (a : OutageAssembly) : Outcome :=
  if a.limits.maxEntries ≤ a.retainedEntries ∨
      exceeds a.retainedBytes layout.entry a.limits.maxBytes ∨ granted = false then
    a.fail .overflow
  else (.ok (), { a with retainedBytes := a.retainedBytes + layout.entry })

/-- Takes a control in. -/
def control (a : OutageAssembly) (control : ProviderObservationControl) : Outcome :=
  match a.loss with
  | some loss => (.error loss, a)
  | none =>
    match control with
    | .beginField context =>
      if a.openField.isSome then a.fail .malformed
      else match a.reserveEntry layout granted with
        | (.ok (), a) => (.ok (), { a with openField := some (context, []) })
        | failed => failed
    | .endField context =>
      match a.openField with
      | none => a.fail .malformed
      | some (expected, value) =>
        if expected = context then
          (.ok (), { a with entries := a.entries ++ [.field context value], openField := none })
        else { a with openField := none }.fail .malformed
    | control =>
      if a.openField.isSome then a.fail .malformed
      else match a.reserveEntry layout granted with
        | (.ok (), a) => (.ok (), { a with entries := a.entries ++ [.control control] })
        | failed => failed

/-- Takes a part of a text in. -/
def fragment (a : OutageAssembly) (context : ProviderValueContext) (offset : ℕ)
    (text : List Char) : Outcome :=
  match a.loss with
  | some loss => (.error loss, a)
  | none =>
    match a.openField with
    | none => a.fail .malformed
    | some (expected, value) =>
      if expected ≠ context ∨ offset ≠ (utf8 value).length then a.fail .malformed
      else if exceeds (utf8 value).length (utf8 text).length a.limits.maxFieldBytes ∨
          exceeds a.retainedBytes (utf8 text).length a.limits.maxBytes ∨ granted = false then
        a.fail .overflow
      else (.ok (), { a with openField := some (expected, value ++ text)
                             retainedBytes := a.retainedBytes + (utf8 text).length })

/-- Gives it up. -/
def discard (a : OutageAssembly) : OutageAssembly := (a.fail .retentionLoss).2

/-- Whether it can be sealed. -/
def validateSeal (a : OutageAssembly) (route : ProviderObservationRoute) :
    Except OutageAssemblyError Unit := do
  match a.loss with
  | some loss => .error loss
  | none =>
    ensure a.openField.isNone .malformed
    ensure (¬ (a.limits.maxFieldBytes < route.threadId.bytes.length ∨
      a.limits.maxFieldBytes < route.turnId.bytes.length ∨
      a.limits.maxEntries ≤ a.retainedEntries ∨
      exceeds a.retainedBytes
        (route.threadId.bytes.length + route.turnId.bytes.length + layout.route)
        a.limits.maxBytes)) .overflow
    let _ ← itemId none a.entries

end

/-- Offer the facts to the one target that the route names.  An observation that cannot be told
leaves a gap on that target; one without such a target leaves it on the whole connection. -/
def sealInto (a : OutageAssembly) (b : OutageBuffer) :
    Option ProviderObservationRoute → Except OutageAssemblyError Unit × OutageBuffer
  | none => (.error .missingRoute, b.recordGap a.connection)
  | some route =>
    match routed b.identities a.connection route.threadId route.turnId with
    | [index] =>
      match a.loss, a.openField, itemId none a.entries, b.identities[index]? with
      | some loss, _, _, _ => (.error loss, b.mark index)
      | none, some _, _, _ => (.error .malformed, b.mark index)
      | none, none, .error error, _ => (.error error, b.mark index)
      | none, none, .ok _, none => (.error .unqualifiedRoute, b.mark index)
      | none, none, .ok item, some target =>
        let (lost, b) := b.offerAll target (observationFacts a.observation a.begins a.entries item)
        (if lost ∨ b.targets[index]?.any (·.gap) then .error .retentionLoss else .ok (), b)
    | _ => (.error .unqualifiedRoute, b.recordGap a.connection)

end OutageAssembly

/-! ## What is observed -/

/-- A call made for an open observation. -/
inductive Call
  | control (control : ProviderObservationControl)
  | fragment (context : ProviderValueContext) (offset : ℕ) (text : List Char)
  deriving DecidableEq

/-- What the calls of an observation have said so far. -/
structure Reading where
  entries : List Entry := []
  openField : Option (ProviderValueContext × List Char) := none

namespace Reading

/-- What one more call says.  A text comes between the begin and the end of its field, in pieces
that follow on one another; every other control stands alone. -/
def call (r : Reading) : Call → Option Reading
  | .control (.beginField context) =>
    if r.openField.isNone then some { r with openField := some (context, []) } else none
  | .control (.endField context) =>
    match r.openField with
    | some (expected, text) =>
      if expected = context then some ⟨r.entries ++ [.field context text], none⟩ else none
    | none => none
  | .control control =>
    if r.openField.isNone then some { r with entries := r.entries ++ [.control control] } else none
  | .fragment context offset text =>
    match r.openField with
    | some (expected, value) =>
      if expected = context ∧ offset = (utf8 value).length then
        some { r with openField := some (expected, value ++ text) }
      else none
    | none => none

/-- Several calls. -/
def calls (r : Reading) (calls : List Call) : Option Reading := calls.foldlM call r

end Reading

/-- An observation as it was begun, with the calls made for it. -/
structure Observed where
  observation : ProviderObservationId
  begins : ProviderObservationBegin
  calls : List Call := []
  deriving DecidableEq

/-- Observations, each with the route that sealed it. -/
abbrev Deliveries := List (Observed × ProviderObservationRoute)

/-- The facts that an observation tells, if its calls are complete and name one item. -/
def Observed.facts (o : Observed) : Option (List OutageFact) :=
  match Reading.calls {} o.calls with
  | some ⟨entries, none⟩ =>
    match itemId none entries with
    | .ok item => some (observationFacts o.observation o.begins entries item)
    | .error _ => none
  | _ => none

/-- The share of target `i` in an observation sealed with a route: its facts if the route names that
target, nothing if it names another, and no answer if it names no single target. -/
def share (targets : List OutageTarget) (connection : OutageConnectionIdentity) (i : ℕ)
    (observed : Observed × ProviderObservationRoute) : Option (List RetainedFact) :=
  match routed targets connection observed.2.threadId observed.2.turnId with
  | [j] =>
    if i = j then observed.1.facts.map fun facts => facts.map (OutageBuffer.retain i) else some []
  | _ => none

namespace OutageAssembly

variable {a : OutageAssembly} {o : Observed}
  {layout : Layout} {granted : Bool} {connection : OutageConnectionIdentity}

/-- What an assembly has taken in. -/
def reading (a : OutageAssembly) : Reading := ⟨a.entries, a.openField⟩

/-- An assembly of an observation: as long as it has no loss, it has what the calls said. -/
structure Assembles (connection : OutageConnectionIdentity) (a : OutageAssembly) (o : Observed) :
    Prop where
  connection : a.connection = connection
  observation : a.observation = o.observation
  begins : a.begins = o.begins
  reads : a.loss = none → Reading.calls {} o.calls = some a.reading

/-- An assembly behind a call: it took in what the call says, or has a loss. -/
structure Follows (a : OutageAssembly) (call : Call) (a' : OutageAssembly) : Prop where
  connection : a'.connection = a.connection
  observation : a'.observation = a.observation
  begins : a'.begins = a.begins
  reads : a'.loss = none → a.loss = none ∧ a.reading.call call = some a'.reading

theorem follows_fail {call : Call} (error : OutageAssemblyError) :
    a.Follows call (a.fail error).2 :=
  ⟨rfl, rfl, rfl, nofun⟩

/-- **A control that is taken in is taken in as it stands.** -/
theorem follows_control (control : ProviderObservationControl) :
    a.Follows (.control control) (a.control layout granted control).2 := by
  rcases hloss : a.loss with _ | loss
  · cases control with
    | endField context =>
      simp only [OutageAssembly.control, hloss]
      rcases hopen : a.openField with _ | ⟨expected, value⟩
      · exact follows_fail _
      · dsimp only
        split_ifs with hsame
        · refine ⟨rfl, rfl, rfl, fun _ => ⟨hloss, ?_⟩⟩
          simp_all [Reading.call, reading]
        · exact ⟨rfl, rfl, rfl, nofun⟩
    | _ =>
      simp only [OutageAssembly.control, hloss, reserveEntry]
      split_ifs with hopen hroom
      · exact follows_fail _
      · exact follows_fail _
      · refine ⟨rfl, rfl, rfl, fun _ => ⟨hloss, ?_⟩⟩
        simp_all [Reading.call, reading]
  · simp only [OutageAssembly.control, hloss]
    exact ⟨rfl, rfl, rfl, fun h => nomatch hloss.symm.trans h⟩

/-- **A piece of text that is taken in is taken in as it stands.** -/
theorem follows_fragment (context : ProviderValueContext) (offset : ℕ) (text : List Char) :
    a.Follows (.fragment context offset text) (a.fragment granted context offset text).2 := by
  rcases hloss : a.loss with _ | loss
  · simp only [fragment, hloss]
    rcases hopen : a.openField with _ | ⟨expected, value⟩
    · exact follows_fail _
    · dsimp only
      split_ifs with hwrong hroom
      · exact follows_fail _
      · exact follows_fail _
      · refine ⟨rfl, rfl, rfl, fun _ => ⟨hloss, ?_⟩⟩
        simp_all [Reading.call, reading]
  · simp only [fragment, hloss]
    exact ⟨rfl, rfl, rfl, fun h => nomatch hloss.symm.trans h⟩

theorem Assembles.call {a' : OutageAssembly} {call : Call}
    (h : a.Assembles connection o) (hcall : a.Follows call a') :
    a'.Assembles connection { o with calls := o.calls ++ [call] } where
  connection := hcall.connection.trans h.connection
  observation := hcall.observation.trans h.observation
  begins := hcall.begins.trans h.begins
  reads hnone := by
    obtain ⟨hloss, hread⟩ := hcall.reads hnone
    have hsofar := h.reads hloss
    rw [Reading.calls] at hsofar ⊢
    rw [List.foldlM_append, hsofar]
    simpa using hread

theorem Assembles.discard (h : a.Assembles connection o) : a.discard.Assembles connection o :=
  ⟨h.connection, h.observation, h.begins, nofun⟩

/-! ## Sealing -/

end OutageAssembly

namespace OutageBuffer

variable {b : OutageBuffer} {i j : ℕ} {target : OutageTarget}

@[simp] theorem identities_offerAll (facts : List OutageFact) :
    (b.offerAll target facts).2.identities = b.identities := by
  induction facts generalizing b with
  | nil => rfl
  | cons fact rest ih => exact ih.trans identities_offer

theorem grows_offerAll (facts : List OutageFact) (hb : b.identities.Nodup)
    (hi : b.identities[i]? = some target) : Grows (b.held j) ((b.offerAll target facts).2.held j)
      (some (if j = i then facts.map (retain i) else [])) := by
  induction facts generalizing b with
  | nil =>
    rw [List.map_nil, ite_self]
    exact .refl
  | cons fact rest ih =>
    have hids := @identities_offer b target fact
    have hfirst : Grows (b.held j) ((b.offer target fact).2.held j) (some (sole i j fact)) :=
      grows_offer hb hi
    have hboth := hfirst.trans (ih (hids.symm ▸ hb) (hids.symm ▸ hi))
    rw [join_some, sole] at hboth
    split_ifs at hboth ⊢ <;> exact hboth

end OutageBuffer

namespace OutageAssembly

variable {a : OutageAssembly} {o : Observed} {b : OutageBuffer} {i : ℕ} {target : OutageTarget}
  {connection : OutageConnectionIdentity} {route : ProviderObservationRoute}

/-- The facts that an assembly without a loss offers. -/
structure Offers (a : OutageAssembly) (facts : List OutageFact) : Prop where
  loss : a.loss = none
  openField : a.openField = none
  facts : ∃ item, itemId none a.entries = .ok item ∧
    facts = observationFacts a.observation a.begins a.entries item

/-- **What sealing does to the buffer**: a gap on the connection without a target for the route;
else a gap on that target, or its facts offered. -/
theorem sealInto_cases (a : OutageAssembly) (b : OutageBuffer) (route : ProviderObservationRoute) :
    ((∀ j, routed b.identities a.connection route.threadId route.turnId ≠ [j]) ∧
      (a.sealInto b (some route)).2 = b.recordGap a.connection) ∨
    ∃ j, routed b.identities a.connection route.threadId route.turnId = [j] ∧
      ((a.sealInto b (some route)).2 = b.mark j ∨
        ∃ target facts, b.identities[j]? = some target ∧ a.Offers facts ∧
          (a.sealInto b (some route)).2 = (b.offerAll target facts).2) := by
  rw [sealInto]
  split
  · rename_i j hroute
    refine .inr ⟨j, hroute, ?_⟩
    split
    · exact .inl rfl
    · exact .inl rfl
    · exact .inl rfl
    · exact .inl rfl
    · rename_i item target hloss hopen hitem htgt
      exact .inr ⟨target, _, htgt, ⟨hloss, hopen, item, hitem, rfl⟩, rfl⟩
  · rename_i hroute
    exact .inl ⟨hroute, rfl⟩

@[simp] theorem identities_sealInto : (a.sealInto b (some route)).2.identities = b.identities := by
  obtain ⟨-, h⟩ | ⟨j, -, h | ⟨target, facts, -, -, h⟩⟩ := sealInto_cases a b route
  · rw [h, identities_recordGap]
  · rw [h, identities_mark]
  · rw [h, identities_offerAll]

/-- The facts that an assembly offers are those of what it assembles. -/
theorem Assembles.facts_eq {facts : List OutageFact} (h : a.Assembles connection o)
    (hoffers : a.Offers facts) : o.facts = some facts := by
  obtain ⟨item, hitem, rfl⟩ := hoffers.facts
  have hread : Reading.calls {} o.calls = some ⟨a.entries, none⟩ := by
    rw [h.reads hoffers.loss, reading, hoffers.openField]
  simp only [Observed.facts, hread, hitem, h.observation, h.begins]

/-- **Sealing lets each target of the connection grow by its share of what was observed, or leaves a
gap there.** -/
theorem grows_sealInto (h : a.Assembles connection o) (hb : b.identities.Nodup)
    (hi : b.identities[i]? = some target) (hc : target.connection = connection) :
    Grows (b.held i) ((a.sealInto b (some route)).2.held i)
      (share b.identities connection i (o, route)) := by
  obtain rfl := h.connection
  obtain ⟨-, hbuf⟩ | ⟨j, hroute, hbuf⟩ := sealInto_cases a b route
  · rw [hbuf]
    exact .of_eq_none (held_recordGap_self hi hc)
  · simp only [share, hroute]
    obtain hbuf | ⟨named, facts, hnamed, hoffers, hbuf⟩ := hbuf
    · rw [hbuf]
      by_cases hij : i = j
      · subst hij
        exact .of_eq_none held_mark_self
      · rw [if_neg hij]
        exact grows_mark
    · rw [hbuf, h.facts_eq hoffers]
      have hgrows : Grows (b.held i) _ _ := grows_offerAll facts hb hnamed
      split_ifs at hgrows ⊢ with hij
      · subst hij
        exact hgrows
      · exact hgrows

theorem held_sealInto_of_none (hb : b.identities.Nodup) (hi : b.held i = none) :
    (a.sealInto b (some route)).2.held i = none := by
  obtain ⟨-, h⟩ | ⟨j, -, h | ⟨target, facts, htgt, -, h⟩⟩ := sealInto_cases a b route
  · rw [h]
    exact grows_recordGap.eq_none hi
  · rw [h]
    exact grows_mark.eq_none hi
  · rw [h]
    exact (grows_offerAll facts hb htgt).eq_none hi

/-- **Sealing leaves the targets of other connections alone, or marks them.** -/
theorem grows_sealInto_other (hb : b.identities.Nodup)
    (hi : b.identities[i]? = some target) (hc : target.connection ≠ a.connection) :
    Grows (b.held i) ((a.sealInto b (some route)).2.held i) (some []) := by
  obtain ⟨-, hbuf⟩ | ⟨j, hroute, hbuf | ⟨named, facts, hnamed, -, hbuf⟩⟩ := sealInto_cases a b route
  · rw [hbuf]
    exact grows_recordGap
  · rw [hbuf]
    exact grows_mark
  · rw [hbuf]
    have hij : i ≠ j := by
      rintro rfl
      obtain ⟨t, ht, hconn, -⟩ := mem_routed.mp (hroute ▸ List.mem_singleton_self i)
      exact hc (Option.some.inj (hi.symm.trans ht) ▸ hconn)
    have hgrows : Grows (b.held i) _ _ := grows_offerAll facts hb hnamed
    rwa [if_neg hij] at hgrows

end OutageAssembly

end Beryl.Outage
