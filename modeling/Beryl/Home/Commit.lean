import Beryl.Home.Writer

/-!
# Home/Commit — what a command intends

A command that passes the fence expects what is stored (`fenceCommand_eq_ok`).  What its callbacks
contribute is read off their calls, and of several calls for one place the first counts
(`mem_writes_assemble`).  The batch of the command holds just these records, the record of each
mutated domain at its next revision and the next home revision, each place once (`intends`).
-/

namespace Beryl.Home

open Fallible Wire List PreparedMutation

/-! ## What is stored -/

/-- The home revision that is stored. -/
def storedHomeRevision (db : Database) : Option HomeRevision :=
  (db homeLocation).bind fun value => (decodeHomeRevision value).toOption

/-- The record of a domain that is stored. -/
def storedMetadata (db : Database) (domain : String) : Option DomainMetadata :=
  (db (domainLocation domain)).bind fun value => (DomainMetadata.decode value).toOption

/-- The domain revision that is stored. -/
def storedDomainRevision (db : Database) (domain : String) : Option DomainRevision :=
  (storedMetadata db domain).map (·.revision)

variable {generation : StoreGeneration} {environment : Environment} {snapshot : Database}
  {fenced : List FencedParticipant}

theorem point_eq_ok {stage : ReadStage} {location : Location} {value : Option Bytes}
    (h : environment.point stage snapshot location = .ok value) : value = snapshot location := by
  obtain ⟨_, -, hpure⟩ := bind_eq_ok.mp h
  exact (Except.ok.inj hpure).symm

theorem storedHomeRevision_of_read {revision : HomeRevision}
    (h : environment.readHomeRevision snapshot = .ok revision) :
    storedHomeRevision snapshot = some revision := by
  obtain ⟨point, hpoint, h₁⟩ := bind_eq_ok.mp h
  obtain ⟨value, hvalue, h₂⟩ := bind_eq_ok.mp h₁
  obtain ⟨_, -, h₃⟩ := bind_eq_ok.mp h₂
  rw [storedHomeRevision, ← point_eq_ok hpoint, required_eq_ok.mp hvalue, Option.bind_some,
    mapError_eq_ok.mp h₃]
  rfl

theorem storedMetadata_of_read {domain : String} {metadata : DomainMetadata}
    (h : environment.readDomainMetadata snapshot domain = .ok metadata) :
    storedMetadata snapshot domain = some metadata := by
  obtain ⟨point, hpoint, h₁⟩ := bind_eq_ok.mp h
  obtain ⟨value, hvalue, h₂⟩ := bind_eq_ok.mp h₁
  obtain ⟨_, -, h₃⟩ := bind_eq_ok.mp h₂
  rw [storedMetadata, ← point_eq_ok hpoint, required_eq_ok.mp hvalue, Option.bind_some,
    mapError_eq_ok.mp h₃]
  rfl

/-! ## The passes over the participants -/

variable {prepared : List PreparedContribution} {mutations : List PreparedMutation}
  {domain : RegisteredDomain} {revision : DomainRevision} {home : HomeRevision} {name : String}

/-- What the fence establishes of a participant. -/
structure Fences (generation : StoreGeneration) (snapshot : Database) (fenced : FencedParticipant) :
    Prop where
  store : fenced.participant.store = generation.instanceId
  registered : generation.registry.get fenced.participant.slot = some fenced.domain
  name : fenced.domain.name = fenced.participant.domain
  stored : storedMetadata snapshot fenced.participant.domain
    = some (fenced.domain.metadata fenced.currentRevision)

theorem resolveDomain_eq_ok {store slot owner : ℕ}
    (h : resolveDomain generation store slot owner name = .ok domain) :
    store = generation.instanceId ∧ generation.registry.get slot = some domain
      ∧ domain.name = name := by
  obtain ⟨_, hstore, h₁⟩ := bind_eq_ok.mp h
  obtain ⟨hget, hname⟩ := Option.filter_eq_some_iff.mp (required_eq_ok.mp h₁)
  exact ⟨ensure_eq_ok.mp hstore, hget, (of_decide_eq_true hname).1⟩

theorem currentRevision_eq_ok
    (h : currentRevision environment snapshot domain name = .ok revision) :
    storedMetadata snapshot name = some (domain.metadata revision) := by
  obtain ⟨metadata, hread, h₁⟩ := bind_eq_ok.mp h
  obtain ⟨_, hmatch, h₂⟩ := bind_eq_ok.mp h₁
  cases h₂
  rw [← ensure_eq_ok.mp hmatch]
  exact storedMetadata_of_read (mapError_eq_ok.mp hread)

theorem fenceParticipant_eq_ok {participant : DomainParticipant} {fenced : FencedParticipant}
    (h : fenceParticipant generation environment snapshot participant = .ok fenced) :
    fenced.participant = participant ∧ Fences generation snapshot fenced := by
  obtain ⟨domain, hdom, h₁⟩ := bind_eq_ok.mp h
  obtain ⟨revision, hrev, h₂⟩ := bind_eq_ok.mp h₁
  cases h₂
  obtain ⟨hstore, hget, hname⟩ := resolveDomain_eq_ok hdom
  exact ⟨rfl, hstore, hget, hname, currentRevision_eq_ok hrev⟩

/-- **A command that passes the fence expects what is stored.** -/
theorem fenceCommand_eq_ok {command : HomeCommand}
    (h : fenceCommand generation environment snapshot command = .ok (home, fenced)) :
    home = command.expectedHomeRevision ∧ storedHomeRevision snapshot = some home
      ∧ fenced.map (·.participant) = command.participants
      ∧ ∀ f ∈ fenced, Fences generation snapshot f
        ∧ f.currentRevision = f.participant.expectedRevision := by
  simp only [fenceCommand, bind_eq_ok, ensure_eq_ok, pure_eq_ok_iff, Prod.mk.injEq] at h
  obtain ⟨home', hhome, fenced', hfenced, _, hconflicts, rfl, rfl⟩ := h
  obtain ⟨hhomeConflict, hdoms⟩ := append_eq_nil_iff.mp hconflicts
  have hall := mapM_eq_ok.mp hfenced
  refine ⟨?_, storedHomeRevision_of_read (mapError_eq_ok.mp hhome), ?_, ?_⟩
  · by_contra hne
    rw [homeConflict, if_neg hne] at hhomeConflict
    cases hhomeConflict
  · rw [map_eq_map_of_forall₂ hall fun p f hf => (fenceParticipant_eq_ok hf).1, map_id']
  · intro f hf
    obtain ⟨p, -, hp⟩ := exists_left hall hf
    refine ⟨(fenceParticipant_eq_ok hp).2, by_contra fun hne => ?_⟩
    have hnone := filterMap_eq_nil_iff.mp hdoms f hf
    rw [FencedParticipant.conflict, if_neg hne] at hnone
    cases hnone

/-- **What becomes of a fenced mutation participant**: it is prepared on the snapshot, and what it
then contributes to its domain is a prepared mutation. -/
inductive Carries (snapshot : Database) : FencedParticipant → PreparedMutation → Prop
  | intro {plan : DomainMutationPlan} {expected revision : DomainRevision}
      {domain : RegisteredDomain} {contribution : Contribution} {builder : MutationBuilder domain}
      (hprepare : plan.prepare snapshot = .ok contribution)
      (hassemble : contribution.assemble domain = .ok builder) :
      Carries snapshot ⟨.mutation plan expected, domain, revision⟩ ⟨plan.slot, domain, builder⟩

/-- A fenced mutation participant after its preparation. -/
inductive Prepares (snapshot : Database) : FencedParticipant → PreparedContribution → Prop
  | intro {plan : DomainMutationPlan} {expected revision : DomainRevision}
      {domain : RegisteredDomain} {contribution : Contribution}
      (hprepare : plan.prepare snapshot = .ok contribution) :
      Prepares snapshot ⟨.mutation plan expected, domain, revision⟩
        ⟨plan.slot, domain, revision, contribution⟩

/-- The mutation participants among the fenced ones. -/
def mutating (fenced : List FencedParticipant) : List FencedParticipant :=
  fenced.filter fun f => f.participant.isMutation

theorem prepareEach_eq_ok : ∀ {fenced} {prepared}, prepareEach snapshot fenced = .ok prepared →
      List.Forall₂ (Prepares snapshot) (mutating fenced) prepared
  | [], prepared, h => by
    cases h
    exact .nil
  | ⟨.mutation plan expected, domain, revision⟩ :: fenced, prepared, h => by
    obtain ⟨contribution, hprep, h₁⟩ := bind_eq_ok.mp h
    obtain ⟨rest, hrest, h₂⟩ := bind_eq_ok.mp h₁
    cases h₂
    exact .cons (.intro (mapError_eq_ok.mp hprep)) (prepareEach_eq_ok hrest)
  | ⟨.validation plan expected, domain, revision⟩ :: fenced, prepared, h => by
    obtain ⟨_, -, hrest⟩ := bind_eq_ok.mp h
    have hforall : List.Forall₂ (Prepares snapshot) (mutating fenced) prepared :=
      prepareEach_eq_ok hrest
    exact hforall

theorem contribute_eq_ok {participant : PreparedContribution} {mutation : PreparedMutation}
    (h : participant.contribute = .ok mutation) :
    ∃ builder, participant.contribution.assemble participant.domain = .ok builder
      ∧ builder.pending ≠ [] ∧ mutation = ⟨participant.slot, participant.domain, builder⟩ := by
  obtain ⟨builder, hasm, h₁⟩ := bind_eq_ok.mp h
  obtain ⟨_, hpend, h₂⟩ := bind_eq_ok.mp h₁
  exact ⟨builder, mapError_eq_ok.mp hasm, ensure_eq_ok.mp hpend, (Except.ok.inj h₂).symm⟩

theorem forall₂_carries (hprepared : prepareEach snapshot fenced = .ok prepared)
    (hmuts : prepared.mapM PreparedContribution.contribute = .ok mutations) :
    List.Forall₂ (Carries snapshot) (mutating fenced) mutations := by
  refine (forall₂_trans (prepareEach_eq_ok hprepared) (mapM_eq_ok.mp hmuts)).imp ?_
  rintro f mutation ⟨-, ⟨hprep⟩, hcontr⟩
  obtain ⟨builder, hasm, -, rfl⟩ := contribute_eq_ok hcontr
  exact .intro hprep hasm

/-- A receipt entry of a fenced participant: its slot, and the revision after the stored one. -/
def Advances (f : FencedParticipant) (entry : ℕ × DomainRevision) : Prop :=
  entry.1 = f.participant.slot ∧ entry.2.get = f.currentRevision.get + 1

theorem forall₂_advances
    {entries : List (ℕ × DomainRevision)} (hprep : prepareEach snapshot fenced = .ok prepared)
    (hents : prepared.mapM nextDomainRevision = .ok entries) :
    List.Forall₂ Advances (mutating fenced) entries := by
  refine (forall₂_trans (prepareEach_eq_ok hprep) (mapM_eq_ok.mp hents)).imp ?_
  rintro f entry ⟨-, ⟨-⟩, hentry⟩
  obtain ⟨revision, hrev, hpure⟩ := bind_eq_ok.mp hentry
  cases hpure
  exact ⟨rfl, Revision.checkedNext_eq_ok (mapError_eq_ok.mp hrev)⟩

/-! ## The batch -/

variable {receipt : CommitReceipt} {mutation : PreparedMutation} {writes : Writes}

theorem domainRevision_of_mem {slot : ℕ}
    (hnodup : (receipt.domains.map (·.1)).Nodup) (hmem : (slot, revision) ∈ receipt.domains) :
    receipt.domainRevision slot = some revision := by
  rw [CommitReceipt.domainRevision]
  generalize receipt.domains = entries at hnodup hmem
  induction entries with
  | nil => cases hmem
  | cons entry entries ih =>
    rw [map_cons, nodup_cons] at hnodup
    rcases mem_cons.mp hmem with rfl | hmem
    · simp
    · have hne : entry.1 ≠ slot := fun heq =>
        hnodup.1 (heq ▸ mem_map_of_mem hmem)
      rw [find?_cons_of_neg (by simpa using hne)]
      exact ih hnodup.2 hmem

/-- The writes of a participant whose domain the receipt advances. -/
theorem writes_eq_ok (h : mutation.writes receipt = .ok writes) :
    ∃ next encoded, receipt.domainRevision mutation.slot = some next
      ∧ (mutation.domain.metadata next).encode = .ok encoded
      ∧ writes = mutation.builder.pending.map PendingMutation.write
        ++ [(domainLocation mutation.domain.name, some encoded)] := by
  obtain ⟨next, hnext, h₁⟩ := bind_eq_ok.mp h
  obtain ⟨encoded, henc, h₂⟩ := bind_eq_ok.mp h₁
  exact ⟨next, encoded, required_eq_ok.mp hnext, mapError_eq_ok.mp henc, (Except.ok.inj h₂).symm⟩

theorem assembleBatch_eq_ok {batch : Writes}
    (h : assembleBatch environment receipt mutations = .ok batch) :
    ∃ writes, List.Forall₂ (fun m ws => PreparedMutation.writes receipt m = .ok ws) mutations writes
      ∧ batch = writes.flatten
        ++ [(homeLocation, some (encodeHomeRevision receipt.homeRevision))] := by
  obtain ⟨writes, hwrites, h₁⟩ := bind_eq_ok.mp h
  obtain ⟨_, -, h₂⟩ := bind_eq_ok.mp h₁
  obtain ⟨_, -, h₃⟩ := bind_eq_ok.mp h₂
  exact ⟨writes, mapM_eq_ok.mp hwrites, (Except.ok.inj h₃).symm⟩

/-- Where a participant writes. -/
def PreparedMutation.places (mutation : PreparedMutation) : List Location :=
  mutation.builder.pending.map PendingMutation.location ++ [domainLocation mutation.domain.name]

theorem map_fst_writes
    (h : mutation.writes receipt = .ok writes) : writes.map Prod.fst = mutation.places := by
  obtain ⟨next, encoded, -, -, rfl⟩ := writes_eq_ok h
  rw [map_append, map_map]
  rfl

theorem PreparedMutation.nodup_places (mutation : PreparedMutation) : mutation.places.Nodup := by
  rw [places, nodup_append]
  refine ⟨?_, nodup_singleton _, ?_⟩
  · have hinj : Function.Injective fun record : Fin mutation.domain.families.length × Bytes =>
        mutation.domain.recordLocation record.1 record.2 := fun record record' h =>
      Prod.ext_iff.mpr (mutation.domain.recordLocation_inj h)
    have hnodup := mutation.builder.nodup.map hinj
    rwa [map_map] at hnodup
  · intro location hloc place hplace
    obtain ⟨pending, -, rfl⟩ := mem_map.mp hloc
    obtain rfl := mem_singleton.mp hplace
    exact mutation.domain.recordLocation_ne_domain _ _ _

/-- Participants of differently named domains write in different places. -/
theorem PreparedMutation.disjoint_places {mutation' : PreparedMutation}
    (hne : mutation.domain.name ≠ mutation'.domain.name) :
    List.Disjoint mutation.places mutation'.places := by
  intro location hloc hloc'
  rw [places, mem_append, mem_map, mem_singleton] at hloc hloc'
  rcases hloc with ⟨pending, -, rfl⟩ | rfl
  · rcases hloc' with ⟨pending', -, heq⟩ | heq
    · exact RegisteredDomain.recordLocation_ne hne _ _ _ _ heq.symm
    · exact mutation.domain.recordLocation_ne_domain _ _ _ heq
  · rcases hloc' with ⟨pending', -, heq⟩ | heq
    · exact mutation'.domain.recordLocation_ne_domain _ _ _ heq
    · exact hne (domainLocation_inj heq)

theorem PreparedMutation.home_not_mem_places (mutation : PreparedMutation) :
    homeLocation ∉ mutation.places := by
  rw [places, mem_append, mem_map, mem_singleton]
  rintro (⟨pending, -, heq⟩ | heq)
  · exact mutation.domain.recordLocation_ne_home _ _ heq
  · exact homeLocation_ne_domainLocation _ heq

/-- **A batch names each place once**, if its participants' domains are named apart. -/
theorem nodup_batch {batch : Writes} (h : assembleBatch environment receipt mutations = .ok batch)
    (hnames : mutations.Pairwise fun m m' => m.domain.name ≠ m'.domain.name) :
    (batch.map Prod.fst).Nodup := by
  obtain ⟨writes, hwrites, rfl⟩ := assembleBatch_eq_ok h
  have hplaces : (writes.flatten.map Prod.fst) = mutations.flatMap places := by
    rw [map_flatten, map_eq_map_of_forall₂ hwrites fun m ws hws => map_fst_writes hws, flatMap_def]
  rw [map_append, hplaces, nodup_append]
  refine ⟨nodup_flatMap.mpr ⟨fun m _ => m.nodup_places, ?_⟩, nodup_singleton _, ?_⟩
  · exact hnames.imp disjoint_places
  · rintro location hloc place hplace rfl
    obtain ⟨m, -, hm⟩ := mem_flatMap.mp hloc
    obtain rfl := mem_singleton.mp hplace
    exact m.home_not_mem_places hm

/-! ## What the calls on a builder ask for -/

/-- **What a call asks for**: a put, the version of the family and the payload at the place of the
record; a delete, nothing there.  A call asks for nothing if its family is not the domain's or has
another codec, if its key does not fit or if its payload is too long. -/
inductive Asks (domain : RegisteredDomain) : BuilderCall → Location → Option Bytes → Prop
  | put {family : RegisteredFamily} {key payload : Bytes} (hfamily : family ∈ domain.families)
      (hkey : family.KeyFits key) (hpayload : payload.length + 4 ≤ family.maxStoredValueBytes) :
      Asks domain (.put family.logicalName family.codecType (.ok key) (.ok payload))
        ⟨physicalName domain.name family.logicalName, key⟩
        (some (beBytes 4 family.recordVersion.get ++ payload))
  | delete {family : RegisteredFamily} {key : Bytes} (hfamily : family ∈ domain.families)
      (hkey : family.KeyFits key) :
      Asks domain (.delete family.logicalName family.codecType (.ok key))
        ⟨physicalName domain.name family.logicalName, key⟩ none

/-- What a list of calls asks for at a place: what the first call does that asks for anything there.
-/
inductive AsksFirst (domain : RegisteredDomain) : List BuilderCall → Location → Option Bytes → Prop
  | head {call : BuilderCall} {calls : List BuilderCall} {location : Location}
      {value : Option Bytes}
      (hasks : Asks domain call location value) : AsksFirst domain (call :: calls) location value
  | tail {call : BuilderCall} {calls : List BuilderCall} {location : Location}
      {value : Option Bytes}
      (hnot : ∀ value, ¬ Asks domain call location value)
      (hlater : AsksFirst domain calls location value) :
      AsksFirst domain (call :: calls) location value

section

variable {domain : RegisteredDomain} {builder next : MutationBuilder domain} {call : BuilderCall}
  {location location' : Location} {value value' : Option Bytes}

theorem Asks.unique (h : Asks domain call location value) (h' : Asks domain call location' value') :
    location = location' ∧ value = value' := by
  have hfamilies : ∀ {family family' : RegisteredFamily}, family ∈ domain.families →
      family' ∈ domain.families → family'.logicalName = family.logicalName → family' = family :=
    fun hmem hmem' hname => inj_on_of_nodup_map domain.families_nodup hmem' hmem hname
  cases h with
  | put hfamily =>
    generalize hcall : BuilderCall.put .. = call at h'
    cases h' with
    | put hfamily' =>
      cases hfamilies hfamily' hfamily (BuilderCall.put.inj hcall).1
      cases hcall
      exact ⟨rfl, rfl⟩
    | delete => cases hcall
  | delete hfamily =>
    generalize hcall : BuilderCall.delete .. = call at h'
    cases h' with
    | put => cases hcall
    | delete hfamily' =>
      cases hfamilies hfamily' hfamily (BuilderCall.delete.inj hcall).1
      cases hcall
      exact ⟨rfl, rfl⟩

theorem familySlot_eq_ok {name : String} {codecType : ℕ} {slot : Fin domain.families.length}
    (h : MutationBuilder.familySlot domain name codecType = .ok slot) :
    (domain.families.get slot).logicalName = name
      ∧ (domain.families.get slot).codecType = codecType := by
  simp only [MutationBuilder.familySlot, bind_eq_ok, required_eq_ok, ensure_eq_ok, pure_eq_ok_iff,
    exists_const] at h
  obtain ⟨slot, hslot, hcodec, rfl⟩ := h
  exact ⟨of_decide_eq_true (findFinIdx?_eq_some_iff.mp hslot).1, hcodec⟩

/-- A family of a domain is found by its name and its codec. -/
theorem exists_familySlot {family : RegisteredFamily} (hfamily : family ∈ domain.families) :
    ∃ slot, domain.families.get slot = family
      ∧ MutationBuilder.familySlot domain family.logicalName family.codecType = .ok slot := by
  have hfind : (domain.familySlot family.logicalName).isSome = true := by
    rw [RegisteredDomain.familySlot, isSome_findFinIdx?, any_eq_true]
    exact ⟨family, hfamily, decide_eq_true rfl⟩
  obtain ⟨slot, hslot⟩ := Option.isSome_iff_exists.mp hfind
  have hname := of_decide_eq_true (findFinIdx?_eq_some_iff.mp hslot).1
  obtain rfl : domain.families[slot] = family :=
    inj_on_of_nodup_map domain.families_nodup (getElem_mem _) hfamily hname
  refine ⟨slot, rfl, ?_⟩
  rw [MutationBuilder.familySlot, hslot, required_some, ok_bind, ensure_bind rfl]
  rfl

/-- Where a builder has pending records. -/
def MutationBuilder.locations (builder : MutationBuilder domain) : List Location :=
  builder.pending.map PendingMutation.location

theorem mem_locations {mutation : PendingMutation domain} :
    mutation.record ∈ builder.pending.map PendingMutation.record
      ↔ mutation.location ∈ builder.locations := by
  simp only [MutationBuilder.locations, mem_map]
  constructor
  · rintro ⟨other, hother, heq⟩
    exact ⟨other, hother, congrArg (fun record : Fin domain.families.length × Bytes =>
      domain.recordLocation record.1 record.2) heq⟩
  · rintro ⟨other, hother, heq⟩
    exact ⟨other, hother, Prod.ext_iff.mpr (domain.recordLocation_inj heq)⟩

theorem push_eq_ok {mutation : PendingMutation domain} (h : builder.push mutation = .ok next) :
    mutation.location ∉ builder.locations ∧ next.pending = builder.pending ++ [mutation] := by
  rw [MutationBuilder.push] at h
  split at h
  · cases h
  · next hnew =>
    cases h
    exact ⟨fun hmem => hnew (mem_locations.mpr hmem), rfl⟩

theorem exists_push (mutation : PendingMutation domain)
    (h : mutation.location ∉ builder.locations) : ∃ next, builder.push mutation = .ok next := by
  rw [MutationBuilder.push, dif_neg fun hmem => h (mem_locations.mp hmem)]
  exact ⟨_, rfl⟩

theorem location_eq (slot : Fin domain.families.length) (key : Bytes) :
    domain.recordLocation slot key
      = ⟨physicalName domain.name (domain.families.get slot).logicalName, key⟩ :=
  congrArg (Location.mk · key) (domain.physical _ (getElem_mem _))

/-- **A call that is accepted adds what it asks for**, at a place that is not yet written. -/
theorem call_eq_ok (h : builder.call call = .ok next) :
    ∃ mutation, next.pending = builder.pending ++ [mutation]
      ∧ mutation.location ∉ builder.locations
      ∧ Asks domain call mutation.write.1 mutation.write.2 := by
  cases call with
  | put family codecType key payload =>
    simp only [MutationBuilder.call, bind_eq_ok, MutationBuilder.encodeStoredKey, mapError_eq_ok,
      encodeValue, ensure_eq_ok, pure_eq_ok_iff, exists_const] at h
    obtain ⟨slot, hslot, ⟨key, hfits⟩, ⟨encoded, rfl, hkey⟩, payload, rfl, value,
      ⟨hlen, rfl⟩, hpush⟩ := h
    obtain ⟨rfl, rfl⟩ := familySlot_eq_ok hslot
    split at hkey
    · cases hkey
      obtain ⟨hnew, hpending⟩ := push_eq_ok hpush
      refine ⟨_, hpending, hnew, ?_⟩
      rw [PendingMutation.write, PendingMutation.location, location_eq]
      exact .put (getElem_mem _) hfits hlen
    · cases hkey
  | delete family codecType key =>
    simp only [MutationBuilder.call, bind_eq_ok, MutationBuilder.encodeStoredKey, mapError_eq_ok]
      at h
    obtain ⟨slot, hslot, ⟨key, hfits⟩, ⟨encoded, rfl, hkey⟩, hpush⟩ := h
    obtain ⟨rfl, rfl⟩ := familySlot_eq_ok hslot
    split at hkey
    · cases hkey
      obtain ⟨hnew, hpending⟩ := push_eq_ok hpush
      refine ⟨_, hpending, hnew, ?_⟩
      rw [PendingMutation.write, PendingMutation.location, location_eq]
      exact .delete (getElem_mem _) hfits
    · cases hkey

/-- **A call that asks for something is accepted**, unless its place is written already. -/
theorem exists_call (hasks : Asks domain call location value)
    (hnew : location ∉ builder.locations) : ∃ next, builder.call call = .ok next := by
  cases hasks with
  | @put family key payload hfamily hkey hpayload =>
    obtain ⟨slot, rfl, hslot⟩ := exists_familySlot hfamily
    change domain.families[slot].KeyFits _ at hkey
    have hvalue : encodeValue domain.name domain.families[slot] payload
        = .ok (beBytes 4 domain.families[slot].recordVersion.get ++ payload) :=
      ensure_bind hpayload
    rw [← location_eq] at hnew
    obtain ⟨next, hnext⟩ := exists_push ⟨slot, _, .put _, hkey⟩ hnew
    refine ⟨next, ?_⟩
    rw [MutationBuilder.call, hslot, ok_bind, MutationBuilder.encodeStoredKey, mapError_ok, ok_bind,
      dif_pos hkey, ok_bind]
    dsimp only
    rw [mapError_ok, ok_bind, hvalue, ok_bind]
    exact hnext
  | delete hfamily hkey =>
    obtain ⟨slot, rfl, hslot⟩ := exists_familySlot hfamily
    change domain.families[slot].KeyFits _ at hkey
    rw [← location_eq] at hnew
    obtain ⟨next, hnext⟩ := exists_push ⟨slot, _, .delete, hkey⟩ hnew
    refine ⟨next, ?_⟩
    rw [MutationBuilder.call, hslot, ok_bind, MutationBuilder.encodeStoredKey, mapError_ok, ok_bind,
      dif_pos hkey, ok_bind]
    exact hnext

/-- **The records of a run of calls are what the calls ask for first**, beside those pending before.
-/
theorem mem_writes_run {calls : List BuilderCall} {builder : MutationBuilder domain} :
    (location, value) ∈ (builder.run calls).pending.map PendingMutation.write
      ↔ (location, value) ∈ builder.pending.map PendingMutation.write
        ∨ location ∉ builder.locations ∧ AsksFirst domain calls location value := by
  induction calls generalizing builder with
  | nil =>
    refine ⟨.inl, ?_⟩
    rintro (h | ⟨-, h⟩)
    · exact h
    · cases h
  | cons call calls ih =>
    have hrun : builder.run (call :: calls) =
      ((builder.call call).toOption.getD builder).run calls := rfl
    rw [hrun, ih]
    cases hcall : builder.call call with
    | error e =>
      -- The call asks for nothing where the builder has nothing.
      refine or_congr_right (and_congr_right fun hnew => ?_)
      have hnot : ∀ value, ¬ Asks domain call location value := fun value hasks => by
        obtain ⟨next, hnext⟩ := exists_call hasks hnew
        cases hcall.symm.trans hnext
      refine ⟨.tail hnot, ?_⟩
      rintro (hasks | ⟨-, hlater⟩)
      · exact absurd hasks (hnot _)
      · exact hlater
    | ok next =>
      obtain ⟨mutation, hpending, hnew, hasks⟩ := call_eq_ok hcall
      have hlocations : next.locations = builder.locations ++ [mutation.location] := by
        rw [MutationBuilder.locations, hpending, map_append]
        rfl
      simp only [Except.toOption, Option.getD_some, hlocations, hpending, map_append, mem_append,
        map_singleton, mem_singleton, not_or, or_assoc]
      refine or_congr_right ⟨?_, ?_⟩
      · rintro (hhead | ⟨⟨hfree, hother⟩, hlater⟩)
        · cases hhead
          exact ⟨hnew, .head hasks⟩
        · exact ⟨hfree, .tail (fun value h => hother (h.unique hasks).1) hlater⟩
      · rintro ⟨hfree, hhead | ⟨hnot, hlater⟩⟩
        · exact .inl (Prod.ext_iff.mpr (hhead.unique hasks))
        · refine .inr ⟨⟨hfree, ?_⟩, hlater⟩
          rintro rfl
          exact hnot _ hasks

theorem AsksFirst.ne_domainLocation {calls : List BuilderCall} (name : String)
    (h : AsksFirst domain calls location value) : location ≠ domainLocation name := by
  have hkeyspace : ∀ family key, (⟨physicalName domain.name family, key⟩ : Location)
      ≠ domainLocation name := fun family key heq =>
    physicalName_ne _ _ (show domainsKeyspace.toList.head? ≠ _ by decide)
      (congrArg Location.keyspace heq)
  induction h with
  | head hasks => cases hasks <;> exact hkeyspace _ _
  | tail _ _ ih => exact ih

/-- **What a prepared callback contributes** is what its calls ask for first. -/
theorem mem_writes_assemble {contribution : Contribution}
    (h : contribution.assemble domain = .ok builder) :
    (location, value) ∈ builder.pending.map PendingMutation.write
      ↔ AsksFirst domain contribution.calls location value := by
  obtain ⟨_, -, hpure⟩ := bind_eq_ok.mp h
  cases hpure
  rw [mem_writes_run]
  simp [MutationBuilder.new, MutationBuilder.locations]

end

/-! ## A prepared commit -/

/-- **A record that a command contributes**: a mutation participant, prepared on what is stored,
asks for the value at the place. -/
def Contributes (generation : StoreGeneration) (command : HomeCommand) (before : Database)
    (write : Location × Option Bytes) : Prop :=
  ∃ plan expected, .mutation plan expected ∈ command.participants ∧
    ∃ domain contribution, generation.registry.get plan.slot = some domain
      ∧ plan.prepare before = .ok contribution
      ∧ AsksFirst domain contribution.calls write.1 write.2

/-- **What a batch and its receipt are to be**, for a command that expects what is stored. -/
structure Intends (generation : StoreGeneration) (command : HomeCommand) (before : Database)
    (receipt : CommitReceipt) (batch : Writes) : Prop where
  expectedHome : storedHomeRevision before = some command.expectedHomeRevision
  expectedDomain : ∀ p ∈ command.participants,
    storedDomainRevision before p.domain = some p.expectedRevision
  homeRevision : receipt.homeRevision.get = command.expectedHomeRevision.get + 1
  slots : receipt.domains.map (·.1)
    = (command.participants.filter DomainParticipant.isMutation).map DomainParticipant.slot
  nodup : (batch.map Prod.fst).Nodup
  home_mem : (homeLocation, some (encodeHomeRevision receipt.homeRevision)) ∈ batch
  record_mem : ∀ write, Contributes generation command before write → write ∈ batch
  domain_mem : ∀ p ∈ command.participants, p.isMutation = true →
    ∃ metadata next encoded, storedMetadata before p.domain = some metadata
      ∧ (p.slot, next) ∈ receipt.domains ∧ next.get = p.expectedRevision.get + 1
      ∧ DomainMetadata.encode { metadata with revision := next } = .ok encoded
      ∧ (domainLocation p.domain, some encoded) ∈ batch
  only : ∀ write ∈ batch, write.1 = homeLocation ∨ Contributes generation command before write
    ∨ ∃ p ∈ command.participants, p.isMutation = true ∧ write.1 = domainLocation p.domain

variable {before : Database} {command : HomeCommand} {batch : Writes}

variable (hmap : fenced.map (·.participant) = command.participants)
include hmap

theorem map_participant_mutating : (mutating fenced).map (·.participant)
      = command.participants.filter DomainParticipant.isMutation := by
  rw [← hmap, filter_map]
  rfl

/-- The domains of a command's mutation participants lie in different slots. -/
theorem nodup_slots (hfences : ∀ f ∈ fenced, Fences generation before f) :
    ((mutating fenced).map fun f => f.participant.slot).Nodup := by
  have hplaces : ((mutating fenced).map fun f => f.participant.place).Nodup := by
    have hsublist := (filter_sublist (p := DomainParticipant.isMutation)
      (l := command.participants)).map DomainParticipant.place
    rw [← map_participant_mutating hmap, map_map] at hsublist
    exact command.nodup.sublist hsublist
  refine List.Nodup.of_map (fun slot => (generation.instanceId, slot)) ?_
  rw [map_map]
  refine (map_congr_left fun f hf => ?_) ▸ hplaces
  exact Prod.ext (hfences f (mem_of_mem_filter hf)).store rfl

omit hmap

section

variable (hfences : ∀ f ∈ fenced, Fences generation before f)
  (hcarries : List.Forall₂ (Carries before) (mutating fenced) mutations)
include hfences hcarries

/-- A prepared mutation is of the domain registered in its slot. -/
theorem registered_of_mem {m : PreparedMutation}
    (hm : m ∈ mutations) : generation.registry.get m.slot = some m.domain := by
  obtain ⟨f, hf, hcarry⟩ := exists_left hcarries hm
  cases hcarry
  exact (hfences _ (mem_of_mem_filter hf)).registered

theorem pairwise_names (hmap : fenced.map (·.participant) = command.participants) :
    mutations.Pairwise fun m m' => m.domain.name ≠ m'.domain.name := by
  have hslots : (mutations.map (·.slot)).Nodup := by
    rw [map_eq_map_of_forall₂ hcarries fun f m hm => show m.slot = f.participant.slot by
      cases hm; rfl]
    exact nodup_slots hmap hfences
  refine (pairwise_map.mp hslots).imp_of_mem fun {m m'} hm hm' hne => ?_
  exact Registry.name_ne (registered_of_mem hfences hcarries hm)
    (registered_of_mem hfences hcarries hm') hne

end

/-- **What a fenced mutation participant adds to the receipt and to the batch.** -/
inductive Delivers (before : Database) : FencedParticipant → ℕ × DomainRevision → Writes → Prop
  | intro {plan : DomainMutationPlan} {expected revision next : DomainRevision}
      {domain : RegisteredDomain} {contribution : Contribution} {builder : MutationBuilder domain}
      {encoded : Bytes} (hprepare : plan.prepare before = .ok contribution)
      (hassemble : contribution.assemble domain = .ok builder)
      (hnext : next.get = revision.get + 1)
      (hencoded : (domain.metadata next).encode = .ok encoded) :
      Delivers before ⟨.mutation plan expected, domain, revision⟩ (plan.slot, next)
        (builder.pending.map PendingMutation.write ++ [(domainLocation domain.name, some encoded)])

namespace Delivers

variable {f : FencedParticipant} {entry : ℕ × DomainRevision} {ws : Writes}
  {write : Location × Option Bytes} (h : Delivers before f entry ws)
  (hfence : Fences generation before f)
include h hfence

theorem mem_of_asks {plan : DomainMutationPlan} {expected : DomainRevision}
    {contribution : Contribution} (hp : f.participant = .mutation plan expected)
    (hget : generation.registry.get plan.slot = some domain)
    (hprep : plan.prepare before = .ok contribution)
    (hasks : AsksFirst domain contribution.calls write.1 write.2) : write ∈ ws := by
  obtain ⟨hprep', hasm, -, -⟩ := h
  cases hp
  cases hget.symm.trans hfence.registered
  cases hprep.symm.trans hprep'
  exact mem_append_left _ ((mem_writes_assemble hasm).mpr hasks)

/-- Nothing is delivered but what is asked for and the metadata of the domain. -/
theorem only (hp : f.participant ∈ command.participants) (hwrite : write ∈ ws) :
    Contributes generation command before write
      ∨ ∃ p ∈ command.participants, p.isMutation = true ∧ write.1 = domainLocation p.domain := by
  obtain ⟨hprep, hasm, -, -⟩ := h
  rcases mem_append.mp hwrite with hrec | hdom
  · exact .inl ⟨_, _, hp, _, _, hfence.registered, hprep, (mem_writes_assemble hasm).mp hrec⟩
  · obtain rfl := mem_singleton.mp hdom
    exact .inr ⟨_, hp, rfl, congrArg domainLocation hfence.name⟩

end Delivers

theorem delivers {writes : List Writes} (hnodup : (receipt.domains.map (·.1)).Nodup)
    (hcarries : List.Forall₂ (Carries before) (mutating fenced) mutations)
    (hadvances : List.Forall₂ Advances (mutating fenced) receipt.domains)
    (hwrites : List.Forall₂ (fun m ws => PreparedMutation.writes receipt m = .ok ws) mutations
      writes) : List.Forall₂ (fun f ws => ∃ entry ∈ receipt.domains, Delivers before f entry ws)
      (mutating fenced) writes := by
  have hents : ∀ f ∈ mutating fenced, ∃ entry ∈ receipt.domains, Advances f entry :=
    fun f hf => exists_right hadvances hf
  refine ((forall₂_and_left _ _).mpr ⟨hents, forall₂_trans hcarries hwrites⟩).imp ?_
  rintro f ws ⟨⟨⟨slot, next⟩, hentry, hslot, hnext⟩, m, ⟨hprep, hasm⟩, hws⟩
  obtain ⟨next', encoded, hlookup, henc, rfl⟩ := writes_eq_ok hws
  obtain rfl : slot = _ := hslot
  obtain rfl : next = next' :=
    Option.some.inj ((domainRevision_of_mem hnodup hentry).symm.trans hlookup)
  exact ⟨_, hentry, .intro hprep hasm hnext henc⟩

/-- **The batch of a command that passes the fence is what the command intends.** -/
theorem intends {healthGeneration : ℕ}
    (hfence : fenceCommand generation environment before command = .ok (home, fenced))
    (hprepared : prepareEach before fenced = .ok prepared)
    (hrcpt : intendedReceipt generation healthGeneration home prepared = .ok receipt)
    (hmuts : prepared.mapM PreparedContribution.contribute = .ok mutations)
    (hbatch : assembleBatch environment receipt mutations = .ok batch) :
    Intends generation command before receipt batch := by
  obtain ⟨rfl, hhome, hmap, hfenced⟩ := fenceCommand_eq_ok hfence
  have hfences : ∀ f ∈ fenced, Fences generation before f := fun f hf => (hfenced f hf).1
  obtain ⟨next, hnext, hrcpt₁⟩ := bind_eq_ok.mp hrcpt
  obtain ⟨entries, hents, hrcpt₂⟩ := bind_eq_ok.mp hrcpt₁
  cases hrcpt₂
  have hcarries := forall₂_carries hprepared hmuts
  have hadvances := forall₂_advances hprepared hents
  have hslots : entries.map (·.1) = (mutating fenced).map fun f => f.participant.slot :=
    map_eq_map_of_forall₂ hadvances fun f entry hentry => hentry.1
  have hnodup : (entries.map (·.1)).Nodup := hslots ▸ nodup_slots hmap hfences
  have hbatchNodup := nodup_batch hbatch (pairwise_names hfences hcarries hmap)
  obtain ⟨writes, hwrites, rfl⟩ := assembleBatch_eq_ok hbatch
  have hdeliv := delivers hnodup hcarries hadvances hwrites
  have hpart : ∀ p ∈ command.participants, ∃ f ∈ fenced, f.participant = p := fun p hp => by
    rw [← hmap] at hp
    exact mem_map.mp hp
  have hmem : ∀ {ws write}, ws ∈ writes → write ∈ ws → write ∈ writes.flatten
      ++ [(homeLocation, some (encodeHomeRevision next))] := fun hws hwrite =>
    mem_append_left _ (mem_flatten_of_mem hws hwrite)
  refine ⟨hhome, fun p hp => ?_, Revision.checkedNext_eq_ok (mapError_eq_ok.mp hnext), ?_,
    hbatchNodup, mem_append_right _ mem_cons_self, ?_, ?_, ?_⟩
  · obtain ⟨f, hf, rfl⟩ := hpart p hp
    obtain ⟨hfence, hexp⟩ := hfenced f hf
    rw [storedDomainRevision, hfence.stored, Option.map_some, ← hexp]
    rfl
  · rw [← map_participant_mutating hmap, map_map]
    exact hslots
  · rintro write ⟨plan, expected, hp, domain, contribution, hget, hprep, hasks⟩
    obtain ⟨f, hf, hfp⟩ := hpart _ hp
    obtain ⟨ws, hws, entry, -, hdeliver⟩ := exists_right hdeliv
      (mem_filter.mpr ⟨hf, by rw [hfp]; rfl⟩)
    exact hmem hws (hdeliver.mem_of_asks (hfences f hf) hfp hget hprep hasks)
  · intro p hp hmut
    obtain ⟨f, hf, rfl⟩ := hpart p hp
    obtain ⟨hfence, hexp⟩ := hfenced f hf
    obtain ⟨ws, hws, entry, hentry, hdeliver⟩ := exists_right hdeliv
      (mem_filter.mpr ⟨hf, hmut⟩)
    obtain ⟨hprep, hasm, hadv, henc⟩ := hdeliver
    refine ⟨_, _, _, hfence.stored, hentry, hexp ▸ hadv, henc, hmem hws ?_⟩
    rw [hfence.name]
    exact mem_append_right _ mem_cons_self
  · intro write hwrite
    rcases mem_append.mp hwrite with hwrite | hwrite
    · obtain ⟨ws, hws, hwrite⟩ := mem_flatten.mp hwrite
      obtain ⟨f, hf, entry, -, hdeliver⟩ := exists_left hdeliv hws
      obtain ⟨hf, -⟩ := mem_filter.mp hf
      have hp : f.participant ∈ command.participants := hmap ▸ mem_map_of_mem hf
      exact .inr (hdeliver.only (hfences f hf) hp hwrite)
    · obtain rfl := mem_singleton.mp hwrite
      exact .inl rfl

end Beryl.Home
