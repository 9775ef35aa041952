import Beryl.Home.Metadata
import Mathlib.Data.List.Nodup

/-!
# Home/Domain — the registered domains of a home and where their records lie

A home is a table of keyspaces.  One holds the home's own records, one the records of the registered
domains, and each family of a domain has a keyspace of its own, named after the domain and the
family.  A registry admits a domain name once and a family name once in its domain, so no two of
these places coincide (`Registry.recordLocation_inj`, `recordLocation_ne_home`,
`recordLocation_ne_domain`).
-/

namespace Beryl.Home

open Wire List

/-! ## Places -/

/-- A key in a keyspace. -/
structure Location where
  keyspace : String
  key : Bytes
deriving DecidableEq

/-- What a home has stored. -/
abbrev Database := Location → Option Bytes

/-- Records to be written, or deleted, one after the other. -/
abbrev Writes := List (Location × Option Bytes)

/-- Where the home is described. -/
def headerKeyspace : String := "_beryl_home"
/-- Where the domains are. -/
def domainsKeyspace : String := "_beryl_domains"

/-- Where the home revision is stored. -/
def homeLocation : Location := ⟨headerKeyspace, textBytes "revision"⟩

/-- Where the record of a domain is stored. -/
def domainLocation (domain : String) : Location := ⟨domainsKeyspace, textBytes domain⟩

/-! ## Domains -/

/-- The most bytes of a name. -/
def maxComponentBytes : ℕ := 64

/-- A name of a domain or of a family: lowercase letters, digits, `_` and `-`. -/
def ValidComponent (name : String) : Prop :=
  name ≠ "" ∧ (textBytes name).length ≤ maxComponentBytes
    ∧ ∀ c ∈ name.toList, c.isLower ∨ c.isDigit ∨ c = '_' ∨ c = '-'

instance (name : String) : Decidable (ValidComponent name) :=
  haveI := List.decidableBAll (fun c : Char => c.isLower ∨ c.isDigit ∨ c = '_' ∨ c = '-')
    name.toList
  inferInstanceAs (Decidable (_ ∧ _ ∧ _))

theorem ValidComponent.dot_not_mem {name : String} (h : ValidComponent name) : '.' ∉ name.toList :=
  fun hmem => absurd (h.2.2 '.' hmem) (by decide)

/-- The keyspace of a family. -/
def physicalName (domain family : String) : String := "d." ++ domain ++ "." ++ family

variable (domain family : String)

theorem toList_physicalName :
    (physicalName domain family).toList = 'd' :: '.' ::
        (domain.toList ++ '.' :: family.toList) := by
  simp [physicalName]

/-- **A keyspace names its domain and its family.** -/
theorem physicalName_inj {domain domain' family family' : String} (hdom : ValidComponent domain)
    (hfam : ValidComponent family) (h : physicalName domain family = physicalName domain' family') :
    domain = domain' ∧ family = family' := by
  have hlist := congrArg String.toList h
  simp only [toList_physicalName, List.cons.injEq, true_and] at hlist
  obtain ⟨hfront, -, hback⟩ :=
    (append_cons_inj_of_notMem hdom.dot_not_mem hfam.dot_not_mem).mp hlist
  exact ⟨String.toList_injective hfront, String.toList_injective hback⟩

theorem physicalName_ne {keyspace : String} (h : keyspace.toList.head? ≠ some 'd') :
    physicalName domain family ≠ keyspace := by
  rintro rfl
  simp [toList_physicalName] at h

/-- How a domain classifies its records after an indeterminate command. -/
inductive Reconciler
  | syndic | state
deriving DecidableEq

/-- A family of records of a registered domain. -/
structure RegisteredFamily where
  logicalName : String
  physicalName : String
  schema : SchemaVersion
  /-- The identity of the codec that owns the family. -/
  codecType : ℕ
  /-- The version in front of every record that the codec writes. -/
  recordVersion : SchemaVersion
  maxKeyBytes : ℕ
  maxStoredValueBytes : ℕ
deriving DecidableEq

/-- **A registered domain**: its names are valid, its families are named apart, and each lies in the
keyspace named after it. -/
structure RegisteredDomain where
  name : String
  schema : SchemaVersion
  /-- The identity of the domain's owner. -/
  owner : ℕ
  reconciler : Reconciler
  families : List RegisteredFamily
  name_valid : ValidComponent name
  families_valid : ∀ family ∈ families, ValidComponent family.logicalName
  families_nodup : (families.map (·.logicalName)).Nodup
  physical : ∀ family ∈ families, family.physicalName = physicalName name family.logicalName

namespace RegisteredDomain

variable (domain : RegisteredDomain)

/-- The record of the domain at a revision. -/
def metadata (revision : DomainRevision) : DomainMetadata where
  schema := domain.schema
  revision := revision
  families := domain.families.map fun family =>
    ⟨family.logicalName, family.physicalName, family.schema⟩

/-- The position of a family, by its name. -/
def familySlot (logicalName : String) : Option (Fin domain.families.length) :=
  domain.families.findFinIdx? fun family => family.logicalName = logicalName

/-- Where a record of a family is stored. -/
def recordLocation (slot : Fin domain.families.length) (key : Bytes) : Location :=
  ⟨(domain.families.get slot).physicalName, key⟩

section

variable (slot : Fin domain.families.length)

theorem recordLocation_keyspace (key : Bytes) : (domain.recordLocation slot key).keyspace
      = physicalName domain.name (domain.families.get slot).logicalName :=
  domain.physical _ (get_mem _ slot)

theorem family_valid : ValidComponent (domain.families.get slot).logicalName :=
  domain.families_valid _ (get_mem _ slot)

theorem recordLocation_ne_home (key : Bytes) :
    domain.recordLocation slot key ≠ homeLocation := fun h =>
  physicalName_ne _ _ (by decide)
    ((domain.recordLocation_keyspace slot key).symm.trans (congrArg Location.keyspace h))

theorem recordLocation_ne_domain (key : Bytes) (name : String) :
    domain.recordLocation slot key ≠ domainLocation name := fun h =>
  physicalName_ne _ _ (show domainsKeyspace.toList.head? ≠ _ by decide)
    ((domain.recordLocation_keyspace slot key).symm.trans (congrArg Location.keyspace h))

end

theorem recordLocation_inj {slot slot' : Fin domain.families.length} {key key' : Bytes}
    (h : domain.recordLocation slot key = domain.recordLocation slot' key') :
    slot = slot' ∧ key = key' := by
  have hspace := congrArg Location.keyspace h
  rw [recordLocation_keyspace, recordLocation_keyspace] at hspace
  have hname := (physicalName_inj domain.name_valid (domain.family_valid slot) hspace).2
  refine ⟨Fin.ext ?_, congrArg Location.key h⟩
  have hfam := inj_on_of_nodup_map domain.families_nodup (get_mem _ slot)
    (getElem_mem slot'.isLt) hname
  exact (List.Nodup.of_map _ domain.families_nodup).getElem_inj_iff.mp hfam

/-- Records of domains with different names lie apart. -/
theorem recordLocation_ne {domain domain' : RegisteredDomain} (hne : domain.name ≠ domain'.name)
    (slot : Fin domain.families.length) (slot' : Fin domain'.families.length) (key key' : Bytes) :
    domain.recordLocation slot key ≠ domain'.recordLocation slot' key' := fun h => by
  have hspace := congrArg Location.keyspace h
  rw [recordLocation_keyspace, recordLocation_keyspace] at hspace
  exact hne (physicalName_inj domain.name_valid (domain.family_valid slot) hspace).1

end RegisteredDomain

theorem homeLocation_ne_domainLocation (name : String) : homeLocation ≠ domainLocation name :=
  fun h => absurd (congrArg Location.keyspace h) (show headerKeyspace ≠ domainsKeyspace by decide)

theorem domainLocation_inj {name name' : String} (h : domainLocation name = domainLocation name') :
    name = name' := by
  have hkey : textBytes name = textBytes name' := congrArg Location.key h
  have hname := fromUTF8?_eq_some.mpr hkey
  rw [fromUTF8?_eq_some.mpr rfl] at hname
  exact (Option.some.inj hname).symm

/-- **The registered domains of a home**, each name once. -/
structure Registry where
  entries : List RegisteredDomain
  names_nodup : (entries.map (·.name)).Nodup

namespace Registry

/-- The domain in a slot. -/
def get (registry : Registry) (slot : ℕ) : Option RegisteredDomain := registry.entries[slot]?

/-- **Different slots hold domains of different names.** -/
theorem name_ne {registry : Registry} {slot slot' : ℕ} {domain domain' : RegisteredDomain}
    (h : registry.get slot = some domain) (h' : registry.get slot' = some domain')
    (hne : slot ≠ slot') : domain.name ≠ domain'.name := fun hname => by
  obtain ⟨hlt, rfl⟩ := List.getElem?_eq_some_iff.mp h
  obtain ⟨hlt', rfl⟩ := List.getElem?_eq_some_iff.mp h'
  have hdom := inj_on_of_nodup_map registry.names_nodup (getElem_mem hlt)
    (getElem_mem hlt') hname
  exact hne ((List.Nodup.of_map _ registry.names_nodup).getElem_inj_iff.mp hdom)

end Registry

end Beryl.Home
