import Beryl.Machinery.Fallible

/-!
# Machinery/Wire — hand-written readers and writers of bytes

A *scanner* is a fallible computation over bytes.  A reader takes bytes off the front of what is
left; a writer adds bytes behind what it has written.  Both are compared with one abstract format:
which values are valid, and the bytes that spell them.

* `Parses read valid form` — the reader accepts exactly the spellings of valid values.
* `Prints limit write valid a form` — the writer succeeds only on a valid value, spells it, and does
succeed while the bytes stay within the limit.

A reader and a writer of the same format are inverse to each other.
-/

namespace Beryl.Wire

open Fallible List

/-- The bytes of a message. -/
abbrev Bytes := List UInt8

/-! ## Little-endian numbers -/

/-- The `k` lowest bytes of a number, lowest first. -/
def leBytes : ℕ → ℕ → Bytes
  | 0, _ => []
  | k + 1, n => UInt8.ofNat n :: leBytes k (n / 256)

/-- The number that bytes spell, lowest first. -/
def ofLeBytes : Bytes → ℕ
  | [] => 0
  | b :: bs => b.toNat + 256 * ofLeBytes bs

@[simp] theorem length_leBytes : ∀ k n, (leBytes k n).length = k
  | 0, _ => rfl
  | k + 1, n => congrArg (· + 1) (length_leBytes k (n / 256))

theorem ofLeBytes_leBytes : ∀ {k n}, n < 256 ^ k → ofLeBytes (leBytes k n) = n
  | 0, n, h => (Nat.lt_one_iff.mp h).symm
  | k + 1, n, h => by
    have hrest : n / 256 < 256 ^ k := by
      rw [Nat.div_lt_iff_lt_mul (by decide), ← Nat.pow_succ]
      exact h
    have hbyte : (UInt8.ofNat n).toNat = n % 256 := UInt8.toNat_ofNat'
    rw [leBytes, ofLeBytes, ofLeBytes_leBytes hrest, hbyte, Nat.mod_add_div]

theorem leBytes_ofLeBytes : ∀ bs, leBytes bs.length (ofLeBytes bs) = bs
  | [] => rfl
  | b :: bs => by
    have hb := b.toNat_lt
    have hrest : (b.toNat + 256 * ofLeBytes bs) / 256 = ofLeBytes bs := by omega
    have hbyte : UInt8.ofNat (b.toNat + 256 * ofLeBytes bs) = b := by
      refine UInt8.toNat_inj.mp ?_
      rw [UInt8.toNat_ofNat']
      omega
    rw [length_cons, ofLeBytes, leBytes, hrest, hbyte, leBytes_ofLeBytes bs]

theorem ofLeBytes_lt : ∀ bs, ofLeBytes bs < 256 ^ bs.length
  | [] => Nat.one_pos
  | b :: bs => by
    have hb := b.toNat_lt
    have ih := ofLeBytes_lt bs
    rw [ofLeBytes, length_cons, Nat.pow_succ]
    omega

/-! ## Big-endian numbers -/

/-- The `k` lowest bytes of a number, highest first. -/
def beBytes (k n : ℕ) : Bytes := (leBytes k n).reverse

/-- The number that bytes spell, highest first. -/
def ofBeBytes (bytes : Bytes) : ℕ := ofLeBytes bytes.reverse

@[simp] theorem length_beBytes (k n : ℕ) : (beBytes k n).length = k := by
  rw [beBytes, length_reverse, length_leBytes]

theorem ofBeBytes_beBytes {k n : ℕ} (h : n < 256 ^ k) : ofBeBytes (beBytes k n) = n := by
  rw [ofBeBytes, beBytes, reverse_reverse, ofLeBytes_leBytes h]

theorem beBytes_ofBeBytes (bytes : Bytes) : beBytes bytes.length (ofBeBytes bytes) = bytes := by
  rw [beBytes, ofBeBytes, ← length_reverse, leBytes_ofLeBytes, reverse_reverse]

theorem ofBeBytes_lt (bytes : Bytes) : ofBeBytes bytes < 256 ^ bytes.length := by
  rw [← length_reverse]
  exact ofLeBytes_lt _

/-! ## Texts -/

/-- The bytes of a text. -/
def textBytes (text : String) : Bytes := text.toUTF8.data.toList

theorem fromUTF8?_eq_some {value : Bytes} {text : String} :
    String.fromUTF8? ⟨⟨value⟩⟩ = some text ↔ textBytes text = value := by
  rw [String.fromUTF8?]
  constructor
  · intro h
    split at h
    · cases h
      rfl
    · cases h
  · rintro rfl
    exact dif_pos text.isValidUTF8

/-! ## Scanners -/

variable {s s' : Bytes} {p : Prop}

/-- A fallible computation over bytes. -/
abbrev Scanner (ε : Type) := StateT Bytes (Except ε)

variable {ε α β : Type}

/-- Fail with `e` unless `p` holds. -/
def check (p : Prop) [Decidable p] (e : ε) : Scanner ε Unit := fun bytes =>
  if p then .ok ((), bytes) else .error e

/-- Take `count` bytes off the front. -/
def take (count : ℕ) (truncated : ε) : Scanner ε Bytes := fun bytes =>
  if count ≤ bytes.length then .ok (bytes.take count, bytes.drop count) else .error truncated

/-- Add bytes behind those written. -/
def put (bytes : Bytes) : Scanner ε Unit := modify (· ++ bytes)

variable {b : β} {a : α} {e : ε} {x : Scanner ε α}

theorem run_bind_eq_ok {f : α → Scanner ε β} :
    (x >>= f).run s = .ok (b, s') ↔ ∃ a m, x.run s = .ok (a, m) ∧ (f a).run m = .ok (b, s') := by
  rw [StateT.run_bind, bind_eq_ok]
  simp

theorem run_bind_of_eq_ok {m : Bytes} (h : x.run s = .ok (a, m))
    (f : α → Scanner ε β) : (x >>= f).run s = (f a).run m := by
  rw [StateT.run_bind, h, ok_bind]

/-- Two computations that begin alike are related as they go on. -/
theorem run_bind_rel {R : Except ε (β × Bytes) → Except ε (β × Bytes) → Prop} (hrefl : ∀ r, R r r)
    {f g : α → Scanner ε β} (h : ∀ a m, x.run s = .ok (a, m) → R ((f a).run m) ((g a).run m)) :
    R ((x >>= f).run s) ((x >>= g).run s) := by
  rw [StateT.run_bind, StateT.run_bind]
  cases hx : x.run s with
  | error e => exact hrefl _
  | ok r => exact h r.1 r.2 hx

theorem run_pure_eq_ok {b : α} : (pure a : Scanner ε α).run s = .ok (b, s') ↔ b = a ∧ s' = s := by
  rw [StateT.run_pure, pure_eq_ok_iff, Prod.mk.injEq, eq_comm, @eq_comm _ s]

theorem run_check_eq_ok [Decidable p] {u : Unit} :
    (check p e).run s = .ok (u, s') ↔ p ∧ s' = s := by
  change (if p then Except.ok ((), s) else Except.error e) = _ ↔ _
  split
  · next h => simp [h, eq_comm]
  · next h => simp [h]

theorem run_check [Decidable p] (e : ε) (h : p) (s : Bytes) :
    (check p e).run s = .ok ((), s) := if_pos h

theorem run_check_bind_of_not [Decidable p] (h : ¬ p) (next : Unit → Scanner ε β) :
    (check p e >>= next).run s = .error e := by
  have hcheck : (check p e).run s = .error e := if_neg h
  rw [StateT.run_bind, hcheck, error_bind]

theorem run_throw_ne_ok {r : α × Bytes} : (throw e : Scanner ε α).run s ≠ .ok r := by
  rw [StateT.run_throw, throw_eq_error]
  exact fun h => nomatch h

/-! ## Readers -/

variable {valid : α → Prop} {form : α → Bytes} {read : Scanner ε α} {next : α → Scanner ε β}

/-- **A reader of a format**: it accepts exactly what spells a valid value, and leaves the rest. -/
structure Parses (read : Scanner ε α) (valid : α → Prop) (form : α → Bytes) : Prop where
  complete : ∀ {a : α} (rest : Bytes), valid a → read.run (form a ++ rest) = .ok (a, rest)
  sound : ∀ {a : α} {input rest : Bytes}, read.run input = .ok (a, rest) →
    valid a ∧ input = form a ++ rest

variable {input rest : Bytes} {truncated : ε} {count : ℕ}

/-- **A reader of a format is followed by what goes on with the value it spelled.** -/
theorem Parses.bind_eq_ok (h : Parses read valid form) : (read >>= next).run input = .ok (b, rest)
      ↔ ∃ a mid, valid a ∧ input = form a ++ mid ∧ (next a).run mid = .ok (b, rest) := by
  rw [run_bind_eq_ok]
  constructor
  · rintro ⟨a, mid, hread, hnext⟩
    obtain ⟨hvalid, rfl⟩ := h.sound hread
    exact ⟨a, mid, hvalid, rfl, hnext⟩
  · rintro ⟨a, mid, hvalid, rfl, hnext⟩
    exact ⟨a, mid, h.complete mid hvalid, hnext⟩

theorem Parses.bind_complete (h : Parses read valid form) {a : α} (hvalid : valid a)
    (next : α → Scanner ε β) (rest : Bytes) :
    (read >>= next).run (form a ++ rest) = (next a).run rest :=
  run_bind_of_eq_ok (h.complete rest hvalid) next

theorem check_bind_eq_ok [Decidable p] {next : Unit → Scanner ε β} :
    (check p e >>= next).run input = .ok (b, rest) ↔ p ∧ (next ()).run input = .ok (b, rest) := by
  rw [run_bind_eq_ok]
  constructor
  · rintro ⟨u, mid, hcheck, hnext⟩
    obtain ⟨hp, rfl⟩ := run_check_eq_ok.mp hcheck
    exact ⟨hp, hnext⟩
  · rintro ⟨hp, hnext⟩
    exact ⟨(), input, run_check e hp input, hnext⟩

theorem check_bind_complete [Decidable p] (hp : p) (e : ε) (next : Unit → Scanner ε β)
    (input : Bytes) : (check p e >>= next).run input = (next ()).run input :=
  run_bind_of_eq_ok (run_check e hp input) next

theorem parses_take (count : ℕ) (truncated : ε) :
    Parses (take count truncated) (fun bytes => bytes.length = count) id where
  complete := by
    rintro bytes rest rfl
    simp [take, StateT.run]
  sound := by
    intro bytes input rest h
    change (if count ≤ input.length then Except.ok (input.take count, input.drop count)
      else Except.error truncated) = _ at h
    split at h
    · next hcount =>
      obtain ⟨rfl, rfl⟩ := by simpa using h
      exact ⟨length_take_of_le hcount, (take_append_drop count input).symm⟩
    · cases h

theorem take_bind_complete {bytes : Bytes} (h : bytes.length = count) (truncated : ε)
    (next : Bytes → Scanner ε β) (rest : Bytes) :
    (take count truncated >>= next).run (bytes ++ rest) = (next bytes).run rest :=
  (parses_take count truncated).bind_complete h next rest

theorem take_bind_sound {next : Bytes → Scanner ε β}
    (hrun : (take count truncated >>= next).run input = .ok (b, rest)) :
    ∃ bytes mid, bytes.length = count ∧ input = bytes ++ mid
        ∧ (next bytes).run mid = .ok (b, rest) :=
  (parses_take count truncated).bind_eq_ok.mp hrun

variable (h : Parses read valid form)
include h

/-- A reader that goes on by converting what it read, if it can be converted. -/
theorem Parses.convert (raw : β → α) (valid' : β → Prop)
    (hnext : ∀ a, valid a → ∀ b (rest rest' : Bytes),
      (next a).run rest = .ok (b, rest') ↔ raw b = a ∧ valid' b ∧ rest' = rest) :
    Parses (read >>= next) (fun b => valid (raw b) ∧ valid' b) (fun b => form (raw b)) where
  complete := by
    rintro b rest ⟨hvalid, hvalid'⟩
    rw [h.bind_complete hvalid, hnext _ hvalid]
    exact ⟨rfl, hvalid', rfl⟩
  sound := by
    intro b input rest hrun
    obtain ⟨a, mid, hvalid, rfl, hconvert⟩ := h.bind_eq_ok.mp hrun
    obtain ⟨rfl, hvalid', rfl⟩ := (hnext _ hvalid ..).mp hconvert
    exact ⟨⟨hvalid, hvalid'⟩, rfl⟩

theorem Parses.congr {valid' : α → Prop} {form' : α → Bytes}
    (hvalid : ∀ a, valid a ↔ valid' a) (hform : ∀ a, valid a → form a = form' a) :
    Parses read valid' form' where
  complete := fun {a} rest ha =>
    have hv := (hvalid a).mpr ha
    hform a hv ▸ h.complete rest hv
  sound := fun {a} _ _ hrun =>
    have ⟨hv, hinput⟩ := h.sound hrun
    ⟨(hvalid a).mp hv, hform a hv ▸ hinput⟩

/-- A reader that checks what it read, and converts it by a map with inverse `raw`. -/
theorem Parses.checked {p : α → Prop} [DecidablePred p]
    {result : α → β} (raw : β → α) (hres : ∀ a b, result a = b ↔ raw b = a) :
    Parses (do let a ← read; check (p a) e; return result a)
      (fun b => valid (raw b) ∧ p (raw b)) (fun b => form (raw b)) :=
  h.convert raw (fun b => p (raw b)) fun a _ b rest rest' => by
    constructor
    · intro hrun
      obtain ⟨hp, hpure⟩ := check_bind_eq_ok.mp hrun
      cases hpure
      have hraw := (hres a _).mp rfl
      exact ⟨hraw, hraw.symm ▸ hp, rfl⟩
    · rintro ⟨rfl, hp, rfl⟩
      rw [check_bind_complete hp, run_pure_eq_ok]
      exact ⟨((hres ..).mpr rfl).symm, rfl⟩

omit h

/-- A reader of numbers of `k` bytes. -/
theorem parses_le {ω : Type} {k : ℕ} {ofNat : ℕ → ω} {toNat : ω → ℕ}
    (hlt : ∀ w, toNat w < 256 ^ k) (hofNat : ∀ w, ofNat (toNat w) = w)
    (htoNat : ∀ n, n < 256 ^ k → toNat (ofNat n) = n) :
    Parses (do return ofNat (ofLeBytes (← take k truncated))) (fun _ => True)
      (fun w => leBytes k (toNat w)) := by
  refine ((parses_take k truncated).convert (fun w => leBytes k (toNat w)) (fun _ => True) ?_).congr
    (by simp) (fun _ _ => rfl)
  rintro bytes rfl w rest rest'
  rw [run_pure_eq_ok]
  have hbytes := ofLeBytes_lt bytes
  constructor
  · rintro ⟨rfl, rfl⟩
    exact ⟨by rw [htoNat _ hbytes, leBytes_ofLeBytes], trivial, rfl⟩
  · rintro ⟨hform, -, rfl⟩
    rw [← hform, ofLeBytes_leBytes (hlt w), hofNat]
    exact ⟨rfl, rfl⟩

/-- Read a number of values one after another. -/
def readEach (read : Scanner ε α) : ℕ → Scanner ε (List α)
  | 0 => pure []
  | count + 1 => do
    let a ← read
    let as ← readEach read count
    return a :: as

theorem parses_readEach (h : Parses read valid form) : ∀ count,
    Parses (readEach read count) (fun as => as.length = count ∧ ∀ a ∈ as, valid a)
      (fun as => as.flatMap form)
  | 0 => by
    refine ⟨?_, ?_⟩
    · rintro as rest ⟨hlen, -⟩
      obtain rfl := length_eq_zero_iff.mp hlen
      rfl
    · intro as input rest hrun
      cases hrun
      exact ⟨⟨rfl, by simp⟩, rfl⟩
  | count + 1 => by
    have ih := parses_readEach h count
    refine ⟨?_, ?_⟩
    · rintro (- | ⟨a, as⟩) rest ⟨hlen, hvalid⟩
      · cases hlen
      · have hfirst := hvalid a mem_cons_self
        have hrest : as.length = count ∧ ∀ a ∈ as, valid a :=
          ⟨by simpa using hlen, fun b hb => hvalid b (.tail _ hb)⟩
        rw [flatMap_cons, append_assoc, readEach, h.bind_complete hfirst, ih.bind_complete hrest]
        rfl
    · intro as input rest hrun
      obtain ⟨a, mid, hfirst, rfl, hreads⟩ := h.bind_eq_ok.mp hrun
      obtain ⟨as', mid', ⟨rfl, hrest⟩, rfl, hpure⟩ := ih.bind_eq_ok.mp hreads
      cases hpure
      refine ⟨⟨rfl, ?_⟩, by simp⟩
      simpa using ⟨hfirst, hrest⟩

/-! ## Writers -/

/-- **A writer of one value**: it succeeds only on a valid one, spells it and returns `a`; and it
does succeed as long as the bytes written stay within `limit`. -/
structure Prints (limit : ℕ) (write : Scanner ε α) (valid : Prop) (a : α) (form : Bytes) :
    Prop where
  sound : ∀ {b : α} {written written' : Bytes}, write.run written = .ok (b, written') →
    valid ∧ b = a ∧ written' = written ++ form
  complete : ∀ {written : Bytes}, valid → (written ++ form).length ≤ limit →
    write.run written = .ok (a, written ++ form)

variable {limit : ℕ} {write : Scanner ε α}

theorem prints_pure (a : α) : Prints limit (pure a : Scanner ε α) True a [] where
  sound := fun h => by
    cases h
    exact ⟨trivial, rfl, (append_nil _).symm⟩
  complete := fun _ _ => by rw [append_nil]; rfl

theorem prints_put (bytes : Bytes) : Prints limit (put bytes : Scanner ε Unit) True () bytes where
  sound := fun h => by
    cases Except.ok.inj h
    exact ⟨trivial, rfl, rfl⟩
  complete := fun _ _ => rfl

theorem prints_check (p : Prop) [Decidable p] (e : ε) : Prints limit (check p e) p () [] where
  sound := fun h => by
    obtain ⟨hp, rfl⟩ := run_check_eq_ok.mp h
    exact ⟨hp, rfl, (append_nil _).symm⟩
  complete := fun hp _ => by rw [append_nil, run_check e hp]

/-- A writer that refuses. -/
theorem prints_throw (e : ε) (a : α) (form : Bytes) :
    Prints limit (throw e : Scanner ε α) False a form where
  sound := fun h => absurd h run_throw_ne_ok
  complete := fun h => h.elim

/-- Writers compose: what is written is spelled one after another. -/
theorem Prints.bind {valid : Prop} {form : Bytes}
    (h : Prints limit write valid a form) {valid' : Prop} {form' : Bytes}
    (hnext : Prints limit (next a) valid' b form') :
    Prints limit (write >>= next) (valid ∧ valid') b (form ++ form') where
  sound := fun hrun => by
    obtain ⟨a', mid, hwrite, hrest⟩ := run_bind_eq_ok.mp hrun
    obtain ⟨hvalid, rfl, rfl⟩ := h.sound hwrite
    obtain ⟨hvalid', rfl, rfl⟩ := hnext.sound hrest
    exact ⟨⟨hvalid, hvalid'⟩, rfl, append_assoc _ _ _⟩
  complete := fun {written} ⟨hvalid, hvalid'⟩ hlen => by
    have hmid : (written ++ form).length ≤ limit := by
      simp only [length_append] at hlen ⊢
      omega
    rw [← append_assoc] at hlen ⊢
    rw [run_bind_of_eq_ok (h.complete hvalid hmid), hnext.complete hvalid' hlen]

theorem Prints.congr {valid valid' : Prop} {form form' : Bytes}
    (h : Prints limit write valid a form) (hvalid : valid ↔ valid') (hform : valid → form = form') :
    Prints limit write valid' a form' where
  sound := fun hrun =>
    have ⟨hv, ha, hwritten⟩ := h.sound hrun
    ⟨hvalid.mp hv, ha, hform hv ▸ hwritten⟩
  complete := fun hv' hlen =>
    have hv := hvalid.mpr hv'
    hform hv ▸ h.complete hv (hform hv ▸ hlen)

/-- Write values one after another. -/
def writeEach (write : α → Scanner ε Unit) : List α → Scanner ε Unit
  | [] => pure ()
  | a :: as => do
    write a
    writeEach write as

theorem prints_writeEach {write : α → Scanner ε Unit}
    (h : ∀ a, Prints limit (write a) (valid a) () (form a)) : ∀ as,
    Prints limit (writeEach write as) (∀ a ∈ as, valid a) () (as.flatMap form)
  | [] => (prints_pure ()).congr (by simp) fun _ => rfl
  | a :: as => ((h a).bind (prints_writeEach h as)).congr (by simp) fun _ => by simp

end Beryl.Wire
