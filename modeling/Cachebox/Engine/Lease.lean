import Cachebox.Engine.Mutation

/-!
# Exclusivity of leases

A granted lease lives in its own map, but `remove_entry` drops it together with the entry of its
key. So the lease of a key survives an operation that does not write, delete or release the key as
long as the operation does not remove a stored entry (`LeaseKept`). When the lease was granted on a
stale entry that disappears before the lease ends, a second caller is granted a lease too.
-/

namespace Cachebox

/-- Later readings are not smaller. -/
def Clock.NonDecreasing (c : Clock) : Prop := ∀ i j, i ≤ j → c.readings i ≤ c.readings j

def StartLeaseOutcome.isGranted : StartLeaseOutcome → Bool
  | .leaseGranted .. => true
  | _ => false

/-- The operation is neither a put, a deletion or a lease completion of `id` nor a tag invalidation
in its namespace. -/
def Op.Spares (id : EntryId) : Op → Prop
  | .put _ command => command.id ≠ id
  | .delete ns key => EntryId.mk ns key ≠ id
  | .completeLease _ command => command.id ≠ id
  | .invalidateTag _ ns _ => ns ≠ id.ns
  | _ => True

def Mutation.IsGrant : Mutation → Prop
  | .grantLease .. => True
  | _ => False

/-- The mutation neither stores an entry of `id` nor touches its lease directly. -/
def Mutation.Spares (id : EntryId) : Mutation → Prop
  | .store id' _ | .dropLease id' | .grantLease id' _ => id' ≠ id
  | _ => True

namespace Engine

variable {e e' e'' : Engine} {id : EntryId}

/-- The time of the latest operation: the last reading of the clock. -/
def lastReading (e : Engine) : UInt64 := e.clock.readings (e.clock.reads - 1)

/-- No entry of `id` has appeared, and its lease is as it was unless a stored entry is gone. -/
structure LeaseKept (id : EntryId) (e e' : Engine) : Prop where
  absent : e.entries.lookup id = none →
    e'.entries.lookup id = none ∧ e'.leases.lookup id = e.leases.lookup id
  stored : e'.entries.lookup id ≠ none → e'.leases.lookup id = e.leases.lookup id

theorem LeaseKept.refl (id : EntryId) (e : Engine) : LeaseKept id e e :=
  ⟨fun h => ⟨h, rfl⟩, fun _ => rfl⟩

theorem LeaseKept.trans (h : LeaseKept id e e') (h' : LeaseKept id e' e'') :
    LeaseKept id e e'' where
  absent hnone :=
    have ⟨hnone', hlease⟩ := h.absent hnone
    have ⟨hnone'', hlease'⟩ := h'.absent hnone'
    ⟨hnone'', hlease'.trans hlease⟩
  stored hsome :=
    (h'.stored hsome).trans (h.stored fun hnone => hsome (h'.absent hnone).1)

theorem LeaseKept.of_eq (hentry : (e'.entries.lookup id).isSome = (e.entries.lookup id).isSome)
    (hlease : e'.leases.lookup id = e.leases.lookup id) : LeaseKept id e e' := by
  refine ⟨fun hnone => ⟨?_, hlease⟩, fun _ => hlease⟩
  rw [hnone] at hentry
  exact Option.not_isSome_iff_eq_none.mp (by rw [hentry]; simp)

theorem recordAccess_leases (e : Engine) (id : EntryId) :
    (e.recordAccess id).leases = e.leases := by
  unfold recordAccess
  split <;> rfl

theorem recordAccess_isSome (e : Engine) (id id' : EntryId) :
    ((e.recordAccess id).entries.lookup id').isSome = (e.entries.lookup id').isSome := by
  unfold recordAccess
  split
  · rfl
  · next entry hl =>
    simp only [touch, HashMap.lookup_insert']
    split
    · next h => rw [h, hl]; rfl
    · rfl

theorem leaseKept_removeEntry (id : EntryId) (e : Engine) (id' : EntryId) :
    LeaseKept id e (e.removeEntry id').2 := by
  cases hl : e.entries.lookup id' with
  | none => rw [removeEntry_of_none hl]; exact .refl id e
  | some entry =>
    have hleases : (e.removeEntry id').2.leases.lookup id =
        if id = id' then none else e.leases.lookup id := by
      rw [← HashMap.lookup_erase']
      simp [removeEntry, hl]
    constructor <;> rw [removeEntry_entries, HashMap.lookup_erase', hleases]
    · intro hnone
      split
      · next h => rw [h, hl] at hnone; cases hnone
      · exact ⟨hnone, rfl⟩
    · intro hsome
      split
      · next h => exact absurd (if_pos h) hsome
      · rfl

theorem leaseKept_apply {m : Mutation} (hm : m.Spares id) (e : Engine) :
    LeaseKept id e (m.apply e) := by
  cases m with
  | remove id' => exact leaseKept_removeEntry id e id'
  | access id' =>
    exact .of_eq (recordAccess_isSome e id' id) (by rw [Mutation.apply, recordAccess_leases])
  | store id' entry =>
    refine .of_eq ?_ rfl
    simp only [Mutation.apply, storeEntry]
    rw [HashMap.lookup_insert', if_neg (Ne.symm hm)]
  | dropLease id' =>
    refine .of_eq rfl ?_
    simp only [Mutation.apply, dropLease]
    rw [HashMap.lookup_erase', if_neg (Ne.symm hm)]
  | grantLease id' leaseTtlMs =>
    refine .of_eq rfl ?_
    simp only [Mutation.apply, createLease]
    rw [HashMap.lookup_insert', if_neg (Ne.symm hm)]
  | tick | setExpiryIndex | hideTag | setStats => exact .of_eq rfl rfl

theorem Does.leaseKept {P : Mutation → Prop} (hP : ∀ m, P m → m.Spares id)
    (h : Does P e e') : LeaseKept id e e' :=
  h.rel (LeaseKept.refl id) LeaseKept.trans fun e m hm => leaseKept_apply (hP m hm) e

/-- An operation that spares the key and does not ask for its lease keeps it. -/
theorem leaseKept_exec {op : Op} (hspares : op.Spares id) (hgrants : ¬ op.Grants id) (e : Engine) :
    LeaseKept id e (e.exec op).2 := by
  refine (exec_does e op).leaseKept fun m hm => ?_
  cases m with
  | store id' entry =>
    rintro rfl
    cases op <;> first | exact hm | exact hspares hm
  | dropLease id' =>
    rintro rfl
    cases op <;> first | exact hm | exact hspares hm.symm
  | grantLease id' leaseTtlMs =>
    rintro rfl
    exact hgrants hm
  | tick | remove | access | setExpiryIndex | hideTag | setStats => trivial

/-! ## Asking for a lease -/

section
variable {ns : String} {key : Bytes} {leaseTtlMs : UInt64} {entry : Entry} {lease : Lease}

theorem entryStateAt_ne_missing (entry : Entry) (nowMs : UInt64) :
    entryStateAt entry nowMs ≠ .missing := by
  unfold entryStateAt
  repeat' split
  all_goals nofun

@[simp] theorem tick_entries (e : Engine) : e.tick.entries = e.entries := rfl

@[simp] theorem activeLease_entries (e : Engine) (id : EntryId) :
    (e.activeLease id).2.entries = e.entries := by
  unfold activeLease
  split <;> rfl

/-- The lookup of the key after its access stamp has been renewed. -/
theorem lookup_recordAccess_self (hl : e.entries.lookup id = some entry) :
    (e.recordAccess id).entries.lookup id = some { entry with lastAccess := e.nextAccess } := by
  simp [recordAccess, touch, hl]

theorem startLease_of_missing (hl : e.entries.lookup ⟨ns, key⟩ = none) :
    e.startLease ns key leaseTtlMs =
      (e.activeLease ⟨ns, key⟩).2.startLeaseForMissing ⟨ns, key⟩ leaseTtlMs := by
  simp [startLease, entryState, hl]

theorem startLease_of_fresh (hl : e.entries.lookup ⟨ns, key⟩ = some entry)
    (hstate : entryStateAt entry (e.activeLease ⟨ns, key⟩).2.clock.nowMs = .fresh) :
    e.startLease ns key leaseTtlMs =
      (.hit entry.value, (e.activeLease ⟨ns, key⟩).2.tick.recordAccess ⟨ns, key⟩) := by
  have hl' : (e.activeLease ⟨ns, key⟩).2.tick.entries.lookup ⟨ns, key⟩ = some entry := by
    rw [tick_entries, activeLease_entries, hl]
  simp [startLease, entryState, hl, hstate, lookup_recordAccess_self hl']

theorem startLease_of_stale (hl : e.entries.lookup ⟨ns, key⟩ = some entry)
    (hstate : entryStateAt entry (e.activeLease ⟨ns, key⟩).2.clock.nowMs = .stale) :
    e.startLease ns key leaseTtlMs =
      let e₁ := (e.activeLease ⟨ns, key⟩).2.tick.recordAccess ⟨ns, key⟩
      if (e.activeLease ⟨ns, key⟩).1.isSome then (.stale entry.value, e₁)
      else (.leaseGranted (e₁.createLease ⟨ns, key⟩ leaseTtlMs).1 (some entry.value),
        (e₁.createLease ⟨ns, key⟩ leaseTtlMs).2) := by
  have hl' : (e.activeLease ⟨ns, key⟩).2.tick.entries.lookup ⟨ns, key⟩ = some entry := by
    rw [tick_entries, activeLease_entries, hl]
  simp [startLease, entryState, hl, hstate, lookup_recordAccess_self hl']

theorem startLease_of_expired (hl : e.entries.lookup ⟨ns, key⟩ = some entry)
    (hstate : entryStateAt entry (e.activeLease ⟨ns, key⟩).2.clock.nowMs = .expired) :
    e.startLease ns key leaseTtlMs =
      let e₁ := (e.activeLease ⟨ns, key⟩).2.tick
      if (e.activeLease ⟨ns, key⟩).1.isSome then (.leaseDenied, e₁)
      else (e₁.removeEntry ⟨ns, key⟩).2.startLeaseForMissing ⟨ns, key⟩ leaseTtlMs := by
  simp [startLease, entryState, hl, hstate]

theorem startLeaseForMissing_eq (e : Engine) (id : EntryId) (leaseTtlMs : UInt64) :
    e.startLeaseForMissing id leaseTtlMs =
      let e₁ := (e.activeLease id).2
      if (e.activeLease id).1.isSome then (.leaseDenied, e₁)
      else (.leaseGranted (e₁.createLease id leaseTtlMs).1 none,
        (e₁.createLease id leaseTtlMs).2) := by
  unfold startLeaseForMissing
  split <;> simp [*]

theorem startLeaseForMissing_entries (e : Engine) (id : EntryId) (leaseTtlMs : UInt64) :
    (e.startLeaseForMissing id leaseTtlMs).2.entries = e.entries := by
  rw [startLeaseForMissing_eq, ← activeLease_entries e id]
  dsimp only
  split <;> rfl

theorem activeLease_of_some (hlease : e.leases.lookup id = some lease) :
    e.activeLease id =
      (if e.clock.nowMs ≤ lease.expiresAtMs then some lease else none, e.tick) := by
  simp [activeLease, hlease]

theorem activeLease_of_le (hlease : e.leases.lookup id = some lease)
    (h : e.clock.nowMs ≤ lease.expiresAtMs) : e.activeLease id = (some lease, e.tick) := by
  rw [activeLease_of_some hlease, if_pos h]

theorem startLease_of_missing_free (hl : e.entries.lookup ⟨ns, key⟩ = none)
    (hlease : e.leases.lookup ⟨ns, key⟩ = none) :
    e.startLease ns key leaseTtlMs =
      (.leaseGranted (e.createLease ⟨ns, key⟩ leaseTtlMs).1 none,
        (e.createLease ⟨ns, key⟩ leaseTtlMs).2) := by
  have hnone : e.activeLease ⟨ns, key⟩ = (none, e) := by simp [activeLease, hlease]
  rw [startLease_of_missing hl, hnone, startLeaseForMissing_eq, hnone]
  rfl

/-- The source looks for an active lease twice when the key is missing. -/
theorem startLease_of_missing_leased (hl : e.entries.lookup ⟨ns, key⟩ = none)
    (hlease : e.leases.lookup ⟨ns, key⟩ = some lease)
    (hfirst : e.clock.nowMs ≤ lease.expiresAtMs)
    (hsecond : e.tick.clock.nowMs ≤ lease.expiresAtMs) :
    e.startLease ns key leaseTtlMs = (.leaseDenied, e.tick.tick) := by
  have hlease' : e.tick.leases.lookup ⟨ns, key⟩ = some lease := hlease
  rw [startLease_of_missing hl, activeLease_of_le hlease hfirst, startLeaseForMissing_eq,
    activeLease_of_le hlease' hsecond]
  rfl

/-- A lease completion that finds a lease: the lease has ended, its token is another one, or the
lease is given up for a put. -/
theorem completeLease_of_some {o : IterOrder} {command : CompleteLeaseCommand}
    (hlease : e.leases.lookup command.id = some lease) :
    e.completeLease o command =
      if e.clock.nowMs ≤ lease.expiresAtMs then
        if lease.token = command.leaseToken then
          ((e.tick.dropLease command.id).put o command.toPut).map (Except.mapError .put) fun e => e
        else (.error .invalidLeaseToken, e.tick)
      else (.error .invalidLeaseToken, e.tick.dropLease command.id) := by
  unfold completeLease
  rw [activeLease_of_some hlease]
  split_ifs with htime htoken
  · exact if_neg (not_not.mpr htoken)
  · exact if_pos htoken
  · rfl

theorem later_startLeaseForMissing (e : Engine) (id : EntryId) (leaseTtlMs : UInt64) :
    e.Later (e.startLeaseForMissing id leaseTtlMs).2 :=
  (Does.startLeaseForMissing (P := fun _ => True) trivial trivial e).later

/-- A call that finds a lease reads the clock at least twice. -/
theorem reads_startLease (hlease : e.leases.lookup ⟨ns, key⟩ = some lease) (leaseTtlMs : UInt64) :
    e.clock.reads + 2 ≤ (e.startLease ns key leaseTtlMs).2.clock.reads := by
  have hsnd : (e.activeLease ⟨ns, key⟩).2 = e.tick := by rw [activeLease_of_some hlease]
  have haccess := later_apply e.tick.tick (.access ⟨ns, key⟩)
  suffices h : e.tick.tick.Later (e.startLease ns key leaseTtlMs).2 from h.reads
  cases hl : e.entries.lookup ⟨ns, key⟩ with
  | none =>
    have hlease' : e.tick.leases.lookup ⟨ns, key⟩ = some lease := hlease
    rw [startLease_of_missing hl, hsnd, startLeaseForMissing_eq, activeLease_of_some hlease']
    dsimp only
    split
    · exact .refl _
    · exact later_apply _ (.grantLease _ _)
  | some entry =>
    cases hstate : entryStateAt entry (e.activeLease ⟨ns, key⟩).2.clock.nowMs with
    | missing => exact absurd hstate (entryStateAt_ne_missing _ _)
    | fresh =>
      rw [startLease_of_fresh hl hstate, hsnd]
      exact haccess
    | stale =>
      rw [startLease_of_stale hl hstate, hsnd]
      dsimp only
      split
      · exact haccess
      · exact haccess.trans (later_apply _ (.grantLease _ _))
    | expired =>
      rw [startLease_of_expired hl hstate, hsnd]
      dsimp only
      split
      · exact .refl _
      · exact (later_apply _ (.remove _)).trans (later_startLeaseForMissing _ _ _)

/-- While the lease of the key is active, another caller is not granted one, and neither the lease
nor the presence of an entry changes. -/
theorem startLease_of_active (hlease : e.leases.lookup ⟨ns, key⟩ = some lease)
    (hactive : ∀ i, i < (e.startLease ns key leaseTtlMs).2.clock.reads →
      e.clock.readings i ≤ lease.expiresAtMs) :
    (e.startLease ns key leaseTtlMs).1.isGranted = false ∧
      LeaseKept ⟨ns, key⟩ e (e.startLease ns key leaseTtlMs).2 := by
  have hreads := reads_startLease hlease leaseTtlMs
  have hnow := hactive e.clock.reads (by omega)
  have hfirst := activeLease_of_le hlease hnow
  have haccess : LeaseKept ⟨ns, key⟩ e (e.tick.tick.recordAccess ⟨ns, key⟩) :=
    .of_eq (recordAccess_isSome _ _ _) (by rw [recordAccess_leases]; rfl)
  cases hl : e.entries.lookup ⟨ns, key⟩ with
  | none =>
    rw [startLease_of_missing_leased hl hlease hnow (hactive (e.clock.reads + 1) (by omega))]
    exact ⟨rfl, .of_eq rfl rfl⟩
  | some entry =>
    cases hstate : entryStateAt entry (e.activeLease ⟨ns, key⟩).2.clock.nowMs with
    | missing => exact absurd hstate (entryStateAt_ne_missing _ _)
    | fresh =>
      rw [startLease_of_fresh hl hstate, hfirst]
      exact ⟨rfl, haccess⟩
    | stale =>
      rw [startLease_of_stale hl hstate, hfirst]
      exact ⟨rfl, haccess⟩
    | expired =>
      rw [startLease_of_expired hl hstate, hfirst]
      exact ⟨rfl, .of_eq rfl rfl⟩

/-- What asking for a lease amounts to: some mutations without a grant, and possibly a grant as the
last one. -/
inductive Asks (id : EntryId) (leaseTtlMs : UInt64) (e : Engine) : StartLeaseOutcome × Engine → Prop
  | refused {outcome e₀} : outcome.isGranted = false → Does (¬ ·.IsGrant) e e₀ →
      Asks id leaseTtlMs e (outcome, e₀)
  | granted {e₀} (staleValue) : Does (¬ ·.IsGrant) e e₀ →
      Asks id leaseTtlMs e (.leaseGranted (e₀.createLease id leaseTtlMs).1 staleValue,
        (e₀.createLease id leaseTtlMs).2)

theorem Asks.of_does {result : StartLeaseOutcome × Engine} (hdoes : Does (¬ ·.IsGrant) e e')
    (h : Asks id leaseTtlMs e' result) : Asks id leaseTtlMs e result := by
  cases h with
  | refused hno h => exact .refused hno (hdoes.trans h)
  | granted staleValue h => exact .granted staleValue (hdoes.trans h)

theorem asks_startLeaseForMissing (e : Engine) (id : EntryId) (leaseTtlMs : UInt64) :
    Asks id leaseTtlMs e (e.startLeaseForMissing id leaseTtlMs) := by
  have hactive : Does (¬ ·.IsGrant) e (e.activeLease id).2 := .activeLease not_false id e
  rw [startLeaseForMissing_eq]
  dsimp only
  split
  · exact .refused rfl hactive
  · exact .granted none hactive

theorem asks_startLease (e : Engine) (ns : String) (key : Bytes) (leaseTtlMs : UInt64) :
    Asks ⟨ns, key⟩ leaseTtlMs e (e.startLease ns key leaseTtlMs) := by
  have hactive : Does (¬ ·.IsGrant) e (e.activeLease ⟨ns, key⟩).2 := .activeLease not_false _ e
  have htick : Does (¬ ·.IsGrant) e (e.activeLease ⟨ns, key⟩).2.tick :=
    hactive.step (m := .tick) not_false
  cases hl : e.entries.lookup ⟨ns, key⟩ with
  | none =>
    rw [startLease_of_missing hl]
    exact .of_does hactive (asks_startLeaseForMissing ..)
  | some entry =>
    cases hstate : entryStateAt entry (e.activeLease ⟨ns, key⟩).2.clock.nowMs with
    | missing => exact absurd hstate (entryStateAt_ne_missing _ _)
    | fresh =>
      rw [startLease_of_fresh hl hstate]
      exact .refused rfl (htick.step (m := .access _) not_false)
    | stale =>
      rw [startLease_of_stale hl hstate]
      dsimp only
      split
      · exact .refused rfl (htick.step (m := .access _) not_false)
      · exact .granted _ (htick.step (m := .access _) not_false)
    | expired =>
      rw [startLease_of_expired hl hstate]
      dsimp only
      split
      · exact .refused rfl htick
      · exact .of_does (htick.step (m := .remove _) not_false) (asks_startLeaseForMissing ..)

/-- A lease that has been granted is the last thing the call created. -/
theorem startLease_granted (h : (e.startLease ns key leaseTtlMs).1.isGranted) :
    ∃ e₀ : Engine, e.Later e₀ ∧
      (e.startLease ns key leaseTtlMs).2 = (e₀.createLease ⟨ns, key⟩ leaseTtlMs).2 := by
  generalize hresult : e.startLease ns key leaseTtlMs = result at h ⊢
  cases hresult ▸ asks_startLease e ns key leaseTtlMs with
  | refused hno _ => rw [hno] at h; cases h
  | granted staleValue hdoes => exact ⟨_, hdoes.later, rfl⟩

end

/-! ## Runs -/

/-- An operation that spares the key keeps its lease, provided the lease is active at every reading
the operation makes. -/
theorem leaseKept_exec_of_active {op : Op} {lease : Lease} (hspares : op.Spares id)
    (hlease : e.leases.lookup id = some lease)
    (hactive : ∀ i, i < (e.exec op).2.clock.reads → e.clock.readings i ≤ lease.expiresAtMs) :
    LeaseKept id e (e.exec op).2 := by
  by_cases hgrants : op.Grants id
  · cases op with
    | startLease ns key leaseTtlMs =>
      cases hgrants
      exact (startLease_of_active hlease hactive).2
    | _ => exact hgrants.elim
  · exact leaseKept_exec hspares hgrants e

/-- No operation that spares the key stores an entry for it. -/
theorem lookup_exec_of_absent {op : Op} (hspares : op.Spares id)
    (hnone : e.entries.lookup id = none) : (e.exec op).2.entries.lookup id = none := by
  refine (exec_does e op).rel (R := fun e e' =>
      e.entries.lookup id = none → e'.entries.lookup id = none)
    (fun _ h => h) (fun h h' => h' ∘ h) (fun e m hm hnone => ?_) hnone
  cases m with
  | remove id' => exact ((leaseKept_removeEntry id e id').absent hnone).1
  | access id' =>
    have hsome := recordAccess_isSome e id' id
    rw [hnone] at hsome
    exact Option.not_isSome_iff_eq_none.mp (by rw [Mutation.apply, hsome]; simp)
  | store id' entry =>
    have hne : id' ≠ id := by
      rintro rfl
      cases op <;> first | exact hm | exact hspares hm
    exact ((leaseKept_apply (m := .store id' entry) hne e).absent hnone).1
  | tick | dropLease | grantLease | setExpiryIndex | hideTag | setStats => exact hnone

theorem lookup_run_of_absent {ops : List Op} (hops : ∀ op ∈ ops, op.Spares id)
    (hnone : e.entries.lookup id = none) : (e.run ops).entries.lookup id = none := by
  have hstep : ∀ (e : Engine) op, op.Spares id → e.entries.lookup id = none →
      (e.exec op).2.entries.lookup id = none := fun _ _ => lookup_exec_of_absent
  exact Machine.run_invariant_of hstep hnone hops

/-- The lease of the key survives a run of operations that spare the key, if no entry was stored
for it at the start or one is still stored at the end. -/
theorem lookup_leases_run {lease : Lease} {ops : List Op} (hops : ∀ op ∈ ops, op.Spares id)
    (hlease : e.leases.lookup id = some lease)
    (hactive : ∀ i, i < (e.run ops).clock.reads → e.clock.readings i ≤ lease.expiresAtMs)
    (hkept : e.entries.lookup id = none ∨ (e.run ops).entries.lookup id ≠ none) :
    (e.run ops).leases.lookup id = some lease := by
  induction ops generalizing e with
  | nil => exact hlease
  | cons op ops ih =>
    rw [List.forall_mem_cons] at hops
    have hlater := later_exec e op
    have hrest := later_run (e.exec op).2 ops
    have hk := leaseKept_exec_of_active hops.1 hlease
      fun i hi => hactive i (Nat.lt_of_lt_of_le hi hrest.reads)
    refine ih hops.2 ?_ (fun i hi => ?_) ?_
    · rcases hkept with hnone | hsome
      · rw [(hk.absent hnone).2, hlease]
      · have hstored : (e.exec op).2.entries.lookup id ≠ none :=
          fun h => hsome (lookup_run_of_absent (e := (e.exec op).2) hops.2 h)
        rw [hk.stored hstored, hlease]
    · rw [hlater.readings]
      exact hactive i hi
    · exact hkept.imp_left fun hnone => (hk.absent hnone).1

/-- The lease granted by a first call protects the key in a second one: the second call is not
granted a lease when it is made by the end of the first lease and the operations in between spare
the key. -/
def LeaseExclusive (clock : Clock) (limits : EngineLimits) (pre mid : List Op) (ns : String)
    (key : Bytes) (leaseTtlMs leaseTtlMs' : UInt64) : Prop :=
  let e₁ := (withClockAndLimits clock limits).run pre
  let e₂ := (e₁.startLease ns key leaseTtlMs).2
  let e₃ := e₂.run mid
  let e₄ := (e₃.startLease ns key leaseTtlMs').2
  clock.NonDecreasing → (e₁.startLease ns key leaseTtlMs).1.isGranted →
    (∀ op ∈ mid, op.Spares ⟨ns, key⟩) →
    e₄.lastReading.toNat ≤ e₂.lastReading.toNat + leaseTtlMs.toNat →
    (e₃.startLease ns key leaseTtlMs').1.isGranted = false

/-- **Exclusivity of leases**, when the lease is granted without leaving an entry stored, or the
stale entry it is granted on is still stored at the second call. -/
theorem leaseExclusive_of_entry_kept (clock : Clock) (limits : EngineLimits) (pre mid : List Op)
    (ns : String) (key : Bytes) (leaseTtlMs leaseTtlMs' : UInt64)
    (hkept :
      let e₂ := (((withClockAndLimits clock limits).run pre).startLease ns key leaseTtlMs).2
      e₂.entries.lookup ⟨ns, key⟩ = none ∨ (e₂.run mid).entries.lookup ⟨ns, key⟩ ≠ none) :
    LeaseExclusive clock limits pre mid ns key leaseTtlMs leaseTtlMs' := by
  unfold LeaseExclusive
  intro e₁ e₂ e₃ e₄ hclock hgranted hmid htime
  have h₁ : e₁.clock.readings = clock.readings := (later_run _ pre).readings
  have h₂ : e₁.Later e₂ := later_exec e₁ (.startLease ns key leaseTtlMs)
  have h₃ : e₂.Later e₃ := later_run e₂ mid
  have h₄ : e₃.Later e₄ := later_exec e₃ (.startLease ns key leaseTtlMs')
  have hr₂ : e₂.clock.readings = clock.readings := h₂.readings.trans h₁
  have hr₃ : e₃.clock.readings = clock.readings := h₃.readings.trans hr₂
  have hr₄ : e₄.clock.readings = clock.readings := h₄.readings.trans hr₃
  -- every reading up to the second call is at most the deadline of the lease
  have hlease : ∃ lease : Lease, e₂.leases.lookup ⟨ns, key⟩ = some lease ∧
      ∀ i, i < e₄.clock.reads → clock.readings i ≤ lease.expiresAtMs := by
    obtain ⟨e₀, -, hcreated⟩ := startLease_granted hgranted
    have hlast : e₀.clock.nowMs = e₂.lastReading := by
      rw [show e₂ = _ from hcreated]
      rfl
    refine ⟨⟨(e₀.createLease ⟨ns, key⟩ leaseTtlMs).1,
      e₀.clock.nowMs.saturatingAdd leaseTtlMs⟩, ?_, fun i hi => ?_⟩
    · rw [show e₂ = _ from hcreated, createLease]
      exact AList.lookup_insert _
    · have hi' : clock.readings i ≤ e₄.lastReading := by
        rw [lastReading, hr₄]
        exact hclock i _ (Nat.le_sub_one_of_lt hi)
      have hmax := UInt64.toNat_le_maxNat (clock.readings i)
      rw [UInt64.le_iff_toNat_le] at hi' ⊢
      rw [UInt64.toNat_saturatingAdd, hlast]
      omega
  obtain ⟨lease, hlookup, hactive⟩ := hlease
  have hlookup₃ : e₃.leases.lookup ⟨ns, key⟩ = some lease := by
    refine lookup_leases_run hmid hlookup (fun i hi => ?_) hkept
    rw [hr₂]
    exact hactive i (Nat.lt_of_lt_of_le hi h₄.reads)
  refine (startLease_of_active hlookup₃ fun i hi => ?_).1
  rw [hr₃]
  exact hactive i hi

/-- A lease on a missing key outlives a read of the key. -/
theorem leaseExclusive_missing_key :
    LeaseExclusive ⟨fun _ => 5, 0⟩ default [] [.get "app" [107]] "app" [107] 100 100 ∧
      ((((withClockAndLimits ⟨fun _ => 5, 0⟩ default).startLease "app" [107] 100).2.run
        [.get "app" [107]]).startLease "app" [107] 100).1.isGranted = false := by
  have h := leaseExclusive_of_entry_kept ⟨fun _ => 5, 0⟩ default [] [.get "app" [107]] "app" [107]
    100 100 (.inl (by decide +kernel))
  refine ⟨h, h ?_ (by decide +kernel) ?_ (by decide +kernel)⟩
  · intro i j _
    exact UInt64.le_refl _
  · intro op hop
    cases List.mem_singleton.mp hop
    trivial

/-- A clock that reads 0, then 11 twice, then 22. -/
def staleClock : Clock := ⟨fun i => if i < 1 then 0 else if i < 3 then 11 else 22, 0⟩

theorem staleClock_nonDecreasing : staleClock.NonDecreasing := by
  intro i j h
  simp only [staleClock]
  split_ifs <;> first | decide | omega

/-- The stale entry of the key, with a fresh window up to 10 and a stale one up to 20. -/
def stalePut : PutCommand :=
  { ns := "app", key := [107], value := [118], ttl := some ⟨10⟩, staleTtl := some ⟨10⟩, tags := []
    cost := none }

/-- The lease granted at 11 for 100 ms is lost when a read at 22 lazily removes the expired entry:
the next caller is granted a second lease at 22. -/
theorem not_leaseExclusive_after_get :
    ¬ LeaseExclusive staleClock default [.put .asStored stalePut] [.get "app" [107]] "app" [107]
      100 100 := by
  intro h
  have hgranted := h staleClock_nonDecreasing (by decide +kernel) (fun op hop => by
    cases List.mem_singleton.mp hop
    trivial) (by decide +kernel)
  revert hgranted
  decide +kernel

end Engine
end Cachebox
