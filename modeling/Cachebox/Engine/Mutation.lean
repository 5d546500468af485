import Cachebox.Engine.Step

/-!
# What an operation can do to the engine

Every operation is a sequence of a few primitive mutations, and which mutations it may perform
depends on its arguments (`Op.Allows`). `exec_does` says this once for all operations; a fact about
all operations then needs one case per mutation (`Does.rel`), not one per branch of the source.
-/

namespace Cachebox

/-- The primitive updates of an engine. -/
inductive Mutation where
  | tick
  | remove (id : EntryId)
  | access (id : EntryId)
  | store (id : EntryId) (entry : Entry)
  | dropLease (id : EntryId)
  | grantLease (id : EntryId) (leaseTtlMs : UInt64)
  | setExpiryIndex (index : Finset ExpiryKey)
  | hideTag (tagId : TagId)
  | setStats (stats : EngineStats)

def Mutation.apply (e : Engine) : Mutation → Engine
  | .tick => e.tick
  | .remove id => (e.removeEntry id).2
  | .access id => e.recordAccess id
  | .store id entry => e.storeEntry id entry
  | .dropLease id => e.dropLease id
  | .grantLease id leaseTtlMs => (e.createLease id leaseTtlMs).2
  | .setExpiryIndex index => { e with expiryIndex := index }
  | .hideTag tagId => { e with tagIndex := e.tagIndex.erase tagId }
  | .setStats stats => { e with stats := stats }

/-- The operation writes an entry for `id`, if it succeeds. -/
def Op.Writes (id : EntryId) : Op → Prop
  | .put _ command => command.id = id
  | .completeLease _ command => command.id = id
  | _ => False

/-- The operation reads the key of `id`. -/
def Op.Reads (id : EntryId) : Op → Prop
  | .get ns key | .getRef ns key | .getRefWithoutAccessUpdate ns key => id = ⟨ns, key⟩
  | .batchGet ns keys => id.ns = ns ∧ id.key ∈ keys
  | .startLease ns key _ => id = ⟨ns, key⟩
  | _ => False

/-- The operation releases the lease of `id`, whether or not an entry is stored. -/
def Op.Releases (id : EntryId) : Op → Prop
  | .delete ns key => id = ⟨ns, key⟩
  | .completeLease _ command => id = command.id
  | _ => False

def Op.Grants (id : EntryId) : Op → Prop
  | .startLease ns key _ => id = ⟨ns, key⟩
  | _ => False

/-- The mutations an operation may perform. -/
def Op.Allows (op : Op) : Mutation → Prop
  | .access id => op.Reads id
  | .store id _ => op.Writes id
  | .dropLease id => op.Releases id
  | .grantLease id _ => op.Grants id
  | .tick | .remove _ | .setExpiryIndex _ | .hideTag _ | .setStats _ => True

namespace Engine

/-- `e'` arises from `e` by mutations that satisfy `P`. -/
inductive Does (P : Mutation → Prop) : Engine → Engine → Prop
  | refl : Does P e e
  | step : Does P e e' → P m → Does P e (m.apply e')

variable {e e' e'' : Engine} {id : EntryId} {P : Mutation → Prop}

theorem Does.single {m : Mutation} (h : P m) : Does P e (m.apply e) := .step .refl h

theorem Does.trans (h : Does P e e') (h' : Does P e' e'') : Does P e e'' := by
  induction h' with
  | refl => exact h
  | step _ hok ih => exact ih.step hok

theorem Does.mono {Q : Mutation → Prop} (h : Does P e e') (hPQ : ∀ m, P m → Q m) :
    Does Q e e' := by
  induction h with
  | refl => exact .refl
  | step _ hok ih => exact ih.step (hPQ _ hok)

/-- A preorder that contains the allowed mutations contains every sequence of them. -/
theorem Does.rel {R : Engine → Engine → Prop} (h : Does P e e') (hrefl : ∀ e, R e e)
    (htrans : ∀ {e e' e''}, R e e' → R e' e'' → R e e'')
    (hmutation : ∀ e m, P m → R e (m.apply e)) : R e e' := by
  induction h with
  | refl => exact hrefl _
  | step _ hok ih => exact htrans ih (hmutation _ _ hok)

theorem Does.removeEach {f : Engine → Engine} (hf : StatsOnly f) (hremove : ∀ id, P (.remove id))
    (hstats : ∀ stats, P (.setStats stats)) (e : Engine) (ids : List EntryId) :
    Does P e (removeEach f e ids).2 := by
  refine removeEach_invariant (I := Does P e) (fun e' h => ?_) (fun e' id h => ?_) .refl ids
  · rw [hf.eq]
    exact h.step (hstats (f e').stats)
  · exact h.step (hremove id)

theorem Does.removeExpired (htick : P .tick) (hremove : ∀ id, P (.remove id))
    (hindex : ∀ index, P (.setExpiryIndex index)) (hstats : ∀ stats, P (.setStats stats))
    (e : Engine) (maxEntries : Nat) : Does P e (e.removeExpired maxEntries).2 :=
  ((Does.single htick).step (hindex _)).trans
    (.removeEach statsOnly_countExpiration hremove hstats _ _)

/-- Once the old entry of the key is gone, `put` goes on with reclamation. -/
theorem Does.dropAndReclaim (htick : P .tick) (hremove : ∀ id, P (.remove id))
    (hindex : ∀ index, P (.setExpiryIndex index)) (hstats : ∀ stats, P (.setStats stats))
    (e : Engine) (id : EntryId) (entryMemoryBytes : Nat) :
    Does P (e.removeEntry id).2 (e.dropAndReclaim id entryMemoryBytes) := by
  unfold Engine.dropAndReclaim
  dsimp only
  split
  · exact .removeExpired htick hremove hindex hstats _ _
  · exact .refl

theorem Does.evictUntilFits (hremove : ∀ id, P (.remove id))
    (hstats : ∀ stats, P (.setStats stats)) (o : IterOrder) (e : Engine) (incomingBytes : Nat) :
    Does P e (evictUntilFits o e incomingBytes).2 := by
  refine evictUntilFits_invariant (I := Does P e) (fun e' id h => ?_) o .refl incomingBytes
  exact (h.step (hremove id)).step (hstats _)

theorem Does.makeRoom (htick : P .tick) (hremove : ∀ id, P (.remove id))
    (hindex : ∀ index, P (.setExpiryIndex index)) (hstats : ∀ stats, P (.setStats stats))
    (o : IterOrder) (e : Engine) (id : EntryId) (entryMemoryBytes : Nat) :
    Does P (e.removeEntry id).2 (makeRoom o e id entryMemoryBytes).2 :=
  (Does.dropAndReclaim htick hremove hindex hstats e id entryMemoryBytes).trans
    (.evictUntilFits hremove hstats o _ _)

theorem Does.put (htick : P .tick) (hremove : ∀ id, P (.remove id))
    (hindex : ∀ index, P (.setExpiryIndex index)) (hstats : ∀ stats, P (.setStats stats))
    (o : IterOrder) (command : PutCommand) (hstore : ∀ entry, P (.store command.id entry))
    (e : Engine) : Does P e (e.put o command).2 := by
  unfold Engine.put
  split
  · exact .refl
  · dsimp only
    split
    · exact .single htick
    · have hroom : Does P e (Engine.makeRoom o e.tick command.id
          (estimateEntryMemory command.id command.value command.tags)).2 :=
        ((Does.single htick).step (hremove command.id)).trans
          (.makeRoom htick hremove hindex hstats o _ _ _)
      split
      · exact hroom
      · exact hroom.step (hstore _)

theorem touch_eq_recordAccess {entry : Entry} (h : e.entries.lookup id = some entry) :
    e.touch id entry = e.recordAccess id := by
  simp [recordAccess, h]

theorem Does.getRefInner {R : Type} (htick : P .tick) (ns : String) (key : Bytes)
    (hremove : P (.remove ⟨ns, key⟩)) (haccess : P (.access ⟨ns, key⟩)) (updateAccess : Bool)
    (map : GetOutcomeRef → R) (e : Engine) :
    Does P e (e.getRefInner ns key updateAccess map).2 := by
  have ht : Does P e e.tick := .single htick
  unfold Engine.getRefInner
  dsimp only
  split
  · exact ht
  · next entry hl =>
    have htouched : Does P e
        (if updateAccess then e.tick.touch ⟨ns, key⟩ entry else e.tick) := by
      split
      · rw [touch_eq_recordAccess hl]
        exact ht.step haccess
      · exact ht
    split
    · exact ht
    · exact ht.step hremove
    · exact htouched
    · exact htouched

theorem Does.get (htick : P .tick) (ns : String) (key : Bytes) (hremove : P (.remove ⟨ns, key⟩))
    (haccess : P (.access ⟨ns, key⟩)) (e : Engine) : Does P e (e.get ns key).2 :=
  .getRefInner htick ns key hremove haccess true _ e

theorem Does.batchGet (htick : P .tick) (ns : String) (keys : List Bytes)
    (hremove : ∀ id, P (.remove id)) (haccess : ∀ key ∈ keys, P (.access ⟨ns, key⟩))
    (e : Engine) : Does P e (e.batchGet ns keys).2 := by
  induction keys generalizing e with
  | nil => exact .refl
  | cons key keys ih =>
    rw [List.forall_mem_cons] at haccess
    exact (Does.get htick ns key (hremove _) haccess.1 e).trans (ih haccess.2 (e.get ns key).2)

theorem Does.activeLease (htick : P .tick) (id : EntryId) (e : Engine) :
    Does P e (e.activeLease id).2 := by
  unfold Engine.activeLease
  split
  · exact .refl
  · exact .single htick

theorem Does.entryState (htick : P .tick) (id : EntryId) (e : Engine) :
    Does P e (e.entryState id).2 := by
  unfold Engine.entryState
  split
  · exact .refl
  · exact .single htick

theorem Does.startLeaseForMissing (htick : P .tick) {id : EntryId} {leaseTtlMs : UInt64}
    (hgrant : P (.grantLease id leaseTtlMs)) (e : Engine) :
    Does P e (e.startLeaseForMissing id leaseTtlMs).2 := by
  have hactive := Does.activeLease htick id e
  unfold Engine.startLeaseForMissing
  split
  · next heq => rw [heq] at hactive; exact hactive
  · next heq => rw [heq] at hactive; exact hactive.step hgrant

theorem Does.startLease (htick : P .tick) {ns : String} {key : Bytes} {leaseTtlMs : UInt64}
    (hremove : P (.remove ⟨ns, key⟩)) (haccess : P (.access ⟨ns, key⟩))
    (hgrant : P (.grantLease ⟨ns, key⟩ leaseTtlMs)) (e : Engine) :
    Does P e (e.startLease ns key leaseTtlMs).2 := by
  have hstate := (Does.activeLease htick ⟨ns, key⟩ e).trans (.entryState htick ⟨ns, key⟩ _)
  unfold Engine.startLease
  dsimp only
  split
  · next heq =>
    rw [heq] at hstate
    split
    · exact hstate.step haccess
    · exact (hstate.step haccess).step hgrant
  · next heq =>
    rw [heq] at hstate
    split
    · exact hstate.step haccess
    · exact (hstate.step haccess).step hgrant
  · next heq =>
    rw [heq] at hstate
    split
    · exact hstate
    · exact (hstate.step hremove).trans (.startLeaseForMissing htick hgrant _)
  · next heq =>
    rw [heq] at hstate
    exact hstate.trans (.startLeaseForMissing htick hgrant _)

theorem Does.completeLease (htick : P .tick) (hremove : ∀ id, P (.remove id))
    (hindex : ∀ index, P (.setExpiryIndex index)) (hstats : ∀ stats, P (.setStats stats))
    (o : IterOrder) (command : CompleteLeaseCommand) (hdrop : P (.dropLease command.id))
    (hstore : ∀ entry, P (.store command.id entry)) (e : Engine) :
    Does P e (e.completeLease o command).2 := by
  have hactive := Does.activeLease htick command.id e
  unfold Engine.completeLease
  split
  · next heq => rw [heq] at hactive; exact hactive.step hdrop
  · next heq =>
    rw [heq] at hactive
    split
    · exact hactive
    · exact (hactive.step hdrop).trans
        (.put htick hremove hindex hstats o command.toPut hstore _)

/-- **What an operation can do**: a sequence of the mutations its arguments allow. -/
theorem exec_does (e : Engine) (op : Op) : Does op.Allows e (e.exec op).2 := by
  have htick : op.Allows .tick := trivial
  have hremove : ∀ id, op.Allows (.remove id) := fun _ => trivial
  have hindex : ∀ index, op.Allows (.setExpiryIndex index) := fun _ => trivial
  have hstats : ∀ stats, op.Allows (.setStats stats) := fun _ => trivial
  cases op with
  | put o command => exact .put htick hremove hindex hstats o command (fun _ => rfl) e
  | get ns key => exact .get htick ns key (hremove _) rfl e
  | getRef ns key => exact .getRefInner htick ns key (hremove _) rfl true id e
  | getRefWithoutAccessUpdate ns key => exact .getRefInner htick ns key (hremove _) rfl false id e
  | batchGet ns keys => exact .batchGet htick ns keys hremove (fun key h => ⟨rfl, h⟩) e
  | delete ns key =>
    have hdrop : (Op.delete ns key).Allows (.dropLease ⟨ns, key⟩) := rfl
    exact (Does.single hdrop).step (hremove ⟨ns, key⟩)
  | invalidateTag o ns tag =>
    have hhide : (Op.invalidateTag o ns tag).Allows (.hideTag ⟨ns, tag⟩) := trivial
    show Does _ e (e.invalidateTag o ns tag).2
    unfold invalidateTag
    dsimp only
    split
    · exact .refl
    · exact (Does.single hhide).trans (.removeEach statsOnly_self hremove hstats _ _)
  | startLease ns key leaseTtlMs =>
    have haccess : (Op.startLease ns key leaseTtlMs).Allows (.access ⟨ns, key⟩) := rfl
    have hgrant : (Op.startLease ns key leaseTtlMs).Allows (.grantLease ⟨ns, key⟩ leaseTtlMs) := rfl
    exact .startLease htick (hremove _) haccess hgrant e
  | completeLease o command =>
    have hdrop : (Op.completeLease o command).Allows (.dropLease command.id) := rfl
    exact .completeLease htick hremove hindex hstats o command hdrop (fun _ => rfl) e
  | reclaimExpiredBudget maxEntries => exact .removeExpired htick hremove hindex hstats e _

/-! ## The clock and the limits -/

/-- Only the clock has moved, and only forward. -/
structure Later (e e' : Engine) : Prop where
  limits : e'.limits = e.limits
  readings : e'.clock.readings = e.clock.readings
  reads : e.clock.reads ≤ e'.clock.reads

theorem Later.refl (e : Engine) : Later e e := ⟨rfl, rfl, Nat.le_refl _⟩

theorem Later.trans (h : Later e e') (h' : Later e' e'') : Later e e'' :=
  ⟨h'.limits.trans h.limits, h'.readings.trans h.readings, h.reads.trans h'.reads⟩

theorem later_apply (e : Engine) (m : Mutation) : Later e (m.apply e) := by
  cases m with
  | tick => exact ⟨rfl, rfl, Nat.le_succ _⟩
  | remove id =>
    refine ⟨removeEntry_limits e id, ?_, ?_⟩ <;> simp only [Mutation.apply, removeEntry_clock]
    exact Nat.le_refl _
  | access id =>
    simp only [Mutation.apply]
    unfold recordAccess
    split
    · exact .refl e
    · exact ⟨rfl, rfl, Nat.le_refl _⟩
  | grantLease id leaseTtlMs => exact ⟨rfl, rfl, Nat.le_succ _⟩
  | store | dropLease | setExpiryIndex | hideTag | setStats =>
    exact ⟨rfl, rfl, Nat.le_refl _⟩

theorem Does.later (h : Does P e e') : Later e e' :=
  h.rel Later.refl Later.trans fun e m _ => later_apply e m

theorem later_exec (e : Engine) (op : Op) : Later e (e.exec op).2 := (exec_does e op).later

theorem later_run (e : Engine) (ops : List Op) : Later e (e.run ops) :=
  Machine.run_invariant (I := Later e) (fun e' op h => h.trans (later_exec e' op)) (.refl e) ops

end Engine
end Cachebox
