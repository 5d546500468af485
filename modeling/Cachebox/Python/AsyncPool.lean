import Cachebox.Python.AsyncClient

/-!
# The pool of asyncio clients (`AsyncClientPool` in `async_client.py`)

A coroutine takes a client out of the queue, makes calls on it and puts it back, unless the client
or the pool has been closed meanwhile. The clients are those of `Cachebox.Python.AsyncClient`, each
with its connection, and a list of actions is an interleaving of all coroutines, servers and
networks.

A cancelled or failed call closes its client, and a closed client is not put back and not handed
out. So a client that is handed out has nothing left over from those who had it before.
-/

namespace Cachebox
namespace Python

/-- A coroutine inside of `acquire`. -/
inductive Borrower where
  /-- Waiting for the queue. -/
  | waiting
  /-- In the body of the context manager. -/
  | using (i : Nat)
  deriving DecidableEq

/-- A client is known by its position. -/
structure AsyncClientPool where
  size : Nat
  clients : Nat → AsyncClient
  /-- The queue. The last client that was put into it is the first to be got out. -/
  available : List Nat
  closed : Bool
  borrowers : Nat → Option Borrower

namespace AsyncClientPool

/-- What an action makes visible: a coroutine leaves `acquire` with a client or an exception, or a
call on a client ends. -/
inductive Visible where
  | acquired (t : Nat) (result : Except PoolError Nat)
  | finished (t i : Nat) (result : Except AsyncError ResponsePayload)

inductive Action where
  | acquire (t : Nat)
  /-- The queue wakes the coroutine up. -/
  | get (t : Nat)
  | timeout (t : Nat)
  /-- The coroutine is cancelled while it waits for the queue. -/
  | cancel (t : Nat)
  | request (t : Nat) (command : Command) (payload : RequestPayload)
  | resume (t : Nat) (wakeup : AsyncClient.Wakeup)
  /-- The body of the context manager ends. -/
  | release (t : Nat)
  /-- Something happens on the connection of a client. -/
  | network (i : Nat) (event : AsyncClient.Action)
  /-- The pool is closed, which goes on to close the clients one by one. -/
  | close

def new (clients : List AsyncClient) : Except PoolError AsyncClientPool :=
  if clients.isEmpty then
    .error (.valueError "AsyncClientPool requires at least one client")
  else
    .ok {
      size := clients.length
      clients := fun i => clients.getD i (.new (2 ^ 32 - 1))
      available := (List.range clients.length).reverse
      closed := false
      borrowers := fun _ => none }

def setBorrower (p : AsyncClientPool) (t : Nat) (borrower : Option Borrower) : AsyncClientPool :=
  { p with borrowers := Function.update p.borrowers t borrower }

def acquire (p : AsyncClientPool) (t : Nat) : Option Visible × AsyncClientPool :=
  if p.closed then
    (some (.acquired t (.error (.clientError "async client pool is closed"))), p)
  else
    (none, p.setBorrower t (some .waiting))

/-- The loop of `_acquire_client`, from where the queue is asked. -/
def get (p : AsyncClientPool) (t : Nat) : Option Visible × AsyncClientPool :=
  match p.available with
  | [] => (none, p)
  | i :: available =>
    let p := { p with available }
    if !(p.clients i).closed then
      (some (.acquired t (.ok i)), p.setBorrower t (some (.using i)))
    else if p.closed then
      (some (.acquired t (.error (.clientError "async client pool is closed"))),
        p.setBorrower t none)
    else
      (none, p)

/-- The end of `acquire`. -/
def release (p : AsyncClientPool) (t i : Nat) : AsyncClientPool :=
  let p := p.setBorrower t none
  if !p.closed && !(p.clients i).closed then { p with available := i :: p.available } else p

/-- An action on one client. -/
def onClient (p : AsyncClientPool) (i : Nat) (action : AsyncClient.Action) :
    Option Visible × AsyncClientPool :=
  let (finished, client) := (p.clients i).step action
  (finished.map fun (t, result) => .finished t i result,
    { p with clients := Function.update p.clients i client })

/-- What the connections do, and somebody who closes a client. -/
def external : AsyncClient.Action → Bool
  | .request .. | .resume .. => false
  | _ => true

def step (p : AsyncClientPool) : Action → Option Visible × AsyncClientPool
  | .acquire t =>
    match p.borrowers t with
    | none => p.acquire t
    | some _ => (none, p)
  | .get t =>
    match p.borrowers t with
    | some .waiting => p.get t
    | _ => (none, p)
  | .timeout t =>
    match p.borrowers t with
    | some .waiting =>
      (some (.acquired t (.error (.clientError "timed out acquiring async client"))),
        p.setBorrower t none)
    | _ => (none, p)
  | .cancel t =>
    match p.borrowers t with
    | some .waiting => (none, p.setBorrower t none)
    | _ => (none, p)
  | .request t command payload =>
    match p.borrowers t with
    | some (.using i) => p.onClient i (.request t command payload)
    | _ => (none, p)
  | .resume t wakeup =>
    match p.borrowers t with
    | some (.using i) => p.onClient i (.resume t wakeup)
    | _ => (none, p)
  | .release t =>
    match p.borrowers t with
    -- the calls of the body have ended
    | some (.using i) =>
      if ((p.clients i).coroutines t).isNone then (none, p.release t i) else (none, p)
    | _ => (none, p)
  | .network i event => if external event then p.onClient i event else (none, p)
  | .close => (none, { p with closed := true })

/-- The servers conform to the protocol. -/
def Conforms (p : AsyncClientPool) : Action → Prop
  | .network i event => (p.clients i).Conforms event
  | _ => True

end AsyncClientPool

/-! ## What a step leaves alone on a client -/

namespace AsyncClient

/-- The coroutine that takes a step. -/
def Action.actor : Action → Option Nat
  | .request t .. | .resume t _ => some t
  | _ => none

/-- Between the two states a client is not opened again, and no coroutine but `actor` moves. -/
structure Frame (actor : Option Nat) (c c' : AsyncClient) : Prop where
  closed : c.closed = true → c'.closed = true
  coroutines : ∀ t, actor ≠ some t → c'.coroutines t = c.coroutines t

variable {c : AsyncClient} {actor : Option Nat} {t : Nat}

theorem Frame.refl (actor : Option Nat) (c : AsyncClient) : Frame actor c c :=
  ⟨id, fun _ _ => rfl⟩

theorem frame_close (actor : Option Nat) (c : AsyncClient) : Frame actor c c.close :=
  ⟨fun _ => c.closed_close, fun t _ => congrFun c.close_coroutines.1 t⟩

theorem Frame.setCoroutine {c' : AsyncClient} (h : Frame (some t) c c')
    (coroutine : Option Coroutine) : Frame (some t) c (c'.setCoroutine t coroutine) := by
  refine ⟨h.closed, fun t' hne => ?_⟩
  exact (Function.update_of_ne (fun heq => hne (congrArg some heq.symm)) ..).trans
    (h.coroutines t' hne)

theorem frame_finish (t : Nat) (result : Except AsyncError ResponsePayload) :
    Frame (some t) c (c.finish t result).2 :=
  ⟨id, ((Frame.refl (some t) c).setCoroutine none).coroutines⟩

theorem frame_abandon (t : Nat) (coroutine : Coroutine) (error : AsyncError) :
    Frame (some t) c (c.abandon t coroutine error).2 := by
  unfold AsyncClient.abandon
  split
  · exact frame_finish ..
  · exact (frame_close (some t) c).setCoroutine _

theorem frame_write (request : RequestFrame) : Frame actor c (c.write request) := by
  unfold AsyncClient.write
  split <;> exact ⟨id, fun _ _ => rfl⟩

theorem frame_acquire (t : Nat) (coroutine : Coroutine) (writeRaises : Bool) :
    Frame (some t) c (c.acquire t coroutine writeRaises).2 := by
  unfold AsyncClient.acquire
  dsimp only
  split
  · exact ⟨id, (frame_finish (c := c) t (.error .cancelled)).coroutines⟩
  split
  · exact ⟨id, (frame_finish (c := c) t (.error .transport)).coroutines⟩
  · have hwrite := @frame_write c.nextId.2 (some t) (coroutine.frame c.nextId.1)
    have hset := hwrite.setCoroutine (some { coroutine with await := .draining c.nextId.1 })
    exact ⟨hset.closed, hset.coroutines⟩

theorem frame_drain (t : Nat) (coroutine : Coroutine) (requestId : Int) :
    Frame (some t) c (c.drain t coroutine requestId).2 := by
  unfold AsyncClient.drain
  split
  · exact frame_abandon ..
  split
  · exact .refl _ c
  · exact (Frame.refl _ c).setCoroutine _

theorem frame_readHeader (t : Nat) (coroutine : Coroutine) (requestId : Int) :
    Frame (some t) c (c.readHeader t coroutine requestId).2 := by
  have hread := c.readExactly_readexactly headerLen
  unfold AsyncClient.readHeader
  generalize c.readexactly headerLen = r at hread
  cases hread with
  | waiting => exact .refl _ c
  | incomplete =>
    have hframe := @frame_abandon { c with buffer := [] } t coroutine closedDuringRequest
    exact ⟨hframe.closed, hframe.coroutines⟩
  | read header rest =>
    exact ⟨id, ((Frame.refl (some t) c).setCoroutine (some _)).coroutines⟩

theorem frame_readPayload (t : Nat) (coroutine : Coroutine) (requestId : Int) (header : Bytes) :
    Frame (some t) c (c.readPayload t coroutine requestId header).2 := by
  have hread := c.readExactly_readexactly (BigEndian.ofBytes (header.extract 16 20))
  unfold AsyncClient.readPayload
  generalize c.readexactly (BigEndian.ofBytes (header.extract 16 20)) = r at hread
  cases hread with
  | waiting => exact .refl _ c
  | incomplete =>
    have hframe := @frame_abandon { c with buffer := [] } t coroutine closedDuringRequest
    exact ⟨hframe.closed, hframe.coroutines⟩
  | read payload rest =>
    exact ⟨id, ((Frame.refl (some t) c).setCoroutine none).coroutines⟩

theorem frame_resume (t : Nat) (coroutine : Coroutine) (wakeup : Wakeup) :
    Frame (some t) c (c.resume t coroutine wakeup).2 := by
  obtain ⟨command, payload, await⟩ := coroutine
  cases await with
  | acquiring =>
    cases wakeup with
    | ready =>
      unfold AsyncClient.resume
      dsimp only
      split
      · exact frame_acquire ..
      · exact .refl _ c
    | failed =>
      unfold AsyncClient.resume
      dsimp only
      split
      · exact frame_acquire ..
      · exact .refl _ c
    | cancelled => exact (Frame.refl _ c).setCoroutine none
  | draining requestId =>
    cases wakeup with
    | ready => exact frame_drain ..
    | failed | cancelled => exact frame_abandon ..
  | readingHeader requestId =>
    cases wakeup with
    | ready => exact frame_readHeader ..
    | failed | cancelled => exact frame_abandon ..
  | readingPayload requestId header =>
    cases wakeup with
    | ready => exact frame_readPayload ..
    | failed | cancelled => exact frame_abandon ..
  | closing error =>
    cases wakeup with
    | ready =>
      unfold AsyncClient.resume
      dsimp only
      split
      · exact frame_finish ..
      · exact .refl _ c
    | failed | cancelled => exact frame_finish ..

theorem frame_flush (actor : Option Nat) (c : AsyncClient) : Frame actor c c.flush := by
  unfold AsyncClient.flush
  split
  · exact .refl _ c
  split
  · exact .refl _ c
  dsimp only
  split <;> exact ⟨id, fun _ _ => rfl⟩

theorem frame_step (action : Action) : Frame action.actor c (c.step action).2 := by
  cases action with
  | request t command payload =>
    unfold AsyncClient.step AsyncClient.request
    dsimp only
    split
    · split
      · exact .refl _ c
      · exact (Frame.refl _ c).setCoroutine _
    · exact .refl _ c
  | resume t wakeup =>
    unfold AsyncClient.step
    dsimp only
    split
    · exact .refl _ c
    · exact frame_resume ..
  | close => exact frame_close _ c
  | flush => exact frame_flush _ c
  | answer i bytes =>
    show Frame none c (c.answer i bytes)
    unfold AsyncClient.answer
    split <;> exact ⟨id, fun _ _ => rfl⟩
  | receive n =>
    show Frame none c (c.receive n)
    unfold AsyncClient.receive
    split <;> exact ⟨id, fun _ _ => rfl⟩
  | eof | lose => exact ⟨id, fun _ _ => rfl⟩
  | connectionLost =>
    unfold AsyncClient.step
    dsimp only
    split <;> exact ⟨id, fun _ _ => rfl⟩

end AsyncClient

/-! ## Where the clients are -/

namespace AsyncClientPool

/-- Every client is in the queue or with one coroutine, and as long as the pool is open none that is
open is missing. Only the coroutine that has a client makes calls on it. -/
structure Inv (p : AsyncClientPool) : Prop where
  clients : ∀ i, (p.clients i).Inv
  nodup : p.available.Nodup
  alone : ∀ t t' i, p.borrowers t = some (.using i) → p.borrowers t' = some (.using i) → t = t'
  out : ∀ t i, p.borrowers t = some (.using i) → i ∉ p.available
  kept : p.closed = false → ∀ i < p.size, (p.clients i).closed = false →
    i ∈ p.available ∨ ∃ t, p.borrowers t = some (.using i)
  calls : ∀ i t coroutine, (p.clients i).coroutines t = some coroutine →
    p.borrowers t = some (.using i)

/-- What is known of a client that is handed out. -/
structure Fresh (p : AsyncClientPool) (i : Nat) : Prop where
  opened : (p.clients i).closed = false
  unused : ∀ t, p.borrowers t ≠ some (.using i)
  idle : ∀ t, (p.clients i).coroutines t = none
  unlocked : (p.clients i).lock = none
  quiet : (p.clients i).Quiet

/-- A step keeps the invariant, hands out fresh clients, and ends calls with what is due to them. -/
structure Keeps (p : AsyncClientPool) (r : Option Visible × AsyncClientPool) : Prop where
  inv : r.2.Inv
  acquired : ∀ t i, r.1 = some (.acquired t (.ok i)) → p.Fresh i
  finished : ∀ t i result, r.1 = some (.finished t i result) → (p.clients i).Rightful t result

section
variable {p p' : AsyncClientPool} {t : Nat}

theorem keeps_none (h : p'.Inv) : p.Keeps (none, p') :=
  ⟨h, by simp, by simp⟩

theorem keeps_error (h : p'.Inv) (t : Nat) (error : PoolError) :
    p.Keeps (some (.acquired t (.error error)), p') :=
  ⟨h, by simp, by simp⟩

/-- A coroutine that has no client comes or goes. -/
theorem Inv.setBorrower (h : p.Inv) (ht : ∀ i, p.borrowers t ≠ some (.using i))
    {borrower : Option Borrower} (hnew : ∀ i, borrower ≠ some (.using i)) :
    (p.setBorrower t borrower).Inv := by
  have hsame : ∀ t' i, (p.setBorrower t borrower).borrowers t' = some (.using i) ↔
      p.borrowers t' = some (.using i) := by
    intro t' i
    show Function.update p.borrowers t borrower t' = _ ↔ _
    rw [Function.update_apply]
    split
    · next heq => simp [hnew, heq, ht]
    · exact Iff.rfl
  refine ⟨h.clients, h.nodup, fun t₁ t₂ i h₁ h₂ => ?_, fun t₁ i h₁ => ?_,
    fun hopen i hi hclient => ?_, fun i t₁ coroutine hco => ?_⟩
  · exact h.alone t₁ t₂ i ((hsame t₁ i).mp h₁) ((hsame t₂ i).mp h₂)
  · exact h.out t₁ i ((hsame t₁ i).mp h₁)
  · obtain hmem | ⟨t₁, h₁⟩ := h.kept hopen i hi hclient
    · exact .inl hmem
    · exact .inr ⟨t₁, (hsame t₁ i).mpr h₁⟩
  · exact (hsame t₁ i).mpr (h.calls i t₁ coroutine hco)

/-- A client in the queue is fresh unless it is closed. -/
theorem Inv.fresh (h : p.Inv) {i : Nat} (hi : i ∈ p.available)
    (hopened : (p.clients i).closed = false) : p.Fresh i := by
  have hunused : ∀ t, p.borrowers t ≠ some (.using i) := fun t ht => h.out t i ht hi
  have hidle : ∀ t, (p.clients i).coroutines t = none := by
    intro t
    cases hco : (p.clients i).coroutines t with
    | none => rfl
    | some coroutine => exact absurd (h.calls i t coroutine hco) (hunused t)
  have hunlocked : (p.clients i).lock = none := by
    cases hlock : (p.clients i).lock with
    | none => rfl
    | some t =>
      obtain ⟨coroutine, hco, -⟩ := ((h.clients i).lock_iff t).mp hlock
      cases (hidle t).symm.trans hco
  refine ⟨hopened, hunused, hidle, hunlocked, ?_⟩
  cases (h.clients i).locked with
  | free _ hquiet => exact hquiet hopened
  | held t coroutine hlock => cases hunlocked.symm.trans hlock

/-- A closed client is dropped. -/
theorem Inv.dropClosed (h : p.Inv) {i : Nat} {available : List Nat}
    (havailable : p.available = i :: available) (hclosed : (p.clients i).closed = true) :
    ({ p with available } : AsyncClientPool).Inv := by
  have hnodup := h.nodup
  rw [havailable, List.nodup_cons] at hnodup
  refine ⟨h.clients, hnodup.2, h.alone, fun t j ht hj => h.out t j ht ?_,
    fun hopen j hj hclient => (h.kept hopen j hj hclient).imp_left fun hmem => ?_, h.calls⟩
  · rw [havailable]
    exact List.mem_cons_of_mem i hj
  · rw [havailable, List.mem_cons] at hmem
    obtain rfl | hmem := hmem
    · cases hclosed.symm.trans hclient
    · exact hmem

/-- An open client is handed out to a coroutine that waits for one. -/
theorem Inv.handOut (h : p.Inv) {i : Nat} {available : List Nat}
    (havailable : p.available = i :: available) (ht : ∀ j, p.borrowers t ≠ some (.using j)) :
    (({ p with available } : AsyncClientPool).setBorrower t (some (.using i))).Inv := by
  have hnodup := h.nodup
  rw [havailable, List.nodup_cons] at hnodup
  have hi : i ∈ p.available := by rw [havailable]; exact List.mem_cons_self
  -- who has which client
  have huses : ∀ t' j, Function.update p.borrowers t (some (.using i)) t' = some (.using j) ↔
      t' = t ∧ j = i ∨ p.borrowers t' = some (.using j) := by
    intro t' j
    rw [Function.update_apply]
    split
    · next heq => simp [heq, ht, eq_comm]
    · next hne => simp [hne]
  refine ⟨h.clients, hnodup.2, fun t₁ t₂ j h₁ h₂ => ?_, fun t₁ j h₁ hj => ?_,
    fun hopen j hj hclient => ?_, fun j t₁ coroutine hco => ?_⟩
  · obtain ⟨rfl, rfl⟩ | husing₁ := (huses t₁ j).mp h₁
    · obtain ⟨rfl, -⟩ | husing₂ := (huses t₂ j).mp h₂
      · rfl
      · exact absurd hi (h.out t₂ j husing₂)
    · obtain ⟨-, rfl⟩ | husing₂ := (huses t₂ j).mp h₂
      · exact absurd hi (h.out t₁ j husing₁)
      · exact h.alone t₁ t₂ j husing₁ husing₂
  · obtain ⟨-, rfl⟩ | husing₁ := (huses t₁ j).mp h₁
    · exact hnodup.1 hj
    · exact h.out t₁ j husing₁ (by rw [havailable]; exact List.mem_cons_of_mem i hj)
  · obtain hmem | ⟨t₁, h₁⟩ := h.kept hopen j hj hclient
    · rw [havailable, List.mem_cons] at hmem
      obtain rfl | hmem := hmem
      · exact .inr ⟨t, (huses t j).mpr (.inl ⟨rfl, rfl⟩)⟩
      · exact .inl hmem
    · exact .inr ⟨t₁, (huses t₁ j).mpr (.inr h₁)⟩
  · exact (huses t₁ j).mpr (.inr (h.calls j t₁ coroutine hco))

theorem Inv.get (h : p.Inv) (ht : p.borrowers t = some .waiting) : p.Keeps (p.get t) := by
  have hnone : ∀ j, p.borrowers t ≠ some (.using j) := by simp [ht]
  unfold AsyncClientPool.get
  split
  · exact keeps_none h
  · next i available havailable =>
    have hi : i ∈ p.available := by rw [havailable]; exact List.mem_cons_self
    dsimp only
    split
    · next hopened =>
      rw [Bool.not_eq_true'] at hopened
      refine ⟨h.handOut havailable hnone, fun t' j heq => ?_, by simp⟩
      cases heq
      exact h.fresh hi hopened
    · next hclosed =>
      rw [Bool.not_eq_true', Bool.not_eq_false] at hclosed
      have hdropped := h.dropClosed havailable hclosed
      split
      · exact keeps_error (hdropped.setBorrower hnone (by simp)) t _
      · exact keeps_none hdropped

/-- The coroutine that has client `i` is done with it. -/
theorem Inv.release (h : p.Inv) {i : Nat} (ht : p.borrowers t = some (.using i))
    (hdone : (p.clients i).coroutines t = none) : (p.release t i).Inv := by
  have huses : ∀ t' j, Function.update p.borrowers t none t' = some (.using j) ↔
      t' ≠ t ∧ p.borrowers t' = some (.using j) := by
    intro t' j
    rw [Function.update_apply]
    split
    · next heq => simp [heq]
    · next hne => simp [hne]
  have hcalls : ∀ j t' coroutine, (p.clients j).coroutines t' = some coroutine →
      Function.update p.borrowers t none t' = some (.using j) := by
    intro j t' coroutine hco
    have huse := h.calls j t' coroutine hco
    refine (huses t' j).mpr ⟨?_, huse⟩
    rintro rfl
    cases ht.symm.trans huse
    cases hdone.symm.trans hco
  have hout := h.out t i ht
  unfold AsyncClientPool.release
  dsimp only
  split
  · -- back in the queue
    refine ⟨h.clients, List.nodup_cons.mpr ⟨hout, h.nodup⟩, fun t₁ t₂ j h₁ h₂ => ?_,
      fun t₁ j h₁ hj => ?_, fun hopen j hj hclient => ?_, hcalls⟩
    · exact h.alone t₁ t₂ j ((huses t₁ j).mp h₁).2 ((huses t₂ j).mp h₂).2
    · obtain ⟨hne, husing⟩ := (huses t₁ j).mp h₁
      obtain rfl | hmem := List.mem_cons.mp hj
      · exact hne (h.alone t₁ t j husing ht)
      · exact h.out t₁ j husing hmem
    · obtain hmem | ⟨t₁, h₁⟩ := h.kept hopen j hj hclient
      · exact .inl (List.mem_cons_of_mem i hmem)
      · by_cases heq : t₁ = t
        · subst heq
          cases ht.symm.trans h₁
          exact .inl List.mem_cons_self
        · exact .inr ⟨t₁, (huses t₁ j).mpr ⟨heq, h₁⟩⟩
  · -- gone
    next hgone =>
    refine ⟨h.clients, h.nodup, fun t₁ t₂ j h₁ h₂ => ?_, fun t₁ j h₁ => ?_,
      fun hopen j hj hclient => ?_, hcalls⟩
    · exact h.alone t₁ t₂ j ((huses t₁ j).mp h₁).2 ((huses t₂ j).mp h₂).2
    · exact h.out t₁ j ((huses t₁ j).mp h₁).2
    · obtain hmem | ⟨t₁, h₁⟩ := h.kept hopen j hj hclient
      · exact .inl hmem
      refine .inr ⟨t₁, (huses t₁ j).mpr ⟨?_, h₁⟩⟩
      rintro rfl
      cases ht.symm.trans h₁
      refine hgone ?_
      simp only [Bool.and_eq_true, Bool.not_eq_true']
      exact ⟨hopen, hclient⟩

/-- A step on a client, by the coroutine that has it or by nobody. -/
theorem Inv.onClient (h : p.Inv) {i : Nat} {action : AsyncClient.Action}
    (hconforms : (p.clients i).Conforms action)
    (hactor : ∀ t, action.actor = some t → p.borrowers t = some (.using i)) :
    p.Keeps (p.onClient i action) := by
  have hkeeps := (h.clients i).step hconforms
  have hframe := @AsyncClient.frame_step (p.clients i) action
  refine ⟨⟨fun j => ?_, h.nodup, h.alone, h.out, fun hopen j hj hclient => h.kept hopen j hj ?_,
    fun j t coroutine hco => ?_⟩, ?_, ?_⟩
  · show AsyncClient.Inv (Function.update p.clients i ((p.clients i).step action).2 j)
    rw [Function.update_apply]
    split
    · exact hkeeps.1
    · exact h.clients j
  · change (Function.update p.clients i ((p.clients i).step action).2 j).closed = false at hclient
    rw [Function.update_apply] at hclient
    split at hclient
    · next heq =>
      rw [heq]
      exact Bool.eq_false_iff.mpr fun hclosed => by
        rw [hframe.closed hclosed] at hclient
        cases hclient
    · exact hclient
  · change (Function.update p.clients i ((p.clients i).step action).2 j).coroutines t =
      some coroutine at hco
    rw [Function.update_apply] at hco
    split at hco
    · next heq =>
      subst heq
      by_cases ht : action.actor = some t
      · exact hactor t ht
      · rw [hframe.coroutines t ht] at hco
        exact h.calls j t coroutine hco
    · exact h.calls j t coroutine hco
  · intro t j heq
    unfold AsyncClientPool.onClient at heq
    cases hfinished : ((p.clients i).step action).1 with
    | none => simp [hfinished] at heq
    | some finished => simp [hfinished] at heq
  · intro t j result heq
    unfold AsyncClientPool.onClient at heq
    cases hfinished : ((p.clients i).step action).1 with
    | none => simp [hfinished] at heq
    | some finished =>
      obtain ⟨t', result'⟩ := finished
      simp only [hfinished, Option.map_some, Option.some.injEq, Visible.finished.injEq] at heq
      obtain ⟨rfl, rfl, rfl⟩ := heq
      exact hkeeps.2 t' result' hfinished

theorem Inv.step (h : p.Inv) {action : Action} (hconforms : p.Conforms action) :
    p.Keeps (p.step action) := by
  cases action with
  | acquire t =>
    unfold AsyncClientPool.step AsyncClientPool.acquire
    dsimp only
    split
    · next hnone =>
      split
      · exact keeps_error h t _
      · exact keeps_none (h.setBorrower (by simp [hnone]) (by simp))
    · exact keeps_none h
  | get t =>
    unfold AsyncClientPool.step
    dsimp only
    split
    · next hwaiting => exact h.get hwaiting
    · exact keeps_none h
  | timeout t =>
    unfold AsyncClientPool.step
    dsimp only
    split
    · next hwaiting => exact keeps_error (h.setBorrower (by simp [hwaiting]) (by simp)) t _
    · exact keeps_none h
  | cancel t =>
    unfold AsyncClientPool.step
    dsimp only
    split
    · next hwaiting => exact keeps_none (h.setBorrower (by simp [hwaiting]) (by simp))
    · exact keeps_none h
  | request t command payload =>
    unfold AsyncClientPool.step
    dsimp only
    split
    · next i husing =>
      refine h.onClient trivial fun t' ht' => ?_
      cases ht'
      exact husing
    · exact keeps_none h
  | resume t wakeup =>
    unfold AsyncClientPool.step
    dsimp only
    split
    · next i husing =>
      refine h.onClient trivial fun t' ht' => ?_
      cases ht'
      exact husing
    · exact keeps_none h
  | release t =>
    unfold AsyncClientPool.step
    dsimp only
    split
    · next i husing =>
      split
      · next hdone => exact keeps_none (h.release husing (Option.isNone_iff_eq_none.mp hdone))
      · exact keeps_none h
    · exact keeps_none h
  | network i event =>
    unfold AsyncClientPool.step
    dsimp only
    split
    · next hexternal =>
      refine h.onClient hconforms fun t ht => ?_
      cases event with
      | request | resume => cases hexternal
      | close | flush | answer | receive | eof | lose | connectionLost => cases ht
    · exact keeps_none h
  | close =>
    refine keeps_none ⟨h.clients, h.nodup, h.alone, h.out, fun hopen => ?_, h.calls⟩
    cases hopen

end

theorem inv_new {clients : List AsyncClient}
    (hnew : ∀ c ∈ clients, ∃ maxPayloadLen, c = .new maxPayloadLen) {p : AsyncClientPool}
    (h : new clients = .ok p) : p.Inv := by
  have hclient : ∀ i, ∃ maxPayloadLen,
      clients.getD i (.new (2 ^ 32 - 1)) = .new maxPayloadLen := by
    intro i
    rw [List.getD_eq_getElem?_getD]
    cases hi : clients[i]? with
    | none => exact ⟨_, rfl⟩
    | some c => exact hnew c (List.mem_of_getElem? hi)
  unfold new at h
  split at h
  · cases h
  · cases h
    refine ⟨fun i => ?_, List.nodup_reverse.mpr List.nodup_range, by simp, by simp,
      fun _ i hi _ => .inl (by simpa using hi), fun i t coroutine hco => ?_⟩
    · obtain ⟨maxPayloadLen, hi⟩ := hclient i
      dsimp only
      rw [hi]
      exact AsyncClient.inv_new maxPayloadLen
    · obtain ⟨maxPayloadLen, hi⟩ := hclient i
      dsimp only at hco
      rw [hi] at hco
      cases hco

/-- **The pool hands out clients without leftovers.** In every interleaving of coroutines that
acquire clients, make calls on them and release them, with calls cancelled and connections lost at
any point and servers that answer each request with a response of its id and command, a client that
is handed out is open, with nobody else, unlocked, and has nothing unsent, unanswered or unread from
its earlier users; and each call ends with what is due to it. No two
coroutines have the same client, and while the pool is open every open client is in the queue or
with a coroutine. -/
theorem pool_hands_out_fresh_clients {clients : List AsyncClient}
    (hnew : ∀ c ∈ clients, ∃ maxPayloadLen, c = .new maxPayloadLen) {p₀ : AsyncClientPool}
    (hp₀ : new clients = .ok p₀) (actions : List Action)
    (hconforms : ∀ ev ∈ Machine.history step p₀ actions, ev.before.Conforms ev.action) :
    (∀ ev ∈ Machine.history step p₀ actions,
      (∀ t i, ev.outcome = some (.acquired t (.ok i)) → ev.before.Fresh i) ∧
      ∀ t i result, ev.outcome = some (.finished t i result) →
        (ev.before.clients i).Rightful t result) ∧
    let p := Machine.run step p₀ actions
    (∀ t t' i, p.borrowers t = some (.using i) → p.borrowers t' = some (.using i) → t = t') ∧
      (p.closed = false → ∀ i < p.size, (p.clients i).closed = false →
        i ∈ p.available ∨ ∃ t, p.borrowers t = some (.using i)) := by
  have hstep : ∀ (p : AsyncClientPool) action, p.Conforms action → p.Inv → (p.step action).2.Inv :=
    fun p action hc h => (h.step hc).inv
  have hrun := Machine.run_invariant_allowed hstep (inv_new hnew hp₀) hconforms
  refine ⟨?_, hrun.alone, hrun.kept⟩
  exact Machine.forall_mem_history hstep
    (fun p action hc h => ⟨(h.step hc).acquired, (h.step hc).finished⟩) (inv_new hnew hp₀) hconforms

def onePool : AsyncClientPool where
  size := 1
  clients i := [AsyncClient.new 1024].getD i (.new (2 ^ 32 - 1))
  available := [0]
  closed := false
  borrowers _ := none

/-- A coroutine has a client and has sent a request. -/
def sending : List Action :=
  [.acquire 0, .get 0, .request 0 .get (.get "default" [1]), .resume 0 .ready, .network 0 .flush,
    .resume 0 .ready]

/-- It reads the answer and gives the client back, the next coroutine is cancelled while it waits
for its answer, and the last one finds no client. -/
def thenCancelled : List Action :=
  [.network 0 (.receive 100), .resume 0 .ready, .resume 0 .ready, .release 0, .acquire 1, .get 1,
    .request 1 .get (.get "default" [2]), .resume 1 .ready, .resume 1 .ready, .resume 1 .cancelled,
    .network 0 .flush, .resume 1 .ready, .release 1, .acquire 2, .get 2]

def oneCancelled : List Action :=
  sending ++ .network 0 (.answer 0 AsyncClient.hitBytes) :: thenCancelled

theorem conforms_oneCancelled :
    ∀ ev ∈ Machine.history step onePool oneCancelled, ev.before.Conforms ev.action := by
  intro ev hev
  rw [oneCancelled, Machine.history_append_cons, List.mem_append, List.mem_cons] at hev
  obtain hev | rfl | hev := hev
  · have hmem := Machine.action_mem _ hev
    simp only [thenCancelled, List.mem_cons, List.not_mem_nil, or_false] at hmem
    obtain h | h | h | h | h | h | h | h | h | h | h | h | h | h | h := hmem <;> rw [h] <;> trivial
  · intro request hrequest
    have hone : ((Machine.run step onePool sending).clients 0).requests =
        [⟨1, .get, .get "default" [1]⟩] := by decide +kernel
    rw [show ((Machine.event step (Machine.run step onePool sending) (.network 0 (.answer 0
      AsyncClient.hitBytes))).before.clients 0).requests = _ from hone] at hrequest
    cases hrequest
    exact AsyncClient.answers_hitBytes
  · have hmem := Machine.action_mem _ hev
    simp only [sending, List.mem_cons, List.not_mem_nil, or_false] at hmem
    obtain h | h | h | h | h | h := hmem <;> rw [h] <;> trivial

theorem pool_hands_out_fresh_clients_oneCancelled :
    (Machine.run step onePool oneCancelled).available = [] ∧
      ((Machine.run step onePool oneCancelled).clients 0).closed = true ∧
      (∀ ev ∈ Machine.history step onePool oneCancelled, ∀ t i result,
        ev.outcome = some (.finished t i result) → (ev.before.clients i).Rightful t result) := by
  refine ⟨by decide +kernel, by decide +kernel, fun ev hev => ?_⟩
  exact ((@pool_hands_out_fresh_clients [.new 1024]
    (List.forall_mem_singleton.mpr ⟨1024, rfl⟩) onePool rfl oneCancelled
    conforms_oneCancelled).1 ev hev).2

/-! ## Coroutines that wait for a client -/

/-- The queue is empty, and nothing will be put into it. -/
structure Starved (p : AsyncClientPool) : Prop where
  empty : p.available = []
  gone : p.closed = true ∨ ∀ t i, p.borrowers t = some (.using i) → (p.clients i).closed = true

section
variable {p : AsyncClientPool}

theorem Starved.setBorrower (h : p.Starved) (t : Nat) {borrower : Option Borrower}
    (hnew : ∀ i, borrower ≠ some (.using i)) : (p.setBorrower t borrower).Starved := by
  refine ⟨h.empty, h.gone.imp_right fun hgone t' i ht' => ?_⟩
  change Function.update p.borrowers t borrower t' = some (.using i) at ht'
  rw [Function.update_apply] at ht'
  split at ht'
  · exact absurd ht' (hnew i)
  · exact hgone t' i ht'

theorem Starved.onClient (h : p.Starved) (i : Nat) (action : AsyncClient.Action) :
    (p.onClient i action).2.Starved := by
  refine ⟨h.empty, h.gone.imp_right fun hgone t j ht => ?_⟩
  show (Function.update p.clients i ((p.clients i).step action).2 j).closed = true
  rw [Function.update_apply]
  split
  · next heq =>
    subst heq
    exact (AsyncClient.frame_step action).closed (hgone t j ht)
  · exact hgone t j ht

theorem Starved.release (h : p.Starved) {t i : Nat} (ht : p.borrowers t = some (.using i)) :
    (p.release t i).Starved := by
  unfold AsyncClientPool.release
  dsimp only
  split
  · next hback =>
    simp only [Bool.and_eq_true, Bool.not_eq_true'] at hback
    obtain hclosed | hgone := h.gone
    · cases hback.1.symm.trans hclosed
    · cases hback.2.symm.trans (hgone t i ht)
  · exact h.setBorrower t (by simp)

/-- What ends a call of `acquire` in the event. -/
def Turned (action : Action) (r : Option Visible × AsyncClientPool) : Prop :=
  r.2.Starved ∧ ∀ t result, r.1 = some (.acquired t result) →
    (∃ message, result = .error (.clientError message)) ∧
      (action = .acquire t ∨ action = .timeout t)

theorem turned_none {p' : AsyncClientPool} (h : p'.Starved) (action : Action) :
    Turned action (none, p') := ⟨h, by simp⟩

theorem turned_onClient (h : p.Starved) (i : Nat) (event : AsyncClient.Action) (action : Action) :
    Turned action (p.onClient i event) := by
  refine ⟨h.onClient i event, fun t result heq => ?_⟩
  unfold AsyncClientPool.onClient at heq
  cases hfinished : ((p.clients i).step event).1 with
  | none => simp [hfinished] at heq
  | some finished => simp [hfinished] at heq

theorem Starved.step (h : p.Starved) (action : Action) : Turned action (p.step action) := by
  cases action with
  | acquire t =>
    unfold AsyncClientPool.step AsyncClientPool.acquire
    dsimp only
    split
    · split
      · refine ⟨h, fun t' result heq => ?_⟩
        cases heq
        exact ⟨⟨_, rfl⟩, .inl rfl⟩
      · exact turned_none (h.setBorrower t (by simp)) _
    · exact turned_none h _
  | get t =>
    unfold AsyncClientPool.step AsyncClientPool.get
    dsimp only
    split
    · rw [h.empty]
      exact turned_none h _
    · exact turned_none h _
  | timeout t =>
    unfold AsyncClientPool.step
    dsimp only
    split
    · refine ⟨h.setBorrower t (by simp), fun t' result heq => ?_⟩
      cases heq
      exact ⟨⟨_, rfl⟩, .inr rfl⟩
    · exact turned_none h _
  | cancel t =>
    unfold AsyncClientPool.step
    dsimp only
    split
    · exact turned_none (h.setBorrower t (by simp)) _
    · exact turned_none h _
  | request t command payload =>
    unfold AsyncClientPool.step
    dsimp only
    split
    · exact turned_onClient h ..
    · exact turned_none h _
  | resume t wakeup =>
    unfold AsyncClientPool.step
    dsimp only
    split
    · exact turned_onClient h ..
    · exact turned_none h _
  | release t =>
    unfold AsyncClientPool.step
    dsimp only
    split
    · next i husing =>
      split
      · exact turned_none (h.release husing) _
      · exact turned_none h _
    · exact turned_none h _
  | network i event =>
    unfold AsyncClientPool.step
    dsimp only
    split
    · exact turned_onClient h ..
    · exact turned_none h _
  | close =>
    have hclosed : ({ p with closed := true } : AsyncClientPool).Starved := ⟨h.empty, .inl rfl⟩
    exact turned_none hclosed _

end

/-- **A pool that has lost its clients, or is closed, wakes nobody up.** Once the queue is empty and
the pool is closed or all clients that are out are closed, no coroutine is ever given a client, and
one that waits for a client leaves only by the timeout of `acquire` or by being cancelled: the pool
makes no new connections, and closing it does not end the waiting. -/
theorem starved_pool_wakes_nobody {p : AsyncClientPool} (h : p.Starved) (actions : List Action) :
    ∀ ev ∈ Machine.history step p actions, ∀ t result,
      ev.outcome = some (.acquired t result) →
      (∃ message, result = .error (.clientError message)) ∧
        (ev.action = .acquire t ∨ ev.action = .timeout t) :=
  @Machine.forall_mem_history _ _ _ step Starved (fun _ _ => True) _
    (fun _ action _ hs => (hs.step action).1) (fun _ action _ hs => (hs.step action).2) p h actions
    fun _ _ => trivial

theorem starved_pool_wakes_nobody_oneCancelled :
    (Machine.run step onePool (oneCancelled ++ [.close])).borrowers 2 = some .waiting ∧
      ∀ ev ∈ Machine.history step (Machine.run step onePool (oneCancelled ++ [.close]))
          [.get 2, .acquire 3, .get 2],
        ∀ t result, ev.outcome = some (.acquired t result) →
          (∃ message, result = .error (.clientError message)) ∧
            (ev.action = .acquire t ∨ ev.action = .timeout t) :=
  ⟨by decide +kernel, starved_pool_wakes_nobody ⟨by decide +kernel, .inl (by decide +kernel)⟩ _⟩

end AsyncClientPool
end Python
end Cachebox
