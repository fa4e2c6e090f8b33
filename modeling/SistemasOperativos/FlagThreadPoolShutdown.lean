import SistemasOperativos.FlagThreadPoolSteps

/-!
# When the pool with the flag is destroyed safely

A worker that has passed the test of the flag takes one more entry of the queue,
and a worker that has not takes none. So the items that are in the queue when
the flag is set are executed exactly if there are no more of them than workers
past the test. And `tp_destroy` keeps the pool's lock while it joins the workers,
so it comes to its end exactly if no worker waits for that lock in the meantime.
-/

namespace SistemasOperativos.FlagThreadPool

open TransitionRuns ConditionMonitor
open ThreadPool (nthreads WorkItem Cond Caller PutStage)

variable {κ φ α : Type*}

/-- The kinds of threads. -/
inductive Role
  | worker
  | client
  | destroyer
  deriving DecidableEq, Repr

/-- The kind of a thread. -/
def Thread.role : Thread κ → Role
  | .worker _ => .worker
  | .client _ => .client
  | .destroyer => .destroyer

/-- Who calls `tp_submit`. -/
def callerRole : Caller φ α → Role
  | .client => .client
  | .item _ => .worker

/-- Whose code this is. -/
def Pc.role : Pc φ α → Role
  | .idle => .client
  | .submitLocking k _ _ | .submitChecking k _ _ | .submitUnlocking k
  | .putting (.submit k _) _ => callerRole k
  | .putting (.destroy _) _ | .destroyLocking | .destroyChecking | .terminating | .filling _
  | .joining _ | .destroyUnlocking | .queueDestroying | .lockDestroying | .returned => .destroyer
  | .testing | .getLocking | .getChecking | .getWaiting | .getRemoving | .getUnlocking _
  | .nullTesting _ | .calling _ | .running _ | .finished => .worker

/-- Between taking the pool's lock and releasing it. -/
def Pc.lockHeld : Pc φ α → Bool
  | .submitChecking .. | .putting .. | .submitUnlocking _ | .destroyChecking | .terminating
  | .filling _ | .joining _ | .destroyUnlocking => true
  | _ => false

/-- Between taking the queue's lock and releasing it. -/
def Pc.queueHeld : Pc φ α → Bool
  | .putting _ stage => stage ≠ .locking
  | .getChecking | .getRemoving | .getUnlocking _ => true
  | _ => false

/-- Waits for the pool's lock in `tp_submit`. -/
def Pc.waits : Pc φ α → Bool
  | .submitLocking .. => true
  | _ => false

/-- Waits for the queue's lock. -/
def Pc.waitsForQueue : Pc φ α → Bool
  | .putting _ .locking | .getLocking | .getWaiting => true
  | _ => false

/-- In `tp_destroy`, with the pool's lock. -/
def Pc.destroying : Pc φ α → Bool
  | .putting (.destroy _) _ | .destroyChecking | .terminating | .filling _ | .joining _
  | .destroyUnlocking => true
  | _ => false

/-- In `tp_destroy`, past the statement that sets the flag. -/
def Pc.pastFlag : Pc φ α → Bool
  | .putting (.destroy _) _ | .filling _ | .joining _ | .destroyUnlocking | .queueDestroying
  | .lockDestroying | .returned => true
  | _ => false

/-- Number of workers joined. -/
def Pc.joined : Pc φ α → ℕ
  | .joining i => i
  | .destroyUnlocking | .queueDestroying | .lockDestroying | .returned => nthreads
  | _ => 0

/-- In `tp_submit`, with an item that is not in the queue yet. -/
def Pc.carried : Pc φ α → Option (WorkItem φ α)
  | .putting (.submit _ wi) .locking | .putting (.submit _ wi) .inserting => some wi
  | _ => none

/-- Past the test of the flag, with no entry of the queue taken. -/
def Pc.getting : Pc φ α → Bool
  | .getLocking | .getChecking | .getWaiting | .getRemoving => true
  | _ => false

/-- The item that a worker has taken and not called. -/
def Pc.hand : Pc φ α → Multiset (WorkItem φ α)
  | .getUnlocking (some x) | .nullTesting (some x) | .calling x => {x}
  | _ => 0

/-- Items in the queue, oldest first. -/
def State.pending (s : State κ φ α) : List (WorkItem φ α) := s.list.filterMap id

/-- A sum over the workers. -/
def State.total {M : Type*} [AddCommMonoid M] (s : State κ φ α) (f : Pc φ α → M) : M :=
  ∑ i, f (s.pc (.worker i))

/-- Number of workers past the test of the flag that have taken no entry. -/
def State.getting (s : State κ φ α) : ℕ := s.total fun q => if q.getting then 1 else 0

/-- `tp_destroy` joins a worker that waits for a lock that it holds itself. -/
def Deadlocked (s : State κ φ α) : Prop :=
  ∃ i : Fin nthreads, s.pc .destroyer = .joining i ∧
    ((s.pc (.worker i)).waits = true ∧ s.lock.holder = some .destroyer ∨
      (s.pc (.worker i)).waitsForQueue = true ∧ s.queue.holder = some .destroyer)

/-- Shutdown loses no work and does not deadlock. -/
structure Safe (s : State κ φ α) : Prop where
  /-- Different items have different identities. -/
  distinct : (s.enqueued.map WorkItem.id).Nodup
  /-- When `tp_destroy` has returned, the workers have finished and have called
  each item that was put into the queue, and each once. -/
  complete : s.pc .destroyer = .returned →
    (∀ i, s.pc (.worker i) = .finished) ∧ s.called.Perm s.enqueued
  live : ¬ Deadlocked s

/-- No item calls `tp_submit` while `tp_destroy` holds the lock, none waits there
when it takes the lock, and when it sets the flag there are no more items in the
queue than workers on their way to take one. -/
def Allowed (s : State κ φ α) (l : Thread κ × Action κ φ α) : Prop :=
  match l.2, s.pc l.1 with
  | .submit _ _, .running _ => (s.pc .destroyer).destroying = false
  | .run, .destroyLocking => ∀ i, (s.pc (.worker i)).waits = false
  | .run, .terminating => s.pending.length ≤ s.getting
  | _, _ => True

instance (s : State κ φ α) (l : Thread κ × Action κ φ α) : Decidable (Allowed s l) := by
  unfold Allowed
  split <;> infer_instance

/-- A worker waits for the lock that `tp_destroy` keeps until the worker has finished. -/
def Blocked (s : State κ φ α) : Prop :=
  (s.pc .destroyer).destroying = true ∧ ∃ i, (s.pc (.worker i)).waits = true

/-- More items are left than workers that still come for one. -/
def Short (s : State κ φ α) : Prop := s.terminated = true ∧ s.getting < s.pending.length

/-- The queue and what became of the items. -/
structure Stock (s : State κ φ α) (pending : List (WorkItem φ α)) (k : ℕ) : Prop where
  /-- No item stands behind a null. -/
  list_eq : s.list = pending.map some ++ List.replicate k none
  /-- Nulls are put after the flag is set. -/
  clear : s.terminated = false → k = 0
  /-- Each item put is called, in the hand of a worker or in the queue. -/
  items : (s.enqueued : Multiset (WorkItem φ α)) = s.called + s.total Pc.hand + pending

/-- Every item is created once. -/
structure Fresh (s : State κ φ α) : Prop where
  below : ∀ x ∈ s.enqueued, x.id < s.created
  distinct : (s.enqueued.map WorkItem.id).Nodup
  /-- An item about to be put is not in the queue. -/
  carried : ∀ p x, (s.pc p).carried = some x →
    x.id < s.created ∧ x.id ∉ s.enqueued.map WorkItem.id

/-- What every reachable state satisfies. -/
structure Inv (s : State κ φ α) : Prop where
  role : ∀ p, (s.pc p).role = p.role
  locked : s.lock.HeldBy fun p => (s.pc p).lockHeld = true
  queueLocked : s.queue.HeldBy fun p => (s.pc p).queueHeld = true
  flag : s.terminated = (s.pc .destroyer).pastFlag
  /-- Once the flag is set, no item is put into the queue. -/
  closed : s.terminated = true → ∀ p, (s.pc p).carried = none
  fresh : Fresh s
  stock : ∃ pending k, Stock s pending k
  joined : ∀ i : Fin nthreads, (i : ℕ) < (s.pc .destroyer).joined → s.pc (.worker i) = .finished

variable [DecidableEq κ] {s t : State κ φ α} {p : Thread κ} {q : Pc φ α} {a : Action κ φ α}

/-- A worker moves. -/
theorem total_worker {M : Type*} [AddCommMonoid M] (f : Pc φ α → M) {i : Fin nthreads}
    (hpc : t.pc = Function.update s.pc (.worker i) q) :
    t.total f + f (s.pc (.worker i)) = s.total f + f q := by
  have hrest : ∑ j ∈ Finset.univ.erase i, f (t.pc (.worker j)) =
      ∑ j ∈ Finset.univ.erase i, f (s.pc (.worker j)) := by
    refine Finset.sum_congr rfl fun j hj => ?_
    have hne : (Thread.worker j : Thread κ) ≠ .worker i := fun he =>
      Finset.ne_of_mem_erase hj (Thread.worker.inj he)
    rw [hpc, Function.update_of_ne hne]
  have hself : t.pc (.worker i) = q := by rw [hpc, Function.update_self]
  rw [State.total, State.total, ← Finset.sum_erase_add _ _ (Finset.mem_univ i),
    ← Finset.sum_erase_add Finset.univ (fun j => f (s.pc (.worker j))) (Finset.mem_univ i), hrest,
    hself, add_right_comm]

/-- A thread moves, and the sum does not see it. -/
theorem total_same {M : Type*} [AddCommMonoid M] (f : Pc φ α → M)
    (hpc : t.pc = Function.update s.pc p q) (hq : f q = f (s.pc p)) : t.total f = s.total f := by
  refine Finset.sum_congr rfl fun j _ => ?_
  rw [hpc]
  rcases eq_or_ne (.worker j) p with rfl | hne
  · rw [Function.update_self, hq]
  · rw [Function.update_of_ne hne]

/-- A thread moves, and what is asked of each place holds of the new one. -/
theorem forall_moved {P : Thread κ → Pc φ α → Prop} (h : ∀ r, P r (s.pc r))
    (hpc : t.pc = Function.update s.pc p q) (hq : P p q) : ∀ r, P r (t.pc r) := by
  intro r
  rw [hpc]
  rcases eq_or_ne r p with rfl | hne
  · rw [Function.update_self]
    exact hq
  · rw [Function.update_of_ne hne]
    exact h r

/-- Threads keep to their code. -/
theorem Executed.role_eq {o : Pc φ α} (hex : Executed s p a o t) :
    ∃ q, t.pc = Function.update s.pc p q ∧ q.role = o.role := by
  cases hex with
  | putLocked k | inserted k | signaled k | putUnlocked k | submitUnlocked k =>
    exact ⟨_, rfl, by cases k <;> rfl⟩
  | _ => exact ⟨_, rfl, rfl⟩

/-- Every step keeps the threads to their code. -/
theorem Inv.role_step (h : Inv s) (hex : Executed s p a (s.pc p) t) (r : Thread κ) :
    (t.pc r).role = r.role := by
  obtain ⟨q, hpc, hq⟩ := hex.role_eq
  exact forall_moved (P := fun r o => o.role = r.role) h.role hpc (hq.trans (h.role p)) r

/-- The pool's lock stays with the thread inside. -/
theorem Inv.locked_step (h : Inv s) (hex : Executed s p a (s.pc p) t) :
    t.lock.HeldBy fun r => (t.pc r).lockHeld = true := by
  have hstays {t : State κ φ α} {q : Pc φ α} (hlock : t.lock = s.lock)
      (hpc : t.pc = Function.update s.pc p q) (hq : q.lockHeld = (s.pc p).lockHeld) :=
    h.locked.stays (I := fun o : Pc φ α => o.lockHeld = true) (n := t.lock) (by rw [hlock]) hpc
      (by rw [hq])
  generalize hp : s.pc p = old at hex hstays
  cases hex with
  | submitLocked k func arg hfree =>
    exact h.locked.moves_in (I := fun o : Pc φ α => o.lockHeld = true) hfree rfl rfl rfl
  | destroyLocked hfree =>
    exact h.locked.moves_in (I := fun o : Pc φ α => o.lockHeld = true) hfree rfl rfl rfl
  | submitUnlocked k hheld =>
    exact h.locked.moves_out (I := fun o : Pc φ α => o.lockHeld = true) hheld rfl rfl
      (by cases k <;> nofun)
  | destroyUnlocked hheld =>
    exact h.locked.moves_out (I := fun o : Pc φ α => o.lockHeld = true) hheld rfl rfl nofun
  | putUnlocked k => exact hstays rfl rfl (by cases k <;> rfl)
  | _ => exact hstays rfl rfl rfl

/-- The queue's lock stays with the thread inside. -/
theorem Inv.queueLocked_step (h : Inv s) (hex : Executed s p a (s.pc p) t) :
    t.queue.HeldBy fun r => (t.pc r).queueHeld = true := by
  have hstays {t : State κ φ α} {q : Pc φ α} (hqueue : t.queue.holder = s.queue.holder)
      (hpc : t.pc = Function.update s.pc p q) (hq : q.queueHeld = (s.pc p).queueHeld) :=
    h.queueLocked.stays (I := fun o : Pc φ α => o.queueHeld = true) (n := t.queue) hqueue hpc
      (by rw [hq])
  have henters {t : State κ φ α} {q : Pc φ α} (hfree : s.queue.holder = none)
      (hqueue : t.queue.holder = some p) (hpc : t.pc = Function.update s.pc p q)
      (hq : q.queueHeld = true) :=
    h.queueLocked.moves_in (I := fun o : Pc φ α => o.queueHeld = true) hfree hqueue hpc hq
  have hleaves {t : State κ φ α} {q : Pc φ α} (hheld : s.queue.holder = some p)
      (hqueue : t.queue.holder = none) (hpc : t.pc = Function.update s.pc p q)
      (hq : ¬ q.queueHeld = true) :=
    h.queueLocked.moves_out (I := fun o : Pc φ α => o.queueHeld = true) hheld hqueue hpc hq
  generalize hp : s.pc p = old at hex hstays
  cases hex with
  | putLocked k hfree | getLocked hfree | getRelocked hfree => exact henters hfree rfl rfl rfl
  | putUnlocked k hheld => exact hleaves hheld rfl rfl (by cases k <;> nofun)
  | getEmpty hheld | getUnlocked item hheld => exact hleaves hheld rfl rfl nofun
  | signaled k w m hm => exact hstays (Monitor.signal_holder hm) rfl rfl
  | woken m hm => exact hstays (Monitor.signal_holder hm) rfl rfl
  | submitUnlocked k => exact hstays rfl rfl (by cases k <;> rfl)
  | _ => exact hstays rfl rfl rfl

omit [DecidableEq κ] in
/-- Only the destroyer executes its code. -/
theorem Inv.destroyer_of (h : Inv s) (hp : (s.pc p).role = .destroyer) : p = .destroyer := by
  have hrole := (h.role p).symm.trans hp
  cases p with
  | destroyer => rfl
  | _ => cases hrole

omit [DecidableEq κ] in
/-- Only workers execute their code. -/
theorem Inv.worker_of (h : Inv s) (hp : (s.pc p).role = .worker) : ∃ i, p = .worker i := by
  have hrole := (h.role p).symm.trans hp
  cases p with
  | worker i => exact ⟨i, rfl⟩
  | _ => cases hrole

omit [DecidableEq κ] in
/-- The destroyer's own place tells whether the flag is set. -/
theorem Inv.flag_of_place (h : Inv s) (hp : (s.pc p).role = .destroyer) :
    s.terminated = (s.pc p).pastFlag := by
  rw [h.destroyer_of hp]
  exact h.flag

omit [DecidableEq κ] in
/-- While a thread comes to put an item, the flag is not set. -/
theorem Inv.unset_of_carried (h : Inv s) {x : WorkItem φ α} (hx : (s.pc p).carried = some x) :
    s.terminated = false := by
  cases hset : s.terminated with
  | false => rfl
  | true => cases (h.closed hset p).symm.trans hx

/-- What the destroyer's place says, when a step of its own or another's leaves it alone. -/
theorem destroyer_same {β : Type*} (f : Pc φ α → β) (hpc : t.pc = Function.update s.pc p q)
    (hq : f q = f (s.pc p)) : f (t.pc .destroyer) = f (s.pc .destroyer) := by
  rw [hpc]
  rcases eq_or_ne .destroyer p with rfl | hne
  · rw [Function.update_self, hq]
  · rw [Function.update_of_ne hne]

/-- The flag is set where the destroyer has set it. -/
theorem Inv.flag_step (h : Inv s) (hex : Executed s p a (s.pc p) t) :
    t.terminated = (t.pc .destroyer).pastFlag := by
  have hflag := h.flag
  have hsame {t : State κ φ α} {q : Pc φ α} (hpc : t.pc = Function.update s.pc p q)
      (hset : t.terminated = s.terminated) (hq : q.pastFlag = (s.pc p).pastFlag) :
      t.terminated = (t.pc .destroyer).pastFlag := by
    rw [hset, hflag, destroyer_same Pc.pastFlag hpc hq]
  generalize hp : s.pc p = old at hex hsame
  cases hex with
  | terminated =>
    have hself := h.destroyer_of (p := p) (by rw [hp]; rfl)
    subst hself
    show true = (Function.update s.pc .destroyer (.filling 0) .destroyer).pastFlag
    rw [Function.update_self]
    rfl
  | destroyedBefore hset =>
    have hunset := h.flag_of_place (p := p) (by rw [hp]; rfl)
    rw [hset, hp] at hunset
    cases hunset
  | putLocked k | inserted k | signaled k | putUnlocked k | submitUnlocked k =>
    exact hsame rfl rfl (by cases k <;> rfl)
  | _ => exact hsame rfl rfl rfl

omit [DecidableEq κ] in
/-- An item is carried under the pool's lock. -/
theorem lockHeld_of_carried {x : WorkItem φ α} (hx : q.carried = some x) : q.lockHeld = true := by
  cases q with
  | putting => rfl
  | _ => cases hx

/-- Once the flag is set, nobody comes to put an item. -/
theorem Inv.closed_step (h : Inv s) (hex : Executed s p a (s.pc p) t)
    (hset : t.terminated = true) : ∀ r, (t.pc r).carried = none := by
  have hsame {t : State κ φ α} {q : Pc φ α} (hbefore : s.terminated = true)
      (hpc : t.pc = Function.update s.pc p q)
      (hq : (s.pc p).carried = none → q.carried = none) : ∀ r, (t.pc r).carried = none :=
    forall_moved (P := fun _ o => o.carried = none) (h.closed hbefore) hpc
      (hq (h.closed hbefore p))
  generalize hp : s.pc p = old at hex hsame
  cases hex with
  | terminated =>
    intro r
    show (Function.update s.pc p (.filling 0) r).carried = none
    rcases eq_or_ne r p with rfl | hne
    · rw [Function.update_self]
      rfl
    · rw [Function.update_of_ne hne, Option.eq_none_iff_forall_ne_some]
      intro x hx
      have hin : (s.pc r).lockHeld = true := lockHeld_of_carried hx
      exact hne (h.locked.unique hin (by rw [hp]; rfl))
  | accepted k func arg hclear =>
    rw [show s.terminated = true from hset] at hclear
    cases hclear
  | inserted k => exact hsame hset rfl (by cases k <;> exact fun _ => rfl)
  | putLocked k | signaled k | putUnlocked k | submitUnlocked k =>
    exact hsame hset rfl (by cases k <;> exact id)
  | _ => exact hsame hset rfl id

/-- Every step keeps the items apart. -/
theorem Inv.fresh_step (h : Inv s) (hex : Executed s p a (s.pc p) t) : Fresh t := by
  obtain ⟨hbelow, hdistinct, hcarried⟩ := h.fresh
  have hsame {t : State κ φ α} {q : Pc φ α} (hpc : t.pc = Function.update s.pc p q)
      (hcreated : t.created = s.created) (henqueued : t.enqueued = s.enqueued)
      (hq : ∀ x, q.carried = some x → (s.pc p).carried = some x) : Fresh t := by
    refine ⟨?_, ?_, ?_⟩
    · rw [hcreated, henqueued]
      exact hbelow
    · rw [henqueued]
      exact hdistinct
    · rw [hcreated, henqueued]
      exact forall_moved (P := fun _ o => ∀ x, o.carried = some x →
        x.id < s.created ∧ x.id ∉ s.enqueued.map WorkItem.id) hcarried hpc
        fun x hx => hcarried p x (hq x hx)
  generalize hp : s.pc p = old at hex hsame
  cases hex with
  | accepted k func arg =>
    refine ⟨fun x hx => Nat.lt_succ_of_lt (hbelow x hx), hdistinct, ?_⟩
    refine forall_moved (P := fun _ o => ∀ x, o.carried = some x →
      x.id < s.created + 1 ∧ x.id ∉ s.enqueued.map WorkItem.id) (fun r x hx => ?_) rfl fun x hx => ?_
    · have hold := hcarried r x hx
      exact ⟨Nat.lt_succ_of_lt hold.1, hold.2⟩
    · rw [← Option.some.inj hx]
      refine ⟨Nat.lt_succ_self _, fun hmem => ?_⟩
      obtain ⟨y, hy, hid⟩ := List.mem_map.mp hmem
      have hlt := hbelow y hy
      rw [hid] at hlt
      exact Nat.lt_irrefl _ hlt
  | inserted k =>
    cases k with
    | destroy i => exact hsame rfl rfl (List.append_nil _) nofun
    | submit k wi =>
      have hwi := hcarried p wi (by rw [hp]; rfl)
      refine ⟨?_, ?_, ?_⟩
      · intro x hx
        rcases List.mem_append.mp hx with hx | hx
        · exact hbelow x hx
        · rw [List.mem_singleton.mp hx]
          exact hwi.1
      · show ((s.enqueued ++ [wi]).map WorkItem.id).Nodup
        rw [List.map_append, List.map_singleton]
        refine List.nodup_append.mpr ⟨hdistinct, List.nodup_singleton _, fun i hi j hj he => ?_⟩
        rw [he, List.mem_singleton.mp hj] at hi
        exact hwi.2 hi
      · intro r x hx
        change (Function.update s.pc p _ r).carried = some x at hx
        rcases eq_or_ne r p with rfl | hne
        · rw [Function.update_self] at hx
          cases hx
        · rw [Function.update_of_ne hne] at hx
          exact absurd (h.locked.unique (lockHeld_of_carried hx) (by rw [hp]; rfl)) hne
  | putLocked k | signaled k | putUnlocked k | submitUnlocked k =>
    exact hsame rfl rfl rfl (by cases k <;> exact fun _ hx => hx)
  | _ => exact hsame rfl rfl rfl fun _ hx => hx

/-- A thread that has finished is not the one that moves. -/
theorem finished_of_executed {r : Thread κ} (hex : Executed s p a (s.pc p) t)
    (hr : s.pc r = .finished) : t.pc r = .finished := by
  obtain ⟨q, hpc, -⟩ := hex.role_eq
  have hne : r ≠ p := by
    rintro rfl
    rw [hr] at hex
    cases hex
  rw [hpc, Function.update_of_ne hne, hr]

/-- The workers that are joined have finished. -/
theorem Inv.joined_step (h : Inv s) (hex : Executed s p a (s.pc p) t) (i : Fin nthreads)
    (hi : (i : ℕ) < (t.pc .destroyer).joined) : t.pc (.worker i) = .finished := by
  have hbefore : (i : ℕ) < (s.pc .destroyer).joined → t.pc (.worker i) = .finished :=
    fun hlt => finished_of_executed hex (h.joined i hlt)
  have hsame {t : State κ φ α} {q : Pc φ α} (hpc : t.pc = Function.update s.pc p q)
      (hi : (i : ℕ) < (t.pc .destroyer).joined) (hq : q.joined = (s.pc p).joined) :
      (i : ℕ) < (s.pc .destroyer).joined := by
    rw [← destroyer_same Pc.joined hpc hq]
    exact hi
  have hex' := hex
  generalize hp : s.pc p = old at hex hsame
  cases hex with
  | destroyedBefore hset =>
    have hunset := h.flag_of_place (p := p) (by rw [hp]; rfl)
    rw [hset, hp] at hunset
    cases hunset
  | join j hj =>
    have hself := h.destroyer_of (p := p) (by rw [hp]; rfl)
    subst hself
    change (i : ℕ) < (Function.update s.pc .destroyer _ .destroyer).joined at hi
    rw [Function.update_self] at hi
    rcases Nat.lt_succ_iff_lt_or_eq.mp hi with hlt | heq
    · exact hbefore (by rw [hp]; exact hlt)
    · rw [Fin.ext heq]
      exact finished_of_executed hex' hj
  | joined j hj =>
    have hself := h.destroyer_of (p := p) (by rw [hp]; rfl)
    subst hself
    refine hbefore ?_
    rw [hp]
    exact Nat.lt_of_lt_of_le i.isLt (Nat.le_of_not_lt hj)
  | filled j =>
    have hself := h.destroyer_of (p := p) (by rw [hp]; rfl)
    subst hself
    change (i : ℕ) < (Function.update s.pc .destroyer _ .destroyer).joined at hi
    rw [Function.update_self] at hi
    exact absurd hi (Nat.not_lt_zero _)
  | putUnlocked k | submitUnlocked k => exact hbefore (hsame rfl hi (by cases k <;> rfl))
  | _ =>
    refine hbefore (hsame rfl hi ?_)
    rfl

/-- A thread moves without the queue and the items. -/
theorem Stock.moved {pending : List (WorkItem φ α)} {k : ℕ} (h : Stock s pending k)
    (hpc : t.pc = Function.update s.pc p q) (hlist : t.list = s.list)
    (hclear : t.terminated = false → s.terminated = false) (henqueued : t.enqueued = s.enqueued)
    (hcalled : t.called = s.called) (hhand : q.hand = (s.pc p).hand) : Stock t pending k where
  list_eq := hlist.trans h.list_eq
  clear hc := h.clear (hclear hc)
  items := by rw [henqueued, hcalled, total_same Pc.hand hpc hhand, h.items]

/-- A worker takes the first entry: the oldest item, or a null when no item is left. -/
theorem Stock.removed {pending : List (WorkItem φ α)} {k : ℕ} (h : Stock s pending k)
    {i : Fin nthreads} {item : Option (WorkItem φ α)} {rest : List (Option (WorkItem φ α))}
    (hpc : s.pc (.worker i) = .getRemoving) (hlist : s.list = item :: rest) :
    ∃ pending' k', pending = item.toList ++ pending' ∧ (item = none → pending' = []) ∧
      Stock ({ s with list := rest }.goto (.worker i) (.getUnlocking item)) pending' k' := by
  have hlisted := h.list_eq
  rw [hlist] at hlisted
  have htotal := total_worker (s := s) (q := .getUnlocking item) Pc.hand (i := i)
    (t := { s with list := rest }.goto (.worker i) (.getUnlocking item)) rfl
  rw [hpc, show Pc.hand (.getRemoving : Pc φ α) = 0 from rfl, add_zero] at htotal
  cases pending with
  | nil =>
    cases k with
    | zero => cases hlisted
    | succ k =>
      obtain ⟨rfl, hrest⟩ := List.cons.inj hlisted
      refine ⟨[], k, rfl, fun _ => rfl, hrest, fun hclear => ?_, ?_⟩
      · have hk := h.clear hclear
        omega
      · rw [htotal]
        rw [show Pc.hand (.getUnlocking none : Pc φ α) = 0 from rfl, add_zero]
        exact h.items
  | cons x pending =>
    obtain ⟨rfl, hrest⟩ := List.cons.inj hlisted
    refine ⟨pending, k, rfl, nofun, hrest, h.clear, ?_⟩
    rw [htotal]
    show (s.enqueued : Multiset (WorkItem φ α)) = _
    rw [h.items, show Pc.hand (.getUnlocking (some x)) = {x} from rfl, ← Multiset.cons_coe,
      ← Multiset.singleton_add]
    simp only [add_assoc]
    rfl

/-- Every step keeps track of the items. -/
theorem Inv.stock_step (h : Inv s) (hex : Executed s p a (s.pc p) t) :
    ∃ pending k, Stock t pending k := by
  obtain ⟨pending, k, hstock⟩ := h.stock
  have hsame {t : State κ φ α} {q : Pc φ α} (hpc : t.pc = Function.update s.pc p q)
      (hlist : t.list = s.list) (hclear : t.terminated = false → s.terminated = false)
      (henqueued : t.enqueued = s.enqueued) (hcalled : t.called = s.called)
      (hhand : q.hand = (s.pc p).hand) : ∃ pending k, Stock t pending k :=
    ⟨pending, k, hstock.moved hpc hlist hclear henqueued hcalled hhand⟩
  generalize hp : s.pc p = old at hex hsame
  cases hex with
  | inserted c =>
    cases c with
    | submit c wi =>
      have hk := hstock.clear (h.unset_of_carried (p := p) (by rw [hp]; rfl))
      subst hk
      refine ⟨pending ++ [wi], 0, ?_, fun _ => rfl, ?_⟩
      · show s.list ++ [some wi] = _
        rw [hstock.list_eq, List.map_append]
        simp
      · show ((s.enqueued ++ [wi] : List _) : Multiset (WorkItem φ α)) = s.called + _ + _
        rw [total_same (s := s) (p := p) (q := .putting (.submit c wi) .signaling) Pc.hand rfl
          (by rw [hp]; rfl), ← Multiset.coe_add, hstock.items, ← Multiset.coe_add, add_assoc]
    | destroy i =>
      refine ⟨pending, k + 1, ?_, fun hclear => ?_, ?_⟩
      · show s.list ++ [none] = _
        rw [hstock.list_eq, List.append_assoc, List.replicate_succ']
      · have hflag := h.flag_of_place (p := p) (by rw [hp]; rfl)
        rw [show s.terminated = false from hclear, hp] at hflag
        cases hflag
      · have hmoved := hstock.moved (t := s.goto p (.putting (.destroy i) .signaling)) rfl rfl id
          rfl rfl (by rw [hp]; rfl)
        show ((s.enqueued ++ [] : List _) : Multiset (WorkItem φ α)) = _
        rw [List.append_nil]
        exact hmoved.items
  | removed item rest hlist =>
    obtain ⟨i, rfl⟩ := h.worker_of (p := p) (by rw [hp]; rfl)
    obtain ⟨pending', k', -, -, hstock'⟩ := hstock.removed hp hlist
    exact ⟨pending', k', hstock'⟩
  | called x =>
    obtain ⟨i, rfl⟩ := h.worker_of (p := p) (by rw [hp]; rfl)
    have htotal := total_worker (s := s) (q := .running x) Pc.hand (i := i)
      (t := { s with called := s.called ++ [x] }.goto (.worker i) (.running x)) rfl
    rw [hp, show Pc.hand (.running x) = 0 from rfl, add_zero,
      show Pc.hand (.calling x) = {x} from rfl] at htotal
    refine ⟨pending, k, hstock.list_eq, hstock.clear, ?_⟩
    show (s.enqueued : Multiset (WorkItem φ α)) = ((s.called ++ [x] : List _) : Multiset _) + _ + _
    rw [hstock.items, ← htotal, ← Multiset.coe_add, Multiset.coe_singleton]
    simp only [add_assoc, add_comm]
  | putLocked c | signaled c | putUnlocked c | submitUnlocked c =>
    exact hsame rfl rfl id rfl rfl (by cases c <;> rfl)
  | getUnlocked item => exact hsame rfl rfl id rfl rfl (by cases item <;> rfl)
  | terminated => exact hsame rfl rfl nofun rfl rfl rfl
  | _ =>
    refine hsame rfl rfl id rfl rfl ?_
    rfl

/-- Every step keeps the invariant. -/
theorem Inv.step (h : Inv s) (hex : Executed s p a (s.pc p) t) : Inv t where
  role := h.role_step hex
  locked := h.locked_step hex
  queueLocked := h.queueLocked_step hex
  flag := h.flag_step hex
  closed := h.closed_step hex
  fresh := h.fresh_step hex
  stock := h.stock_step hex
  joined := h.joined_step hex

omit [DecidableEq κ] in
/-- The pool after `tp_init`. -/
theorem inv_initial : Inv (initial : State κ φ α) where
  role p := by cases p <;> rfl
  locked p := by cases p <;> exact ⟨fun hin => (nomatch hin), fun he => nomatch he⟩
  queueLocked p := by cases p <;> exact ⟨fun hin => (nomatch hin), fun he => nomatch he⟩
  flag := rfl
  closed hset := nomatch hset
  fresh := ⟨fun _ hx => (nomatch hx), List.nodup_nil, fun p _ hx => by cases p <;> cases hx⟩
  stock := by
    refine ⟨[], 0, rfl, fun _ => rfl, ?_⟩
    have hhands : (initial : State κ φ α).total Pc.hand = 0 := Finset.sum_const_zero
    rw [hhands]
    rfl
  joined i hi := absurd hi (Nat.not_lt_zero _)

omit [DecidableEq κ] in
/-- The items of the queue are those before the nulls. -/
theorem Stock.pending_eq {pending : List (WorkItem φ α)} {k : ℕ} (h : Stock s pending k) :
    s.pending = pending := by
  rw [State.pending, h.list_eq, List.filterMap_append, List.filterMap_replicate_of_none rfl,
    List.append_nil, List.filterMap_map]
  exact List.filterMap_some

omit [DecidableEq κ] in
/-- A sum over workers that have all finished. -/
theorem total_finished {M : Type*} [AddCommMonoid M] (f : Pc φ α → M) (hf : f .finished = 0)
    (hfinished : ∀ i, s.pc (.worker i) = .finished) : s.total f = 0 :=
  Finset.sum_eq_zero fun i _ => by rw [hfinished i, hf]

omit [DecidableEq κ] in
/-- When `tp_destroy` has returned, an item was not called exactly if it is in the queue. -/
theorem Inv.returned (h : Inv s) (hpc : s.pc .destroyer = .returned) :
    (∀ i, s.pc (.worker i) = .finished) ∧
      (s.enqueued : Multiset (WorkItem φ α)) = s.called + s.pending := by
  have hfinished : ∀ i, s.pc (.worker i) = .finished :=
    fun i => h.joined i (by rw [hpc]; exact i.isLt)
  obtain ⟨pending, k, hstock⟩ := h.stock
  refine ⟨hfinished, ?_⟩
  rw [hstock.pending_eq, hstock.items, total_finished Pc.hand rfl hfinished, add_zero]

omit [DecidableEq κ] in
/-- Without a worker that waits for the lock and with enough workers for the
items, shutdown is safe. -/
theorem Inv.safe (h : Inv s) (hblocked : ¬ Blocked s) (hshort : ¬ Short s) : Safe s where
  distinct := h.fresh.distinct
  complete := by
    intro hpc
    obtain ⟨hfinished, hitems⟩ := h.returned hpc
    have hset : s.terminated = true := by rw [h.flag, hpc]; rfl
    have hgetting : s.getting = 0 := total_finished _ rfl hfinished
    have hempty : s.pending = [] := by
      refine List.length_eq_zero_iff.mp (Nat.le_zero.mp (Nat.le_of_not_lt fun hlt => ?_))
      exact hshort ⟨hset, by rwa [hgetting]⟩
    rw [hempty, Multiset.coe_nil, add_zero] at hitems
    exact ⟨hfinished, (Multiset.coe_eq_coe.mp hitems).symm⟩
  live := by
    rintro ⟨i, hpc, ⟨hwaits, -⟩ | ⟨-, hheld⟩⟩
    · exact hblocked ⟨by rw [hpc]; rfl, i, hwaits⟩
    · have hin : (s.pc .destroyer).queueHeld = true := (h.queueLocked _).mpr hheld
      rw [hpc] at hin
      cases hin

/-- A step that changes no place that matters leaves a worker blocked, or none. -/
theorem blocked_same (hpc : t.pc = Function.update s.pc p q)
    (hdestroying : q.destroying = (s.pc p).destroying) (hwaits : q.waits = (s.pc p).waits) :
    Blocked t ↔ Blocked s := by
  unfold Blocked
  rw [destroyer_same Pc.destroying hpc hdestroying]
  have hworker (i : Fin nthreads) : (t.pc (.worker i)).waits = (s.pc (.worker i)).waits :=
    forall_moved (P := fun r o => o.waits = (s.pc r).waits) (fun _ => rfl) hpc hwaits _
  simp only [hworker]

/-- Steps by which a worker comes to wait for the lock of `tp_destroy`. -/
def Blocks (s : State κ φ α) : Action κ φ α → Pc φ α → Prop
  | .submit _ _, .running _ => (s.pc .destroyer).destroying = true
  | .run, .destroyLocking => ∃ i, (s.pc (.worker i)).waits = true
  | _, _ => False

/-- Steps that leave too few workers for the items. -/
def Shortens (s : State κ φ α) : Action κ φ α → Pc φ α → Prop
  | .run, .terminating => s.getting < s.pending.length
  | _, _ => False

omit [DecidableEq κ] in
/-- These are the steps that are not allowed. -/
theorem not_allowed_iff : ¬ Allowed s (p, a) ↔ Blocks s a (s.pc p) ∨ Shortens s a (s.pc p) := by
  unfold Allowed
  split
  · next ha hpc =>
    simp only at ha hpc
    rw [ha, hpc]
    simp [Blocks, Shortens]
  · next ha hpc =>
    simp only at ha hpc
    rw [ha, hpc]
    simp [Blocks, Shortens]
  · next ha hpc =>
    simp only at ha hpc
    rw [ha, hpc]
    simp [Blocks, Shortens]
  · next hsubmit hlock hterminate =>
    unfold Blocks Shortens
    split <;> split <;> simp_all

omit [DecidableEq κ] in
/-- `tp_destroy` joins with the pool's lock in its hands. -/
theorem lockHeld_of_destroying (hq : q.destroying = true) : q.lockHeld = true := by
  cases q with
  | putting | destroyChecking | terminating | filling | joining | destroyUnlocking => rfl
  | _ => cases hq

/-- A client moves. -/
theorem blocked_client (hpc : t.pc = Function.update s.pc p q) (hp : p.role = .client) :
    Blocked t ↔ Blocked s := by
  have hother (r : Thread κ) (hr : r.role ≠ .client) : t.pc r = s.pc r := by
    have hne : r ≠ p := fun he => hr (by rw [he, hp])
    rw [hpc, Function.update_of_ne hne]
  have hworker (i : Fin nthreads) := hother (.worker i) nofun
  unfold Blocked
  simp only [hother .destroyer nofun, hworker]

/-- A worker comes to wait. -/
theorem blocked_worker {i : Fin nthreads} (hpc : t.pc = Function.update s.pc (.worker i) q)
    (hq : q.waits = true) : Blocked t ↔ (s.pc .destroyer).destroying = true := by
  have hne : (Thread.destroyer : Thread κ) ≠ .worker i := nofun
  have hdestroyer : t.pc .destroyer = s.pc .destroyer := by rw [hpc, Function.update_of_ne hne]
  have hself : t.pc (.worker i) = q := by rw [hpc, Function.update_self]
  unfold Blocked
  rw [hdestroyer]
  exact ⟨And.left, fun hd => ⟨hd, i, by rw [hself, hq]⟩⟩

/-- The destroyer moves. -/
theorem blocked_destroyer (hpc : t.pc = Function.update s.pc .destroyer q) :
    Blocked t ↔ q.destroying = true ∧ ∃ i, (s.pc (.worker i)).waits = true := by
  have hself : t.pc .destroyer = q := by rw [hpc, Function.update_self]
  have hne (i : Fin nthreads) : (Thread.worker i : Thread κ) ≠ .destroyer := nofun
  have hworker (i : Fin nthreads) : t.pc (.worker i) = s.pc (.worker i) := by
    rw [hpc, Function.update_of_ne (hne i)]
  unfold Blocked
  simp only [hself, hworker]

/-- A worker that waits for the lock of `tp_destroy` waits for ever. -/
theorem Inv.blocked_iff (h : Inv s) (hex : Executed s p a (s.pc p) t) :
    Blocked t ↔ Blocked s ∨ Blocks s a (s.pc p) := by
  have hsame {t : State κ φ α} {q : Pc φ α} (hpc : t.pc = Function.update s.pc p q)
      (hdestroying : q.destroying = (s.pc p).destroying) (hwaits : q.waits = (s.pc p).waits) :
      Blocked t ↔ Blocked s ∨ False := by
    rw [or_false]
    exact blocked_same hpc hdestroying hwaits
  generalize hp : s.pc p = old at hex hsame
  cases hex with
  | submitCall func arg =>
    rw [blocked_client (p := p) rfl (by rw [← h.role p, hp]; rfl)]
    exact (or_iff_left fun hb => hb).symm
  | submitInside x func arg =>
    obtain ⟨i, rfl⟩ := h.worker_of (p := p) (by rw [hp]; rfl)
    rw [blocked_worker (i := i) rfl rfl]
    exact ⟨.inr, fun hb => hb.elim And.left id⟩
  | submitLocked k func arg hfree =>
    -- The lock is free, so the destroyer is outside.
    have hout : ¬ (s.pc .destroyer).destroying = true := fun hd => by
      have hheld := (h.locked .destroyer).mp (lockHeld_of_destroying hd)
      rw [hfree] at hheld
      cases hheld
    have hsameD := destroyer_same (s := s) (q := .submitChecking k func arg) Pc.destroying
      (t := { s with lock := { s.lock with holder := some p } }.goto p (.submitChecking k func arg))
      rfl (by rw [hp]; rfl)
    refine ⟨fun hb => ?_, fun hb => ?_⟩
    · exact absurd (hsameD.symm.trans hb.1) hout
    · exact hb.elim (fun hs => absurd hs.1 hout) nofun
  | destroyLocked hfree =>
    obtain rfl := h.destroyer_of (p := p) (by rw [hp]; rfl)
    rw [blocked_destroyer rfl]
    refine ⟨fun hb => .inr hb.2, fun hb => ⟨rfl, hb.elim And.right id⟩⟩
  | destroyUnlocked hheld =>
    -- By now all workers have finished.
    obtain rfl := h.destroyer_of (p := p) (by rw [hp]; rfl)
    rw [blocked_destroyer rfl]
    refine ⟨fun hb => (nomatch hb.1), fun hb => ?_⟩
    rcases hb with ⟨-, i, hi⟩ | hb
    · rw [h.joined i (by rw [hp]; exact i.isLt)] at hi
      cases hi
    · cases hb
  | putUnlocked k | submitUnlocked k | putLocked k | inserted k | signaled k =>
    exact hsame rfl (by cases k <;> rfl) (by cases k <;> rfl)
  | _ => exact hsame rfl rfl rfl

/-- A step that changes neither the queue nor the workers on their way to it. -/
theorem short_same (hpc : t.pc = Function.update s.pc p q) (hset : t.terminated = s.terminated)
    (hpending : t.pending = s.pending) (hgetting : q.getting = (s.pc p).getting) :
    Short t ↔ Short s := by
  unfold Short State.getting
  rw [hset, hpending, total_same _ hpc (by rw [hgetting])]

/-- From the flag on the items and the workers that come for them go down together. -/
theorem Inv.short_iff (h : Inv s) (hex : Executed s p a (s.pc p) t) :
    Short t ↔ Short s ∨ Shortens s a (s.pc p) := by
  have hflag := h.flag
  have hsame {t : State κ φ α} {q : Pc φ α} (hpc : t.pc = Function.update s.pc p q)
      (hset : t.terminated = s.terminated) (hpending : t.pending = s.pending)
      (hgetting : q.getting = (s.pc p).getting) : Short t ↔ Short s ∨ False := by
    rw [or_false]
    exact short_same hpc hset hpending hgetting
  have hclear {t : State κ φ α} (hs : s.terminated = false) (ht : t.terminated = false) :
      Short t ↔ Short s ∨ False := by
    unfold Short
    simp only [hs, ht, Bool.false_eq_true, false_and, or_false]
  generalize hp : s.pc p = old at hex hsame
  cases hex with
  | terminated =>
    obtain rfl := h.destroyer_of (p := p) (by rw [hp]; rfl)
    rw [hp] at hflag
    have hgetting : ({ s with terminated := true }.goto .destroyer (.filling 0)).getting = s.getting :=
      total_same _ rfl (by rw [hp]; rfl)
    refine ⟨fun hshort => .inr ?_, fun hb => ⟨rfl, ?_⟩⟩
    · have hlt := hshort.2
      rw [hgetting] at hlt
      exact hlt
    · rw [hgetting]
      rcases hb with ⟨hset, -⟩ | hlt
      · rw [hflag] at hset
        cases hset
      · exact hlt
  | enter hset => exact hclear hset hset
  | inserted c =>
    cases c with
    | submit c wi =>
      have hset := h.unset_of_carried (p := p) (by rw [hp]; rfl)
      exact hclear hset hset
    | destroy i =>
      refine hsame rfl rfl ?_ rfl
      show (s.list ++ [none]).filterMap id = _
      rw [List.filterMap_append]
      exact List.append_nil _
  | removed item rest hlist =>
    obtain ⟨i, rfl⟩ := h.worker_of (p := p) (by rw [hp]; rfl)
    obtain ⟨pending, k, hstock⟩ := h.stock
    obtain ⟨pending', k', hpending, hnull, hstock'⟩ := hstock.removed hp hlist
    have hgetting := total_worker (s := s) (q := .getUnlocking item) (i := i)
      (t := { s with list := rest }.goto (.worker i) (.getUnlocking item))
      (fun q : Pc φ α => if q.getting then 1 else 0) rfl
    rw [hp] at hgetting
    change State.getting _ + 1 = s.getting + 0 at hgetting
    refine Iff.trans ?_ (or_iff_left fun hb => hb).symm
    unfold Short
    rw [hstock.pending_eq, hstock'.pending_eq, hpending, ← Nat.add_zero s.getting, ← hgetting]
    cases item with
    | none =>
      rw [hnull rfl]
      exact and_congr_right fun _ => ⟨fun hlt => (nomatch hlt), fun hlt => nomatch hlt⟩
    | some x => exact and_congr_right fun _ => (Nat.add_lt_add_iff_right (k := 1)).symm
  | putUnlocked k | submitUnlocked k => exact hsame rfl rfl rfl (by cases k <;> rfl)
  | _ => exact hsame rfl rfl rfl rfl

/-- A run goes wrong by a step that is not allowed, and then for good. -/
theorem Inv.defect_iff (h : Inv s) (hex : Executed s p a (s.pc p) t) :
    (Blocked t ∨ Short t) ↔ (Blocked s ∨ Short s) ∨ ¬ Allowed s (p, a) := by
  rw [h.blocked_iff hex, h.short_iff hex, not_allowed_iff, or_or_or_comm]

/-- `tp_destroy` has returned, or never will. -/
def Settled (s : State κ φ α) : Prop := s.pc .destroyer = .returned ∨ Deadlocked s

omit [DecidableEq κ] in
/-- At its end `tp_destroy` shows every defect. -/
theorem Inv.no_defect (h : Inv s) (hsettled : Settled s) (hsafe : Safe s) :
    ¬ (Blocked s ∨ Short s) := by
  have hreturned := hsettled.resolve_right hsafe.live
  rintro (⟨hd, -⟩ | ⟨-, hlt⟩)
  · rw [hreturned] at hd
    cases hd
  · obtain ⟨-, hitems⟩ := h.returned hreturned
    have hcalled := Multiset.coe_eq_coe.mpr (hsafe.complete hreturned).2
    rw [← hcalled, left_eq_add] at hitems
    rw [(Multiset.coe_eq_zero _).mp hitems] at hlt
    exact absurd hlt (Nat.not_lt_zero _)

/-- In every run all of whose steps are allowed, shutdown is safe. In a run that
takes `tp_destroy` to its end, no other steps can be safe. -/
theorem shutdown_safe_iff {trace : List (Transition (State κ φ α) (Thread κ × Action κ φ α))}
    (hrun : (pool κ φ α).Run initial trace t) :
    ((∀ x ∈ trace, Allowed x.source x.label) → ∀ x ∈ trace, Safe x.target) ∧
      (Settled t → (∀ x ∈ trace, Safe x.target) → ∀ x ∈ trace, Allowed x.source x.label) := by
  have hnone : ¬ (Blocked (initial : State κ φ α) ∨ Short (initial : State κ φ α)) := by
    rintro (⟨hd, -⟩ | ⟨hset, -⟩)
    · cases hd
    · cases hset
  have hkeep : ∀ s (l : Thread κ × Action κ φ α) t, Inv s → (pool κ φ α).step s l t → Inv t :=
    fun _ _ _ h hstep => h.step (next_executed hstep)
  have hdefect : ∀ s (l : Thread κ × Action κ φ α) t, Inv s → (pool κ φ α).step s l t →
      ((Blocked t ∨ Short t) ↔ (Blocked s ∨ Short s) ∨ ¬ Allowed s l) :=
    fun _ _ _ h hstep => h.defect_iff (next_executed hstep)
  constructor
  · intro hall x hx
    have hgood := (hrun.forall_good_iff (I := fun s => Inv s ∧ ¬ (Blocked s ∨ Short s))
      ⟨inv_initial, hnone⟩ fun s l t h hstep => ?_).mpr hall x hx
    · exact hgood.1.safe (fun hb => hgood.2 (.inl hb)) fun hs => hgood.2 (.inr hs)
    · rw [hdefect s l t h.1 hstep, not_or, not_not, and_iff_right h.2]
      exact and_iff_right (hkeep s l t h.1 hstep)
  · intro hsettled hsafe
    have hI : Inv t := System.Reachable.invariant (I := Inv) (fun s hs => hs ▸ inv_initial)
      (fun s l t _ h hstep => hkeep s l t h hstep) (hrun.reachable (.start rfl))
    have hiff := hrun.defect_iff inv_initial hnone hkeep hdefect
    cases hrun with
    | nil => exact fun _ hx => nomatch hx
    | snoc _ _ =>
      exact hiff.mp (hI.no_defect hsettled
        (hsafe _ (List.mem_append_right _ (List.mem_singleton.mpr rfl))))

/-- The statements by which `tp_destroy` sets the flag and queues the nulls. -/
def destroyLabels : List (Thread Unit × Action Unit ℕ ℕ) :=
  List.replicate 3 (.destroyer, .run) ++
    (List.replicate nthreads ([(.destroyer, .run), (.destroyer, .run), (.destroyer, .run),
      (.destroyer, .signal none), (.destroyer, .run)])).flatten ++ [(.destroyer, .run)]

/-- A client submits an item. -/
def submitLabels : List (Thread Unit × Action Unit ℕ ℕ) :=
  [(.client (), .submit 5 7), (.client (), .run), (.client (), .run), (.client (), .run),
    (.client (), .run), (.client (), .signal none), (.client (), .run), (.client (), .run)]

/-- The workers finish, and `tp_destroy` joins them and returns. -/
def joinLabels : List (Thread Unit × Action Unit ℕ ℕ) :=
  (List.finRange nthreads).map (fun i => (.worker i, .run)) ++
    List.replicate 12 (.destroyer, .run)

/-- Worker 0 executes the item before the pool is destroyed. -/
theorem shutdown_safe_iff_executed : ∃ s : State Unit ℕ ℕ,
    s.pc .destroyer = .returned ∧ s.called = [⟨0, 5, 7⟩] ∧ Safe s := by
  obtain ⟨trace, s, hrun, hall, hp⟩ := @System.Run.exists_of_any (State Unit ℕ ℕ) _
    (fun s => s = initial) State.next Allowed inferInstance
    (fun s => s.pc .destroyer = .returned ∧ s.called = [⟨0, 5, 7⟩])
    (submitLabels ++ List.replicate 8 (.worker 0, .run) ++ destroyLabels ++ joinLabels) initial
    (by decide +kernel)
  have hsafe := (shutdown_safe_iff hrun).1 hall
  obtain ⟨hreturned, hcalled⟩ := of_decide_eq_true hp
  refine ⟨s, hreturned, hcalled, ?_⟩
  cases hrun with
  | nil => cases hreturned
  | snoc _ _ => exact hsafe _ (List.mem_append_right _ (List.mem_singleton.mpr rfl))

/-- An item that no worker has come for when the flag is set is never executed,
and an item that submits while the pool is destroyed blocks its worker and the
destroyer. -/
theorem shutdown_loses_item_and_deadlocks :
    (∃ s : State Unit ℕ ℕ, (pool Unit ℕ ℕ).Reachable s ∧ s.pc .destroyer = .returned ∧
      s.enqueued = [⟨0, 5, 7⟩] ∧ s.called = []) ∧
    ∃ s : State Unit ℕ ℕ, (pool Unit ℕ ℕ).Reachable s ∧ Deadlocked s := by
  have hstart : (pool Unit ℕ ℕ).Reachable initial := .start rfl
  constructor
  · obtain ⟨s, hs, hp⟩ := hstart.exists_of_any (submitLabels ++ destroyLabels ++ joinLabels)
      (p := fun s => s.pc .destroyer = .returned ∧ s.enqueued = [⟨0, 5, 7⟩] ∧ s.called = [])
      (by decide +kernel)
    exact ⟨s, hs, of_decide_eq_true hp⟩
  · obtain ⟨s, hs, hp⟩ := hstart.exists_of_any
      (submitLabels ++ List.replicate 7 (.worker 0, .run) ++ destroyLabels ++
        [(.worker 0, .submit 6 8)])
      (p := fun s => s.pc .destroyer = .joining 0 ∧
        (s.pc (.worker 0)).waits = true ∧ s.lock.holder = some .destroyer) (by decide +kernel)
    obtain ⟨hjoining, hwaits⟩ := of_decide_eq_true hp
    exact ⟨s, hs, 0, hjoining, .inl hwaits⟩

end SistemasOperativos.FlagThreadPool
