import SistemasOperativos.OwnedConnections
import SistemasOperativos.PoolEchoThreads
import SistemasOperativos.TokenPlaces

/-!
# Each connection of the pool server has one owner

An accepted descriptor goes from the main thread through the queue to one
worker, which is the only one to use it and closes it. So no two workers share a
connection, also when the number of a closed descriptor comes back, the traffic
of a connection is echoed record by record, and nothing stays open behind
`tp_destroy`.
-/

namespace SistemasOperativos.PoolEcho

open TransitionRuns Connections TokenPlaces
open ByteMemory (Byte)
open ThreadPool (Thread Action Pc nthreads WorkItem Moves)

/-- Where the descriptor of a connection is. -/
inductive Place
  | thread (p : Thread Unit)
  | queue
  deriving DecidableEq

/-- Where a worker stands in `process_connection`, if it is in it. -/
def State.work (s : State) (i : Fin nthreads) : Option (ℕ × Serving) :=
  (s.running i).map fun cfd => (cfd, s.serving i)

/-- The descriptor that a thread has and has not closed. -/
def State.held (s : State) : Thread Unit → Option ℕ
  | .client () => holding (s.pool.pc mainThread)
  | .worker i =>
    match s.work i with
    | some (_, .returned) => none
    | some (cfd, _) => some cfd
    | none => holding (s.pool.pc (.worker i))

/-- How often a descriptor occurs in a place. -/
def State.occ (s : State) (fd : ℕ) : Place → ℕ
  | .thread p => if s.held p = some fd then 1 else 0
  | .queue => (queued s.pool).count fd

/-- What a worker has read from its connection and not written back. -/
def Owes : Option (ℕ × Serving) → List Byte → Prop
  | some (_, .writing msg), tail => tail = msg ∧ msg.length = sizeofMsg
  | some (_, .closing), tail => tail.length < sizeofMsg
  | _, tail => tail = []

/-- The bytes of a connection that are not written back, by where its descriptor is. -/
def State.Owed (s : State) (tail : List Byte) : Place → Prop
  | .thread (.worker i) => Owes (s.work i) tail
  | _ => tail = []

/-- No more than one record is owed. -/
theorem State.Owed.length_le {s : State} {tail : List Byte} {place : Place}
    (h : s.Owed tail place) : tail.length ≤ sizeofMsg := by
  have hempty : tail = [] → tail.length ≤ sizeofMsg := by
    rintro rfl
    exact Nat.zero_le _
  cases place with
  | queue => exact hempty h
  | thread p =>
    cases p with
    | client => exact hempty h
    | worker i =>
      have howes : Owes (s.work i) tail := h
      generalize s.work i = work at howes
      unfold Owes at howes
      split at howes
      · rw [howes.1, howes.2]
      · exact howes.le
      · exact hempty howes

/-- The descriptors that are open besides the connections. -/
def State.base (s : State) (opened : Finset ℕ) (sfd : ℕ) : Finset ℕ :=
  if s.main = .done then opened.erase sfd else opened

/-- What every reachable state satisfies, with the places of the descriptors. -/
structure Inv (opened : Finset ℕ) (sfd : ℕ) (s : State) (loc : ℕ → Option Place) : Prop where
  pool : (ThreadPool.pool Unit Unit ℕ).Reachable s.pool
  main : MainAt s.main (s.pool.pc mainThread)
  working : ∀ i, Working (s.pool.pc (.worker i))
  won : Won s.pool s.main
  placed : Placed s.occ loc
  apart : ∀ fd, (loc fd).isSome → fd ∉ opened
  opened : ∀ fd, fd ∈ s.net.opened ↔ (loc fd).isSome ∨ fd ∈ s.base opened sfd
  echoing : Echoing sizeofMsg s.net.given (fun fd => (loc fd).isSome)
    fun fd tail => ∀ place, loc fd = some place → s.Owed tail place
  recorded : s.net.Recorded sizeofMsg

section Steps

variable {opened : Finset ℕ} {sfd : ℕ} {s s' : State} {loc loc' : ℕ → Option Place}
  {i : Fin nthreads}

theorem work_running {x : WorkItem Unit ℕ} (hpc : s.pool.pc (.worker i) = .running x) :
    s.work i = some (x.arg, s.serving i) := by
  simp [State.work, State.running, hpc]

theorem work_none (hpc : ∀ x, s.pool.pc (.worker i) ≠ .running x) : s.work i = none := by
  unfold State.work State.running
  split
  next x hx => exact absurd hx (hpc x)
  next => rfl

/-- A thread that does not move keeps what it has. -/
theorem work_congr (hpc : s'.pool.pc (.worker i) = s.pool.pc (.worker i))
    (hserving : s'.serving i = s.serving i) : s'.work i = s.work i := by
  simp only [State.work, State.running, hpc, hserving]

theorem held_congr {p : Thread Unit} (hpc : s'.pool.pc p = s.pool.pc p)
    (hserving : ∀ i, p = .worker i → s'.serving i = s.serving i) : s'.held p = s.held p := by
  cases p with
  | client => simp only [State.held, hpc]
  | worker i => simp only [State.held, hpc, work_congr hpc (hserving i rfl)]

theorem held_none (hwork : s.work i = none) :
    s.held (.worker i) = holding (s.pool.pc (.worker i)) := by
  simp only [State.held, hwork]

theorem count_one (fd cfd : ℕ) : [cfd].count fd = if fd = cfd then 1 else 0 := by
  rw [List.count_singleton]
  rcases eq_or_ne fd cfd with rfl | hne
  · simp
  · simp [hne, hne.symm]

/-- A thread has a descriptor exactly when it is placed there. -/
theorem Inv.held_iff (h : Inv opened sfd s loc) {p : Thread Unit} {fd : ℕ} :
    s.held p = some fd ↔ loc fd = some (.thread p) := by
  rw [← h.placed.pos_iff, State.occ]
  split <;> simp_all

/-- The descriptor is in the queue exactly when it is placed there. -/
theorem Inv.queued_iff (h : Inv opened sfd s loc) {fd : ℕ} :
    fd ∈ queued s.pool ↔ loc fd = some .queue := by
  rw [← h.placed.pos_iff, State.occ, List.count_pos_iff]

/-- What is owed in a place is what the worker there owes. -/
theorem owed_of_owes (howes : ∀ i tail, Owes (s.work i) tail → Owes (s'.work i) tail)
    {place : Place} {tail : List Byte} (h : s.Owed tail place) : s'.Owed tail place := by
  cases place with
  | queue => exact h
  | thread p =>
    cases p with
    | client => exact h
    | worker i => exact howes i tail h

/-- The threads go on, and descriptors may change their places. -/
theorem Inv.passed (h : Inv opened sfd s loc) (hnet : s'.net = s.net)
    (hpool : (ThreadPool.pool Unit Unit ℕ).Reachable s'.pool)
    (hmain : MainAt s'.main (s'.pool.pc mainThread))
    (hworking : ∀ i, Working (s'.pool.pc (.worker i))) (hwon : Won s'.pool s'.main)
    (hdone : s'.main = .done ↔ s.main = .done) (hplaced : Placed s'.occ loc')
    (hsome : ∀ fd, (loc' fd).isSome = (loc fd).isSome)
    (howed : ∀ fd place place' tail, loc fd = some place → loc' fd = some place' →
      s.Owed tail place → s'.Owed tail place') : Inv opened sfd s' loc' where
  pool := hpool
  main := hmain
  working := hworking
  won := hwon
  placed := hplaced
  apart fd hfd := h.apart fd (hsome fd ▸ hfd)
  opened fd := by
    rw [hnet, hsome fd, State.base, if_congr hdone rfl rfl]
    exact h.opened fd
  echoing := by
    rw [hnet]
    refine h.echoing.pass (fun fd => by rw [hsome fd]) fun fd tail hfd hbefore place' hplace' => ?_
    obtain ⟨place, hplace⟩ := Option.isSome_iff_exists.mp hfd
    exact howed fd place place' tail hplace hplace' (hbefore place hplace)
  recorded := hnet ▸ h.recorded

/-- The threads go on, and all descriptors stay where they are. -/
theorem Inv.stayed (h : Inv opened sfd s loc) (hnet : s'.net = s.net)
    (hpool : (ThreadPool.pool Unit Unit ℕ).Reachable s'.pool)
    (hmain : MainAt s'.main (s'.pool.pc mainThread))
    (hworking : ∀ i, Working (s'.pool.pc (.worker i))) (hwon : Won s'.pool s'.main)
    (hdone : s'.main = .done ↔ s.main = .done) (hqueued : queued s'.pool = queued s.pool)
    (hheld : ∀ p, s'.held p = s.held p)
    (howes : ∀ i tail, Owes (s.work i) tail → Owes (s'.work i) tail) : Inv opened sfd s' loc := by
  refine h.passed hnet hpool hmain hworking hwon hdone ?_ (fun _ => rfl) ?_
  · intro fd k
    rw [← h.placed fd k]
    cases k with
    | thread p => simp only [State.occ, hheld p]
    | queue => simp only [State.occ, hqueued]
  · intro fd place place' tail hplace hplace' hbefore
    obtain rfl : place = place' := Option.some.inj (hplace.symm.trans hplace')
    exact owed_of_owes howes hbefore

/-- The threads go on, and one descriptor moves to another place. -/
theorem Inv.moved (h : Inv opened sfd s loc) (hnet : s'.net = s.net)
    (hpool : (ThreadPool.pool Unit Unit ℕ).Reachable s'.pool)
    (hmain : MainAt s'.main (s'.pool.pc mainThread))
    (hworking : ∀ i, Working (s'.pool.pc (.worker i))) (hwon : Won s'.pool s'.main)
    (hdone : s'.main = .done ↔ s.main = .done) {cfd : ℕ} {p q : Place} (hp : loc cfd = some p)
    (hplaced : Placed s'.occ (Function.update loc cfd (some q)))
    (howed : ∀ tail, s.Owed tail p → s'.Owed tail q)
    (howes : ∀ i tail, Owes (s.work i) tail → Owes (s'.work i) tail) :
    Inv opened sfd s' (Function.update loc cfd (some q)) := by
  refine h.passed hnet hpool hmain hworking hwon hdone hplaced ?_ ?_
  · intro fd
    rcases eq_or_ne fd cfd with rfl | hne
    · rw [Function.update_self, hp]
      rfl
    · rw [Function.update_of_ne hne]
  · intro fd place place' tail hplace hplace' hbefore
    rcases eq_or_ne fd cfd with rfl | hne
    · rw [Function.update_self] at hplace'
      cases hplace'
      obtain rfl : place = p := Option.some.inj (hplace.symm.trans hp)
      exact howed tail hbefore
    · rw [Function.update_of_ne hne] at hplace'
      obtain rfl : place = place' := Option.some.inj (hplace.symm.trans hplace')
      exact owed_of_owes howes hbefore

/-- Coming back from the pool does not end the server. -/
theorem back_done (main : MainPc) (q : Pc Unit ℕ) : main.back q = .done ↔ main = .done := by
  cases q with
  | idle => cases main <;> simp [MainPc.back]
  | _ => rfl

/-- Until the main thread sets the flag, it is not set. -/
theorem Inv.clear (h : Inv opened sfd s loc) (hpast : past s.main (s.pool.pc mainThread) = false) :
    s.pool.destroying = 0 := by
  have hwon := h.won
  rw [Won, hpast] at hwon
  exact (ThreadPool.inv_reachable h.pool).flag.winner_none.mp hwon

/-- The main thread goes on inside the pool. -/
theorem Inv.main_step (h : Inv opened sfd s loc) {a : Action Unit Unit ℕ} (ha : Inside a)
    {t : Pool} (hnext : s.pool.next (mainThread, a) = some t) :
    ∃ loc', Inv opened sfd (s.stepped mainThread t) loc' := by
  have hidle := idle_next ha hnext
  have hmoves := (ThreadPool.next_executed hnext).moves
  have hflag := (ThreadPool.inv_reachable h.pool).flag.winner_none
  have hclear : s.main = .submitting → s.pool.destroying = 0 := by
    intro hmain
    refine h.clear ?_
    rw [hmain]
    rfl
  obtain ⟨hat, hplace⟩ := main_moves hmoves h.main hidle hclear
  have hwon := main_won hmoves h.main hidle hflag h.won
  have hworker : ∀ i, t.pc (.worker i) = s.pool.pc (.worker i) :=
    fun i => moves_pc hmoves (.worker i) nofun
  have hworking : ∀ i, Working (t.pc (.worker i)) := fun i => (hworker i).symm ▸ h.working i
  have hwork : ∀ i, (s.stepped mainThread t).work i = s.work i :=
    fun i => work_congr (hworker i) rfl
  have howes : ∀ i tail, Owes (s.work i) tail → Owes ((s.stepped mainThread t).work i) tail :=
    fun i tail htail => (hwork i).symm ▸ htail
  have hheld : ∀ i, (s.stepped mainThread t).held (.worker i) = s.held (.worker i) :=
    fun i => held_congr (hworker i) fun _ _ => rfl
  have hpool := h.pool.next hnext
  have hnet : (s.stepped mainThread t).net = s.net := rfl
  cases hplace with
  | inl hsame =>
    obtain ⟨hqueued, hholding⟩ := hsame
    refine ⟨loc, h.stayed hnet hpool hat hworking hwon (back_done _ _) hqueued ?_ howes⟩
    intro p
    cases p with
    | client => exact hholding
    | worker i => exact hheld i
  | inr hput =>
    obtain ⟨cfd, hqueued, hbefore, hafter⟩ := hput
    have hloc : loc cfd = some (.thread mainThread) := h.held_iff.mp hbefore
    have hplaced : Placed (s.stepped mainThread t).occ (Function.update loc cfd (some .queue)) := by
      refine h.placed.transfer hloc Place.noConfusion ?_ ?_ ?_
      · intro fd
        have hempty : (s.stepped mainThread t).held mainThread = none := hafter
        have hfull : s.held mainThread = some cfd := hbefore
        simp [State.occ, hempty, hfull, eq_comm]
      · intro fd
        have hlist : queued (s.stepped mainThread t).pool = queued s.pool ++ [cfd] := hqueued
        simp only [State.occ, hlist, List.count_append, count_one]
      · intro fd k hk hk'
        cases k with
        | queue => exact absurd rfl hk'
        | thread p =>
          cases p with
          | client => exact absurd rfl hk
          | worker i => simp only [State.occ, hheld i]
    exact ⟨_, h.moved hnet hpool hat hworking hwon (back_done _ _) hloc hplaced
      (fun _ htail => htail) howes⟩

/-- What a step of a worker in the pool changes outside the pool. -/
theorem stepped_worker (s : State) (i : Fin nthreads) (t : Pool) :
    (s.stepped (.worker i) t).pool = t ∧ (s.stepped (.worker i) t).net = s.net ∧
      (s.stepped (.worker i) t).main = s.main ∧
      ∀ j, j ≠ i → (s.stepped (.worker i) t).serving j = s.serving j := by
  unfold State.stepped
  simp only
  split
  · exact ⟨rfl, rfl, rfl, fun j hj => Function.update_of_ne hj _ _⟩
  · exact ⟨rfl, rfl, rfl, fun _ _ => rfl⟩

/-- A worker that calls an item starts to read. -/
theorem stepped_calling {x : WorkItem Unit ℕ} (hpc : s.pool.pc (.worker i) = .calling x)
    (t : Pool) : (s.stepped (.worker i) t).serving i = .reading := by
  simp only [State.stepped, hpc, Function.update_self]

/-- The other workers process what they processed. -/
theorem stepped_work {t : Pool} (hother : ∀ r, r ≠ .worker i → t.pc r = s.pool.pc r)
    {j : Fin nthreads} (hj : j ≠ i) : (s.stepped (.worker i) t).work j = s.work j := by
  obtain ⟨hat, -, -, hserving⟩ := stepped_worker s i t
  refine work_congr ?_ (hserving j hj)
  rw [hat]
  exact hother _ fun he => hj (ThreadPool.Thread.worker.inj he)

/-- The other threads hold what they held. -/
theorem stepped_held {t : Pool} (hother : ∀ r, r ≠ .worker i → t.pc r = s.pool.pc r)
    {p : Thread Unit} (hp : p ≠ .worker i) : (s.stepped (.worker i) t).held p = s.held p := by
  obtain ⟨hat, -, -, hserving⟩ := stepped_worker s i t
  refine held_congr ?_ fun j hj => hserving j fun he => hp (he ▸ hj)
  rw [hat]
  exact hother p hp

/-- A step of one worker owes to no connection less, if that worker does not. -/
theorem stepped_owes {t : Pool} (hother : ∀ r, r ≠ .worker i → t.pc r = s.pool.pc r)
    (hthis : ∀ tail, Owes (s.work i) tail → Owes ((s.stepped (.worker i) t).work i) tail) :
    ∀ j tail, Owes (s.work j) tail → Owes ((s.stepped (.worker i) t).work j) tail := by
  intro j tail htail
  rcases eq_or_ne j i with rfl | hj
  · exact hthis tail htail
  · rw [stepped_work hother hj]
    exact htail

/-- What a step of a worker in the pool keeps, besides the places of the descriptors. -/
theorem Inv.worker_keeps (h : Inv opened sfd s loc) {a : Action Unit Unit ℕ} {t : Pool}
    (hnext : s.pool.next (.worker i, a) = some t) (hthis : Working (t.pc (.worker i))) :
    (ThreadPool.pool Unit Unit ℕ).Reachable (s.stepped (.worker i) t).pool ∧
      MainAt (s.stepped (.worker i) t).main ((s.stepped (.worker i) t).pool.pc mainThread) ∧
      (∀ j, Working ((s.stepped (.worker i) t).pool.pc (.worker j))) ∧
      Won (s.stepped (.worker i) t).pool (s.stepped (.worker i) t).main ∧
      ((s.stepped (.worker i) t).main = .done ↔ s.main = .done) := by
  have hmoves := (ThreadPool.next_executed hnext).moves
  have hother : ∀ r, r ≠ .worker i → t.pc r = s.pool.pc r := moves_pc hmoves
  obtain ⟨hat, -, hmain, -⟩ := stepped_worker s i t
  rw [hat, hmain]
  refine ⟨h.pool.next hnext, ?_, fun j => ?_, worker_won hmoves (h.working i) h.won, Iff.rfl⟩
  · rw [hother mainThread (by simp)]
    exact h.main
  · rcases eq_or_ne j i with rfl | hj
    · exact hthis
    · rw [hother _ fun he => hj (ThreadPool.Thread.worker.inj he)]
      exact h.working j

/-- A worker goes on inside the pool with what it has. -/
theorem Inv.worker_stays (h : Inv opened sfd s loc) {a : Action Unit Unit ℕ} {t : Pool}
    (hnext : s.pool.next (.worker i, a) = some t) (hthis : Working (t.pc (.worker i)))
    (hqueued : queued t = queued s.pool)
    (hheld : (s.stepped (.worker i) t).held (.worker i) = s.held (.worker i))
    (howes : ∀ tail, Owes (s.work i) tail → Owes ((s.stepped (.worker i) t).work i) tail) :
    Inv opened sfd (s.stepped (.worker i) t) loc := by
  have hother : ∀ r, r ≠ .worker i → t.pc r = s.pool.pc r :=
    moves_pc (ThreadPool.next_executed hnext).moves
  obtain ⟨hat, hnet, -, -⟩ := stepped_worker s i t
  obtain ⟨hpool, hmain, hworking, hwon, hdone⟩ := h.worker_keeps hnext hthis
  refine h.stayed hnet hpool hmain hworking hwon hdone ?_ ?_ (stepped_owes hother howes)
  · rw [hat, hqueued]
  · intro p
    rcases eq_or_ne p (.worker i) with rfl | hp
    · exact hheld
    · exact stepped_held hother hp

/-- A worker takes a connection out of the queue. -/
theorem Inv.worker_takes (h : Inv opened sfd s loc) {a : Action Unit Unit ℕ} {t : Pool}
    (hnext : s.pool.next (.worker i, a) = some t) (hthis : Working (t.pc (.worker i))) {cfd : ℕ}
    (hqueued : queued s.pool = cfd :: queued t) (hempty : s.held (.worker i) = none)
    (hfull : (s.stepped (.worker i) t).held (.worker i) = some cfd) (hbefore : s.work i = none)
    (hafter : (s.stepped (.worker i) t).work i = none) :
    Inv opened sfd (s.stepped (.worker i) t)
      (Function.update loc cfd (some (.thread (.worker i)))) := by
  have hother : ∀ r, r ≠ .worker i → t.pc r = s.pool.pc r :=
    moves_pc (ThreadPool.next_executed hnext).moves
  obtain ⟨hat, hnet, -, -⟩ := stepped_worker s i t
  obtain ⟨hpool, hmain, hworking, hwon, hdone⟩ := h.worker_keeps hnext hthis
  have hloc : loc cfd = some .queue := h.queued_iff.mp (hqueued ▸ List.mem_cons_self)
  have hplaced : Placed (s.stepped (.worker i) t).occ
      (Function.update loc cfd (some (.thread (.worker i)))) := by
    refine h.placed.transfer hloc Place.noConfusion ?_ ?_ ?_
    · intro fd
      simp only [State.occ, hat]
      rw [hqueued, ← List.singleton_append, List.count_append, count_one, Nat.add_comm]
    · intro fd
      simp only [State.occ, hempty, hfull]
      simp [eq_comm]
    · intro fd k hk hk'
      cases k with
      | queue => exact absurd rfl hk
      | thread p =>
        have hp : p ≠ .worker i := fun he => hk' (by rw [he])
        simp only [State.occ, stepped_held hother hp]
  refine h.moved hnet hpool hmain hworking hwon hdone hloc hplaced ?_ (stepped_owes hother ?_)
  · intro tail htail
    show Owes ((s.stepped (.worker i) t).work i) tail
    rw [hafter]
    exact htail
  · rw [hafter, hbefore]
    exact fun _ htail => htail

/-- The item returns, and its connection is closed. -/
theorem Inv.worker_returns (h : Inv opened sfd s loc) {a : Action Unit Unit ℕ} (ha : Inside a)
    (hfree : a = .run → s.busy (.worker i) = false) {x : WorkItem Unit ℕ}
    (hx : s.pool.pc (.worker i) = .running x) {t : Pool}
    (hnext : s.pool.next (.worker i, a) = some t) :
    Inv opened sfd (s.stepped (.worker i) t) loc := by
  obtain ⟨hrun, rfl⟩ := running_next ha hx hnext
  have hwork := work_running hx
  have hreturned : s.serving i = .returned := by
    have hbusy := hfree hrun
    simpa [State.busy, State.running, hx] using hbusy
  have hpc := goto_pc s.pool (.worker i) .getLocking
  have hat := (stepped_worker s i (s.pool.goto (.worker i) .getLocking)).1
  have hnone : (s.stepped (.worker i) (s.pool.goto (.worker i) .getLocking)).work i = none := by
    refine work_none fun y => ?_
    simp [hat, hpc]
  refine h.worker_stays hnext ?_ rfl ?_ ?_
  · rw [hpc]
    trivial
  · rw [held_none hnone, hat, hpc]
    simp [State.held, hwork, hreturned, holding]
  · intro tail htail
    rw [hwork, hreturned] at htail
    rw [hnone]
    exact htail

/-- A worker goes on inside the pool. -/
theorem Inv.worker_step (h : Inv opened sfd s loc) {a : Action Unit Unit ℕ} (ha : Inside a)
    (hfree : a = .run → s.busy (.worker i) = false) {t : Pool}
    (hnext : s.pool.next (.worker i, a) = some t) :
    ∃ loc', Inv opened sfd (s.stepped (.worker i) t) loc' := by
  by_cases hrunning : ∃ x, s.pool.pc (.worker i) = .running x
  · obtain ⟨x, hx⟩ := hrunning
    exact ⟨loc, h.worker_returns ha hfree hx hnext⟩
  have hno : ∀ x, s.pool.pc (.worker i) ≠ .running x := fun x hx => hrunning ⟨x, hx⟩
  have hbefore := work_none hno
  have hat := (stepped_worker s i t).1
  have hmoves := (ThreadPool.next_executed hnext).moves
  obtain ⟨hthis, hplaces⟩ := worker_moves hmoves (h.working i) hno
  rcases hplaces with ⟨hqueued, hholding, hstill⟩ | ⟨hqueued, x, hcalling, hx⟩ |
    ⟨cfd, hqueued, hfrom, hto, hstill⟩
  · have hafter : (s.stepped (.worker i) t).work i = none := work_none (by rwa [hat])
    refine ⟨loc, h.worker_stays hnext hthis hqueued ?_ ?_⟩
    · rw [held_none hafter, held_none hbefore, hat, hholding]
    · rw [hafter, hbefore]
      exact fun _ htail => htail
  · have hafter : (s.stepped (.worker i) t).work i = some (x.arg, .reading) := by
      rw [work_running (by rw [hat, hx]), stepped_calling hcalling]
    refine ⟨loc, h.worker_stays hnext hthis hqueued ?_ ?_⟩
    · rw [held_none hbefore, hcalling]
      simp only [State.held, hafter, holding]
    · rw [hafter, hbefore]
      exact fun _ htail => htail
  · have hafter : (s.stepped (.worker i) t).work i = none := work_none (by rwa [hat])
    have hempty : s.held (.worker i) = none := (held_none hbefore).trans hfrom
    have hfull : (s.stepped (.worker i) t).held (.worker i) = some cfd := by
      rw [held_none hafter, hat, hto]
    exact ⟨_, h.worker_takes hnext hthis hqueued hempty hfull hbefore hafter⟩

/-- Where the main thread is outside the pool, it is idle in it. -/
theorem Inv.idle (h : Inv opened sfd s loc) (hmain : s.main = .accepting ∨ s.main = .leaving ∨
    s.main = .closing) : s.pool.pc mainThread = .idle := by
  have hat := h.main
  generalize s.pool.pc mainThread = q at *
  rcases hmain with hmain | hmain | hmain <;> rw [hmain] at hat <;>
    cases q <;> first | rfl | exact hat.elim

/-- The main thread calls a function of the pool. -/
theorem submit_eq {pool t : Pool} {cfd : ℕ} (hidle : pool.pc mainThread = .idle)
    (hnext : pool.next (mainThread, .submit () cfd) = some t) :
    t = pool.goto mainThread (.loading .client () cfd) := by
  simp only [ThreadPool.State.next, hidle, Option.some.injEq] at hnext
  exact hnext.symm

theorem destroy_eq {pool t : Pool} (hidle : pool.pc mainThread = .idle)
    (hnext : pool.next (mainThread, .destroy) = some t) :
    t = pool.goto mainThread .exchanging := by
  simp only [ThreadPool.State.next, hidle, Option.some.injEq] at hnext
  exact hnext.symm

theorem goto_other (pool : Pool) (q : Pc Unit ℕ) (i : Fin nthreads) :
    (pool.goto mainThread q).pc (.worker i) = pool.pc (.worker i) := by
  simp [ThreadPool.State.goto]

/-- A connection is accepted, and `tp_submit` is called with its descriptor. -/
theorem Inv.accepted (h : Inv opened sfd s loc) (hmain : s.main = .accepting) {cfd : ℕ}
    {net : Sockets} (hnet : s.net.accept cfd = some net) {t : Pool}
    (hnext : s.pool.next (mainThread, .submit () cfd) = some t) :
    Inv opened sfd { s with
        pool := t, net := { s.net with toSockets := net }, main := .submitting }
      (Function.update loc cfd (some (.thread mainThread))) := by
  have hidle := h.idle (.inl hmain)
  have hpool := h.pool.next hnext
  obtain rfl := submit_eq hidle hnext
  obtain ⟨hfree, hopened, -, -⟩ := Sockets.accept_spec hnet
  have hbase : s.base opened sfd = opened := by
    rw [State.base, hmain]
    rfl
  have hloc : loc cfd = none := by
    rw [Option.eq_none_iff_forall_ne_some]
    intro place hplace
    exact hfree ((h.opened cfd).mpr (.inl (hplace ▸ rfl)))
  have hsome : ∀ fd, (Function.update loc cfd (some (.thread mainThread)) fd).isSome = true ↔
      (loc fd).isSome = true ∨ fd = cfd := by
    intro fd
    rcases eq_or_ne fd cfd with rfl | hne
    · simp [Function.update_self]
    · simp [hne]
  set s' : State := { s with
    pool := s.pool.goto mainThread (.loading .client () cfd)
    net := { s.net with toSockets := net }
    main := .submitting }
  have hwork : ∀ i, s'.work i = s.work i := fun i => work_congr (goto_other _ _ i) rfl
  have hheld : ∀ i, s'.held (.worker i) = s.held (.worker i) :=
    fun i => held_congr (goto_other _ _ i) fun _ _ => rfl
  have hnone : s.held mainThread = none := by
    simp only [State.held, hidle, holding]
  have hfull : s'.held mainThread = some cfd := by
    simp only [State.held, s', goto_pc, holding]
  constructor
  · exact hpool
  · exact trivial
  · intro i
    rw [goto_other]
    exact h.working i
  · have hwon := h.won
    rw [Won, hmain] at hwon
    exact hwon
  · refine h.placed.enter hloc (fun fd => ?_) fun fd k hk => ?_
    · simp [State.occ, hnone, hfull, eq_comm]
    · cases k with
      | queue => rfl
      | thread p =>
        cases p with
        | client => exact absurd rfl hk
        | worker i => simp only [State.occ, hheld i]
  · intro fd hfd
    rcases (hsome fd).mp hfd with hold | rfl
    · exact h.apart fd hold
    · intro hmem
      exact hfree ((h.opened fd).mpr (.inr (hbase.symm ▸ hmem)))
  · intro fd
    have hold := h.opened fd
    rw [hbase] at hold
    show fd ∈ net.opened ↔ _
    rw [hopened, Finset.mem_insert, hsome fd, hold]
    show _ ↔ _ ∨ fd ∈ opened
    tauto
  · refine h.echoing.accept (Traffic.given_accept hnet) (by simp [hloc]) hsome ?_ ?_
    · intro place hplace
      rw [Function.update_self] at hplace
      cases hplace
      rfl
    · intro fd tail hfd howed place hplace
      have hne : fd ≠ cfd := by
        rintro rfl
        simp [hloc] at hfd
      rw [Function.update_of_ne hne] at hplace
      refine owed_of_owes (fun i tail htail => ?_) (howed place hplace)
      rw [hwork i]
      exact htail
  · exact h.recorded.keep (Sockets.accept_spec hnet).2.2.2

/-- The main thread leaves its loop. -/
theorem Inv.refused (h : Inv opened sfd s loc) (hmain : s.main = .accepting) :
    Inv opened sfd { s with main := .leaving } loc := by
  have hidle := h.idle (.inl hmain)
  have hwon := h.won
  rw [Won, hmain] at hwon
  refine h.stayed rfl h.pool ?_ h.working hwon ?_ rfl (fun p => ?_) fun i tail htail => htail
  · rw [hidle]
    trivial
  · simp [hmain]
  · cases p <;> rfl

/-- The main thread calls `tp_destroy`. -/
theorem Inv.destroyed (h : Inv opened sfd s loc) (hmain : s.main = .leaving) {t : Pool}
    (hnext : s.pool.next (mainThread, .destroy) = some t) :
    Inv opened sfd { s with pool := t, main := .destroying } loc := by
  have hidle := h.idle (.inr (.inl hmain))
  have hpool := h.pool.next hnext
  obtain rfl := destroy_eq hidle hnext
  have hwon := h.won
  rw [Won, hmain] at hwon
  refine h.stayed rfl hpool trivial (fun i => ?_) hwon ?_ rfl (fun p => ?_) fun i tail htail => ?_
  · rw [goto_other]
    exact h.working i
  · simp [hmain]
  · cases p with
    | client => simp only [State.held, goto_pc, hidle, holding]
    | worker i => exact held_congr (goto_other _ _ i) fun _ _ => rfl
  · have hwork : State.work { s with
        pool := s.pool.goto mainThread .exchanging, main := .destroying } i = s.work i :=
      work_congr (goto_other _ _ i) rfl
    rw [hwork]
    exact htail

variable {cfd : ℕ} {v : Serving} {net : Traffic}

/-- A worker has the descriptor of the connection that it processes. -/
theorem held_work (hwork : s.work i = some (cfd, v)) (hv : v ≠ .returned) :
    s.held (.worker i) = some cfd := by
  cases v with
  | returned => exact absurd rfl hv
  | _ => simp only [State.held, hwork]

theorem work_eq (hrun : s.running i = some cfd) : s.work i = some (cfd, s.serving i) := by
  rw [State.work, hrun, Option.map_some]

/-- A worker goes on in `process_connection`. -/
def State.served (s : State) (i : Fin nthreads) (v : Serving) (net : Traffic) : State :=
  { s with net := net, serving := Function.update s.serving i v }

theorem served_work (hrun : s.running i = some cfd) : (s.served i v net).work i = some (cfd, v) := by
  have hthis : (s.served i v net).running i = some cfd := hrun
  rw [work_eq hthis]
  simp only [State.served, Function.update_self]

theorem served_other {j : Fin nthreads} (hj : j ≠ i) : (s.served i v net).work j = s.work j :=
  work_congr rfl (Function.update_of_ne hj _ _)

theorem served_held {p : Thread Unit} (hp : p ≠ .worker i) :
    (s.served i v net).held p = s.held p :=
  held_congr rfl fun _ hj => Function.update_of_ne (fun he => hp (by rw [hj, he])) _ _

/-- What is owed elsewhere stays. -/
theorem Inv.owed_other (h : Inv opened sfd s loc) (hloc : loc cfd = some (.thread (.worker i)))
    {fd : ℕ} (hne : fd ≠ cfd) {place : Place} (hplace : loc fd = some place) {tail : List Byte}
    (howed : s.Owed tail place) : (s.served i v net).Owed tail place := by
  cases place with
  | queue => exact howed
  | thread p =>
    cases p with
    | client => exact howed
    | worker j =>
      have hj : j ≠ i := by
        rintro rfl
        have hfd := h.held_iff.mpr hplace
        rw [h.held_iff.mpr hloc] at hfd
        exact hne (Option.some.inj hfd).symm
      show Owes ((s.served i v net).work j) tail
      rw [served_other hj]
      exact howed

/-- A worker reads or writes. -/
theorem Inv.served (h : Inv opened sfd s loc) (hrun : s.running i = some cfd)
    (hbusy : s.serving i ≠ .returned) (hv : v ≠ .returned) (hopened : net.opened = s.net.opened)
    (hechoing : Echoing sizeofMsg net.given (fun fd => (loc fd).isSome)
      fun fd tail => ∀ place, loc fd = some place → (s.served i v net).Owed tail place)
    (hrecorded : net.Recorded sizeofMsg) :
    Inv opened sfd (s.served i v net) loc where
  pool := h.pool
  main := h.main
  working := h.working
  won := h.won
  placed fd k := by
    rw [← h.placed fd k]
    cases k with
    | queue => rfl
    | thread p =>
      rcases eq_or_ne p (.worker i) with rfl | hp
      · simp only [State.occ, held_work (served_work hrun) hv, held_work (work_eq hrun) hbusy]
      · simp only [State.occ, served_held hp]
  apart := h.apart
  opened fd := by
    show fd ∈ net.opened ↔ _
    rw [hopened]
    exact h.opened fd
  echoing := hechoing
  recorded := hrecorded

/-- `read` in `process_connection`. -/
theorem Inv.read (h : Inv opened sfd s loc) (hrun : s.running i = some cfd)
    (hreading : s.serving i = .reading) {bytes : List Byte} (hlength : bytes.length ≤ sizeofMsg) :
    Inv opened sfd (s.served i (if bytes.length = sizeofMsg then .writing bytes else .closing)
      { s.net with toSockets := s.net.read cfd bytes }) loc := by
  have hbusy : s.serving i ≠ .returned := by
    rw [hreading]
    nofun
  have hloc := h.held_iff.mp (held_work (work_eq hrun) hbusy)
  have hv : (if bytes.length = sizeofMsg then Serving.writing bytes else .closing) ≠ .returned := by
    split <;> nofun
  refine h.served hrun hbusy hv rfl
    (h.echoing.read (hloc ▸ rfl) ?_ (fun _ => Iff.rfl) ?_ ?_) (h.recorded.keep rfl)
  · intro tail howed
    have hthis : Owes (s.work i) tail := howed _ hloc
    rw [work_eq hrun, hreading] at hthis
    exact hthis
  · intro place hplace
    rw [hloc] at hplace
    cases hplace
    show Owes (State.work _ i) bytes
    rw [served_work hrun]
    split
    · next hfull => exact ⟨rfl, hfull⟩
    · next hshort => exact Nat.lt_of_le_of_ne hlength hshort
  · intro fd tail hne _ howed place hplace
    exact h.owed_other hloc hne hplace (howed place hplace)

/-- `write` in `process_connection`, also one that falls short. -/
theorem Inv.write (h : Inv opened sfd s loc) (hrun : s.running i = some cfd) {w : Write}
    (hwriting : s.serving i = .writing w.bytes) :
    Inv opened sfd (s.served i .reading (s.net.write cfd w)) loc := by
  have hbusy : s.serving i ≠ .returned := by
    rw [hwriting]
    nofun
  have hloc := h.held_iff.mp (held_work (work_eq hrun) hbusy)
  have hmsg : ∀ tail, (∀ place, loc cfd = some place → s.Owed tail place) →
      tail = w.bytes ∧ w.bytes.length = sizeofMsg := by
    intro tail howed
    have hthis : Owes (s.work i) tail := howed _ hloc
    rw [work_eq hrun, hwriting] at hthis
    exact hthis
  obtain ⟨tail, -, howed⟩ := h.echoing.held cfd (hloc ▸ rfl)
  refine h.served hrun hbusy nofun rfl (s.net.given_write cfd w ▸ h.echoing.write (hloc ▸ rfl)
    (fun tail howed => (hmsg tail howed).1) (hmsg tail howed).2 (fun _ => Iff.rfl) ?_ ?_)
    (h.recorded.write cfd (hmsg tail howed).2)
  · intro place hplace
    rw [hloc] at hplace
    cases hplace
    show Owes (State.work _ i) []
    rw [served_work hrun]
    rfl
  · intro fd tail hne _ howed place hplace
    exact h.owed_other hloc hne hplace (howed place hplace)

/-- `close` in `process_connection`. -/
theorem Inv.close (h : Inv opened sfd s loc) (hrun : s.running i = some cfd)
    (hclosing : s.serving i = .closing) :
    Inv opened sfd (s.served i .returned { s.net with toSockets := s.net.close cfd })
      (Function.update loc cfd none) := by
  have hbusy : s.serving i ≠ .returned := by
    rw [hclosing]
    nofun
  have hheld := held_work (work_eq hrun) hbusy
  have hloc := h.held_iff.mp hheld
  have hsome : ∀ fd, (Function.update loc cfd none fd).isSome = true ↔
      (loc fd).isSome = true ∧ fd ≠ cfd := by
    intro fd
    rcases eq_or_ne fd cfd with rfl | hne
    · simp [Function.update_self]
    · simp [hne]
  constructor
  · exact h.pool
  · exact h.main
  · exact h.working
  · exact h.won
  · have hnone : (s.served i .returned
        { s.net with toSockets := s.net.close cfd }).held (.worker i) = none := by
      simp only [State.held, served_work hrun]
    refine h.placed.leave hloc (fun fd => ?_) fun fd k hk => ?_
    · simp [State.occ, hheld, hnone, eq_comm]
    · cases k with
      | queue => rfl
      | thread p =>
        have hp : p ≠ .worker i := fun he => hk (by rw [he])
        simp only [State.occ, served_held hp]
  · exact fun fd hfd => h.apart fd ((hsome fd).mp hfd).1
  · intro fd
    show fd ∈ s.net.opened.erase cfd ↔ _ ∨ fd ∈ s.base opened sfd
    have hapart : cfd ∉ s.base opened sfd := by
      have hnot := h.apart cfd (hloc ▸ rfl)
      unfold State.base
      split
      · exact fun hmem => hnot (Finset.mem_of_mem_erase hmem)
      · exact hnot
    rw [Finset.mem_erase, h.opened fd, hsome fd]
    constructor
    · rintro ⟨hne, hfd | hfd⟩
      · exact .inl ⟨hfd, hne⟩
      · exact .inr hfd
    · rintro (⟨hfd, hne⟩ | hfd)
      · exact ⟨hne, .inl hfd⟩
      · exact ⟨fun he => hapart (he ▸ hfd), .inr hfd⟩
  · refine h.echoing.close (fun tail howed => ?_) hsome ?_
    · have hthis : Owes (s.work i) tail := howed _ hloc
      rw [work_eq hrun, hclosing] at hthis
      exact hthis
    · intro fd tail hne _ howed place hplace
      rw [Function.update_of_ne hne] at hplace
      exact h.owed_other hloc hne hplace (howed place hplace)
  · exact h.recorded.keep rfl

/-- `close(sfd)`. -/
theorem Inv.closeServer (h : Inv opened sfd s loc) (hmain : s.main = .closing)
    (hsfd : sfd ∈ opened) :
    Inv opened sfd
      { s with net := { s.net with toSockets := s.net.close sfd }, main := .done } loc := by
  have hidle := h.idle (.inr (.inr hmain))
  have hwon := h.won
  rw [Won, hmain] at hwon
  have hbase : s.base opened sfd = opened := by
    rw [State.base, hmain]
    rfl
  constructor
  · exact h.pool
  · rw [hidle]
    trivial
  · exact h.working
  · exact hwon
  · intro fd k
    rw [← h.placed fd k]
    cases k with
    | queue => rfl
    | thread p => cases p <;> rfl
  · exact h.apart
  · intro fd
    show fd ∈ s.net.opened.erase sfd ↔ _ ∨ fd ∈ opened.erase sfd
    rw [Finset.mem_erase, h.opened fd, hbase, Finset.mem_erase]
    constructor
    · rintro ⟨hne, hfd | hfd⟩
      · exact .inl hfd
      · exact .inr ⟨hne, hfd⟩
    · rintro (hfd | ⟨hne, hfd⟩)
      · exact ⟨fun he => h.apart fd hfd (he ▸ hsfd), .inl hfd⟩
      · exact ⟨hne, .inr hfd⟩
  · exact h.echoing.closeOther sfd
  · exact h.recorded.keep rfl

/-- Every step keeps the invariant. -/
theorem Inv.step (h : Inv opened sfd s loc) (hsfd : sfd ∈ opened) {a : Act}
    (hstep : s.next sfd a = some s') : ∃ loc', Inv opened sfd s' loc' := by
  have hinside : ∀ (p : Thread Unit) (b : Action Unit Unit ℕ) (t : Pool), Inside b →
      (b = .run → s.busy p = false) → s.pool.next (p, b) = some t →
      ∃ loc', Inv opened sfd (s.stepped p t) loc' := by
    intro p b t hb hfree hnext
    cases p with
    | client => exact h.main_step hb hnext
    | worker i => exact h.worker_step hb hfree hnext
  cases a with
  | accept cfd =>
    simp only [State.next, Option.ite_none_right_eq_some, Option.bind_eq_some_iff,
      Option.map_eq_some_iff] at hstep
    obtain ⟨hmain, net, hnet, t, hnext, rfl⟩ := hstep
    exact ⟨_, h.accepted hmain hnet hnext⟩
  | refuse =>
    simp only [State.next, Option.ite_none_right_eq_some, Option.some.injEq] at hstep
    obtain ⟨hmain, rfl⟩ := hstep
    exact ⟨loc, h.refused hmain⟩
  | destroy =>
    simp only [State.next, Option.ite_none_right_eq_some, Option.map_eq_some_iff] at hstep
    obtain ⟨hmain, t, hnext, rfl⟩ := hstep
    exact ⟨loc, h.destroyed hmain hnext⟩
  | run p =>
    simp only [State.next, Option.ite_none_left_eq_some, Option.map_eq_some_iff,
      Bool.not_eq_true] at hstep
    obtain ⟨hfree, t, hnext, rfl⟩ := hstep
    exact hinside p .run t trivial (fun _ => hfree) hnext
  | signal p woken =>
    simp only [State.next, Option.map_eq_some_iff] at hstep
    obtain ⟨t, hnext, rfl⟩ := hstep
    exact hinside p (.signal woken) t trivial nofun hnext
  | wake p =>
    simp only [State.next, Option.map_eq_some_iff] at hstep
    obtain ⟨t, hnext, rfl⟩ := hstep
    exact hinside p .wake t trivial nofun hnext
  | read i bytes =>
    simp only [State.next] at hstep
    split at hstep
    next cfd hrun hreading =>
      simp only [Option.ite_none_right_eq_some, Option.some.injEq] at hstep
      obtain ⟨hlength, rfl⟩ := hstep
      exact ⟨loc, h.read hrun hreading hlength⟩
    next => cases hstep
  | write i count =>
    simp only [State.next] at hstep
    split at hstep
    next cfd msg hrun hwriting =>
      split at hstep
      next hcount =>
        cases hstep
        exact ⟨loc, h.write (w := ⟨msg, count, hcount⟩) hrun hwriting⟩
      next => cases hstep
    next => cases hstep
  | close i =>
    simp only [State.next] at hstep
    split at hstep
    next cfd hrun hclosing =>
      cases hstep
      exact ⟨_, h.close hrun hclosing⟩
    next => cases hstep
  | closeServer =>
    simp only [State.next, Option.ite_none_right_eq_some, Option.some.injEq] at hstep
    obtain ⟨hmain, rfl⟩ := hstep
    exact ⟨loc, h.closeServer hmain hsfd⟩

/-- After `tp_init` no descriptor is on its way. -/
theorem inv_initial (opened : Finset ℕ) (sfd : ℕ) :
    Inv opened sfd (initial opened) fun _ => none where
  pool := .start rfl
  main := trivial
  working _ := trivial
  won := rfl
  placed fd k := by
    cases k with
    | queue => rfl
    | thread p => cases p <;> rfl
  apart _ hfd := nomatch hfd
  opened fd := by
    show fd ∈ opened ↔ _ ∨ fd ∈ opened
    simp
  echoing := (echoing_start opened fun _ _ => False).pass
    (fun _ => ⟨fun hfd => (nomatch hfd), False.elim⟩)
    fun _ _ hfd => hfd.elim
  recorded := ⟨fun _ _ hw => (nomatch hw), fun _ => rfl⟩

/-- Every reachable state satisfies the invariant. -/
theorem inv_reachable (hsfd : sfd ∈ opened) (hs : (server opened sfd).Reachable s) :
    ∃ loc, Inv opened sfd s loc := by
  induction hs with
  | start hinit =>
    obtain rfl := hinit
    exact ⟨_, inv_initial opened sfd⟩
  | next _ hstep ih =>
    obtain ⟨loc, h⟩ := ih
    exact h.step hsfd hstep

/-- Behind the joins of `tp_destroy` there is no connection. -/
theorem Inv.left (h : Inv opened sfd s loc) (hmain : s.main = .closing ∨ s.main = .done) :
    s.pool.list = [] ∧ (∀ i, s.pool.pc (.worker i) = .finished) ∧ ∀ fd, loc fd = none := by
  have hpool := ThreadPool.inv_reachable h.pool
  have hidle : s.pool.pc mainThread = .idle := by
    have hat := h.main
    generalize s.pool.pc mainThread = q at *
    rcases hmain with hmain | hmain <;> rw [hmain] at hat <;>
      cases q <;> first | rfl | exact hat.elim
  have hwinner : s.pool.winner = some mainThread := by
    have hwon := h.won
    rw [Won, hidle] at hwon
    rcases hmain with hmain | hmain <;> rw [hmain] at hwon <;> exact hwon
  have hpast : (s.pool.pc mainThread).winning = false := by
    rw [hidle]
    rfl
  have hlist := hpool.drained hwinner hpast
  have hfinished := hpool.joined.done mainThread hwinner hpast
  refine ⟨hlist, hfinished, fun fd => ?_⟩
  rw [Option.eq_none_iff_forall_ne_some]
  intro place hplace
  cases place with
  | queue =>
    have hmem := h.queued_iff.mpr hplace
    rw [queued, hlist] at hmem
    cases hmem
  | thread p =>
    have hheld := h.held_iff.mpr hplace
    cases p with
    | client =>
      simp only [State.held, hidle, holding] at hheld
      cases hheld
    | worker i =>
      have hnone : s.work i = none := work_none fun x hx => by
        rw [hfinished i] at hx
        cases hx
      rw [held_none hnone, hfinished i] at hheld
      cases hheld

end Steps

/-- What the server guarantees in a state. -/
structure Serves (opened : Finset ℕ) (s : State) : Prop where
  /-- The descriptor of an open connection is with one thread or in the queue, once. -/
  owner : ∀ fd ∈ s.net.opened, fd ∉ opened →
    ∃ place, ∀ k, s.occ fd k = if k = place then 1 else 0
  /-- No thread uses a number that is not the one of an open connection. -/
  live : ∀ fd k, 0 < s.occ fd k → fd ∈ s.net.opened ∧ fd ∉ opened
  /-- A connection is behind one descriptor. -/
  separate : ∀ fd fd' k k', 0 < s.occ fd k → 0 < s.occ fd' k' →
    s.net.peer fd = s.net.peer fd' → fd = fd' ∧ k = k'
  /-- Whole records are given to `write`, in their order, and at most the last read is
  missing. -/
  echoed : ∀ c, (∀ w ∈ s.net.writes c, w.bytes.length = sizeofMsg) ∧
    ∃ tail, s.net.received c = (s.net.writes c).flatMap Write.bytes ++ tail ∧
      tail.length ≤ sizeofMsg
  /-- When nobody has the connection any more, all whole records have been given. -/
  complete : ∀ c, (∀ fd k, 0 < s.occ fd k → s.net.peer fd ≠ c) →
    ∃ tail, s.net.received c = (s.net.writes c).flatMap Write.bytes ++ tail ∧
      tail.length < sizeofMsg
  /-- What goes back is what the writes take: the records, when no write falls short. -/
  sent : ∀ c, s.net.sent c = (s.net.writes c).flatMap Write.taken ∧
    ((∀ w ∈ s.net.writes c, w.count = w.bytes.length) →
      s.net.sent c = (s.net.writes c).flatMap Write.bytes)
  /-- After `tp_destroy` no connection is open, and the workers are at their end. -/
  left : s.main = .closing ∨ s.main = .done →
    s.net.opened ⊆ opened ∧ s.pool.list = [] ∧ ∀ i, s.pool.pc (.worker i) = .finished

/-- In every interleaving of the main thread, the workers and the arrivals, also where
writes fall short or fail. -/
theorem pool_server_serves {opened : Finset ℕ} {sfd : ℕ} (hsfd : sfd ∈ opened) {s : State}
    (hs : (server opened sfd).Reachable s) : Serves opened s := by
  obtain ⟨loc, h⟩ := inv_reachable hsfd hs
  have hbase : ∀ fd, fd ∈ s.base opened sfd → fd ∈ opened := by
    intro fd hfd
    unfold State.base at hfd
    split at hfd
    · exact Finset.mem_of_mem_erase hfd
    · exact hfd
  constructor
  · intro fd hopen hnot
    have hsome := ((h.opened fd).mp hopen).resolve_right fun hfd => hnot (hbase fd hfd)
    obtain ⟨place, hplace⟩ := Option.isSome_iff_exists.mp hsome
    refine ⟨place, fun k => ?_⟩
    rw [h.placed fd k, hplace]
    simp only [Option.some.injEq, eq_comm]
  · intro fd k hocc
    have hsome : (loc fd).isSome := h.placed.pos_iff.mp hocc ▸ rfl
    exact ⟨(h.opened fd).mpr (.inl hsome), h.apart fd hsome⟩
  · intro fd fd' k k' hocc hocc' hpeer
    have hk := h.placed.pos_iff.mp hocc
    have hk' := h.placed.pos_iff.mp hocc'
    obtain rfl := h.echoing.separate fd fd' (hk ▸ rfl) (hk' ▸ rfl) hpeer
    exact ⟨rfl, Option.some.inj (hk.symm.trans hk')⟩
  · intro c
    refine ⟨h.recorded.record c, ?_⟩
    by_cases hc : ∃ fd, (loc fd).isSome ∧ s.net.peer fd = c
    · obtain ⟨fd, hsome, rfl⟩ := hc
      obtain ⟨tail, htail, howed⟩ := h.echoing.held fd hsome
      obtain ⟨place, hplace⟩ := Option.isSome_iff_exists.mp hsome
      exact ⟨tail, htail, (howed place hplace).length_le⟩
    · obtain ⟨tail, htail, hshort⟩ := h.echoing.gone c fun fd hfd he => hc ⟨fd, hfd, he⟩
      refine ⟨tail, htail, ?_⟩
      rcases hshort with rfl | hshort
      · exact Nat.zero_le _
      · exact hshort.le
  · intro c hc
    obtain ⟨tail, htail, hshort⟩ := h.echoing.gone c fun fd hfd => by
      obtain ⟨place, hplace⟩ := Option.isSome_iff_exists.mp hfd
      exact hc fd place (h.placed.pos_iff.mpr hplace)
    refine ⟨tail, htail, ?_⟩
    rcases hshort with rfl | hshort
    · exact Nat.succ_pos _
    · exact hshort
  · exact fun c => ⟨h.recorded.sent c, h.recorded.sent_eq⟩
  · intro hmain
    obtain ⟨hlist, hfinished, hnone⟩ := h.left hmain
    refine ⟨fun fd hfd => ?_, hlist, hfinished⟩
    rcases (h.opened fd).mp hfd with hsome | hmem
    · rw [hnone fd] at hsome
      cases hsome
    · exact hbase fd hmem

set_option maxRecDepth 4000 in
/-- A connection is accepted, a worker takes it, and one record goes back. The write of
the second record fails, since the connection was reset, and the worker closes it. -/
theorem pool_server_serves_one_record : ∃ s, (server {0, 1, 2, 3} 3).Reachable s ∧
    (s.net.writes 0).map Write.count = [sizeofMsg, 0] ∧ (s.net.sent 0).length = sizeofMsg ∧
    Serves {0, 1, 2, 3} s := by
  have hstart : (server {0, 1, 2, 3} 3).Reachable (initial {0, 1, 2, 3}) := .start rfl
  have hsubmit := hstart.next (a := Act.accept 4) rfl
    |>.next (a := Act.run mainThread) rfl
    |>.next (a := Act.run mainThread) rfl
    |>.next (a := Act.run mainThread) rfl
    |>.next (a := Act.run mainThread) rfl
    |>.next (a := Act.run mainThread) rfl
    |>.next (a := Act.signal mainThread none) rfl
    |>.next (a := Act.run mainThread) rfl
    |>.next (a := Act.run mainThread) rfl
  have hcall := hsubmit.next (a := Act.run (.worker 0)) rfl
    |>.next (a := Act.run (.worker 0)) rfl
    |>.next (a := Act.run (.worker 0)) rfl
    |>.next (a := Act.run (.worker 0)) rfl
    |>.next (a := Act.run (.worker 0)) rfl
    |>.next (a := Act.run (.worker 0)) rfl
  have hserve := hcall.next (a := Act.read 0 (List.replicate 256 0)) rfl
    |>.next (a := Act.write 0 sizeofMsg) rfl
    |>.next (a := Act.read 0 (List.replicate 256 0)) rfl
    |>.next (a := Act.write 0 0) rfl
    |>.next (a := Act.read 0 []) rfl
    |>.next (a := Act.close 0) rfl
  exact ⟨_, hserve, rfl, rfl, pool_server_serves (by decide) hserve⟩

end SistemasOperativos.PoolEcho
