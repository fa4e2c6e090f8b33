import SistemasOperativos.PreallocatedPool
import SistemasOperativos.TokenPlaces

/-!
# Where the preallocated items are

As long as every submission finds a free item and no worker takes an item
without a function, each element of `freepool` is in one place. A submission
that finds none links a null into the queue. A worker whose item has no
function keeps the item for ever and releases the mutex twice.
-/

namespace SistemasOperativos.PreallocatedPool

open TransitionRuns ConditionMonitor TokenPlaces

variable {κ φ α : Type*} [DecidableEq κ]

/-- The item of the worker that calls. -/
def Caller.item? : Caller → Option Item
  | .client => none
  | .item i => some i

/-- The item that a worker has taken and not given back. -/
def Pc.hand : Pc φ α → Option Item
  | .submitLocking k _ _ | .creating k _ _ | .linking k _ | .signaling k | .submitUnlocking k
  | .destroyLocking k | .broadcasting k | .destroyUnlocking k => k.item?
  | .unlocking wi | .testing wi => wi
  | .calling i | .running i | .relocking i | .freeing i => some i
  | .idle | .locking | .checking | .waiting | .removing | .exitUnlocking | .finished => none

/-- The item that a call of `tp_submit` has created and not linked. -/
def Pc.fresh : Pc φ α → Option Item
  | .linking _ wi => wi
  | _ => none

/-- Between taking the mutex and releasing it. -/
def Pc.inside : Pc φ α → Bool
  | .creating .. | .linking .. | .signaling _ | .submitUnlocking _ | .broadcasting _
  | .destroyUnlocking _ | .checking | .removing | .unlocking _ | .freeing _ => true
  | _ => false

/-- Before a statement that releases the mutex. -/
def Pc.releases : Pc φ α → Bool
  | .submitUnlocking _ | .destroyUnlocking _ | .checking | .unlocking _ | .exitUnlocking => true
  | _ => false

/-- Code that a thread outside the pool executes. -/
def Pc.ofClient : Pc φ α → Bool
  | .idle => true
  | .submitLocking k _ _ | .creating k _ _ | .linking k _ | .signaling k | .submitUnlocking k
  | .destroyLocking k | .broadcasting k | .destroyUnlocking k => k = .client
  | _ => false

/-- Every pointer to an item is one to an element, and no worker leaves its loop. -/
def Pc.sound : Pc φ α → Bool
  | .linking _ wi | .unlocking wi | .testing wi => wi.isSome
  | .exitUnlocking | .finished => false
  | _ => true

/-- The items are conserved, only items are linked into the queue, and only the
holder of the mutex comes to release it. -/
structure Conserved (s : State κ φ α) : Prop where
  /-- With the mutex free every item is once in the free list, once in the queue
  or in the hand of one worker. -/
  once : s.monitor.holder = none → ∀ i, s.free.count i + s.queue.count (some i) +
    (∑ w, if (s.pc (.worker w)).hand = some i then 1 else 0) = 1
  /-- What is linked, or is about to be, is an item. -/
  linked : none ∉ s.queue ∧ ∀ p k, s.pc p ≠ .linking k none
  released : ∀ p, (s.pc p).releases = true → s.monitor.holder = some p

/-- A submission finds a free item, and a worker finds a function in its item. -/
def Allowed (s : State κ φ α) (l : Thread κ × Action κ φ α) : Prop :=
  match l.2, s.pc l.1 with
  | .run, .creating .. => s.free ≠ []
  | .run, .testing (some i) => (s.freepool i).func ≠ none
  | _, _ => True

/-- Where an item may be. -/
inductive Place (κ : Type*)
  | free
  | queue
  /-- Taken by a worker. -/
  | hand (p : Thread κ)
  /-- Created by a call of `tp_submit`, and not linked. -/
  | fresh (p : Thread κ)
  deriving DecidableEq, Repr

/-- How often an item occurs in a place. -/
def occ (s : State κ φ α) (i : Item) : Place κ → ℕ
  | .free => s.free.count i
  | .queue => s.queue.count (some i)
  | .hand p => if (s.pc p).hand = some i then 1 else 0
  | .fresh p => if (s.pc p).fresh = some i then 1 else 0

/-- Where everything is while all steps are allowed. -/
structure Inv (s : State κ φ α) : Prop where
  held : s.monitor.HeldBy fun p => (s.pc p).inside = true
  placed : ∃ loc, Placed (occ s) loc ∧ ∀ i, (loc i).isSome
  queued : none ∉ s.queue
  sound : ∀ p, (s.pc p).sound = true
  clients : ∀ c, (s.pc (.client c)).ofClient = true

variable {s t : State κ φ α} {p : Thread κ} {q : Pc φ α}

omit [DecidableEq κ] in
/-- A thread outside the pool holds no item. -/
theorem hand_of_client (h : q.ofClient = true) : q.hand = none := by
  cases q with
  | submitLocking k | creating k | linking k | signaling k | submitUnlocking k | destroyLocking k
  | broadcasting k | destroyUnlocking k =>
    rw [show k = .client from of_decide_eq_true h]
    rfl
  | idle => rfl
  | _ => cases h

omit [DecidableEq κ] in
/-- Created items exist inside a critical section only. -/
theorem inside_of_fresh {i : Item} (h : q.fresh = some i) : q.inside = true := by
  cases q with
  | linking => rfl
  | _ => cases h

/-- Everything in its place is conserved. -/
theorem Inv.conserved (h : Inv s) : Conserved s where
  once := by
    intro hfree i
    obtain ⟨loc, hplaced, hall⟩ := h.placed
    obtain ⟨k, hk⟩ := Option.isSome_iff_exists.mp (hall i)
    have hcount (k' : Place κ) : occ s i k' = if k = k' then 1 else 0 := by
      rw [hplaced i k', hk]
      simp only [Option.some.injEq]
    have hsum : (∑ w, if (s.pc (.worker w)).hand = some i then 1 else 0) =
        ∑ w, if k = .hand (.worker w) then 1 else 0 :=
      Finset.sum_congr rfl fun w _ => hcount (.hand (.worker w))
    rw [show s.free.count i = _ from hcount .free,
      show s.queue.count (some i) = _ from hcount .queue, hsum]
    cases k with
    | free | queue => simp
    | hand p =>
      cases p with
      | worker w => simp
      | client c =>
        have hhand := hcount (.hand (.client c))
        simp [occ, hand_of_client (h.clients c)] at hhand
    | fresh p =>
      have hfresh := hcount (.fresh p)
      simp only [occ, if_true, ite_eq_left_iff, Nat.zero_ne_one, imp_false, not_not] at hfresh
      have hheld := (h.held p).mp (inside_of_fresh hfresh)
      rw [hfree] at hheld
      cases hheld
  linked := by
    refine ⟨h.queued, fun p k hpc => ?_⟩
    have hsound := h.sound p
    rw [hpc] at hsound
    cases hsound
  released := by
    intro p hp
    have hsound := h.sound p
    refine (h.held p).mp ?_
    show (s.pc p).inside = true
    cases hpc : s.pc p with
    | exitUnlocking =>
      rw [hpc] at hsound
      cases hsound
    | submitUnlocking | destroyUnlocking | checking | unlocking => rfl
    | _ =>
      rw [hpc] at hp
      cases hp

/-- A thread moves on, and its items are where they were or moved with it. -/
theorem Inv.moves (h : Inv s) (hpc : t.pc = Function.update s.pc p q)
    (hheld : t.monitor.HeldBy fun r => (t.pc r).inside = true)
    (hplaced : ∃ loc, Placed (occ t) loc ∧ ∀ i, (loc i).isSome) (hqueued : none ∉ t.queue)
    (hsound : q.sound = true) (hclient : (s.pc p).ofClient = true → q.ofClient = true) : Inv t where
  held := hheld
  placed := hplaced
  queued := hqueued
  sound r := by
    rw [hpc]
    rcases eq_or_ne r p with rfl | hr
    · rw [Function.update_self]
      exact hsound
    · rw [Function.update_of_ne hr]
      exact h.sound r
  clients c := by
    have hc := h.clients c
    rw [hpc]
    rcases eq_or_ne (.client c) p with rfl | hr
    · rw [Function.update_self]
      exact hclient hc
    · rw [Function.update_of_ne hr]
      exact hc

/-- A thread moves and keeps what it has. -/
theorem occ_same (hpc : t.pc = Function.update s.pc p q) (hfree : t.free = s.free)
    (hqueue : t.queue = s.queue) (hhand : q.hand = (s.pc p).hand)
    (hfresh : q.fresh = (s.pc p).fresh) : occ t = occ s := by
  have hpull (f : Pc φ α → Option Item) (hf : f q = f (s.pc p)) (r : Thread κ) :
      f (t.pc r) = f (s.pc r) := by
    rw [hpc]
    rcases eq_or_ne r p with rfl | hr
    · rw [Function.update_self, hf]
    · rw [Function.update_of_ne hr]
  funext i k
  cases k with
  | free => exact congrArg (List.count i) hfree
  | queue => exact congrArg (List.count (some i)) hqueue
  | hand r => simp only [occ, hpull Pc.hand hhand r]
  | fresh r => simp only [occ, hpull Pc.fresh hfresh r]

/-- From one place in the code to another with the same items in hand. -/
structure Pc.Keeps (o q : Pc φ α) : Prop where
  hand : q.hand = o.hand
  fresh : q.fresh = o.fresh
  sound : q.sound = true
  client : o.ofClient = true → q.ofClient = true

/-- A statement that leaves the lists alone. -/
theorem Inv.keeps (h : Inv s) (hkeeps : (s.pc p).Keeps q) (hpc : t.pc = Function.update s.pc p q)
    (hfree : t.free = s.free) (hqueue : t.queue = s.queue)
    (hheld : t.monitor.HeldBy fun r => (t.pc r).inside = true) : Inv t := by
  refine h.moves hpc hheld ?_ (hqueue ▸ h.queued) hkeeps.sound hkeeps.client
  rw [occ_same hpc hfree hqueue hkeeps.hand hkeeps.fresh]
  exact h.placed

/-- A statement that neither takes the mutex nor releases it. -/
theorem Inv.stays (h : Inv s) (hkeeps : (s.pc p).Keeps q) (hpc : t.pc = Function.update s.pc p q)
    (hfree : t.free = s.free) (hqueue : t.queue = s.queue)
    (hholder : t.monitor.holder = s.monitor.holder) (hin : q.inside = (s.pc p).inside) : Inv t :=
  h.keeps hkeeps hpc hfree hqueue
    (h.held.stays (I := fun o : Pc φ α => o.inside = true) hholder hpc (by rw [hin]))

/-- A thread takes the mutex. -/
theorem Inv.locks (h : Inv s) (hkeeps : (s.pc p).Keeps q) (hlock : s.lock p q = some t)
    (hin : q.inside = true) : Inv t := by
  obtain ⟨m, hm, rfl⟩ := Option.map_eq_some_iff.mp hlock
  obtain ⟨hfree, rfl⟩ := Monitor.lock_spec hm
  exact h.keeps hkeeps rfl rfl rfl
    (h.held.moves_in (I := fun o : Pc φ α => o.inside = true) hfree rfl rfl hin)

/-- A thread releases the mutex. -/
theorem Inv.unlocks (h : Inv s) (hkeeps : (s.pc p).Keeps q) (hpc : t.pc = Function.update s.pc p q)
    (hfree : t.free = s.free) (hqueue : t.queue = s.queue) (hholder : t.monitor.holder = none)
    (hbefore : (s.pc p).inside = true) (hout : q.inside = false) : Inv t :=
  h.keeps hkeeps hpc hfree hqueue
    (h.held.moves_out (I := fun o : Pc φ α => o.inside = true) ((h.held p).mp hbefore) hholder hpc
      (by rw [hout]; nofun))

/-- How often something occurs behind a first element. -/
theorem count_cons_eq {β : Type*} [BEq β] [LawfulBEq β] [DecidableEq β] (a b : β) (l : List β) :
    (b :: l).count a = l.count a + if a = b then 1 else 0 := by
  rw [List.count_cons]
  simp only [beq_iff_eq, @eq_comm _ b a]

/-- When one thread moves, the balance of what each thread has of an item is that
of the thread that moves. -/
theorem moved_share (f : Pc φ α → Option Item) {j : Item} {r : Thread κ} {lost gained : ℕ}
    (h : (if f q = some j ∧ r = p then 1 else 0) + lost =
      (if f (s.pc p) = some j ∧ r = p then 1 else 0) + gained) :
    (if f (Function.update s.pc p q r) = some j then 1 else 0) + lost =
      (if f (s.pc r) = some j then 1 else 0) + gained := by
  rcases eq_or_ne r p with rfl | hr
  · simpa only [Function.update_self, and_true] using h
  · simp only [hr, and_false, if_false] at h
    rw [Function.update_of_ne hr]
    omega

/-- Thread `p` carries item `i` from one place to another, each of them a list or
its own hand. -/
theorem Inv.carries (h : Inv s) (hpc : t.pc = Function.update s.pc p q) {i : Item}
    {k m : Place κ} (hfrom : 0 < occ s i k)
    (hfree : ∀ j, t.free.count j + (if j = i ∧ k = .free then 1 else 0) =
      s.free.count j + if j = i ∧ m = .free then 1 else 0)
    (hqueue : ∀ j, t.queue.count (some j) + (if j = i ∧ k = .queue then 1 else 0) =
      s.queue.count (some j) + if j = i ∧ m = .queue then 1 else 0)
    (hhand : ∀ j r, (if q.hand = some j ∧ r = p then 1 else 0) +
        (if j = i ∧ k = .hand r then 1 else 0) =
      (if (s.pc p).hand = some j ∧ r = p then 1 else 0) + if j = i ∧ m = .hand r then 1 else 0)
    (hfresh : ∀ j r, (if q.fresh = some j ∧ r = p then 1 else 0) +
        (if j = i ∧ k = .fresh r then 1 else 0) =
      (if (s.pc p).fresh = some j ∧ r = p then 1 else 0) + if j = i ∧ m = .fresh r then 1 else 0) :
    ∃ loc, Placed (occ t) loc ∧ ∀ i, (loc i).isSome := by
  obtain ⟨loc, hplaced, hall⟩ := h.placed
  have hloc := hplaced.pos_iff.mp hfrom
  refine ⟨Function.update loc i (some m), hplaced.update i (some m) fun j l => ?_, fun j => ?_⟩
  · rw [hloc]
    simp only [Option.some.injEq]
    cases l with
    | free => exact hfree j
    | queue => exact hqueue j
    | hand r =>
      simp only [occ, hpc]
      exact moved_share Pc.hand (hhand j r)
    | fresh r =>
      simp only [occ, hpc]
      exact moved_share Pc.fresh (hfresh j r)
  · rcases eq_or_ne j i with rfl | hj
    · rw [Function.update_self]
      rfl
    · rw [Function.update_of_ne hj]
      exact hall j

/-- `wi_create` takes the first free item. -/
theorem Inv.creates (h : Inv s) {k : Caller} {func : Option φ} {arg : Option α}
    (hpc : s.pc p = .creating k func arg) (hfree : s.free ≠ []) :
    Inv ((s.wiCreate func arg).1.goto p (.linking k (s.wiCreate func arg).2)) := by
  obtain ⟨i, rest, hlist⟩ := List.exists_cons_of_ne_nil hfree
  have hcount (j : Item) : s.free.count j = rest.count j + if j = i then 1 else 0 := by
    rw [hlist, count_cons_eq]
  unfold State.wiCreate
  rw [hlist]
  refine h.moves rfl (h.held.stays (I := fun o : Pc φ α => o.inside = true) rfl rfl (by rw [hpc]; rfl))
    (h.carries (k := .free) (m := .fresh p) (i := i) rfl ?_ ?_ ?_ ?_ ?_) h.queued rfl
    (by rw [hpc]; exact id)
  · have hi := hcount i
    rw [if_pos rfl] at hi
    show 0 < s.free.count i
    omega
  · simp [State.goto, hcount]
  · simp [State.goto]
  · rw [hpc]
    simp only [reduceCtorEq, and_false, if_false]
    exact fun _ _ => rfl
  · rw [hpc]
    simp [Pc.fresh, eq_comm]

/-- `tp_submit` links its item into the queue. -/
theorem Inv.links (h : Inv s) {k : Caller} {i : Item} (hpc : s.pc p = .linking k (some i)) :
    Inv ({ s with queue := s.queue ++ [some i] }.goto p (.signaling k)) := by
  refine h.moves rfl (h.held.stays (I := fun o : Pc φ α => o.inside = true) rfl rfl (by rw [hpc]; rfl))
    (h.carries (k := .fresh p) (m := .queue) (i := i) rfl ?_ ?_ ?_ ?_ ?_) ?_ rfl
    (by rw [hpc]; exact id)
  · simp [occ, hpc, Pc.fresh]
  · simp [State.goto]
  · intro j
    show (s.queue ++ [some i]).count (some j) + _ = _
    rw [List.count_append, count_cons_eq]
    simp
  · rw [hpc]
    simp only [reduceCtorEq, and_false, if_false]
    exact fun _ _ => rfl
  · rw [hpc]
    simp [Pc.fresh, eq_comm]
  · show none ∉ s.queue ++ [some i]
    simp [h.queued]

/-- A worker takes the first item of the queue. -/
theorem Inv.removes (h : Inv s) {wi : Option Item} {rest : List (Option Item)}
    (hpc : s.pc p = .removing) (hlist : s.queue = wi :: rest) :
    Inv ({ s with queue := rest }.goto p (.unlocking wi)) := by
  have hqueued := h.queued
  rw [hlist, List.mem_cons, not_or] at hqueued
  obtain ⟨i, rfl⟩ := Option.ne_none_iff_exists'.mp (Ne.symm hqueued.1)
  have hcount (j : Item) : s.queue.count (some j) = rest.count (some j) + if j = i then 1 else 0 := by
    rw [hlist, count_cons_eq]
    simp only [Option.some.injEq]
  refine h.moves rfl (h.held.stays (I := fun o : Pc φ α => o.inside = true) rfl rfl (by rw [hpc]; rfl))
    (h.carries (k := .queue) (m := .hand p) (i := i) rfl ?_ ?_ ?_ ?_ ?_) hqueued.2 rfl
    (by rw [hpc]; nofun)
  · have hi := hcount i
    rw [if_pos rfl] at hi
    show 0 < s.queue.count (some i)
    omega
  · simp [State.goto]
  · simp [State.goto, hcount]
  · rw [hpc]
    simp [Pc.hand, eq_comm]
  · rw [hpc]
    simp [Pc.fresh]

/-- `wi_destroy` gives the item of a worker back. -/
theorem Inv.frees (h : Inv s) {i : Item} (hpc : s.pc p = .freeing i) :
    Inv ((s.wiDestroy i).goto p .checking) := by
  refine h.moves rfl (h.held.stays (I := fun o : Pc φ α => o.inside = true) rfl rfl (by rw [hpc]; rfl))
    (h.carries (k := .hand p) (m := .free) (i := i) rfl ?_ ?_ ?_ ?_ ?_) h.queued rfl
    (by rw [hpc]; nofun)
  · simp [occ, hpc, Pc.hand]
  · simp [State.goto, State.wiDestroy, count_cons_eq]
  · simp [State.goto, State.wiDestroy]
  · rw [hpc]
    simp [Pc.hand, eq_comm]
  · rw [hpc]
    simp [Pc.fresh]

/-- Every allowed statement keeps everything in its place. -/
theorem Inv.run (h : Inv s) (hrun : s.run p = some t) (ha : Allowed s (p, .run)) : Inv t := by
  have hsound := h.sound p
  unfold State.run at hrun
  unfold Allowed at ha
  cases hpc : s.pc p with
  | idle | finished | signaling k =>
    simp only [hpc] at hrun
    cases hrun
  | submitLocking k func arg | destroyLocking k =>
    simp only [hpc] at hrun
    exact h.locks (hpc ▸ ⟨rfl, rfl, rfl, id⟩) hrun rfl
  | locking =>
    simp only [hpc] at hrun
    exact h.locks (hpc ▸ ⟨rfl, rfl, rfl, nofun⟩) hrun rfl
  | relocking i =>
    simp only [hpc] at hrun
    exact h.locks (hpc ▸ ⟨rfl, rfl, rfl, nofun⟩) hrun rfl
  | creating k func arg =>
    simp only [hpc, Option.some.injEq] at hrun ha
    subst hrun
    exact h.creates hpc ha
  | linking k wi =>
    rw [hpc] at hsound
    obtain ⟨i, rfl⟩ := Option.isSome_iff_exists.mp hsound
    simp only [hpc, Option.some.injEq] at hrun
    subst hrun
    exact h.links hpc
  | submitUnlocking k | destroyUnlocking k =>
    simp only [hpc, Option.some.injEq] at hrun
    subst hrun
    have hkeeps : (s.pc p).Keeps (k.back : Pc φ α) := by
      rw [hpc]
      cases k with
      | client => exact ⟨rfl, rfl, rfl, fun _ => rfl⟩
      | item i => exact ⟨rfl, rfl, rfl, nofun⟩
    exact h.unlocks hkeeps rfl rfl rfl rfl (by rw [hpc]; rfl) (by cases k <;> rfl)
  | broadcasting k =>
    simp only [hpc, Option.some.injEq] at hrun
    subst hrun
    exact h.stays (hpc ▸ ⟨rfl, rfl, rfl, id⟩) rfl rfl rfl rfl (by rw [hpc]; rfl)
  | checking =>
    simp only [hpc] at hrun
    split at hrun
    · cases hrun
      exact h.unlocks (hpc ▸ ⟨rfl, rfl, rfl, nofun⟩) rfl rfl rfl rfl (by rw [hpc]; rfl) rfl
    · cases hrun
      exact h.stays (hpc ▸ ⟨rfl, rfl, rfl, nofun⟩) rfl rfl rfl rfl (by rw [hpc]; rfl)
  | waiting =>
    simp only [hpc] at hrun
    obtain ⟨m, hm, rfl⟩ := Option.map_eq_some_iff.mp hrun
    obtain ⟨-, hfree, rfl⟩ := Monitor.relock_spec hm
    exact h.locks (hpc ▸ ⟨rfl, rfl, rfl, nofun⟩) (Option.map_eq_some_iff.mpr
      ⟨_, Monitor.lock_of_free hfree, rfl⟩) rfl
  | removing =>
    simp only [hpc] at hrun
    split at hrun
    · cases hrun
    · next wi rest hlist =>
      cases hrun
      exact h.removes hpc hlist
  | unlocking wi =>
    simp only [hpc, Option.some.injEq] at hrun
    subst hrun
    rw [hpc] at hsound
    exact h.unlocks (hpc ▸ ⟨rfl, rfl, hsound, nofun⟩) rfl rfl rfl rfl (by rw [hpc]; rfl) rfl
  | testing wi =>
    cases wi with
    | none =>
      simp only [hpc] at hrun
      cases hrun
    | some i =>
      simp only [hpc] at hrun ha
      split at hrun
      · next hnull => exact absurd hnull ha
      · cases hrun
        exact h.stays (hpc ▸ ⟨rfl, rfl, rfl, nofun⟩) rfl rfl rfl rfl (by rw [hpc]; rfl)
  | calling i =>
    simp only [hpc] at hrun
    obtain ⟨f, -, rfl⟩ := Option.map_eq_some_iff.mp hrun
    exact h.stays (hpc ▸ ⟨rfl, rfl, rfl, nofun⟩) rfl rfl rfl rfl (by rw [hpc]; rfl)
  | running i =>
    simp only [hpc, Option.some.injEq] at hrun
    subst hrun
    exact h.stays (hpc ▸ ⟨rfl, rfl, rfl, nofun⟩) rfl rfl rfl rfl (by rw [hpc]; rfl)
  | freeing i =>
    simp only [hpc, Option.some.injEq] at hrun
    subst hrun
    exact h.frees hpc
  | exitUnlocking =>
    rw [hpc] at hsound
    cases hsound

/-- Every allowed step keeps everything in its place. -/
theorem Inv.next (h : Inv s) {l : Thread κ × Action κ φ α} (hnext : s.next l = some t)
    (ha : Allowed s l) : Inv t := by
  obtain ⟨p, a⟩ := l
  have hcall {q : Caller → Pc φ α} (hcaller : ∃ k, (s.pc p).caller = some k ∧ s.goto p (q k) = t)
      (hq : ∀ k, (q k).hand = k.item? ∧ (q k).fresh = none ∧ (q k).sound = true ∧
        ((q k).ofClient = decide (k = .client)) ∧ (q k).inside = false) : Inv t := by
    obtain ⟨k, hk, rfl⟩ := hcaller
    obtain ⟨hhand, hfresh, hsound, hclient, hin⟩ := hq k
    cases hpc : s.pc p with
    | idle =>
      rw [hpc] at hk
      cases hk
      exact h.stays (hpc ▸ ⟨hhand, hfresh, hsound, fun _ => hclient⟩) rfl rfl rfl rfl
        (by rw [hpc]; exact hin)
    | running i =>
      rw [hpc] at hk
      cases hk
      exact h.stays (hpc ▸ ⟨hhand, hfresh, hsound, nofun⟩) rfl rfl rfl rfl (by rw [hpc]; exact hin)
    | _ =>
      rw [hpc] at hk
      cases hk
  unfold State.next at hnext
  cases a with
  | submit func arg =>
    exact hcall (q := fun k => .submitLocking k func arg) (Option.map_eq_some_iff.mp hnext)
      fun k => ⟨rfl, rfl, rfl, rfl, rfl⟩
  | destroy =>
    exact hcall (q := fun k => .destroyLocking k) (Option.map_eq_some_iff.mp hnext)
      fun k => ⟨rfl, rfl, rfl, rfl, rfl⟩
  | run => exact h.run hnext ha
  | signal w =>
    simp only at hnext
    split at hnext
    · next k hpc =>
      obtain ⟨m, hm, rfl⟩ := Option.map_eq_some_iff.mp hnext
      exact h.stays (hpc ▸ ⟨rfl, rfl, rfl, id⟩) rfl rfl rfl (Monitor.signal_holder hm)
        (by rw [hpc]; rfl)
    · cases hnext
  | wake =>
    simp only at hnext
    split at hnext
    · obtain ⟨m, hm, rfl⟩ := Option.map_eq_some_iff.mp hnext
      refine ⟨h.held.keep (p := p) (Monitor.signal_holder hm) Iff.rfl fun _ _ => Iff.rfl, ?_,
        h.queued, h.sound, h.clients⟩
      exact h.placed
    · cases hnext

/-- Only an allowed step ends in a state in which everything is conserved. -/
theorem Inv.allowed (h : Inv s) {l : Thread κ × Action κ φ α} (hnext : s.next l = some t)
    (ht : Conserved t) : Allowed s l := by
  obtain ⟨p, a⟩ := l
  unfold Allowed
  split
  · next k func arg ha hpc =>
    intro hempty
    simp only at ha hpc
    subst ha
    have hrun : s.run p = some t := hnext
    simp only [State.run, hpc, State.wiCreate, hempty, Option.some.injEq] at hrun
    subst hrun
    exact ht.linked.2 p k (Function.update_self ..)
  · next i ha hpc =>
    intro hnull
    simp only at ha hpc
    subst ha
    have hrun : s.run p = some t := hnext
    simp only [State.run, hpc, hnull, Option.some.injEq] at hrun
    subst hrun
    have hheld := ht.released p (by
      show (Function.update s.pc p .exitUnlocking p).releases = true
      rw [Function.update_self]
      rfl)
    have hin : (s.pc p).inside = true := (h.held p).mpr hheld
    rw [hpc] at hin
    cases hin
  · trivial

/-- `init_wi_pool` links every element once. -/
theorem count_initWiPool (i : Item) : initWiPool.count i = 1 := by
  unfold initWiPool
  exact List.count_eq_one_of_mem (List.nodup_finRange poolSize) (List.mem_finRange i)

/-- Everything is in its place after `tp_init`. -/
theorem inv_initial : Inv (initial : State κ φ α) where
  held p := by
    have hout : ((initial : State κ φ α).pc p).inside = false := by cases p <;> rfl
    exact ⟨fun hin => absurd (hout.symm.trans hin) Bool.false_ne_true, fun he => nomatch he⟩
  placed := by
    refine ⟨fun _ => some .free, fun i k => ?_, fun _ => rfl⟩
    cases k with
    | free =>
      rw [if_pos rfl, occ, initial, count_initWiPool i]
    | queue => rfl
    | hand p => cases p <;> rfl
    | fresh p => cases p <;> rfl
  queued := List.not_mem_nil
  sound p := by cases p <;> rfl
  clients _ := rfl

/-- In every run from `tp_init` on, the items are conserved in all states exactly
when every submission finds a free item and no worker takes one without a function. -/
theorem items_conserved_iff {trace : List (Transition (State κ φ α) (Thread κ × Action κ φ α))}
    (hrun : (pool κ φ α).Run initial trace t) :
    (∀ x ∈ trace, Conserved x.target) ↔ ∀ x ∈ trace, Allowed x.source x.label :=
  hrun.forall_good_iff_of_invariant inv_initial (fun _ h => h.conserved)
    (fun _ _ _ h hstep ha => h.next hstep ha) fun _ _ _ h hstep ht => h.allowed hstep ht

set_option maxRecDepth 20000 in
/-- One submission of an item with a function. -/
theorem items_conserved_iff_one :
    ∃ s : State Unit ℕ ℕ, s.monitor.holder = none ∧ s.queue = [some 0] ∧ Conserved s := by
  have hcreated := (((System.Run.nil (S := pool Unit ℕ ℕ) initial).snoc
    (a := (Thread.client (), Action.submit (some 5) none)) rfl).snoc
    (a := (Thread.client (), Action.run)) rfl).snoc (a := (Thread.client (), Action.run)) rfl
  have hlinked := ((hcreated.snoc (a := (Thread.client (), Action.run)) rfl).snoc
    (a := (Thread.client (), Action.signal none)) rfl).snoc (a := (Thread.client (), Action.run)) rfl
  have hconserved := (items_conserved_iff hlinked).mpr (by
    intro x hx
    simp only [List.nil_append, List.cons_append, List.mem_cons, List.not_mem_nil, or_false] at hx
    rcases hx with rfl | rfl | rfl | rfl | rfl | rfl
    case inr.inr.inl => exact List.ne_nil_of_mem (List.mem_finRange 0)
    all_goals trivial)
  exact ⟨_, rfl, by decide +kernel, hconserved _ (List.mem_append_right _ (List.mem_singleton.mpr rfl))⟩

/-- An item without a function ends its worker and is in no place afterwards,
and the worker comes to release the mutex, which it does not hold. -/
theorem null_function_loses_item : ∃ s : State Unit ℕ ℕ, (pool Unit ℕ ℕ).Reachable s ∧
    s.monitor.holder = none ∧
    s.free.count 0 + s.queue.count (some 0) +
      (∑ w, if (s.pc (.worker w)).hand = some 0 then 1 else 0) = 0 ∧
    (s.pc (.worker 0)).releases = true := by
  have hstart : (pool Unit ℕ ℕ).Reachable initial := .start rfl
  obtain ⟨s, hs, hp⟩ := hstart.exists_of_any
    ((.client (), .submit none none) :: List.replicate 3 (.client (), .run) ++
      [(.client (), .signal none), (.client (), .run)] ++ List.replicate 5 (.worker 0, .run))
    (p := fun s => s.monitor.holder = none ∧ s.free.count 0 + s.queue.count (some 0) +
      (∑ w, if (s.pc (.worker w)).hand = some 0 then 1 else 0) = 0 ∧
      (s.pc (.worker 0)).releases = true) (by decide +kernel)
  exact ⟨s, hs, of_decide_eq_true hp⟩

end SistemasOperativos.PreallocatedPool
