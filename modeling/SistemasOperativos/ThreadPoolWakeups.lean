import SistemasOperativos.ThreadPoolExecution

/-!
# Wake-ups of the thread pool

A node of the queue's list is owed, while somebody sleeps, to a worker that was
woken and has not looked at the list again, or to the holder of the queue's
lock, which takes a node or has still to signal one.
-/

namespace SistemasOperativos.ThreadPool

open TransitionRuns ConditionMonitor Census

variable {κ φ α : Type*}

/-- The statements executed with the queue's lock held. -/
def Pc.queueHeld : Pc φ α → Bool
  | .putting _ _ .inserting | .putting _ _ .signaling | .putting _ _ .unlocking
  | .getChecking | .getRemoving | .getUnlocking _ => true
  | _ => false

/-- Inside `pthread_cond_wait`. -/
def Pc.inWait : Pc φ α → Bool
  | .getWaiting => true
  | _ => false

/-- The threads to which a node is owed, by where they stand and whether they are
asleep there. -/
def owed : Pc φ α × Bool → Bool
  | (.getWaiting, asleep) => !asleep
  | (.putting _ _ .signaling, _) | (.getChecking, _) | (.getRemoving, _) => true
  | _ => false

/-- The threads asleep on `has_items`. -/
def State.asleep (s : State κ φ α) : Finset (Thread κ) := s.queue.asleep .hasItems

variable [DecidableEq κ]

/-- Where a thread stands, and whether it is asleep there. -/
def State.place (s : State κ φ α) (p : Thread κ) : Pc φ α × Bool := (s.pc p, decide (p ∈ s.asleep))

/-- What a step does to the queue. Its thread goes from one place to another. -/
inductive QueueMoves (s : State κ φ α) (p : Thread κ) (t : State κ φ α) : Pc φ α → Pc φ α → Prop
  /-- The queue is left alone. -/
  | away (q q' : Pc φ α) : t.list = s.list → t.queue = s.queue → q'.queueHeld = q.queueHeld →
      q.inWait = false → q'.inWait = false → owed (q', false) = owed (q, false) →
      (q' = .getRemoving → s.list ≠ []) → QueueMoves s p t q q'
  | locked (q q' : Pc φ α) : t.list = s.list → s.queue.holder = none →
      t.queue = { s.queue with holder := some p } → q'.queueHeld = true → q.inWait = false →
      q'.inWait = false → owed (q, false) = false → q' ≠ .getRemoving → QueueMoves s p t q q'
  | relocked : t.list = s.list → s.queue.holder = none → p ∉ s.asleep →
      t.queue = { s.queue with holder := some p } → QueueMoves s p t .getWaiting .getChecking
  | slept : t.list = s.list → s.list = [] → s.queue.holder = some p →
      t.queue = ⟨none, Function.update s.queue.asleep .hasItems (insert p s.asleep)⟩ →
      QueueMoves s p t .getChecking .getWaiting
  | inserted (k : PutCaller φ α) (item : Option (WorkItem φ α)) : t.list = s.list ++ [item] →
      t.queue = s.queue → QueueMoves s p t (.putting k item .inserting) (.putting k item .signaling)
  | signaled (k : PutCaller φ α) (item : Option (WorkItem φ α)) (w : Option (Thread κ)) :
      t.list = s.list → s.queue.signal .hasItems w = some t.queue →
      QueueMoves s p t (.putting k item .signaling) (.putting k item .unlocking)
  | removed (item : Option (WorkItem φ α)) : s.list = item :: t.list → t.queue = s.queue →
      QueueMoves s p t .getRemoving (.getUnlocking item)
  | unlocked (q q' : Pc φ α) : t.list = s.list → s.queue.holder = some p →
      t.queue = { s.queue with holder := none } → q.queueHeld = true → q'.queueHeld = false →
      q.inWait = false → q'.inWait = false → owed (q, false) = false → q' ≠ .getRemoving →
      QueueMoves s p t q q'
  | woken : t.list = s.list → p ∈ s.asleep →
      t.queue = ⟨s.queue.holder, Function.update s.queue.asleep .hasItems (s.asleep.erase p)⟩ →
      QueueMoves s p t .getWaiting .getWaiting

/-- Every action is one of these steps of the queue. -/
theorem Executed.queueMoves {s t : State κ φ α} {p : Thread κ} {old : Pc φ α}
    (h : Executed s p old t) :
    ∃ q, t.pc = Function.update s.pc p q ∧ QueueMoves s p t old q := by
  cases h with
  | refusedEarly k func arg hset =>
    refine ⟨_, rfl, .away _ _ rfl rfl ?_ rfl ?_ ?_ ?_⟩ <;> cases k <;> first | rfl | nofun
  | submitUnlocked k hheld =>
    refine ⟨_, rfl, .away _ _ rfl rfl ?_ rfl ?_ ?_ ?_⟩ <;> cases k <;> first | rfl | nofun
  | putLocked k item hfree => exact ⟨_, rfl, .locked _ _ rfl hfree rfl rfl rfl rfl rfl nofun⟩
  | inserted k item =>
    refine ⟨.putting k item .signaling, ?_, .inserted k item ?_ ?_⟩ <;> cases item <;> rfl
  | signaled k item w m hm => exact ⟨_, rfl, .signaled k item w rfl hm⟩
  | putUnlocked k item hheld =>
    refine ⟨_, rfl, .unlocked _ _ rfl hheld rfl rfl ?_ rfl ?_ rfl ?_⟩ <;> cases k <;>
      first | rfl | nofun
  | getLocked hfree => exact ⟨_, rfl, .locked _ _ rfl hfree rfl rfl rfl rfl rfl nofun⟩
  | getEmpty hempty hheld => exact ⟨_, rfl, .slept rfl hempty hheld rfl⟩
  | getFound hsome => exact ⟨_, rfl, .away _ _ rfl rfl rfl rfl rfl rfl fun _ => hsome⟩
  | getRelocked hawake hfree => exact ⟨_, rfl, .relocked rfl hfree hawake rfl⟩
  | woken hasleep => exact ⟨_, rfl, .woken rfl hasleep rfl⟩
  | removed item rest hlist =>
    refine ⟨.getUnlocking item, ?_, .removed item ?_ ?_⟩ <;> cases item <;> first | rfl | exact hlist
  | getUnlocked item hheld =>
    exact ⟨_, rfl, .unlocked _ _ rfl hheld rfl rfl rfl rfl rfl rfl nofun⟩
  | _ => exact ⟨_, rfl, .away _ _ rfl rfl rfl rfl rfl rfl nofun⟩

/-- One thread moves, and the others sleep on. -/
theorem place_update {s t : State κ φ α} {p : Thread κ} {q : Pc φ α}
    (hpc : t.pc = Function.update s.pc p q)
    (hasleep : ∀ r, r ≠ p → (r ∈ t.asleep ↔ r ∈ s.asleep)) :
    t.place = Function.update s.place p (q, decide (p ∈ t.asleep)) := by
  funext r
  rcases eq_or_ne r p with rfl | hr
  · rw [Function.update_self, State.place, hpc, Function.update_self]
  · rw [Function.update_of_ne hr]
    have hsame : t.pc r = s.pc r := by rw [hpc, Function.update_of_ne hr]
    simp only [State.place, hsame, hasleep r hr]

/-- The queue's lock is held by the thread inside, and while somebody sleeps every
node of the list is owed to a thread. -/
structure WakeInv (s : State κ φ α) : Prop where
  holding : s.queue.HeldBy fun p => (s.pc p).queueHeld = true
  asleep : ∀ p ∈ s.asleep, s.pc p = .getWaiting
  found : ∀ p, s.pc p = .getRemoving → s.list ≠ []
  covered : ∃ n, Standing s.place (fun x => owed x = true) n ∧
    (s.asleep.Nonempty → (s.list.length : ℤ) ≤ n)

section Steps

variable {s t : State κ φ α} {p : Thread κ} {q : Pc φ α}

/-- A thread outside the wait is awake. -/
theorem WakeInv.notMem (h : WakeInv s) (hp : (s.pc p).inWait = false) : p ∉ s.asleep := by
  intro hmem
  rw [h.asleep p hmem] at hp
  cases hp

/-- Where a thread that is awake stands. -/
theorem place_awake (hp : p ∉ s.asleep) : s.place p = (s.pc p, false) := by
  rw [State.place, decide_eq_false hp]

/-- A thread that is awake moves, and nobody falls asleep or wakes. -/
theorem WakeInv.moved (h : WakeInv s) (hpc : t.pc = Function.update s.pc p q)
    (hasleep : t.asleep = s.asleep) (hawake : p ∉ s.asleep)
    (hholding : t.queue.HeldBy fun r => (t.pc r).queueHeld = true)
    (hfound : ∀ r, t.pc r = .getRemoving → t.list ≠ [])
    (howed : s.asleep.Nonempty → (t.list.length : ℤ) +
      (if owed (s.pc p, false) = true then 1 else 0) ≤
        s.list.length + if owed (q, false) = true then 1 else 0) : WakeInv t := by
  refine ⟨hholding, fun r hr => ?_, hfound, ?_⟩
  · rw [hasleep] at hr
    have hne : r ≠ p := fun he => hawake (he ▸ hr)
    rw [hpc, Function.update_of_ne hne]
    exact h.asleep r hr
  · have hplace := place_update hpc fun r _ => by rw [hasleep]
    rw [hasleep, decide_eq_false hawake] at hplace
    rw [hplace, hasleep]
    refine Standing.covers h.covered p (q, false) fun hsome => .inr ⟨hsome, ?_⟩
    rw [place_awake hawake]
    exact howed hsome

/-- The list stays, and whoever is about to remove a node was or finds one. -/
theorem found_of_list (h : WakeInv s) (hpc : t.pc = Function.update s.pc p q)
    (hlist : t.list = s.list) (hq : q = .getRemoving → s.list ≠ []) :
    ∀ r, t.pc r = .getRemoving → t.list ≠ [] := by
  intro r hr
  rw [hlist]
  rcases eq_or_ne r p with rfl | hne
  · rw [hpc, Function.update_self] at hr
    exact hq hr
  · rw [hpc, Function.update_of_ne hne] at hr
    exact h.found r hr

/-- A thread moves without entering or leaving the queue. -/
theorem WakeInv.stays (h : WakeInv s) (hpc : t.pc = Function.update s.pc p q)
    (hholder : t.queue.holder = s.queue.holder) (hq : q.queueHeld = (s.pc p).queueHeld) :
    t.queue.HeldBy fun r => (t.pc r).queueHeld = true :=
  Monitor.HeldBy.stays (I := fun q : Pc φ α => q.queueHeld = true) h.holding hholder hpc (by rw [hq])

/-- A thread takes the queue's lock and enters. -/
theorem WakeInv.enters (h : WakeInv s) (hpc : t.pc = Function.update s.pc p q)
    (hfree : s.queue.holder = none) (hqueue : t.queue.holder = some p)
    (hq : q.queueHeld = true) : t.queue.HeldBy fun r => (t.pc r).queueHeld = true :=
  Monitor.HeldBy.moves_in (I := fun q : Pc φ α => q.queueHeld = true) h.holding hfree hqueue hpc hq

/-- A thread leaves and releases the queue's lock. -/
theorem WakeInv.leaves (h : WakeInv s) (hpc : t.pc = Function.update s.pc p q)
    (hheld : s.queue.holder = some p) (hqueue : t.queue.holder = none)
    (hq : q.queueHeld = false) : t.queue.HeldBy fun r => (t.pc r).queueHeld = true :=
  Monitor.HeldBy.moves_out (I := fun q : Pc φ α => q.queueHeld = true) h.holding hheld hqueue hpc
    (Bool.eq_false_iff.mp hq)

/-- A worker that finds no node falls asleep. -/
theorem WakeInv.slept (h : WakeInv s) (hpc : t.pc = Function.update s.pc p .getWaiting)
    (hlist : t.list = s.list) (hempty : s.list = []) (hheld : s.queue.holder = some p)
    (hqueue : t.queue = ⟨none, Function.update s.queue.asleep .hasItems (insert p s.asleep)⟩) :
    WakeInv t := by
  have hasleep : t.asleep = insert p s.asleep := by
    simp only [State.asleep, hqueue, Function.update_self]
  refine ⟨h.leaves hpc hheld (by rw [hqueue]) rfl, fun r hr => ?_,
    found_of_list h hpc hlist nofun, ?_⟩
  · rw [hpc]
    rcases eq_or_ne r p with rfl | hne
    · exact Function.update_self _ _ _
    · rw [Function.update_of_ne hne]
      rw [hasleep] at hr
      exact h.asleep r (Finset.mem_of_mem_insert_of_ne hr hne)
  · have hplace := place_update hpc fun r hne => by
      rw [hasleep, Finset.mem_insert]
      exact ⟨fun hor => hor.resolve_left hne, .inr⟩
    rw [hplace]
    refine Standing.covers h.covered p _ fun _ => .inl ?_
    rw [hlist, hempty]
    rfl

/-- A sleeper that is woken stays where it is, and one more thread owes. -/
theorem WakeInv.raised (h : WakeInv s) (hp : p ∈ s.asleep) (hpc : t.pc = s.pc)
    (hqueue : t.queue =
      ⟨s.queue.holder, Function.update s.queue.asleep .hasItems (s.asleep.erase p)⟩) :
    ∃ n, Standing t.place (fun x => owed x = true) n ∧
      (s.asleep.Nonempty → (s.list.length : ℤ) + 1 ≤ n) := by
  have hasleep : t.asleep = s.asleep.erase p := by
    simp only [State.asleep, hqueue, Function.update_self]
  have hwaiting := h.asleep p hp
  have hplace : t.place = Function.update s.place p (.getWaiting, false) := by
    have hmoved := place_update (p := p) (q := .getWaiting) (s := s) (t := t)
      (by rw [hpc, ← hwaiting, Function.update_eq_self]) fun r hne => by
        rw [hasleep, Finset.mem_erase]
        exact ⟨And.right, fun hr => ⟨hne, hr⟩⟩
    rw [hasleep, decide_eq_false (Finset.notMem_erase p s.asleep)] at hmoved
    exact hmoved
  have hslept : owed (s.place p) = false := by
    rw [State.place, hwaiting, decide_eq_true hp]
    rfl
  rw [hplace]
  refine Standing.covers h.covered p (.getWaiting, false) fun hsome => .inr ⟨hsome, ?_⟩
  rw [hslept]
  exact le_rfl

/-- A sleeper wakes for no reason. -/
theorem WakeInv.woken (h : WakeInv s) (hp : p ∈ s.asleep) (hpc : t.pc = s.pc)
    (hlist : t.list = s.list) (hqueue : t.queue =
      ⟨s.queue.holder, Function.update s.queue.asleep .hasItems (s.asleep.erase p)⟩) : WakeInv t := by
  have hasleep : t.asleep = s.asleep.erase p := by
    simp only [State.asleep, hqueue, Function.update_self]
  obtain ⟨n, hn, hle⟩ := h.raised hp hpc hqueue
  refine ⟨fun r => ?_, fun r hr => ?_, fun r hr => ?_, n, hn, fun _ => ?_⟩
  · rw [hpc, hqueue]
    exact h.holding r
  · rw [hpc]
    rw [hasleep] at hr
    exact h.asleep r (Finset.mem_of_mem_erase hr)
  · rw [hlist]
    rw [hpc] at hr
    exact h.found r hr
  · rw [hlist]
    have hbound := hle ⟨p, hp⟩
    omega

/-- A thread that has put a node signals. -/
theorem WakeInv.signaled (h : WakeInv s) {k : PutCaller φ α} {item : Option (WorkItem φ α)}
    {w : Option (Thread κ)} (hp : s.pc p = .putting k item .signaling)
    (hpc : t.pc = Function.update s.pc p (.putting k item .unlocking)) (hlist : t.list = s.list)
    (hsignal : s.queue.signal .hasItems w = some t.queue) : WakeInv t := by
  have hawake : p ∉ s.asleep := h.notMem (by rw [hp]; rfl)
  have hfound : ∀ r, t.pc r = .getRemoving → t.list ≠ [] :=
    found_of_list h hpc hlist fun he => by cases he
  have hholding : t.queue.HeldBy fun r => (t.pc r).queueHeld = true :=
    h.stays hpc (Monitor.signal_holder hsignal) (by rw [hp]; rfl)
  cases w with
  | none =>
    -- nobody sleeps, so nothing is owed
    simp only [Monitor.signal, Option.ite_none_right_eq_some, Option.some.injEq] at hsignal
    obtain ⟨hnobody, hqueue⟩ := hsignal
    refine h.moved hpc (by rw [State.asleep, ← hqueue]; rfl) hawake hholding hfound
      fun hsome => ?_
    exact absurd hnobody (Finset.card_pos.mpr hsome).ne'
  | some r =>
    simp only [Monitor.signal, Option.ite_none_right_eq_some, Option.some.injEq] at hsignal
    obtain ⟨hr, hqueue⟩ := hsignal
    -- what is owed to the signal is then owed to the worker that it wakes
    obtain ⟨n, hn, hle⟩ := h.raised (t := { s with queue := t.queue }) hr rfl hqueue.symm
    have hwoken : WakeInv { s with queue := t.queue } := h.woken hr rfl rfl hqueue.symm
    have hstays : p ∉ State.asleep { s with queue := t.queue } := hwoken.notMem (by rw [hp]; rfl)
    refine ⟨hholding, fun x hx => ?_, hfound, ?_⟩
    · have hne : x ≠ p := fun he => hstays (he ▸ hx)
      rw [hpc, Function.update_of_ne hne]
      exact hwoken.asleep x hx
    · have hplace : t.place = Function.update (State.place { s with queue := t.queue }) p
          (.putting k item .unlocking, false) := by
        have hmoved := place_update (s := { s with queue := t.queue }) hpc fun _ _ => Iff.rfl
        rw [decide_eq_false (show p ∉ t.asleep from hstays)] at hmoved
        exact hmoved
      rw [hplace, hlist]
      refine Standing.covers ⟨n, hn, hle⟩ p _ fun _ => .inr ⟨⟨r, hr⟩, ?_⟩
      rw [place_awake hstays]
      show _ + (if owed (s.pc p, false) = true then 1 else 0) ≤ _
      rw [hp]
      exact le_rfl

/-- Every step keeps the nodes owed. -/
theorem WakeInv.step (h : WakeInv s) (hpc : t.pc = Function.update s.pc p q)
    (hmove : QueueMoves s p t (s.pc p) q) : WakeInv t := by
  have hkept : ∀ {m : Monitor (Thread κ) Cond}, t.queue = m → m.asleep = s.queue.asleep →
      t.asleep = s.asleep := by
    intro m hm hasleep
    rw [State.asleep, hm, hasleep]
    rfl
  generalize hp : s.pc p = old at hmove
  cases hmove with
  | away _ _ hlist hqueue hheld hold hnew howed hfound =>
    refine h.moved hpc (hkept hqueue rfl) (h.notMem (by rw [hp, hold]))
      (h.stays hpc (by rw [hqueue]) (by rw [hheld, hp])) (found_of_list h hpc hlist hfound) fun _ => ?_
    rw [hlist, howed, hp]
  | locked _ _ hlist hfree hqueue hheld hold hnew howed hfound =>
    refine h.moved hpc (hkept hqueue rfl) (h.notMem (by rw [hp, hold]))
      (h.enters hpc hfree (by rw [hqueue]) hheld)
      (found_of_list h hpc hlist fun he => absurd he hfound) fun _ => ?_
    rw [hlist, hp, howed, if_neg Bool.false_ne_true]
    split <;> omega
  | relocked hlist hfree hawake hqueue =>
    refine h.moved hpc (hkept hqueue rfl) hawake (h.enters hpc hfree (by rw [hqueue]) rfl)
      (found_of_list h hpc hlist nofun) fun _ => ?_
    rw [hlist, hp]
    exact le_rfl
  | slept hlist hempty hheld hqueue => exact h.slept hpc hlist hempty hheld hqueue
  | inserted k item hlist hqueue =>
    refine h.moved hpc (hkept hqueue rfl) (h.notMem (by rw [hp]; rfl))
      (h.stays hpc (by rw [hqueue]) (by rw [hp]; rfl)) (fun r _ => ?_) fun _ => ?_
    · rw [hlist]
      exact List.append_ne_nil_of_right_ne_nil _ (List.cons_ne_nil _ _)
    · rw [hlist, hp, List.length_append, List.length_singleton]
      show ((s.list.length + 1 : ℕ) : ℤ) + 0 ≤ _ + 1
      omega
  | signaled k item w hlist hsignal => exact h.signaled hp hpc hlist hsignal
  | removed item hlist hqueue =>
    have hinside : (s.pc p).queueHeld = true := by rw [hp]; rfl
    refine h.moved hpc (hkept hqueue rfl) (h.notMem (by rw [hp]; rfl))
      (h.stays hpc (by rw [hqueue]) (by rw [hp]; rfl)) (fun r hr => ?_) fun _ => ?_
    · -- no other worker is about to remove a node, since this one holds the lock
      rcases eq_or_ne r p with rfl | hne
      · rw [hpc, Function.update_self] at hr
        cases hr
      · rw [hpc, Function.update_of_ne hne] at hr
        exact absurd (h.holding.unique (by rw [hr]; rfl) hinside) hne
    · rw [hlist, hp, List.length_cons]
      show (t.list.length : ℤ) + 1 ≤ ((t.list.length + 1 : ℕ) : ℤ) + 0
      omega
  | unlocked _ _ hlist hheld hqueue hin hout hold hnew howed hfound =>
    refine h.moved hpc (hkept hqueue rfl) (h.notMem (by rw [hp, hold]))
      (h.leaves hpc hheld (by rw [hqueue]) hout)
      (found_of_list h hpc hlist fun he => absurd he hfound) fun _ => ?_
    rw [hlist, hp, howed, if_neg Bool.false_ne_true]
    split <;> omega
  | woken hlist hasleep hqueue =>
    exact h.woken hasleep (by rw [hpc, ← hp, Function.update_eq_self]) hlist hqueue

/-- In every run the nodes of the list are owed while somebody sleeps. -/
theorem wakeInv_reachable (hs : (pool κ φ α).Reachable s) : WakeInv s := by
  refine System.Reachable.invariant (S := pool κ φ α) (I := WakeInv) ?_ ?_ hs
  · rintro s rfl
    refine ⟨fun p => ?_, fun p hp => absurd hp (Finset.notMem_empty p), fun p hp => ?_, 0,
      Standing.none fun p => ?_, fun hsome => absurd hsome Finset.not_nonempty_empty⟩
    · cases p <;> exact ⟨nofun, nofun⟩
    · cases p <;> cases hp
    · cases p <;> exact nofun
  · rintro s ⟨p, a⟩ t - h hstep
    obtain ⟨q, hpc, hmove⟩ := (next_executed hstep).queueMoves
    exact h.step hpc hmove

end Steps

end SistemasOperativos.ThreadPool
