import SistemasOperativos.ThreadPoolExecution

/-!
# Tearing the thread pool down

Only the thread that sets the flag waits for the workers before it destroys the
queue and the lock. A thread that finds the flag set destroys them at once, and
a submitter that found the flag clear may still take the lock later. While
neither happens, the teardown is left to the thread that set the flag, and
nobody uses what it has destroyed.
-/

namespace SistemasOperativos.ThreadPool

open TransitionRuns ConditionMonitor

variable {κ φ α : Type*}

/-- About to execute `queue_destroy`, or `pthread_mutex_destroy` on `lock`. -/
def Pc.tearing : Pc φ α → Bool
  | .queueDestroying | .lockDestroying => true
  | _ => false

/-- Inside `tp_submit`, with the flag found clear by the first check. -/
def Pc.submitting : Pc φ α → Bool
  | .submitLocking _ _ _ | .submitChecking _ _ _ | .putting (.submit _) _ _
  | .submitUnlocking _ => true
  | _ => false

/-- The executions of `queue_destroy` by the thread that set the flag. -/
def Pc.queuesTorn : Pc φ α → ℕ
  | .queueDestroying => 0
  | q => if q.winning then 0 else 1

/-- Its executions of `pthread_mutex_destroy` on `lock`. -/
def Pc.locksTorn : Pc φ α → ℕ
  | .queueDestroying | .lockDestroying => 0
  | q => if q.winning then 0 else 1

/-- The next statement locks or unlocks `lock`. -/
def Pc.usesLock : Pc φ α → Bool
  | .submitLocking _ _ _ | .submitUnlocking _ | .destroyLocking | .destroyUnlocking => true
  | _ => false

/-- The next statement of a thread locks, unlocks, waits or signals on the queue. -/
def State.usesQueue (s : State κ φ α) (p : Thread κ) : Bool :=
  match s.pc p with
  | .putting _ _ .locking | .putting _ _ .signaling | .putting _ _ .unlocking
  | .getLocking | .getWaiting | .getUnlocking _ => true
  | .getChecking => s.list.isEmpty
  | _ => false

/-- What is due of the thread that set the flag, by where it stands. -/
def State.due (s : State κ φ α) (f : Pc φ α → ℕ) : ℕ :=
  match s.winner with
  | none => 0
  | some w => f (s.pc w)

/-- No thread finds the flag set in `tp_destroy`, and `lock` is destroyed when no
submitter that found the flag clear is left inside `tp_submit`. -/
def Undisturbed (s : State κ φ α) (l : Thread κ × Action κ φ α) : Prop :=
  (s.pc l.1 = .exchanging → s.destroying = 0) ∧
    (s.pc l.1 = .lockDestroying → ∀ r, (s.pc r).submitting = false)

variable [DecidableEq κ]

/-- What a step does to the teardown. Its thread goes from one place to another. -/
inductive TeardownMoves (s : State κ φ α) (p : Thread κ) (t : State κ φ α) :
    Pc φ α → Pc φ α → Prop
  /-- Nothing is destroyed, and only the joins lead to it. -/
  | away (q q' : Pc φ α) : t.queueDestroyed = s.queueDestroyed →
      t.lockDestroyed = s.lockDestroyed → t.winner = s.winner →
      q'.queuesTorn = q.queuesTorn → q'.locksTorn = q.locksTorn →
      (q'.tearing = true → q.winning = true) →
      (q'.submitting = true → q.submitting = true ∨ s.destroying = 0) →
      TeardownMoves s p t q q'
  | won : s.destroying = 0 → t.queueDestroyed = s.queueDestroyed →
      t.lockDestroyed = s.lockDestroyed → t.winner = some p →
      TeardownMoves s p t .exchanging .destroyLocking
  | lost : s.destroying ≠ 0 → t = s.goto p .queueDestroying →
      TeardownMoves s p t .exchanging .queueDestroying
  | queueDestroyed :
      t = { s with queueDestroyed := s.queueDestroyed + 1 }.goto p .lockDestroying →
      TeardownMoves s p t .queueDestroying .lockDestroying
  | lockDestroyed : t = { s with lockDestroyed := s.lockDestroyed + 1 }.goto p .idle →
      TeardownMoves s p t .lockDestroying .idle

/-- Every action is one of these steps of the teardown. -/
theorem Executed.teardownMoves {s t : State κ φ α} {p : Thread κ} {old : Pc φ α}
    (h : Executed s p old t) :
    ∃ q, t.pc = Function.update s.pc p q ∧ TeardownMoves s p t old q := by
  cases h with
  | refusedEarly k func arg hset =>
    cases k <;> exact ⟨_, rfl, .away _ _ rfl rfl rfl rfl rfl nofun nofun⟩
  | loaded k func arg hclear =>
    exact ⟨_, rfl, .away _ _ rfl rfl rfl rfl rfl nofun fun _ => .inr hclear⟩
  | submitLocked | accepted | refused =>
    exact ⟨_, rfl, .away _ _ rfl rfl rfl rfl rfl nofun fun _ => .inl rfl⟩
  | putLocked k item | signaled k item =>
    refine ⟨_, rfl, .away _ _ rfl rfl rfl ?_ ?_ nofun fun hq => .inl ?_⟩ <;> cases k <;>
      first | rfl | exact hq
  | inserted k item =>
    refine ⟨.putting k item .signaling, ?_, .away _ _ ?_ ?_ ?_ ?_ ?_ nofun fun hq => .inl ?_⟩ <;>
      cases item <;> cases k <;> first | rfl | exact hq
  | putUnlocked k item =>
    cases k with
    | submit k => exact ⟨_, rfl, .away _ _ rfl rfl rfl rfl rfl nofun fun _ => .inl rfl⟩
    | destroy i => exact ⟨_, rfl, .away _ _ rfl rfl rfl rfl rfl nofun nofun⟩
  | submitUnlocked k => cases k <;> exact ⟨_, rfl, .away _ _ rfl rfl rfl rfl rfl nofun nofun⟩
  | won hclear => exact ⟨_, rfl, .won hclear rfl rfl rfl⟩
  | lost hset => exact ⟨_, rfl, .lost hset rfl⟩
  | joined => exact ⟨_, rfl, .away _ _ rfl rfl rfl rfl rfl (fun _ => rfl) nofun⟩
  | queueDestroy => exact ⟨_, rfl, .queueDestroyed rfl⟩
  | lockDestroy => exact ⟨_, rfl, .lockDestroyed rfl⟩
  | removed item rest =>
    refine ⟨.getUnlocking item, ?_, .away _ _ ?_ ?_ ?_ rfl rfl nofun nofun⟩ <;> cases item <;> rfl
  | _ => exact ⟨_, rfl, .away _ _ rfl rfl rfl rfl rfl nofun nofun⟩

/-- In undisturbed runs only the thread that set the flag tears the pool down. -/
structure Torn (s : State κ φ α) : Prop where
  queues_eq : s.queueDestroyed = s.due Pc.queuesTorn
  locks_eq : s.lockDestroyed = s.due Pc.locksTorn
  tearing : ∀ p, (s.pc p).tearing = true → s.winner = some p
  /-- No submitter is left when the lock is destroyed. -/
  closed : 0 < s.lockDestroyed → ∀ p, (s.pc p).submitting = false

section Steps

variable {s t : State κ φ α} {p : Thread κ} {q : Pc φ α}

/-- What is due stays when the thread that moves owes no more than before. -/
theorem due_moved {f : Pc φ α → ℕ} (hpc : t.pc = Function.update s.pc p q)
    (hwinner : t.winner = s.winner) (hf : f q = f (s.pc p)) : t.due f = s.due f := by
  rw [State.due, State.due, hwinner]
  cases s.winner with
  | none => rfl
  | some w =>
    dsimp only
    rcases eq_or_ne w p with rfl | hne
    · rw [hpc, Function.update_self, hf]
    · rw [hpc, Function.update_of_ne hne]

omit [DecidableEq κ] in
/-- What is due of the thread that set the flag. -/
theorem due_winner {f : Pc φ α → ℕ} {w : Thread κ} (hw : s.winner = some w) :
    s.due f = f (s.pc w) := by
  rw [State.due, hw]

omit [DecidableEq κ] in
/-- Nothing is due while the flag is clear. -/
theorem due_clear {f : Pc φ α → ℕ} (hflag : Flag s) (hclear : s.destroying = 0) : s.due f = 0 := by
  rw [State.due, hflag.winner_none.mpr hclear]

/-- A thread moves without tearing the pool down. -/
theorem Torn.away (h : Torn s) (hflag : Flag s) (hpc : t.pc = Function.update s.pc p q)
    (hqueues : t.queueDestroyed = s.queueDestroyed) (hlocks : t.lockDestroyed = s.lockDestroyed)
    (hwinner : t.winner = s.winner) (hqueuesTorn : q.queuesTorn = (s.pc p).queuesTorn)
    (hlocksTorn : q.locksTorn = (s.pc p).locksTorn)
    (htearing : q.tearing = true → (s.pc p).winning = true)
    (hsubmitting : q.submitting = true → (s.pc p).submitting = true ∨ s.destroying = 0) :
    Torn t := by
  constructor
  · rw [hqueues, due_moved hpc hwinner hqueuesTorn, h.queues_eq]
  · rw [hlocks, due_moved hpc hwinner hlocksTorn, h.locks_eq]
  · intro r hr
    rw [hwinner]
    rw [hpc] at hr
    rcases eq_or_ne r p with rfl | hne
    · rw [Function.update_self] at hr
      exact hflag.winning r (htearing hr)
    · rw [Function.update_of_ne hne] at hr
      exact h.tearing r hr
  · intro hpos r
    rw [hlocks] at hpos
    rw [hpc]
    rcases eq_or_ne r p with rfl | hne
    · rw [Function.update_self]
      refine Bool.eq_false_iff.mpr fun hq => ?_
      rcases hsubmitting hq with hold | hclear
      · exact Bool.eq_false_iff.mp (h.closed hpos r) hold
      · rw [h.locks_eq, due_clear hflag hclear] at hpos
        exact absurd hpos (Nat.lt_irrefl 0)
    · rw [Function.update_of_ne hne]
      exact h.closed hpos r

/-- The first exchange starts the teardown. -/
theorem Torn.won (h : Torn s) (hflag : Flag s) (hclear : s.destroying = 0)
    (hpc : t.pc = Function.update s.pc p .destroyLocking)
    (hqueues : t.queueDestroyed = s.queueDestroyed) (hlocks : t.lockDestroyed = s.lockDestroyed)
    (hwinner : t.winner = some p) : Torn t := by
  have hself : t.pc p = .destroyLocking := by rw [hpc, Function.update_self]
  have hzero : t.lockDestroyed = 0 := by rw [hlocks, h.locks_eq, due_clear hflag hclear]
  constructor
  · rw [hqueues, h.queues_eq, due_clear hflag hclear, due_winner hwinner, hself]
    rfl
  · rw [hzero, due_winner hwinner, hself]
    rfl
  · intro r hr
    rcases eq_or_ne r p with rfl | hne
    · exact hwinner
    · -- nobody tears the pool down while the flag is clear
      rw [hpc, Function.update_of_ne hne] at hr
      have hset := h.tearing r hr
      rw [hflag.winner_none.mpr hclear] at hset
      cases hset
  · intro hpos
    rw [hzero] at hpos
    exact absurd hpos (Nat.lt_irrefl 0)

/-- The thread that set the flag goes on tearing the pool down. -/
theorem Torn.tear (h : Torn s) (hp : (s.pc p).tearing = true)
    (hpc : t.pc = Function.update s.pc p q) (hwinner : t.winner = s.winner)
    (hqueues : t.queueDestroyed = q.queuesTorn) (hlocks : t.lockDestroyed = q.locksTorn)
    (hclosed : 0 < t.lockDestroyed → ∀ r, (t.pc r).submitting = false) : Torn t := by
  have hself : t.pc p = q := by rw [hpc, Function.update_self]
  have hset : t.winner = some p := hwinner.trans (h.tearing p hp)
  constructor
  · rw [due_winner hset, hself, hqueues]
  · rw [due_winner hset, hself, hlocks]
  · intro r hr
    rcases eq_or_ne r p with rfl | hne
    · exact hset
    · rw [hpc, Function.update_of_ne hne] at hr
      rw [hwinner]
      exact h.tearing r hr
  · exact hclosed

omit [DecidableEq κ] in
/-- What is destroyed is what the thread that set the flag has destroyed. -/
theorem Torn.torn_eq (h : Torn s) (hp : (s.pc p).tearing = true) :
    s.queueDestroyed = (s.pc p).queuesTorn ∧ s.lockDestroyed = (s.pc p).locksTorn := by
  have hwinner := h.tearing p hp
  exact ⟨h.queues_eq.trans (due_winner hwinner), h.locks_eq.trans (due_winner hwinner)⟩

/-- The thread that set the flag destroys the queue. -/
theorem Torn.destroyQueue (h : Torn s) (hp : s.pc p = .queueDestroying) :
    Torn ({ s with queueDestroyed := s.queueDestroyed + 1 }.goto p .lockDestroying) := by
  have htearing : (s.pc p).tearing = true := by rw [hp]; rfl
  obtain ⟨hqueues, hlocks⟩ := h.torn_eq htearing
  rw [hp] at hqueues hlocks
  refine h.tear htearing rfl rfl (congrArg Nat.succ hqueues) hlocks fun hpos => ?_
  exact absurd hpos (by rw [show State.lockDestroyed _ = 0 from hlocks]; exact Nat.lt_irrefl 0)

/-- The thread that set the flag destroys the lock when no submitter is left. -/
theorem Torn.destroyLock (h : Torn s) (hp : s.pc p = .lockDestroying)
    (hnone : ∀ r, (s.pc r).submitting = false) :
    Torn ({ s with lockDestroyed := s.lockDestroyed + 1 }.goto p .idle) := by
  have htearing : (s.pc p).tearing = true := by rw [hp]; rfl
  obtain ⟨hqueues, hlocks⟩ := h.torn_eq htearing
  rw [hp] at hqueues hlocks
  refine h.tear htearing rfl rfl hqueues (congrArg Nat.succ hlocks) fun _ r => ?_
  show (Function.update s.pc p .idle r).submitting = false
  rcases eq_or_ne r p with rfl | hne
  · rw [Function.update_self]
    rfl
  · rw [Function.update_of_ne hne]
    exact hnone r

/-- Every undisturbed step leaves the teardown to the thread that set the flag. -/
theorem Torn.step (h : Torn s) (hflag : Flag s) {a : Action κ φ α} (hundisturbed : Undisturbed s (p, a))
    (hstep : s.next (p, a) = some t) : Torn t := by
  obtain ⟨q, hpc, hmove⟩ := (next_executed hstep).teardownMoves
  generalize hp : s.pc p = old at hmove
  cases hmove with
  | away _ _ hqueues hlocks hwinner hqueuesTorn hlocksTorn htearing hsubmitting =>
    subst hp
    exact h.away hflag hpc hqueues hlocks hwinner hqueuesTorn hlocksTorn htearing hsubmitting
  | won hclear hqueues hlocks hwinner => exact h.won hflag hclear hpc hqueues hlocks hwinner
  | lost hset _ => exact absurd (hundisturbed.1 hp) hset
  | queueDestroyed ht => exact ht ▸ h.destroyQueue hp
  | lockDestroyed ht => exact ht ▸ h.destroyLock hp (hundisturbed.2 hp)

/-- In every undisturbed run the teardown is left to the thread that set the flag. -/
theorem torn_reachable (hs : ((pool κ φ α).restrict Undisturbed).Reachable s) : Torn s := by
  refine System.Reachable.invariant (S := (pool κ φ α).restrict Undisturbed) (I := Torn) ?_ ?_ hs
  · rintro s rfl
    refine ⟨rfl, rfl, fun p hp => ?_, fun hpos => absurd hpos (Nat.lt_irrefl 0)⟩
    cases p <;> cases hp
  · rintro s ⟨p, a⟩ t hr h hstep
    exact h.step (inv_reachable hr.of_restrict).flag hstep.1 hstep.2

omit [DecidableEq κ] in
/-- The flag is set, and its thread is past the joins, when something was destroyed. -/
theorem Torn.past (h : Torn s) (hpos : 0 < s.queueDestroyed ∨ 0 < s.lockDestroyed) :
    ∃ w, s.winner = some w ∧ (s.pc w).winning = false := by
  cases hw : s.winner with
  | none =>
    have hqueues := h.queues_eq
    have hlocks := h.locks_eq
    rw [State.due, hw] at hqueues hlocks
    dsimp only at hqueues hlocks
    omega
  | some w =>
    refine ⟨w, rfl, Bool.eq_false_iff.mpr fun hwinning => ?_⟩
    have hqueues := h.queues_eq
    have hlocks := h.locks_eq
    rw [due_winner hw] at hqueues hlocks
    cases hpc : s.pc w with
    | putting k item stage =>
      rw [hpc] at hwinning hqueues hlocks
      cases k with
      | submit k => cases hwinning
      | destroy i =>
        change s.queueDestroyed = 0 at hqueues
        change s.lockDestroyed = 0 at hlocks
        omega
    | destroyLocking | filling | destroyUnlocking | joining =>
      rw [hpc] at hqueues hlocks
      change s.queueDestroyed = 0 at hqueues
      change s.lockDestroyed = 0 at hlocks
      omega
    | _ =>
      rw [hpc] at hwinning
      cases hwinning

omit [DecidableEq κ] in
/-- Nothing is destroyed twice. -/
theorem Torn.atMostOnce (h : Torn s) : s.queueDestroyed ≤ 1 ∧ s.lockDestroyed ≤ 1 := by
  have hqueuesTorn : ∀ q : Pc φ α, q.queuesTorn ≤ 1 := by
    intro q
    unfold Pc.queuesTorn
    split
    · exact Nat.zero_le 1
    · split <;> omega
  have hlocksTorn : ∀ q : Pc φ α, q.locksTorn ≤ 1 := by
    intro q
    unfold Pc.locksTorn
    split
    · exact Nat.zero_le 1
    · exact Nat.zero_le 1
    · split <;> omega
  rw [h.queues_eq, h.locks_eq, State.due, State.due]
  cases s.winner with
  | none => exact ⟨Nat.zero_le 1, Nat.zero_le 1⟩
  | some w => exact ⟨hqueuesTorn _, hlocksTorn _⟩

omit [DecidableEq κ] in
/-- Past the teardown everything has been destroyed. -/
theorem Torn.once (h : Torn s) {w : Thread κ} (hw : s.winner = some w)
    (hwinning : (s.pc w).winning = false) (htearing : (s.pc w).tearing = false) :
    s.queueDestroyed = 1 ∧ s.lockDestroyed = 1 := by
  rw [h.queues_eq, h.locks_eq, due_winner hw, due_winner hw]
  unfold Pc.queuesTorn Pc.locksTorn
  constructor
  · split
    next hpc =>
      rw [hpc] at htearing
      cases htearing
    next => rw [hwinning]; rfl
  · split
    next hpc =>
      rw [hpc] at htearing
      cases htearing
    next hpc =>
      rw [hpc] at htearing
      cases htearing
    next => rw [hwinning]; rfl

end Steps

section Soundness

variable {s t : State κ φ α} {p r w : Thread κ}

/-- Past the joins nobody puts a node. -/
theorem Inv.past_noPut (h : Inv s) (hw : s.winner = some w) (hpast : (s.pc w).winning = false)
    (k : PutCaller φ α) (item : Option (WorkItem φ α)) (stage : PutStage) :
    s.pc r ≠ .putting k item stage := by
  refine h.flag.noPut hw (nullsPut_of_not_winning hpast) (fun i x y he => ?_) k item stage
  rw [he] at hpast
  cases hpast

/-- Past the joins nobody uses the queue. -/
theorem Inv.queue_unused (h : Inv s) (hw : s.winner = some w)
    (hpast : (s.pc w).winning = false) (r : Thread κ) : s.usesQueue r = false := by
  have hrole := h.placed.role r
  have hfinished : ∀ j, s.pc (.worker j) = .finished := h.joined.done w hw hpast
  unfold State.usesQueue
  cases hpc : s.pc r with
  | putting k item stage => exact absurd hpc (h.past_noPut hw hpast k item stage)
  | getLocking | getChecking | getWaiting | getUnlocking =>
    rw [hpc] at hrole
    cases r with
    | worker j =>
      rw [hfinished j] at hpc
      cases hpc
    | client c => cases hrole
  | _ => rfl

omit [DecidableEq κ] in
/-- A thread that tears the pool down in an undisturbed run is past the joins. -/
theorem Torn.tearing_past (h : Torn s) (hp : (s.pc p).tearing = true) :
    ∃ w, s.winner = some w ∧ (s.pc w).winning = false := by
  refine ⟨p, h.tearing p hp, ?_⟩
  cases hpc : s.pc p with
  | queueDestroying | lockDestroying => rfl
  | _ =>
    rw [hpc] at hp
    cases hp

omit [DecidableEq κ] in
/-- In an undisturbed run nobody uses the lock once it is destroyed. -/
theorem Torn.lock_unused (h : Torn s) (hflag : Flag s) (hpos : 0 < s.lockDestroyed)
    (r : Thread κ) : (s.pc r).usesLock = false := by
  have hclosed := h.closed hpos r
  obtain ⟨w, hw, hpast⟩ := h.past (.inr hpos)
  cases hpc : s.pc r with
  | submitLocking | submitUnlocking =>
    rw [hpc] at hclosed
    cases hclosed
  | destroyLocking | destroyUnlocking =>
    have hset := hflag.winning r (by rw [hpc]; rfl)
    rw [hw] at hset
    rw [Option.some.inj hset, hpc] at hpast
    cases hpast
  | _ => rfl

end Soundness

end SistemasOperativos.ThreadPool
