import SistemasOperativos.ThreadPoolSteps

/-!
# The queue of the thread pool is closed by its first null

The pool's lock is held by one thread at a time. A null is put under that lock
after the flag is set, and an item is only put by a thread that saw the flag
clear under the same lock, so no item is put once a null was. The nulls are
put by the one thread that set the flag, in the loop that counts them.
-/

namespace SistemasOperativos.ThreadPool

open ConditionMonitor

variable {κ φ α : Type*}

/-- The item that a worker has taken and not called yet. -/
def Pc.hand : Pc φ α → Option (WorkItem φ α)
  | .getUnlocking item | .testing item => item
  | .calling x => some x
  | _ => none

/-- The item that a thread has created and not put yet. -/
def Pc.carried : Pc φ α → Option (WorkItem φ α)
  | .putting _ item .locking | .putting _ item .inserting => item
  | _ => none

/-- A worker that has taken a null. -/
def Pc.ended : Pc φ α → Bool
  | .getUnlocking none | .testing none | .finished => true
  | _ => false

/-- A statement of a worker's loop, or of an item that it executes. -/
def Pc.byWorker : Pc φ α → Bool
  | .loading (.item _) _ _ | .submitLocking (.item _) _ _ | .submitChecking (.item _) _ _
  | .putting (.submit (.item _)) _ _ | .submitUnlocking (.item _)
  | .getLocking | .getChecking | .getWaiting | .getRemoving | .getUnlocking _ | .testing _
  | .calling _ | .running _ | .finished => true
  | _ => false

/-- From the exchange that set the flag to the end of the joins. -/
def Pc.winning : Pc φ α → Bool
  | .destroyLocking | .filling _ | .putting (.destroy _) _ _ | .destroyUnlocking | .joining _ => true
  | _ => false

/-- The nulls that the thread that set the flag has put. -/
def Pc.nullsPut : Pc φ α → ℕ
  | .destroyLocking => 0
  | .filling i | .putting (.destroy i) _ .locking | .putting (.destroy i) _ .inserting => i
  | .putting (.destroy i) _ .signaling | .putting (.destroy i) _ .unlocking => i + 1
  | _ => nthreads

/-- Putting an item that `tp_submit` has accepted. -/
def Pc.submitPut : Pc φ α → Bool
  | .putting (.submit _) _ _ => true
  | _ => false

/-- The statements executed with the pool's lock held. -/
def Pc.lockHeld : Pc φ α → Bool
  | .submitChecking _ _ _ | .putting _ _ _ | .submitUnlocking _ | .filling _ | .destroyUnlocking => true
  | _ => false

/-- The indexes of the loops, and what is put in them. -/
def Pc.WellFormed : Pc φ α → Prop
  | .filling i | .joining i => i ≤ nthreads
  | .putting (.destroy i) item _ => i < nthreads ∧ item = none
  | .putting (.submit _) item _ => ∃ x, item = some x
  | _ => True

section Quiet

variable {s : State κ φ α} {q q' : Pc φ α}

/-- A thread that only moves keeps the item in its hand. -/
theorem Quiet.hand_eq (h : Quiet s q q') : q'.hand = q.hand := by
  cases h with
  | refusedEarly k _ _ _ => cases k <;> rfl
  | submitUnlocked k => cases k <;> rfl
  | putUnlocked k _ => cases k <;> rfl
  | _ => rfl

/-- A thread that only moves carries no other item. -/
theorem Quiet.carried_eq (h : Quiet s q q') : q'.carried = q.carried := by
  cases h with
  | refusedEarly k _ _ _ => cases k <;> rfl
  | submitUnlocked k => cases k <;> rfl
  | putUnlocked k _ => cases k <;> rfl
  | _ => rfl

/-- A worker that only moves has taken a null if it had. -/
theorem Quiet.ended_eq (h : Quiet s q q') : q'.ended = q.ended := by
  cases h with
  | refusedEarly k _ _ _ => cases k <;> rfl
  | submitUnlocked k => cases k <;> rfl
  | putUnlocked k _ => cases k <;> rfl
  | getUnlocked item => cases item <;> rfl
  | _ => rfl

/-- A worker stays in its loop. -/
theorem Quiet.byWorker_eq (h : Quiet s q q') : q'.byWorker = q.byWorker := by
  cases h with
  | refusedEarly k _ _ _ => cases k <;> rfl
  | loaded k => cases k <;> rfl
  | submitLocked k => cases k <;> rfl
  | refused k => cases k <;> rfl
  | submitUnlocked k => cases k <;> rfl
  | putLocked k => rcases k with (_ | _) | _ <;> rfl
  | putSignaled k => rcases k with (_ | _) | _ <;> rfl
  | putUnlocked k => rcases k with (_ | _) | _ <;> rfl
  | _ => rfl

/-- Only the exchange that sets the flag starts the destruction. -/
theorem Quiet.winning_of (h : Quiet s q q') (hq : q'.winning = true) : q.winning = true := by
  cases h with
  | still => exact hq
  | putLocked k => cases k <;> exact hq
  | putSignaled k => cases k <;> exact hq
  | putUnlocked k => cases k <;> first | rfl | cases hq
  | refusedEarly k => cases k <;> cases hq
  | submitUnlocked k => cases k <;> cases hq
  | destroyLocked | fill | filled | destroyUnlocked | join | joined => rfl
  | _ => cases hq

/-- A thread that only moves puts no null. -/
theorem Quiet.nullsPut_eq (h : Quiet s q q') (hq : q.WellFormed) : q'.nullsPut = q.nullsPut := by
  cases h with
  | refusedEarly k => cases k <;> rfl
  | submitUnlocked k => cases k <;> rfl
  | putLocked k => cases k <;> rfl
  | putSignaled k => cases k <;> rfl
  | putUnlocked k => cases k <;> rfl
  | filled i hi => exact Nat.le_antisymm (Nat.le_of_not_lt hi) hq
  | _ => rfl

/-- Only the second check of the flag lets a thread put an item. -/
theorem Quiet.submitPut_of (h : Quiet s q q') (hq : q'.submitPut = true) : q.submitPut = true := by
  cases h with
  | still => exact hq
  | putLocked k => cases k <;> exact hq
  | putSignaled k => cases k <;> exact hq
  | putUnlocked k => cases k <;> cases hq
  | refusedEarly k => cases k <;> cases hq
  | submitUnlocked k => cases k <;> cases hq
  | _ => cases hq

/-- The loops stay within their bounds. -/
theorem Quiet.wellFormed (h : Quiet s q q') (hq : q.WellFormed) : q'.WellFormed := by
  cases h with
  | still => exact hq
  | putLocked k => cases k <;> exact hq
  | putSignaled k => cases k <;> exact hq
  | putUnlocked k =>
    cases k with
    | submit k => exact trivial
    | destroy i => exact hq.1
  | refusedEarly k => cases k <;> exact trivial
  | submitUnlocked k => cases k <;> exact trivial
  | destroyLocked | destroyUnlocked => exact Nat.zero_le _
  | fill i hi => exact ⟨hi, rfl⟩
  | join i => exact i.isLt
  | _ => exact trivial

end Quiet

variable [DecidableEq κ]

/-- Runs on the pool's own threads. -/
def Thread.isWorker : Thread κ → Bool
  | .worker _ => true
  | .client _ => false

/-- Where each thread may stand. -/
structure Placed (s : State κ φ α) : Prop where
  /-- Workers, and only they, execute the workers' loop. -/
  role : ∀ p, (s.pc p).byWorker = p.isWorker
  wellFormed : ∀ p, (s.pc p).WellFormed

/-- A thread moves within its role. -/
theorem Placed.moved {s t : State κ φ α} {p : Thread κ} {q : Pc φ α} (h : Placed s)
    (hpc : t.pc = Function.update s.pc p q) (hrole : q.byWorker = (s.pc p).byWorker)
    (hq : q.WellFormed) : Placed t := by
  constructor
  · intro r
    rw [hpc]
    rcases eq_or_ne r p with rfl | hr
    · rw [Function.update_self, hrole, h.role]
    · rw [Function.update_of_ne hr, h.role]
  · intro r
    rw [hpc]
    rcases eq_or_ne r p with rfl | hr
    · rw [Function.update_self]
      exact hq
    · rw [Function.update_of_ne hr]
      exact h.wellFormed r

/-- Every step keeps threads in their places. -/
theorem Placed.step {s t : State κ φ α} {p : Thread κ} (h : Placed s) (hmove : Moves s p t) :
    Placed t := by
  have hp := h.wellFormed p
  cases hmove with
  | quiet q _ _ _ _ hquiet => exact h.moved rfl hquiet.byWorker_eq (hquiet.wellFormed hp)
  | win _ hpc => exact h.moved rfl (by rw [hpc]; rfl) trivial
  | create k func arg _ hpc =>
    refine h.moved rfl ?_ ⟨_, rfl⟩
    rw [hpc]
    cases k <;> rfl
  | insert k item hpc =>
    rw [hpc] at hp
    refine h.moved (q := .putting k item .signaling) (by cases item <;> rfl) ?_ ?_
    · rw [hpc]
      rcases k with (_ | _) | _ <;> rfl
    · cases k <;> exact hp
  | remove item rest _ hpc =>
    exact h.moved (q := .getUnlocking item) (by cases item <;> rfl) (by rw [hpc]; rfl) trivial
  | call x hpc => exact h.moved rfl (by rw [hpc]; rfl) trivial

/-- The pool's lock is held by the thread inside. -/
def Locked (s : State κ φ α) : Prop := s.lock.HeldBy fun p => (s.pc p).lockHeld = true

/-- A thread moves without the pool's lock. -/
theorem Locked.moved {s t : State κ φ α} {p : Thread κ} {q : Pc φ α} (h : Locked s)
    (hpc : t.pc = Function.update s.pc p q) (hlock : t.lock = s.lock)
    (hq : q.lockHeld = (s.pc p).lockHeld) : Locked t :=
  Monitor.HeldBy.stays (I := fun q : Pc φ α => q.lockHeld = true) h (by rw [hlock]) hpc (by rw [hq])

/-- A thread takes the pool's lock and enters. -/
theorem Locked.enter {s t : State κ φ α} {p : Thread κ} {q : Pc φ α} (h : Locked s)
    (hpc : t.pc = Function.update s.pc p q) (hfree : s.lock.holder = none)
    (hlock : t.lock.holder = some p) (hq : q.lockHeld = true) : Locked t :=
  Monitor.HeldBy.moves_in (I := fun q : Pc φ α => q.lockHeld = true) h hfree hlock hpc hq

/-- A thread leaves and releases the pool's lock. -/
theorem Locked.leave {s t : State κ φ α} {p : Thread κ} {q : Pc φ α} (h : Locked s)
    (hpc : t.pc = Function.update s.pc p q) (hheld : s.lock.holder = some p)
    (hlock : t.lock.holder = none) (hq : q.lockHeld = false) : Locked t :=
  Monitor.HeldBy.moves_out (I := fun q : Pc φ α => q.lockHeld = true) h hheld hlock hpc
    (Bool.eq_false_iff.mp hq)

/-- Every action keeps the pool's lock with the thread inside. -/
theorem Locked.step {s t : State κ φ α} {p : Thread κ} (h : Locked s)
    (hstep : Executed s p (s.pc p) t) : Locked t := by
  generalize hp : s.pc p = old at hstep
  cases hstep with
  | submitLocked k func arg hfree => exact h.enter rfl hfree rfl rfl
  | destroyLocked hfree => exact h.enter rfl hfree rfl rfl
  | submitUnlocked k hheld => exact h.leave rfl hheld rfl (by cases k <;> rfl)
  | destroyUnlocked hheld => exact h.leave rfl hheld rfl rfl
  | refusedEarly k | putUnlocked k => exact h.moved rfl rfl (by rw [hp]; cases k <;> rfl)
  | woken => exact h.moved rfl rfl (by rw [hp])
  | inserted k item =>
    exact h.moved (q := .putting k item .signaling) (by cases item <;> rfl)
      (by cases item <;> rfl) (by rw [hp]; rfl)
  | removed item rest =>
    exact h.moved (q := .getUnlocking item) (by cases item <;> rfl) (by cases item <;> rfl)
      (by rw [hp]; rfl)
  | _ => exact h.moved rfl rfl (by rw [hp]; rfl)

/-- The nulls put so far, by where the thread that set the flag stands. -/
def State.nullsDue (s : State κ φ α) : ℕ :=
  match s.winner with
  | none => 0
  | some p => (s.pc p).nullsPut

/-- The flag and the thread that set it. -/
structure Flag (s : State κ φ α) : Prop where
  winner_none : s.winner = none ↔ s.destroying = 0
  /-- Only the thread that set the flag puts nulls and joins. -/
  winning : ∀ p, (s.pc p).winning = true → s.winner = some p
  nulls_eq : s.nulls = s.nullsDue
  /-- Once a null is put, no thread puts an item. -/
  closed : 0 < s.nulls → ∀ p, (s.pc p).submitPut = false

/-- A thread moves without the flag and the nulls. -/
theorem Flag.moved {s t : State κ φ α} {p : Thread κ} {q : Pc φ α} (h : Flag s)
    (hpc : t.pc = Function.update s.pc p q) (hwinner : t.winner = s.winner)
    (hdestroying : t.destroying = s.destroying) (hnulls : t.nulls = s.nulls)
    (hwinning : q.winning = true → (s.pc p).winning = true)
    (hput : q.nullsPut = (s.pc p).nullsPut)
    (hsubmit : q.submitPut = true → (s.pc p).submitPut = true) : Flag t := by
  constructor
  · rw [hwinner, hdestroying]
    exact h.winner_none
  · intro r hr
    rw [hwinner]
    rw [hpc] at hr
    rcases eq_or_ne r p with rfl | hne
    · rw [Function.update_self] at hr
      exact h.winning r (hwinning hr)
    · rw [Function.update_of_ne hne] at hr
      exact h.winning r hr
  · rw [hnulls, h.nulls_eq, State.nullsDue, State.nullsDue, hwinner]
    cases s.winner with
    | none => rfl
    | some r =>
      dsimp only
      rcases eq_or_ne r p with rfl | hne
      · rw [hpc, Function.update_self, hput]
      · rw [hpc, Function.update_of_ne hne]
  · intro hpos r
    rw [hnulls] at hpos
    rw [hpc]
    rcases eq_or_ne r p with rfl | hne
    · rw [Function.update_self]
      exact Bool.eq_false_iff.mpr fun hq => Bool.eq_false_iff.mp (h.closed hpos r) (hsubmit hq)
    · rw [Function.update_of_ne hne]
      exact h.closed hpos r

omit [DecidableEq κ] in
/-- While the flag is clear no null has been put. -/
theorem Flag.nulls_zero {s : State κ φ α} (h : Flag s) (hclear : s.destroying = 0) :
    s.nulls = 0 := by
  rw [h.nulls_eq, State.nullsDue, h.winner_none.mpr hclear]

/-- The exchange sets the flag once. -/
theorem Flag.win {s : State κ φ α} {p : Thread κ} (h : Flag s) (hclear : s.destroying = 0) :
    Flag ({ s with destroying := 1, winner := some p }.goto p .destroyLocking) := by
  have hzero := h.nulls_zero hclear
  constructor
  · exact ⟨fun he => (nomatch he), fun he => nomatch he⟩
  · intro r hr
    rcases eq_or_ne r p with rfl | hne
    · rfl
    · have hs : (s.pc r).winning = true := by
        rw [← hr]
        exact congrArg Pc.winning (Function.update_of_ne hne _ _).symm
      have hwinner := h.winning r hs
      rw [h.winner_none.mpr hclear] at hwinner
      cases hwinner
  · show s.nulls = (Function.update s.pc p .destroyLocking p).nullsPut
    rw [Function.update_self, hzero]
    rfl
  · intro hpos
    exact absurd hzero (Nat.pos_iff_ne_zero.mp hpos)

/-- A null is put under the pool's lock, so no thread is putting an item. -/
theorem Flag.insertNull {s : State κ φ α} {p : Thread κ} {i : ℕ} (h : Flag s) (hlocked : Locked s)
    (hpc : s.pc p = .putting (.destroy i) none .inserting) :
    Flag ((s.insert none).goto p (.putting (.destroy i) none .signaling)) := by
  have hwinner : s.winner = some p := h.winning p (by rw [hpc]; rfl)
  have hself : ((s.insert none).goto p (.putting (.destroy i) none .signaling)).pc p =
      .putting (.destroy i) none .signaling := Function.update_self _ _ _
  have hother : ∀ r, r ≠ p → ((s.insert none).goto p
      (.putting (.destroy i) none .signaling)).pc r = s.pc r :=
    fun r hne => Function.update_of_ne hne _ _
  constructor
  · exact h.winner_none
  · intro r hr
    rcases eq_or_ne r p with rfl | hne
    · exact hwinner
    · rw [hother r hne] at hr
      exact h.winning r hr
  · have hdue := h.nulls_eq
    rw [State.nullsDue, hwinner] at hdue
    dsimp only at hdue
    rw [hpc] at hdue
    have hnew : ((s.insert none).goto p (.putting (.destroy i) none .signaling)).winner = some p :=
      hwinner
    rw [State.nullsDue, hnew]
    dsimp only
    rw [hself]
    show s.nulls + 1 = i + 1
    rw [hdue]
    rfl
  · intro _ r
    rcases eq_or_ne r p with rfl | hne
    · rw [hself]
      rfl
    · rw [hother r hne]
      refine Bool.eq_false_iff.mpr fun hr => ?_
      have hheld : (s.pc r).lockHeld = true := by
        cases hq : s.pc r with
        | putting k item stage => rfl
        | _ =>
          rw [hq] at hr
          cases hr
      exact hne (hlocked.unique hheld (by rw [hpc]; rfl))

/-- Every step keeps the flag. -/
theorem Flag.step {s t : State κ φ α} {p : Thread κ} (h : Flag s) (hplaced : Placed s)
    (hlocked : Locked s) (hmove : Moves s p t) : Flag t := by
  have hp := hplaced.wellFormed p
  cases hmove with
  | quiet q _ _ _ _ hquiet =>
    exact h.moved rfl rfl rfl rfl hquiet.winning_of (hquiet.nullsPut_eq hp) hquiet.submitPut_of
  | win hclear hpc => exact h.win hclear
  | create k func arg hclear hpc =>
    have hzero := h.nulls_zero hclear
    have hnone := h.winner_none.mpr hclear
    constructor
    · exact h.winner_none
    · intro r hr
      rcases eq_or_ne r p with rfl | hne
      · have hfalse : (Function.update s.pc r (.putting (.submit k) (some ⟨s.created, func, arg⟩)
            .locking) r).winning = false := by rw [Function.update_self]; rfl
        exact absurd hr (Bool.eq_false_iff.mp hfalse)
      · refine h.winning r ?_
        rw [← hr]
        exact congrArg Pc.winning (Function.update_of_ne hne _ _).symm
    · show s.nulls = State.nullsDue _
      rw [State.nullsDue, hzero]
      show 0 = match s.winner with | none => 0 | some r => _
      rw [hnone]
    · intro hpos
      exact absurd hzero (Nat.pos_iff_ne_zero.mp hpos)
  | insert k item hpc =>
    rw [hpc] at hp
    cases k with
    | submit k =>
      obtain ⟨x, rfl⟩ := hp
      exact h.moved (q := .putting (.submit k) (some x) .signaling) rfl rfl rfl rfl
        (fun hq => nomatch hq) (by rw [hpc]; rfl) fun _ => by rw [hpc]; rfl
    | destroy i =>
      obtain ⟨-, rfl⟩ := hp
      exact h.insertNull hlocked hpc
  | remove item rest _ hpc =>
    exact h.moved (q := .getUnlocking item) (by cases item <;> rfl) (by cases item <;> rfl)
      (by cases item <;> rfl) (by cases item <;> rfl) (fun hq => nomatch hq) (by rw [hpc]; rfl)
      fun hq => nomatch hq
  | call x hpc =>
    exact h.moved rfl rfl rfl rfl (fun hq => nomatch hq) (by rw [hpc]; rfl) fun hq => nomatch hq

omit [DecidableEq κ] in
/-- Once all nulls are put, nobody puts a node. -/
theorem Flag.noPut {s : State κ φ α} (h : Flag s) {w r : Thread κ} (hw : s.winner = some w)
    (hput : (s.pc w).nullsPut = nthreads)
    (hdone : ∀ i item stage, s.pc w ≠ .putting (.destroy i) item stage)
    (k : PutCaller φ α) (item : Option (WorkItem φ α)) (stage : PutStage) :
    s.pc r ≠ .putting k item stage := by
  intro hr
  cases k with
  | submit k =>
    have hnulls : s.nulls = nthreads := by
      rw [h.nulls_eq, State.nullsDue, hw]
      exact hput
    have hclosed := h.closed (by rw [hnulls]; decide) r
    rw [hr] at hclosed
    cases hclosed
  | destroy i =>
    have hset := h.winning r (by rw [hr]; rfl)
    rw [hw] at hset
    exact hdone i item stage (Option.some.inj hset ▸ hr)

end SistemasOperativos.ThreadPool
