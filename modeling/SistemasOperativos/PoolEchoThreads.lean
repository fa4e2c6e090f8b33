import SistemasOperativos.PoolEcho
import SistemasOperativos.ThreadPoolExecution

/-!
# What the pool does with descriptors

The main thread brings each descriptor to the queue, and a worker takes it from
there. No other step of the pool moves one. The main thread is in `tp_submit` or
in `tp_destroy` exactly when it has called them, and sets the flag before it
closes the listening socket.
-/

namespace SistemasOperativos.PoolEcho

open ThreadPool (Thread Action Pc nthreads WorkItem Moves Quiet)

/-- The descriptor that a thread has in a variable of the pool's functions. -/
def holding : Pc Unit ℕ → Option ℕ
  | .loading _ _ cfd | .submitLocking _ _ cfd | .submitChecking _ _ cfd => some cfd
  | .putting _ (some x) .locking | .putting _ (some x) .inserting => some x.arg
  | .getUnlocking (some x) | .testing (some x) | .calling x => some x.arg
  | _ => none

/-- Where the main thread is in the pool, by where it stands. -/
def MainAt : MainPc → Pc Unit ℕ → Prop
  | .submitting, .loading .client _ _ | .submitting, .submitLocking .client _ _
  | .submitting, .submitChecking .client _ _ | .submitting, .putting (.submit .client) _ _
  | .submitting, .submitUnlocking .client => True
  | .destroying, .exchanging | .destroying, .destroyLocking | .destroying, .filling _
  | .destroying, .putting (.destroy _) none _ | .destroying, .destroyUnlocking
  | .destroying, .joining _ | .destroying, .queueDestroying | .destroying, .lockDestroying => True
  | .accepting, .idle | .leaving, .idle | .closing, .idle | .done, .idle => True
  | _, _ => False

/-- The loop of a worker. No connection submits another one. -/
def Working : Pc Unit ℕ → Prop
  | .getLocking | .getChecking | .getWaiting | .getRemoving | .getUnlocking _ | .testing _
  | .calling _ | .running _ | .finished => True
  | _ => False

/-- The descriptors in the queue, oldest first. -/
def queued (s : Pool) : List ℕ := s.list.filterMap (Option.map WorkItem.arg)

section Pool

variable {s t : Pool}

theorem queued_insert_some (s : Pool) (x : WorkItem Unit ℕ) :
    queued (s.insert (some x)) = queued s ++ [x.arg] := by
  simp [queued, ThreadPool.State.insert]

theorem queued_insert_none (s : Pool) : queued (s.insert none) = queued s := by
  simp [queued, ThreadPool.State.insert]

/-- A step moves only its thread. -/
theorem moves_pc {p : Thread Unit} (hmove : Moves s p t) : ∀ r, r ≠ p → t.pc r = s.pc r := by
  obtain ⟨q, hpc⟩ := hmove.pc_eq
  intro r hr
  rw [hpc, Function.update_of_ne hr]

/-- A descriptor that a thread has in a variable of the pool stays there while it only
moves, unless its submission is refused or its item returns. -/
theorem quiet_holding {q q' : Pc Unit ℕ} (h : Quiet s q q') (hclear : s.destroying = 0 ∨
    ∀ k func cfd, q ≠ .loading k func cfd ∧ q ≠ .submitChecking k func cfd)
    (hidle : q ≠ .idle) (hrunning : ∀ x, q ≠ .running x) : holding q' = holding q := by
  cases h with
  | submitCall => exact absurd rfl hidle
  | submitInside x => exact absurd rfl (hrunning x)
  | refusedEarly k func cfd hset =>
    cases hclear with
    | inl hclear => exact absurd hclear hset
    | inr hnot => exact absurd rfl (hnot k func cfd).1
  | refused k func cfd hset =>
    cases hclear with
    | inl hclear => exact absurd hclear hset
    | inr hnot => exact absurd rfl (hnot k func cfd).2
  | putLocked k item => cases item <;> rfl
  | putSignaled k item => cases item <;> rfl
  | putUnlocked k item => cases k <;> cases item <;> rfl
  | submitUnlocked k => cases k <;> rfl
  | getUnlocked item => cases item <;> rfl
  | _ => rfl

theorem back_of_ne {main : MainPc} {q : Pc Unit ℕ} (hidle : q ≠ .idle) : main.back q = main := by
  cases q with
  | idle => exact absurd rfl hidle
  | _ => rfl

/-- The main thread stays in its call of the pool or comes back from it. -/
theorem quiet_main {main : MainPc} {q q' : Pc Unit ℕ} (h : Quiet s q q') (hat : MainAt main q)
    (hidle : q ≠ .idle) : MainAt (main.back q') q' := by
  cases main with
  | accepting | leaving | closing | done =>
    cases q with
    | idle => exact absurd rfl hidle
    | _ => exact hat.elim
  | submitting =>
    cases h with
    | still => rwa [back_of_ne hidle]
    | refusedEarly k | loaded k | submitLocked k | refused k | submitUnlocked k =>
      cases k with
      | client => trivial
      | item => exact hat.elim
    | putLocked k item | putSignaled k item | putUnlocked k item =>
      cases k with
      | submit k =>
        cases k with
        | client => trivial
        | item => exact hat.elim
      | destroy => exact hat.elim
    | _ => exact hat.elim
  | destroying =>
    cases h with
    | still => rwa [back_of_ne hidle]
    | putLocked k item | putSignaled k item | putUnlocked k item =>
      cases k with
      | submit => exact hat.elim
      | destroy =>
        cases item with
        | none => trivial
        | some => exact hat.elim
    | lost | destroyLocked | fill | filled | destroyUnlocked | join | joined | queueDestroy
    | lockDestroy => trivial
    | _ => exact hat.elim

/-- A worker that only moves stays in its loop, and calls no item. -/
theorem quiet_working {q q' : Pc Unit ℕ} (h : Quiet s q q') (hat : Working q)
    (hrunning : ∀ x, q ≠ .running x) : Working q' ∧ ∀ x, q' ≠ .running x := by
  cases h with
  | still => exact ⟨hat, hrunning⟩
  | submitInside x | returned x => exact absurd rfl (hrunning x)
  | getLocked | getEmpty | getFound | getRelocked | getUnlocked | stop | take =>
    exact ⟨trivial, fun x hx => by cases hx⟩
  | _ => exact hat.elim

/-- The stage of a put does not matter. -/
theorem mainAt_putting {main : MainPc} {k : ThreadPool.PutCaller Unit ℕ}
    {item : Option (WorkItem Unit ℕ)} {stage : ThreadPool.PutStage}
    (h : MainAt main (.putting k item stage)) (stage' : ThreadPool.PutStage) :
    MainAt (main.back (.putting k item stage')) (.putting k item stage') := by
  cases main with
  | submitting =>
    cases k with
    | submit k =>
      cases k with
      | client => trivial
      | item => exact h.elim
    | destroy => exact h.elim
  | destroying =>
    cases k with
    | submit => exact h.elim
    | destroy =>
      cases item with
      | none => trivial
      | some => exact h.elim
  | _ => exact h.elim

theorem goto_pc (s : Pool) (p : Thread Unit) (q : Pc Unit ℕ) : (s.goto p q).pc p = q := by
  simp [ThreadPool.State.goto]

/-- What a step of the main thread inside the pool does with descriptors: nothing, or
it puts the one that it holds into the queue. -/
theorem main_moves {main : MainPc} (hmove : Moves s mainThread t)
    (hat : MainAt main (s.pc mainThread)) (hidle : s.pc mainThread ≠ .idle)
    (hclear : main = .submitting → s.destroying = 0) :
    MainAt (main.back (t.pc mainThread)) (t.pc mainThread) ∧
    ((queued t = queued s ∧ holding (t.pc mainThread) = holding (s.pc mainThread)) ∨
      ∃ cfd, queued t = queued s ++ [cfd] ∧ holding (s.pc mainThread) = some cfd ∧
        holding (t.pc mainThread) = none) := by
  cases hmove with
  | quiet q' _ _ _ _ hquiet =>
    rw [goto_pc]
    refine ⟨quiet_main hquiet hat hidle, .inl ⟨rfl, quiet_holding hquiet ?_ hidle fun x hx => ?_⟩⟩
    · by_cases hmain : main = .submitting
      · exact .inl (hclear hmain)
      · refine .inr fun k func cfd => ⟨fun hq => ?_, fun hq => ?_⟩ <;> rw [hq] at hat <;>
          cases main <;> first | exact hmain rfl | exact hat.elim
    · rw [hx] at hat
      cases main <;> exact hat.elim
  | win _ hstand =>
    rw [goto_pc, hstand]
    rw [hstand] at hat
    cases main with
    | destroying => exact ⟨trivial, .inl ⟨rfl, rfl⟩⟩
    | _ => exact hat.elim
  | create k func cfd _ hstand =>
    rw [goto_pc, hstand]
    rw [hstand] at hat
    cases main with
    | submitting =>
      cases k with
      | client => exact ⟨trivial, .inl ⟨rfl, rfl⟩⟩
      | item => exact hat.elim
    | _ => exact hat.elim
  | insert k item hstand =>
    rw [goto_pc, hstand]
    rw [hstand] at hat
    refine ⟨mainAt_putting hat .signaling, ?_⟩
    cases item with
    | some x => exact .inr ⟨x.arg, queued_insert_some s x, rfl, rfl⟩
    | none => exact .inl ⟨queued_insert_none s, rfl⟩
  | remove item rest _ hstand | call x hstand =>
    rw [hstand] at hat
    cases main <;> exact hat.elim

/-- What a step of a worker inside the pool does with descriptors: nothing, or it takes
the oldest one out of the queue. -/
theorem worker_moves {i : Fin nthreads} (hmove : Moves s (.worker i) t)
    (hat : Working (s.pc (.worker i))) (hrunning : ∀ x, s.pc (.worker i) ≠ .running x) :
    Working (t.pc (.worker i)) ∧
    ((queued t = queued s ∧ holding (t.pc (.worker i)) = holding (s.pc (.worker i)) ∧
        ∀ x, t.pc (.worker i) ≠ .running x) ∨
      (queued t = queued s ∧
        ∃ x, s.pc (.worker i) = .calling x ∧ t.pc (.worker i) = .running x) ∨
      ∃ cfd, queued s = cfd :: queued t ∧ holding (s.pc (.worker i)) = none ∧
        holding (t.pc (.worker i)) = some cfd ∧ ∀ x, t.pc (.worker i) ≠ .running x) := by
  cases hmove with
  | quiet q' _ _ _ _ hquiet =>
    rw [goto_pc]
    have hidle : s.pc (.worker i) ≠ .idle := fun hq => by rw [hq] at hat; exact hat
    have hno : ∀ k func cfd, s.pc (.worker i) ≠ .loading k func cfd ∧
        s.pc (.worker i) ≠ .submitChecking k func cfd := by
      intro k func cfd
      constructor <;> intro hq <;> rw [hq] at hat <;> exact hat
    obtain ⟨hworking, hstill⟩ := quiet_working hquiet hat hrunning
    exact ⟨hworking, .inl ⟨rfl, quiet_holding hquiet (.inr hno) hidle hrunning, hstill⟩⟩
  | win _ hstand | create k func cfd _ hstand | insert k item hstand =>
    rw [hstand] at hat
    exact hat.elim
  | remove item rest hlist hstand =>
    rw [goto_pc, hstand]
    cases item with
    | none =>
      refine ⟨trivial, .inl ⟨?_, rfl, fun x hx => by cases hx⟩⟩
      simp [queued, ThreadPool.State.remove, ThreadPool.State.goto, hlist]
    | some x =>
      refine ⟨trivial, .inr (.inr ⟨x.arg, ?_, rfl, rfl, fun y hy => by cases hy⟩)⟩
      simp [queued, ThreadPool.State.remove, ThreadPool.State.goto, hlist]
  | call x hstand =>
    rw [goto_pc]
    exact ⟨trivial, .inr (.inl ⟨rfl, x, hstand, rfl⟩)⟩

/-- The main thread has set the flag of the pool. -/
def past : MainPc → Pc Unit ℕ → Bool
  | .destroying, .exchanging => false
  | .destroying, _ | .closing, _ | .done, _ => true
  | _, _ => false

/-- Who has set the flag. -/
def Won (s : Pool) (main : MainPc) : Prop :=
  s.winner = if past main (s.pc mainThread) then some mainThread else none

/-- Only the exchange changes whether the main thread has set the flag. -/
theorem quiet_past {main : MainPc} {q q' : Pc Unit ℕ} (h : Quiet s q q') (hat : MainAt main q)
    (hidle : q ≠ .idle) (hclear : past main q = false → s.destroying = 0) :
    past (main.back q') q' = past main q := by
  cases main with
  | accepting | leaving | closing | done =>
    cases q with
    | idle => exact absurd rfl hidle
    | _ => exact hat.elim
  | submitting => cases q' <;> rfl
  | destroying =>
    cases h with
    | still => rw [back_of_ne hidle]
    | lost hset => exact absurd (hclear rfl) hset
    | putLocked k item | putSignaled k item | putUnlocked k item =>
      cases k with
      | submit => exact hat.elim
      | destroy => rfl
    | destroyLocked | fill | filled | destroyUnlocked | join | joined | queueDestroy
    | lockDestroy => rfl
    | _ => exact hat.elim

/-- The main thread is the one that sets the flag. -/
theorem main_won {main : MainPc} (hmove : Moves s mainThread t)
    (hat : MainAt main (s.pc mainThread)) (hidle : s.pc mainThread ≠ .idle)
    (hflag : s.winner = none ↔ s.destroying = 0) (hwon : Won s main) :
    Won t (main.back (t.pc mainThread)) := by
  unfold Won at hwon ⊢
  cases hmove with
  | quiet q' _ _ _ _ hquiet =>
    have hclear : past main (s.pc mainThread) = false → s.destroying = 0 := by
      intro hpast
      rw [hpast] at hwon
      exact hflag.mp hwon
    rw [goto_pc, quiet_past hquiet hat hidle hclear]
    exact hwon
  | win _ hstand =>
    rw [goto_pc]
    rw [hstand] at hat
    cases main with
    | destroying => rfl
    | _ => exact hat.elim
  | create k func cfd _ hstand =>
    rw [goto_pc]
    rw [hstand] at hat hwon
    cases main with
    | submitting => exact hwon
    | _ => exact hat.elim
  | insert k item hstand =>
    rw [goto_pc]
    rw [hstand] at hat hwon
    have hwinner : ((s.insert item).goto mainThread (.putting k item .signaling)).winner =
        s.winner := by cases item <;> rfl
    rw [hwinner, hwon]
    cases main with
    | submitting | destroying => rfl
    | _ => exact hat.elim
  | remove item rest _ hstand | call x hstand =>
    rw [hstand] at hat
    cases main <;> exact hat.elim

/-- A worker never sets the flag. -/
theorem worker_won {main : MainPc} {i : Fin nthreads} (hmove : Moves s (.worker i) t)
    (hat : Working (s.pc (.worker i))) (hwon : Won s main) : Won t main := by
  have hpc := moves_pc hmove mainThread nofun
  unfold Won at hwon ⊢
  rw [hpc, ← hwon]
  cases hmove with
  | quiet | call => rfl
  | remove item => cases item <;> rfl
  | win _ hstand | create k func cfd _ hstand | insert k item hstand =>
    rw [hstand] at hat
    exact hat.elim

/-- The thread is not called from outside. -/
def Inside : Action Unit Unit ℕ → Prop
  | .run | .signal _ | .wake => True
  | _ => False

/-- A thread outside the pool does nothing in it. -/
theorem idle_next {p : Thread Unit} {a : Action Unit Unit ℕ} (ha : Inside a)
    (hnext : s.next (p, a) = some t) : s.pc p ≠ .idle := by
  intro hp
  cases a with
  | run => simp [ThreadPool.State.next, ThreadPool.State.run, hp] at hnext
  | signal => simp [ThreadPool.State.next, hp] at hnext
  | wake => simp [ThreadPool.State.next, hp] at hnext
  | submit | destroy => exact ha.elim

/-- A worker comes back from its item, and does nothing else from there. -/
theorem running_next {p : Thread Unit} {x : WorkItem Unit ℕ} {a : Action Unit Unit ℕ}
    (ha : Inside a) (hp : s.pc p = .running x) (hnext : s.next (p, a) = some t) :
    a = .run ∧ t = s.goto p .getLocking := by
  cases a with
  | run =>
    simp only [ThreadPool.State.next, ThreadPool.State.run, hp, Option.some.injEq] at hnext
    exact ⟨rfl, hnext.symm⟩
  | signal => simp [ThreadPool.State.next, hp] at hnext
  | wake => simp [ThreadPool.State.next, hp] at hnext
  | submit | destroy => exact ha.elim

end Pool

end SistemasOperativos.PoolEcho
