import SistemasOperativos.ThreadPoolTeardown

/-!
# A pool that its own work items may destroy

A work item may call `tp_destroy` as well. Its worker then sets the flag, joins
the other workers and finds that it cannot join itself: `pthread_join` fails at
once, nobody looks at its result, and the item returns to the loop of a worker
whose queue is destroyed. Sound teardowns are those in which no thread finds the
flag set in `tp_destroy`, no submitter is left when the lock is destroyed, and
no work item destroys the pool.
-/

namespace SistemasOperativos.ThreadPool

open TransitionRuns

/-- A pool whose work items may call `tp_destroy`. -/
structure NestedState (κ φ α : Type*) extends State κ φ α where
  /-- The work item from inside which a thread has called `tp_destroy`. -/
  inside : Thread κ → Option (WorkItem φ α)

variable {κ φ α : Type*}

/-- The thread is `pool->threads[i]`. -/
def Thread.isNumber (i : ℕ) : Thread κ → Bool
  | .worker j => j.val == i
  | .client _ => false

/-- Inside `tp_submit` or `tp_destroy`. -/
def Pc.inCall : Pc φ α → Bool
  | .loading _ _ _ | .submitLocking _ _ _ | .submitChecking _ _ _ | .putting _ _ _
  | .submitUnlocking _ | .exchanging | .destroyLocking | .filling _ | .destroyUnlocking
  | .joining _ | .queueDestroying | .lockDestroying => true
  | _ => false

/-- Inside `tp_destroy`, with `queue_destroy` still to be executed. -/
def Pc.owing : Pc φ α → Bool
  | .exchanging | .destroyLocking | .filling _ | .putting (.destroy _) _ _ | .destroyUnlocking
  | .joining _ | .queueDestroying => true
  | _ => false

/-- A step of a pool that is torn down once, and only when nobody uses it. -/
structure Sound (x : Transition (NestedState κ φ α) (Thread κ × Action κ φ α)) : Prop where
  /-- `queue_destroy` and `pthread_mutex_destroy` are not executed twice. -/
  atMostOnce : x.target.queueDestroyed ≤ 1 ∧ x.target.lockDestroyed ≤ 1
  /-- They have been executed when the thread that set the flag is past them. -/
  once : ∀ w, x.target.winner = some w → (x.target.pc w).winning = false →
    (x.target.pc w).tearing = false →
      x.target.queueDestroyed = 1 ∧ x.target.lockDestroyed = 1
  /-- They are executed behind the joins, when all workers have finished. -/
  joined : (x.source.pc x.label.1).tearing = true →
    (∃ w, x.source.winner = some w ∧ (x.source.pc w).winning = false) ∧
      ∀ j, x.source.pc (.worker j) = .finished
  /-- What has been destroyed is not used. -/
  unused : (0 < x.source.queueDestroyed → x.source.usesQueue x.label.1 = false) ∧
    (0 < x.source.lockDestroyed → (x.source.pc x.label.1).usesLock = false)

/-- A step before which the teardown is left to one thread that is no worker. -/
structure Orderly (s : NestedState κ φ α) (l : Thread κ × Action κ φ α) : Prop where
  /-- No thread finds the flag set in `tp_destroy`. -/
  first : s.pc l.1 = .exchanging → s.destroying = 0
  /-- No submitter that found the flag clear is left when `lock` is destroyed. -/
  last : s.pc l.1 = .lockDestroying → ∀ r, (s.pc r).submitting = false
  /-- No work item calls `tp_destroy`. -/
  outside : l.2 = .destroy → ∀ x, s.pc l.1 ≠ .running x

/-- All calls of `tp_submit` and `tp_destroy` have returned. -/
def NestedState.Returned (s : NestedState κ φ α) : Prop := ∀ p, (s.pc p).inCall = false

variable [DecidableEq κ]

/-- An action that the pool takes as if no item could destroy it. -/
def NestedState.plainly (s : NestedState κ φ α) (l : Thread κ × Action κ φ α) :
    Option (NestedState κ φ α) :=
  (s.toState.next l).map fun t => { s with toState := t }

/-- One action of a thread. -/
def NestedState.next (s : NestedState κ φ α) (l : Thread κ × Action κ φ α) :
    Option (NestedState κ φ α) :=
  match l.2, s.pc l.1 with
  | .destroy, .running x =>
    some { toState := s.goto l.1 .exchanging, inside := Function.update s.inside l.1 (some x) }
  | .run, .joining i =>
    -- `pthread_join` of the caller itself fails at once, and its result is ignored
    if l.1.isNumber i then some { s with toState := s.goto l.1 (.joining (i + 1)) } else s.plainly l
  | .run, .lockDestroying =>
    match s.inside l.1 with
    | some x =>
      some {
        toState := { s.toState with lockDestroyed := s.lockDestroyed + 1 }.goto l.1 (.running x)
        inside := Function.update s.inside l.1 none }
    | none => s.plainly l
  | _, _ => s.plainly l

/-- The pool after `tp_init`. -/
def nestedInitial : NestedState κ φ α where
  toState := initial
  inside := fun _ => none

/-- All runs of a pool, with any number of calls of `tp_submit` and `tp_destroy` by the
threads that use it and by the work items. -/
def nestedPool (κ φ α : Type*) [DecidableEq κ] :
    System (NestedState κ φ α) (Thread κ × Action κ φ α) :=
  ofNext (fun s => s = nestedInitial) NestedState.next

section Steps

variable {s t : NestedState κ φ α} {p : Thread κ} {a : Action κ φ α}

/-- The actions of a thread. All but three are those of the pool alone. -/
inductive Acts (s : NestedState κ φ α) (p : Thread κ) :
    Action κ φ α → NestedState κ φ α → Prop
  | plain (a : Action κ φ α) (t : State κ φ α) : s.toState.next (p, a) = some t →
      Acts s p a { s with toState := t }
  | destroyInside (x : WorkItem φ α) : s.pc p = .running x →
      Acts s p .destroy
        { toState := s.goto p .exchanging, inside := Function.update s.inside p (some x) }
  | joinItself (i : ℕ) : s.pc p = .joining i → p.isNumber i = true →
      Acts s p .run { s with toState := s.goto p (.joining (i + 1)) }
  | returnInside (x : WorkItem φ α) : s.pc p = .lockDestroying → s.inside p = some x →
      Acts s p .run {
        toState := { s.toState with lockDestroyed := s.lockDestroyed + 1 }.goto p (.running x)
        inside := Function.update s.inside p none }

/-- Every action is one of these. -/
theorem next_acts (h : s.next (p, a) = some t) : Acts s p a t := by
  have hplain : s.plainly (p, a) = some t → Acts s p a t := by
    intro hmap
    obtain ⟨u, hu, rfl⟩ := Option.map_eq_some_iff.mp hmap
    exact .plain a u hu
  unfold NestedState.next at h
  dsimp only at h
  split at h
  next x hpc =>
    cases h
    exact .destroyInside x hpc
  next i hpc =>
    split at h
    next hself =>
      cases h
      exact .joinItself i hpc hself
    next => exact hplain h
  next hpc =>
    split at h
    next x hinside =>
      cases h
      exact .returnInside x hpc hinside
    next => exact hplain h
  next => exact hplain h

/-- What a step does to the calls that are still to use the lock or to destroy the queue. -/
structure Leaves (s t : State κ φ α) (p : Thread κ) (q : Pc φ α) : Prop where
  pc_eq : t.pc = Function.update s.pc p q
  locks_le : s.lockDestroyed ≤ t.lockDestroyed
  /-- A submitter leaves through the lock. -/
  submitting : (s.pc p).submitting = true → q.submitting = true ∨ (s.pc p).usesLock = true
  /-- A destroyer leaves through `queue_destroy`. -/
  owing : ((s.pc p).owing = true → q.owing = true) ∧ s.queueDestroyed ≤ t.queueDestroyed ∨
    s.pc p = .queueDestroying ∧ s.queueDestroyed + 1 ≤ t.queueDestroyed

/-- Every action of the pool alone is of this kind. -/
theorem Executed.leaves {s t : State κ φ α} {p : Thread κ} (h : Executed s p (s.pc p) t) :
    ∃ q, Leaves s t p q := by
  generalize hold : s.pc p = old at h
  have keeps : ∀ q, t.pc = Function.update s.pc p q → s.lockDestroyed ≤ t.lockDestroyed →
      s.queueDestroyed ≤ t.queueDestroyed → (old.submitting = true → q.submitting = true) →
      (old.owing = true → q.owing = true) → ∃ q, Leaves s t p q := by
    intro q hpc hlocks hqueues hsubmitting howing
    refine ⟨q, hpc, hlocks, fun hs => .inl (hsubmitting (hold ▸ hs)), .inl ⟨fun ho => ?_, hqueues⟩⟩
    exact howing (hold ▸ ho)
  cases h with
  | refusedEarly k => exact keeps _ rfl le_rfl le_rfl nofun nofun
  | submitUnlocked k =>
    refine ⟨k.back, rfl, le_rfl, fun _ => .inr ?_, .inl ⟨fun ho => ?_, le_rfl⟩⟩ <;> rw [hold] at *
    · rfl
    · cases ho
  | queueDestroy =>
    refine ⟨_, rfl, le_rfl, fun hs => ?_, .inr ⟨hold, le_rfl⟩⟩
    rw [hold] at hs
    cases hs
  | lockDestroy => exact keeps _ rfl (Nat.le_succ _) le_rfl nofun nofun
  | putLocked k | signaled k => cases k <;> exact keeps _ rfl le_rfl le_rfl id id
  | inserted k item =>
    cases item <;> cases k <;> exact keeps _ rfl le_rfl le_rfl id id
  | putUnlocked k => cases k <;> exact keeps _ rfl le_rfl le_rfl (fun h => h) (fun h => h)
  | removed item => cases item <;> exact keeps _ rfl le_rfl le_rfl nofun nofun
  | _ => refine keeps _ rfl le_rfl le_rfl ?_ ?_ <;> first | exact fun h => h | exact nofun

/-- So is every action of a pool that its items may destroy. -/
theorem Acts.leaves (h : Acts s p a t) : ∃ q, Leaves s.toState t.toState p q := by
  cases h with
  | plain _ u hu => exact (next_executed hu).leaves
  | destroyInside x hpc =>
    refine ⟨.exchanging, rfl, le_rfl, fun hs => ?_, .inl ⟨fun _ => rfl, le_rfl⟩⟩
    rw [hpc] at hs
    cases hs
  | joinItself i hpc hself =>
    refine ⟨.joining (i + 1), rfl, le_rfl, fun hs => ?_, .inl ⟨fun _ => rfl, le_rfl⟩⟩
    rw [hpc] at hs
    cases hs
  | returnInside x hpc hinside =>
    refine ⟨.running x, rfl, Nat.le_succ _, fun hs => ?_, .inl ⟨fun ho => ?_, le_rfl⟩⟩
    · rw [hpc] at hs
      cases hs
    · rw [hpc] at ho
      cases ho

/-- The executions of `queue_destroy` up to now, and those that some threads still owe. -/
def State.queuesDue (s : State κ φ α) (F : Finset (Thread κ)) : ℕ :=
  s.queueDestroyed + ∑ r ∈ F, (s.pc r).owing.toNat

/-- No thread gets out of an execution that it owes. -/
theorem Leaves.queuesDue_le {s t : State κ φ α} {q : Pc φ α} (h : Leaves s t p q)
    (F : Finset (Thread κ)) : s.queuesDue F ≤ t.queuesDue F := by
  unfold State.queuesDue
  have hmove : s.queueDestroyed + (s.pc p).owing.toNat ≤ t.queueDestroyed + q.owing.toNat := by
    rcases h.owing with ⟨hkeep, hle⟩ | ⟨hpc, hle⟩
    · have := Bool.toNat_le_toNat hkeep
      omega
    · rw [hpc]
      exact le_trans hle (Nat.le_add_right _ _)
  have hother : ∀ r ∈ F.erase p, (t.pc r).owing.toNat = (s.pc r).owing.toNat := by
    intro r hr
    rw [h.pc_eq, Function.update_of_ne (Finset.ne_of_mem_erase hr)]
  by_cases hp : p ∈ F
  · rw [← Finset.add_sum_erase F _ hp, ← Finset.add_sum_erase F _ hp, Finset.sum_congr rfl hother,
      h.pc_eq, Function.update_self]
    omega
  · rw [Finset.erase_eq_of_notMem hp] at hother
    rw [Finset.sum_congr rfl hother]
    have hle : s.queueDestroyed ≤ t.queueDestroyed := by
      rcases h.owing with ⟨-, hle⟩ | ⟨-, hle⟩ <;> omega
    omega

/-- A thread that stops submitting, or owing an execution, is the one that moves. -/
theorem Leaves.moved {s t : State κ φ α} {q : Pc φ α} {r : Thread κ} (h : Leaves s t p q)
    {f : Pc φ α → Bool} (hs : f (s.pc r) = true) (ht : ¬ f (t.pc r) = true) :
    r = p ∧ ¬ f q = true := by
  rw [h.pc_eq] at ht
  rcases eq_or_ne r p with rfl | hne
  · rw [Function.update_self] at ht
    exact ⟨rfl, ht⟩
  · rw [Function.update_of_ne hne] at ht
    exact absurd hs ht

end Steps

section Soundness

variable {s t : NestedState κ φ α} {p : Thread κ} {a : Action κ φ α}

/-- While no item destroys the pool, it runs as the pool alone. -/
structure Plain (s : NestedState κ φ α) : Prop where
  reachable : ((pool κ φ α).restrict Undisturbed).Reachable s.toState
  inside : ∀ p, s.inside p = none

/-- An orderly step is one of the pool alone. -/
theorem Plain.next_plain (h : Plain s) (horderly : Orderly s (p, a)) (hstep : s.next (p, a) = some t) :
    s.toState.next (p, a) = some t.toState ∧ t.inside = s.inside := by
  cases next_acts hstep with
  | plain _ u hu => exact ⟨hu, rfl⟩
  | destroyInside x hpc => exact absurd hpc (horderly.outside rfl x)
  | joinItself i hpc hself =>
    -- no worker is at a join
    have hrole := (inv_reachable h.reachable.of_restrict).placed.role p
    rw [hpc] at hrole
    cases p with
    | worker j => cases hrole
    | client c => cases hself
  | returnInside x hpc hinside =>
    rw [h.inside p] at hinside
    cases hinside

/-- An orderly step goes on in this way. -/
theorem Plain.step (h : Plain s) (horderly : Orderly s (p, a)) (hstep : s.next (p, a) = some t) :
    Plain t := by
  obtain ⟨hnext, hinside⟩ := h.next_plain horderly hstep
  refine ⟨h.reachable.next ⟨⟨horderly.first, horderly.last⟩, hnext⟩, fun r => ?_⟩
  rw [hinside, h.inside r]

/-- Every orderly run goes on in this way. -/
theorem plain_reachable (hs : ((nestedPool κ φ α).restrict Orderly).Reachable s) : Plain s := by
  refine System.Reachable.invariant (S := (nestedPool κ φ α).restrict Orderly) (I := Plain) ?_ ?_ hs
  · rintro s rfl
    exact ⟨.start rfl, fun _ => rfl⟩
  · rintro s ⟨p, a⟩ t - h hstep
    exact h.step hstep.1 hstep.2

/-- Every orderly step of an orderly run is sound. -/
theorem Plain.sound (h : Plain s) (horderly : Orderly s (p, a)) (hstep : s.next (p, a) = some t) :
    Sound ⟨s, (p, a), t⟩ := by
  obtain ⟨hnext, -⟩ := h.next_plain horderly hstep
  have hinv := inv_reachable h.reachable.of_restrict
  have hsource := torn_reachable h.reachable
  have htarget := hsource.step hinv.flag ⟨horderly.first, horderly.last⟩ hnext
  constructor
  · exact htarget.atMostOnce
  · exact fun w hw hwinning htearing => htarget.once hw hwinning htearing
  · intro hp
    obtain ⟨w, hw, hpast⟩ := hsource.tearing_past hp
    exact ⟨⟨w, hw, hpast⟩, hinv.joined.done w hw hpast⟩
  · refine ⟨fun hpos => ?_, fun hpos => hsource.lock_unused hinv.flag hpos p⟩
    obtain ⟨w, hw, hpast⟩ := hsource.past (.inl hpos)
    exact hinv.queue_unused hw hpast p

end Soundness

section Exactness

variable {s t u : NestedState κ φ α} {p r w : Thread κ} {a : Action κ φ α}
  {trace : List (Transition (NestedState κ φ α) (Thread κ × Action κ φ α))}

/-- Each execution of `queue_destroy` is over or owed: two of them come to two. -/
theorem unsound_of_queuesDue (hrun : (nestedPool κ φ α).Run s trace u) (hu : u.Returned)
    {F : Finset (Thread κ)} (hdue : 2 ≤ s.queuesDue F) (hs : s.queueDestroyed ≤ 1) :
    ∃ x ∈ trace, ¬ Sound x := by
  have hlast : ¬ u.queueDestroyed ≤ 1 := by
    have hnone : ∀ r, (u.pc r).owing.toNat = 0 := by
      intro r
      have hr := hu r
      cases hpc : u.pc r with
      | putting k item stage =>
        rw [hpc] at hr
        cases hr
      | exchanging | destroyLocking | filling | destroyUnlocking | joining | queueDestroying =>
        rw [hpc] at hr
        cases hr
      | _ => rfl
    have hkept : 2 ≤ u.queuesDue F := by
      refine hrun.keeps (I := fun v => 2 ≤ v.queuesDue F) hdue fun v l v' hv hstep => ?_
      obtain ⟨q, hleaves⟩ := (next_acts (p := l.1) (a := l.2) hstep).leaves
      exact hv.trans (hleaves.queuesDue_le F)
    rw [State.queuesDue, Finset.sum_eq_zero fun r _ => hnone r] at hkept
    omega
  obtain ⟨x, hx, -, -, -, htwice⟩ := hrun.exists_leaving (I := fun _ => True)
    (P := fun v => v.queueDestroyed ≤ 1) trivial (fun _ _ _ _ _ => trivial) hs hlast
  exact ⟨x, hx, fun hsound => htwice hsound.atMostOnce.1⟩

/-- A submitter that is left when the lock is destroyed uses the destroyed lock. -/
theorem unsound_of_submitting (hrun : (nestedPool κ φ α).Run s trace u) (hu : u.Returned)
    (hpos : 0 < s.lockDestroyed) (hr : (s.pc r).submitting = true) : ∃ x ∈ trace, ¬ Sound x := by
  have hlast : ¬ (u.pc r).submitting = true := by
    intro hsubmitting
    have hcall := hu r
    cases hpc : u.pc r with
    | submitLocking | submitChecking | putting | submitUnlocking =>
      rw [hpc] at hcall
      cases hcall
    | _ =>
      rw [hpc] at hsubmitting
      cases hsubmitting
  obtain ⟨x, hx, hdestroyed, hstep, hsource, htarget⟩ := hrun.exists_leaving
    (I := fun v => 0 < v.lockDestroyed) (P := fun v => (v.pc r).submitting = true) hpos
    (fun v l v' hv hstep => by
      obtain ⟨q, hleaves⟩ := (next_acts (p := l.1) (a := l.2) hstep).leaves
      exact hv.trans_le hleaves.locks_le) hr hlast
  refine ⟨x, hx, fun hsound => ?_⟩
  obtain ⟨q, hleaves⟩ := (next_acts (p := x.label.1) (a := x.label.2) hstep).leaves
  obtain ⟨rfl, hleft⟩ := hleaves.moved hsource htarget
  have huses := (hleaves.submitting hsource).resolve_left hleft
  rw [hsound.unused.2 hdestroyed] at huses
  cases huses

/-- A worker that has called `tp_destroy` destroys the queue when it has not finished. -/
theorem unsound_of_worker (hrun : (nestedPool κ φ α).Run s trace u) (hu : u.Returned)
    {j : Fin nthreads} (hj : (s.pc (.worker j)).owing = true) : ∃ x ∈ trace, ¬ Sound x := by
  have hlast : ¬ (u.pc (.worker j)).owing = true := by
    intro howing
    have hcall := hu (.worker j)
    cases hpc : u.pc (.worker j) with
    | putting | exchanging | destroyLocking | filling | destroyUnlocking | joining
      | queueDestroying =>
      rw [hpc] at hcall
      cases hcall
    | _ =>
      rw [hpc] at howing
      cases howing
  obtain ⟨x, hx, -, hstep, hsource, htarget⟩ := hrun.exists_leaving (I := fun _ => True)
    (P := fun v => (v.pc (.worker j)).owing = true) trivial (fun _ _ _ _ _ => trivial) hj hlast
  refine ⟨x, hx, fun hsound => ?_⟩
  obtain ⟨q, hleaves⟩ := (next_acts (p := x.label.1) (a := x.label.2) hstep).leaves
  obtain ⟨hmoves, hleft⟩ := hleaves.moved hsource htarget
  rcases hleaves.owing with ⟨hkeep, -⟩ | ⟨hpc, -⟩
  · exact hleft (hkeep (hmoves ▸ hsource))
  · have hfinished := (hsound.joined (by rw [hpc]; rfl)).2 j
    rw [hmoves, hpc] at hfinished
    cases hfinished

/-- A thread that finds the flag set executes `queue_destroy` next to the thread that set it. -/
theorem Plain.two_due (h : Plain s) (hp : s.pc p = .exchanging) (hset : s.destroying ≠ 0) :
    ∃ F, 2 ≤ s.queuesDue F := by
  have hinv := inv_reachable h.reachable.of_restrict
  have htorn := torn_reachable h.reachable
  obtain ⟨w, hw⟩ := Option.ne_none_iff_exists'.mp fun hnone => hset (hinv.flag.winner_none.mp hnone)
  have hqueues : s.queueDestroyed = (s.pc w).queuesTorn := htorn.queues_eq.trans (due_winner hw)
  have howes : ∀ q : Pc φ α, 1 ≤ q.queuesTorn + q.owing.toNat := by
    intro q
    cases q with
    | putting k item stage => cases k <;> exact Nat.le_refl 1
    | exchanging => exact Nat.le_succ 1
    | _ => exact Nat.le_refl 1
  rcases eq_or_ne p w with rfl | hne
  · -- the thread that set the flag has come back
    refine ⟨{p}, ?_⟩
    have hone : s.queueDestroyed = 1 := by
      rw [hqueues, hp]
      rfl
    rw [State.queuesDue, Finset.sum_singleton, hone, hp]
    exact Nat.le_refl 2
  · refine ⟨{p, w}, ?_⟩
    have hthis : (s.pc p).owing.toNat = 1 := by rw [hp]; rfl
    rw [State.queuesDue, Finset.sum_pair hne, hqueues, hthis]
    have := howes (s.pc w)
    omega

/-- The statement that destroys the lock. -/
theorem Acts.lockDestroyed_pos (h : Acts s p a t) (hp : s.pc p = .lockDestroying) :
    0 < t.lockDestroyed := by
  cases h with
  | plain _ v hv =>
    have hexecuted := next_executed hv
    rw [hp] at hexecuted
    cases hexecuted
    exact Nat.succ_pos _
  | destroyInside x hpc =>
    rw [hp] at hpc
    cases hpc
  | joinItself i hpc hself =>
    rw [hp] at hpc
    cases hpc
  | returnInside x hpc hinside => exact Nat.succ_pos _

/-- A work item's call of `tp_destroy`. -/
theorem Acts.exchanging_of_destroy {x : WorkItem φ α} (h : Acts s p .destroy t)
    (hp : s.pc p = .running x) : t.pc p = .exchanging := by
  cases h with
  | plain _ v hv =>
    simp only [State.next, hp, reduceCtorEq] at hv
  | destroyInside y hpc => exact Function.update_self _ _ _

/-- After a step that is not orderly, no run in which all calls return is sound. -/
theorem Plain.unsound (h : Plain s) (hstep : s.next (p, a) = some t) (hbad : ¬ Orderly s (p, a))
    (hrun : (nestedPool κ φ α).Run t trace u) (hu : u.Returned) :
    ∃ x ∈ ⟨s, (p, a), t⟩ :: trace, ¬ Sound x := by
  have hinv := inv_reachable h.reachable.of_restrict
  have htorn := torn_reachable h.reachable
  have hcases : (s.pc p = .exchanging ∧ s.destroying ≠ 0) ∨
      (∃ r, s.pc p = .lockDestroying ∧ (s.pc r).submitting = true) ∨
      ∃ x, a = .destroy ∧ s.pc p = .running x := by
    by_contra hnone
    rw [not_or, not_or] at hnone
    obtain ⟨hfirst, hlast, houtside⟩ := hnone
    refine hbad ⟨fun hp => ?_, fun hp r => ?_, fun ha x hx => houtside ⟨x, ha, hx⟩⟩
    · exact not_not.mp fun hset => hfirst ⟨hp, hset⟩
    · exact Bool.eq_false_iff.mpr fun hr => hlast ⟨r, hp, hr⟩
  have hacts := next_acts hstep
  rcases hcases with ⟨hp, hset⟩ | ⟨r, hp, hr⟩ | ⟨x, rfl, hp⟩
  · obtain ⟨F, hdue⟩ := h.two_due hp hset
    exact unsound_of_queuesDue (System.Run.cons hstep hrun) hu hdue htorn.atMostOnce.1
  · have hleft : (t.pc r).submitting = true := by
      obtain ⟨q, hleaves⟩ := hacts.leaves
      have hne : r ≠ p := fun he => by
        rw [he, hp] at hr
        cases hr
      rw [hleaves.pc_eq, Function.update_of_ne hne, hr]
    obtain ⟨y, hy, hbad⟩ := unsound_of_submitting hrun hu (hacts.lockDestroyed_pos hp) hleft
    exact ⟨y, List.mem_cons_of_mem _ hy, hbad⟩
  · -- only a worker runs an item
    have hrole := hinv.placed.role p
    rw [hp] at hrole
    cases p with
    | worker j =>
      have howing : (t.pc (.worker j)).owing = true := by
        rw [hacts.exchanging_of_destroy hp]
        rfl
      obtain ⟨y, hy, hbad⟩ := unsound_of_worker hrun hu howing
      exact ⟨y, List.mem_cons_of_mem _ hy, hbad⟩
    | client c => cases hrole

end Exactness

/-- Every run in which no thread finds the flag set in `tp_destroy`, no submitter is
left inside when the lock is destroyed and no work item destroys the pool is sound.
No other run in which all calls return is. -/
theorem teardown_sound_iff_orderly :
    (∀ trace s, (nestedPool κ φ α).Run nestedInitial trace s →
      (∀ x ∈ trace, Orderly x.source x.label) → ∀ x ∈ trace, Sound x) ∧
    ∀ trace s, (nestedPool κ φ α).Run nestedInitial trace s → s.Returned →
      ((∀ x ∈ trace, Sound x) ↔ ∀ x ∈ trace, Orderly x.source x.label) := by
  have hstart : ((nestedPool κ φ α).restrict Orderly).Reachable nestedInitial := .start rfl
  have hsound : ∀ trace s, (nestedPool κ φ α).Run nestedInitial trace s →
      (∀ x ∈ trace, Orderly x.source x.label) → ∀ x ∈ trace, Sound x := by
    intro trace s hrun horderly x hx
    obtain ⟨hsource, hstep⟩ := (hrun.restrict horderly).transition hstart hx
    exact (plain_reachable hsource).sound hstep.1 hstep.2
  refine ⟨hsound, fun trace s hrun hreturned => ⟨fun hall => ?_, hsound trace s hrun⟩⟩
  rcases hrun.first_disallowed Orderly with horderly |
    ⟨before, v, l, w, after, rfl, hbefore, horderly, hstep, hbad, hafter⟩
  · exact horderly
  · have hplain := plain_reachable ((hbefore.restrict horderly).reachable hstart)
    obtain ⟨x, hx, hunsound⟩ := hplain.unsound hstep hbad hafter hreturned
    exact absurd (hall x (List.mem_append_right _ hx)) hunsound

/-- One `tp_destroy`, called by the only work item. The worker that returns from it goes on
to lock the queue that it has destroyed. -/
example :
    let steps (p : Thread Unit) (n : ℕ) : List (Thread Unit × Action Unit ℕ ℕ) :=
      List.replicate n (p, .run)
    let put (p : Thread Unit) := steps p 2 ++ [(p, .signal none)] ++ steps p 1
    let labels := [(.client (), .submit 0 0)] ++ steps (.client ()) 3 ++ put (.client ()) ++
      steps (.client ()) 1 ++ steps (.worker 0) 6 ++ [(.worker 0, .destroy)] ++ steps (.worker 0) 2 ++
      (List.replicate nthreads (steps (.worker 0) 1 ++ put (.worker 0))).flatten ++
      steps (.worker 0) 3 ++ [1, 2, 3, 4, 5, 6, 7].flatMap (fun j => steps (.worker j) 5) ++
      steps (.worker 0) 11
    (labels.foldlM NestedState.next nestedInitial).any fun s =>
      s.queueDestroyed == 1 && s.lockDestroyed == 1 && s.usesQueue (.worker 0) := by
  decide +kernel

/-- The second of two destroyers destroys the queue while the workers use it. -/
theorem second_destroyer_tears : ¬ ∀ trace s, (nestedPool Bool ℕ ℕ).Run nestedInitial trace s →
    ∀ x ∈ trace, Sound x := by
  intro hall
  have hrun := (System.Run.nil (S := nestedPool Bool ℕ ℕ) nestedInitial)
    |>.snoc (a := (Thread.client false, Action.destroy)) rfl
    |>.snoc (a := (Thread.client false, Action.run)) rfl
    |>.snoc (a := (Thread.client true, Action.destroy)) rfl
    |>.snoc (a := (Thread.client true, Action.run)) rfl
    |>.snoc (a := (Thread.client true, Action.run)) rfl
  have hsound := hall _ _ hrun _ (List.mem_append_right _ (List.mem_singleton.mpr rfl))
  have hfinished : (Pc.getLocking : Pc ℕ ℕ) = .finished := (hsound.joined rfl).2 0
  cases hfinished

end SistemasOperativos.ThreadPool
