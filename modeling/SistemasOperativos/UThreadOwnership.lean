import Mathlib.Tactic
import SistemasOperativos.UThreadConservation
import SistemasOperativos.UThreadSemaphore

/-!
# Who owns the units of a semaphore

Programs that give back only units they were granted keep a ledger of the
units given back so far. The units still outstanding, each under the owner of
its request, and the units available then always add up to the initial ones.
A request granted by `sem_post` counts from the grant on, although its thread
only runs later and does not look at the counter again.
-/

namespace SistemasOperativos.UThreadOwnership

open TransitionRuns TokenPlaces UThread FifoSemaphore UThreadConservation UThreadSemaphore

variable {ι ε : Type} [DecidableEq ι] [DecidableEq ε]

/-- A program state with the units of one semaphore given back so far. -/
structure Account (ι ε : Type) where
  /-- The program. -/
  state : State ι ε
  /-- Units given back, each under the thread it had been granted to. -/
  back : Multiset PUThread

/-- Units of a semaphore that were granted and not yet given back. -/
def held (s : ι) (x : Account ι ε) : Multiset PUThread := outstanding (view s x.state) x.back

/-- `sem_wait` takes at least one unit, and `sem_post` gives back exactly the
named units, which were granted and not yet given back. -/
def GivesBack (s : ι) (x : Account ι ε) : Command ι ε → Multiset PUThread → Prop
  | .call (.semWait s' n), give => (s' = s → 0 < n) ∧ give = 0
  | .call (.semPost s' n), give =>
    if s' = s then give ≤ held s x ∧ (Multiset.card give : ℤ) = n else give = 0
  | _, give => give = 0

/-- The program together with the ledger of one semaphore. -/
def ownership (s : ι) (sems : ι → Semaphore) :
    System (Account ι ε) (Command ι ε × Multiset PUThread) where
  init x := x.state = initial sems ∧ x.back = 0
  step x a y :=
    GivesBack s x a.1 a.2 ∧ next x.state a.1 = some y.state ∧ y.back = x.back + a.2

omit [DecidableEq ε] in
/-- Only posts on the semaphore give units of it back. -/
theorem givesBack_other {s : ι} {x : Account ι ε} {c : Command ι ε} {give : Multiset PUThread}
    (h : GivesBack s x c give) (hc : ∀ n, c ≠ .call (.semPost s n)) : give = 0 := by
  cases c with
  | call c =>
    cases c with
    | semWait => exact h.2
    | semPost s' n =>
      have hs : s' ≠ s := fun hs => hc n (by rw [hs])
      rwa [GivesBack, if_neg hs] at h
    | _ => exact h
  | _ => exact h

/-- What a step does to the view and the ledger: a call of `sem_wait`, a call
of `sem_post` with the units it gives back, or nothing. -/
theorem ownership_cases {sems : ι → Semaphore} {s : ι} {k : ℤ} {x y : Account ι ε}
    {a : Command ι ε × Multiset PUThread} (howned : Owned k (view s x.state) x.back)
    (hmax : (x.state.sems s).limit ≤ intMax) (hstep : (ownership s sems).step x a y) :
    (∃ b n, a.1 = .call (.semWait s n) ∧ x.state.runningThread = some (.user b) ∧
      y.state = semWait s n x.state ∧ y.back = x.back ∧ 0 < n ∧
      view s y.state = (view s x.state).wait ⟨.user b, n⟩) ∨
    (∃ n, a.1 = .call (.semPost s n) ∧ y.state = semPost s n x.state ∧ a.2 ≤ held s x ∧
      (Multiset.card a.2 : ℤ) = n ∧ y.back = x.back + a.2 ∧
      view s y.state = (view s x.state).post n) ∨
    ((∀ n, a.1 ≠ .call (.semWait s n) ∧ a.1 ≠ .call (.semPost s n)) ∧ y.back = x.back ∧
      view s y.state = view s x.state) := by
  obtain ⟨c, give⟩ := a
  obtain ⟨hgive, hnext, hback⟩ := hstep
  have hlo : 0 ≤ (x.state.sems s).units := howned.lower
  have hup : (x.state.sems s).units ≤ (x.state.sems s).limit := howned.upper
  rcases view_next (s := s) hnext with ⟨b, n, rfl, hr, hy⟩ | ⟨b, n, rfl, hr, hy⟩ | ⟨hc, hview⟩
  · obtain ⟨hn, rfl⟩ := hgive
    have hview := view_semWait hr (hn rfl) (by omega : (x.state.sems s).units ≤ intMax)
    exact .inl ⟨b, n, rfl, hr, hy, by rw [hback, add_zero], hn rfl, by rw [hy, hview]⟩
  · rw [GivesBack, if_pos rfl] at hgive
    have hcard := Multiset.card_le_card hgive.1
    have hconserved := owned_conserved howned
    have hunits : (view s x.state).units = (x.state.sems s).units := rfl
    have hfits : k ≤ (x.state.sems s).limit := howned.fits
    have hn : (Multiset.card give : ℤ) = n := hgive.2
    have hroom : (x.state.sems s).units + n ≤ intMax := by
      rw [held] at hcard
      omega
    have hpos : ∀ block ∈ (x.state.sems s).waiters, 0 < block.units := fun block hb =>
      howned.positive (request block) (List.mem_map_of_mem hb)
    have hview := view_semPost hpos hlo (by omega) hroom
    exact .inr (.inl ⟨n, rfl, hy, hgive.1, hgive.2, hback, by rw [hy, hview]⟩)
  · have hnone : give = 0 := givesBack_other hgive fun n => (hc n).2
    exact .inr (.inr ⟨hc, by rw [hback, hnone, add_zero], hview⟩)

/-- Along every run the ledger of a semaphore is in order. -/
theorem owned_reachable {sems : ι → Semaphore} {s : ι} {k limit : ℤ}
    (hs : sems s = semInit k limit) (hk : 0 ≤ k) (hl : k ≤ limit) (hmax : limit ≤ intMax)
    {x : Account ι ε} (h : (ownership s sems).Reachable x) :
    Owned k (view s x.state) x.back ∧ (view s x.state).limit = limit := by
  refine System.Reachable.invariant
    (I := fun x => Owned k (view s x.state) x.back ∧ (view s x.state).limit = limit) ?_ ?_ h
  · rintro x ⟨hstate, hback⟩
    have hview : view s x.state = Sem.init k limit := by
      simp [hstate, view, initial, utInit, hs, semInit, Sem.init]
    rw [hview, hback]
    exact ⟨owned_init hk hl, rfl⟩
  · rintro x a y - ⟨howned, hlimit⟩ hstep
    rcases ownership_cases howned (hlimit.le.trans hmax) hstep with
      ⟨b, n, -, -, -, hback, hn, hview⟩ | ⟨n, -, -, hgive, hcard, hback, hview⟩ |
      ⟨-, hback, hview⟩
    · rw [hview, hback, wait_limit]
      exact ⟨owned_wait howned hn, hlimit⟩
    · rw [hview, hback, post_limit]
      exact ⟨owned_post howned hgive hcard, hlimit⟩
    · rw [hview, hback]
      exact ⟨howned, hlimit⟩

/-- Every thread that waits is suspended inside the call that made it wait. -/
structure Suspended (σ : State ι ε) : Prop where
  /-- On a semaphore, with the units it asked for. -/
  sems : ∀ s, ∀ block ∈ (σ.sems s).waiters, σ.context block.thread = .semWait s block.units
  /-- On an event that is not signaled. -/
  events : ∀ e, (σ.events e).signaled = false →
    ∀ t ∈ (σ.events e).waiters, σ.context t = .eventWait e

/-- No thread became ready inside `sem_wait` on the semaphore. -/
def NoNewReturn (s : ι) (σ σ' : State ι ε) : Prop :=
  ∀ t ∈ σ'.readyQueue, ∀ n, σ'.context t = .semWait s n →
    t ∈ σ.readyQueue ∧ σ.context t = .semWait s n

omit [DecidableEq ι] [DecidableEq ε] in
/-- Switching away keeps the frames right, when the thread that is switched out
is only linked where its frame says. -/
theorem suspended_schedule {σ : State ι ε} {r : PUThread} {frame : Frame ι ε}
    (hr : σ.runningThread = some r)
    (hsems : ∀ s, ∀ block ∈ (σ.sems s).waiters,
      Function.update σ.context r frame block.thread = .semWait s block.units)
    (hevents : ∀ e, (σ.events e).signaled = false →
      ∀ t ∈ (σ.events e).waiters, Function.update σ.context r frame t = .eventWait e) :
    Suspended (schedule frame σ) := by
  obtain ⟨-, -, -, -, -, hs, he, -⟩ := schedule_fields σ frame
  refine ⟨fun s block hb => ?_, fun e hsig t ht => ?_⟩
  · rw [schedule_context σ hr]
    exact hsems s block (hs ▸ hb)
  · rw [schedule_context σ hr]
    exact hevents e (he ▸ hsig) t (he ▸ ht)

/-- Saving the frame of a thread that is linked nowhere changes no frame that
the lists speak of. -/
theorem suspended_update {σ : State ι ε} {loc : PUThread → Option (Place ι ε)} {t : PUThread}
    (hc : Conserved σ loc) (hsusp : Suspended σ) (ht : ∀ k, loc t = some k → k = .running)
    (frame : Frame ι ε) :
    (∀ s, ∀ block ∈ (σ.sems s).waiters,
      Function.update σ.context t frame block.thread = .semWait s block.units) ∧
    ∀ e, (σ.events e).signaled = false → ∀ u ∈ (σ.events e).waiters,
      Function.update σ.context t frame u = .eventWait e := by
  obtain ⟨-, hsems, hevents⟩ := not_linked hc.placed ht
  constructor
  · intro s block hb
    rw [Function.update_of_ne (hsems s block hb)]
    exact hsusp.sems s block hb
  · intro e he u hu
    have hut : u ≠ t := fun h => hevents e he (h ▸ hu)
    rw [Function.update_of_ne hut]
    exact hsusp.events e he u hu

/-- A new descriptor is linked nowhere, so its first frame replaces none that
the lists speak of. -/
theorem suspended_utCreate {s : ι} {σ : State ι ε} {loc : PUThread → Option (Place ι ε)} {b : ℕ}
    (hc : Conserved σ loc) (hsusp : Suspended σ) (hb : b ∉ σ.descriptors) :
    Suspended (utCreate b σ) ∧ NoNewReturn s σ (utCreate b σ) := by
  have hloc : loc (.user b) = none := by simpa using mt (hc.allocated b).mp hb
  have hnone : ∀ k, loc (.user b) = some k → k = .running := by simp [hloc]
  obtain ⟨hready, -, -⟩ := not_linked hc.placed hnone
  have hkeep := suspended_update hc hsusp hnone .internalStart
  refine ⟨⟨hkeep.1, hkeep.2⟩, fun t ht n hn => ?_⟩
  have hn' : Function.update σ.context (.user b) .internalStart t = .semWait s n := hn
  have htb : t ≠ .user b := by
    rintro rfl
    simp at hn'
  rw [Function.update_of_ne htb] at hn'
  have ht' : t ∈ σ.readyQueue ++ [.user b] := ht
  exact ⟨by simpa [htb] using ht', hn'⟩

/-- A thread that is suspended elsewhere than in the ready queue makes no
other thread ready. -/
theorem noNewReturn_switch {s : ι} {σ σ' : State ι ε} {loc : PUThread → Option (Place ι ε)}
    {t : PUThread} {frame : Frame ι ε} (hc : Conserved σ loc)
    (ht : ∀ k, loc t = some k → k = .running) (hready : σ'.readyQueue = σ.readyQueue.tail)
    (hcontext : σ'.context = Function.update σ.context t frame) : NoNewReturn s σ σ' := by
  obtain ⟨hnot, -, -⟩ := not_linked hc.placed ht
  intro u hu n hn
  have huq : u ∈ σ.readyQueue := List.mem_of_mem_tail (hready ▸ hu)
  have hut : u ≠ t := fun h => hnot (h ▸ huq)
  rw [hcontext, Function.update_of_ne hut] at hn
  exact ⟨huq, hn⟩

omit [DecidableEq ι] [DecidableEq ε] in
/-- A thread that ends leaves the frames of the others alone. -/
theorem suspended_utExit {s : ι} {σ : State ι ε} {b : ℕ} (hsusp : Suspended σ)
    (hr : σ.runningThread = some (.user b)) :
    Suspended (utExit σ) ∧ NoNewReturn s σ (utExit σ) := by
  obtain ⟨hready, -, -, -, -, hcontext, hsems, hevents, -⟩ := utExit_fields σ hr
  refine ⟨⟨?_, ?_⟩, fun t ht n hn => ?_⟩
  · rw [hsems, hcontext]
    exact hsusp.sems
  · rw [hevents, hcontext]
    exact hsusp.events
  · exact ⟨List.mem_of_mem_tail (hready ▸ ht), hcontext ▸ hn⟩

/-- `ut_run` suspends the main thread, which is linked nowhere. -/
theorem suspended_utRun {s : ι} {σ σ' : State ι ε} {loc : PUThread → Option (Place ι ε)}
    (hc : Conserved σ loc) (hsusp : Suspended σ) (hstep : next σ .enterRun = some σ') :
    Suspended σ' ∧ NoNewReturn s σ σ' := by
  have hkeep := suspended_update hc hsusp hc.proxy .utRun
  obtain ⟨-, rfl | rfl⟩ := next_enterRun hstep
  · exact ⟨hsusp, fun t ht n hn => ⟨ht, hn⟩⟩
  · exact ⟨suspended_schedule rfl hkeep.1 hkeep.2,
      noNewReturn_switch hc hc.proxy (schedule_fields _ _).1 (schedule_context _ rfl)⟩

section Caller

variable {s : ι} {σ : State ι ε} {loc : PUThread → Option (Place ι ε)} {b : ℕ}
  (hc : Conserved σ loc) (hsusp : Suspended σ) (hr : σ.runningThread = some (.user b))

include hc hsusp hr

theorem suspended_utYield : Suspended (utYield σ) ∧ NoNewReturn s σ (utYield σ) := by
  have hkeep := suspended_update hc hsusp (caller_running hc hr) .utYield
  rw [utYield_eq hr]
  split
  · exact ⟨hsusp, fun t ht n hn => ⟨ht, hn⟩⟩
  · have hr' : (insertReady .yielded (.user b) σ).runningThread = some (.user b) := hr
    refine ⟨suspended_schedule hr' hkeep.1 hkeep.2, fun t ht n hn => ?_⟩
    rw [schedule_context _ hr'] at hn
    have htb : t ≠ .user b := by
      rintro rfl
      simp at hn
    rw [Function.update_of_ne htb] at hn
    have ht' : t ∈ (σ.readyQueue ++ [PUThread.user b]).tail := by simpa [insertReady] using ht
    have hmem := List.mem_of_mem_tail ht'
    simp only [List.mem_append, List.mem_singleton, htb, or_false] at hmem
    exact ⟨hmem, hn⟩

theorem suspended_semWait (s' : ι) (units : ℤ) :
    Suspended (semWait s' units σ) ∧ NoNewReturn s σ (semWait s' units σ) := by
  have hkeep := suspended_update hc hsusp (caller_running hc hr) (.semWait s' units)
  simp only [semWait, hr]
  split
  · refine ⟨⟨fun u block hb => ?_, hsusp.events⟩, fun t ht n hn => ⟨ht, hn⟩⟩
    by_cases hu : u = s'
    · subst hu
      exact hsusp.sems u block (by simpa [record, setSem] using hb)
    · exact hsusp.sems u block (by simpa [record, setSem, hu] using hb)
  · have hready : ∀ σ' : State ι ε, (schedule (.semWait s' units) σ').readyQueue =
        σ'.readyQueue.tail := fun σ' => (schedule_fields σ' _).1
    refine ⟨suspended_schedule hr (fun u block hb => ?_) hkeep.2,
      noNewReturn_switch hc (caller_running hc hr) (hready _) (schedule_context _ hr)⟩
    by_cases hu : u = s'
    · subst hu
      have hmem : block ∈ (σ.sems u).waiters ∨ block = ⟨.user b, units⟩ := by
        simpa [record, setSem] using hb
      rcases hmem with hmem | rfl
      · exact hkeep.1 u block hmem
      · exact Function.update_self _ _ _
    · exact hkeep.1 u block (by simpa [record, setSem, hu] using hb)

theorem suspended_eventWait (e : ε) :
    Suspended (eventWait e σ) ∧ NoNewReturn s σ (eventWait e σ) := by
  have hkeep := suspended_update hc hsusp (caller_running hc hr) (.eventWait e)
  simp only [eventWait, hr]
  split
  · have hready : ∀ σ' : State ι ε, (schedule (.eventWait e) σ').readyQueue =
        σ'.readyQueue.tail := fun σ' => (schedule_fields σ' _).1
    refine ⟨suspended_schedule hr hkeep.1 (fun e' hsig t ht => ?_),
      noNewReturn_switch hc (caller_running hc hr) (hready _) (schedule_context _ hr)⟩
    by_cases he : e' = e
    · subst he
      have hmem : t ∈ (σ.events e').waiters ∨ t = .user b := by
        simpa [record, setEvent] using ht
      rcases hmem with hmem | rfl
      · exact hkeep.2 e' (by simpa [record, setEvent] using hsig) t hmem
      · exact Function.update_self _ _ _
    · exact hkeep.2 e' (by simpa [record, setEvent, he] using hsig) t
        (by simpa [record, setEvent, he] using ht)
  · exact ⟨hsusp, fun t ht n hn => ⟨ht, hn⟩⟩

end Caller

omit [DecidableEq ε] in
/-- `sem_post` readies threads that are suspended in `sem_wait` on the same semaphore. -/
theorem suspended_semPost {s : ι} {σ : State ι ε} (hsusp : Suspended σ) (s' : ι) (units : ℤ) :
    Suspended (semPost s' units σ) ∧ (s' ≠ s → NoNewReturn s σ (semPost s' units σ)) := by
  obtain ⟨-, -, -, hcontext, hevents, hsems⟩ := semPost_fields σ s' units
  obtain ⟨served, hwaiters, hready⟩ := semPost_served σ s' units
  refine ⟨⟨fun u block hb => ?_, ?_⟩, fun hne t ht n hn => ?_⟩
  · rw [hcontext]
    by_cases hu : u = s'
    · subst hu
      exact hsusp.sems u block (hwaiters ▸ List.mem_append_right _ hb)
    · exact hsusp.sems u block (hsems u hu ▸ hb)
  · rw [hevents, hcontext]
    exact hsusp.events
  · rw [hcontext] at hn
    rw [hready, List.mem_append, List.mem_map] at ht
    rcases ht with ht | ⟨block, hb, rfl⟩
    · exact ⟨ht, hn⟩
    · have hframe := hsusp.sems s' block (hwaiters ▸ List.mem_append_left _ hb)
      rw [hframe] at hn
      injection hn with hs
      exact absurd hs hne

omit [DecidableEq ι] in
/-- `event_set` readies threads that are suspended in `event_wait`. -/
theorem suspended_eventSet {s : ι} {σ : State ι ε} (hsusp : Suspended σ) {e : ε}
    (hset : (σ.events e).signaled = false ∨ (σ.events e).waiters = []) :
    Suspended (eventSet e σ) ∧ NoNewReturn s σ (eventSet e σ) := by
  obtain ⟨hready, -, -, -, -, hsems, hevents, -⟩ := eventSet_fields e σ
  have hcontext := eventSet_context e σ
  refine ⟨⟨?_, fun e' hsig t ht => ?_⟩, fun t ht n hn => ?_⟩
  · rw [hsems, hcontext]
    exact hsusp.sems
  · rw [hevents] at hsig ht
    have he : e' ≠ e := by
      rintro rfl
      simp at hsig
    rw [Function.update_of_ne he] at hsig ht
    rw [hcontext]
    exact hsusp.events e' hsig t ht
  · rw [hcontext] at hn
    rw [hready, List.mem_append] at ht
    rcases ht with ht | ht
    · exact ⟨ht, hn⟩
    · rcases hset with hsig | hempty
      · have hframe := hsusp.events e hsig t ht
        simp [hframe] at hn
      · simp [hempty] at ht

/-- Every step keeps the frames of the waiting threads right, and only a post
on the semaphore makes a thread ready inside `sem_wait`. -/
theorem suspended_next {s : ι} {σ σ' : State ι ε} {loc : PUThread → Option (Place ι ε)}
    {c : Command ι ε} (hc : Conserved σ loc) (hsusp : Suspended σ) (hset : FreshSet σ c)
    (hstep : next σ c = some σ') :
    Suspended σ' ∧ ((∀ n, c ≠ .call (.semPost s n)) → NoNewReturn s σ σ') := by
  cases c with
  | create b =>
    obtain ⟨-, hb, rfl⟩ := next_create hstep
    obtain ⟨h, hnew⟩ := suspended_utCreate (s := s) hc hsusp hb
    exact ⟨h, fun _ => hnew⟩
  | enterRun =>
    obtain ⟨h, hnew⟩ := suspended_utRun (s := s) hc hsusp hstep
    exact ⟨h, fun _ => hnew⟩
  | leaveRun =>
    obtain ⟨-, -, -, rfl⟩ := next_leaveRun hstep
    exact ⟨⟨hsusp.sems, hsusp.events⟩, fun _ t ht n hn => ⟨ht, hn⟩⟩
  | call c =>
    obtain ⟨b, hr, hmalloc, rfl⟩ := next_call hstep
    cases c with
    | utCreate b' =>
      obtain ⟨h, hnew⟩ := suspended_utCreate (s := s) hc hsusp (by simpa [mallocOk] using hmalloc)
      exact ⟨h, fun _ => hnew⟩
    | utYield =>
      obtain ⟨h, hnew⟩ := suspended_utYield (s := s) hc hsusp hr
      exact ⟨h, fun _ => hnew⟩
    | utExit =>
      obtain ⟨h, hnew⟩ := suspended_utExit (s := s) hsusp hr
      exact ⟨h, fun _ => hnew⟩
    | semWait s' n =>
      obtain ⟨h, hnew⟩ := suspended_semWait (s := s) hc hsusp hr s' n
      exact ⟨h, fun _ => hnew⟩
    | semPost s' n =>
      obtain ⟨h, hnew⟩ := suspended_semPost (s := s) hsusp s' n
      exact ⟨h, fun hne => hnew fun hs => hne n (by rw [hs])⟩
    | eventWait e =>
      obtain ⟨h, hnew⟩ := suspended_eventWait (s := s) hc hsusp hr e
      exact ⟨h, fun _ => hnew⟩
    | eventSet e =>
      obtain ⟨h, hnew⟩ := suspended_eventSet (s := s) hsusp hset
      exact ⟨h, fun _ => hnew⟩

/-- No command gives back units of a thread that has not yet returned from the
call they were granted to, and no event is set twice. -/
def HolderGives (s : ι) (x : Account ι ε) (a : Command ι ε × Multiset PUThread) : Prop :=
  FreshSet x.state a.1 ∧
    ∀ t ∈ x.state.readyQueue, ∀ n, x.state.context t = .semWait s n → t ∉ a.2

/-- A thread returns from `sem_wait`: at once, or when it is switched in again. -/
def ReturnsFromWait (s : ι) (σ : State ι ε) (c : Command ι ε) (σ' : State ι ε) (b : ℕ)
    (n : ℤ) : Prop :=
  σ'.runningThread = some (.user b) ∧
    (c = .call (.semWait s n) ∧ σ.runningThread = some (.user b) ∨
      σ.runningThread ≠ some (.user b) ∧ σ.context (.user b) = .semWait s n)

/-- What holds between the grant of a request and the return of its thread. -/
structure HandedOver (s : ι) (x : Account ι ε) : Prop where
  /-- Waiting threads are suspended in the call that made them wait. -/
  suspended : Suspended x.state
  /-- A ready thread that will return from `sem_wait` owns what it asked for. -/
  owns : ∀ t ∈ x.state.readyQueue, ∀ n, x.state.context t = .semWait s n →
    n ≤ Multiset.count t (held s x)

omit [DecidableEq ε] in
/-- A step takes no unit away from a thread whose units are not given back. -/
theorem held_count_le {s : ι} {x y : Account ι ε} {give : Multiset PUThread}
    (hshares : shares (view s x.state).marks ≤ shares (view s y.state).marks)
    (hback : y.back = x.back + give) {t : PUThread} (ht : t ∉ give) :
    Multiset.count t (held s x) ≤ Multiset.count t (held s y) := by
  have hcount := Multiset.count_le_of_le t hshares
  have hgive := Multiset.count_eq_zero_of_notMem ht
  simp only [held, outstanding, hback, Multiset.count_sub, Multiset.count_add, hgive]
  omega

omit [DecidableEq ι] [DecidableEq ε] in
/-- Units that were granted to a request belong to its owner. -/
theorem count_share (r : Request PUThread) :
    r.units ≤ Multiset.count r.owner r.share := by
  rw [Request.share, Multiset.count_replicate_self]
  omega

omit [DecidableEq ε] in
/-- A post that serves a thread gives it all the units it asked for. -/
theorem served_owns {s : ι} {k : ℤ} {x y : Account ι ε} {give : Multiset PUThread} {n : ℤ}
    (howned : Owned k (view s x.state) x.back) (hgive : give ≤ held s x)
    (hback : y.back = x.back + give) (hview : view s y.state = (view s x.state).post n)
    {served : List SemWaitBlock}
    (hserved : (x.state.sems s).waiters = served ++ (y.state.sems s).waiters)
    {block : SemWaitBlock} (hb : block ∈ served) :
    block.units ≤ Multiset.count block.thread (held s y) := by
  obtain ⟨requests, hwaiters, hshares⟩ := post_shares n (view s x.state)
  rw [← hview] at hwaiters hshares
  have hrequests : requests = served.map request := by
    have hall : served.map request ++ (view s y.state).waiters =
        requests ++ (view s y.state).waiters := by
      rw [← hwaiters, view, view, hserved, List.map_append]
    exact (List.append_cancel_right hall).symm
  have hshare : (request block).share ≤ (requests.map Request.share).sum :=
    List.single_le_sum (fun _ _ => Multiset.zero_le _) _ (by
      rw [hrequests]
      exact List.mem_map_of_mem (List.mem_map_of_mem hb))
  have hbackLe : x.back + give ≤ shares (view s x.state).marks := by
    have hroom := add_le_add_right hgive x.back
    rwa [held, outstanding, add_tsub_cancel_of_le howned.backLe] at hroom
  have hcount := Multiset.count_le_of_le block.thread hbackLe
  have hshared := Multiset.count_le_of_le block.thread hshare
  have hunits : block.units ≤ Multiset.count block.thread (request block).share :=
    count_share (request block)
  rw [held, outstanding, hshares, hback, Multiset.count_sub, Multiset.count_add]
  omega

/-- A step only adds shares. -/
theorem ownership_shares {sems : ι → Semaphore} {s : ι} {k : ℤ} {x y : Account ι ε}
    {a : Command ι ε × Multiset PUThread} (howned : Owned k (view s x.state) x.back)
    (hmax : (x.state.sems s).limit ≤ intMax) (hstep : (ownership s sems).step x a y) :
    shares (view s x.state).marks ≤ shares (view s y.state).marks := by
  rcases ownership_cases howned hmax hstep with
    ⟨b, n, -, -, -, -, -, hview⟩ | ⟨n, -, -, -, -, -, hview⟩ | ⟨-, -, hview⟩
  · rw [hview]
    exact wait_shares_le _ _
  · obtain ⟨_, -, hshares⟩ := post_shares n (view s x.state)
    rw [hview, hshares]
    exact Multiset.le_add_right _ _
  · rw [hview]

/-- Runs with such a ledger are runs of the library. -/
theorem library_reachable {sems : ι → Semaphore} {s : ι} {x : Account ι ε}
    (h : ((ownership s sems).restrict (HolderGives s)).Reachable x) :
    ((library sems).restrict FreshSet).Reachable x.state := by
  induction h with
  | start hinit => exact .start hinit.1
  | next _ hstep ih => exact ih.next ⟨hstep.1.1, hstep.2.2.1⟩

/-- Between the grant and the return the units stay with the thread. -/
theorem handedOver_reachable {sems : ι → Semaphore} (hsems : SemsReady sems) {s : ι}
    {k limit : ℤ} (hs : sems s = semInit k limit) (hk : 0 ≤ k) (hl : k ≤ limit)
    (hmax : limit ≤ intMax) {x : Account ι ε}
    (h : ((ownership s sems).restrict (HolderGives s)).Reachable x) : HandedOver s x := by
  refine System.Reachable.invariant (I := HandedOver s) ?_ ?_ h
  · rintro x ⟨hstate, -⟩
    refine ⟨⟨fun u block hb => ?_, fun e _ t ht => ?_⟩, fun t ht => ?_⟩
    · simp [hstate, initial, utInit, hsems.waiters_eq u] at hb
    · simp [hstate, initial, utInit, eventInit] at ht
    · simp [hstate, initial, utInit] at ht
  · rintro x a y hx ⟨hsusp, howns⟩ ⟨⟨hset, hgives⟩, hstep⟩
    obtain ⟨loc, hc⟩ := conserved_reachable hsems.waiters_eq (library_reachable hx)
    obtain ⟨howned, hlimit⟩ := owned_reachable hs hk hl hmax hx.of_restrict
    have hshares := ownership_shares howned (hlimit.le.trans hmax) hstep
    obtain ⟨hsusp', hnew⟩ := suspended_next (s := s) hc hsusp hset hstep.2.1
    have hkept : ∀ t ∈ x.state.readyQueue, ∀ n, x.state.context t = .semWait s n →
        n ≤ Multiset.count t (held s y) := by
      intro t ht n hn
      have hold := howns t ht n hn
      have hcount := held_count_le hshares hstep.2.2 (hgives t ht n hn)
      omega
    refine ⟨hsusp', fun t ht n hn => ?_⟩
    by_cases hpost : ∃ units, a.1 = .call (.semPost s units)
    · obtain ⟨units, ha⟩ := hpost
      obtain ⟨-, -, -, hcontext, -, -⟩ := semPost_fields x.state s units
      obtain ⟨served, hserved, hready⟩ := semPost_served x.state s units
      rcases ownership_cases howned (hlimit.le.trans hmax) hstep with
        ⟨b, n, hc, -⟩ | ⟨n', ha', hy, hgive, -, hback, hview⟩ | ⟨hc, -⟩
      · rw [ha] at hc
        cases hc
      · obtain rfl : units = n' := by
          rw [ha] at ha'
          cases ha'
          rfl
        rw [hy, hcontext] at hn
        rw [hy, hready, List.mem_append, List.mem_map] at ht
        rcases ht with ht | ⟨block, hb, rfl⟩
        · exact hkept t ht n hn
        · have hframe := hsusp.sems s block (hserved ▸ List.mem_append_left _ hb)
          rw [hframe] at hn
          injection hn with _ hn
          subst hn
          rw [← hy] at hserved
          exact served_owns howned hgive hback hview hserved hb
      · exact absurd ha (hc units).2
    · obtain ⟨htq, hctx⟩ := hnew (fun units ha => hpost ⟨units, ha⟩) t ht n hn
      exact hkept t htq n hctx

omit [DecidableEq ι] [DecidableEq ε] in
/-- A user thread that is extracted comes from the ready queue. -/
theorem extracted_ready {σ : State ι ε} (hmain : σ.mainThread = some .main) {b : ℕ}
    (hb : (extractNextThread σ).1 = some (.user b)) : .user b ∈ σ.readyQueue := by
  unfold extractNextThread at hb
  cases hq : σ.readyQueue with
  | nil => simp [hq, hmain] at hb
  | cons t rest =>
    simp only [hq, Option.some.injEq] at hb
    simp [hb]

/-- A call keeps its caller running, or the processor goes to a ready thread. -/
theorem running_perform {σ : State ι ε} {c : Call ι ε} {b b' : ℕ}
    (hr : σ.runningThread = some (.user b)) (hmain : σ.mainThread = some .main)
    (hb : (perform c σ).runningThread = some (.user b')) :
    (∀ s n, c = .semWait s n → ¬((σ.sems s).waiters = [] ∧ (σ.sems s).units ≥ n) →
      .user b' ∈ σ.readyQueue) ∧
    (b' = b ∨ PUThread.user b' ∈ σ.readyQueue) := by
  have hsched : ∀ (frame : Frame ι ε) (σ₁ : State ι ε), σ₁.mainThread = some .main →
      (schedule frame σ₁).runningThread = some (.user b') → .user b' ∈ σ₁.readyQueue := by
    intro frame σ₁ hm h
    rw [(schedule_fields σ₁ frame).2.1] at h
    exact extracted_ready hm h
  have hsame : σ.runningThread = some (.user b') → b' = b := by
    intro h
    rw [hr] at h
    cases h
    rfl
  cases c with
  | utCreate => exact ⟨by simp, .inl (hsame hb)⟩
  | utYield =>
    refine ⟨by simp, ?_⟩
    rw [perform, utYield_eq hr] at hb
    split at hb
    · exact .inl (hsame hb)
    · rcases List.mem_append.mp (hsched _ _ (by exact hmain) hb) with hmem | hmem
      · exact .inr hmem
      · exact .inl (PUThread.user.inj (List.mem_singleton.mp hmem))
  | utExit =>
    refine ⟨by simp, .inr ?_⟩
    rw [perform, (utExit_fields σ hr).2.1] at hb
    exact extracted_ready hmain hb
  | semWait s n =>
    simp only [perform, semWait, hr] at hb
    split at hb
    next hc =>
      refine ⟨?_, .inl (hsame hb)⟩
      intro s' n' h hn
      cases h
      exact absurd hc hn
    next =>
      have hmem := hsched _ _ (by exact hmain) hb
      exact ⟨fun _ _ _ _ => hmem, .inr hmem⟩
  | semPost s n =>
    rw [perform, (semPost_fields σ s n).1] at hb
    exact ⟨by simp, .inl (hsame hb)⟩
  | eventWait e =>
    refine ⟨by simp, ?_⟩
    simp only [perform, eventWait, hr] at hb
    split at hb
    · have hmem := hsched _ _ (by exact hmain) hb
      exact .inr hmem
    · exact .inl (hsame hb)
  | eventSet e =>
    obtain ⟨-, hrun, -⟩ := eventSet_fields e σ
    rw [perform, hrun] at hb
    exact ⟨by simp, .inl (hsame hb)⟩

/-- A step keeps the running user thread, or the processor goes to a ready one. -/
theorem running_next {σ σ' : State ι ε} {loc : PUThread → Option (Place ι ε)}
    {c : Command ι ε} (hc : Conserved σ loc) (hstep : next σ c = some σ') {b : ℕ}
    (hb : σ'.runningThread = some (.user b)) :
    σ.runningThread = some (.user b) ∨ PUThread.user b ∈ σ.readyQueue := by
  cases c with
  | create b' =>
    obtain ⟨-, -, rfl⟩ := next_create hstep
    exact .inl hb
  | enterRun =>
    obtain ⟨-, rfl | rfl⟩ := next_enterRun hstep
    · exact .inl hb
    · rw [(schedule_fields _ _).2.1] at hb
      have hmem := extracted_ready (by rfl) hb
      exact .inr hmem
  | leaveRun =>
    obtain ⟨-, -, -, rfl⟩ := next_leaveRun hstep
    cases hb
  | call c =>
    obtain ⟨b', hr, -, rfl⟩ := next_call hstep
    have hmain := hc.inside (by simp [hr])
    rcases (running_perform hr hmain hb).2 with rfl | h
    · exact .inl hr
    · exact .inr h

/-- A thread that returns from `sem_wait` owns the units it asked for. -/
theorem return_owns {sems : ι → Semaphore} (hsems : SemsReady sems) {s : ι}
    {k limit : ℤ} (hs : sems s = semInit k limit) (hk : 0 ≤ k) (hl : k ≤ limit)
    (hmax : limit ≤ intMax) {x y : Account ι ε} {a : Command ι ε × Multiset PUThread}
    (h : ((ownership s sems).restrict (HolderGives s)).Reachable x)
    (hstep : ((ownership s sems).restrict (HolderGives s)).step x a y) {b : ℕ} {n : ℤ}
    (hret : ReturnsFromWait s x.state a.1 y.state b n) :
    n ≤ Multiset.count (.user b) (held s y) := by
  obtain ⟨loc, hc⟩ := conserved_reachable hsems.waiters_eq (library_reachable h)
  obtain ⟨howned, hlimit⟩ := owned_reachable hs hk hl hmax h.of_restrict
  obtain ⟨hrun, ⟨ha, hr⟩ | ⟨hr, hctx⟩⟩ := hret
  · have hnext := hstep.2.2.1
    rw [ha] at hnext
    have hmain := hc.inside (by simp [hr])
    obtain ⟨-, hr', -, hy⟩ := next_call hnext
    have hnot := (not_linked hc.placed (caller_running hc hr)).1
    have hfast : (x.state.sems s).waiters = [] ∧ (x.state.sems s).units ≥ n := by
      by_contra hslow
      rw [hy] at hrun
      exact hnot ((running_perform hr hmain hrun).1 s n rfl hslow)
    rcases ownership_cases howned (hlimit.le.trans hmax) hstep.2 with
      ⟨b', n', ha', hr', -, hback, hn, hview⟩ | ⟨n', ha', -⟩ | ⟨hno, hback, hview⟩
    · rw [ha] at ha'
      cases ha'
      obtain rfl : b' = b := by simpa [hr'] using hr
      have hshares := wait_taken_shares (s := view s x.state) (r := ⟨.user b', n⟩)
        ⟨by simp [view, hfast.1], hfast.2⟩
      have hpaid := Multiset.count_le_of_le (.user b') howned.backLe
      have hshare := count_share ⟨.user b', n⟩
      dsimp only at hshare
      rw [held, outstanding, hview, hshares, hback, Multiset.count_sub, Multiset.count_add]
      omega
    · rw [ha] at ha'
      cases ha'
    · exact absurd ha (hno n).1
  · have hready := (running_next hc hstep.2.2.1 hrun).resolve_left hr
    have howns := (handedOver_reachable hsems hs hk hl hmax h).owns _ hready n hctx
    have hshares := ownership_shares howned (hlimit.le.trans hmax) hstep.2
    have hcount := held_count_le hshares hstep.2.2.2 (hstep.1.2 _ hready n hctx)
    omega

omit [DecidableEq ι] in
/-- The bounds that `sem_init` was given. -/
theorem semsReady_bounds {sems : ι → Semaphore} (hsems : SemsReady sems) {s : ι} {k limit : ℤ}
    (hs : sems s = semInit k limit) : 0 ≤ k ∧ k ≤ limit ∧ limit ≤ intMax := by
  obtain ⟨units, bound, hinit, hbounds⟩ := hsems s
  rw [hs] at hinit
  cases hinit
  exact hbounds

/-- Ownership of the units of a semaphore set up by `sem_init(s, k, limit)`,
when posts give back only units that were granted and not yet given back. In
every reachable state the units available and those outstanding add up to `k`,
where a request is outstanding from its grant on; no post lost a unit at the
limit; at most `k` units are held, by one thread when `k = 1`. A post may give
back units for another thread, but for the last part only those of a holder
that has returned from its `sem_wait`: whoever gives back its own units has.
Then a thread that was granted units and is only ready owns them, and so does
every thread when it returns from `sem_wait`. -/
theorem semaphore_unit_ownership {sems : ι → Semaphore} (hsems : SemsReady sems) {s : ι}
    {k limit : ℤ} (hs : sems s = semInit k limit) :
    (∀ x : Account ι ε, (ownership s sems).Reachable x →
      (x.state.sems s).units + Multiset.card (held s x) = k ∧
      (∀ p ∈ posts (view s x.state).marks, p.2 = p.1) ∧
      (Multiset.card (held s x) : ℤ) ≤ k ∧
      (k = 1 → ∀ t ∈ held s x, ∀ u ∈ held s x, t = u)) ∧
    ∀ x : Account ι ε, ((ownership s sems).restrict (HolderGives s)).Reachable x →
      (∀ t ∈ x.state.readyQueue, ∀ n, x.state.context t = .semWait s n →
        n ≤ Multiset.count t (held s x)) ∧
      ∀ a y, ((ownership s sems).restrict (HolderGives s)).step x a y →
        ∀ b n, ReturnsFromWait s x.state a.1 y.state b n →
          n ≤ Multiset.count (.user b) (held s y) := by
  obtain ⟨hk, hl, hmax⟩ := semsReady_bounds hsems hs
  refine ⟨fun x h => ?_, fun x h => ⟨?_, fun a y hstep b n hret => ?_⟩⟩
  · obtain ⟨howned, -⟩ := owned_reachable hs hk hl hmax h
    have hlower : 0 ≤ (x.state.sems s).units := howned.lower
    have hconserved : (x.state.sems s).units + Multiset.card (held s x) = k :=
      owned_conserved howned
    refine ⟨hconserved, howned.unclamped, by omega, fun hone t ht u hu => ?_⟩
    have hpos := Multiset.card_pos_iff_exists_mem.mpr ⟨t, ht⟩
    obtain ⟨owner, howner⟩ := Multiset.card_eq_one.mp (by omega : Multiset.card (held s x) = 1)
    rw [howner, Multiset.mem_singleton] at ht hu
    rw [ht, hu]
  · exact (handedOver_reachable hsems hs hk hl hmax h).owns
  · exact return_owns hsems hs hk hl hmax h hstep hret

/-- A lock handed over: the thread granted by `sem_post` owns the unit while it
is still only ready. -/
theorem semaphore_unit_ownership_handed_over :
    ∃ x : Account Unit Empty, x.state.readyQueue = [.user 1] ∧
      x.state.runningThread = some (.user 0) ∧
      (x.state.sems ()).units + Multiset.card (held () x) = 1 ∧
      1 ≤ Multiset.count (.user 1) (held () x) := by
  let sems : Unit → Semaphore := fun _ => semInit 1 1
  have hsems : SemsReady sems := fun _ => ⟨1, 1, rfl, by decide, by decide, by decide⟩
  have hinit : sems () = semInit 1 1 := rfl
  have hstart : ((ownership () sems).restrict (HolderGives ())).Reachable
      (⟨initial sems, 0⟩ : Account Unit Empty) := .start ⟨rfl, rfl⟩
  have hnothing : ∀ x : Account Unit Empty, ∀ t ∈ x.state.readyQueue, ∀ n,
      x.state.context t = .semWait () n → t ∉ (0 : Multiset PUThread) :=
    fun _ t _ _ _ => Multiset.notMem_zero t
  have hcreated := ((hstart.next (a := (Command.create 0, 0)) (t := ⟨_, 0⟩)
    ⟨⟨trivial, hnothing _⟩, rfl, rfl, rfl⟩).next (a := (Command.create 1, 0)) (t := ⟨_, 0⟩)
    ⟨⟨trivial, hnothing _⟩, rfl, rfl, rfl⟩).next (a := (Command.enterRun, 0)) (t := ⟨_, 0⟩)
    ⟨⟨trivial, hnothing _⟩, rfl, rfl, rfl⟩
  have htaken := hcreated.next (a := (Command.call (.semWait () 1), 0)) (t := ⟨_, 0⟩)
    ⟨⟨trivial, hnothing _⟩, ⟨fun _ => by decide, rfl⟩, rfl, rfl⟩
  have hyielded := htaken.next (a := (Command.call .utYield, 0)) (t := ⟨_, 0⟩)
    ⟨⟨trivial, hnothing _⟩, rfl, rfl, rfl⟩
  have hblocked := hyielded.next (a := (Command.call (.semWait () 1), 0)) (t := ⟨_, 0⟩)
    ⟨⟨trivial, hnothing _⟩, ⟨fun _ => by decide, rfl⟩, rfl, rfl⟩
  have hposted := hblocked.next (a := (Command.call (.semPost () 1), {.user 0}))
    (t := ⟨_, {.user 0}⟩)
    ⟨⟨trivial, fun t ht => absurd ht (List.not_mem_nil)⟩, ⟨by decide, rfl⟩, rfl, rfl⟩
  have hunits := (semaphore_unit_ownership (s := ()) hsems hinit).1 _ hposted.of_restrict
  have howns := (semaphore_unit_ownership (s := ()) hsems hinit).2 _ hposted
  have hone := howns.1 (.user 1) (by decide) 1 rfl
  exact ⟨_, rfl, rfl, hunits.1, by exact_mod_cast hone⟩

end SistemasOperativos.UThreadOwnership
