import SistemasOperativos.Census
import SistemasOperativos.ExclusiveLock
import SistemasOperativos.MachineInt
import SistemasOperativos.TransitionRuns

/-!
# Threads that count under a lock

Each round sets the counter to zero, creates the threads and joins them. A thread
reads the counter, adds one and writes it back, with the lock in its hands. At the
end of a round the counter has to be the number of all iterations.
-/

namespace SistemasOperativos.Races

open TransitionRuns ExclusiveLock MachineInt

variable {n niters : ℕ} {σ : Type*}

/-- Where a thread stands in `oper_func`, with its `i` and `aux`. -/
inductive ThreadPc
  | absent
  /-- The test of the loop. -/
  | testing (i : ℕ)
  /-- `sem_wait` or `pthread_mutex_lock`. -/
  | acquiring (i : ℕ)
  /-- `aux = total`. -/
  | loading (i : ℕ)
  /-- `aux = aux+1`. -/
  | adding (i : ℕ) (aux : ℤ)
  /-- `total = aux`. -/
  | storing (i : ℕ) (aux : ℤ)
  /-- `sem_post` or `pthread_mutex_unlock`. -/
  | releasing (i : ℕ)
  | returned
  deriving DecidableEq, Repr

/-- Where `main` stands in its loop. -/
inductive MainPc
  /-- `total=0`. -/
  | zeroing
  /-- The loop of `pthread_create`. -/
  | creating (i : ℕ)
  /-- The loop of `pthread_join`. -/
  | joining (i : ℕ)
  | asserting
  /-- The assertion failed. -/
  | aborted
  deriving DecidableEq, Repr

/-- The counter, the lock and the threads, with the number of rounds that are over. -/
structure State (σ : Type*) (n : ℕ) where
  total : ℤ
  lock : σ
  main : MainPc
  thread : Fin n → ThreadPc
  rounds : ℕ

/-- Who makes the next step. -/
inductive Action (n : ℕ)
  | main
  | thread (i : Fin n)
  deriving DecidableEq, Repr

/-- A thread moves on. -/
def State.goto (s : State σ n) (i : Fin n) (q : ThreadPc) : State σ n :=
  { s with thread := Function.update s.thread i q }

/-- One statement of `main`. -/
def State.runMain (niters : ℕ) (s : State σ n) : Option (State σ n) :=
  match s.main with
  | .zeroing => some { s with total := 0, main := .creating 0 }
  | .creating i =>
    if h : i < n then some ({ s with main := .creating (i + 1) }.goto ⟨i, h⟩ (.testing 0))
    else some { s with main := .joining 0 }
  | .joining i =>
    if h : i < n then
      if s.thread ⟨i, h⟩ = .returned then some { s with main := .joining (i + 1) } else none
    else some { s with main := .asserting }
  | .asserting =>
    some { s with
      main := if s.total = int32 (niters * n) then .zeroing else .aborted
      rounds := s.rounds + 1 }
  | .aborted => none

/-- One statement of a thread. -/
def State.runThread (L : Lock σ (Fin n)) (niters : ℕ) (s : State σ n) (i : Fin n) :
    Option (State σ n) :=
  match s.thread i with
  | .absent => none
  | .testing k => some (s.goto i (if k < niters then .acquiring k else .returned))
  | .acquiring k => (L.acquire s.lock i).map fun m => { s with lock := m }.goto i (.loading k)
  | .loading k => some (s.goto i (.adding k s.total))
  | .adding k aux => some (s.goto i (.storing k (int32 (aux + 1))))
  | .storing k aux => some ({ s with total := aux }.goto i (.releasing k))
  | .releasing k => (L.release s.lock i).map fun m => { s with lock := m }.goto i (.testing (k + 1))
  | .returned => none

/-- One step. -/
def State.next (L : Lock σ (Fin n)) (niters : ℕ) (s : State σ n) : Action n → Option (State σ n)
  | .main => s.runMain niters
  | .thread i => s.runThread L niters i

/-- When `main` enters its loop. -/
def initial (L : Lock σ (Fin n)) : State σ n := ⟨0, L.new, .zeroing, fun _ => .absent, 0⟩

/-- All runs of the program with a lock. -/
def program (L : Lock σ (Fin n)) (niters : ℕ) : System (State σ n) (Action n) :=
  ofNext (fun s => s = initial L) (State.next L niters)

/-- Between the two calls of the lock. -/
def ThreadPc.Inside : ThreadPc → Prop
  | .loading _ | .adding .. | .storing .. | .releasing _ => True
  | .absent | .testing _ | .acquiring _ | .returned => False

/-- In its loop a thread has made fewer iterations than it is to make. -/
def ThreadPc.Within (niters : ℕ) : ThreadPc → Prop
  | .testing k => k ≤ niters
  | .acquiring k | .loading k | .adding k _ | .storing k _ | .releasing k => k < niters
  | .absent | .returned => True

/-- The iterations that are in the counter. -/
def ThreadPc.count (niters : ℕ) : ThreadPc → ℕ
  | .absent => 0
  | .testing k | .acquiring k | .loading k | .adding k _ | .storing k _ => k
  | .releasing k => k + 1
  | .returned => niters

/-- What a thread read is still in the counter. -/
def ThreadPc.Carries (total : ℤ) : ThreadPc → Prop
  | .adding _ aux => aux = total
  | .storing _ aux => aux = int32 (total + 1)
  | .absent | .testing _ | .acquiring _ | .loading _ | .releasing _ | .returned => True

/-- The thread was created in this round. -/
def MainPc.Created : MainPc → ℕ → Prop
  | .zeroing, _ => False
  | .creating j, i => i < j
  | .joining _, _ | .asserting, _ | .aborted, _ => True

instance (q : MainPc) (i : ℕ) : Decidable (q.Created i) :=
  match q with
  | .zeroing => .isFalse id
  | .creating j => inferInstanceAs (Decidable (i < j))
  | .joining _ | .asserting | .aborted => .isTrue trivial

/-- The thread was joined in this round. -/
def MainPc.Joined : MainPc → ℕ → Prop
  | .zeroing, _ | .creating _, _ => False
  | .joining j, i => i < j
  | .asserting, _ | .aborted, _ => True

/-- The iterations of a thread that are in the counter of this round. -/
def State.counted (niters : ℕ) (s : State σ n) (i : Fin n) : ℕ :=
  if s.main.Created i then (s.thread i).count niters else 0

/-- What holds of the program in every run. -/
structure Inv (Shows : σ → Option (Fin n) → Prop) (niters : ℕ) (s : State σ n) : Prop where
  /-- The lock shows the thread inside. -/
  owner : ∃ o, Shows s.lock o ∧ ∀ i, (s.thread i).Inside ↔ o = some i
  within : ∀ i, (s.thread i).Within niters
  carries : ∀ i, (s.thread i).Carries s.total
  /-- Threads that are left from the round before have returned. -/
  idle : ∀ i : Fin n, ¬ s.main.Created i → s.thread i = .absent ∨ s.thread i = .returned
  created : ∀ i : Fin n, s.main.Created i → s.thread i ≠ .absent
  joined : ∀ i : Fin n, s.main.Joined i → s.thread i = .returned
  /-- The counter counts the iterations of this round. -/
  counts : s.main ≠ .zeroing → s.total = int32 (∑ i, s.counted niters i : ℕ)
  holds : s.main ≠ .aborted

section Threads

variable {Shows : σ → Option (Fin n) → Prop} {s : State σ n} {i : Fin n}

/-- Who is inside does not carry anything that another thread has. -/
theorem carries_of_outside {q : ThreadPc} (hq : ¬ q.Inside) (total : ℤ) : q.Carries total := by
  cases q <;> simp_all [ThreadPc.Carries, ThreadPc.Inside]

/-- A thread moves on. -/
theorem Inv.move (h : Inv Shows niters s) {q : ThreadPc} {m : σ} {total : ℤ} {d : ℕ}
    (hactive : s.thread i ≠ .absent ∧ s.thread i ≠ .returned)
    (howner : ∃ o, Shows m o ∧ ∀ j, (Function.update s.thread i q j).Inside ↔ o = some j)
    (hwithin : q.Within niters) (hpresent : q ≠ .absent) (hcarries : q.Carries total)
    (hothers : ∀ j, j ≠ i → (s.thread j).Carries total)
    (hcount : q.count niters = (s.thread i).count niters + d)
    (htotal : ∀ c : ℤ, s.total = int32 c → total = int32 (c + d)) :
    Inv Shows niters ({ s with lock := m, total := total }.goto i q) := by
  have hmade : s.main.Created i := by
    by_contra hnot
    rcases h.idle i hnot with hpc | hpc
    · exact hactive.1 hpc
    · exact hactive.2 hpc
  have hself : ({ s with lock := m, total := total }.goto i q).thread i = q :=
    Function.update_self _ _ _
  have hother : ∀ j, j ≠ i →
      ({ s with lock := m, total := total }.goto i q).thread j = s.thread j :=
    fun j hj => Function.update_of_ne hj _ _
  refine ⟨howner, fun j => ?_, fun j => ?_, fun j hj => ?_, fun j hj => ?_, fun j hj => ?_,
    fun hmain => ?_, h.holds⟩
  · rcases eq_or_ne j i with rfl | hne
    · rwa [hself]
    · rw [hother j hne]
      exact h.within j
  · rcases eq_or_ne j i with rfl | hne
    · rwa [hself]
    · rw [hother j hne]
      exact hothers j hne
  · have hne : j ≠ i := fun he => hj (he ▸ hmade)
    rw [hother j hne]
    exact h.idle j hj
  · rcases eq_or_ne j i with rfl | hne
    · rwa [hself]
    · rw [hother j hne]
      exact h.created j hj
  · have hne : j ≠ i := fun he => hactive.2 (he ▸ h.joined j hj)
    rw [hother j hne]
    exact h.joined j hj
  · have hsum : (∑ j, ({ s with lock := m, total := total }.goto i q).counted niters j) =
        (∑ j, s.counted niters j) + d := by
      refine Census.sum_added i ?_ fun j hj => ?_
      · show (if s.main.Created i then (Function.update s.thread i q i).count niters else 0) = _
        rw [Function.update_self, if_pos hmade, State.counted, if_pos hmade, hcount]
      · show (if s.main.Created j then (Function.update s.thread i q j).count niters else 0) = _
        rw [Function.update_of_ne hj]
        rfl
    rw [hsum, Nat.cast_add]
    exact htotal _ (h.counts hmain)

/-- A thread goes on without the counter and the lock. -/
theorem Inv.advance (h : Inv Shows niters s) {q : ThreadPc}
    (hactive : s.thread i ≠ .absent ∧ s.thread i ≠ .returned)
    (hinside : q.Inside ↔ (s.thread i).Inside) (hwithin : q.Within niters) (hpresent : q ≠ .absent)
    (hcarries : q.Carries s.total) (hcount : q.count niters = (s.thread i).count niters) :
    Inv Shows niters (s.goto i q) := by
  obtain ⟨o, hshows, howner⟩ := h.owner
  refine h.move (d := 0) hactive ⟨o, hshows, fun j => ?_⟩ hwithin hpresent hcarries
    (fun j _ => h.carries j) hcount fun c hc => by simpa using hc
  rcases eq_or_ne j i with rfl | hne
  · rw [Function.update_self, hinside]
    exact howner j
  · rw [Function.update_of_ne hne]
    exact howner j

/-- Who is inside keeps the others out. -/
theorem Inv.alone (h : Inv Shows niters s) {j : Fin n} (hi : (s.thread i).Inside)
    (hj : (s.thread j).Inside) : j = i := by
  obtain ⟨o, -, howner⟩ := h.owner
  have hboth := ((howner i).mp hi).symm.trans ((howner j).mp hj)
  exact (Option.some.inj hboth).symm

/-- One more than a reduced value, reduced. -/
theorem int32_add_one (c : ℤ) : int32 (int32 c + 1) = int32 (c + 1) := by
  unfold int32
  omega

variable {L : Lock σ (Fin n)} {t : State σ n}

/-- A thread comes in. -/
theorem Inv.acquire (h : Inv Shows niters s) (hL : Excludes L Shows) {k : ℕ}
    (hpc : s.thread i = .acquiring k) {m : σ} (hm : L.acquire s.lock i = some m) :
    Inv Shows niters ({ s with lock := m }.goto i (.loading k)) := by
  obtain ⟨o, hshows, howner⟩ := h.owner
  obtain ⟨rfl, hshows'⟩ := hL.acquire hshows hm
  have hwithin := h.within i
  rw [hpc] at hwithin
  refine h.move (d := 0) (by simp [hpc]) ⟨some i, hshows', fun j => ?_⟩ hwithin
    ThreadPc.noConfusion trivial (fun j _ => h.carries j) (by rw [hpc]; rfl)
    fun c hc => by simpa using hc
  rcases eq_or_ne j i with rfl | hne
  · rw [Function.update_self]
    exact iff_of_true trivial rfl
  · rw [Function.update_of_ne hne, howner j]
    exact iff_of_false (by simp) fun he => hne (Option.some.inj he).symm

/-- A thread goes out. -/
theorem Inv.release (h : Inv Shows niters s) (hL : Excludes L Shows) {k : ℕ}
    (hpc : s.thread i = .releasing k) {m : σ} (hm : L.release s.lock i = some m) :
    Inv Shows niters ({ s with lock := m }.goto i (.testing (k + 1))) := by
  have hin : (s.thread i).Inside := by rw [hpc]; trivial
  obtain ⟨o, hshows, howner⟩ := h.owner
  obtain rfl := (howner i).mp hin
  obtain ⟨m', hm', hshows'⟩ := hL.release hshows
  obtain rfl : m = m' := Option.some.inj (hm.symm.trans hm')
  have hwithin := h.within i
  rw [hpc] at hwithin
  refine h.move (d := 0) (by simp [hpc]) ⟨none, hshows', fun j => ?_⟩ hwithin
    ThreadPc.noConfusion trivial (fun j _ => h.carries j) (by rw [hpc]; rfl)
    fun c hc => by simpa using hc
  rcases eq_or_ne j i with rfl | hne
  · rw [Function.update_self]
    exact iff_of_false id (by simp)
  · rw [Function.update_of_ne hne]
    exact iff_of_false (fun hj => hne (h.alone hin hj)) (by simp)

/-- A thread writes back what it read and added one to, which is still in the counter. -/
theorem Inv.store (h : Inv Shows niters s) {k : ℕ} {aux : ℤ} (hpc : s.thread i = .storing k aux) :
    Inv Shows niters ({ s with total := aux }.goto i (.releasing k)) := by
  have hin : (s.thread i).Inside := by rw [hpc]; trivial
  obtain ⟨o, hshows, howner⟩ := h.owner
  have hwithin := h.within i
  have hcarries := h.carries i
  rw [hpc] at hwithin hcarries
  refine h.move (d := 1) (by simp [hpc]) ⟨o, hshows, fun j => ?_⟩ hwithin ThreadPc.noConfusion
    trivial (fun j hj => ?_) (by rw [hpc]; rfl) fun c hc => ?_
  · rcases eq_or_ne j i with rfl | hne
    · rw [Function.update_self]
      exact iff_of_true trivial ((howner j).mp hin)
    · rw [Function.update_of_ne hne]
      exact howner j
  · exact carries_of_outside (fun hinside => hj (h.alone hin hinside)) aux
  · rw [show aux = int32 (s.total + 1) from hcarries, hc, int32_add_one]
    rfl

/-- Every statement of a thread keeps the invariant. -/
theorem Inv.runThread (h : Inv Shows niters s) (hL : Excludes L Shows)
    (hrun : s.runThread L niters i = some t) : Inv Shows niters t := by
  have hwithin := h.within i
  have hcarries := h.carries i
  unfold State.runThread at hrun
  cases hpc : s.thread i with
  | testing k =>
    simp only [hpc, Option.some.injEq] at hrun
    subst hrun
    rw [hpc] at hwithin
    have hle : k ≤ niters := hwithin
    by_cases hless : k < niters
    · rw [if_pos hless]
      exact h.advance (by simp [hpc]) (by simp [hpc, ThreadPc.Inside]) hless ThreadPc.noConfusion
        trivial (by rw [hpc]; rfl)
    · rw [if_neg hless]
      refine h.advance (by simp [hpc]) (by simp [hpc, ThreadPc.Inside]) trivial
        ThreadPc.noConfusion trivial ?_
      rw [hpc]
      show niters = k
      omega
  | acquiring k =>
    simp only [hpc] at hrun
    obtain ⟨m, hm, rfl⟩ := Option.map_eq_some_iff.mp hrun
    exact h.acquire hL hpc hm
  | loading k =>
    simp only [hpc, Option.some.injEq] at hrun
    subst hrun
    rw [hpc] at hwithin
    exact h.advance (by simp [hpc]) (by simp [hpc, ThreadPc.Inside]) hwithin ThreadPc.noConfusion
      rfl (by rw [hpc]; rfl)
  | adding k aux =>
    simp only [hpc, Option.some.injEq] at hrun
    subst hrun
    rw [hpc] at hwithin hcarries
    have hsame : aux = s.total := hcarries
    exact h.advance (by simp [hpc]) (by simp [hpc, ThreadPc.Inside]) hwithin ThreadPc.noConfusion
      (by rw [hsame]; rfl) (by rw [hpc]; rfl)
  | storing k aux =>
    simp only [hpc, Option.some.injEq] at hrun
    subst hrun
    exact h.store hpc
  | releasing k =>
    simp only [hpc] at hrun
    obtain ⟨m, hm, rfl⟩ := Option.map_eq_some_iff.mp hrun
    exact h.release hL hpc hm
  | absent | returned =>
    simp only [hpc] at hrun
    cases hrun

end Threads

section Rounds

variable {Shows : σ → Option (Fin n) → Prop} {s t : State σ n} {L : Lock σ (Fin n)}

/-- `main` goes on and leaves the threads and the counter. -/
theorem Inv.proceed (h : Inv Shows niters s) {q : MainPc} {r : ℕ}
    (hidle : ∀ i : Fin n, ¬ q.Created i → s.thread i = .absent ∨ s.thread i = .returned)
    (hcreated : ∀ i : Fin n, q.Created i → s.main.Created i)
    (hjoined : ∀ i : Fin n, q.Joined i → s.thread i = .returned)
    (hcounts : q ≠ .zeroing → s.main ≠ .zeroing ∧ ∀ i : Fin n, s.main.Created i → q.Created i)
    (hholds : q ≠ .aborted) : Inv Shows niters { s with main := q, rounds := r } := by
  refine ⟨h.owner, h.within, h.carries, hidle, fun i hi => h.created i (hcreated i hi), hjoined,
    fun hq => ?_, hholds⟩
  obtain ⟨hmain, hsame⟩ := hcounts hq
  refine (h.counts hmain).trans ?_
  congr 2
  refine Finset.sum_congr rfl fun i _ => ?_
  simp only [State.counted, iff_of_eq (propext ⟨hsame i, hcreated i⟩)]

/-- Threads that are left from the round before are outside. -/
theorem Inv.outside (h : Inv Shows niters s) {i : Fin n} (hi : ¬ s.main.Created i) :
    ¬ (s.thread i).Inside := by
  rcases h.idle i hi with hpc | hpc <;> rw [hpc] <;> exact id

/-- A new round starts. -/
theorem Inv.zero (h : Inv Shows niters s) (hmain : s.main = .zeroing) :
    Inv Shows niters { s with total := 0, main := .creating 0 } := by
  have hnot : ∀ i : Fin n, ¬ s.main.Created i := fun i => by rw [hmain]; exact id
  refine ⟨h.owner, h.within, fun i => carries_of_outside (h.outside (hnot i)) 0,
    fun i _ => h.idle i (hnot i), fun i hi => absurd hi (Nat.not_lt_zero _), fun i hi => hi.elim,
    fun _ => ?_, MainPc.noConfusion⟩
  have hnone : ∀ i, State.counted niters { s with total := 0, main := .creating 0 } i = 0 :=
    fun i => if_neg (Nat.not_lt_zero _)
  simp only [hnone, Finset.sum_const_zero]
  rfl

/-- The next thread is created. -/
theorem Inv.create (h : Inv Shows niters s) {i : ℕ} (hmain : s.main = .creating i) (hi : i < n) :
    Inv Shows niters ({ s with main := .creating (i + 1) }.goto ⟨i, hi⟩ (.testing 0)) := by
  have hnot : ¬ s.main.Created i := by rw [hmain]; exact Nat.lt_irrefl i
  have hother : ∀ j : Fin n, j ≠ ⟨i, hi⟩ →
      (MainPc.Created (.creating (i + 1)) j ↔ s.main.Created j) := by
    intro j hj
    have hne : j.val ≠ i := fun he => hj (Fin.ext he)
    rw [hmain]
    simp only [MainPc.Created]
    omega
  obtain ⟨o, hshows, howner⟩ := h.owner
  refine ⟨⟨o, hshows, fun j => ?_⟩, fun j => ?_, fun j => ?_, fun j hj => ?_, fun j hj => ?_,
    fun j hj => hj.elim, fun _ => ?_, MainPc.noConfusion⟩
  · rcases eq_or_ne j ⟨i, hi⟩ with rfl | hne
    · rw [← howner]
      simp only [State.goto, Function.update_self]
      exact iff_of_false id (h.outside hnot)
    · simp only [State.goto, Function.update_of_ne hne]
      exact howner j
  · rcases eq_or_ne j ⟨i, hi⟩ with rfl | hne
    · simp only [State.goto, Function.update_self]
      exact Nat.zero_le niters
    · simp only [State.goto, Function.update_of_ne hne]
      exact h.within j
  · rcases eq_or_ne j ⟨i, hi⟩ with rfl | hne
    · simp only [State.goto, Function.update_self]
      trivial
    · simp only [State.goto, Function.update_of_ne hne]
      exact h.carries j
  · have hne : j ≠ ⟨i, hi⟩ := fun he => hj (he.symm ▸ Nat.lt_succ_self i)
    simp only [State.goto, Function.update_of_ne hne]
    exact h.idle j fun hmade => hj ((hother j hne).mpr hmade)
  · rcases eq_or_ne j ⟨i, hi⟩ with rfl | hne
    · simp only [State.goto, Function.update_self]
      exact ThreadPc.noConfusion
    · simp only [State.goto, Function.update_of_ne hne]
      exact h.created j ((hother j hne).mp hj)
  · refine (h.counts (by rw [hmain]; exact MainPc.noConfusion)).trans ?_
    congr 2
    refine Finset.sum_congr rfl fun j _ => ?_
    rcases eq_or_ne j ⟨i, hi⟩ with rfl | hne
    · simp only [State.counted, State.goto, Function.update_self, if_neg hnot]
      exact (ite_self 0).symm
    · simp only [State.counted, State.goto, Function.update_of_ne hne, hother j hne]

/-- When every thread has returned, the counter is the number of all iterations. -/
theorem Inv.total_eq (h : Inv Shows niters s) (hmain : s.main = .asserting) :
    s.total = int32 (niters * n) := by
  have hall : ∀ i, s.counted niters i = niters := fun i => by
    have hreturned := h.joined i (by rw [hmain]; trivial)
    rw [State.counted, hmain, if_pos (by trivial), hreturned]
    rfl
  have htotal := h.counts (by rw [hmain]; exact MainPc.noConfusion)
  simp only [hall, Finset.sum_const, Finset.card_univ, Fintype.card_fin, smul_eq_mul,
    Nat.cast_mul] at htotal
  rw [htotal, mul_comm]

/-- Every statement of `main` keeps the invariant. -/
theorem Inv.runMain (h : Inv Shows niters s) (hrun : s.runMain niters = some t) :
    Inv Shows niters t := by
  unfold State.runMain at hrun
  cases hmain : s.main with
  | zeroing =>
    simp only [hmain, Option.some.injEq] at hrun
    subst hrun
    exact h.zero hmain
  | creating i =>
    simp only [hmain] at hrun
    split at hrun
    next hi =>
      cases hrun
      exact h.create hmain hi
    next hi =>
      cases hrun
      refine h.proceed (fun _ hnot => absurd trivial hnot) (fun j _ => ?_)
        (fun j hj => absurd hj (Nat.not_lt_zero _)) (fun _ => ?_) MainPc.noConfusion
      · rw [hmain]
        show j.val < i
        omega
      · exact ⟨by rw [hmain]; exact MainPc.noConfusion, fun _ _ => trivial⟩
  | joining i =>
    have hmade : s.main ≠ .zeroing ∧ ∀ j : Fin n, s.main.Created j := by
      rw [hmain]
      exact ⟨MainPc.noConfusion, fun _ => trivial⟩
    have hjoined : ∀ j : Fin n, j.val < i → s.thread j = .returned :=
      fun j hj => h.joined j (by rw [hmain]; exact hj)
    simp only [hmain] at hrun
    split at hrun
    next hi =>
      obtain ⟨hreturned, hnext⟩ := Option.ite_none_right_eq_some.mp hrun
      cases hnext
      refine h.proceed (fun _ hnot => absurd trivial hnot) (fun j _ => hmade.2 j) (fun j hj => ?_)
        (fun _ => ⟨hmade.1, fun _ _ => trivial⟩) MainPc.noConfusion
      have hle : j.val < i + 1 := hj
      rcases eq_or_ne j ⟨i, hi⟩ with rfl | hne
      · exact hreturned
      · have hval : j.val ≠ i := fun he => hne (Fin.ext he)
        exact hjoined j (by omega)
    next hi =>
      cases hrun
      refine h.proceed (fun _ hnot => absurd trivial hnot) (fun j _ => hmade.2 j) (fun j _ => ?_)
        (fun _ => ⟨hmade.1, fun _ _ => trivial⟩) MainPc.noConfusion
      exact hjoined j (by omega)
  | asserting =>
    simp only [hmain, if_pos (h.total_eq hmain), Option.some.injEq] at hrun
    subst hrun
    exact h.proceed (fun i _ => .inr (h.joined i (by rw [hmain]; trivial))) (fun i hi => hi.elim)
      (fun i hi => hi.elim) (fun hne => absurd rfl hne) MainPc.noConfusion
  | aborted =>
    simp only [hmain] at hrun
    cases hrun

/-- A step of the program keeps the invariant. -/
theorem Inv.next (h : Inv Shows niters s) (hL : Excludes L Shows) {a : Action n}
    (hnext : s.next L niters a = some t) : Inv Shows niters t := by
  cases a with
  | main => exact h.runMain hnext
  | thread i => exact h.runThread hL hnext

/-- Every reachable state satisfies the invariant. -/
theorem inv_reachable (hL : Excludes L Shows) (hs : (program L niters).Reachable s) :
    Inv Shows niters s := by
  refine System.Reachable.invariant (I := Inv Shows niters) (fun s hs => ?_)
    (fun s a t _ hI hstep => hI.next hL hstep) hs
  obtain rfl : s = initial L := hs
  exact ⟨⟨none, hL.new, fun i => iff_of_false id (by simp)⟩, fun _ => trivial, fun _ => trivial,
    fun _ _ => .inl rfl, fun _ hi => hi.elim, fun _ hi => hi.elim, fun hne => absurd rfl hne,
    MainPc.noConfusion⟩

end Rounds

end SistemasOperativos.Races
