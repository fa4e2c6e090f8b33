import SistemasOperativos.GreedyService
import SistemasOperativos.UThreadSemaphore

/-!
# Posts near the limit and near the largest int

A post adds its units, cuts the sum at the limit, and then grants the requests
at the head of the list while the units last. The addition comes first and is
one of `int`, so a sum past the largest `int` is negative when it is compared
with the limit. Calls may ask for and post every positive `int`.
-/

namespace SistemasOperativos.UThreadPosts

open TransitionRuns UThread GreedyService

variable {ι ε : Type} [DecidableEq ι]

/-- Calls whose counts are positive values of type `int`. -/
def IntCall (_ : State ι ε) : Command ι ε → Prop
  | .call (.semWait _ n) | .call (.semPost _ n) => 0 < n ∧ n ≤ intMax
  | _ => True

/-- Results within `int` are not changed by wrapping, also negative ones. -/
theorem wrapInt_of_range {x : ℤ} (hlo : -2 ^ 31 ≤ x) (hhi : x ≤ intMax) : wrapInt x = x := by
  unfold intMax at hhi
  unfold wrapInt
  exact Int.bmod_eq_of_le (by omega) (by omega)

/-- A sum of two values of type `int` that is too large wraps to a negative value. -/
theorem wrapInt_of_gt {x : ℤ} (hlo : intMax < x) (hhi : x ≤ 2 * intMax) :
    wrapInt x = x - 2 ^ 32 := by
  unfold intMax at hlo hhi
  unfold wrapInt
  rw [← Int.sub_bmod_right]
  exact Int.bmod_eq_of_le (by omega) (by omega)

/-- What a sequence of calls keeps of a semaphore, whatever the counts. -/
structure CountsHeld (s : ι) (limit : ℤ) (σ : State ι ε) : Prop where
  positive : ∀ block ∈ (σ.sems s).waiters, 0 < block.units
  lower : -2 ^ 31 ≤ (σ.sems s).units
  upper : (σ.sems s).units ≤ limit
  bound : (σ.sems s).limit = limit

/-- The units a post starts to serve with lie in the range of `int`, at most at the limit. -/
theorem clampedUnits_range {limit n : ℤ} {sem : Semaphore} (hlim : sem.limit = limit)
    (h0 : 0 ≤ limit) :
    -2 ^ 31 ≤ clampedUnits sem n ∧ clampedUnits sem n ≤ limit := by
  have hlo : -2 ^ 31 ≤ wrapInt (sem.units + n) := Int.le_bmod (by decide)
  unfold clampedUnits
  split <;> omega

/-- Without overflow the units are the sum, cut at the limit. -/
theorem clampedUnits_of_fits {n : ℤ} {sem : Semaphore} (hlo : -2 ^ 31 ≤ sem.units) (hn : 0 < n)
    (hfits : sem.units + n ≤ intMax) : clampedUnits sem n = min (sem.units + n) sem.limit := by
  rw [clampedUnits, wrapInt_of_range (by omega) hfits]
  split <;> omega

/-- With overflow they are negative, and the limit does not come into it. -/
theorem clampedUnits_of_overflow {n : ℤ} {sem : Semaphore} (hup : sem.units ≤ intMax)
    (hn : n ≤ intMax) (h0 : 0 ≤ sem.limit) (hover : intMax < sem.units + n) :
    clampedUnits sem n < 0 := by
  have hwrap := wrapInt_of_gt hover (by omega)
  have hneg : wrapInt (sem.units + n) < 0 := by
    unfold intMax at hup hn
    omega
  rw [clampedUnits, if_neg (by omega)]
  exact hneg

/-- One round of the loop pays the request at the head and readies its thread. -/
theorem semPostLoop_grant {s : ι} {block : SemWaitBlock} {rest : List SemWaitBlock}
    {σ : State ι ε} (hpos : 0 < block.units) (hle : block.units ≤ (σ.sems s).units)
    (hup : (σ.sems s).units ≤ intMax) :
    ∃ σ' : State ι ε, semPostLoop s (block :: rest) σ = semPostLoop s rest σ' ∧
      σ'.sems s = ⟨rest, (σ.sems s).units - block.units, (σ.sems s).limit⟩ ∧
      σ'.readyQueue = σ.readyQueue ++ [block.thread] := by
  have hwrap : wrapInt ((σ.sems s).units - block.units) = (σ.sems s).units - block.units :=
    wrapInt_eq (by omega) (by omega)
  rw [semPostLoop, if_pos (by omega), if_neg (by omega)]
  refine ⟨_, rfl, ?_, rfl⟩
  simp [utActivate, insertReady, record, setSem, hwrap]

/-- The loop stops at a head that asks for more than there is. -/
theorem semPostLoop_stop {s : ι} {block : SemWaitBlock} {rest : List SemWaitBlock}
    {σ : State ι ε} (hlt : (σ.sems s).units < block.units) :
    semPostLoop s (block :: rest) σ = σ := by
  rw [semPostLoop, if_pos hlt, ite_self]

/-- The loop of `sem_post` grants what the units pay for. -/
theorem semPostLoop_greedy (s : ι) (blocks : List SemWaitBlock) :
    ∀ σ : State ι ε, (∀ block ∈ blocks, 0 < block.units) → (σ.sems s).waiters = blocks →
      (σ.sems s).units ≤ intMax →
      (semPostLoop s blocks σ).sems s =
          ⟨unserved SemWaitBlock.units (σ.sems s).units blocks, (σ.sems s).units -
            total SemWaitBlock.units (served SemWaitBlock.units (σ.sems s).units blocks),
            (σ.sems s).limit⟩ ∧
        (semPostLoop s blocks σ).readyQueue = σ.readyQueue ++
          (served SemWaitBlock.units (σ.sems s).units blocks).map SemWaitBlock.thread := by
  induction blocks with
  | nil =>
    intro σ _ hw _
    refine ⟨?_, by simp [semPostLoop, served]⟩
    rw [semPostLoop, served, total_nil, sub_zero]
    exact congrArg (Semaphore.mk · _ _) hw
  | cons block rest ih =>
    intro σ hpos hw hup
    have hblock := hpos block List.mem_cons_self
    have hrest : ∀ b ∈ rest, 0 < b.units := fun b hb => hpos b (List.mem_cons_of_mem _ hb)
    by_cases hle : block.units ≤ (σ.sems s).units
    · obtain ⟨σ', hloop, hsem, hready⟩ := semPostLoop_grant hblock hle hup
      have hnext := ih σ' hrest (by rw [hsem]) (by rw [hsem]; simp only; omega)
      rw [hloop, hnext.1, hnext.2, hsem, hready, unserved_cons_of_le hle, served_cons_of_le hle,
        total_cons, sub_sub, List.map_cons, List.append_assoc, List.singleton_append]
      exact ⟨rfl, rfl⟩
    · have hlt := not_le.mp hle
      rw [semPostLoop_stop hlt, unserved_cons_of_lt hlt, served_cons_of_lt hlt, ← hw, total_nil,
        sub_zero, List.map_nil, List.append_nil]
      exact ⟨rfl, rfl⟩

/-- A post grants what the clamped units pay for. -/
theorem semPost_greedy {s : ι} {n : ℤ} {σ : State ι ε}
    (hpos : ∀ block ∈ (σ.sems s).waiters, 0 < block.units)
    (hup : clampedUnits (σ.sems s) n ≤ intMax) :
    (semPost s n σ).sems s =
        ⟨unserved SemWaitBlock.units (clampedUnits (σ.sems s) n) (σ.sems s).waiters,
          clampedUnits (σ.sems s) n - total SemWaitBlock.units
            (served SemWaitBlock.units (clampedUnits (σ.sems s) n) (σ.sems s).waiters),
          (σ.sems s).limit⟩ ∧
      (semPost s n σ).readyQueue = σ.readyQueue ++
        (served SemWaitBlock.units (clampedUnits (σ.sems s) n) (σ.sems s).waiters).map
          SemWaitBlock.thread := by
  have hgreedy := semPostLoop_greedy s (σ.sems s).waiters
    (record (.posted s σ.runningThread n (clampedUnits (σ.sems s) n - (σ.sems s).units))
      (setSem s { σ.sems s with units := clampedUnits (σ.sems s) n } σ)) hpos
    (by simp [record, setSem]) (by simpa [record, setSem] using hup)
  simpa [semPost, record, setSem] using hgreedy

/-- A wait takes its units at once, or queues its request. -/
theorem semWait_sem {s : ι} {n : ℤ} {t : PUThread} {σ : State ι ε}
    (hr : σ.runningThread = some t) (hn : 0 < n) (hup : (σ.sems s).units ≤ intMax) :
    ((σ.sems s).waiters = [] ∧ n ≤ (σ.sems s).units ∧
      (semWait s n σ).sems s = ⟨[], (σ.sems s).units - n, (σ.sems s).limit⟩) ∨
    (semWait s n σ).sems s =
      ⟨(σ.sems s).waiters ++ [⟨t, n⟩], (σ.sems s).units, (σ.sems s).limit⟩ := by
  by_cases hc : (σ.sems s).waiters = [] ∧ (σ.sems s).units ≥ n
  · have hwrap : wrapInt ((σ.sems s).units - n) = (σ.sems s).units - n :=
      wrapInt_eq (by omega) (by omega)
    refine .inl ⟨hc.1, hc.2, ?_⟩
    simp [semWait, hr, hc, record, setSem, hwrap]
  · refine .inr ?_
    simp [semWait, hr, hc, record, setSem, utDeactivate]

/-- Calls that leave the view of a semaphore alone leave its counts alone. -/
theorem CountsHeld.of_view {s : ι} {limit : ℤ} {σ σ' : State ι ε} (h : CountsHeld s limit σ)
    (hview : UThreadSemaphore.view s σ' = UThreadSemaphore.view s σ) : CountsHeld s limit σ' := by
  have hunits : (σ'.sems s).units = (σ.sems s).units := congrArg FifoSemaphore.Sem.units hview
  have hlimit : (σ'.sems s).limit = (σ.sems s).limit := congrArg FifoSemaphore.Sem.limit hview
  have hwaiters : (σ'.sems s).waiters.map UThreadSemaphore.request =
      (σ.sems s).waiters.map UThreadSemaphore.request :=
    congrArg FifoSemaphore.Sem.waiters hview
  refine ⟨fun block hb => ?_, hunits ▸ h.lower, hunits ▸ h.upper, hlimit ▸ h.bound⟩
  have hmem := List.mem_map_of_mem (f := UThreadSemaphore.request) hb
  rw [hwaiters] at hmem
  obtain ⟨block', hb', heq⟩ := List.mem_map.mp hmem
  have hsame : block'.units = block.units := congrArg FifoSemaphore.Request.units heq
  exact hsame ▸ h.positive block' hb'

/-- A wait keeps the counts. -/
theorem CountsHeld.semWait {s : ι} {limit n : ℤ} {t : PUThread} {σ : State ι ε}
    (h : CountsHeld s limit σ) (hmax : limit ≤ intMax) (hr : σ.runningThread = some t)
    (hn : 0 < n) : CountsHeld s limit (UThread.semWait s n σ) := by
  have hlo := h.lower
  have hup := h.upper
  rcases semWait_sem hr hn (hup.trans hmax) with ⟨hnil, hle, hsem⟩ | hsem
  · refine ⟨by simp [hsem], ?_, ?_, by rw [hsem]; exact h.bound⟩
    · rw [hsem]
      simp only
      omega
    · rw [hsem]
      simp only
      omega
  · refine ⟨fun block hb => ?_, by rwa [hsem], by rwa [hsem], by rw [hsem]; exact h.bound⟩
    rw [hsem] at hb
    rcases List.mem_append.mp hb with hb | hb
    · exact h.positive block hb
    · rw [List.mem_singleton.mp hb]
      exact hn

/-- A post keeps the counts, also when its addition overflows. -/
theorem CountsHeld.semPost {s : ι} {limit n : ℤ} {σ : State ι ε} (h : CountsHeld s limit σ)
    (h0 : 0 ≤ limit) (hmax : limit ≤ intMax) : CountsHeld s limit (UThread.semPost s n σ) := by
  obtain ⟨hlo, hup⟩ := clampedUnits_range (n := n) h.bound h0
  have hsem := (semPost_greedy h.positive (hup.trans hmax)).1
  obtain ⟨hleft, hleft'⟩ := left_range (c := clampedUnits (σ.sems s) n) h.positive
  refine ⟨fun block hb => ?_, ?_, ?_, by rw [hsem]; exact h.bound⟩
  · rw [hsem] at hb
    exact h.positive block (List.mem_of_mem_drop hb)
  · rw [hsem]
    simp only
    omega
  · rw [hsem]
    exact hleft'.trans hup

variable [DecidableEq ε]

/-- Every step of the library keeps the counts. -/
theorem countsHeld_next {s : ι} {limit : ℤ} {σ σ' : State ι ε} {c : Command ι ε}
    (h : CountsHeld s limit σ) (h0 : 0 ≤ limit) (hmax : limit ≤ intMax) (hc : IntCall σ c)
    (hstep : next σ c = some σ') : CountsHeld s limit σ' := by
  rcases UThreadSemaphore.view_next (s := s) hstep with
    ⟨b, n, rfl, hr, rfl⟩ | ⟨b, n, rfl, -, rfl⟩ | ⟨-, hview⟩
  · exact h.semWait hmax hr hc.1
  · exact h.semPost h0 hmax
  · exact h.of_view hview

omit [DecidableEq ι] [DecidableEq ε] in
theorem countsHeld_initial {sems : ι → Semaphore} {s : ι} {k limit : ℤ}
    (hs : sems s = semInit k limit) (hk : 0 ≤ k) (hl : k ≤ limit) :
    CountsHeld s limit (initial sems : State ι ε) := by
  have hsem : (initial sems : State ι ε).sems s = semInit k limit := hs
  refine ⟨by simp [hsem, semInit], ?_, ?_, ?_⟩ <;> rw [hsem] <;> simp only [semInit] <;> omega

/-- The counts of a semaphore along every run with counts of type `int`. -/
theorem countsHeld_reachable {sems : ι → Semaphore} {s : ι} {k limit : ℤ}
    (hs : sems s = semInit k limit) (hk : 0 ≤ k) (hl : k ≤ limit) (hmax : limit ≤ intMax)
    {σ : State ι ε} (h : ((library sems).restrict IntCall).Reachable σ) :
    CountsHeld s limit σ := by
  refine System.Reachable.invariant ?_ ?_ h
  · rintro σ rfl
    exact countsHeld_initial hs hk hl
  · rintro σ c σ' - hheld ⟨hc, hstep⟩
    exact countsHeld_next hheld (by omega) hmax hc hstep

/-- Two states agree on what a post changes. -/
def SameOutcome (s : ι) (σ σ' : State ι ε) : Prop :=
  (σ.sems s).units = (σ'.sems s).units ∧ (σ.sems s).waiters = (σ'.sems s).waiters ∧
    σ.readyQueue = σ'.readyQueue

/-- Posting in one step or in two is the same exactly if all the units fit under the limit,
or the first part alone grants nothing. Otherwise the limit drops units of the single post
that the requests granted in between would have made room for. -/
theorem semPost_add_iff {sems : ι → Semaphore} {s : ι} {k limit : ℤ}
    (hs : sems s = semInit k limit) (hk : 0 ≤ k) (hl : k ≤ limit) (hmax : limit ≤ intMax)
    {σ : State ι ε} (h : ((library sems).restrict IntCall).Reachable σ) {a b : ℤ}
    (ha : 1 ≤ a) (hb : 1 ≤ b) (hfits : (σ.sems s).units + (a + b) ≤ intMax) :
    SameOutcome s (semPost s (a + b) σ) (semPost s b (semPost s a σ)) ↔
      (σ.sems s).units + (a + b) ≤ limit ∨
        ∀ block ∈ (σ.sems s).waiters.head?, min ((σ.sems s).units + a) limit < block.units := by
  have hheld := countsHeld_reachable hs hk hl hmax h
  have hheld' := hheld.semPost (n := a) (by omega) hmax
  have hlo := hheld.lower
  have hone : clampedUnits (σ.sems s) (a + b) = min ((σ.sems s).units + (a + b)) limit :=
    hheld.bound ▸ clampedUnits_of_fits hlo (by omega) hfits
  have hfirst : clampedUnits (σ.sems s) a = min ((σ.sems s).units + a) limit :=
    hheld.bound ▸ clampedUnits_of_fits hlo (by omega) (by omega)
  obtain ⟨hsem, hready⟩ := semPost_greedy (n := a) hheld.positive (by omega)
  obtain ⟨hsem₁, hready₁⟩ := semPost_greedy (n := a + b) hheld.positive (by omega)
  have hleft := (left_range (c := clampedUnits (σ.sems s) a) hheld.positive).2
  have hsecond := clampedUnits_of_fits (n := b) hheld'.lower (by omega)
    (by rw [hsem]; simp only; omega)
  have hsecond' : clampedUnits ((semPost s a σ).sems s) b ≤ intMax := by
    rw [hsecond, hheld'.bound]
    omega
  obtain ⟨hsem₂, hready₂⟩ := semPost_greedy (n := b) hheld'.positive hsecond'
  rw [hheld'.bound] at hsecond
  rw [hsecond, hsem, hfirst] at hsem₂
  rw [hsecond, hsem, hready, hfirst, List.append_assoc, ← List.map_append] at hready₂
  rw [hone] at hsem₁ hready₁
  rw [← served_eq_nil_iff, ← capped_twice_iff hheld.positive (by omega)]
  simp only [SameOutcome, hsem₁, hsem₂, hready₁, hready₂]
  constructor
  · rintro ⟨hunits, hwaiters, -⟩
    exact ⟨hunits, hwaiters⟩
  · rintro ⟨hunits, hwaiters⟩
    exact ⟨hunits, hwaiters, by rw [served_of_unserved_twice hwaiters]⟩

/-- A semaphore with one unit left, after the first two of three threads asked for two each. -/
def twoWaiting (limit : ℤ) : State Unit Empty :=
  let created := utCreate 2 (utCreate 1 (utCreate 0 (initial fun _ => semInit 1 limit)))
  semWait () 2 (semWait () 2 ((utRun created).getD created))

/-- The library comes to that state. -/
theorem twoWaiting_reachable (limit : ℤ) :
    ((library fun _ => semInit 1 limit).restrict IntCall).Reachable (twoWaiting limit) := by
  have hstart : ((library fun _ => semInit 1 limit).restrict IntCall).Reachable
      (initial (fun _ => semInit 1 limit) : State Unit Empty) := .start rfl
  have hcreated := ((hstart.next (a := Command.create 0) ⟨trivial, rfl⟩).next
    (a := Command.create 1) ⟨trivial, rfl⟩).next (a := Command.create 2) ⟨trivial, rfl⟩
  have hrunning := hcreated.next (a := Command.enterRun) ⟨trivial, rfl⟩
  have hfirst := hrunning.next (a := Command.call (.semWait () 2))
    ⟨show (0 : ℤ) < 2 ∧ 2 ≤ intMax by decide, rfl⟩
  exact hfirst.next (a := Command.call (.semWait () 2))
    ⟨show (0 : ℤ) < 2 ∧ 2 ≤ intMax by decide, rfl⟩

/-- A semaphore of three units with one left, and two threads that wait for two each. -/
theorem two_posts_release_more :
    ∃ σ : State Unit Empty, ((library fun _ => semInit 1 3).restrict IntCall).Reachable σ ∧
      (σ.sems ()).units + (2 + 2) ≤ intMax ∧
      ((semPost () (2 + 2) σ).sems ()).waiters = [⟨.user 1, 2⟩] ∧
      ((semPost () 2 (semPost () 2 σ)).sems ()).waiters = [] ∧
      ¬ SameOutcome () (semPost () (2 + 2) σ) (semPost () 2 (semPost () 2 σ)) := by
  refine ⟨_, twoWaiting_reachable 3, by decide, by decide, by decide, fun hsame => ?_⟩
  exact absurd hsame.2.1 (by decide)

/-- With a limit of five instead of three, two posts of two units are one post of four:
both let the two threads go on that wait for two units each. -/
theorem semPost_add_iff_waiting :
    ∃ σ : State Unit Empty, ((library fun _ => semInit 1 5).restrict IntCall).Reachable σ ∧
      (σ.sems ()).waiters = [⟨.user 0, 2⟩, ⟨.user 1, 2⟩] ∧
      SameOutcome () (semPost () (2 + 2) σ) (semPost () 2 (semPost () 2 σ)) ∧
      (semPost () (2 + 2) σ).readyQueue = [.user 0, .user 1] := by
  have hiff := @semPost_add_iff Unit Empty _ _ (fun _ => semInit 1 5) () 1 5 rfl (by decide)
    (by decide) (by decide) _ (twoWaiting_reachable 5) 2 2 (by decide) (by decide) (by decide)
  exact ⟨_, twoWaiting_reachable 5, by decide, hiff.mpr (.inl (by decide)), by decide⟩

/-! ## The range of the counter -/

/-- After the step the counter is in its range, and a post cut the sum at the limit. -/
def InRange (s : ι) (limit : ℤ) (x : Transition (State ι ε) (Command ι ε)) : Prop :=
  (0 ≤ (x.target.sems s).units ∧ (x.target.sems s).units ≤ limit) ∧
    ∀ n, x.label = .call (.semPost s n) →
      clampedUnits (x.source.sems s) n = min ((x.source.sems s).units + n) limit

/-- The addition of a post does not overflow. -/
def PostFits (s : ι) (σ : State ι ε) (c : Command ι ε) : Prop :=
  ∀ n, c = .call (.semPost s n) → (σ.sems s).units + n ≤ intMax

/-- A step from a counter that is not negative ends in one exactly if no addition overflows. -/
theorem units_next_iff {s : ι} {limit : ℤ} {σ σ' : State ι ε} {c : Command ι ε}
    (h : CountsHeld s limit σ) (hu : 0 ≤ (σ.sems s).units) (hmax : limit ≤ intMax)
    (hc : IntCall σ c) (hstep : next σ c = some σ') :
    0 ≤ (σ'.sems s).units ↔ PostFits s σ c := by
  have hup := h.upper
  rcases UThreadSemaphore.view_next (s := s) hstep with
    ⟨b, n, rfl, hr, rfl⟩ | ⟨b, n, rfl, -, rfl⟩ | ⟨hother, hview⟩
  · have hfits : PostFits s σ (.call (.semWait s n)) := fun n hn => nomatch hn
    refine iff_of_true ?_ hfits
    rcases semWait_sem hr hc.1 (hup.trans hmax) with ⟨-, hle, hsem⟩ | hsem
    · rw [hsem]
      exact sub_nonneg.mpr hle
    · rwa [hsem]
  · obtain ⟨hlo', hup'⟩ := clampedUnits_range (n := n) h.bound (by omega)
    have hsem := (semPost_greedy h.positive (hup'.trans hmax)).1
    obtain ⟨hleft, hleft'⟩ := left_range (c := clampedUnits (σ.sems s) n) h.positive
    have hbound := h.bound
    rw [hsem]
    constructor
    · rintro hnonneg m hm
      cases hm
      by_contra hover
      have hneg := clampedUnits_of_overflow (n := n) (hup.trans hmax) hc.2 (by omega)
        (not_le.mp hover)
      simp only at hnonneg
      omega
    · intro hfits
      have hn : 0 < n := hc.1
      have hclamp := clampedUnits_of_fits h.lower hn (hfits n rfl)
      simp only
      omega
  · have hunits : (σ'.sems s).units = (σ.sems s).units := congrArg FifoSemaphore.Sem.units hview
    exact iff_of_true (by rwa [hunits]) fun n hn => absurd hn (hother n).2

/-- Along a run the counter stays in its range, and posts saturate at the limit, exactly if no
post finds a counter from which its addition overflows. -/
theorem counter_in_range_iff {sems : ι → Semaphore} {s : ι} {k limit : ℤ}
    (hs : sems s = semInit k limit) (hk : 0 ≤ k) (hl : k ≤ limit) (hmax : limit ≤ intMax)
    {trace : List (Transition (State ι ε) (Command ι ε))} {σ : State ι ε}
    (hrun : ((library sems).restrict IntCall).Run (initial sems) trace σ) :
    (∀ x ∈ trace, InRange s limit x) ↔ ∀ x ∈ trace, PostFits s x.source x.label := by
  have hstart : ((library sems).restrict IntCall).Reachable (initial sems : State ι ε) := .start rfl
  have hheld : ∀ x ∈ trace, CountsHeld s limit x.source ∧ CountsHeld s limit x.target ∧
      IntCall x.source x.label := by
    intro x hx
    obtain ⟨hreach, hstep⟩ := hrun.transition hstart hx
    exact ⟨countsHeld_reachable hs hk hl hmax hreach,
      countsHeld_reachable hs hk hl hmax (hreach.next hstep), hstep.1⟩
  have hunits : (∀ x ∈ trace, CountsHeld s limit x.target ∧ 0 ≤ (x.target.sems s).units) ↔
      ∀ x ∈ trace, PostFits s x.source x.label := by
    refine hrun.forall_good_iff (I := fun σ => CountsHeld s limit σ ∧ 0 ≤ (σ.sems s).units)
      ⟨countsHeld_initial hs hk hl, ?_⟩ ?_
    · have hsem : (initial sems : State ι ε).sems s = semInit k limit := hs
      rwa [hsem]
    · rintro σ c σ' ⟨hσ, hu⟩ ⟨hc, hstep⟩
      have hnext := countsHeld_next hσ (by omega) hmax hc hstep
      rw [← units_next_iff hσ hu hmax hc hstep]
      exact and_iff_right hnext
  rw [← hunits]
  constructor
  · intro hall x hx
    exact ⟨(hheld x hx).2.1, (hall x hx).1.1⟩
  · intro hall x hx
    obtain ⟨hsource, htarget, hint⟩ := hheld x hx
    refine ⟨⟨(hall x hx).2, htarget.upper⟩, fun n hn => ?_⟩
    have hfits := hunits.mp hall x hx n hn
    rw [hn] at hint
    exact hsource.bound ▸ clampedUnits_of_fits hsource.lower hint.1 hfits

/-- A semaphore of one unit takes a post of the largest int and is left with the smallest. -/
theorem large_post_wraps :
    ∃ σ : State Unit Empty, ((library fun _ => semInit 1 1).restrict IntCall).Reachable σ ∧
      (σ.sems ()).units = -2 ^ 31 := by
  have hstart : ((library fun _ => semInit 1 1).restrict IntCall).Reachable
      (initial (fun _ => semInit 1 1) : State Unit Empty) := .start rfl
  have hrunning := (hstart.next (a := Command.create 0) ⟨trivial, rfl⟩).next
    (a := Command.enterRun) ⟨trivial, rfl⟩
  have hposted := hrunning.next (a := Command.call (.semPost () intMax))
    ⟨show (0 : ℤ) < intMax ∧ intMax ≤ intMax by decide, rfl⟩
  exact ⟨_, hposted, by decide⟩

/-- A post past the limit without overflow saturates. -/
theorem counter_in_range_iff_small :
    ∃ trace : List (Transition (State Unit Empty) (Command Unit Empty)),
      (∃ x ∈ trace, x.label = .call (.semPost () 5)) ∧ ∀ x ∈ trace, InRange () 1 x := by
  let S : System (State Unit Empty) (Command Unit Empty) :=
    (library fun _ => semInit 1 1).restrict IntCall
  have hstart : S.Run (initial fun _ => semInit 1 1) [] (initial fun _ => semInit 1 1) := .nil _
  have hcreated := hstart.snoc (a := Command.create 0) ⟨trivial, rfl⟩
  have hrunning := hcreated.snoc (a := Command.enterRun) ⟨trivial, rfl⟩
  have hposted := hrunning.snoc (a := Command.call (.semPost () 5))
    ⟨show (0 : ℤ) < 5 ∧ 5 ≤ intMax by decide, rfl⟩
  refine ⟨_, ⟨_, List.mem_append_right _ List.mem_cons_self, rfl⟩,
    (counter_in_range_iff (s := ()) rfl (by decide) (by decide) (by decide) hposted).mpr ?_⟩
  intro x hx n hn
  rcases List.mem_append.mp hx with hx | hx
  · rcases List.mem_append.mp hx with hx | hx <;> rw [List.mem_singleton.mp hx] at hn <;> cases hn
  · rw [List.mem_singleton.mp hx] at hn ⊢
    cases hn
    decide

end SistemasOperativos.UThreadPosts
