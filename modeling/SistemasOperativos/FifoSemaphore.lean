import Mathlib.Algebra.BigOperators.Group.Multiset.Basic
import Mathlib.Tactic.Abel
import Mathlib.Tactic.SplitIfs

/-!
# A counting semaphore with a first-in first-out wait list

Requests ask for several units at once. A post adds units up to a limit and
then serves the requests at the head of the list while they can be granted in
full. Marks record what happens, oldest first; soundness says that grants
follow the order of the calls, that each request is paid for once, and that
no request that could be granted is left at the head.
-/

namespace SistemasOperativos.FifoSemaphore

variable {τ : Type*}

/-- A request for units. -/
structure Request (τ : Type*) where
  /-- Who asks. -/
  owner : τ
  /-- How many units it asks for. -/
  units : ℤ
  deriving DecidableEq

/-- One recorded occurrence. -/
inductive Mark (τ : Type*) where
  | called (r : Request τ)
  | taken (r : Request τ)
  | blocked (r : Request τ)
  | released (r : Request τ)
  | woken (owner : τ)
  | posted (units credited : ℤ)

/-- The semaphore with its recorded history. -/
structure Sem (τ : Type*) where
  /-- Requests that wait, head first. -/
  waiters : List (Request τ)
  /-- Units available now. -/
  units : ℤ
  /-- Upper bound of the units. -/
  limit : ℤ
  /-- History, oldest first. -/
  marks : List (Mark τ)

/-- A semaphore nobody has used. -/
def Sem.init (units limit : ℤ) : Sem τ := ⟨[], units, limit, []⟩

/-- Take the units at once, or queue behind the requests that wait. -/
def Sem.wait (r : Request τ) (s : Sem τ) : Sem τ :=
  if s.waiters = [] ∧ r.units ≤ s.units then
    { s with units := s.units - r.units, marks := s.marks ++ [.called r, .taken r] }
  else
    { s with waiters := s.waiters ++ [r], marks := s.marks ++ [.called r, .blocked r] }

/-- Serve the listed requests in order, up to the first that must go on waiting. -/
def Sem.serve : List (Request τ) → Sem τ → Sem τ
  | [], s => s
  | r :: rest, s =>
    if 0 < s.units then
      if s.units < r.units then s
      else
        Sem.serve rest
          { s with
            waiters := rest
            units := s.units - r.units
            marks := s.marks ++ [.released r, .woken r.owner] }
    else s

/-- Units added by a post, after the limit is applied. -/
def Sem.credit (n : ℤ) (s : Sem τ) : ℤ := min (s.units + n) s.limit - s.units

/-- Add units up to the limit, before any request is served. -/
def Sem.deposit (n : ℤ) (s : Sem τ) : Sem τ :=
  { s with
    units := s.units + s.credit n
    marks := s.marks ++ [.posted n (s.credit n)] }

/-- Add units and serve the requests that can now be granted. -/
def Sem.post (n : ℤ) (s : Sem τ) : Sem τ := Sem.serve s.waiters (s.deposit n)

section Projections

/-- Calls of wait, in order. -/
def calls (marks : List (Mark τ)) : List (Request τ) :=
  marks.filterMap fun
    | .called r => some r
    | _ => none

/-- Granted requests, in order. -/
def grants (marks : List (Mark τ)) : List (Request τ) :=
  marks.filterMap fun
    | .taken r => some r
    | .released r => some r
    | _ => none

/-- Requests that had to wait, in order. -/
def blocks (marks : List (Mark τ)) : List (Request τ) :=
  marks.filterMap fun
    | .blocked r => some r
    | _ => none

/-- Requests granted after waiting, in order. -/
def releases (marks : List (Mark τ)) : List (Request τ) :=
  marks.filterMap fun
    | .released r => some r
    | _ => none

/-- Owners made runnable, in order. -/
def wakes (marks : List (Mark τ)) : List τ :=
  marks.filterMap fun
    | .woken t => some t
    | _ => none

/-- Posts, as units posted and units credited, in order. -/
def posts (marks : List (Mark τ)) : List (ℤ × ℤ) :=
  marks.filterMap fun
    | .posted n c => some (n, c)
    | _ => none

/-- Units deducted so far. -/
def granted (marks : List (Mark τ)) : ℤ := ((grants marks).map Request.units).sum

/-- Units credited so far. -/
def credited (marks : List (Mark τ)) : ℤ := ((posts marks).map Prod.snd).sum

end Projections

/-- What holds between any two rounds of the serving loop. -/
structure Accounted (k : ℤ) (s : Sem τ) : Prop where
  /-- Waiting requests are positive. -/
  positive : ∀ r ∈ s.waiters, 0 < r.units
  /-- The counter is not negative. -/
  lower : 0 ≤ s.units
  /-- The counter does not pass the limit. -/
  upper : s.units ≤ s.limit
  /-- So were the granted ones. -/
  paid : ∀ r ∈ grants s.marks, 0 < r.units
  /-- Calls are granted in order, and the rest waits in order. -/
  order : calls s.marks = grants s.marks ++ s.waiters
  /-- So are the calls that had to wait. -/
  queued : blocks s.marks = releases s.marks ++ s.waiters
  /-- Every release makes its owner runnable, once and in order. -/
  woken : wakes s.marks = (releases s.marks).map Request.owner
  /-- Units are the initial ones, plus credits, minus grants. -/
  balance : s.units = k + credited s.marks - granted s.marks

/-- What holds between operations: besides, the head cannot be granted. -/
structure Sound (k : ℤ) (s : Sem τ) : Prop extends Accounted k s where
  /-- The available units do not satisfy the request at the head. -/
  blockedHead : ∀ r ∈ s.waiters.head?, s.units < r.units

/-- A fresh semaphore is sound. -/
theorem sound_init {k limit : ℤ} (hk : 0 ≤ k) (hl : k ≤ limit) :
    Sound k (Sem.init k limit : Sem τ) :=
  ⟨⟨by simp [Sem.init], hk, hl, by simp [Sem.init, grants], rfl, rfl, rfl,
    by simp [Sem.init, credited, granted, posts, grants]⟩, by simp [Sem.init]⟩

/-- A wait keeps the semaphore sound: it never overtakes a waiting request. -/
theorem sound_wait {k : ℤ} {s : Sem τ} (h : Sound k s) {r : Request τ} (hr : 0 < r.units) :
    Sound k (s.wait r) := by
  obtain ⟨⟨hpos, hlo, hup, hpaid, horder, hqueued, hwoken, hbalance⟩, hhead⟩ := h
  unfold Sem.wait
  split
  next hc =>
    rw [hc.1, List.append_nil] at horder hqueued
    refine ⟨⟨by simp [hc.1], by simp only; omega, by simp only; omega, fun q hq => ?_, ?_, ?_,
      ?_, ?_⟩, by simp [hc.1]⟩
    · simp only [grants, List.filterMap_append, List.filterMap_cons, List.filterMap_nil,
        List.mem_append, List.mem_singleton] at hq
      rcases hq with hq | rfl
      · exact hpaid q hq
      · exact hr
    · simpa [calls, grants, hc.1] using horder
    · simpa [blocks, releases, hc.1] using hqueued
    · simpa [wakes, releases] using hwoken
    · simp only [credited, granted, posts, grants, List.filterMap_append, List.filterMap_cons,
        List.filterMap_nil, List.append_nil, List.map_append, List.sum_append, List.map_cons,
        List.map_nil, List.sum_cons, List.sum_nil] at hbalance ⊢
      omega
  next hc =>
    refine ⟨⟨fun q hq => ?_, hlo, hup, by simpa [grants] using hpaid, ?_, ?_, ?_, ?_⟩,
      fun q hq => ?_⟩
    · rcases List.mem_append.mp hq with hq | hq
      · exact hpos q hq
      · rw [List.mem_singleton.mp hq]
        exact hr
    · simpa [calls, grants] using congrArg (· ++ [r]) horder
    · simpa [blocks, releases] using congrArg (· ++ [r]) hqueued
    · simpa [wakes, releases] using hwoken
    · simpa [credited, granted, posts, grants] using hbalance
    · cases hw : s.waiters with
      | nil =>
        simp only [hw, List.nil_append, List.head?_cons, Option.mem_def, Option.some.injEq] at hq
        subst hq
        simpa [hw] using hc
      | cons w rest =>
        simp only [hw, List.cons_append, List.head?_cons, Option.mem_def, Option.some.injEq] at hq
        exact hhead q (by simp [hw, hq])

/-- One round of serving keeps the account. -/
theorem accounted_release {k : ℤ} {s : Sem τ} (h : Accounted k s) {r : Request τ}
    {rest : List (Request τ)} (hw : s.waiters = r :: rest) (hle : r.units ≤ s.units) :
    Accounted k { s with
      waiters := rest
      units := s.units - r.units
      marks := s.marks ++ [.released r, .woken r.owner] } := by
  obtain ⟨hpos, hlo, hup, hpaid, horder, hqueued, hwoken, hbalance⟩ := h
  rw [hw] at hpos horder hqueued
  have hr := hpos r List.mem_cons_self
  refine ⟨fun q hq => hpos q (List.mem_cons_of_mem r hq), by simp only; omega,
    by simp only; omega, fun q hq => ?_, ?_, ?_, ?_, ?_⟩
  · simp only [grants, List.filterMap_append, List.filterMap_cons, List.filterMap_nil,
      List.mem_append, List.mem_singleton] at hq
    rcases hq with hq | rfl
    · exact hpaid q hq
    · exact hr
  · simpa [calls, grants] using horder
  · simpa [blocks, releases] using hqueued
  · simpa [wakes, releases] using hwoken
  · simp only [credited, granted, posts, grants, List.filterMap_append, List.filterMap_cons,
      List.filterMap_nil, List.append_nil, List.map_append, List.sum_append, List.map_cons,
      List.map_nil, List.sum_cons, List.sum_nil] at hbalance ⊢
    omega

/-- The serving loop stops with a head that cannot be granted, or an empty list. -/
theorem sound_serve {k : ℤ} (requests : List (Request τ)) :
    ∀ {s : Sem τ}, Accounted k s → s.waiters = requests → Sound k (Sem.serve requests s) := by
  induction requests with
  | nil =>
    intro s h hw
    exact ⟨h, by simp [Sem.serve, hw]⟩
  | cons r rest ih =>
    intro s h hw
    rw [Sem.serve]
    split
    · split
      next hlt => exact ⟨h, by simp [hw, hlt]⟩
      next hle => exact ih (accounted_release h hw (not_lt.mp hle)) rfl
    next hz =>
      have hr := h.positive r (by simp [hw])
      refine ⟨h, fun q hq => ?_⟩
      simp only [hw, List.head?_cons, Option.mem_def, Option.some.injEq] at hq
      subst hq
      omega

/-- The clamp credits at least nothing and at most the posted units. -/
theorem credit_bounds {k n : ℤ} {s : Sem τ} (h : Accounted k s) (hn : 0 ≤ n) :
    0 ≤ s.credit n ∧ s.credit n ≤ n ∧ s.units + s.credit n ≤ s.limit := by
  have hup := h.upper
  unfold Sem.credit
  omega

/-- Adding units keeps the account. -/
theorem accounted_deposit {k n : ℤ} {s : Sem τ} (h : Accounted k s) (hn : 0 ≤ n) :
    Accounted k (s.deposit n) := by
  obtain ⟨hc, -, hcl⟩ := credit_bounds h hn
  have hlo := h.lower
  have hbalance := h.balance
  refine ⟨h.positive, by simp only [Sem.deposit]; omega, hcl,
    by simpa [Sem.deposit, grants] using h.paid, ?_, ?_, ?_, ?_⟩
  · simpa [Sem.deposit, calls, grants] using h.order
  · simpa [Sem.deposit, blocks, releases] using h.queued
  · simpa [Sem.deposit, wakes, releases] using h.woken
  · simp only [Sem.deposit, credited, granted, posts, grants, List.filterMap_append,
      List.filterMap_cons, List.filterMap_nil, List.append_nil, List.map_append, List.sum_append,
      List.map_cons, List.map_nil, List.sum_cons, List.sum_nil] at hbalance ⊢
    omega

/-- A post keeps the semaphore sound. -/
theorem sound_post {k n : ℤ} {s : Sem τ} (h : Sound k s) (hn : 0 ≤ n) : Sound k (s.post n) :=
  sound_serve _ (accounted_deposit h.toAccounted hn) rfl

/-- The requests that the loop serves are a prefix of the list, they are paid
from the units, and only their releases and wake-ups are recorded. -/
theorem serve_spec (requests : List (Request τ)) :
    ∀ {s : Sem τ}, s.waiters = requests →
      ∃ served, requests = served ++ (Sem.serve requests s).waiters ∧
        (Sem.serve requests s).limit = s.limit ∧
        (Sem.serve requests s).units + (served.map Request.units).sum = s.units ∧
        (Sem.serve requests s).marks =
          s.marks ++ served.flatMap fun r => [.released r, .woken r.owner] := by
  induction requests with
  | nil =>
    intro s hw
    exact ⟨[], by simp [Sem.serve, hw], rfl, by simp [Sem.serve], by simp [Sem.serve]⟩
  | cons r rest ih =>
    intro s hw
    have hstop : ∃ served, r :: rest = served ++ s.waiters ∧ s.limit = s.limit ∧
        s.units + (served.map Request.units).sum = s.units ∧
        s.marks = s.marks ++ served.flatMap fun r => [.released r, .woken r.owner] :=
      ⟨[], by simp [hw], rfl, by simp, by simp⟩
    rw [Sem.serve]
    split
    · split
      · exact hstop
      · obtain ⟨served, hrest, hlimit, hunits, hmarks⟩ := ih (s := { s with
          waiters := rest
          units := s.units - r.units
          marks := s.marks ++ [.released r, .woken r.owner] }) rfl
        refine ⟨r :: served, ?_, hlimit, ?_, ?_⟩
        · rw [List.cons_append, ← hrest]
        · simp only [List.map_cons, List.sum_cons] at hunits ⊢
          omega
        · rw [hmarks]
          simp
    · exact hstop

/-- Units that a post adds go to the requests it serves or stay available. -/
theorem post_units (n : ℤ) (s : Sem τ) :
    ∃ served, s.waiters = served ++ (s.post n).waiters ∧
      (s.post n).units + (served.map Request.units).sum = s.units + s.credit n := by
  obtain ⟨served, hwaiters, -, hunits, -⟩ := serve_spec s.waiters (s := s.deposit n) rfl
  exact ⟨served, hwaiters, hunits⟩

/-- A wait does not touch the limit. -/
@[simp] theorem wait_limit (r : Request τ) (s : Sem τ) : (s.wait r).limit = s.limit := by
  unfold Sem.wait
  split <;> rfl

/-- A post does not touch the limit. -/
@[simp] theorem post_limit (n : ℤ) (s : Sem τ) : (s.post n).limit = s.limit := by
  obtain ⟨_, -, hlimit, -⟩ := serve_spec s.waiters (s := s.deposit n) rfl
  exact hlimit

/-- A wait behind other requests queues, however many units are available. -/
theorem wait_behind {s : Sem τ} (hs : s.waiters ≠ []) (r : Request τ) :
    (s.wait r).waiters = s.waiters ++ [r] ∧ (s.wait r).units = s.units := by
  rw [Sem.wait, if_neg fun h => hs h.1]
  exact ⟨rfl, rfl⟩

section Ownership

/-- The units of one request, each under its owner. -/
def Request.share (r : Request τ) : Multiset τ := Multiset.replicate r.units.toNat r.owner

/-- All units granted so far, each under the owner of its request. -/
def shares (marks : List (Mark τ)) : Multiset τ := ((grants marks).map Request.share).sum

/-- The shares count the granted units. -/
theorem card_shares {marks : List (Mark τ)} (h : ∀ r ∈ grants marks, 0 < r.units) :
    (Multiset.card (shares marks) : ℤ) = granted marks := by
  unfold shares granted
  revert h
  induction grants marks with
  | nil => exact fun _ => rfl
  | cons r rest ih =>
    intro h
    have hr := h r List.mem_cons_self
    have hrest := ih fun q hq => h q (List.mem_cons_of_mem r hq)
    simp only [List.map_cons, List.sum_cons, Multiset.card_add, Nat.cast_add, hrest,
      Request.share, Multiset.card_replicate]
    omega

/-- Serving only adds shares. -/
theorem shares_append (marks more : List (Mark τ)) :
    shares (marks ++ more) = shares marks + shares more := by
  simp [shares, grants]

/-- A request granted at once adds its own shares. -/
theorem wait_taken_shares {s : Sem τ} {r : Request τ} (h : s.waiters = [] ∧ r.units ≤ s.units) :
    shares (s.wait r).marks = shares s.marks + r.share := by
  rw [Sem.wait, if_pos h, shares_append]
  simp [shares, grants]

/-- A wait takes no share away. -/
theorem wait_shares_le (s : Sem τ) (r : Request τ) : shares s.marks ≤ shares (s.wait r).marks := by
  unfold Sem.wait
  split <;> rw [shares_append] <;> exact Multiset.le_add_right _ _

/-- A post adds the shares of the requests it serves, a prefix of the list. -/
theorem post_shares (n : ℤ) (s : Sem τ) :
    ∃ served, s.waiters = served ++ (s.post n).waiters ∧
      shares (s.post n).marks = shares s.marks + (served.map Request.share).sum := by
  obtain ⟨served, hwaiters, -, -, hmarks⟩ := serve_spec s.waiters (s := s.deposit n) rfl
  refine ⟨served, hwaiters, ?_⟩
  have hserved : shares (served.flatMap fun r => [Mark.released r, .woken r.owner]) =
      (served.map Request.share).sum := by
    simp [shares, grants, List.filterMap_flatMap, List.flatMap_singleton']
  have hposted : shares [Mark.posted n (s.credit n)] = (0 : Multiset τ) := rfl
  rw [Sem.post, hmarks, Sem.deposit, shares_append, shares_append, hserved, hposted, add_zero]

/-- Units are given back only after they were granted, and none was dropped. -/
structure Owned (k : ℤ) (s : Sem τ) (back : Multiset τ) : Prop extends Sound k s where
  /-- The initial units fit under the limit. -/
  fits : k ≤ s.limit
  /-- What was given back had been granted. -/
  backLe : back ≤ shares s.marks
  /-- Posts gave back exactly these units. -/
  backCard : ((posts s.marks).map Prod.fst).sum = Multiset.card back
  /-- No post lost a unit at the limit. -/
  unclamped : ∀ p ∈ posts s.marks, p.2 = p.1

/-- An unused semaphore owes nothing. -/
theorem owned_init {k limit : ℤ} (hk : 0 ≤ k) (hl : k ≤ limit) :
    Owned k (Sem.init k limit : Sem τ) 0 :=
  ⟨sound_init hk hl, hl, Multiset.zero_le _, rfl, by simp [Sem.init, posts]⟩

/-- A wait may add a grant and gives nothing back. -/
theorem owned_wait {k : ℤ} {s : Sem τ} {back : Multiset τ} (h : Owned k s back)
    {r : Request τ} (hr : 0 < r.units) : Owned k (s.wait r) back := by
  have hsound := sound_wait h.toSound hr
  have hmarks : ∃ m, (s.wait r).marks = s.marks ++ m ∧ posts m = [] := by
    unfold Sem.wait
    split
    · exact ⟨[.called r, .taken r], rfl, rfl⟩
    · exact ⟨[.called r, .blocked r], rfl, rfl⟩
  obtain ⟨m, hm, hp⟩ := hmarks
  have hposts : posts (s.wait r).marks = posts s.marks := by
    rw [hm, posts, List.filterMap_append, ← posts, ← posts, hp, List.append_nil]
  refine ⟨hsound, by rw [wait_limit]; exact h.fits, ?_, by rw [hposts]; exact h.backCard, by
    rw [hposts]; exact h.unclamped⟩
  rw [hm, shares_append]
  exact h.backLe.trans (Multiset.le_add_right _ _)

variable [DecidableEq τ]

/-- The units a post may give back: those granted and not yet given back. -/
def outstanding (s : Sem τ) (back : Multiset τ) : Multiset τ := shares s.marks - back

/-- Available and outstanding units add up to the initial ones. -/
theorem owned_conserved {k : ℤ} {s : Sem τ} {back : Multiset τ} (h : Owned k s back) :
    s.units + Multiset.card (outstanding s back) = k := by
  have hcredited : credited s.marks = Multiset.card back := by
    rw [← h.backCard, credited]
    exact congrArg List.sum (List.map_congr_left fun p hp => h.unclamped p hp)
  have hshares := card_shares h.paid
  have hle := Multiset.card_le_card h.backLe
  have hbalance := h.balance
  rw [outstanding, Multiset.card_sub h.backLe]
  omega

/-- A post of units that were granted and not yet given back is credited in
full, whoever owned them. -/
theorem owned_post {k n : ℤ} {s : Sem τ} {back give : Multiset τ} (h : Owned k s back)
    (hgive : give ≤ outstanding s back) (hn : Multiset.card give = n) :
    Owned k (s.post n) (back + give) := by
  have hcard := Multiset.card_le_card hgive
  have hk := owned_conserved h
  have hfits := h.fits
  have hcredit : s.credit n = n := by
    unfold Sem.credit
    omega
  obtain ⟨served, -, -, -, hmarks⟩ := serve_spec s.waiters (s := s.deposit n) rfl
  have hmore : (s.post n).marks = s.marks ++
      (.posted n n :: served.flatMap fun r => [.released r, .woken r.owner]) := by
    rw [Sem.post, hmarks, Sem.deposit, hcredit]
    simp
  have hnone : posts (served.flatMap fun r => [Mark.released r, .woken r.owner]) = [] := by
    simp [posts, List.filterMap_flatMap]
  have hposts : posts (s.post n).marks = posts s.marks ++ [(n, n)] := by
    rw [hmore]
    simp only [posts, List.filterMap_append, List.filterMap_cons] at hnone ⊢
    rw [hnone]
  refine ⟨sound_post h.toSound (by omega), by rw [post_limit]; exact hfits, ?_, ?_, ?_⟩
  · rw [hmore, shares_append]
    refine le_trans ?_ (Multiset.le_add_right _ _)
    exact (add_le_add_right hgive back).trans (add_tsub_cancel_of_le h.backLe).le
  · rw [hposts, Multiset.card_add, List.map_append, List.sum_append, h.backCard]
    simp [hn]
  · intro p hp
    rw [hposts] at hp
    rcases List.mem_append.mp hp with hp | hp
    · exact h.unclamped p hp
    · rw [List.mem_singleton.mp hp]

end Ownership

end SistemasOperativos.FifoSemaphore
