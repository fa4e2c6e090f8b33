import SistemasOperativos.Census
import SistemasOperativos.SemaphoreChannel

/-!
# Delivery by ticket over the semaphore channel

The semaphores count finished calls, while a ticket names one call. The two
agree as long as no post runs ahead of a copy with a lower ticket and the
tickets are values of `long`: then the tickets below the number of posts have
all been copied, every call that takes a ticket finds its slot ready, and every
get returns the element of the put with its ticket. Without the order of the
posts three processes are enough to return bytes that were never put.
-/

namespace SistemasOperativos.SemaphoreChannel

open TransitionRuns ByteRing Census MachineInt
open ByteMemory (Byte)

variable {π : Type*} [DecidableEq π]

/-- The steps of a process, with what enables each of them. -/
inductive Moves (s : State π) (p : π) : State π → Prop
  | callPut (item : List Byte) : item.length = s.rb.elemSize → s.pc p = .idle →
      Moves s p (s.goto p (.awaitingSpace item))
  | callGet : s.pc p = .idle → Moves s p (s.goto p .awaitingItems)
  | waitSpace (item : List Byte) : 0 < s.rb.hasSpace → s.pc p = .awaitingSpace item →
      Moves s p ({ s with rb.hasSpace := s.rb.hasSpace - 1 }.goto p (.takingPut item))
  | takePut (item : List Byte) : s.pc p = .takingPut item →
      Moves s p ({ s with rb.iput := s.rb.iput + 1, puts := s.puts ++ [item] }.goto p
        (.copyingPut item s.rb.iput))
  | copyPut (item : List Byte) (ticket : ℕ) : s.pc p = .copyingPut item ticket →
      Moves s p ({ s with rb.buffer := copy s.rb.buffer (s.rb.slot ticket) item }.goto p
        (.postingItems ticket))
  | postItems (ticket : ℕ) : s.pc p = .postingItems ticket →
      Moves s p ({ s with
        rb.hasItems := s.rb.hasItems + 1
        itemPosts := s.itemPosts + 1 }.goto p .idle)
  | waitItems : 0 < s.rb.hasItems → s.pc p = .awaitingItems →
      Moves s p ({ s with rb.hasItems := s.rb.hasItems - 1 }.goto p .takingGet)
  | takeGet : s.pc p = .takingGet →
      Moves s p ({ s with rb.iget := s.rb.iget + 1 }.goto p (.copyingGet s.rb.iget))
  | copyGet (ticket : ℕ) : s.pc p = .copyingGet ticket →
      Moves s p ({ s with
        gets := s.gets ++ [(ticket, slice s.rb.buffer (s.rb.slot ticket) s.rb.elemSize)] }.goto p
        (.postingSpace ticket))
  | postSpace (ticket : ℕ) : s.pc p = .postingSpace ticket →
      Moves s p ({ s with
        rb.hasSpace := s.rb.hasSpace + 1
        spacePosts := s.spacePosts + 1 }.goto p .idle)

/-- Every action is one of these steps. -/
theorem next_moves {s t : State π} {p : π} {a : Action} (h : s.next (p, a) = some t) :
    Moves s p t := by
  cases a with
  | call c =>
    cases c with
    | put item =>
      simp only [State.next, Option.ite_none_right_eq_some, Option.some.injEq] at h
      rw [← h.2]
      exact .callPut item h.1.2 h.1.1
    | get =>
      simp only [State.next, Option.ite_none_right_eq_some, Option.some.injEq] at h
      rw [← h.2]
      exact .callGet h.1
  | run =>
    have hrun : s.run p = some t := h
    unfold State.run at hrun
    split at hrun
    · cases hrun
    · next item hpc =>
      simp only [Option.ite_none_right_eq_some, Option.some.injEq] at hrun
      rw [← hrun.2]
      exact .waitSpace item hrun.1 hpc
    · next item hpc =>
      rw [← Option.some.inj hrun]
      exact .takePut item hpc
    · next item ticket hpc =>
      rw [← Option.some.inj hrun]
      exact .copyPut item ticket hpc
    · next ticket hpc =>
      rw [← Option.some.inj hrun]
      exact .postItems ticket hpc
    · next hpc =>
      simp only [Option.ite_none_right_eq_some, Option.some.injEq] at hrun
      rw [← hrun.2]
      exact .waitItems hrun.1 hpc
    · next hpc =>
      rw [← Option.some.inj hrun]
      exact .takeGet hpc
    · next ticket hpc =>
      rw [← Option.some.inj hrun]
      exact .copyGet ticket hpc
    · next ticket hpc =>
      rw [← Option.some.inj hrun]
      exact .postSpace ticket hpc

/-- Past the wait for space, before the ticket. -/
def Pc.takesPut : Pc → Bool
  | .takingPut _ => true
  | _ => false

/-- Past the ticket of a put, before the post. -/
def Pc.putOpen : Pc → Bool
  | .copyingPut _ _ | .postingItems _ => true
  | _ => false

/-- Past the wait for items, before the ticket. -/
def Pc.takesGet : Pc → Bool
  | .takingGet => true
  | _ => false

/-- Past the ticket of a get, before the post. -/
def Pc.getOpen : Pc → Bool
  | .copyingGet _ | .postingSpace _ => true
  | _ => false

/-- The semaphores count posts, and the indexes count tickets. -/
structure Counts (s : State π) : Prop where
  spaces : ∃ n, Standing s.pc (fun q => q.takesPut) n ∧
    s.rb.iput + s.rb.hasSpace + n = s.rb.capacity + s.spacePosts
  items : ∃ n, Standing s.pc (fun q => q.takesGet) n ∧
    s.rb.iget + s.rb.hasItems + n = s.itemPosts
  openPuts : ∃ n, Standing s.pc (fun q => q.putOpen) n ∧ s.itemPosts + n = s.rb.iput
  openGets : ∃ n, Standing s.pc (fun q => q.getOpen) n ∧ s.spacePosts + n = s.rb.iget

/-- Every step keeps the counts. -/
theorem Counts.step {s t : State π} {p : π} (h : Counts s) (hmove : Moves s p t) : Counts t := by
  cases hmove <;> next hpc =>
    constructor
    · refine Standing.balance h.spaces p _ ?_
      simp only [State.goto, hpc, Pc.takesPut, if_true, if_false, Bool.false_eq_true] <;>
        omega
    · refine Standing.balance h.items p _ ?_
      simp only [State.goto, hpc, Pc.takesGet, if_true, if_false, Bool.false_eq_true] <;>
        omega
    · refine Standing.balance h.openPuts p _ ?_
      simp only [State.goto, hpc, Pc.putOpen, if_true, if_false, Bool.false_eq_true] <;>
        omega
    · refine Standing.balance h.openGets p _ ?_
      simp only [State.goto, hpc, Pc.getOpen, if_true, if_false, Bool.false_eq_true] <;>
        omega

/-- A process found at a place after one process moved. -/
theorem moved_pc {s t : State π} {p r : π} {q x : Pc} (hpc : t.pc = Function.update s.pc p q)
    (hr : t.pc r = x) : (r = p ∧ q = x) ∨ (r ≠ p ∧ s.pc r = x) := by
  rw [hpc] at hr
  rcases eq_or_ne r p with rfl | hne
  · rw [Function.update_self] at hr
    exact .inl ⟨rfl, hr⟩
  · rw [Function.update_of_ne hne] at hr
    exact .inr ⟨hne, hr⟩

/-- The element of a put before its copy. -/
def Pc.item? : Pc → Option (List Byte)
  | .awaitingSpace item | .takingPut item | .copyingPut item _ => some item
  | _ => none

/-- Tickets and elements of the puts. -/
structure PutTickets (s : State π) : Prop where
  length_eq : s.puts.length = s.rb.iput
  /-- The element to copy is the one that took the ticket. -/
  ticket : ∀ p item t, s.pc p = .copyingPut item t → s.puts[t]? = some item
  /-- Every put carries a whole element. -/
  whole : ∀ p item, (s.pc p).item? = some item → item.length = s.rb.elemSize

/-- Tickets of the gets. -/
structure GetTickets (s : State π) : Prop where
  taken : ∀ p t, s.pc p = .copyingGet t → t < s.rb.iget
  /-- No two gets have the same ticket. -/
  unique : ∀ p q t, s.pc p = .copyingGet t → s.pc q = .copyingGet t → p = q
  /-- A ticket is logged by its copy. -/
  logged : ∀ t ∈ s.gets.map Prod.fst, t < s.rb.iget ∧ ∀ p, s.pc p ≠ .copyingGet t
  nodup : (s.gets.map Prod.fst).Nodup
  /-- Every ticket taken is logged or about to be copied. -/
  complete : ∀ t < s.rb.iget, t ∈ s.gets.map Prod.fst ∨ ∃ p, s.pc p = .copyingGet t

/-- A process moves without taking the ticket of a put. -/
theorem PutTickets.moved {s t : State π} {p : π} {q : Pc} (h : PutTickets s)
    (hpc : t.pc = Function.update s.pc p q) (hputs : t.puts = s.puts)
    (hiput : t.rb.iput = s.rb.iput) (hsize : t.rb.elemSize = s.rb.elemSize)
    (hq : ∀ item ticket, q ≠ .copyingPut item ticket)
    (hitem : ∀ item, q.item? = some item → item.length = s.rb.elemSize) : PutTickets t := by
  constructor
  · rw [hputs, hiput, h.length_eq]
  · intro r item ticket hr
    rcases moved_pc hpc hr with ⟨-, he⟩ | ⟨-, hr⟩
    · exact absurd he (hq item ticket)
    · rw [hputs]
      exact h.ticket r item ticket hr
  · intro r item hr
    rw [hsize]
    rcases moved_pc hpc rfl with ⟨-, he⟩ | ⟨-, he⟩
    · exact hitem item (he ▸ hr)
    · exact h.whole r item (he ▸ hr)

/-- Every step keeps the tickets of the puts. -/
theorem PutTickets.step {s t : State π} {p : π} (h : PutTickets s) (hmove : Moves s p t) :
    PutTickets t := by
  cases hmove with
  | callPut item hlen hpc =>
    refine h.moved rfl rfl rfl rfl (fun _ _ => nofun) fun item' hitem => ?_
    rw [← Option.some.inj hitem]
    exact hlen
  | waitSpace item hspace hpc =>
    refine h.moved rfl rfl rfl rfl (fun _ _ => nofun) fun item' hitem => ?_
    exact h.whole p item' (hpc ▸ hitem)
  | takePut item hpc =>
    constructor
    · show (s.puts ++ [item]).length = s.rb.iput + 1
      rw [List.length_append, h.length_eq, List.length_singleton]
    · intro r item' ticket hr
      show (s.puts ++ [item])[ticket]? = some item'
      rcases moved_pc rfl hr with ⟨-, he⟩ | ⟨-, hr⟩
      · obtain ⟨rfl, rfl⟩ := Pc.copyingPut.inj he
        rw [← h.length_eq, List.getElem?_concat_length]
      · have hold := h.ticket r item' ticket hr
        rw [List.getElem?_append_left (List.getElem?_eq_some_iff.mp hold).1]
        exact hold
    · intro r item' hr
      change (Function.update s.pc p (.copyingPut item s.rb.iput) r).item? = some item' at hr
      rcases eq_or_ne r p with rfl | hne
      · rw [Function.update_self] at hr
        rw [← Option.some.inj hr]
        exact h.whole r item (by rw [hpc]; rfl)
      · rw [Function.update_of_ne hne] at hr
        exact h.whole r item' hr
  | _ => exact h.moved rfl rfl rfl rfl (fun _ _ => nofun) fun _ => nofun

/-- A process moves without taking or copying the ticket of a get. -/
theorem GetTickets.moved {s t : State π} {p : π} {q : Pc} (h : GetTickets s)
    (hpc : t.pc = Function.update s.pc p q) (hgets : t.gets = s.gets)
    (higet : t.rb.iget = s.rb.iget) (hp : ∀ ticket, s.pc p ≠ .copyingGet ticket)
    (hq : ∀ ticket, q ≠ .copyingGet ticket) : GetTickets t := by
  have hsame : ∀ r ticket, t.pc r = .copyingGet ticket → s.pc r = .copyingGet ticket := by
    intro r ticket hr
    rcases moved_pc hpc hr with ⟨-, he⟩ | ⟨-, hr⟩
    · exact absurd he (hq ticket)
    · exact hr
  constructor
  · intro r ticket hr
    rw [higet]
    exact h.taken r ticket (hsame r ticket hr)
  · intro r r' ticket hr hr'
    exact h.unique r r' ticket (hsame r ticket hr) (hsame r' ticket hr')
  · intro ticket hmem
    rw [hgets] at hmem
    have hlogged := h.logged ticket hmem
    rw [higet]
    exact ⟨hlogged.1, fun r hr => hlogged.2 r (hsame r ticket hr)⟩
  · rw [hgets]
    exact h.nodup
  · intro ticket hlt
    rw [higet] at hlt
    rw [hgets]
    rcases h.complete ticket hlt with hmem | ⟨r, hr⟩
    · exact .inl hmem
    · have hne : r ≠ p := fun he => hp ticket (he ▸ hr)
      exact .inr ⟨r, by rw [hpc, Function.update_of_ne hne, hr]⟩

/-- A get takes the next ticket. -/
theorem GetTickets.take {s : State π} {p : π} (h : GetTickets s) (hp : s.pc p = .takingGet) :
    GetTickets ({ s with rb.iget := s.rb.iget + 1 }.goto p (.copyingGet s.rb.iget)) := by
  constructor
  · intro r ticket hr
    show ticket < s.rb.iget + 1
    rcases moved_pc rfl hr with ⟨-, he⟩ | ⟨-, hr⟩
    · rw [← Pc.copyingGet.inj he]
      exact Nat.lt_succ_self _
    · exact Nat.lt_succ_of_lt (h.taken r ticket hr)
  · intro r r' ticket hr hr'
    rcases moved_pc rfl hr with ⟨rfl, he⟩ | ⟨-, hs⟩ <;>
      rcases moved_pc rfl hr' with ⟨rfl, he'⟩ | ⟨-, hs'⟩
    · rfl
    · have hlt := h.taken r' ticket hs'
      rw [← Pc.copyingGet.inj he] at hlt
      exact absurd hlt (Nat.lt_irrefl _)
    · have hlt := h.taken r ticket hs
      rw [← Pc.copyingGet.inj he'] at hlt
      exact absurd hlt (Nat.lt_irrefl _)
    · exact h.unique r r' ticket hs hs'
  · intro ticket hmem
    obtain ⟨hlt, hnone⟩ := h.logged ticket hmem
    refine ⟨Nat.lt_succ_of_lt hlt, fun r hr => ?_⟩
    rcases moved_pc rfl hr with ⟨-, he⟩ | ⟨-, hr⟩
    · rw [← Pc.copyingGet.inj he] at hlt
      exact absurd hlt (Nat.lt_irrefl _)
    · exact hnone r hr
  · exact h.nodup
  · intro ticket hlt
    rcases Nat.lt_succ_iff_lt_or_eq.mp hlt with hlt | rfl
    · rcases h.complete ticket hlt with hmem | ⟨r, hr⟩
      · exact .inl hmem
      · have hne : r ≠ p := fun he => by rw [he, hp] at hr; cases hr
        exact .inr ⟨r, (Function.update_of_ne hne _ _).trans hr⟩
    · exact .inr ⟨p, Function.update_self _ _ _⟩

/-- A get copies its element and logs its ticket. -/
theorem GetTickets.copy {s : State π} {p : π} {ticket : ℕ} (h : GetTickets s)
    (hp : s.pc p = .copyingGet ticket) (x : List Byte) :
    GetTickets ({ s with gets := s.gets ++ [(ticket, x)] }.goto p (.postingSpace ticket)) := by
  have hother : ∀ r k, ({ s with gets := s.gets ++ [(ticket, x)] }.goto p
      (.postingSpace ticket)).pc r = .copyingGet k → r ≠ p ∧ s.pc r = .copyingGet k := by
    intro r k hr
    rcases moved_pc rfl hr with ⟨-, he⟩ | hr
    · cases he
    · exact hr
  have hlog : ({ s with gets := s.gets ++ [(ticket, x)] }.goto p (.postingSpace ticket)).gets.map
      Prod.fst = s.gets.map Prod.fst ++ [ticket] := by
    show (s.gets ++ [(ticket, x)]).map Prod.fst = _
    rw [List.map_append, List.map_singleton]
  constructor
  · intro r k hr
    exact h.taken r k (hother r k hr).2
  · intro r r' k hr hr'
    exact h.unique r r' k (hother r k hr).2 (hother r' k hr').2
  · intro k hmem
    rw [hlog] at hmem
    rcases List.mem_append.mp hmem with hmem | hmem
    · have hlogged := h.logged k hmem
      exact ⟨hlogged.1, fun r hr => hlogged.2 r (hother r k hr).2⟩
    · rw [List.mem_singleton.mp hmem]
      refine ⟨h.taken p ticket hp, fun r hr => ?_⟩
      have hr := hother r ticket hr
      exact hr.1 (h.unique r p ticket hr.2 hp)
  · rw [hlog]
    refine List.nodup_append.mpr ⟨h.nodup, List.nodup_singleton ticket, fun k hk k' hk' he => ?_⟩
    rw [he, List.mem_singleton.mp hk'] at hk
    exact (h.logged ticket hk).2 p hp
  · intro k hlt
    rw [hlog]
    rcases h.complete k hlt with hmem | ⟨r, hr⟩
    · exact .inl (List.mem_append_left _ hmem)
    · rcases eq_or_ne r p with rfl | hne
      · rw [hp] at hr
        rw [Pc.copyingGet.inj hr]
        exact .inl (List.mem_append_right _ (List.mem_singleton.mpr rfl))
      · exact .inr ⟨r, (Function.update_of_ne hne _ _).trans hr⟩

/-- Every step keeps the tickets of the gets. -/
theorem GetTickets.step {s t : State π} {p : π} (h : GetTickets s) (hmove : Moves s p t) :
    GetTickets t := by
  cases hmove with
  | takeGet hpc => exact h.take hpc
  | copyGet ticket hpc => exact h.copy hpc _
  | _ =>
    next hpc => exact h.moved rfl rfl rfl (fun _ => by rw [hpc]; nofun) fun _ => nofun

omit [DecidableEq π] in
/-- Tickets are posted after they are taken, and taken after they are counted. -/
theorem Counts.bounds {s : State π} (h : Counts s) :
    s.rb.iput ≤ s.rb.capacity + s.spacePosts ∧ s.rb.iget ≤ s.itemPosts ∧
      s.itemPosts ≤ s.rb.iput ∧ s.spacePosts ≤ s.rb.iget := by
  obtain ⟨a, -, ha⟩ := h.spaces
  obtain ⟨b, -, hb⟩ := h.items
  obtain ⟨c, -, hc⟩ := h.openPuts
  obtain ⟨d, -, hd⟩ := h.openGets
  omega

/-- The `k`-th post of a semaphore is executed only when none of the first `k`
tickets is still to be copied. -/
def PostsInOrder (s : State π) (l : π × Action) : Prop :=
  (∀ ticket, s.pc l.1 = .postingItems ticket →
    ∀ q item t, s.pc q = .copyingPut item t → s.itemPosts < t) ∧
  ∀ ticket, s.pc l.1 = .postingSpace ticket →
    ∀ q t, s.pc q = .copyingGet t → s.spacePosts < t

/-- The tickets below the number of posts have been copied. -/
structure Ordered (s : State π) : Prop where
  puts : ∀ p item t, s.pc p = .copyingPut item t → s.itemPosts ≤ t
  gets : ∀ p t, s.pc p = .copyingGet t → s.spacePosts ≤ t

/-- A process moves without taking a ticket or posting. -/
theorem Ordered.moved {s t : State π} {p : π} {q : Pc} (h : Ordered s)
    (hpc : t.pc = Function.update s.pc p q) (hitems : t.itemPosts = s.itemPosts)
    (hspace : t.spacePosts = s.spacePosts)
    (hput : ∀ item k, q = .copyingPut item k → s.itemPosts ≤ k)
    (hget : ∀ k, q = .copyingGet k → s.spacePosts ≤ k) : Ordered t := by
  constructor
  · intro r item k hr
    rw [hitems]
    rcases moved_pc hpc hr with ⟨-, he⟩ | ⟨-, hr⟩
    · exact hput item k he
    · exact h.puts r item k hr
  · intro r k hr
    rw [hspace]
    rcases moved_pc hpc hr with ⟨-, he⟩ | ⟨-, hr⟩
    · exact hget k he
    · exact h.gets r k hr

/-- Every step whose post is in order keeps the order. -/
theorem Ordered.step {s t : State π} {p : π} {a : Action} (h : Ordered s) (hc : Counts s)
    (hpost : PostsInOrder s (p, a)) (hmove : Moves s p t) : Ordered t := by
  cases hmove with
  | takePut item hpc =>
    refine h.moved rfl rfl rfl (fun item' k he => ?_) fun k he => nomatch he
    rw [← (Pc.copyingPut.inj he).2]
    exact hc.bounds.2.2.1
  | takeGet hpc =>
    refine h.moved rfl rfl rfl (fun item' k he => nomatch he) fun k he => ?_
    rw [← Pc.copyingGet.inj he]
    exact hc.bounds.2.2.2
  | postItems ticket hpc =>
    constructor
    · intro r item k hr
      rcases moved_pc rfl hr with ⟨-, he⟩ | ⟨-, hr⟩
      · cases he
      · exact hpost.1 ticket hpc r item k hr
    · intro r k hr
      rcases moved_pc rfl hr with ⟨-, he⟩ | ⟨-, hr⟩
      · cases he
      · exact h.gets r k hr
  | postSpace ticket hpc =>
    constructor
    · intro r item k hr
      rcases moved_pc rfl hr with ⟨-, he⟩ | ⟨-, hr⟩
      · cases he
      · exact h.puts r item k hr
    · intro r k hr
      rcases moved_pc rfl hr with ⟨-, he⟩ | ⟨-, hr⟩
      · cases he
      · exact hpost.2 ticket hpc r k hr
  | _ => exact h.moved rfl rfl rfl (fun _ _ he => nomatch he) fun _ he => nomatch he

/-- A put that takes a ticket gets a value of `long`. -/
def TicketFits (s : State π) (l : π × Action) : Prop :=
  ∀ item, s.pc l.1 = .takingPut item → s.rb.iput < 2 ^ 63

/-- The slot of a ticket in the range of `long`. -/
theorem slot_eq (rb : MemChannel) {k : ℕ} (hk : k < 2 ^ 63) :
    rb.slot k = ((k % rb.capacity : ℕ) : ℤ) * rb.elemSize := by
  rw [MemChannel.slot, int64_of_nonneg (Int.natCast_nonneg k) (by exact_mod_cast hk),
    Int.tmod_eq_emod_of_nonneg (Int.natCast_nonneg k), Int.natCast_mod]

/-- Tickets less than a capacity apart have slots that share no byte. -/
theorem slot_apart (rb : MemChannel) {k k' low : ℕ} (hne : k ≠ k') (hk : low ≤ k)
    (hlt : k < rb.capacity + low) (hlong : k < 2 ^ 63) (hk' : low ≤ k')
    (hlt' : k' < rb.capacity + low) (hlong' : k' < 2 ^ 63) :
    rb.slot k + rb.elemSize ≤ rb.slot k' ∨ rb.slot k' + rb.elemSize ≤ rb.slot k := by
  have hmod : ((k % rb.capacity : ℕ) : ℤ) ≠ ((k' % rb.capacity : ℕ) : ℤ) := by
    rw [Int.natCast_mod, Int.natCast_mod]
    rcases Nat.lt_or_gt_of_ne hne with h | h
    · have hwrapped : (0 + (k : ℤ)) % rb.capacity ≠ (0 + (k' : ℤ)) % rb.capacity :=
        wrapped_ne (by omega) (by omega)
      rwa [Int.zero_add, Int.zero_add] at hwrapped
    · have hwrapped : (0 + (k' : ℤ)) % rb.capacity ≠ (0 + (k : ℤ)) % rb.capacity :=
        wrapped_ne (by omega) (by omega)
      rw [Int.zero_add, Int.zero_add] at hwrapped
      exact hwrapped.symm
  rw [slot_eq rb hlong, slot_eq rb hlong']
  exact slot_disjoint (Int.natCast_nonneg rb.elemSize) hmod

/-- What the slots hold and the gets returned. -/
structure Slots (s : State π) : Prop where
  /-- From the ticket of the first unposted get on, a copied put stands in its slot. -/
  filled : ∀ k x, s.puts[k]? = some x → s.spacePosts ≤ k →
    (∀ p item, s.pc p ≠ .copyingPut item k) →
    slice s.rb.buffer (s.rb.slot k) s.rb.elemSize = x
  /-- Every get returned the element of the put with its ticket. -/
  returned : ∀ k x, (k, x) ∈ s.gets → s.puts[k]? = some x

/-- A process moves without touching the puts or the bytes. -/
theorem Slots.moved {s t : State π} {p : π} {q : Pc} (h : Slots s)
    (hpc : t.pc = Function.update s.pc p q) (hputs : t.puts = s.puts) (hgets : t.gets = s.gets)
    (hspace : s.spacePosts ≤ t.spacePosts) (hbuffer : t.rb.buffer = s.rb.buffer)
    (hcapacity : t.rb.capacity = s.rb.capacity) (hsize : t.rb.elemSize = s.rb.elemSize)
    (hp : ∀ item k, s.pc p ≠ .copyingPut item k) : Slots t := by
  have hslot : ∀ k, t.rb.slot k = s.rb.slot k := by
    intro k
    rw [MemChannel.slot, MemChannel.slot, hcapacity, hsize]
  constructor
  · intro k x hx hlow hnone
    rw [hbuffer, hslot, hsize]
    rw [hputs] at hx
    refine h.filled k x hx (by omega) fun r item hr => ?_
    rcases eq_or_ne r p with rfl | hne
    · exact hp item k hr
    · exact hnone r item (by rw [hpc, Function.update_of_ne hne, hr])
  · rw [hgets, hputs]
    exact h.returned

omit [DecidableEq π] in
/-- The slot of a get about to copy holds the element of the put with its ticket. -/
theorem Slots.ready {s : State π} (h : Slots s) (hc : Counts s) (hputs : PutTickets s)
    (hgets : GetTickets s) (ho : Ordered s) {p : π} {k : ℕ} (hp : s.pc p = .copyingGet k) :
    s.puts[k]? = some (slice s.rb.buffer (s.rb.slot k) s.rb.elemSize) := by
  obtain ⟨-, higet, hposts, -⟩ := hc.bounds
  have htaken := hgets.taken p k hp
  have hlen : k < s.puts.length := by
    rw [hputs.length_eq]
    omega
  have hput : s.puts[k]? = some s.puts[k] := List.getElem?_eq_getElem hlen
  have hcopied : ∀ r item, s.pc r ≠ .copyingPut item k := by
    intro r item hr
    have := ho.puts r item k hr
    omega
  rw [h.filled k _ hput (ho.gets p k hp) hcopied]
  exact hput

/-- The copy of a put fills its slot and no slot that is still to be read. -/
theorem Slots.copyPut {s : State π} (h : Slots s) (hc : Counts s) (hputs : PutTickets s)
    (ho : Ordered s) (hlong : s.rb.iput ≤ 2 ^ 63) {p : π} {item : List Byte} {ticket : ℕ}
    (hp : s.pc p = .copyingPut item ticket) :
    Slots ({ s with rb.buffer := copy s.rb.buffer (s.rb.slot ticket) item }.goto p
      (.postingItems ticket)) := by
  obtain ⟨hiput, higet, hposts, hspace⟩ := hc.bounds
  have hticket := hputs.ticket p item ticket hp
  have hwhole : item.length = s.rb.elemSize := hputs.whole p item (by rw [hp]; rfl)
  have hlow := ho.puts p item ticket hp
  have htaken := (List.getElem?_eq_some_iff.mp hticket).1
  rw [hputs.length_eq] at htaken
  constructor
  · intro k x hx hk hnone
    change s.puts[k]? = some x at hx
    change s.spacePosts ≤ k at hk
    show slice (copy s.rb.buffer (s.rb.slot ticket) item) (s.rb.slot k) s.rb.elemSize = x
    rcases eq_or_ne k ticket with rfl | hne
    · rw [hticket] at hx
      rw [← Option.some.inj hx, ← hwhole]
      exact slice_copy_same _ _ _
    · have hklt := (List.getElem?_eq_some_iff.mp hx).1
      rw [hputs.length_eq] at hklt
      have hapart :=
        slot_apart s.rb hne hk (by omega) (by omega) (by omega) (by omega) (by omega)
      rw [slice_copy_disjoint (by rw [hwhole]; omega)]
      refine h.filled k x hx hk fun r item' hr => ?_
      rcases eq_or_ne r p with rfl | hrp
      · rw [hp] at hr
        exact hne (Pc.copyingPut.inj hr).2.symm
      · exact hnone r item' ((Function.update_of_ne hrp _ _).trans hr)
  · exact h.returned

/-- Every step keeps the slots. -/
theorem Slots.step {s t : State π} {p : π} (h : Slots s) (hc : Counts s) (hputs : PutTickets s)
    (hgets : GetTickets s) (ho : Ordered s) (hlong : s.rb.iput ≤ 2 ^ 63) (hmove : Moves s p t) :
    Slots t := by
  cases hmove with
  | takePut item hpc =>
    constructor
    · intro k x hx hk hnone
      rcases Nat.lt_or_ge k s.puts.length with hlt | hge
      · have hold : s.puts[k]? = some x := by
          rw [← hx]
          exact (List.getElem?_append_left hlt).symm
        refine h.filled k x hold hk fun r item' hr => ?_
        rcases eq_or_ne r p with rfl | hne
        · rw [hpc] at hr
          cases hr
        · exact hnone r item' ((Function.update_of_ne hne _ _).trans hr)
      · -- the new ticket is the mover's, which has not copied yet
        have hlt : k < (s.puts ++ [item]).length := (List.getElem?_eq_some_iff.mp hx).1
        rw [List.length_append, List.length_singleton] at hlt
        have hk : k = s.rb.iput := by rw [← hputs.length_eq]; omega
        exact absurd (by rw [hk]; exact Function.update_self _ _ _) (hnone p item)
    · intro k x hx
      have hold := h.returned k x hx
      show (s.puts ++ [item])[k]? = some x
      rw [List.getElem?_append_left (List.getElem?_eq_some_iff.mp hold).1]
      exact hold
  | copyPut item ticket hpc => exact h.copyPut hc hputs ho hlong hpc
  | copyGet ticket hpc =>
    have hready := h.ready hc hputs hgets ho hpc
    constructor
    · intro k x hx hk hnone
      refine h.filled k x hx hk fun r item hr => ?_
      have hne : r ≠ p := fun he => by rw [he, hpc] at hr; cases hr
      exact hnone r item ((Function.update_of_ne hne _ _).trans hr)
    · intro k x hx
      rcases List.mem_append.mp hx with hx | hx
      · exact h.returned k x hx
      · obtain ⟨rfl, rfl⟩ := Prod.mk.inj (List.mem_singleton.mp hx)
        exact hready
  | postSpace ticket hpc =>
    exact h.moved rfl rfl rfl (Nat.le_succ _) rfl rfl rfl fun _ _ => by rw [hpc]; nofun
  | _ =>
    next hpc =>
      exact h.moved rfl rfl rfl (Nat.le_refl _) rfl rfl rfl fun _ _ => by rw [hpc]; nofun

/-- What every state of a run with its posts in order and its tickets in range satisfies. -/
structure Inv (s : State π) : Prop where
  range : s.rb.iput ≤ 2 ^ 63
  counts : Counts s
  puts : PutTickets s
  gets : GetTickets s
  ordered : Ordered s
  slots : Slots s

omit [DecidableEq π] in
/-- The new channel. -/
theorem inv_created {elemSize capacity : ℕ} {s : State π} (h : Created elemSize capacity s) :
    Inv s := by
  obtain ⟨buffer, rfl⟩ := h
  exact {
    range := Nat.zero_le _
    counts := {
      spaces := ⟨0, .none fun _ => nofun, by
        show 0 + capacity + 0 = capacity + 0
        omega⟩
      items := ⟨0, .none fun _ => nofun, rfl⟩
      openPuts := ⟨0, .none fun _ => nofun, rfl⟩
      openGets := ⟨0, .none fun _ => nofun, rfl⟩ }
    puts := {
      length_eq := rfl
      ticket := fun _ _ _ hp => nomatch hp
      whole := fun _ _ hp => nomatch hp }
    gets := {
      taken := fun _ _ hp => nomatch hp
      unique := fun _ _ _ hp => nomatch hp
      logged := fun _ hmem => nomatch hmem
      nodup := List.nodup_nil
      complete := fun _ hlt => absurd hlt (Nat.not_lt_zero _) }
    ordered := {
      puts := fun _ _ _ hp => nomatch hp
      gets := fun _ _ hp => nomatch hp }
    slots := {
      filled := fun k x hx => by simp at hx
      returned := fun _ _ hmem => nomatch hmem } }

/-- Every step keeps the tickets in range, if it takes none out of it. -/
theorem iput_step {s t : State π} {p : π} {a : Action} (h : s.rb.iput ≤ 2 ^ 63)
    (hticket : TicketFits s (p, a)) (hmove : Moves s p t) : t.rb.iput ≤ 2 ^ 63 := by
  cases hmove with
  | takePut item hpc => exact hticket item hpc
  | _ => exact h

/-- Every step whose post is in order and whose ticket is in range keeps all of it. -/
theorem Inv.step {s t : State π} {p : π} {a : Action} (h : Inv s)
    (hpost : PostsInOrder s (p, a)) (hticket : TicketFits s (p, a))
    (hnext : s.next (p, a) = some t) : Inv t := by
  have hmove := next_moves hnext
  exact {
    range := iput_step h.range hticket hmove
    counts := h.counts.step hmove
    puts := h.puts.step hmove
    gets := h.gets.step hmove
    ordered := h.ordered.step h.counts hpost hmove
    slots := h.slots.step h.counts h.puts h.gets h.ordered h.range hmove }

/-- The channel delivers by ticket. -/
structure DeliversByTicket (s : State π) : Prop where
  /-- Every get returned the whole element of the put with its ticket. -/
  element : ∀ k x, (k, x) ∈ s.gets → s.puts[k]? = some x
  /-- A get only copies after the put with its ticket has copied. -/
  afterPut : ∀ p k, s.pc p = .copyingGet k →
    k < s.rb.iput ∧ ∀ q item, s.pc q ≠ .copyingPut item k
  /-- A put only copies after the gets of the earlier tickets on its slot have copied. -/
  afterGet : ∀ p item k, s.pc p = .copyingPut item k →
    ∀ j < k, j % s.rb.capacity = k % s.rb.capacity →
      j < s.rb.iget ∧ ∀ q, s.pc q ≠ .copyingGet j
  /-- No element is returned twice. -/
  once : (s.gets.map Prod.fst).Nodup
  /-- Every get that took a ticket and is past its copy returned its element. -/
  every : ∀ k < s.rb.iget, (∀ p, s.pc p ≠ .copyingGet k) → ∃ x, (k, x) ∈ s.gets

omit [DecidableEq π] in
/-- The invariants say that the channel delivers by ticket. -/
theorem Inv.delivers {s : State π} (h : Inv s) : DeliversByTicket s := by
  obtain ⟨hiput, higet, hposts, hspace⟩ := h.counts.bounds
  constructor
  · exact h.slots.returned
  · intro p k hp
    have htaken := h.gets.taken p k hp
    refine ⟨by omega, fun q item hq => ?_⟩
    have hlow := h.ordered.puts q item k hq
    omega
  · intro p item k hp j hjk hslot
    have hticket := h.puts.ticket p item k hp
    have htaken := (List.getElem?_eq_some_iff.mp hticket).1
    rw [h.puts.length_eq] at htaken
    have hdvd : s.rb.capacity ∣ k - j := (Nat.modEq_iff_dvd' hjk.le).mp hslot
    have hle := Nat.le_of_dvd (by omega) hdvd
    refine ⟨by omega, fun q hq => ?_⟩
    have hlow := h.ordered.gets q j hq
    omega
  · exact h.gets.nodup
  · intro k hlt hnone
    rcases h.gets.complete k hlt with hmem | ⟨p, hp⟩
    · obtain ⟨⟨k', x⟩, hx, rfl⟩ := List.mem_map.mp hmem
      exact ⟨x, hx⟩
    · exact absurd hp (hnone p)

/-- In every run whose posts are in order and whose tickets are values of `long`, the
channel delivers by ticket. -/
theorem semaphore_channel_delivers {elemSize capacity : ℕ} {s t : State π}
    {trace : List (Transition (State π) (π × Action))} (hcreated : Created elemSize capacity s)
    (hrun : (channel π elemSize capacity).Run s trace t)
    (hposts : ∀ x ∈ trace, PostsInOrder x.source x.label)
    (htickets : ∀ x ∈ trace, TicketFits x.source x.label) : DeliversByTicket t := by
  have hordered : ((channel π elemSize capacity).restrict fun s l =>
      PostsInOrder s l ∧ TicketFits s l).Run s trace t :=
    hrun.restrict fun x hx => ⟨hposts x hx, htickets x hx⟩
  have hreachable := hordered.reachable (.start hcreated)
  refine Inv.delivers (System.Reachable.invariant (I := Inv) ?_ ?_ hreachable)
  · exact fun _ h => inv_created h
  · rintro x ⟨p, a⟩ y - hI ⟨⟨hpost, hticket⟩, hnext⟩
    exact hI.step hpost hticket hnext

/-- A single process puts an element and gets it back. -/
theorem semaphore_channel_delivers_alone : ∃ t : State Unit,
    t.gets = [(0, [7#8])] ∧ t.puts = [[7#8]] ∧ DeliversByTicket t := by
  have halone : ∀ (s : State Unit) l, PostsInOrder s l := by
    intro s l
    constructor
    · intro ticket hl q item k hq
      rw [hl] at hq
      cases hq
    · intro ticket hl q k hq
      rw [hl] at hq
      cases hq
  obtain ⟨trace, t, hrun, hlong, hlast⟩ := @System.Run.exists_of_any (State Unit) _ (Created 1 2)
    State.next (fun s _ => s.rb.iput < 2 ^ 63) _
    (fun t => t.gets = [(0, [7#8])] ∧ t.puts = [[7#8]])
    (((), .call (.put [7#8])) :: List.replicate 4 ((), .run) ++
      ((), .call .get) :: List.replicate 4 ((), .run))
    ⟨mcCreate 1 2 fun _ => 0#8, fun _ => .idle, [], [], 0, 0⟩ (by decide +kernel)
  obtain ⟨hgets, hputs⟩ := of_decide_eq_true hlast
  exact ⟨t, hgets, hputs, semaphore_channel_delivers ⟨_, rfl⟩ hrun
    (fun x _ => halone x.source x.label) fun x hx _ _ => hlong x hx⟩

/-- Of two puts the second finishes first, and its post lets a get copy the
slot that the first has not filled. -/
theorem unfilled_slot_returned : ∃ s : State (Fin 3), (channel (Fin 3) 1 2).Reachable s ∧
    s.puts = [[1#8], [2#8]] ∧ s.gets = [(0, [0#8])] ∧ ¬ DeliversByTicket s := by
  have hstart : (channel (Fin 3) 1 2).Reachable
      ⟨mcCreate 1 2 fun _ => 0#8, fun _ => .idle, [], [], 0, 0⟩ := .start ⟨_, rfl⟩
  obtain ⟨s, hs, hlast⟩ := hstart.exists_of_any
    ([(0, .call (.put [1#8])), (0, .run), (0, .run)] ++
      (1, .call (.put [2#8])) :: List.replicate 4 (1, .run) ++
      (2, .call .get) :: List.replicate 3 (2, .run))
    (p := fun s => s.puts = [[1#8], [2#8]] ∧ s.gets = [(0, [0#8])]) (by decide +kernel)
  obtain ⟨hputs, hgets⟩ := of_decide_eq_true hlast
  refine ⟨s, hs, hputs, hgets, fun hdelivers => ?_⟩
  have helement := hdelivers.element 0 [0#8] (by rw [hgets]; exact List.mem_singleton.mpr rfl)
  rw [hputs] at helement
  exact absurd helement (by decide)

end SistemasOperativos.SemaphoreChannel
