import SistemasOperativos.Census
import SistemasOperativos.ThreadPoolClosing

/-!
# Accepted work is executed exactly once before the pool is destroyed

Every item put is in the queue, in the hand of one worker, or called. No item
stands behind a null, each worker stops at its first null, and there is one for
each of them. When all workers are joined, all nulls have been taken, hence all
items before them.
-/

namespace SistemasOperativos.ThreadPool

open TransitionRuns ConditionMonitor Census

variable {κ φ α : Type*} [DecidableEq κ]

/-- Every item is created once. -/
structure Fresh (s : State κ φ α) : Prop where
  below : ∀ x ∈ s.enqueued, x.id < s.created
  nodup : (s.enqueued.map WorkItem.id).Nodup
  /-- An item about to be put is not in the queue. -/
  carried : ∀ p x, (s.pc p).carried = some x →
    x.id < s.created ∧ x.id ∉ s.enqueued.map WorkItem.id

/-- A thread moves with the item that it carries, or drops it. -/
theorem Fresh.moved {s t : State κ φ α} {p : Thread κ} {q : Pc φ α} (h : Fresh s)
    (hpc : t.pc = Function.update s.pc p q) (hcreated : t.created = s.created)
    (henqueued : t.enqueued = s.enqueued)
    (hq : ∀ x, q.carried = some x → (s.pc p).carried = some x) : Fresh t := by
  constructor
  · rw [henqueued, hcreated]
    exact h.below
  · rw [henqueued]
    exact h.nodup
  · intro r x hr
    rw [henqueued, hcreated]
    rw [hpc] at hr
    rcases eq_or_ne r p with rfl | hne
    · rw [Function.update_self] at hr
      exact h.carried r x (hq x hr)
    · rw [Function.update_of_ne hne] at hr
      exact h.carried r x hr

/-- A thread creates an item. -/
theorem Fresh.create {s : State κ φ α} {p : Thread κ} (h : Fresh s) (k : Caller φ α) (func : φ)
    (arg : α) : Fresh ({ s with created := s.created + 1 }.goto p
      (.putting (.submit k) (some ⟨s.created, func, arg⟩) .locking)) := by
  constructor
  · intro x hx
    exact Nat.lt_succ_of_lt (h.below x hx)
  · exact h.nodup
  · intro r x hr
    change (Function.update s.pc p _ r).carried = some x at hr
    show x.id < s.created + 1 ∧ x.id ∉ s.enqueued.map WorkItem.id
    rcases eq_or_ne r p with rfl | hne
    · rw [Function.update_self] at hr
      rw [← Option.some.inj hr]
      refine ⟨Nat.lt_succ_self _, fun hmem => ?_⟩
      obtain ⟨y, hy, hid⟩ := List.mem_map.mp hmem
      exact absurd (h.below y hy) (by rw [hid]; exact Nat.lt_irrefl _)
    · rw [Function.update_of_ne hne] at hr
      have hold := h.carried r x hr
      exact ⟨Nat.lt_succ_of_lt hold.1, hold.2⟩

/-- The item that is put is the only one carried, since its thread holds the lock. -/
theorem Fresh.insert {s : State κ φ α} {p : Thread κ} {k : PutCaller φ α} {x : WorkItem φ α}
    (h : Fresh s) (hlocked : Locked s) (hpc : s.pc p = .putting k (some x) .inserting) :
    Fresh ((s.insert (some x)).goto p (.putting k (some x) .signaling)) := by
  have hx := h.carried p x (by rw [hpc]; rfl)
  constructor
  · intro y hy
    rcases List.mem_append.mp hy with hy | hy
    · exact h.below y hy
    · rw [List.mem_singleton.mp hy]
      exact hx.1
  · show ((s.enqueued ++ [x]).map WorkItem.id).Nodup
    rw [List.map_append, List.map_singleton]
    refine List.nodup_append.mpr ⟨h.nodup, List.nodup_singleton _, fun i hi j hj he => ?_⟩
    rw [he, List.mem_singleton.mp hj] at hi
    exact hx.2 hi
  · intro r y hr
    change (Function.update s.pc p _ r).carried = some y at hr
    rcases eq_or_ne r p with rfl | hne
    · rw [Function.update_self] at hr
      cases hr
    · rw [Function.update_of_ne hne] at hr
      have hheld : (s.pc r).lockHeld = true := by
        cases hq : s.pc r with
        | putting k item stage => rfl
        | _ =>
          rw [hq] at hr
          cases hr
      exact absurd (hlocked.unique hheld (by rw [hpc]; rfl)) hne

/-- Every step keeps the items apart. -/
theorem Fresh.step {s t : State κ φ α} {p : Thread κ} (h : Fresh s) (hlocked : Locked s)
    (hmove : Moves s p t) : Fresh t := by
  cases hmove with
  | quiet q _ _ _ _ hquiet =>
    exact h.moved rfl rfl rfl fun x hx => hquiet.carried_eq ▸ hx
  | win _ hpc => exact h.moved rfl rfl rfl fun _ hx => nomatch hx
  | create k func arg _ hpc => exact h.create k func arg
  | insert k item hpc =>
    cases item with
    | some x => exact h.insert hlocked hpc
    | none => exact h.moved (q := .putting k none .signaling) rfl rfl rfl fun _ hx => nomatch hx
  | remove item rest _ hpc =>
    exact h.moved (q := .getUnlocking item) (by cases item <;> rfl) (by cases item <;> rfl)
      (by cases item <;> rfl) fun _ hx => nomatch hx
  | call x hpc => exact h.moved rfl rfl rfl fun _ hx => nomatch hx

/-- What is in the queue, and what has been taken out of it. -/
structure Stock (s : State κ φ α) (pending : List (WorkItem φ α)) (k m : ℕ) : Prop where
  /-- No item stands behind a null. -/
  list_eq : s.list = pending.map some ++ List.replicate k none
  /-- Items are taken in the order in which they were put. -/
  enqueued_eq : s.enqueued = s.taken.map Prod.snd ++ pending
  /-- A thread calls the items that it takes, in order. -/
  hands : ∀ p, (s.taken.filter fun e => decide (e.1 = p)).map Prod.snd =
    s.called p ++ (s.pc p).hand.toList
  /-- Only workers take items. -/
  takers : ∀ e ∈ s.taken, e.1.isWorker = true
  /-- A thread takes at most one null. -/
  stops_eq : ∀ p, s.stops p = if (s.pc p).ended then 1 else 0
  /-- The nulls are in the queue, or with the `m` threads that took them. -/
  ended : Standing s.pc (fun q => q.ended) m
  nulls_eq : m + k = s.nulls
  /-- A null is only taken when no item is left. -/
  drained : 0 < m → pending = []

/-- A thread moves without the queue. -/
theorem Stock.moved {s t : State κ φ α} {p : Thread κ} {q : Pc φ α} {k m : ℕ}
    {pending : List (WorkItem φ α)} (h : Stock s pending k m)
    (hpc : t.pc = Function.update s.pc p q) (hlist : t.list = s.list)
    (henqueued : t.enqueued = s.enqueued) (htaken : t.taken = s.taken)
    (hcalled : t.called = s.called) (hstops : t.stops = s.stops) (hnulls : t.nulls = s.nulls)
    (hhand : q.hand = (s.pc p).hand) (hended : q.ended = (s.pc p).ended) :
    Stock t pending k m := by
  constructor
  · rw [hlist, h.list_eq]
  · rw [henqueued, htaken, h.enqueued_eq]
  · intro r
    rw [htaken, hcalled, h.hands r, hpc]
    rcases eq_or_ne r p with rfl | hne
    · rw [Function.update_self, hhand]
    · rw [Function.update_of_ne hne]
  · rw [htaken]
    exact h.takers
  · intro r
    rw [hstops, h.stops_eq r, hpc]
    rcases eq_or_ne r p with rfl | hne
    · rw [Function.update_self, hended]
    · rw [Function.update_of_ne hne]
  · rw [hpc]
    exact h.ended.stay (by rw [hended])
  · rw [hnulls, h.nulls_eq]
  · exact h.drained

section StockSteps

variable {s : State κ φ α} {p : Thread κ} {pending : List (WorkItem φ α)} {k m : ℕ}

/-- An item is only put while no null has been put. -/
theorem Stock.insertItem (h : Stock s pending k m) (hflag : Flag s) {c : Caller φ α}
    {x : WorkItem φ α} (hpc : s.pc p = .putting (.submit c) (some x) .inserting) :
    Stock ((s.insert (some x)).goto p (.putting (.submit c) (some x) .signaling))
      (pending ++ [x]) 0 0 := by
  have hnulls : s.nulls = 0 := by
    by_contra hne
    have hclosed := hflag.closed (Nat.pos_of_ne_zero hne) p
    rw [hpc] at hclosed
    cases hclosed
  have hsum := h.nulls_eq
  have hk : k = 0 := by omega
  have hm : m = 0 := by omega
  subst hk hm
  have hmoved := h.moved (t := s.goto p (.putting (.submit c) (some x) .signaling)) rfl rfl rfl rfl
    rfl rfl rfl (by rw [hpc]; rfl) (by rw [hpc]; rfl)
  exact {
    list_eq := by
      show s.list ++ [some x] = (pending ++ [x]).map some ++ []
      rw [h.list_eq, List.replicate_zero, List.append_nil, List.append_nil, List.map_append,
        List.map_singleton]
    enqueued_eq := by
      show s.enqueued ++ [x] = s.taken.map Prod.snd ++ (pending ++ [x])
      rw [h.enqueued_eq, List.append_assoc]
    hands := hmoved.hands
    takers := hmoved.takers
    stops_eq := hmoved.stops_eq
    ended := hmoved.ended
    nulls_eq := hmoved.nulls_eq
    drained := fun hpos => absurd hpos (Nat.lt_irrefl 0) }

/-- A null goes behind everything else. -/
theorem Stock.insertNull (h : Stock s pending k m) {c : PutCaller φ α}
    (hpc : s.pc p = .putting c none .inserting) :
    Stock ((s.insert none).goto p (.putting c none .signaling)) pending (k + 1) m := by
  have hmoved := h.moved (t := s.goto p (.putting c none .signaling)) rfl rfl rfl rfl
    rfl rfl rfl (by rw [hpc]; rfl) (by rw [hpc]; rfl)
  have hsum := h.nulls_eq
  exact {
    list_eq := by
      show s.list ++ [none] = _
      rw [h.list_eq, List.append_assoc, List.replicate_succ']
    enqueued_eq := hmoved.enqueued_eq
    hands := hmoved.hands
    takers := hmoved.takers
    stops_eq := hmoved.stops_eq
    ended := hmoved.ended
    nulls_eq := by show m + (k + 1) = s.nulls + 1; omega
    drained := hmoved.drained }

/-- The oldest item is taken while there is one. -/
theorem Stock.removeItem (h : Stock s pending k m) (hplaced : Placed s) {x : WorkItem φ α}
    {rest : List (Option (WorkItem φ α))} (hlist : s.list = some x :: rest)
    (hpc : s.pc p = .getRemoving) :
    ∃ pending', Stock ((s.remove p rest (some x)).goto p (.getUnlocking (some x))) pending' k m := by
  have hshape := h.list_eq
  rw [hlist] at hshape
  cases pending with
  | nil =>
    have hmem : some x ∈ List.replicate k (none : Option (WorkItem φ α)) := by
      rw [List.map_nil, List.nil_append] at hshape
      rw [← hshape]
      exact List.mem_cons_self
    exact absurd (List.eq_of_mem_replicate hmem) nofun
  | cons y pending' =>
    simp only [List.map_cons, List.cons_append, List.cons.injEq, Option.some.injEq] at hshape
    obtain ⟨rfl, hrest⟩ := hshape
    refine ⟨pending', ?_⟩
    exact {
      list_eq := hrest
      enqueued_eq := by
        show s.enqueued = (s.taken ++ [(p, x)]).map Prod.snd ++ pending'
        rw [h.enqueued_eq, List.map_append, List.map_singleton, List.append_assoc,
          List.singleton_append]
      hands := by
        intro r
        show ((s.taken ++ [(p, x)]).filter fun e => decide (e.1 = r)).map Prod.snd =
          s.called r ++ (Function.update s.pc p (.getUnlocking (some x)) r).hand.toList
        have hold := h.hands r
        rw [List.filter_append, List.map_append, hold]
        rcases eq_or_ne r p with rfl | hne
        · rw [Function.update_self, hpc, List.filter_cons_of_pos (by simp)]
          simp [Pc.hand]
        · rw [Function.update_of_ne hne, List.filter_cons_of_neg (by simpa using Ne.symm hne)]
          simp
      takers := by
        intro e he
        rcases List.mem_append.mp he with he | he
        · exact h.takers e he
        · rw [List.mem_singleton.mp he, ← hplaced.role p, hpc]
          rfl
      stops_eq := by
        intro r
        show s.stops r = if (Function.update s.pc p (.getUnlocking (some x)) r).ended then 1 else 0
        rw [h.stops_eq r]
        rcases eq_or_ne r p with rfl | hne
        · rw [Function.update_self, hpc]
          rfl
        · rw [Function.update_of_ne hne]
      ended := h.ended.stay (by rw [hpc]; rfl)
      nulls_eq := h.nulls_eq
      drained := fun hpos => absurd (h.drained hpos) (List.cons_ne_nil _ _) }

/-- A null is taken when no item is left. -/
theorem Stock.removeNull (h : Stock s pending k m) {rest : List (Option (WorkItem φ α))}
    (hlist : s.list = none :: rest) (hpc : s.pc p = .getRemoving) :
    ∃ k', Stock ((s.remove p rest none).goto p (.getUnlocking none)) [] k' (m + 1) := by
  have hshape := h.list_eq
  rw [hlist] at hshape
  cases pending with
  | cons y pending' =>
    simp only [List.map_cons, List.cons_append, List.cons.injEq, reduceCtorEq, false_and] at hshape
  | nil =>
    cases k with
    | zero => cases hshape
    | succ k' =>
      rw [List.map_nil, List.nil_append, List.replicate_succ, List.cons.injEq] at hshape
      have hsum := h.nulls_eq
      refine ⟨k', ?_⟩
      exact {
        list_eq := hshape.2
        enqueued_eq := h.enqueued_eq
        hands := by
          intro r
          show _ = s.called r ++ (Function.update s.pc p (.getUnlocking none) r).hand.toList
          rcases eq_or_ne r p with rfl | hne
          · have hold := h.hands r
            rw [hpc] at hold
            rw [Function.update_self]
            exact hold
          · rw [Function.update_of_ne hne]
            exact h.hands r
        takers := h.takers
        stops_eq := by
          intro r
          show Function.update s.stops p (s.stops p + 1) r =
            if (Function.update s.pc p (.getUnlocking none) r).ended then 1 else 0
          rcases eq_or_ne r p with rfl | hne
          · rw [Function.update_self, Function.update_self, h.stops_eq r, hpc]
            rfl
          · rw [Function.update_of_ne hne, Function.update_of_ne hne, h.stops_eq r]
        ended := by
          have hmove := h.ended.move p (.getUnlocking none)
          rw [hpc] at hmove
          exact hmove
        nulls_eq := by show m + 1 + k' = s.nulls; omega
        drained := fun _ => rfl }

/-- A worker calls the function of the item in its hand. -/
theorem Stock.call (h : Stock s pending k m) {x : WorkItem φ α} (hpc : s.pc p = .calling x) :
    Stock ({ s with called := Function.update s.called p (s.called p ++ [x]) }.goto p (.running x))
      pending k m := by
  exact {
    list_eq := h.list_eq
    enqueued_eq := h.enqueued_eq
    hands := by
      intro r
      show _ = Function.update s.called p (s.called p ++ [x]) r ++
        (Function.update s.pc p (.running x) r).hand.toList
      have hold := h.hands r
      rcases eq_or_ne r p with rfl | hne
      · rw [hpc] at hold
        rw [Function.update_self, Function.update_self]
        simp only [Pc.hand, Option.toList_some] at hold
        simp only [Pc.hand, Option.toList_none, List.append_nil]
        exact hold
      · rw [Function.update_of_ne hne, Function.update_of_ne hne]
        exact hold
    takers := h.takers
    stops_eq := by
      intro r
      show s.stops r = if (Function.update s.pc p (.running x) r).ended then 1 else 0
      rw [h.stops_eq r]
      rcases eq_or_ne r p with rfl | hne
      · rw [Function.update_self, hpc]
        rfl
      · rw [Function.update_of_ne hne]
    ended := h.ended.stay (by rw [hpc]; rfl)
    nulls_eq := h.nulls_eq
    drained := h.drained }

/-- Every step keeps the stock. -/
theorem Stock.step {t : State κ φ α} (h : Stock s pending k m) (hplaced : Placed s)
    (hflag : Flag s) (hmove : Moves s p t) : ∃ pending' k' m', Stock t pending' k' m' := by
  have hp := hplaced.wellFormed p
  cases hmove with
  | quiet q _ _ _ _ hquiet =>
    exact ⟨_, _, _, h.moved rfl rfl rfl rfl rfl rfl rfl hquiet.hand_eq hquiet.ended_eq⟩
  | win _ hpc =>
    exact ⟨_, _, _, h.moved rfl rfl rfl rfl rfl rfl rfl (by rw [hpc]; rfl) (by rw [hpc]; rfl)⟩
  | create c func arg _ hpc =>
    exact ⟨_, _, _, h.moved rfl rfl rfl rfl rfl rfl rfl (by rw [hpc]; rfl) (by rw [hpc]; rfl)⟩
  | insert c item hpc =>
    rw [hpc] at hp
    cases c with
    | submit c =>
      obtain ⟨x, rfl⟩ := hp
      exact ⟨_, _, _, h.insertItem hflag hpc⟩
    | destroy i =>
      obtain ⟨-, rfl⟩ := hp
      exact ⟨_, _, _, h.insertNull hpc⟩
  | remove item rest hlist hpc =>
    cases item with
    | some x =>
      obtain ⟨pending', hstock⟩ := h.removeItem hplaced hlist hpc
      exact ⟨_, _, _, hstock⟩
    | none =>
      obtain ⟨k', hstock⟩ := h.removeNull hlist hpc
      exact ⟨_, _, _, hstock⟩
  | call x hpc => exact ⟨_, _, _, h.call hpc⟩

end StockSteps

/-- Where the threads stand after a step. -/
theorem Moves.pc_eq {s t : State κ φ α} {p : Thread κ} (h : Moves s p t) :
    ∃ q, t.pc = Function.update s.pc p q := by
  cases h with
  | insert k item _ => exact ⟨.putting k item .signaling, by cases item <;> rfl⟩
  | remove item _ _ _ => exact ⟨.getUnlocking item, by cases item <;> rfl⟩
  | _ => exact ⟨_, rfl⟩

/-- A finished worker stays finished. -/
theorem finished_stable {s t : State κ φ α} {p r : Thread κ} (hmove : Moves s p t)
    (hr : s.pc r = .finished) : t.pc r = .finished := by
  rcases eq_or_ne r p with rfl | hne
  · cases hmove with
    | quiet q _ _ _ _ hquiet =>
      rw [hr] at hquiet
      cases hquiet
      exact Function.update_self _ _ _
    | win _ hpc | create _ _ _ _ hpc | insert _ _ hpc | remove _ _ _ hpc | call _ hpc =>
      rw [hr] at hpc
      cases hpc
  · obtain ⟨q, hpc⟩ := hmove.pc_eq
    rw [hpc, Function.update_of_ne hne, hr]

/-- What the thread that set the flag has joined. -/
structure Joined (s : State κ φ α) : Prop where
  joining : ∀ p i, s.pc p = .joining i → ∀ j : Fin nthreads, j < i → s.pc (.worker j) = .finished
  /-- Past the joins all workers have finished. -/
  done : ∀ p, s.winner = some p → (s.pc p).winning = false →
    ∀ j, s.pc (.worker j) = .finished

/-- A thread that sets the flag or moves before its joins has joined nobody. -/
theorem Joined.moved {s t : State κ φ α} {p : Thread κ} {q : Pc φ α} (h : Joined s)
    (hmove : Moves s p t) (hpc : t.pc = Function.update s.pc p q)
    (hwinner : ∀ r, t.winner = some r → r = p ∧ q.winning = true ∨ s.winner = some r)
    (hjoining : ∀ i, q = .joining i → ∀ j : Fin nthreads, j < i → s.pc (.worker j) = .finished)
    (hdone : s.winner = some p → q.winning = false → (s.pc p).winning = true →
      ∀ j, s.pc (.worker j) = .finished) : Joined t := by
  constructor
  · intro r i hr j hj
    refine finished_stable hmove ?_
    rw [hpc] at hr
    rcases eq_or_ne r p with rfl | hne
    · rw [Function.update_self] at hr
      exact hjoining i hr j hj
    · rw [Function.update_of_ne hne] at hr
      exact h.joining r i hr j hj
  · intro r hr hnot j
    refine finished_stable hmove ?_
    rw [hpc] at hnot
    rcases hwinner r hr with ⟨rfl, hq⟩ | hs
    · rw [Function.update_self, hq] at hnot
      cases hnot
    · rcases eq_or_ne r p with rfl | hne
      · rw [Function.update_self] at hnot
        cases hp : (s.pc r).winning with
        | true => exact hdone hs hnot hp j
        | false => exact h.done r hs hp j
      · rw [Function.update_of_ne hne] at hnot
        exact h.done r hs hnot j

omit [DecidableEq κ] in
/-- A thread that only moves ends the destruction behind its joins. -/
theorem Quiet.joins {s : State κ φ α} {q q' : Pc φ α} (h : Quiet s q q') (hwin : q.winning = true) :
    q'.winning = true ∨ ∃ i, ¬ i < nthreads ∧ q = .joining i := by
  cases h with
  | still => exact .inl hwin
  | putLocked k => cases k <;> exact .inl hwin
  | putSignaled k => cases k <;> exact .inl hwin
  | putUnlocked k => cases k <;> first | exact .inl rfl | cases hwin
  | joined i hi => exact .inr ⟨i, hi, rfl⟩
  | destroyLocked | fill | filled | destroyUnlocked | join => exact .inl rfl
  | loaded k | submitLocked k | refused k | refusedEarly k | submitUnlocked k => cases hwin
  | _ => cases hwin

omit [DecidableEq κ] in
/-- A thread that only moves to a join starts there or has joined one more worker. -/
theorem Quiet.joining_of {s : State κ φ α} {q q' : Pc φ α} (h : Quiet s q q') {i : ℕ}
    (hi : q' = .joining i) : q = .joining i ∨ i = 0 ∨
      ∃ j : Fin nthreads, i = j + 1 ∧ q = .joining j ∧ s.pc (.worker j) = .finished := by
  cases h with
  | still => exact .inl hi
  | destroyUnlocked => exact .inr (.inl (Pc.joining.inj hi).symm)
  | join j hfinished => exact .inr (.inr ⟨j, (Pc.joining.inj hi).symm, rfl, hfinished⟩)
  | refusedEarly k => cases k <;> cases hi
  | submitUnlocked k => cases k <;> cases hi
  | putUnlocked k => cases k <;> cases hi
  | _ => cases hi

/-- Every step keeps the joins. -/
theorem Joined.step {s t : State κ φ α} {p : Thread κ} (h : Joined s) (hmove : Moves s p t) :
    Joined t := by
  have hcases := hmove
  cases hcases with
  | quiet q _ _ _ _ hquiet =>
    refine h.moved hmove rfl (fun r hr => .inr hr) ?_ ?_
    · intro i hi j hj
      rcases hquiet.joining_of hi with hq | rfl | ⟨j', rfl, hq, hfinished⟩
      · exact h.joining p i hq j hj
      · exact absurd hj (Nat.not_lt_zero _)
      · rcases Nat.lt_succ_iff_lt_or_eq.mp hj with hlt | heq
        · exact h.joining p j' hq j hlt
        · rw [Fin.ext heq]
          exact hfinished
    · intro _ hnot hwin j
      rcases hquiet.joins hwin with hq | ⟨i, hi, hq⟩
      · rw [hq] at hnot
        cases hnot
      · exact h.joining p i hq j (Nat.lt_of_lt_of_le j.isLt (Nat.le_of_not_lt hi))
  | win _ hpc =>
    refine h.moved hmove rfl (fun r hr => ?_) (fun i hi => nomatch hi) fun _ hq => nomatch hq
    exact .inl ⟨(Option.some.inj hr).symm, rfl⟩
  | create k func arg _ hpc =>
    refine h.moved hmove rfl (fun r hr => .inr hr) (fun i hi => nomatch hi) ?_
    intro _ _ hwin
    rw [hpc] at hwin
    cases hwin
  | insert k item hpc =>
    refine h.moved (q := .putting k item .signaling) hmove (by cases item <;> rfl)
      (fun r hr => .inr (by cases item <;> exact hr)) (fun i hi => nomatch hi) ?_
    intro _ hnot hwin
    rw [hpc] at hwin
    cases k with
    | submit k => cases hwin
    | destroy i => cases hnot
  | remove item rest _ hpc =>
    refine h.moved (q := .getUnlocking item) hmove (by cases item <;> rfl)
      (fun r hr => .inr (by cases item <;> exact hr)) (fun i hi => nomatch hi) ?_
    intro _ _ hwin
    rw [hpc] at hwin
    cases hwin
  | call x hpc =>
    refine h.moved hmove rfl (fun r hr => .inr hr) (fun i hi => nomatch hi) ?_
    intro _ _ hwin
    rw [hpc] at hwin
    cases hwin

/-- What every reachable state of a pool satisfies. -/
structure Inv (s : State κ φ α) : Prop where
  placed : Placed s
  locked : Locked s
  flag : Flag s
  fresh : Fresh s
  stock : ∃ pending k m, Stock s pending k m
  joined : Joined s

/-- Every reachable state satisfies the invariant. -/
theorem inv_reachable {s : State κ φ α} (hs : (pool κ φ α).Reachable s) : Inv s := by
  refine System.Reachable.invariant (I := Inv) ?_ ?_ hs
  · rintro s rfl
    exact {
      placed := {
        role := fun p => by cases p <;> rfl
        wellFormed := fun p => by cases p <;> exact trivial }
      locked := fun p => by
        cases p <;> exact ⟨fun hp => (nomatch hp), fun he => nomatch he⟩
      flag := {
        winner_none := ⟨fun _ => rfl, fun _ => rfl⟩
        winning := fun p hp => by cases p <;> cases hp
        nulls_eq := rfl
        closed := fun hpos => absurd hpos (Nat.lt_irrefl 0) }
      fresh := {
        below := fun _ hx => nomatch hx
        nodup := List.nodup_nil
        carried := fun p _ hp => by cases p <;> cases hp }
      stock := ⟨[], 0, 0, {
        list_eq := rfl
        enqueued_eq := rfl
        hands := fun p => by cases p <;> rfl
        takers := fun _ he => nomatch he
        stops_eq := fun p => by cases p <;> rfl
        ended := .none fun p => by cases p <;> nofun
        nulls_eq := rfl
        drained := fun _ => rfl }⟩
      joined := {
        joining := fun p _ hp => by cases p <;> cases hp
        done := fun _ hp => nomatch hp } }
  · rintro s ⟨p, a⟩ t - hI hstep
    have hexecuted := next_executed hstep
    have hmove := hexecuted.moves
    obtain ⟨pending, k, m, hstock⟩ := hI.stock
    exact {
      placed := hI.placed.step hmove
      locked := hI.locked.step hexecuted
      flag := hI.flag.step hI.placed hI.locked hmove
      fresh := hI.fresh.step hI.locked hmove
      stock := hstock.step hI.placed hI.flag hmove
      joined := hI.joined.step hmove }

/-- How often the item with an identity occurs in a list. -/
def occurrences (n : ℕ) (l : List (WorkItem φ α)) : ℕ := (l.map WorkItem.id).count n

theorem occurrences_append (n : ℕ) (l l' : List (WorkItem φ α)) :
    occurrences n (l ++ l') = occurrences n l + occurrences n l' := by
  rw [occurrences, List.map_append, List.count_append]
  rfl

theorem occurrences_cons (n : ℕ) (x : WorkItem φ α) (l : List (WorkItem φ α)) :
    occurrences n (x :: l) = occurrences n [x] + occurrences n l :=
  occurrences_append n [x] l

/-- What the workers have taken, worker by worker, is all that was taken. -/
theorem sum_occurrences_taken (n : ℕ) (taken : List (Thread κ × WorkItem φ α))
    (h : ∀ e ∈ taken, e.1.isWorker = true) :
    ∑ i : Fin nthreads, occurrences n ((taken.filter fun e => decide (e.1 = .worker i)).map Prod.snd) =
      occurrences n (taken.map Prod.snd) := by
  induction taken with
  | nil => exact Finset.sum_const_zero
  | cons e rest ih =>
    have hrest := ih fun e he => h e (List.mem_cons_of_mem _ he)
    obtain ⟨p, x⟩ := e
    cases p with
    | client c => exact absurd (h _ List.mem_cons_self) nofun
    | worker j =>
      have hone : ∀ i : Fin nthreads, occurrences n
          ((((Thread.worker j, x) :: rest).filter fun e => decide (e.1 = .worker i)).map Prod.snd) =
          (if i = j then occurrences n [x] else 0) +
            occurrences n ((rest.filter fun e => decide (e.1 = .worker i)).map Prod.snd) := by
        intro i
        rcases eq_or_ne i j with rfl | hne
        · rw [List.filter_cons_of_pos (by simp), if_pos rfl, List.map_cons,
            occurrences_cons]
        · rw [List.filter_cons_of_neg (by simpa using Ne.symm hne), if_neg hne, Nat.zero_add]
      rw [Finset.sum_congr rfl fun i _ => hone i, Finset.sum_add_distrib, hrest,
        Finset.sum_ite_eq' Finset.univ j, if_pos (Finset.mem_univ j)]
      exact (occurrences_cons n x _).symm

/-- Items in the queue, oldest first. -/
def State.pending (s : State κ φ α) : List (WorkItem φ α) := s.list.filterMap id

/-- How often the workers have called the function of an item. -/
def State.executions (s : State κ φ α) (n : ℕ) : ℕ :=
  ∑ i : Fin nthreads, occurrences n (s.called (.worker i))

/-- How often the workers hold an item that they have not called. -/
def State.inHands (s : State κ φ α) (n : ℕ) : ℕ :=
  ∑ i : Fin nthreads, occurrences n (s.pc (.worker i)).hand.toList

/-- The items of the queue are those before the nulls. -/
theorem Stock.pending_eq {s : State κ φ α} {pending : List (WorkItem φ α)} {k m : ℕ}
    (h : Stock s pending k m) : s.pending = pending := by
  rw [State.pending, h.list_eq, List.filterMap_append, List.filterMap_replicate_of_none rfl,
    List.append_nil, List.filterMap_map]
  exact List.filterMap_some

/-- The pool executes accepted work exactly once. -/
structure ExecutesOnce (s : State κ φ α) : Prop where
  /-- Different items have different identities. -/
  distinct : (s.enqueued.map WorkItem.id).Nodup
  /-- No item stands behind a null. -/
  order : ∃ k, s.list = s.pending.map some ++ List.replicate k none
  /-- Every item put is in the queue, in the hand of one worker or called by one
  worker, and only once. -/
  onePlace : ∀ x ∈ s.enqueued,
    occurrences x.id s.pending + s.inHands x.id + s.executions x.id = 1
  /-- Only items put are called, by workers, with their own function and argument. -/
  own : ∀ p, ∀ x ∈ s.called p, x ∈ s.enqueued ∧ p.isWorker = true
  /-- A worker takes one null, and then stops. -/
  stops : ∀ i, s.stops (.worker i) = if (s.pc (.worker i)).ended then 1 else 0
  /-- Past the joins nothing is left: the queue is empty, every worker has taken
  its null and finished, and every item put has been called. -/
  joined : ∀ p, s.winner = some p → (s.pc p).winning = false →
    s.list = [] ∧ (∀ i, s.pc (.worker i) = .finished ∧ s.stops (.worker i) = 1) ∧
      ∀ x ∈ s.enqueued, s.executions x.id = 1

/-- Every item put is in exactly one place. -/
theorem Inv.onePlace {s : State κ φ α} (h : Inv s) {x : WorkItem φ α} (hx : x ∈ s.enqueued) :
    occurrences x.id s.pending + s.inHands x.id + s.executions x.id = 1 := by
  obtain ⟨pending, k, m, hstock⟩ := h.stock
  have hone : occurrences x.id s.enqueued = 1 :=
    List.count_eq_one_of_mem h.fresh.nodup (List.mem_map_of_mem hx)
  have hworker : ∀ i : Fin nthreads, occurrences x.id
      ((s.taken.filter fun e => decide (e.1 = .worker i)).map Prod.snd) =
      occurrences x.id (s.called (.worker i)) +
        occurrences x.id (s.pc (.worker i)).hand.toList := by
    intro i
    rw [hstock.hands (.worker i), occurrences_append]
  have htaken := sum_occurrences_taken x.id s.taken hstock.takers
  rw [Finset.sum_congr rfl fun i _ => hworker i, Finset.sum_add_distrib] at htaken
  rw [hstock.enqueued_eq, occurrences_append, ← htaken] at hone
  rw [hstock.pending_eq, State.inHands, State.executions]
  omega

/-- A thread only calls items that were put, and is a worker. -/
theorem Inv.own {s : State κ φ α} (h : Inv s) {p : Thread κ} {x : WorkItem φ α}
    (hx : x ∈ s.called p) : x ∈ s.enqueued ∧ p.isWorker = true := by
  obtain ⟨pending, k, m, hstock⟩ := h.stock
  have hmem : x ∈ (s.taken.filter fun e => decide (e.1 = p)).map Prod.snd := by
    rw [hstock.hands p]
    exact List.mem_append_left _ hx
  obtain ⟨⟨r, y⟩, he, rfl⟩ := List.mem_map.mp hmem
  have htaken := (List.mem_filter.mp he).1
  have hr : r = p := of_decide_eq_true (List.mem_filter.mp he).2
  constructor
  · rw [hstock.enqueued_eq]
    exact List.mem_append_left _ (List.mem_map_of_mem htaken)
  · rw [← hr]
    exact hstock.takers _ htaken

omit [DecidableEq κ] in
/-- Outside the destruction all nulls are put, if any. -/
theorem nullsPut_of_not_winning {q : Pc φ α} (h : q.winning = false) : q.nullsPut = nthreads := by
  cases q with
  | putting k item stage =>
    cases k with
    | submit k => rfl
    | destroy i => cases h
  | destroyLocking | filling => cases h
  | _ => rfl

/-- Past the joins all nulls have been taken, and all items before them. -/
theorem Inv.drained {s : State κ φ α} (h : Inv s) {p : Thread κ} (hwinner : s.winner = some p)
    (hpast : (s.pc p).winning = false) : s.list = [] := by
  obtain ⟨pending, k, m, hstock⟩ := h.stock
  have hfinished := h.joined.done p hwinner hpast
  have hall : nthreads ≤ m := by
    rw [← Fintype.card_fin nthreads]
    refine hstock.ended.card_le (f := Thread.worker) (fun i j hij => Thread.worker.inj hij) ?_
    intro i
    rw [hfinished i]
    rfl
  have hnulls : s.nulls = nthreads := by
    rw [h.flag.nulls_eq, State.nullsDue, hwinner]
    exact nullsPut_of_not_winning hpast
  have hsum := hstock.nulls_eq
  have hk : k = 0 := by omega
  have hpending := hstock.drained (Nat.lt_of_lt_of_le (by decide) hall)
  rw [hstock.list_eq, hk, hpending]
  rfl

/-- In every interleaving, also when several threads call `tp_destroy` and the
first of them sets the flag, the pool executes accepted work exactly once. -/
theorem pool_executes_once {s : State κ φ α} (hs : (pool κ φ α).Reachable s) : ExecutesOnce s := by
  have h := inv_reachable hs
  obtain ⟨pending, k, m, hstock⟩ := h.stock
  constructor
  · exact h.fresh.nodup
  · refine ⟨k, ?_⟩
    rw [hstock.pending_eq]
    exact hstock.list_eq
  · exact fun x hx => h.onePlace hx
  · exact fun p x hx => h.own hx
  · exact fun i => hstock.stops_eq (.worker i)
  · intro p hwinner hpast
    have hfinished := h.joined.done p hwinner hpast
    have hempty := h.drained hwinner hpast
    refine ⟨hempty, fun i => ⟨hfinished i, ?_⟩, fun x hx => ?_⟩
    · rw [hstock.stops_eq, hfinished i]
      rfl
    · have hone := h.onePlace hx
      have hpending : occurrences x.id s.pending = 0 := by
        rw [State.pending, hempty]
        rfl
      have hhands : s.inHands x.id = 0 := by
        refine Finset.sum_eq_zero fun i _ => ?_
        rw [hfinished i]
        rfl
      omega

/-- A client submits one item, and a worker calls it. -/
theorem pool_executes_once_one_item : ∃ s : State Unit ℕ ℕ,
    s.enqueued = [⟨0, 5, 7⟩] ∧ s.called (.worker 0) = [⟨0, 5, 7⟩] ∧ ExecutesOnce s := by
  have hstart : (pool Unit ℕ ℕ).Reachable initial := .start rfl
  have hsubmit := hstart.next (a := (Thread.client (), Action.submit 5 7)) rfl
    |>.next (a := (Thread.client (), Action.run)) rfl
    |>.next (a := (Thread.client (), Action.run)) rfl
    |>.next (a := (Thread.client (), Action.run)) rfl
    |>.next (a := (Thread.client (), Action.run)) rfl
    |>.next (a := (Thread.client (), Action.run)) rfl
    |>.next (a := (Thread.client (), Action.signal none)) rfl
    |>.next (a := (Thread.client (), Action.run)) rfl
  have hcall := hsubmit.next (a := (Thread.worker 0, Action.run)) rfl
    |>.next (a := (Thread.worker 0, Action.run)) rfl
    |>.next (a := (Thread.worker 0, Action.run)) rfl
    |>.next (a := (Thread.worker 0, Action.run)) rfl
    |>.next (a := (Thread.worker 0, Action.run)) rfl
    |>.next (a := (Thread.worker 0, Action.run)) rfl
  exact ⟨_, rfl, rfl, pool_executes_once hcall⟩

end SistemasOperativos.ThreadPool
