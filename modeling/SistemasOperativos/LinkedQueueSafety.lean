import SistemasOperativos.LinkedQueue

/-!
# The linked queue delivers in order and touches no freed node

Whoever is inside has the only node that is allocated and not linked. So every
statement on the nodes finds them allocated, items leave in the order in which they
entered, and no node is lost.
-/

namespace SistemasOperativos.LinkedQueue

open TransitionRuns ConditionMonitor IntrusiveList

variable {π φ : Type*} [DecidableEq π]

/-- What holds of a queue in every run. -/
structure Inv (s : State π φ) : Prop where
  /-- The mutex is held exactly by the thread inside. -/
  held : s.monitor.HeldBy fun p => (s.pc p).Inside
  kept : ∃ nodes, Kept s s.inHand s.unlinked nodes
  /-- Who is about to unlink a node has found one. -/
  found : ∀ p, s.pc p = .removing → isListEmpty s.memory .list = false

variable {s t u : State π φ} {p : π} {q : Pc φ} {m : Monitor π Cond} {nodes : List ℕ}

section Moves

omit [DecidableEq π] in
/-- The node in hand is the one of the thread inside. -/
theorem inHand_of_held (hheld : s.monitor.holder = some p) :
    s.inHand = (s.pc p).hand ∧ s.unlinked = (s.pc p).unlinked := by
  simp [State.inHand, State.unlinked, hheld]

omit [DecidableEq π] in
/-- With the mutex free no node is in hand. -/
theorem inHand_of_free (hfree : s.monitor.holder = none) : s.inHand = none ∧ s.unlinked = none := by
  simp [State.inHand, State.unlinked, hfree]

omit [DecidableEq π] in
/-- The thread inside has the mutex. -/
theorem Inv.holder_eq (h : Inv s) (hin : (s.pc p).Inside) : s.monitor.holder = some p :=
  (h.held p).mp hin

/-- The thread inside goes on inside. -/
theorem Inv.stays (h : Inv s) (hin : (s.pc p).Inside) (hq : q.Inside)
    (hholder : u.monitor.holder = s.monitor.holder) (hpc : u.pc = s.pc)
    (hkept : ∀ nodes, Kept s (s.pc p).hand (s.pc p).unlinked nodes →
      ∃ nodes', Kept u q.hand q.unlinked nodes')
    (hfound : q = .removing → isListEmpty u.memory .list = false) : Inv (u.goto p q) := by
  have hheld := h.holder_eq hin
  obtain ⟨hhand, hunlinked⟩ := inHand_of_held hheld
  have hself : (u.goto p q).pc p = q := Function.update_self _ _ _
  refine ⟨h.held.stays hholder (by rw [State.goto, hpc]) (iff_of_true hq hin), ?_, fun r hr => ?_⟩
  · obtain ⟨nodes, hnodes⟩ := h.kept
    rw [hhand, hunlinked] at hnodes
    obtain ⟨nodes', hnodes'⟩ := hkept nodes hnodes
    have hafter := inHand_of_held (s := u.goto p q) (hholder.trans hheld)
    rw [hafter.1, hafter.2, hself]
    exact ⟨nodes', hnodes'.list, hnodes'.distinct, hnodes'.allocated, hnodes'.history⟩
  · rcases eq_or_ne r p with rfl | hne
    · exact hfound (hself.symm.trans hr)
    · -- the other thread would be inside as well
      have hother : (u.goto p q).pc r = s.pc r := by
        rw [← hpc]
        exact Function.update_of_ne hne _ _
      have hboth := h.held.unique (q := r) hin (by rw [← hother, hr]; trivial)
      exact absurd hboth.symm hne

/-- Who is about to unlink a node is not the thread that moved. -/
theorem Inv.found_moved (h : Inv s) (hq : q ≠ .removing) {r : π}
    (hr : Function.update s.pc p q r = .removing) : isListEmpty s.memory .list = false := by
  have hne : r ≠ p := fun he => hq (by rw [← hr, he, Function.update_self])
  rw [Function.update_of_ne hne] at hr
  exact h.found r hr

/-- A thread takes the mutex. -/
theorem Inv.enters (h : Inv s) (hfree : s.monitor.holder = none) (hm : m.holder = some p)
    (hq : q.Inside) (hhand : q.hand = none ∧ q.unlinked = none) (hnot : q ≠ .removing) :
    Inv ({ s with monitor := m }.goto p q) := by
  have hself : ({ s with monitor := m }.goto p q).pc p = q := Function.update_self _ _ _
  refine ⟨h.held.moves_in hfree hm rfl hq, ?_, fun r hr => h.found_moved hnot hr⟩
  obtain ⟨nodes, hnodes⟩ := h.kept
  obtain ⟨hbefore, hbefore'⟩ := inHand_of_free hfree
  have hafter := inHand_of_held (s := { s with monitor := m }.goto p q) hm
  rw [hbefore, hbefore'] at hnodes
  rw [hafter.1, hafter.2, hself, hhand.1, hhand.2]
  exact ⟨nodes, hnodes.list, hnodes.distinct, hnodes.allocated, hnodes.history⟩

/-- A thread gives the mutex back, with no node in hand. -/
theorem Inv.leaves (h : Inv s) (hheld : s.monitor.holder = some p) (hm : m.holder = none)
    (hhand : (s.pc p).hand = none ∧ (s.pc p).unlinked = none) (hq : ¬ q.Inside) :
    Inv ({ s with monitor := m }.goto p q) := by
  have hnot : q ≠ .removing := fun he => hq (by rw [he]; trivial)
  refine ⟨h.held.moves_out hheld hm rfl hq, ?_, fun r hr => h.found_moved hnot hr⟩
  obtain ⟨nodes, hnodes⟩ := h.kept
  obtain ⟨hbefore, hbefore'⟩ := inHand_of_held hheld
  have hafter := inHand_of_free (s := { s with monitor := m }.goto p q) hm
  rw [hbefore, hbefore', hhand.1, hhand.2] at hnodes
  rw [hafter.1, hafter.2]
  exact ⟨nodes, hnodes.list, hnodes.distinct, hnodes.allocated, hnodes.history⟩

/-- A thread goes on outside. -/
theorem Inv.outside (h : Inv s) (hout : ¬ (s.pc p).Inside) (hq : ¬ q.Inside) :
    Inv (s.goto p q) := by
  have hnot : q ≠ .removing := fun he => hq (by rw [he]; trivial)
  have hother : ∀ r, s.monitor.holder = some r → (s.goto p q).pc r = s.pc r := fun r hr => by
    have hne : r ≠ p := fun he => hout (he ▸ (h.held r).mpr hr)
    exact Function.update_of_ne hne _ _
  have hsame : (s.goto p q).inHand = s.inHand ∧ (s.goto p q).unlinked = s.unlinked := by
    cases hholder : s.monitor.holder with
    | none =>
      have hfree : (s.goto p q).monitor.holder = none := hholder
      simp [inHand_of_free hholder, inHand_of_free hfree]
    | some r =>
      have hheld : (s.goto p q).monitor.holder = some r := hholder
      simp [inHand_of_held hholder, inHand_of_held hheld, hother r hholder]
  refine ⟨h.held.stays rfl rfl (iff_of_false hq hout), ?_, fun r hr => h.found_moved hnot hr⟩
  obtain ⟨nodes, hnodes⟩ := h.kept
  rw [hsame.1, hsame.2]
  exact ⟨nodes, hnodes.list, hnodes.distinct, hnodes.allocated, hnodes.history⟩

end Moves

section Statements

omit [DecidableEq π] in
/-- With a node at its head the list is not empty. -/
theorem Kept.cons_of_found {hand unlinked : Option ℕ} (h : Kept s hand unlinked nodes)
    (hfound : isListEmpty s.memory .list = false) : ∃ b rest, nodes = b :: rest := by
  cases nodes with
  | cons b rest => exact ⟨b, rest, rfl⟩
  | nil =>
    have hempty := h.list.isListEmpty_iff.mpr rfl
    rw [hfound] at hempty
    cases hempty

/-- Linking a node touches allocated nodes only. -/
theorem Inv.insertTail_enabled (h : Inv s) {b : ℕ} (hpc : s.pc p = .inserting b) :
    s.insertTail p b = some ({ s with
      memory := insertTailList s.memory .list (.block b)
      entered := s.entered ++ [s.item b] }.goto p .signaling) := by
  obtain ⟨nodes, hnodes⟩ := h.kept
  have hheld := h.holder_eq (by rw [hpc]; trivial)
  rw [(inHand_of_held hheld).1, (inHand_of_held hheld).2, hpc] at hnodes
  have hnode : s.Valid (.block b) := (hnodes.allocated b).mpr List.mem_cons_self
  have hlast : s.Valid (s.memory .list).blink := by
    rw [hnodes.list.blink_head]
    exact hnodes.valid (CircularChain.before_mem _ _)
  exact if_pos ⟨hnode, hlast⟩

/-- Unlinking the first node touches allocated nodes only. -/
theorem Inv.removeHead_enabled (h : Inv s) (hpc : s.pc p = .removing) :
    ∃ b rest, Kept s none none (b :: rest) ∧ s.removeHead p =
      some ({ s with memory := (removeHeadList s.memory .list).2 }.goto p (.reading b)) := by
  obtain ⟨nodes, hnodes⟩ := h.kept
  have hheld := h.holder_eq (by rw [hpc]; trivial)
  rw [(inHand_of_held hheld).1, (inHand_of_held hheld).2, hpc] at hnodes
  obtain ⟨b, rest, rfl⟩ := hnodes.cons_of_found (h.found p hpc)
  have hfirst : (removeHeadList s.memory .list).1 = .block b := (Kept.removeHead hnodes).1
  have hentry : (s.memory .list).flink = .block b := hfirst
  have hnode : s.Valid (.block b) := (hnodes.allocated b).mpr List.mem_cons_self
  have hlist : WellFormed s.memory .list ([] ++ .block b :: rest.map .block) := hnodes.list
  have hnext : s.Valid (s.memory (.block b)).flink :=
    hnodes.valid hlist.flink_mem
  refine ⟨b, rest, hnodes, ?_⟩
  rw [State.removeHead, hentry, if_pos ⟨hnode, hnext⟩]
  simp only [hfirst]

/-- Every statement of a thread keeps the invariant. -/
theorem Inv.run (h : Inv s) (hrun : s.run p = some t) : Inv t := by
  unfold State.run at hrun
  cases hpc : s.pc p with
  | putLocking x | getLocking =>
    simp only [hpc] at hrun
    obtain ⟨m, hm, rfl⟩ := Option.map_eq_some_iff.mp hrun
    obtain ⟨hfree, rfl⟩ := Monitor.lock_spec hm
    exact h.enters hfree rfl trivial ⟨rfl, rfl⟩ (by simp)
  | waiting =>
    simp only [hpc] at hrun
    obtain ⟨m, hm, rfl⟩ := Option.map_eq_some_iff.mp hrun
    obtain ⟨-, hfree, rfl⟩ := Monitor.relock_spec hm
    exact h.enters hfree rfl trivial ⟨rfl, rfl⟩ (by simp)
  | putUnlocking | getUnlocking x =>
    simp only [hpc] at hrun
    obtain ⟨m, hm, rfl⟩ := Option.map_eq_some_iff.mp hrun
    obtain ⟨hheld, rfl⟩ := Monitor.unlock_spec hm
    exact h.leaves hheld rfl (by rw [hpc]; exact ⟨rfl, rfl⟩) id
  | sleeping =>
    simp only [hpc] at hrun
    obtain ⟨m, hm, rfl⟩ := Option.map_eq_some_iff.mp hrun
    obtain ⟨hheld, rfl⟩ := Monitor.wait_spec hm
    exact h.leaves hheld rfl (by rw [hpc]; exact ⟨rfl, rfl⟩) id
  | testing =>
    simp only [hpc, Option.some.injEq] at hrun
    subst hrun
    refine h.stays (by rw [hpc]; trivial) (by split <;> trivial) rfl rfl (fun nodes hnodes => ?_)
      fun hremoving => ?_
    · rw [hpc] at hnodes
      split
      · exact ⟨nodes, hnodes⟩
      · exact ⟨nodes, hnodes⟩
    · split at hremoving
      next => exact absurd hremoving (by simp)
      next hsome => exact eq_false_of_ne_true hsome
  | inserting b =>
    simp only [hpc, h.insertTail_enabled hpc, Option.some.injEq] at hrun
    subst hrun
    refine h.stays (by rw [hpc]; trivial) trivial rfl rfl (fun nodes hnodes => ?_) (by simp)
    rw [hpc] at hnodes
    exact ⟨_, hnodes.insertTail⟩
  | removing =>
    obtain ⟨b, rest, hnodes, henabled⟩ := h.removeHead_enabled hpc
    simp only [hpc, henabled, Option.some.injEq] at hrun
    subst hrun
    exact h.stays (by rw [hpc]; trivial) trivial rfl rfl
      (fun _ _ => ⟨rest, (Kept.removeHead hnodes).2⟩) (by simp)
  | reading b =>
    simp only [hpc] at hrun
    obtain ⟨-, hnext⟩ := Option.ite_none_right_eq_some.mp hrun
    cases hnext
    refine h.stays (by rw [hpc]; trivial) trivial rfl rfl (fun nodes hnodes => ?_) (by simp)
    rw [hpc] at hnodes
    exact ⟨nodes, Kept.read hnodes⟩
  | destroying b x =>
    simp only [hpc] at hrun
    obtain ⟨-, hnext⟩ := Option.ite_none_right_eq_some.mp hrun
    cases hnext
    refine h.stays (by rw [hpc]; trivial) trivial rfl rfl (fun nodes hnodes => ?_) (by simp)
    rw [hpc] at hnodes
    exact ⟨nodes, Kept.destroy hnodes⟩
  | idle | creating x | signaling =>
    simp only [hpc] at hrun
    cases hrun

/-- Every action of a thread keeps the invariant. -/
theorem Inv.next (h : Inv s) {a : Action π φ} (hnext : s.next (p, a) = some t) : Inv t := by
  cases a with
  | put x =>
    simp only [State.next] at hnext
    split at hnext
    next hpc =>
      cases hnext
      exact h.outside (by rw [hpc]; exact id) id
    next => cases hnext
  | get =>
    simp only [State.next] at hnext
    split at hnext
    next hpc =>
      cases hnext
      exact h.outside (by rw [hpc]; exact id) id
    next => cases hnext
  | step => exact h.run hnext
  | malloc b =>
    simp only [State.next] at hnext
    split at hnext
    next x hpc =>
      obtain ⟨hnew, hsome⟩ := Option.ite_none_left_eq_some.mp hnext
      cases hsome
      refine h.stays (by rw [hpc]; trivial) trivial rfl rfl (fun nodes hnodes => ?_) (by simp)
      rw [hpc] at hnodes
      exact ⟨nodes, Kept.create hnodes hnew x⟩
    next => cases hnext
  | signal w =>
    simp only [State.next] at hnext
    split at hnext
    next hpc =>
      obtain ⟨m, hm, rfl⟩ := Option.map_eq_some_iff.mp hnext
      refine h.stays (by rw [hpc]; trivial) trivial (Monitor.signal_holder hm) rfl
        (fun nodes hnodes => ?_) (by simp)
      rw [hpc] at hnodes
      exact ⟨nodes, hnodes.list, hnodes.distinct, hnodes.allocated, hnodes.history⟩
    next => cases hnext
  | wake =>
    simp only [State.next] at hnext
    split at hnext
    next =>
      obtain ⟨m, hm, rfl⟩ := Option.map_eq_some_iff.mp hnext
      have hholder : m.holder = s.monitor.holder := Monitor.signal_holder hm
      have hsame : State.inHand { s with monitor := m } = s.inHand ∧
          State.unlinked { s with monitor := m } = s.unlinked := by
        simp only [State.inHand, State.unlinked, hholder, and_self]
      obtain ⟨nodes, hnodes⟩ := h.kept
      refine ⟨h.held.keep hholder (p := p) Iff.rfl fun _ _ => Iff.rfl, ⟨nodes, ?_⟩, h.found⟩
      rw [hsame.1, hsame.2]
      exact ⟨hnodes.list, hnodes.distinct, hnodes.allocated, hnodes.history⟩
    next => cases hnext

/-- Every reachable queue satisfies the invariant. -/
theorem inv_reachable (hs : (queue π φ).Reachable s) : Inv s := by
  refine System.Reachable.invariant (I := Inv) (fun s hs => ?_)
    (fun s a t _ hI hstep => hI.next (p := a.1) (a := a.2) hstep) hs
  obtain ⟨garbage, item, rfl⟩ := hs
  refine ⟨fun p => iff_of_false id (by simp [queueInit, Monitor.new]), ⟨[], ?_⟩,
    by simp [queueInit]⟩
  exact ⟨wellFormed_initListHead garbage .list, List.nodup_nil, by simp [queueInit, State.inHand,
    Monitor.new], rfl⟩

/-- A thread at a statement that touches a node. -/
def Pc.Touches : Pc φ → Prop
  | .inserting _ | .removing | .reading _ | .destroying .. => True
  | _ => False

/-- Statements on nodes find them allocated. -/
theorem Inv.touches_enabled (h : Inv s) (htouches : (s.pc p).Touches) : ∃ t, s.run p = some t := by
  have hmem : ∀ b, (s.pc p).Inside → (s.pc p).hand = some b → b ∈ s.allocated := by
    intro b hin hhand
    obtain ⟨nodes, hnodes⟩ := h.kept
    rw [(inHand_of_held (h.holder_eq hin)).1, hhand] at hnodes
    exact (hnodes.allocated b).mpr List.mem_cons_self
  unfold State.run
  cases hpc : s.pc p with
  | inserting b => exact ⟨_, h.insertTail_enabled hpc⟩
  | removing =>
    obtain ⟨b, rest, -, henabled⟩ := h.removeHead_enabled hpc
    exact ⟨_, henabled⟩
  | reading b =>
    have hb := hmem b (by rw [hpc]; trivial) (by rw [hpc]; rfl)
    simp only [if_pos hb]
    exact ⟨_, rfl⟩
  | destroying b x =>
    have hb := hmem b (by rw [hpc]; trivial) (by rw [hpc]; rfl)
    simp only [if_pos hb]
    exact ⟨_, rfl⟩
  | _ =>
    rw [hpc] at htouches
    exact htouches.elim

end Statements

/-- What the queue promises in every state. -/
structure State.Delivers (s : State π φ) : Prop where
  /-- Items leave in the order in which they entered, and those that have not left are in
  the linked nodes. -/
  ordered : ∃ nodes, WellFormed s.memory .list (nodes.map .block) ∧ nodes.Nodup ∧
    s.entered = s.left ++ (s.unlinked.toList ++ nodes).map s.item
  /-- No statement is stuck at a node that is not allocated. -/
  allocated : ∀ p, (s.pc p).Touches → ∃ t, s.next (p, .step) = some t
  /-- With nobody inside there is one node for each item that has not left. -/
  lossless : (∀ p, ¬ (s.pc p).Inside) → s.allocated.card + s.left.length = s.entered.length

omit [DecidableEq π] in
/-- With nobody inside the linked nodes are all that is allocated. -/
theorem Inv.lossless (h : Inv s) (hout : ∀ p, ¬ (s.pc p).Inside) :
    s.allocated.card + s.left.length = s.entered.length := by
  have hfree : s.monitor.holder = none := by
    by_contra hheld
    obtain ⟨p, hp⟩ := Option.ne_none_iff_exists'.mp hheld
    exact hout p ((h.held p).mpr hp)
  obtain ⟨nodes, hnodes⟩ := h.kept
  rw [(inHand_of_free hfree).1, (inHand_of_free hfree).2] at hnodes
  have hdistinct : nodes.Nodup := hnodes.distinct
  have hall : s.allocated = nodes.toFinset := by
    ext b
    rw [hnodes.allocated b, List.mem_toFinset]
    rfl
  have hcard : s.allocated.card = nodes.length := by
    rw [hall, List.toFinset_card_of_nodup hdistinct]
  have hlength := congrArg List.length hnodes.history
  simp only [Option.toList_none, List.nil_append, List.length_append, List.length_map] at hlength
  omega

/-- The linked queue delivers in order, touches no freed node and loses none. -/
theorem linked_queue_delivers (hs : (queue π φ).Reachable s) : s.Delivers := by
  have hI := inv_reachable hs
  obtain ⟨nodes, hnodes⟩ := hI.kept
  exact ⟨⟨nodes, hnodes.list, (List.nodup_append.mp hnodes.distinct).2.1, hnodes.history⟩,
    fun p => hI.touches_enabled, hI.lossless⟩

/-- One item is put and got, and its node is free again. -/
theorem linked_queue_delivers_one_item : ∃ s : State Bool ℕ, (queue Bool ℕ).Reachable s ∧
    s.entered = [5] ∧ s.left = [5] ∧ s.allocated = ∅ ∧ s.Delivers := by
  have hstart : (queue Bool ℕ).Reachable (queueInit (fun a => ⟨a, a⟩) fun _ => 0) :=
    .start ⟨_, _, rfl⟩
  obtain ⟨s, hs, hp⟩ := hstart.exists_of_any
    [(true, .put 5), (true, .step), (true, .malloc 0), (true, .step), (false, .get),
      (true, .signal none), (true, .step), (false, .step), (false, .step), (false, .step),
      (false, .step), (false, .step)]
    (p := fun s => decide (s.entered = [5] ∧ s.left = [5] ∧ s.allocated = ∅)) (by decide +kernel)
  obtain ⟨hentered, hleft, hallocated⟩ := of_decide_eq_true hp
  exact ⟨s, hs, hentered, hleft, hallocated, linked_queue_delivers hs⟩

end SistemasOperativos.LinkedQueue
