import SistemasOperativos.PgrepThreads

/-!
# The search program does not stop early

A thread that waits for an item has a producer that has not inserted the marker
of the end, and one that waits for space has a consumer that has not got it. So
when only the main thread can run, no thread of the program is left.
-/

namespace SistemasOperativos.Pgrep

open TransitionRuns UThread UThreadConservation UThreadSemaphore UThreadQueue
open ByteMemory (Byte)

variable {file : Option (List Chunk)} {word : List Byte} {size : Queue → ℤ} {s t : State}

/-- A step runs a part of the queue code, or none. -/
theorem Moves.queues (hmove : Moves file word s t) :
    t.queues = s.queues ∨ ∃ a, queueNext s.queues a = some t.queues := by
  have hmain {c : Command (QSem Queue Empty) Empty} {lib : UThread.State (QSem Queue Empty) Empty}
      (hr : ∀ b, s.queues.lib.runningThread ≠ some (.user b)) (hout : outside c = true)
      (hlib : UThread.next s.queues.lib c = some lib) :
      ∃ a, queueNext s.queues a = some { s.queues with lib := lib } :=
    ⟨.lib c, by rw [queueNext_main hr hout, hlib, Option.map_some]⟩
  cases hmove with
  | created th left lib _ hlib =>
    refine .inr (hmain (fun b hb => ?_) rfl hlib)
    have hnone := (next_create hlib).1
    rw [hb] at hnone
    cases hnone
  | entered lib _ hlib =>
    refine .inr (hmain (fun b hb => ?_) rfl hlib)
    have hnone := (next_enterRun hlib).1
    rw [hb] at hnone
    cases hnone
  | left lib _ hlib =>
    refine .inr (hmain (fun b hb => ?_) rfl hlib)
    have hnone := (next_leaveRun hlib).1
    rw [hb] at hnone
    cases hnone
  | opened | filterDrops | prints | reports => exact .inl rfl
  | readerPuts item _ hat => exact .inr ⟨_, queueNext_put hat.running hat.idle .qreader item⟩
  | filterPuts item _ hat => exact .inr ⟨_, queueNext_put hat.running hat.idle .qfilter item⟩
  | filterGets hat => exact .inr ⟨_, queueNext_get hat.running hat.idle .qreader⟩
  | presenterGets hat => exact .inr ⟨_, queueNext_get hat.running hat.idle .qfilter⟩
  | filterGot _ _ hr hp | presenterGot _ _ hr hp => exact .inr ⟨_, queueNext_getting hr hp⟩
  | put _ _ _ hr hp => exact .inr ⟨_, queueNext_putting hr hp⟩
  | exits th hat =>
    refine .inr ⟨_, (queueNext_exit hat.running hat.idle).trans ?_⟩
    cases th <;> rfl

/-- The queues are filled and emptied as their code says, and what goes through
them and the threads are in order. -/
structure Inv (file : Option (List Chunk)) (word : List Byte) (size : Queue → ℤ) (s : State) :
    Prop where
  queues : (queueProgram size Empty.elim).Reachable s.queues
  places : Places s
  streams : Streams file word s
  threads : Threads s

/-- The sizes are possible values of `int`, and there is room for an item. -/
def Sizes (size : Queue → ℤ) : Prop := ∀ q, 1 ≤ size q ∧ size q ≤ intMax

/-- The library under the queues keeps every thread in one place. -/
theorem Inv.conserved (h : Inv file word size s) : ∃ loc, Conserved s.queues.lib loc := by
  refine conserved_reachable (fun u => ?_) (lib_reachable h.queues)
  cases u with
  | hasItems | hasSpace => rfl
  | other u => exact u.elim

/-- The queues are in order. -/
theorem Inv.queueInv (h : Inv file word size s) (hsize : Sizes size) :
    QueueInv size Empty.elim s.queues :=
  queueInv_reachable hsize (fun u => u.elim) h.queues

/-- The start of the program. -/
theorem inv_start (file : Option (List Chunk)) (word : List Byte) (size : Queue → ℤ) :
    Inv file word size (start size) where
  queues := .start rfl
  places := ⟨.inl rfl, .inl rfl, .inl rfl⟩
  streams := ⟨rfl, ⟨[], rfl, rfl⟩, rfl, (wrapInt_eq le_rfl (by decide)).symm, rfl⟩
  threads := by
    refine ⟨fun b => ?_, fun left he => ?_, fun he => (nomatch he), fun he => (nomatch he)⟩
    · have hall (th : Thread) : th ∈ (start size).main.left := by
        cases th <;> simp [start, MainPc.left]
      constructor
      · exact fun hmem => (nomatch hmem)
      · rintro ⟨th, -, hleft, -⟩
        exact absurd (hall th) hleft
    · cases he
      exact ⟨rfl, fun th => by cases th <;> exact fun he => (nomatch he), [], rfl, rfl⟩

/-- Every step keeps the program in order. -/
theorem Inv.next (h : Inv file word size s) (hstep : s.next file word = some t) :
    Inv file word size t := by
  have hmove := next_moves h.places hstep
  obtain ⟨loc, hc⟩ := h.conserved
  refine ⟨?_, h.places.next hmove, h.streams.next h.places hmove,
    h.threads.next hc.inside hc.nodup hmove⟩
  rcases hmove.queues with he | ⟨a, ha⟩
  · rw [he]
    exact h.queues
  · exact h.queues.next ha

/-- Along every run the program is in order. -/
theorem inv_reachable (h : (program file word size).Reachable s) : Inv file word size s := by
  refine System.Reachable.invariant (I := Inv file word size) ?_ ?_ h
  · rintro s rfl
    exact inv_start file word size
  · exact fun s _ t _ hI hstep => hI.next hstep

section Marker

variable {l r m : List (Option Chunk)} {cs ps : List Chunk}

/-- The marker is not before the last item. -/
theorem none_notMem (h : l ++ r = cs.map some ++ m) (hm : m.length ≤ r.length) : none ∉ l := by
  have hchunks : none ∉ cs.map some := by simp
  rcases List.append_eq_append_iff.mp h with ⟨a, ha, -⟩ | ⟨c, hc, hcr⟩
  · exact fun hmem => hchunks (ha ▸ List.mem_append_left a hmem)
  · have hlength := congrArg List.length hcr
    rw [List.length_append] at hlength
    have hnil : c = [] := List.eq_nil_of_length_eq_zero (by omega)
    rw [hc, hnil, List.append_nil]
    exact hchunks

/-- When the marker has come, everything has. -/
theorem all_removed (h : ps.map some ++ [none] ++ l = cs.map some ++ [none]) :
    l = [] ∧ ps = cs := by
  have hl : l = [] := by
    by_contra hne
    have hpos := List.length_pos_iff.mpr hne
    exact none_notMem h hpos (by simp)
  refine ⟨hl, List.map_injective_iff.mpr (Option.some_injective Chunk) ?_⟩
  rw [hl, List.append_nil] at h
  exact List.append_cancel_right h

end Marker

section Deadlock

/-- What a thread waits for while only the main thread can run. -/
theorem Inv.blocked (h : Inv file word size s) (hsize : Sizes size)
    (hr : s.queues.lib.runningThread = some .main) {th : Thread}
    (halive : th.block ∈ s.queues.lib.descriptors) :
    ∃ u : QSem Queue Empty, (s.queues.pc th.handle).target = some u ∧
      (s.queues.lib.sems u).units = 0 := by
  obtain ⟨loc, hc⟩ := h.conserved
  have hinv := h.queueInv hsize
  have hevents (p : PUThread) (e : Empty) : loc p ≠ some (.event e) := e.elim
  obtain ⟨u, hu⟩ := main_waiting hc hevents hr halive
  have hmem : th.handle ∈ (s.queues.lib.sems u).waiters.map SemWaitBlock.thread := by
    have hpos : 0 < waiting s.queues.lib u th.handle := hu ▸ Nat.one_pos
    exact List.count_pos_iff.mp hpos
  obtain ⟨block, hblock, hthread⟩ := List.mem_map.mp hmem
  have hguard : u.guard = some u := by
    cases u with
    | hasItems | hasSpace => rfl
    | other u => exact u.elim
  have htarget := hinv.tracked.waiters u block hblock
  rw [hthread, hguard] at htarget
  refine ⟨u, htarget, ?_⟩
  have hsound := (hinv.tracked.sound u hguard).1
  have hlow := hsound.lower
  have hunits : (view u s.queues.lib).units = (s.queues.lib.sems u).units := rfl
  -- the first waiter asks for one unit, and there are fewer
  cases hwaiters : (s.queues.lib.sems u).waiters with
  | nil =>
    rw [hwaiters] at hblock
    cases hblock
  | cons first rest =>
    have hfirst := hsound.blockedHead (request first) (by simp [view, hwaiters])
    have hone := hinv.tracked.units u hguard first (hwaiters ▸ List.mem_cons_self)
    change (s.queues.lib.sems u).units < first.units at hfirst
    omega

/-- A thread that is not alive after the creation has left, outside the queue code. -/
theorem Inv.gone (h : Inv file word size s) (hsize : Sizes size) (hleft : s.main.left = [])
    {th : Thread} (hdead : th.block ∉ s.queues.lib.descriptors) :
    s.Exited th ∧ s.queues.pc th.handle = .idle := by
  refine ⟨?_, (h.queueInv hsize).tracked.idleFree th.block hdead⟩
  by_contra hstayed
  refine hdead ((h.threads.alive th.block).mpr ⟨th, rfl, ?_, hstayed⟩)
  rw [hleft]
  exact List.not_mem_nil

/-- Items that were removed were inserted. -/
theorem Inv.order (h : Inv file word size s) (hsize : Sizes size) (q : Queue) :
    s.queues.inserted q = s.got q ++ s.queues.list q := (h.queueInv hsize).order q

/-- While only the main thread can run, the semaphores tell how full the queues are. -/
theorem Inv.settled (h : Inv file word size s) (hsize : Sizes size)
    (hr : s.queues.lib.runningThread = some .main) (q : Queue) :
    ((s.queues.list q).length : ℤ) = (s.queues.lib.sems (.hasItems q)).units ∧
      (s.queues.list q).length + (s.queues.lib.sems (.hasSpace q)).units = size q := by
  obtain ⟨loc, hc⟩ := h.conserved
  have hinv := h.queueInv hsize
  have hlive : live s.queues.lib = [.main] := by
    rw [live, hr, hc.drained hr]
    rfl
  have howed (u : QSem Queue Empty) :
      owed s.queues.lib s.queues.pc u = (s.queues.lib.sems u).units := by
    rw [owed, hlive, pending_cons_idle u hinv.tracked.idleMain]
    exact add_zero _
  exact ⟨(hinv.items q).trans (howed _), howed (.hasSpace q) ▸ hinv.space q⟩

/-- A reader that waits finds its queue full, and has not inserted the marker. -/
theorem Inv.reader_waits (h : Inv file word size s) (hsize : Sizes size)
    (hr : s.queues.lib.runningThread = some .main)
    (halive : Thread.reader.block ∈ s.queues.lib.descriptors) :
    s.queues.list .qreader ≠ [] ∧ none ∉ s.queues.inserted .qreader := by
  obtain ⟨u, htarget, hunits⟩ := h.blocked hsize hr halive
  have hread := h.streams.read
  unfold State.given at hread
  rcases h.places.reader with hp | ⟨item, hp⟩
  · rw [hp] at htarget
    cases htarget
  · rw [hp] at htarget hread
    cases htarget
    rw [List.append_assoc] at hread
    refine ⟨fun hnil => ?_, none_notMem hread (by simp [pendingItem])⟩
    have hspace := (h.settled hsize hr .qreader).2
    have hone := (hsize .qreader).1
    rw [hnil, List.length_nil, hunits] at hspace
    omega

/-- A filter that waits finds its queue full or the other one empty, and has not
inserted the marker. -/
theorem Inv.filter_waits (h : Inv file word size s) (hsize : Sizes size)
    (hr : s.queues.lib.runningThread = some .main)
    (halive : Thread.filter.block ∈ s.queues.lib.descriptors) :
    (s.queues.list .qfilter ≠ [] ∨ s.queues.list .qreader = [] ∧ s.filter = .getting) ∧
      none ∉ s.queues.inserted .qfilter := by
  obtain ⟨u, htarget, hunits⟩ := h.blocked hsize hr halive
  obtain ⟨done, -, hkept⟩ := h.streams.filtered
  unfold State.given at hkept
  rcases h.places.filter with hp | ⟨item, hp⟩ | ⟨hp, hpc⟩
  · rw [hp] at htarget
    cases htarget
  · rw [hp] at htarget hkept
    cases htarget
    have hmarker : s.filter.marker.length ≤ 1 := by cases s.filter <;> simp [FilterPc.marker]
    refine ⟨.inl fun hnil => ?_, none_notMem hkept hmarker⟩
    have hspace := (h.settled hsize hr .qfilter).2
    have hone := (hsize .qfilter).1
    rw [hnil, List.length_nil, hunits] at hspace
    omega
  · rw [hp] at htarget hkept
    cases htarget
    rw [hpc] at hkept
    have hitems := (h.settled hsize hr .qreader).1
    rw [hunits, Int.natCast_eq_zero] at hitems
    exact ⟨.inr ⟨List.eq_nil_of_length_eq_zero hitems, hpc⟩, none_notMem hkept le_rfl⟩

/-- A presenter that waits finds its queue empty. -/
theorem Inv.presenter_waits (h : Inv file word size s) (hsize : Sizes size)
    (hr : s.queues.lib.runningThread = some .main)
    (halive : Thread.presenter.block ∈ s.queues.lib.descriptors) :
    s.queues.list .qfilter = [] ∧ s.presenter = .getting := by
  obtain ⟨u, htarget, hunits⟩ := h.blocked hsize hr halive
  rcases h.places.presenter with hp | ⟨hp, hpc⟩
  · rw [hp] at htarget
    cases htarget
  · rw [hp] at htarget
    cases htarget
    have hitems := (h.settled hsize hr .qfilter).1
    rw [hunits, Int.natCast_eq_zero] at hitems
    exact ⟨List.eq_nil_of_length_eq_zero hitems, hpc⟩

/-- When only the main thread can run, every thread has left. -/
theorem Inv.all_gone (h : Inv file word size s) (hsize : Sizes size)
    (hr : s.queues.lib.runningThread = some .main) : s.queues.lib.descriptors = [] := by
  have hleft : s.main.left = [] := by
    rw [h.threads.main_running hr]
    rfl
  have horder := h.order hsize
  obtain ⟨done, htaken, hkept⟩ := h.streams.filtered
  have hpresented := h.streams.presented
  -- the marker of a thread that has left
  have hreader (hdead : Thread.reader.block ∉ s.queues.lib.descriptors) :
      none ∈ s.queues.inserted .qreader := by
    obtain ⟨hexited, hidle⟩ := h.gone hsize hleft hdead
    have hpc : s.reader = .exited := hexited
    have hread := h.streams.read
    rw [State.given, hidle, hpc] at hread
    simp only [pendingItem, ReaderPc.left, List.append_nil] at hread
    rw [hread]
    exact List.mem_append_right _ (List.mem_singleton.mpr rfl)
  have hfilter (hdead : Thread.filter.block ∉ s.queues.lib.descriptors) :
      none ∈ s.queues.inserted .qfilter ∧ none ∈ s.got .qreader := by
    obtain ⟨hexited, hidle⟩ := h.gone hsize hleft hdead
    have hpc : s.filter = .exited := hexited
    rw [State.given, hidle, hpc] at hkept
    simp only [pendingItem, List.append_nil] at hkept
    rw [hkept, htaken, hpc]
    exact ⟨List.mem_append_right _ (List.mem_singleton.mpr rfl),
      List.mem_append_right _ (List.mem_singleton.mpr rfl)⟩
  have hpresenter : Thread.presenter.block ∉ s.queues.lib.descriptors := by
    intro halive
    obtain ⟨hempty, hpc⟩ := h.presenter_waits hsize hr halive
    have hnone : none ∉ s.queues.inserted .qfilter := by
      rw [horder, hempty, hpresented, hpc]
      simp [PresenterPc.held]
    have hfilterAlive : Thread.filter.block ∈ s.queues.lib.descriptors := by
      by_contra hdead
      exact hnone (hfilter hdead).1
    rcases (h.filter_waits hsize hr hfilterAlive).1 with hfull | ⟨hempty', hpc'⟩
    · exact hfull hempty
    · have hnone' : none ∉ s.queues.inserted .qreader := by
        rw [horder, hempty', htaken, hpc']
        simp [FilterPc.held]
      have hreaderAlive : Thread.reader.block ∈ s.queues.lib.descriptors := by
        by_contra hdead
        exact hnone' (hreader hdead)
      exact (h.reader_waits hsize hr hreaderAlive).1 hempty'
  have hfilterDead : Thread.filter.block ∉ s.queues.lib.descriptors := by
    intro halive
    refine (h.filter_waits hsize hr halive).2 ?_
    have hexited : s.presenter = .exited := (h.gone hsize hleft hpresenter).1
    rw [horder, hpresented, hexited]
    simp [PresenterPc.held]
  have hreaderDead : Thread.reader.block ∉ s.queues.lib.descriptors := by
    intro halive
    refine (h.reader_waits hsize hr halive).2 ?_
    rw [horder]
    exact List.mem_append_left _ (hfilter hfilterDead).2
  refine List.eq_nil_iff_forall_not_mem.mpr fun b hb => ?_
  obtain ⟨th, rfl, -, -⟩ := (h.threads.alive b).mp hb
  cases th with
  | reader => exact hreaderDead hb
  | filter => exact hfilterDead hb
  | presenter => exact hpresenter hb

end Deadlock

end SistemasOperativos.Pgrep
