import Mathlib.Data.Finset.Card
import SistemasOperativos.LibuvServer

/-!
# Controlled shutdown of the server over libuv

A request for termination closes the input and the server at once when there is
no client, and otherwise leaves it to the last client that goes. Connections may
still come after the request. Whatever the order of the callbacks, both handles
are closed once, as soon as termination was requested and no client is left.
-/

namespace SistemasOperativos.LibuvServer

open TransitionRuns

/-- Which handles are closed, and why. -/
structure Ordered (s : State) : Prop where
  /-- The counter counts the open connections. -/
  counted : s.nclients = s.opened.card
  /-- Numbers of connections to come are not in use. -/
  numbered : ∀ c ∈ s.opened, c < s.accepted
  /-- Both handles are closed together. -/
  together : s.inputCloses = s.serverCloses
  /-- They are closed at most once. -/
  once : s.serverCloses ≤ 1
  /-- They are closed only when termination was requested and no client is left. -/
  closed : s.serverCloses = 1 → 0 < s.requests ∧ s.nclients = 0
  /-- The flag remembers a request. -/
  flagged : s.toDestroy = true → 0 < s.requests
  /-- A request that did not close the handles is remembered while there are clients. -/
  remembered : 0 < s.requests → s.serverCloses = 0 → s.toDestroy = true ∧ s.nclients ≠ 0

theorem ordered_initial : Ordered initial where
  counted := rfl
  numbered _ hc := nomatch hc
  together := rfl
  once := Nat.zero_le 1
  closed hone := nomatch hone
  flagged hflag := nomatch hflag
  remembered hpos := absurd hpos (Nat.lt_irrefl 0)

/-- Channels do not matter for the shutdown. -/
theorem Ordered.congr {s t : State} (h : Ordered s) (hn : t.nclients = s.nclients)
    (hd : t.toDestroy = s.toDestroy) (ha : t.accepted = s.accepted) (ho : t.opened = s.opened)
    (hi : t.inputCloses = s.inputCloses) (hs : t.serverCloses = s.serverCloses)
    (hr : t.requests = s.requests) : Ordered t := by
  constructor
  · rw [hn, ho]
    exact h.counted
  · rw [ho, ha]
    exact h.numbered
  · rw [hi, hs]
    exact h.together
  · rw [hs]
    exact h.once
  · rw [hs, hr, hn]
    exact h.closed
  · rw [hd, hr]
    exact h.flagged
  · rw [hr, hs, hd, hn]
    exact h.remembered

/-- A connection arrives while the server is open. -/
theorem Ordered.onNewConnection {s : State} (h : Ordered s) (hopen : s.serverCloses = 0)
    (status accepts : Bool) : Ordered (s.onNewConnection status accepts) := by
  unfold State.onNewConnection
  split
  · have hnew : s.accepted ∉ s.opened := fun hmem => absurd (h.numbered _ hmem) (Nat.lt_irrefl _)
    refine { h with
      counted := ?_, numbered := ?_, closed := fun hone => ?_, remembered := fun hpos hzero => ?_ }
    · show s.nclients + 1 = ((insert s.accepted s.opened).card : ℤ)
      rw [Finset.card_insert_of_notMem hnew, h.counted]
      rfl
    · intro c hc
      rcases Finset.mem_insert.mp hc with rfl | hold
      · exact Nat.lt_succ_self _
      · exact Nat.lt_succ_of_lt (h.numbered c hold)
    · rw [show s.serverCloses = 1 from hone] at hopen
      cases hopen
    · refine ⟨(h.remembered hpos hzero).1, ?_⟩
      have hcounted := h.counted
      show s.nclients + 1 ≠ 0
      omega
  · exact h

/-- A connection ends, and the last one after a request closes the handles. -/
theorem Ordered.ended {s : State} (h : Ordered s) {c : ℕ} (hc : c ∈ s.opened) :
    Ordered (s.readCompletion c .ended) := by
  have hcounted := h.counted
  have hcard := Finset.card_erase_of_mem hc
  have hpos := Finset.card_pos.mpr ⟨c, hc⟩
  have hopen : s.serverCloses = 0 := by
    by_contra hne
    have hnone := (h.closed (by have := h.once; omega)).2
    omega
  have hleft : s.nclients - 1 = ((s.opened.erase c).card : ℤ) := by omega
  have hnumbered : ∀ d ∈ s.opened.erase c, d < s.accepted :=
    fun d hd => h.numbered d (Finset.mem_of_mem_erase hd)
  have htogether := h.together
  unfold State.readCompletion
  dsimp only
  split
  · next hlast =>
    exact ⟨hleft, hnumbered, by show s.inputCloses + 1 = s.serverCloses + 1; omega,
      by show s.serverCloses + 1 ≤ 1; omega, fun _ => ⟨h.flagged hlast.1, hlast.2⟩, h.flagged,
      fun _ hzero => nomatch hzero⟩
  · next hnot =>
    refine ⟨hleft, hnumbered, htogether, h.once, fun hone => ?_, h.flagged, fun hreq hzero => ?_⟩
    · rw [show s.serverCloses = 1 from hone] at hopen
      cases hopen
    · have hflag := (h.remembered hreq hopen).1
      exact ⟨hflag, fun hnone => hnot ⟨hflag, hnone⟩⟩

/-- A request for termination. -/
theorem Ordered.readStdinCompletion {s : State} (h : Ordered s) (hopen : s.inputCloses = 0) :
    Ordered s.readStdinCompletion := by
  have htogether := h.together
  unfold State.readStdinCompletion
  dsimp only
  split
  · next hnone =>
    exact ⟨h.counted, h.numbered, by show s.inputCloses + 1 = s.serverCloses + 1; omega,
      by show s.serverCloses + 1 ≤ 1; omega, fun _ => ⟨Nat.succ_pos _, hnone⟩,
      fun _ => Nat.succ_pos _, fun _ hzero => nomatch hzero⟩
  · next hsome =>
    exact ⟨h.counted, h.numbered, htogether, h.once,
      fun hone => ⟨Nat.succ_pos _, (h.closed hone).2⟩, fun _ => Nat.succ_pos _,
      fun _ _ => ⟨rfl, hsome⟩⟩

/-- Every step keeps the shutdown in order. -/
theorem Ordered.step {s t : State} {a : Action} (h : Ordered s) (hstep : s.next a = some t) :
    Ordered t := by
  cases a with
  | newConnection status accepts =>
    simp only [State.next, Option.ite_none_right_eq_some, Option.some.injEq] at hstep
    obtain ⟨hopen, rfl⟩ := hstep
    exact h.onNewConnection hopen status accepts
  | read c nread =>
    simp only [State.next, Option.ite_none_right_eq_some, Option.some.injEq] at hstep
    obtain ⟨⟨hc, -⟩, rfl⟩ := hstep
    cases nread with
    | bytes xs => exact h.congr rfl rfl rfl rfl rfl rfl rfl
    | none => exact h
    | ended => exact h.ended hc
  | readStdin =>
    simp only [State.next, Option.ite_none_right_eq_some, Option.some.injEq] at hstep
    obtain ⟨hopen, rfl⟩ := hstep
    exact h.readStdinCompletion hopen
  | send c n =>
    simp only [State.next, Option.ite_none_right_eq_some] at hstep
    obtain ⟨-, hsend⟩ := hstep
    obtain ⟨chn, -, rfl⟩ := Option.map_eq_some_iff.mp hsend
    exact h.congr rfl rfl rfl rfl rfl rfl rfl
  | written c ok =>
    obtain ⟨chn, -, rfl⟩ := Option.map_eq_some_iff.mp hstep
    exact h.congr rfl rfl rfl rfl rfl rfl rfl

/-- Every reachable state is in order. -/
theorem ordered_reachable {s : State} (hs : server.Reachable s) : Ordered s := by
  refine System.Reachable.invariant ?_ (fun s a t _ h hstep => h.step hstep) hs
  rintro s rfl
  exact ordered_initial

/-- In every reachable state the counter is the number of open connections, each
handle was closed at most once, and each was closed exactly when termination was
requested and no client is left. -/
theorem controlled_shutdown {s : State} (hs : server.Reachable s) :
    (s.nclients = s.opened.card ∧ 0 ≤ s.nclients) ∧
    (s.inputCloses ≤ 1 ∧ s.serverCloses ≤ 1) ∧
    (s.inputCloses = 1 ↔ 0 < s.requests ∧ s.nclients = 0) ∧
    (s.serverCloses = 1 ↔ 0 < s.requests ∧ s.nclients = 0) := by
  have h := ordered_reachable hs
  have honce := h.once
  have hclosed : s.serverCloses = 1 ↔ 0 < s.requests ∧ s.nclients = 0 := by
    refine ⟨h.closed, fun hand => ?_⟩
    by_contra hne
    exact (h.remembered hand.1 (by omega)).2 hand.2
  refine ⟨⟨h.counted, ?_⟩, ⟨?_, honce⟩, ?_, hclosed⟩
  · rw [h.counted]
    exact Int.natCast_nonneg _
  · rw [h.together]
    exact honce
  · rw [h.together]
    exact hclosed

/-- A request while a client is connected, and a connection after it: the handles
are closed when both clients have gone. -/
theorem controlled_shutdown_last_client :
    ∃ s : State, server.Reachable s ∧ s.accepted = 2 ∧ s.serverCloses = 1 ∧ s.nclients = 0 := by
  have hstart : server.Reachable initial := .start rfl
  have hfirst := hstart.next (a := Action.newConnection true true) rfl
  have hrequested := hfirst.next (a := Action.readStdin) rfl
  have haccepted := hrequested.next (a := Action.newConnection true true) rfl
  have hsecond := haccepted.next (a := Action.read 0 .ended) rfl
  have hlast := hsecond.next (a := Action.read 1 .ended) rfl
  have hshutdown := (controlled_shutdown hlast).2.2.2.mp rfl
  exact ⟨_, hlast, rfl, rfl, hshutdown.2⟩

end SistemasOperativos.LibuvServer
