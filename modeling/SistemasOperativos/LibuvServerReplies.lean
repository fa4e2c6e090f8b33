import SistemasOperativos.LibuvServer

/-!
# Replies of the server over libuv

Every channel has one buffer and one write request, and every read callback uses
both. As long as no bytes come while a write of the channel is pending, what goes
out on a connection is what came in. A read that comes earlier overwrites the
reply and submits the request a second time.
-/

namespace SistemasOperativos.LibuvServer

open TransitionRuns BufferedWrites
open ByteMemory (Byte)

/-- On every connection the bytes sent are a prefix of the bytes received, and the
write request has not been submitted while it was pending. -/
def Faithful (s : State) : Prop :=
  ∀ c, (s.channel c).sent <+: (s.channel c).received ∧ s.resubmitted c = false

/-- Bytes only come on a connection without a pending write. -/
def Unhurried (s : State) : Action → Prop
  | .read c (.bytes _) => (s.channel c).pending = []
  | _ => True

/-- Every channel echoes what it reads. -/
def Echoes (s : State) : Prop := ∀ c, (s.channel c).Echoing ∧ s.resubmitted c = false

theorem Echoes.faithful {s : State} (h : Echoes s) : Faithful s :=
  fun c => ⟨(h c).1.faithful, (h c).2⟩

/-- One channel changes and goes on echoing. -/
theorem Echoes.setChannel {s : State} (h : Echoes s) {c : ℕ} {chn : Stream Byte}
    (hchn : chn.Echoing) : Echoes (s.setChannel c chn) := by
  intro d
  refine ⟨?_, (h d).2⟩
  show (Function.update s.channel c chn d).Echoing
  rcases eq_or_ne d c with rfl | hd
  · rw [Function.update_self]
    exact hchn
  · rw [Function.update_of_ne hd]
    exact (h d).1

/-- Closing a connection or the handles is no traffic. -/
theorem readCompletion_ended (s : State) (c : ℕ) :
    (s.readCompletion c .ended).channel = s.channel ∧
      (s.readCompletion c .ended).resubmitted = s.resubmitted := by
  unfold State.readCompletion
  dsimp only
  split <;> exact ⟨rfl, rfl⟩

/-- A read is answered with a write that nothing disturbs, if no write is pending. -/
theorem Echoes.answer {s : State} (h : Echoes s) {c : ℕ} (hp : (s.channel c).pending = [])
    (xs : List Byte) : Echoes ((s.filled c (.bytes xs)).readCompletion c (.bytes xs)) := by
  have hchn := (h c).1.fill_submit hp xs
  have hempty : ((s.filled c (.bytes xs)).channel c).pending = [] := by
    show (Function.update s.channel c _ c).pending = []
    rw [Function.update_self]
    exact hp
  intro d
  constructor
  · show (Function.update (Function.update s.channel c _) c
      ((Function.update s.channel c _ c).submit _) d).Echoing
    rw [Function.update_idem, Function.update_self]
    exact (h.setChannel hchn d).1
  · show Function.update s.resubmitted c _ d = false
    rw [hempty]
    rcases eq_or_ne d c with rfl | hd
    · rw [Function.update_self]
      show (s.resubmitted d || false) = false
      rw [(h d).2, Bool.or_self]
    · rw [Function.update_of_ne hd]
      exact (h d).2

/-- An unhurried step keeps every channel echoing. -/
theorem Echoes.step {s t : State} {a : Action} (h : Echoes s) (hstep : s.next a = some t)
    (hquiet : Unhurried s a) : Echoes t := by
  cases a with
  | newConnection status accepts =>
    simp only [State.next, Option.ite_none_right_eq_some, Option.some.injEq] at hstep
    obtain ⟨-, rfl⟩ := hstep
    unfold State.onNewConnection
    split
    · exact h.setChannel Stream.echoing_new
    · exact h
  | read c nread =>
    simp only [State.next, Option.ite_none_right_eq_some, Option.some.injEq] at hstep
    obtain ⟨-, rfl⟩ := hstep
    cases nread with
    | bytes xs => exact h.answer hquiet xs
    | none => exact h
    | ended =>
      obtain ⟨hchannel, hresubmitted⟩ := readCompletion_ended s c
      intro d
      show (((s.readCompletion c .ended).channel d)).Echoing ∧
        (s.readCompletion c .ended).resubmitted d = false
      rw [hchannel, hresubmitted]
      exact h d
  | readStdin =>
    simp only [State.next, Option.ite_none_right_eq_some, Option.some.injEq] at hstep
    obtain ⟨-, rfl⟩ := hstep
    unfold State.readStdinCompletion
    dsimp only
    split <;> exact h
  | send c n =>
    simp only [State.next, Option.ite_none_right_eq_some] at hstep
    obtain ⟨-, hsend⟩ := hstep
    obtain ⟨chn, hchn, rfl⟩ := Option.map_eq_some_iff.mp hsend
    exact h.setChannel ((h c).1.send hchn)
  | written c ok =>
    obtain ⟨chn, hchn, rfl⟩ := Option.map_eq_some_iff.mp hstep
    exact h.setChannel ((h c).1.complete hchn)

/-- A read that comes while a write is pending submits the request again. -/
theorem unhurried_of_faithful {s t : State} {a : Action} (hstep : s.next a = some t)
    (ht : Faithful t) : Unhurried s a := by
  unfold Unhurried
  split
  · next c xs =>
    simp only [State.next, Option.ite_none_right_eq_some, Option.some.injEq] at hstep
    obtain ⟨-, rfl⟩ := hstep
    have hresubmitted := (ht c).2
    have hpending : ((s.filled c (.bytes xs)).channel c).pending = (s.channel c).pending := by
      show (Function.update s.channel c _ c).pending = _
      rw [Function.update_self]
      rfl
    simp only [State.readCompletion, State.uvWrite, Function.update_self, hpending,
      Bool.or_eq_false_iff, Bool.not_eq_false', List.isEmpty_iff] at hresubmitted
    exact hresubmitted.2
  · trivial

/-- In every run, the replies on every connection are sent as they came and the
write request is never submitted while it is pending, exactly when no bytes come
on a connection while a write of it is pending. -/
theorem replies_faithful_iff {s : State} {trace : List (Transition State Action)}
    (hrun : server.Run initial trace s) :
    (∀ x ∈ trace, Faithful x.target) ↔ ∀ x ∈ trace, Unhurried x.source x.label := by
  refine hrun.forall_good_iff_of_invariant (I := Echoes) ?_ (fun s h => h.faithful) ?_ ?_
  · exact fun c => ⟨Stream.echoing_new, rfl⟩
  · exact fun s a t h hstep hquiet => h.step hstep hquiet
  · exact fun s a t _ hstep ht => unhurried_of_faithful hstep ht

/-- A client that waits for each reply gets it, whole, before the next one. -/
theorem replies_faithful_iff_waiting :
    ∃ s : State, (s.channel 0).sent = [1, 2, 3] ∧ Faithful s := by
  have hfirst := ((((System.Run.nil (S := server) initial).snoc
    (a := Action.newConnection true true) rfl).snoc (a := Action.read 0 (.bytes [1, 2])) rfl).snoc
    (a := Action.send 0 1) rfl).snoc (a := Action.send 0 1) rfl
  have hsecond := ((hfirst.snoc (a := Action.written 0 true) rfl).snoc
    (a := Action.read 0 (.bytes [3])) rfl).snoc (a := Action.send 0 1) rfl
  have hfaithful := (replies_faithful_iff hsecond).mpr (by
    intro x hx
    simp only [List.nil_append, List.cons_append, List.mem_cons, List.not_mem_nil, or_false] at hx
    rcases hx with rfl | rfl | rfl | rfl | rfl | rfl | rfl
    case inr.inl => exact (rfl : [] = [])
    case inr.inr.inr.inr.inr.inl => exact (rfl : [] = [])
    all_goals trivial)
  exact ⟨_, rfl, hfaithful _ (List.mem_append_right _ (List.mem_singleton.mpr rfl))⟩

/-- A client sends 1 and then 2 before the first reply has gone out: the reply is
overwritten, and 2 goes out first. -/
theorem second_read_overwrites_reply :
    ∃ (trace : List (Transition State Action)) (s : State), server.Run initial trace s ∧
      (s.channel 0).received = [1, 2] ∧ (s.channel 0).sent = [2] ∧ s.resubmitted 0 = true ∧
      ¬ ∀ x ∈ trace, Faithful x.target := by
  have hrun := ((((System.Run.nil (S := server) initial).snoc
    (a := Action.newConnection true true) rfl).snoc (a := Action.read 0 (.bytes [1])) rfl).snoc
    (a := Action.read 0 (.bytes [2])) rfl).snoc (a := Action.send 0 1) rfl
  refine ⟨_, _, hrun, rfl, rfl, rfl, fun hall => ?_⟩
  have hlast := (hall _ (List.mem_append_right _ (List.mem_singleton.mpr rfl)) 0).2
  cases hlast

end SistemasOperativos.LibuvServer
