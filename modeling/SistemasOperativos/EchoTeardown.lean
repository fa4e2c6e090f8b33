import SistemasOperativos.EchoStatementsRefinement

/-!
# Destroying a response channel

A client destroys its channel when it has all its responses, and then no message
of it is in flight: the server may only have to signal in that channel. As
`mc_put` unlocks before it signals, the client may return from its last `mc_get`
and destroy the channel in between, and the signal comes after.
-/

namespace SistemasOperativos.EchoStatements

open TransitionRuns MutexChannel
open EchoChannels (Pid Process Message echoServiceName respName)

variable {niters : Pid → ℕ} {s t : State} {a : EchoChannels.State} {p : Process} {m : Move}

/-- What one step does to the channels: a step of a call in one of them, the
destruction of a part of a client's own channel, or neither. -/
inductive Effect (s : State) (p : Process) (m : Move) (t : State) : Prop
  | call (ch : Process) (c : Call) (k : MutexChannel.State Process) :
    s.standsAt p = some (ch, c) → CallStep (s.channels ch) p c m k →
      t.channels = Function.update s.channels ch k → t.destroyed = s.destroyed → Effect s p m t
  | destroy (pid : Pid) (part : Part) :
    p = .client pid → (s.clients pid).pc = .destroying (.destroying part) →
      t.channels = s.channels → t.destroyed = Function.update s.destroyed (.client pid)
        (s.destroyed (.client pid) ++ [part]) → Effect s p m t
  | other :
    (∀ ch q, (t.channels ch).pc q = (s.channels ch).pc q ∨ (t.channels ch).pc q = .idle) →
      (∀ ch, t.destroyed ch ⊆ s.destroyed ch) → Effect s p m t

/-- A step that changes neither the channels nor what is destroyed. -/
theorem Effect.of_eq (hchannels : t.channels = s.channels) (hdestroyed : t.destroyed = s.destroyed) :
    Effect s p m t :=
  .other (fun ch q => .inl (by rw [hchannels])) fun ch => by rw [hdestroyed]; exact fun _ h => h

/-- A new channel is whole, and nobody is in it. -/
theorem Effect.of_mcCreate (owner : Process) (name : List Char)
    (hchannels : t.channels = (s.mcCreate owner name).channels)
    (hdestroyed : t.destroyed = (s.mcCreate owner name).destroyed) : Effect s p m t := by
  refine .other (fun ch q => ?_) fun ch => ?_
  · rw [hchannels]
    rcases eq_or_ne ch owner with rfl | hne
    · refine .inr ?_
      show (Function.update s.channels ch _ ch).pc q = _
      rw [Function.update_self]
    · rw [mcCreate_of_ne hne]
      exact .inl rfl
  · rw [hdestroyed, mcCreate_destroyed]
    split
    · exact List.nil_subset _
    · exact fun _ h => h

/-- A step of a call. -/
theorem Follows.effect_call (h : Follows s a) {ch : Process} {c : Call} {ret : State → State}
    (hstand : s.standsAt p = some (ch, c)) (hcall : s.call p ch c m ret = some t)
    (hret : ∀ u, (ret u).channels = u.channels ∧ (ret u).destroyed = u.destroyed) :
    Effect s p m t := by
  obtain ⟨k, -, hstep, rfl⟩ := h.callStep hstand hcall
  refine .call ch c k hstand hstep ?_ ?_
  · cases m with
    | signal w => exact (hret _).1
    | step | wake => rfl
  · cases m with
    | signal w => exact (hret _).2
    | step | wake => rfl

/-- Every step has one of these effects. -/
theorem Follows.effect (h : Follows s a) (hI : EchoChannels.Inv a)
    (hnext : s.next niters (p, m) = some t) : Effect s p m t := by
  cases p with
  | server =>
    have hstep : s.runServer m = some t := hnext
    have hview := h.server
    unfold State.runServer at hstep
    cases hserver : s.server with
    | creating =>
      rw [hserver] at hstep
      obtain rfl := plain_spec hstep
      exact .of_mcCreate .server echoServiceName rfl rfl
    | getting =>
      rw [hserver] at hstep
      exact h.effect_call (by rw [State.standsAt, hserver]) hstep fun _ => ⟨rfl, rfl⟩
    | opening msg =>
      rw [hserver] at hstep
      dsimp only at hstep
      split at hstep
      next =>
        obtain rfl := plain_spec hstep
        exact .of_eq rfl rfl
      next =>
        obtain rfl := plain_spec hstep
        exact .of_eq rfl rfl
    | putting msg resp =>
      rw [hserver] at hstep
      exact h.effect_call (by rw [State.standsAt, hserver]) hstep fun _ => ⟨rfl, rfl⟩
    | closing resp d =>
      rw [hserver] at hstep
      simp only [(h.server_closes hI hserver).2] at hstep
      obtain rfl := plain_spec hstep
      exact .of_eq rfl rfl
    | destroying d =>
      rw [ServerView, hserver] at hview
      exact absurd hview hI.serving.1
    | done =>
      rw [hserver] at hstep
      cases hstep
  | client pid =>
    have hstep : s.runClient (niters pid) pid m = some t := hnext
    simp only [State.runClient] at hstep
    cases hpc : (s.clients pid).pc with
    | opening =>
      rw [hpc] at hstep
      dsimp only at hstep
      split at hstep
      next =>
        obtain rfl := plain_spec hstep
        exact .of_eq rfl rfl
      next =>
        obtain rfl := plain_spec hstep
        exact .of_eq rfl rfl
    | creating =>
      rw [hpc] at hstep
      obtain rfl := plain_spec hstep
      exact .of_mcCreate (.client pid) (respName pid) rfl rfl
    | testing attempt =>
      rw [hpc] at hstep
      dsimp only at hstep
      split at hstep
      next =>
        obtain rfl := plain_spec hstep
        exact .of_eq rfl rfl
      next =>
        obtain rfl := plain_spec hstep
        exact .of_eq rfl rfl
    | putting attempt =>
      rw [hpc] at hstep
      exact h.effect_call (by simp only [State.standsAt, hpc]) hstep fun _ => ⟨rfl, rfl⟩
    | getting attempt =>
      rw [hpc] at hstep
      exact h.effect_call (by simp only [State.standsAt, hpc]) hstep fun _ => ⟨rfl, rfl⟩
    | destroying d =>
      rw [hpc] at hstep
      cases d with
      | testing =>
        simp only [State.mcDestroy, if_true] at hstep
        obtain rfl := plain_spec hstep
        exact .of_eq rfl rfl
      | destroying part =>
        cases part with
        | hasItems | hasSpace | lock =>
          obtain rfl := plain_spec hstep
          exact .destroy pid _ rfl hpc rfl rfl
      | unmapping =>
        obtain rfl := plain_spec hstep
        exact .of_eq rfl rfl
    | closing d =>
      rw [hpc] at hstep
      simp only [h.client_closes hI hpc] at hstep
      obtain rfl := plain_spec hstep
      exact .of_eq rfl rfl
    | done =>
      rw [hpc] at hstep
      cases hstep

/-- A step of a call moves its process, and only after the copy to the signal. -/
theorem CallStep.moves {k k' : MutexChannel.State Process} {c : Call} (h : CallStep k p c m k') :
    ∃ q, k'.pc = Function.update k.pc p q ∧ ∀ d, q = .signaling d → past (k.pc p) = true := by
  cases h with
  | returned w n hpc => exact ⟨.idle, rfl, nofun⟩
  | copied hpc => exact ⟨.advancing c, by cases c <;> rfl, nofun⟩
  | moved _ q _ hm hsignaling hq hpast hpc hputs hgets hitem =>
    refine ⟨q, hpc, fun d hd => ?_⟩
    rw [← hpast, hd, past_signaling]

/-- A process that has to signal after a step copied before it. -/
theorem Effect.past_of_signaling (h : Effect s p m t) {ch q : Process} {c : Call}
    (hsignaling : (t.channels ch).pc q = .signaling c) : past ((s.channels ch).pc q) = true := by
  cases h with
  | call r d k hstand hstep hchannels hdestroyed =>
    rw [hchannels] at hsignaling
    obtain ⟨x, hpc, hx⟩ := hstep.moves
    by_cases hne : ch ≠ r ∨ q ≠ p
    · rw [update_pc_of_ne hpc hne] at hsignaling
      rw [hsignaling, past_signaling]
    · obtain ⟨rfl, rfl⟩ := not_or.mp hne |>.imp not_not.mp not_not.mp
      rw [Function.update_self, hpc, Function.update_self] at hsignaling
      exact hx c hsignaling
  | destroy pid part hp hpc hchannels hdestroyed =>
    rw [← hchannels, hsignaling, past_signaling]
  | other hpcs hdestroyed =>
    rcases hpcs ch q with hsame | hidle
    · rw [← hsame, hsignaling, past_signaling]
    · rw [hidle] at hsignaling
      cases hsignaling

/-- No process executes a put on a channel of which the part was destroyed. -/
def Apart (part : Part) (s : State) : Prop :=
  ∀ ch p item, s.standsAt p = some (ch, .put item) → part ∉ s.destroyed ch

/-- The only put on a channel that is being destroyed is the server's, which has to signal. -/
theorem Follows.signaling_of_destroyed (h : Follows s a) (hI : EchoChannels.Inv a) {ch : Process}
    {item : List ByteMemory.Byte} (hstand : s.standsAt p = some (ch, .put item))
    (hdestroyed : s.destroyed ch ≠ []) :
    ∃ pid, ch = .client pid ∧ p = .server ∧
      (s.channels (.client pid)).pc .server = .signaling (.put item) := by
  cases ch with
  | server => exact absurd h.request hdestroyed
  | client pid =>
    cases p with
    | server =>
      have hleaving := h.response pid hdestroyed
      have hawaiting : ¬ (a.clients pid).pc.Awaiting := by
        rw [(h.clients pid).pc_eq]
        cases hpc : (s.clients pid).pc with
        | destroying | closing | done => exact id
        | opening | creating | testing | putting | getting =>
          rw [hpc] at hleaving
          exact hleaving.elim
      exact ⟨pid, rfl, rfl, h.signaling hI hawaiting hstand⟩
    | client q =>
      obtain ⟨-, ⟨hrequest, -⟩ | ⟨-, hget⟩⟩ := h.calling hI hstand
      · cases hrequest
      · cases hget

/-- A step keeps the puts and the destroyed parts apart, unless a client destroys
a part while the server has to signal. -/
theorem Apart.step {part : Part} (hs : (service niters).Reachable s) (hapart : Apart part s)
    (hnext : s.next niters (p, m) = some t) (hsignaled : DestroysSignaled part s (p, m)) :
    Apart part t := by
  intro ch q item hstand hmem
  obtain ⟨a, hI, h⟩ := follows_reachable hs
  obtain ⟨a', hI', h'⟩ := follows_reachable (hs.next hnext)
  obtain ⟨pid, rfl, rfl, hsignaling⟩ :=
    h'.signaling_of_destroyed hI' hstand (List.ne_nil_of_mem hmem)
  have heffect := h.effect hI hnext
  -- the server was in the put before the step already
  have hbefore : ∃ msg, s.standsAt .server = some (.client pid, .put msg) := by
    by_contra hnot
    have hidle : (s.channels (.client pid)).pc .server = .idle := h.idle fun c hc => by
      obtain ⟨msg, -, rfl⟩ := putting_of_standsAt hc
      exact hnot ⟨msg, hc⟩
    have hpast := heffect.past_of_signaling hsignaling
    rw [hidle] at hpast
    cases hpast
  obtain ⟨msg, hstand'⟩ := hbefore
  have hwhole := hapart _ _ _ hstand'
  cases heffect with
  | call r c k hstand hstep hchannels hdestroyed =>
    rw [hdestroyed] at hmem
    exact hwhole hmem
  | destroy pid' part' hp hpc hchannels hdestroyed =>
    rw [hdestroyed] at hmem
    rw [hchannels] at hsignaling
    rcases eq_or_ne pid pid' with rfl | hne
    · rw [Function.update_self] at hmem
      rcases List.mem_append.mp hmem with hold | hnew
      · exact hwhole hold
      · subst hp
        rw [← List.mem_singleton.mp hnew] at hpc
        have hnot := hsignaled hpc
        rw [hsignaling] at hnot
        cases hnot
    · rw [Function.update_of_ne fun he => hne (Process.client.inj he)] at hmem
      exact hwhole hmem
  | other hpcs hdestroyed => exact hwhole (hdestroyed _ hmem)

/-- A client destroys a part of its channel, and nothing else. -/
theorem destroying_step {pid : Pid} {part : Part}
    (hpc : (s.clients pid).pc = .destroying (.destroying part))
    (hnext : s.next niters (.client pid, m) = some t) :
    t.channels = s.channels ∧ t.server = s.server ∧ part ∈ t.destroyed (.client pid) := by
  have hstep : s.runClient (niters pid) pid m = some t := hnext
  simp only [State.runClient] at hstep
  rw [hpc] at hstep
  have hmem : part ∈ Function.update s.destroyed (.client pid)
      (s.destroyed (.client pid) ++ [part]) (.client pid) := by
    rw [Function.update_self]
    exact List.mem_append_right _ (List.mem_singleton_self _)
  cases part with
  | hasItems | hasSpace | lock =>
    obtain rfl := plain_spec hstep
    exact ⟨rfl, rfl, hmem⟩

/-- A process that has to signal executes a call. -/
theorem exists_of_signaling {q : Pc} (h : signaling q = true) : ∃ c, q = .signaling c := by
  cases q with
  | signaling c => exact ⟨c, rfl⟩
  | idle | locking | checking | waiting | copying | advancing | wrapping | counting | unlocking =>
    cases h

/-- The server can signal when it has to. -/
theorem signal_enabled (niters : Pid → ℕ) {msg : List ByteMemory.Byte} {resp : Process} {c : Call}
    (hserver : s.server = .putting msg resp)
    (hpc : (s.channels resp).pc .server = .signaling c) :
    ∃ w t, s.next niters (.server, .signal w) = some t := by
  obtain ⟨w, n, hn⟩ := (s.channels resp).monitor.exists_signal c.signals
  have hk : (s.channels resp).next (.server, .signal w) =
      some ({ s.channels resp with monitor := n }.goto .server .idle) := by
    simp only [MutexChannel.State.next, hpc, hn, Option.map_some]
  refine ⟨w, ?_⟩
  rw [State.next, State.runServer, hserver]
  dsimp only
  rw [State.call, Move.action, hk]
  exact ⟨_, rfl⟩

/-- Where clients destroy their channels only when the server signaled, the puts keep apart. -/
theorem apart_reachable {part : Part}
    (hs : ((service niters).restrict (DestroysSignaled part)).Reachable s) : Apart part s := by
  refine System.Reachable.invariant (I := Apart part) (fun x hx => ?_)
    (fun x l y hx hI hxy => hI.step hx.of_restrict hxy.2 hxy.1) hs
  intro ch p item _ hmem
  rw [hx.destroyed_eq] at hmem
  cases hmem

/-- No statement of a put comes after the destruction in a run, nor can come next,
exactly if clients destroy their channels only when the server signaled. -/
theorem puts_before_destruction_iff {trace : List (Transition State (Process × Move))}
    (hs : Started s) (hrun : (service niters).Run s trace t) (part : Part) :
    (∀ tr ∈ trace, ¬ PutsAfter part tr.source tr.label ∧
      ∀ l u, (service niters).step tr.target l u → ¬ PutsAfter part tr.target l) ↔
    ∀ tr ∈ trace, DestroysSignaled part tr.source tr.label := by
  have hreach : (service niters).Reachable s := .start hs
  constructor
  · intro hall tr htr
    obtain ⟨hsource, hstep⟩ := hrun.transition hreach htr
    have hnext := (hall tr htr).2
    obtain ⟨x, ⟨p, m⟩, y⟩ := tr
    cases p with
    | server => trivial
    | client pid =>
      intro hpc
      by_contra hnot
      -- the server could signal now
      obtain ⟨a, hI, h⟩ := follows_reachable hsource
      obtain ⟨c, hsignaling⟩ := exists_of_signaling (Bool.eq_true_of_not_eq_false hnot)
      have hstand := h.seated (.client pid) .server c (by rw [hsignaling]; rfl)
      obtain ⟨msg, hserver, rfl⟩ := putting_of_standsAt hstand
      obtain ⟨hchannels, hserver', hmem⟩ := destroying_step hpc hstep
      obtain ⟨w, u, hu⟩ := signal_enabled niters (hserver'.trans hserver)
        (by rw [hchannels]; exact hsignaling)
      exact hnext (.server, .signal w) u hu
        ⟨.client pid, msg, (standsAt_server hserver').trans hstand, hmem⟩
  · intro hall tr htr
    obtain ⟨hsource, hstep⟩ := (hrun.restrict hall).transition (.start hs) htr
    constructor
    · rintro ⟨ch, item, hstand, hmem⟩
      exact apart_reachable hsource ch _ item hstand hmem
    · rintro l u - ⟨ch, item, hstand, hmem⟩
      exact apart_reachable (hsource.next hstep) ch _ item hstand hmem

/-- Before any process runs, with all variables zero. -/
def zeroed : State where
  names _ := none
  channels p := ⟨mcCreate sizeofMsg p.capacity fun _ => 0, .new, fun _ => .idle, fun _ => [], [], []⟩
  destroyed _ := []
  server := .creating
  clients _ := ⟨.opening, .server, ⟨0, List.replicate 256 0⟩⟩

theorem zeroed_started : Started zeroed :=
  ⟨fun _ => rfl, fun _ => ⟨_, _, rfl⟩, fun _ => rfl, rfl, fun _ => rfl⟩

/-- A client sends its request, and the server puts the response and unlocks. -/
def answered : List (Process × Move) :=
  (.server, .step) :: List.replicate 11 (.client 7, .step) ++ (.client 7, .signal none) ::
    List.replicate 8 (.server, .step) ++ (.server, .signal none) ::
    List.replicate 9 (.server, .step)

/-- The client gets the response and destroys its channel. -/
def tornDown : List (Process × Move) :=
  List.replicate 8 (.client 7, .step) ++ (.client 7, .signal none) ::
    List.replicate 5 (.client 7, .step)

/-- The client destroys its channel, and then the server signals in it. -/
theorem signal_after_destruction : ∃ s, (service fun _ => 1).Reachable s ∧
    s.destroyed (.client 7) = [.hasItems, .hasSpace, .lock] ∧
    (∃ t, (service fun _ => 1).step s (.server, .signal none) t) ∧
    ∀ part, PutsAfter part s (.server, .signal none) := by
  have hstart : (service fun _ => 1).Reachable zeroed := .start zeroed_started
  obtain ⟨s, hs, hp⟩ := hstart.exists_of_any (answered ++ tornDown)
    (p := fun s => decide (s.destroyed (.client 7) = [.hasItems, .hasSpace, .lock]) &&
      (s.next (fun _ => 1) (.server, .signal none)).isSome &&
      match s.standsAt .server with
      | some (ch, .put _) => decide (ch = .client 7)
      | _ => false) (by decide +kernel)
  simp only [Bool.and_eq_true, decide_eq_true_eq] at hp
  obtain ⟨⟨hdestroyed, hnext⟩, hstand⟩ := hp
  refine ⟨s, hs, hdestroyed, Option.isSome_iff_exists.mp hnext, fun part => ?_⟩
  split at hstand
  next ch item hput =>
    obtain rfl := of_decide_eq_true hstand
    refine ⟨.client 7, item, hput, ?_⟩
    rw [hdestroyed]
    cases part <;> decide
  next => cases hstand

/-- The server signals, and then the client destroys its channel. -/
theorem puts_before_destruction_iff_signaled : ∃ trace t,
    (service fun _ => 1).Run zeroed trace t ∧
    t.destroyed (.client 7) = [.hasItems, .hasSpace, .lock] ∧
    ∀ tr ∈ trace, ¬ PutsAfter .lock tr.source tr.label := by
  obtain ⟨trace, t, hrun, hall, hp⟩ := @System.Run.exists_of_any State (Process × Move) Started
    (State.next fun _ => 1) (DestroysSignaled .lock) _
    (fun s => decide (s.destroyed (.client 7) = [.hasItems, .hasSpace, .lock]))
    (answered ++ (.server, .signal none) :: tornDown) zeroed (by decide +kernel)
  exact ⟨trace, t, hrun, of_decide_eq_true hp, fun tr htr =>
    ((puts_before_destruction_iff zeroed_started hrun .lock).mpr hall tr htr).1⟩

end SistemasOperativos.EchoStatements
