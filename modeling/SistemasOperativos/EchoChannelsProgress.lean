import SistemasOperativos.EchoChannelsAgreement

/-!
# How far the clients of the echo service are

Where a client stands says how many requests it made, and its buffer keeps its
size. When the server waits for a request that is not there, nobody waits for a
response.
-/

namespace SistemasOperativos.EchoChannels

open TransitionRuns BoundedFifo

variable {s t : State} {pid : Pid}

/-- The number of requests of a client, by where it stands. -/
def ClientPc.Made (niters count : ℕ) : ClientPc → Prop
  | .opening | .creating => count = 0
  | .testing attempt => count + 1 = attempt ∧ count ≤ niters
  | .putting attempt => count + 1 = attempt ∧ attempt ≤ niters
  | .getting attempt => count = attempt ∧ attempt ≤ niters
  | .destroying | .closing => count = niters
  | .done => count = 0 ∨ count = niters

/-- What a client made, and its buffer. -/
structure Counted (niters : ℕ) (c : Client) : Prop where
  made : c.pc.Made niters c.requests.length
  /-- `MAX_MSG_SIZE`. -/
  size : c.msg.msg.length = 256

section Steps

/-- The server leaves the variables of the clients alone. -/
theorem runServer_clients (hstep : s.runServer = some t) : t.clients = s.clients := by
  unfold State.runServer at hstep
  split at hstep
  next => cases hstep; rfl
  next =>
    obtain ⟨⟨item, u⟩, hget, rfl⟩ := Option.map_eq_some_iff.mp hstep
    obtain ⟨rest, -, rfl⟩ := mcGet_spec hget
    rfl
  next => split at hstep <;> cases hstep <;> rfl
  next =>
    obtain ⟨u, hput, rfl⟩ := Option.map_eq_some_iff.mp hstep
    rw [mcPut_spec hput]
  next => cases hstep; rfl
  next => cases hstep; rfl
  next => cases hstep

variable {niters : ℕ}

/-- A client leaves the variables of the others alone. -/
theorem runClient_others (hstep : s.runClient niters pid = some t) {q : Pid} (hq : q ≠ pid) :
    t.clients q = s.clients q := by
  have hset : ∀ (u : State) (c : Client), (u.setClient pid c).clients q = u.clients q :=
    fun u c => Function.update_of_ne hq _ _
  simp only [State.runClient] at hstep
  split at hstep
  next => split at hstep <;> cases hstep <;> exact hset _ _
  next => cases hstep; exact hset _ _
  next => split at hstep <;> cases hstep <;> exact hset _ _
  next =>
    obtain ⟨u, hput, rfl⟩ := Option.map_eq_some_iff.mp hstep
    rw [hset, mcPut_spec hput]
  next =>
    obtain ⟨⟨item, u⟩, hget, rfl⟩ := Option.map_eq_some_iff.mp hstep
    obtain ⟨rest, -, rfl⟩ := mcGet_spec hget
    exact hset _ _
  next => cases hstep; exact hset _ _
  next => cases hstep; exact hset _ _
  next => cases hstep

/-- Every step of a client takes it to another place. -/
theorem runClient_pc_ne (hstep : s.runClient niters pid = some t) :
    (t.clients pid).pc ≠ (s.clients pid).pc := by
  simp only [State.runClient] at hstep
  split at hstep
  next hpc => split at hstep <;> cases hstep <;> simp [setClient_self, hpc]
  next hpc => cases hstep; simp [setClient_self, hpc]
  next hpc => split at hstep <;> cases hstep <;> simp [setClient_self, hpc]
  next hpc =>
    obtain ⟨u, -, rfl⟩ := Option.map_eq_some_iff.mp hstep
    simp [setClient_self, hpc]
  next hpc =>
    obtain ⟨u, -, rfl⟩ := Option.map_eq_some_iff.mp hstep
    simp [setClient_self, hpc]
  next hpc => cases hstep; simp [setClient_self, hpc]
  next hpc => cases hstep; simp [setClient_self, hpc]
  next => cases hstep

/-- A step of a client that is in no call leaves its histories alone. -/
theorem runClient_histories (hstep : s.runClient niters pid = some t)
    (hput : ∀ k, (s.clients pid).pc ≠ .putting k) (hget : ∀ k, (s.clients pid).pc ≠ .getting k) :
    (t.clients pid).requests = (s.clients pid).requests ∧
      (t.clients pid).responses = (s.clients pid).responses := by
  simp only [State.runClient] at hstep
  split at hstep
  next => split at hstep <;> cases hstep <;> simp only [setClient_self, and_self]
  next => cases hstep; simp only [setClient_self, and_self]
  next => split at hstep <;> cases hstep <;> simp only [setClient_self, and_self]
  next attempt hpc => exact absurd hpc (hput attempt)
  next attempt hpc => exact absurd hpc (hget attempt)
  next => cases hstep; simp only [setClient_self, and_self]
  next => cases hstep; simp only [setClient_self, and_self]
  next => cases hstep

/-- A client that puts makes a request. -/
theorem runClient_putting {attempt : ℕ} (hpc : (s.clients pid).pc = .putting attempt)
    (hstep : s.runClient niters pid = some t) :
    (t.clients pid).requests = (s.clients pid).requests ++ [(s.clients pid).msg] ∧
      (t.clients pid).responses = (s.clients pid).responses := by
  simp only [State.runClient, hpc] at hstep
  obtain ⟨u, -, rfl⟩ := Option.map_eq_some_iff.mp hstep
  simp only [setClient_self, and_self]

/-- A client that gets takes the oldest message of its channel. -/
theorem runClient_getting {attempt : ℕ} {m : Message} {rest : List Message}
    (hpc : (s.clients pid).pc = .getting attempt)
    (hqueue : (s.channels (.client pid)).queue = m :: rest)
    (hstep : s.runClient niters pid = some t) :
    (t.clients pid).requests = (s.clients pid).requests ∧
      (t.clients pid).responses = (s.clients pid).responses ++ [m] := by
  simp only [State.runClient, hpc] at hstep
  obtain ⟨⟨item, u⟩, hget, rfl⟩ := Option.map_eq_some_iff.mp hstep
  obtain ⟨rest', hqueue', rfl⟩ := mcGet_spec hget
  obtain ⟨rfl, -⟩ := List.cons_eq_cons.mp (hqueue.symm.trans hqueue')
  simp only [setClient_self, and_self]

/-- Every step of a client counts its requests and keeps the size of its buffer. -/
theorem Counted.runClient (h : Counted niters (s.clients pid)) (hint : niters < 2 ^ 31)
    (hstep : s.runClient niters pid = some t) : Counted niters (t.clients pid) := by
  obtain ⟨hmade, hsize⟩ := h
  simp only [State.runClient] at hstep
  split at hstep
  next hpc =>
    rw [hpc] at hmade
    split at hstep <;> cases hstep <;> rw [setClient_self]
    · exact ⟨.inl hmade, hsize⟩
    · exact ⟨hmade, hsize⟩
  next hpc =>
    rw [hpc] at hmade
    cases hstep
    rw [setClient_self]
    have hzero : (s.clients pid).requests.length = 0 := hmade
    exact ⟨⟨by simp only [hzero], by simp only [hzero]; exact Nat.zero_le _⟩, hsize⟩
  next attempt hpc =>
    rw [hpc] at hmade
    obtain ⟨hcount, hle⟩ := hmade
    split at hstep
    next hmore =>
      cases hstep
      rw [setClient_self]
      have hfits : (requestText (s.clients pid).msg.sender attempt).length < 256 :=
        length_requestText_lt _ (hmore.trans_lt hint)
      exact ⟨⟨hcount, hmore⟩, (length_sprintf (by rw [hsize]; exact hfits)).trans hsize⟩
    next hdone =>
      cases hstep
      rw [setClient_self]
      refine ⟨?_, hsize⟩
      simp only [ClientPc.Made]
      omega
  next attempt hpc =>
    rw [hpc] at hmade
    obtain ⟨hcount, hle⟩ := hmade
    obtain ⟨u, -, rfl⟩ := Option.map_eq_some_iff.mp hstep
    rw [setClient_self]
    exact ⟨⟨List.length_append.trans hcount, hle⟩, hsize⟩
  next attempt hpc =>
    rw [hpc] at hmade
    obtain ⟨hcount, hle⟩ := hmade
    obtain ⟨r, -, rfl⟩ := Option.map_eq_some_iff.mp hstep
    rw [setClient_self]
    exact ⟨⟨congrArg (· + 1) hcount, hcount.trans_le hle⟩, hsize⟩
  next hpc =>
    rw [hpc] at hmade
    cases hstep
    rw [setClient_self]
    exact ⟨hmade, hsize⟩
  next hpc =>
    rw [hpc] at hmade
    cases hstep
    rw [setClient_self]
    exact ⟨.inr hmade, hsize⟩
  next => cases hstep

/-- The client is done and has not made all its requests. -/
def Client.GaveUp (niters : ℕ) (c : Client) : Prop := c.pc = .done ∧ c.requests.length ≠ niters

/-- A client only gives up when the service is not there to be opened. -/
theorem Counted.gaveUp_step (h : Counted niters (s.clients pid))
    (hstep : s.runClient niters pid = some t) (hgave : (t.clients pid).GaveUp niters) :
    (s.clients pid).pc = .opening ∧ s.names echoServiceName = none := by
  have hmade := h.made
  obtain ⟨hdone, hless⟩ := hgave
  simp only [State.runClient] at hstep
  split at hstep
  next hpc =>
    split at hstep
    next hnone => exact ⟨hpc, hnone⟩
    next =>
      cases hstep
      rw [setClient_self] at hdone
      cases hdone
  next =>
    cases hstep
    rw [setClient_self] at hdone
    cases hdone
  next => split at hstep <;> cases hstep <;> rw [setClient_self] at hdone <;> cases hdone
  next =>
    obtain ⟨u, -, rfl⟩ := Option.map_eq_some_iff.mp hstep
    rw [setClient_self] at hdone
    cases hdone
  next =>
    obtain ⟨u, -, rfl⟩ := Option.map_eq_some_iff.mp hstep
    rw [setClient_self] at hdone
    cases hdone
  next =>
    cases hstep
    rw [setClient_self] at hdone
    cases hdone
  next hpc =>
    -- a client that closes the service has made all its requests
    rw [hpc] at hmade
    cases hstep
    rw [setClient_self] at hless
    exact absurd hmade hless
  next => cases hstep

end Steps

section Waiting

/-- The channel of the sender is empty when the server has its message. -/
theorem Inv.response_empty (h : Inv s) {m : Message}
    (hm : m ∈ s.server.hand ++ (s.channels .server).queue) :
    (s.channels (.client m.sender)).queue = [] ∧ m = (s.clients m.sender).msg := by
  have hmem : m ∈ (s.server.hand ++ (s.channels .server).queue).filter
      fun n : Message => n.sender = m.sender := List.mem_filter.mpr ⟨hm, decide_eq_true rfl⟩
  have hflight := (h.clients m.sender).flight
  rw [if_pos (h.awaited hm), State.inFlight] at hflight
  have hpos := List.length_pos_of_mem hmem
  have hlength := congrArg List.length hflight
  rw [List.length_append, List.length_singleton] at hlength
  refine ⟨List.length_eq_zero_iff.mp (by omega), ?_⟩
  have hone : m ∈ [(s.clients m.sender).msg] := hflight ▸ List.mem_append_right _ hmem
  exact List.mem_singleton.mp hone

/-- Nobody waits while no message is on its way. -/
theorem Inv.not_awaiting (h : Inv s) (hhand : s.server.hand = [])
    (hrequests : (s.channels .server).queue = []) (hown : (s.channels (.client pid)).queue = []) :
    ¬ (s.clients pid).pc.Awaiting := by
  intro hwaits
  have hflight := (h.clients pid).flight
  rw [if_pos hwaits, State.inFlight, hhand, hrequests, hown] at hflight
  cases hflight

/-- A client that does not wait got what it put. -/
theorem Inv.responses_eq (h : Inv s) (pid : Pid) (hidle : ¬ (s.clients pid).pc.Awaiting) :
    (s.clients pid).responses = (s.clients pid).requests := by
  have hhistory := (h.clients pid).history
  rw [(h.clients pid).idle hidle, List.append_nil] at hhistory
  exact hhistory.symm

end Waiting

end SistemasOperativos.EchoChannels
