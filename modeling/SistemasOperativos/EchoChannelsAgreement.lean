import Std.Data.String.ToNat
import SistemasOperativos.EchoChannels

/-!
# The messages of the echo service

Names of response channels differ, so the server finds the channel of the
sender. A client has a message in flight exactly while it waits for a response,
and what it put is what it got followed by that message.
-/

namespace SistemasOperativos.EchoChannels

open TransitionRuns BoundedFifo

section Names

/-- A process number has at most ten digits. -/
theorem length_pid_le (pid : Pid) : (toString pid.val).toList.length ≤ 10 := by
  have hdigits : (toString pid.val).toList = Nat.toDigits 10 pid.val := Nat.toList_repr
  rw [hdigits, Nat.length_toDigits_le_iff (by decide) (by decide)]
  exact lt_trans pid.isLt (by decide)

/-- The text of a request fits, since both numbers have at most ten digits. -/
theorem length_requestText_lt (pid : Pid) {attempt : ℕ} (h : attempt < 2 ^ 31) :
    (requestText pid attempt).length < 256 := by
  have hpid := length_pid_le pid
  have hattempt := length_pid_le ⟨attempt, h⟩
  -- the equation lemma of the definition would evaluate its string
  delta requestText
  simp only [List.length_append, List.length_cons]
  change 6 + _ + (_ + 1) < 256
  simp only at hattempt
  omega

theorem length_sprintf {buf : List ByteMemory.Byte} {text : List Char} (h : text.length < buf.length) :
    (sprintf buf text).length = buf.length := by
  simp only [sprintf, List.length_append, List.length_map, List.length_cons, List.length_drop]
  omega

/-- The name of a response channel is not cut. -/
theorem respName_eq (pid : Pid) :
    respName pid = echoClientPrefix ++ (toString pid.val).toList := by
  have hlength := length_pid_le pid
  refine List.take_of_length_le ?_
  rw [List.length_append]
  change 7 + _ ≤ 127
  omega

/-- Different clients have different names. -/
theorem respName_injective {p q : Pid} (h : respName p = respName q) : p = q := by
  rw [respName_eq, respName_eq] at h
  have hdigits := String.toList_inj.mp (List.append_cancel_left h)
  exact Fin.ext (Nat.repr_injective hdigits)

/-- No client has the name of the service. -/
theorem respName_ne_service (pid : Pid) : respName pid ≠ echoServiceName := by
  rw [respName_eq]
  intro h
  have hfirst : some 'c' = some 'e' := congrArg List.head? h
  exact absurd hfirst (by decide)

end Names

/-- The client waits for a response. -/
def ClientPc.Awaiting : ClientPc → Prop
  | .getting _ => True
  | _ => False

instance : (pc : ClientPc) → Decidable pc.Awaiting
  | .getting _ => .isTrue trivial
  | .opening | .creating | .testing _ | .putting _ | .destroying | .closing | .done =>
    .isFalse id

/-- The response channel of the client exists. -/
def ClientPc.Named : ClientPc → Prop
  | .testing _ | .putting _ | .getting _ | .destroying => True
  | _ => False

/-- The client opened the request channel. -/
def ClientPc.Opened : ClientPc → Prop
  | .opening | .done => False
  | _ => True

/-- What holds of one client, by where it stands. -/
structure ClientInv (s : State) (pid : Pid) (c : Client) : Prop where
  opened : c.pc.Opened → c.channel = .server ∧ s.server ≠ .creating
  named : c.pc.Named → s.names (respName pid) = some (.client pid)
  sender : c.pc.Named → c.msg.sender = pid
  flight : s.inFlight pid = if c.pc.Awaiting then [c.msg] else []
  history : c.requests = c.responses ++ s.inFlight pid
  own : ∀ m ∈ c.requests, m.sender = pid

/-- Where the messages, the names and the processes are. -/
structure Inv (s : State) : Prop where
  service : ∀ r, s.names echoServiceName = some r → r = .server ∧ s.server ≠ .creating
  response : ∀ pid r, s.names (respName pid) = some r → r = .client pid
  target : ∀ m r, s.server = .putting m r → r = .client m.sender
  closing : ∀ r name, s.server = .closing r name → r ≠ .server
  fresh : s.server = .creating → (s.channels .server).queue = []
  serving : s.server ≠ .destroying ∧ s.server ≠ .done
  clients : ∀ pid, ClientInv s pid (s.clients pid)

variable {s t : State}

section Channels

/-- A put with space appends its element. -/
theorem mcPut_spec {channel : Process} {item : Message} (h : s.mcPut channel item = some t) :
    t = { s with
      channels := Function.update s.channels channel
        ⟨(s.channels channel).queue ++ [item], (s.channels channel).entered ++ [item],
          (s.channels channel).left⟩ } := by
  obtain ⟨f, hf, rfl⟩ := Option.map_eq_some_iff.mp h
  simp only [Fifo.next, Option.ite_none_right_eq_some, Option.some.injEq] at hf
  obtain ⟨-, rfl⟩ := hf
  rfl

/-- A get removes the oldest element. -/
theorem mcGet_spec {channel : Process} {item : Message} (h : s.mcGet channel = some (item, t)) :
    ∃ rest, (s.channels channel).queue = item :: rest ∧
      t = { s with
        channels := Function.update s.channels channel
          ⟨rest, (s.channels channel).entered, (s.channels channel).left ++ [item]⟩ } := by
  unfold State.mcGet at h
  split at h
  next => cases h
  next first rest hqueue =>
    obtain ⟨f, hf, hpair⟩ := Option.map_eq_some_iff.mp h
    cases hpair
    simp only [Fifo.next, hqueue, Option.some.injEq] at hf
    subst hf
    exact ⟨rest, hqueue, rfl⟩

/-- A message in the request channel or in the hand of the server is in flight. -/
theorem mem_inFlight {m : Message} (h : m ∈ s.server.hand ++ (s.channels .server).queue) :
    m ∈ s.inFlight m.sender :=
  List.mem_append_right _ (List.mem_filter.mpr ⟨h, decide_eq_true rfl⟩)

/-- Its sender waits for it. -/
theorem Inv.awaited (h : Inv s) {m : Message}
    (hm : m ∈ s.server.hand ++ (s.channels .server).queue) :
    (s.clients m.sender).pc.Awaiting := by
  have hmem := mem_inFlight hm
  rw [(h.clients m.sender).flight] at hmem
  by_contra hnot
  rw [if_neg hnot] at hmem
  cases hmem

/-- So its channel exists. -/
theorem Inv.named_of_hand (h : Inv s) {m : Message}
    (hm : m ∈ s.server.hand ++ (s.channels .server).queue) :
    s.names (respName m.sender) = some (.client m.sender) := by
  have hawaiting := h.awaited hm
  refine (h.clients m.sender).named ?_
  cases hpc : (s.clients m.sender).pc with
  | getting attempt => exact trivial
  | opening | creating | testing | putting | destroying | closing | done =>
    rw [hpc] at hawaiting
    exact hawaiting.elim

end Channels

section Steps

/-- A step that leaves the names and the messages in flight alone keeps a client as it was. -/
theorem ClientInv.congr {pid : Pid} {c : Client} (h : ClientInv s pid c)
    (hnames : c.pc.Named → t.names (respName pid) = s.names (respName pid))
    (hserver : s.server ≠ .creating → t.server ≠ .creating)
    (hflight : t.inFlight pid = s.inFlight pid) : ClientInv t pid c where
  opened hc := ⟨(h.opened hc).1, hserver (h.opened hc).2⟩
  named hc := (hnames hc).trans (h.named hc)
  sender := h.sender
  flight := hflight.trans h.flight
  history := by rw [hflight]; exact h.history
  own := h.own

/-- Every step of the server keeps the messages where their senders expect them. -/
theorem Inv.runServer (h : Inv s) (hstep : s.runServer = some t) : Inv t := by
  unfold State.runServer at hstep
  split at hstep
  next hpc =>
    -- the request channel is created empty, as it was
    cases hstep
    have hqueue := h.fresh hpc
    have hnames : ∀ pid, Function.update s.names echoServiceName (some .server) (respName pid) =
        s.names (respName pid) := fun pid => Function.update_of_ne (respName_ne_service pid) _ _
    refine ⟨fun r hr => ?_, fun pid r hr => ?_, fun m r hm => (nomatch hm),
      fun r name hm => (nomatch hm), fun _ => rfl, ⟨nofun, nofun⟩,
      fun pid => (h.clients pid).congr (fun _ => hnames pid) (fun _ => nofun) ?_⟩
    · change Function.update s.names echoServiceName (some .server) echoServiceName = some r at hr
      rw [Function.update_self] at hr
      cases hr
      exact ⟨rfl, nofun⟩
    · exact h.response pid r ((hnames pid).symm.trans hr)
    · simp [State.inFlight, State.mcCreate, ServerPc.hand, hqueue, hpc]
  next hpc =>
    -- the first message goes from the request channel to the hand
    obtain ⟨⟨item, u⟩, hget, rfl⟩ := Option.map_eq_some_iff.mp hstep
    obtain ⟨rest, hqueue, rfl⟩ := mcGet_spec hget
    refine ⟨fun r hr => ⟨(h.service r hr).1, nofun⟩, h.response, fun m r hm => (nomatch hm),
      fun r name hm => (nomatch hm), fun hm => (nomatch hm), ⟨nofun, nofun⟩,
      fun pid => (h.clients pid).congr (fun _ => rfl) (fun _ => nofun) ?_⟩
    simp [State.inFlight, ServerPc.hand, hqueue, hpc]
  next msg hpc =>
    -- the channel of the sender is found
    have hname : s.names (respName msg.sender) = some (.client msg.sender) :=
      h.named_of_hand (by rw [hpc]; exact List.mem_cons_self)
    rw [hname] at hstep
    cases hstep
    refine ⟨fun r hr => ⟨(h.service r hr).1, nofun⟩, h.response, fun m r hm => ?_,
      fun r name hm => (nomatch hm), fun hm => (nomatch hm), ⟨nofun, nofun⟩,
      fun pid => (h.clients pid).congr (fun _ => rfl) (fun _ => nofun) ?_⟩
    · cases hm
      rfl
    · simp [State.inFlight, ServerPc.hand, hpc]
  next msg resp hpc =>
    -- the message goes from the hand to the channel of its sender
    obtain ⟨u, hput, rfl⟩ := Option.map_eq_some_iff.mp hstep
    obtain rfl := h.target msg resp hpc
    rw [mcPut_spec hput]
    refine ⟨fun r hr => ⟨(h.service r hr).1, nofun⟩, h.response, fun m r hm => (nomatch hm),
      fun r name hm => ?_, fun hm => (nomatch hm), ⟨nofun, nofun⟩,
      fun pid => (h.clients pid).congr (fun _ => rfl) (fun _ => nofun) ?_⟩
    · cases hm
      exact nofun
    · rcases eq_or_ne msg.sender pid with rfl | hne
      · simp [State.inFlight, ServerPc.hand, hpc]
      · simp [State.inFlight, ServerPc.hand, hpc, hne, Ne.symm hne]
  next resp name hpc =>
    -- the server unmaps the channel
    cases hstep
    refine ⟨fun r hr => ⟨(h.service r hr).1, nofun⟩, h.response, fun m r hm => (nomatch hm),
      fun r name hm => (nomatch hm), fun hm => (nomatch hm), ⟨nofun, nofun⟩,
      fun pid => (h.clients pid).congr (fun _ => rfl) (fun _ => nofun) ?_⟩
    simp [State.inFlight, ServerPc.hand, hpc]
  next hpc => exact absurd hpc h.serving.1
  next => cases hstep

/-- A step of one client, for the others. -/
theorem Inv.client (h : Inv s) (pid : Pid) (hserver : t.server = s.server)
    (hservice : t.names echoServiceName = s.names echoServiceName)
    (hnames : ∀ q, q ≠ pid → t.names (respName q) = s.names (respName q))
    (hresponse : ∀ r, t.names (respName pid) = some r → r = .client pid)
    (hfresh : s.server = .creating → (t.channels .server).queue = [])
    (hflight : ∀ q, q ≠ pid → t.inFlight q = s.inFlight q)
    (hclients : ∀ q, q ≠ pid → t.clients q = s.clients q)
    (hpid : ClientInv t pid (t.clients pid)) : Inv t := by
  refine ⟨fun r hr => ?_, fun q r hr => ?_, ?_, ?_, ?_, ?_, fun q => ?_⟩
  · rw [hserver]
    exact h.service r (hservice ▸ hr)
  · rcases eq_or_ne q pid with rfl | hne
    · exact hresponse r hr
    · exact h.response q r (hnames q hne ▸ hr)
  · rw [hserver]
    exact h.target
  · rw [hserver]
    exact h.closing
  · rw [hserver]
    exact hfresh
  · rw [hserver]
    exact h.serving
  · rcases eq_or_ne q pid with rfl | hne
    · exact hpid
    · rw [hclients q hne]
      exact (h.clients q).congr (fun _ => hnames q hne) (fun hs => hserver ▸ hs) (hflight q hne)

/-- Where a client stands after its step. -/
theorem setClient_self (s : State) (pid : Pid) (c : Client) :
    (s.setClient pid c).clients pid = c :=
  Function.update_self _ _ _

/-- A client changes nothing but its own variables. -/
theorem Inv.setClient (h : Inv s) (pid : Pid) {c : Client} (hc : ClientInv s pid c) :
    Inv (s.setClient pid c) := by
  refine h.client pid rfl rfl (fun _ _ => rfl) (h.response pid) h.fresh (fun _ _ => rfl)
    (fun q hq => Function.update_of_ne hq _ _) ?_
  rw [setClient_self]
  exact hc.congr (fun _ => rfl) id rfl

/-- A client that does not wait has nothing in flight. -/
theorem ClientInv.idle {pid : Pid} {c : Client} (h : ClientInv s pid c) (hc : ¬ c.pc.Awaiting) :
    s.inFlight pid = [] := by
  rw [h.flight, if_neg hc]

/-- A client moves on without putting or getting a message. -/
theorem ClientInv.moved {pid : Pid} {c c' : Client} (h : ClientInv s pid c)
    (hc : ¬ c.pc.Awaiting) (hc' : ¬ c'.pc.Awaiting) (hrequests : c'.requests = c.requests)
    (hresponses : c'.responses = c.responses)
    (hopened : c'.pc.Opened → c'.channel = .server ∧ s.server ≠ .creating)
    (hnamed : c'.pc.Named → s.names (respName pid) = some (.client pid) ∧ c'.msg.sender = pid) :
    ClientInv s pid c' := by
  refine ⟨hopened, fun hn => (hnamed hn).1, fun hn => (hnamed hn).2, ?_, ?_, ?_⟩
  · rw [h.idle hc, if_neg hc']
  · rw [hrequests, hresponses]
    exact h.history
  · rw [hrequests]
    exact h.own

/-- The name that a client creates is not another one's. -/
theorem respName_kept {pid q : Pid} {v : Option Process}
    (hnames : t.names = Function.update s.names (respName pid) v) (hq : q ≠ pid) :
    t.names (respName q) = s.names (respName q) := by
  rw [hnames]
  exact Function.update_of_ne (fun he => hq (respName_injective he)) _ _

/-- Nor is it the one of the service. -/
theorem serviceName_kept {pid : Pid} {v : Option Process}
    (hnames : t.names = Function.update s.names (respName pid) v) :
    t.names echoServiceName = s.names echoServiceName := by
  rw [hnames]
  exact Function.update_of_ne (respName_ne_service pid).symm _ _

/-- A client creates its channel empty, as it was. -/
theorem Inv.createResponse (h : Inv s) {pid : Pid} (hpc : (s.clients pid).pc = .creating) :
    Inv ((s.mcCreate (.client pid) (respName pid)).setClient pid { s.clients pid with
      pc := .testing 1, msg := { (s.clients pid).msg with sender := pid } }) := by
  have hc := h.clients pid
  have hidle : ¬ (s.clients pid).pc.Awaiting := by rw [hpc]; exact id
  have hempty := hc.idle hidle
  have hnames : (s.mcCreate (.client pid) (respName pid)).names (respName pid) =
      some (.client pid) := Function.update_self _ _ _
  have hflight : (s.mcCreate (.client pid) (respName pid)).inFlight pid = s.inFlight pid := by
    rw [hempty]
    obtain ⟨-, hrest⟩ := List.append_eq_nil_iff.mp hempty
    simpa [State.inFlight, State.mcCreate] using hrest
  have hcreated : ClientInv (s.mcCreate (.client pid) (respName pid)) pid (s.clients pid) :=
    hc.congr (fun hn => by rw [hpc] at hn; exact hn.elim) id hflight
  refine h.client pid rfl (serviceName_kept rfl) (fun q hq => respName_kept rfl hq)
    (fun r hr => ?_) h.fresh (fun q hq => ?_) (fun q hq => Function.update_of_ne hq _ _) ?_
  · rw [← Option.some.inj (hnames.symm.trans hr)]
  · simp [State.inFlight, State.mcCreate, State.setClient, hq]
  · rw [setClient_self]
    refine ClientInv.congr ?_ (fun _ => rfl) id rfl (s := s.mcCreate (.client pid) (respName pid))
    exact hcreated.moved hidle id rfl rfl (fun _ => hc.opened (by rw [hpc]; trivial))
      fun _ => ⟨hnames, rfl⟩

/-- A client puts its request into the request channel and waits. -/
theorem Inv.putRequest (h : Inv s) {pid : Pid} {attempt : ℕ} {u : State}
    (hpc : (s.clients pid).pc = .putting attempt)
    (hput : s.mcPut (s.clients pid).channel (s.clients pid).msg = some u) :
    Inv (u.setClient pid { s.clients pid with
      pc := .getting attempt
      requests := (s.clients pid).requests ++ [(s.clients pid).msg] }) := by
  have hc := h.clients pid
  have hidle : ¬ (s.clients pid).pc.Awaiting := by rw [hpc]; exact id
  have hempty := hc.idle hidle
  have hopened := hc.opened (by rw [hpc]; trivial)
  have hnamed := hc.named (by rw [hpc]; trivial)
  have hsender := hc.sender (by rw [hpc]; trivial)
  have hrequests : (s.clients pid).requests = (s.clients pid).responses := by
    rw [hc.history, hempty, List.append_nil]
  rw [hopened.1] at hput
  obtain rfl := mcPut_spec hput
  have hflight : ∀ q, State.inFlight { s with
      channels := Function.update s.channels .server
        ⟨(s.channels .server).queue ++ [(s.clients pid).msg],
          (s.channels .server).entered ++ [(s.clients pid).msg], (s.channels .server).left⟩ } q =
      s.inFlight q ++ if q = pid then [(s.clients pid).msg] else [] := by
    intro q
    simp only [State.inFlight, Function.update_self, ne_eq, reduceCtorEq, not_false_eq_true,
      Function.update_of_ne, List.filter_append, List.append_assoc, List.filter_singleton,
      Bool.cond_decide, hsender, eq_comm (a := q)]
  refine h.client pid rfl rfl (fun _ _ => rfl) (h.response pid)
    (fun hs => absurd hs hopened.2) (fun q hq => ?_) (fun q hq => Function.update_of_ne hq _ _) ?_
  · exact (hflight q).trans (by rw [if_neg hq, List.append_nil])
  · rw [setClient_self]
    have hmine := hflight pid
    rw [hempty, List.nil_append, if_pos rfl] at hmine
    refine ⟨fun _ => hopened, fun _ => hnamed, fun _ => hsender, hmine, ?_, ?_⟩
    · exact (congrArg (· ++ [(s.clients pid).msg]) hrequests).trans
        (congrArg ((s.clients pid).responses ++ ·) hmine.symm)
    · intro m hm
      rcases List.mem_append.mp hm with hold | hnew
      · exact hc.own m hold
      · rw [List.mem_singleton.mp hnew, hsender]

/-- A client gets its own request back. -/
theorem Inv.getResponse (h : Inv s) {pid : Pid} {attempt : ℕ} {item : Message} {u : State}
    (hpc : (s.clients pid).pc = .getting attempt) (hget : s.mcGet (.client pid) = some (item, u)) :
    Inv (u.setClient pid { s.clients pid with
      pc := .testing (attempt + 1)
      resp := item
      responses := (s.clients pid).responses ++ [item] }) := by
  have hc := h.clients pid
  have hopened := hc.opened (by rw [hpc]; trivial)
  have hnamed := hc.named (by rw [hpc]; trivial)
  have hsender := hc.sender (by rw [hpc]; trivial)
  have hwaiting : s.inFlight pid = [(s.clients pid).msg] := by
    rw [hc.flight, if_pos (by rw [hpc]; trivial)]
  obtain ⟨rest, hqueue, rfl⟩ := mcGet_spec hget
  -- the response was the only message in flight
  have hall : item :: (rest ++ (s.server.hand ++ (s.channels .server).queue).filter
      fun m => m.sender = pid) = [(s.clients pid).msg] := by
    rw [← List.cons_append, ← hqueue]
    exact hwaiting
  obtain ⟨hitem, hnone⟩ := List.cons_eq_cons.mp hall
  have hflight : State.inFlight { s with
      channels := Function.update s.channels (.client pid)
        ⟨rest, (s.channels (.client pid)).entered, (s.channels (.client pid)).left ++ [item]⟩ }
      pid = [] := by
    simpa only [State.inFlight, Function.update_self, ne_eq, reduceCtorEq, not_false_eq_true,
      Function.update_of_ne] using hnone
  refine h.client pid rfl rfl (fun _ _ => rfl) (h.response pid)
    (fun hs => absurd hs hopened.2) (fun q hq => ?_) (fun q hq => Function.update_of_ne hq _ _) ?_
  · simp [State.inFlight, State.setClient, hq]
  · rw [setClient_self]
    refine ⟨fun _ => hopened, fun _ => hnamed, fun _ => hsender, hflight, ?_, hc.own⟩
    have hrecord : (s.clients pid).requests = ((s.clients pid).responses ++ [item]) ++ [] := by
      rw [List.append_nil, hc.history, hwaiting, hitem]
    exact hrecord.trans (congrArg _ hflight.symm)

/-- Every step of a client keeps the messages where their senders expect them. -/
theorem Inv.runClient (h : Inv s) {niters : ℕ} {pid : Pid}
    (hstep : s.runClient niters pid = some t) : Inv t := by
  have hc := h.clients pid
  simp only [State.runClient] at hstep
  split at hstep
  next hpc =>
    have hidle : ¬ (s.clients pid).pc.Awaiting := by rw [hpc]; exact id
    split at hstep
    next =>
      cases hstep
      exact h.setClient pid (hc.moved hidle id rfl rfl False.elim False.elim)
    next channel hname =>
      cases hstep
      exact h.setClient pid
        (hc.moved hidle id rfl rfl (fun _ => h.service channel hname) False.elim)
  next hpc =>
    cases hstep
    exact h.createResponse hpc
  next attempt hpc =>
    have hidle : ¬ (s.clients pid).pc.Awaiting := by rw [hpc]; exact id
    have hopened := hc.opened (by rw [hpc]; trivial)
    have hnamed := hc.named (by rw [hpc]; trivial)
    have hsender := hc.sender (by rw [hpc]; trivial)
    split at hstep <;> cases hstep
    · exact h.setClient pid
        (hc.moved hidle id rfl rfl (fun _ => hopened) fun _ => ⟨hnamed, hsender⟩)
    · exact h.setClient pid
        (hc.moved hidle id rfl rfl (fun _ => hopened) fun _ => ⟨hnamed, hsender⟩)
  next attempt hpc =>
    obtain ⟨u, hput, rfl⟩ := Option.map_eq_some_iff.mp hstep
    exact h.putRequest hpc hput
  next attempt hpc =>
    obtain ⟨⟨item, u⟩, hget, rfl⟩ := Option.map_eq_some_iff.mp hstep
    exact h.getResponse hpc hget
  next hpc =>
    have hidle : ¬ (s.clients pid).pc.Awaiting := by rw [hpc]; exact id
    have hopened := hc.opened (by rw [hpc]; trivial)
    cases hstep
    exact h.setClient pid (hc.moved hidle id rfl rfl (fun _ => hopened) False.elim)
  next hpc =>
    have hidle : ¬ (s.clients pid).pc.Awaiting := by rw [hpc]; exact id
    cases hstep
    exact h.setClient pid (hc.moved hidle id rfl rfl False.elim False.elim)
  next hpc => cases hstep

end Steps

/-- Along every run the messages are where their senders expect them. -/
theorem inv_reachable {niters : Pid → ℕ} (h : (service niters).Reachable s) : Inv s := by
  refine System.Reachable.invariant (S := service niters) (I := Inv) (fun s hs => ?_)
    (fun s a t _ hI hstep => ?_) h
  · have hempty : ∀ pid, s.inFlight pid = [] := fun pid => by
      simp [State.inFlight, hs.channels_eq, hs.server_eq, ServerPc.hand]
    refine ⟨fun r hr => ?_, fun pid r hr => ?_, fun m r hm => ?_, fun r name hm => ?_, fun _ => ?_,
      ?_, fun pid => ?_⟩
    · rw [hs.names_eq] at hr
      cases hr
    · rw [hs.names_eq] at hr
      cases hr
    · rw [hs.server_eq] at hm
      cases hm
    · rw [hs.server_eq] at hm
      cases hm
    · rw [hs.channels_eq]
    · rw [hs.server_eq]
      exact ⟨nofun, nofun⟩
    · obtain ⟨hpc, hrequests, hresponses⟩ := hs.clients_eq pid
      constructor
      · rw [hpc]
        exact False.elim
      · rw [hpc]
        exact False.elim
      · rw [hpc]
        exact False.elim
      · rw [hpc, hempty]
        exact (if_neg id).symm
      · rw [hrequests, hresponses, hempty]
        rfl
      · rw [hrequests]
        exact fun m hm => nomatch hm
  · cases a with
    | server => exact hI.runServer hstep
    | client pid => exact hI.runClient hstep

/-- Every client gets its own requests back, one by one. It never has more than
one message in flight, and the server always finds the channel of the sender,
with space in it. -/
theorem echo_own_requests {niters : Pid → ℕ} (h : (service niters).Reachable s) :
    (∀ pid (i : ℕ) (m : Message), (s.clients pid).responses[i]? = some m →
      (s.clients pid).requests[i]? = some m ∧ m.sender = pid) ∧
    (∀ pid, (s.inFlight pid).length ≤ 1) ∧
    (∀ msg, s.server = .opening msg → s.names (respName msg.sender) = some (.client msg.sender)) ∧
    ∀ msg resp, s.server = .putting msg resp →
      resp = .client msg.sender ∧ (s.channels resp).queue.length < resp.capacity := by
  have hI := inv_reachable h
  refine ⟨fun pid i m hm => ?_, fun pid => ?_, fun msg hpc => ?_, fun msg resp hpc => ?_⟩
  · have hhistory := (hI.clients pid).history
    have hbound := (List.getElem?_eq_some_iff.mp hm).1
    have hrequest : (s.clients pid).requests[i]? = some m := by
      rw [hhistory, List.getElem?_append_left hbound, hm]
    exact ⟨hrequest, (hI.clients pid).own m (List.mem_of_getElem? hrequest)⟩
  · rw [(hI.clients pid).flight]
    split <;> simp
  · exact hI.named_of_hand (by rw [hpc]; exact List.mem_cons_self)
  · obtain rfl := hI.target msg resp hpc
    refine ⟨rfl, ?_⟩
    -- the message in the hand is the only one in flight
    have hmem : msg ∈ (s.server.hand ++ (s.channels .server).queue).filter
        fun m : Message => m.sender = msg.sender := by
      refine List.mem_filter.mpr ⟨?_, decide_eq_true rfl⟩
      rw [hpc]
      exact List.mem_cons_self
    have hone : (s.inFlight msg.sender).length ≤ 1 := by
      rw [(hI.clients msg.sender).flight]
      split <;> simp
    have hpos := List.length_pos_of_mem hmem
    rw [State.inFlight, List.length_append] at hone
    change _ < 1
    omega

/-- A client makes one request, and the server answers it. -/
theorem echo_own_requests_one_client : ∃ s : State, (service fun _ => 1).Reachable s ∧
    (s.clients 7).responses.length = 1 ∧
    ∀ (i : ℕ) (m : Message), (s.clients 7).responses[i]? = some m →
      (s.clients 7).requests[i]? = some m ∧ m.sender = 7 := by
  have hstart : (service fun _ => 1).Reachable ⟨fun _ => none, fun _ => ⟨[], [], []⟩, .creating,
      fun _ => ⟨.opening, .server, ⟨0, []⟩, ⟨0, []⟩, [], []⟩⟩ :=
    .start ⟨fun _ => rfl, fun _ => rfl, rfl, fun _ => ⟨rfl, rfl, rfl⟩⟩
  obtain ⟨s, hs, hlength⟩ := hstart.exists_of_any
    [.server, .client 7, .client 7, .client 7, .client 7, .server, .server, .server, .server,
      .client 7, .client 7, .client 7]
    (p := fun s => (s.clients 7).responses.length = 1) (by decide +kernel)
  exact ⟨s, hs, of_decide_eq_true hlength, (echo_own_requests hs).1 7⟩

end SistemasOperativos.EchoChannels
