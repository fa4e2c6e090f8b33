import SistemasOperativos.EchoChannelsAgreement
import SistemasOperativos.EchoStatements
import SistemasOperativos.MutexChannelRefinement

/-!
# The statements of the echo service refine its calls

A call takes effect when it copies its element. Read that way, the interleaved
statements of the service are a run of the service whose calls are single
steps, and what is known of the messages there holds between the statements.
-/

namespace SistemasOperativos.EchoStatements

open TransitionRuns MachineInt MutexChannel
open ByteMemory (Byte)
open EchoChannels (Pid Process Message respName echoServiceName)

section Records

theorem length_recordBytes (m : Message) : (recordBytes m).length = 4 + m.msg.length := by
  rw [recordBytes, List.length_append]
  rfl

/-- A process number is read back. -/
theorem readInt_recordBytes (m : Message) : readInt (recordBytes m) = m.sender.val := by
  have hbound := m.sender.isLt
  have hsum : ((recordBytes m).take 4).foldr (fun b n => b.toNat + 256 * n) 0 = m.sender.val := by
    simp only [recordBytes, intBytes, List.cons_append, List.take_succ_cons, List.nil_append,
      List.take_zero, List.foldr_cons, List.foldr_nil, BitVec.toNat_ofNat]
    omega
  rw [readInt, hsum]
  have hmax : (m.sender.val : ℤ) ≤ intMax := by
    simp only [intMax]
    omega
  exact int32_of_nonneg (Int.natCast_nonneg _) hmax

/-- The server opens the channel of the sender. -/
theorem senderName_recordBytes (m : Message) : senderName (recordBytes m) = respName m.sender := by
  rw [senderName, readInt_recordBytes]
  rfl

end Records

/-- The sizes of the channel of a process. -/
def shape (p : Process) : Shape where
  elemSize := sizeofMsg
  capacity := p.capacity
  elemSize_pos := by decide
  capacity_pos := by
    cases p with
    | server => decide
    | client => exact le_refl (1 : ℤ)
  fits := by
    cases p with
    | server => decide
    | client => exact (by decide : sizeofMsg * 1 ≤ intMax)

/-- A call copied its element already. -/
def past : Pc → Bool
  | .idle | .locking _ | .checking _ | .waiting _ | .copying _ => false
  | .advancing _ | .wrapping _ | .counting _ | .unlocking _ | .signaling _ => true

@[simp] theorem past_copying (c : Call) : past (.copying c) = false := rfl

@[simp] theorem past_signaling (c : Call) : past (.signaling c) = true := rfl

/-- A process is not in the middle of a call, the signal apart. -/
def Quiet : Pc → Prop
  | .idle | .signaling _ => True
  | _ => False

section Calls

variable {k k' : MutexChannel.State Process} {p : Process} {c : Call} {m : Move}

/-- What one step of a call does to its channel: it returns, or copies, or
goes on without a copy. -/
inductive CallStep (k : MutexChannel.State Process) (p : Process) (c : Call) :
    Move → MutexChannel.State Process → Prop
  | returned (w : Option Process) (n : ConditionMonitor.Monitor Process Cond) :
    k.pc p = .signaling c → CallStep k p c (.signal w) ({ k with monitor := n }.goto p .idle)
  | copied : k.pc p = .copying c → CallStep k p c .step ((k.transfer p c).goto p (.advancing c))
  | moved (m : Move) (q : Pc) (k' : MutexChannel.State Process) :
    (∀ w, m ≠ .signal w) → (∀ c, k.pc p ≠ .signaling c) → q.call? = some c →
      past q = past (k.pc p) → k'.pc = Function.update k.pc p q → k'.puts = k.puts →
      k'.gets = k.gets → k'.itemPtr = k.itemPtr → CallStep k p c m k'

/-- Every step of a call does one of these. -/
theorem next_callStep (hnext : k.next (p, m.action k p c) = some k')
    (hcall : ∀ d, (k.pc p).call? = some d → d = c) : CallStep k p c m k' := by
  cases m with
  | step =>
    by_cases hidle : k.pc p = .idle
    · have hstart : (if k.pc p = .idle ∧ c.WellFormed k.rb then some (k.goto p (.locking c))
          else none) = some k' := by
        rw [Move.action, if_pos hidle] at hnext
        exact hnext
      obtain ⟨-, hk'⟩ := Option.ite_none_right_eq_some.mp hstart
      obtain rfl := Option.some.inj hk'
      exact .moved _ (.locking c) _ (fun _ => Move.noConfusion)
        (by rw [hidle]; exact fun _ => MutexChannel.Pc.noConfusion) rfl (by rw [hidle]; rfl)
        rfl rfl rfl rfl
    · have hrun : k.run p = some k' := by
        rw [Move.action, if_neg hidle] at hnext
        exact hnext
      have hmoved : ∀ q, k'.pc = Function.update k.pc p q → (∀ c, k.pc p ≠ .signaling c) →
          q.call? = (k.pc p).call? → (k.pc p).call? = some c → past q = past (k.pc p) →
          k'.puts = k.puts → k'.gets = k.gets → k'.itemPtr = k.itemPtr →
          CallStep k p c .step k' := fun q hpc hs hq hc hpast hputs hgets hitem =>
        .moved _ q _ (fun _ => Move.noConfusion) hs (hq.trans hc) hpast hpc hputs hgets hitem
      have hexecuted := run_executed hrun
      generalize hpc : k.pc p = old at *
      cases hexecuted with
      | called d => exact absurd rfl hidle
      | locked d | slept d | passed d | relocked d | advanced d | wrapped d | counted d
      | unlocked d =>
        exact hmoved _ rfl (fun _ => MutexChannel.Pc.noConfusion) rfl (by rw [← hcall d rfl]; rfl) rfl rfl rfl rfl
      | woken d =>
        exact hmoved (.waiting d) (by rw [← hpc, Function.update_eq_self])
          (fun _ => MutexChannel.Pc.noConfusion) rfl
          (by rw [← hcall d rfl]; rfl) rfl rfl rfl rfl
      | copied d =>
        obtain rfl := hcall d rfl
        exact .copied hpc
      | signaled d =>
        rw [MutexChannel.State.run, hpc] at hrun
        cases hrun
  | signal w =>
    simp only [Move.action, MutexChannel.State.next] at hnext
    split at hnext
    next d hpc =>
      obtain ⟨n, -, rfl⟩ := Option.map_eq_some_iff.mp hnext
      obtain rfl := hcall d (by rw [hpc]; rfl)
      exact .returned w n hpc
    next => cases hnext
  | wake =>
    simp only [Move.action, MutexChannel.State.next] at hnext
    split at hnext
    next d hpc =>
      obtain ⟨n, -, rfl⟩ := Option.map_eq_some_iff.mp hnext
      obtain rfl := hcall d (by rw [hpc]; rfl)
      exact .moved _ (.waiting d) _ (fun _ => Move.noConfusion)
        (by rw [hpc]; exact fun _ => MutexChannel.Pc.noConfusion) rfl (by rw [hpc])
        (by rw [← hpc, Function.update_eq_self]) rfl rfl rfl
    next => cases hnext

end Calls

/-- The process copied the element of its call. -/
def State.past (s : State) (p : Process) : Bool :=
  match s.standsAt p with
  | some (ch, _) => EchoStatements.past ((s.channels ch).pc p)
  | none => false

/-- Where a client stands when its call takes effect at the copy. -/
def ClientAt.view (past : Bool) : ClientAt → EchoChannels.ClientPc
  | .opening => .opening
  | .creating => .creating
  | .testing attempt => .testing attempt
  | .putting attempt => if past then .getting attempt else .putting attempt
  | .getting attempt => if past then .testing (attempt + 1) else .getting attempt
  | .destroying _ => .destroying
  | .closing _ => .closing
  | .done => .done

/-- Where the server stands when its call takes effect at the copy. -/
def ServerView (s : State) (pc : EchoChannels.ServerPc) : Prop :=
  match s.server with
  | .creating => pc = .creating
  | .getting =>
    if s.past .server then
      ∃ m, (s.channels .server).itemPtr .server = recordBytes m ∧ pc = .opening m
    else pc = .getting
  | .opening msg => ∃ m, msg = recordBytes m ∧ pc = .opening m
  | .putting msg resp =>
    ∃ m, msg = recordBytes m ∧
      pc = if s.past .server then .closing resp (respName m.sender) else .putting m resp
  | .closing resp d => d = .testing ∧ ∃ name, pc = .closing resp name
  | .destroying _ => pc = .destroying
  | .done => pc = .done

/-- The variables of a client, above and below. -/
structure ClientView (s : State) (pid : Pid) (c : EchoChannels.Client) : Prop where
  pc_eq : c.pc = (s.clients pid).pc.view (s.past (.client pid))
  channel_eq : c.channel = (s.clients pid).channel
  msg_eq : c.msg = (s.clients pid).msg
  closing : ∀ d, (s.clients pid).pc = .closing d → d = .testing

/-- The client destroys its channel, or did. -/
def ClientAt.Leaving : ClientAt → Prop
  | .destroying _ | .closing _ | .done => True
  | _ => False

/-- The client created its channel. -/
def ClientAt.Started : ClientAt → Prop
  | .opening | .creating => False
  | _ => True

/-- A channel of bytes and the queue of messages that it holds. -/
structure Holds (owner : Process) (k : MutexChannel.State Process)
    (f : BoundedFifo.Fifo Message) : Prop where
  reachable : (channel Process (shape owner).elemSize (shape owner).capacity).Reachable k
  /-- What was put and not yet got is the queue. -/
  queued : k.puts.map Prod.snd = k.gets.map Prod.snd ++ f.queue.map recordBytes

/-- The statements and the calls that they refine. -/
structure Follows (s : State) (a : EchoChannels.State) : Prop where
  names : a.names = s.names
  holds : ∀ ch, Holds ch (s.channels ch) (a.channels ch)
  /-- A process is in a channel only for the call that it executes. -/
  seated : ∀ ch p c, ((s.channels ch).pc p).call? = some c → s.standsAt p = some (ch, c)
  server : ServerView s a.server
  clients : ∀ pid, ClientView s pid (a.clients pid)
  /-- While a client does not wait for a response, the server does nothing in its
  channel, or only has to signal. -/
  quiet : ∀ pid, ¬ (a.clients pid).pc.Awaiting → Quiet ((s.channels (.client pid)).pc .server)
  /-- The server puts into channels that were created. -/
  served : ∀ msg pid, s.server = .putting msg (.client pid) → (s.clients pid).pc.Started
  request : s.destroyed .server = []
  response : ∀ pid, s.destroyed (.client pid) ≠ [] → (s.clients pid).pc.Leaving

variable {s t : State} {a a' : EchoChannels.State}

section Views

/-- A process outside its call's channel is idle. -/
theorem Follows.idle (h : Follows s a) {ch : Process} {p : Process}
    (hout : ∀ c, s.standsAt p ≠ some (ch, c)) : (s.channels ch).pc p = .idle := by
  cases hcall : ((s.channels ch).pc p).call? with
  | some c => exact absurd (h.seated ch p c hcall) (hout c)
  | none =>
    cases hpc : (s.channels ch).pc p with
    | idle => rfl
    | locking c | checking c | waiting c | copying c | advancing c | wrapping c | counting c
    | unlocking c | signaling c =>
      rw [hpc] at hcall
      cases hcall

/-- A process outside the calls is idle in every channel. -/
theorem Follows.out_idle (h : Follows s a) {p : Process} (hout : s.standsAt p = none)
    (ch : Process) : (s.channels ch).pc p = .idle :=
  h.idle fun _ hc => nomatch hout.symm.trans hc

/-- Only the server's own place and its last message count. -/
theorem ServerView.congr {pc : EchoChannels.ServerPc} (h : ServerView s pc)
    (hserver : t.server = s.server) (hpast : t.past .server = s.past .server)
    (hitem : (t.channels .server).itemPtr .server = (s.channels .server).itemPtr .server) :
    ServerView t pc := by
  unfold ServerView at h ⊢
  rw [hserver, hpast, hitem]
  exact h

/-- Only the client's own place and variables count. -/
theorem ClientView.congr {pid : Pid} {c : EchoChannels.Client} (h : ClientView s pid c)
    (hclients : t.clients pid = s.clients pid)
    (hpast : t.past (.client pid) = s.past (.client pid)) : ClientView t pid c := by
  refine ⟨?_, ?_, ?_, ?_⟩
  · rw [hclients, hpast]
    exact h.pc_eq
  · rw [hclients]
    exact h.channel_eq
  · rw [hclients]
    exact h.msg_eq
  · rw [hclients]
    exact h.closing

/-- A process is past its copy as long as it stands there. -/
theorem past_congr {p : Process} (hstands : t.standsAt p = s.standsAt p)
    (hpc : ∀ ch c, s.standsAt p = some (ch, c) →
      EchoStatements.past ((t.channels ch).pc p) = EchoStatements.past ((s.channels ch).pc p)) :
    t.past p = s.past p := by
  unfold State.past
  rw [hstands]
  cases hs : s.standsAt p with
  | none => rfl
  | some x => exact hpc x.1 x.2 hs

/-- Where a client stands only depends on its variables. -/
theorem standsAt_client {pid : Pid} (hclients : t.clients pid = s.clients pid) :
    t.standsAt (.client pid) = s.standsAt (.client pid) := by
  simp only [State.standsAt, hclients]

theorem standsAt_server (hserver : t.server = s.server) :
    t.standsAt .server = s.standsAt .server := by
  simp only [State.standsAt, hserver]

end Views

section Frames

/-- A step of the server, for the clients. -/
theorem Follows.server_step (h : Follows s a) (hclients : t.clients = s.clients)
    (haclients : a'.clients = a.clients) (hnames : a'.names = t.names)
    (hholds : ∀ ch, Holds ch (t.channels ch) (a'.channels ch))
    (hothers : ∀ ch r, r ≠ .server → (t.channels ch).pc r = (s.channels ch).pc r)
    (hseated : ∀ ch c, ((t.channels ch).pc .server).call? = some c →
      t.standsAt .server = some (ch, c))
    (hview : ServerView t a'.server)
    (hquiet : ∀ pid, ¬ (a.clients pid).pc.Awaiting → Quiet ((t.channels (.client pid)).pc .server))
    (hserved : ∀ msg pid, t.server = .putting msg (.client pid) → (s.clients pid).pc.Started)
    (hrequest : t.destroyed .server = [])
    (hresponse : ∀ pid, t.destroyed (.client pid) = s.destroyed (.client pid)) : Follows t a' := by
  have hstands : ∀ pid, t.standsAt (.client pid) = s.standsAt (.client pid) :=
    fun pid => standsAt_client (congrFun hclients pid)
  refine ⟨hnames, hholds, fun ch p c hc => ?_, hview, fun pid => ?_, fun pid hpid => ?_,
    fun msg pid hmsg => ?_, hrequest, fun pid hpid => ?_⟩
  · cases p with
    | server => exact hseated ch c hc
    | client pid =>
      rw [hothers ch (.client pid) nofun] at hc
      exact (hstands pid).trans (h.seated ch _ c hc)
  · rw [haclients]
    refine (h.clients pid).congr (congrFun hclients pid) (past_congr (hstands pid) fun ch c _ => ?_)
    rw [hothers ch (.client pid) nofun]
  · rw [haclients] at hpid
    exact hquiet pid hpid
  · rw [hclients]
    exact hserved msg pid hmsg
  · rw [hresponse] at hpid
    rw [hclients]
    exact h.response pid hpid

/-- A step of one client, for the server and the other clients. -/
theorem Follows.client_step (h : Follows s a) (pid : Pid) (hserver : t.server = s.server)
    (haserver : a'.server = a.server) (hclients : ∀ q, q ≠ pid → t.clients q = s.clients q)
    (haclients : ∀ q, q ≠ pid → a'.clients q = a.clients q) (hnames : a'.names = t.names)
    (hholds : ∀ ch, Holds ch (t.channels ch) (a'.channels ch))
    (hothers : ∀ ch r, r ≠ .client pid → (t.channels ch).pc r = (s.channels ch).pc r)
    (hitem : (t.channels .server).itemPtr .server = (s.channels .server).itemPtr .server)
    (hseated : ∀ ch c, ((t.channels ch).pc (.client pid)).call? = some c →
      t.standsAt (.client pid) = some (ch, c))
    (hview : ClientView t pid (a'.clients pid))
    (hquiet : ¬ (a'.clients pid).pc.Awaiting → Quiet ((t.channels (.client pid)).pc .server))
    (hserved : (s.clients pid).pc.Started → (t.clients pid).pc.Started)
    (hrequest : t.destroyed .server = [])
    (hresponse : ∀ q, q ≠ pid → t.destroyed (.client q) = s.destroyed (.client q))
    (hleaving : t.destroyed (.client pid) ≠ [] → (t.clients pid).pc.Leaving) : Follows t a' := by
  have hstands : ∀ q, q ≠ pid → t.standsAt (.client q) = s.standsAt (.client q) :=
    fun q hq => standsAt_client (hclients q hq)
  have hne : ∀ q, q ≠ pid → Process.client q ≠ .client pid :=
    fun q hq he => hq (Process.client.inj he)
  refine ⟨hnames, hholds, fun ch p c hc => ?_, ?_, fun q => ?_, fun q hq => ?_, fun msg q hmsg => ?_,
    hrequest, fun q hq => ?_⟩
  · cases p with
    | server =>
      rw [hothers ch .server nofun] at hc
      exact (standsAt_server hserver).trans (h.seated ch _ c hc)
    | client q =>
      rcases eq_or_ne q pid with rfl | hqp
      · exact hseated ch c hc
      · rw [hothers ch _ (hne q hqp)] at hc
        exact (hstands q hqp).trans (h.seated ch _ c hc)
  · rw [haserver]
    refine h.server.congr hserver (past_congr (standsAt_server hserver) fun ch c _ => ?_) hitem
    rw [hothers ch .server nofun]
  · rcases eq_or_ne q pid with rfl | hqp
    · exact hview
    · rw [haclients q hqp]
      refine (h.clients q).congr (hclients q hqp) (past_congr (hstands q hqp) fun ch c _ => ?_)
      rw [hothers ch _ (hne q hqp)]
  · rcases eq_or_ne q pid with rfl | hqp
    · exact hquiet hq
    · rw [haclients q hqp] at hq
      rw [hothers _ .server nofun]
      exact h.quiet q hq
  · rw [hserver] at hmsg
    rcases eq_or_ne q pid with rfl | hqp
    · exact hserved (h.served msg q hmsg)
    · rw [hclients q hqp]
      exact h.served msg q hmsg
  · rcases eq_or_ne q pid with rfl | hqp
    · exact hleaving hq
    · rw [hresponse q hqp] at hq
      rw [hclients q hqp]
      exact h.response q hq

end Frames

section Calls

variable {p ch : Process} {c : Call} {k : MutexChannel.State Process}

theorem past_eq (hstand : s.standsAt p = some (ch, c)) :
    s.past p = EchoStatements.past ((s.channels ch).pc p) := by
  rw [State.past, hstand]

/-- The server is in the channel of a client for a put. -/
theorem putting_of_standsAt {pid : Pid} (hstand : s.standsAt .server = some (.client pid, c)) :
    ∃ msg, s.server = .putting msg (.client pid) ∧ c = .put msg := by
  unfold State.standsAt at hstand
  dsimp only at hstand
  split at hstand
  next => cases hstand
  next msg resp hpc =>
    cases hstand
    exact ⟨msg, hpc, rfl⟩
  next => cases hstand

/-- A client that calls opened the request channel. It puts into that channel or gets from
its own. -/
theorem Follows.calling (h : Follows s a) (hI : EchoChannels.Inv a) {pid : Pid}
    (hstand : s.standsAt (.client pid) = some (ch, c)) :
    a.server ≠ .creating ∧
      ((ch = .server ∧ ∃ item, c = .put item) ∨ (ch = .client pid ∧ c = .get)) := by
  have hview := h.clients pid
  have hopened (hpc : (a.clients pid).pc.Opened) := (hI.clients pid).opened hpc
  rw [hview.pc_eq] at hopened
  unfold State.standsAt at hstand
  dsimp only at hstand
  split at hstand
  next attempt hpc =>
    obtain ⟨hchannel, hserver⟩ := hopened (by rw [hpc]; cases s.past (.client pid) <;> trivial)
    rw [hview.channel_eq] at hchannel
    rw [hchannel] at hstand
    cases hstand
    exact ⟨hserver, .inl ⟨rfl, _, rfl⟩⟩
  next attempt hpc =>
    obtain ⟨-, hserver⟩ := hopened (by rw [hpc]; cases s.past (.client pid) <;> trivial)
    cases hstand
    exact ⟨hserver, .inr ⟨rfl, rfl⟩⟩
  next => cases hstand

/-- The server destroys no channel that it closes. -/
theorem Follows.server_closes (h : Follows s a) (hI : EchoChannels.Inv a) {resp : Process}
    {d : Teardown} (hserver : s.server = .closing resp d) :
    (∃ name, a.server = .closing resp name) ∧ s.mcDestroy .server resp d = (s, none) := by
  have hview := h.server
  rw [ServerView, hserver] at hview
  obtain ⟨rfl, name, hpc⟩ := hview
  exact ⟨⟨name, hpc⟩, by rw [State.mcDestroy, if_neg (hI.closing resp name hpc).symm]⟩

/-- Nor does a client destroy the request channel. -/
theorem Follows.client_closes (h : Follows s a) (hI : EchoChannels.Inv a) {pid : Pid}
    {d : Teardown} (hpc : (s.clients pid).pc = .closing d) :
    s.mcDestroy (.client pid) (s.clients pid).channel d = (s, none) := by
  have hview := h.clients pid
  obtain rfl := hview.closing d hpc
  have hopened := (hI.clients pid).opened (by rw [hview.pc_eq, hpc]; trivial)
  rw [hview.channel_eq.symm.trans hopened.1, State.mcDestroy, if_neg Process.noConfusion]

/-- A client waits for the response that the server did not copy yet. -/
theorem Follows.awaited (h : Follows s a) (hI : EchoChannels.Inv a) {msg : List Byte} {pid : Pid}
    (hserver : s.server = .putting msg (.client pid)) (hpast : s.past .server = false) :
    (a.clients pid).pc.Awaiting := by
  have hview := h.server
  rw [ServerView, hserver] at hview
  obtain ⟨m, -, hpc⟩ := hview
  rw [hpast, if_neg Bool.false_ne_true] at hpc
  obtain rfl := Process.client.inj (hI.target m _ hpc)
  exact hI.awaited (by rw [hpc]; exact List.mem_cons_self)

/-- So in the channel of a client that does not wait it has only to signal, if it
is there at all. -/
theorem Follows.signaling (h : Follows s a) (hI : EchoChannels.Inv a) {pid : Pid}
    (hpid : ¬ (a.clients pid).pc.Awaiting) (hstand : s.standsAt .server = some (.client pid, c)) :
    (s.channels (.client pid)).pc .server = .signaling c := by
  obtain ⟨msg, hserver, -⟩ := putting_of_standsAt hstand
  have hpast : EchoStatements.past ((s.channels (.client pid)).pc .server) = true := by
    rw [← past_eq hstand]
    by_contra hnot
    exact hpid (h.awaited hI hserver (Bool.eq_false_of_not_eq_true hnot))
  have hquiet := h.quiet pid hpid
  cases hpc : (s.channels (.client pid)).pc .server with
  | signaling d =>
    have hcall := h.seated (.client pid) .server d (by rw [hpc]; rfl)
    rw [hstand] at hcall
    cases hcall
    rfl
  | idle =>
    rw [hpc] at hpast
    cases hpast
  | locking | checking | waiting | copying | advancing | wrapping | counting | unlocking =>
    rw [hpc] at hquiet
    exact hquiet.elim

/-- One channel changes. -/
theorem Follows.holds_update (h : Follows s a) {f : BoundedFifo.Fifo Message}
    (hk : Holds ch k f) (r : Process) :
    Holds r (Function.update s.channels ch k r) (Function.update a.channels ch f r) := by
  rcases eq_or_ne r ch with rfl | hr
  · rw [Function.update_self, Function.update_self]
    exact hk
  · rw [Function.update_of_ne hr, Function.update_of_ne hr]
    exact h.holds r

/-- One process moves in one channel. -/
theorem update_pc_of_ne {q : Pc} (hpc : k.pc = Function.update (s.channels ch).pc p q)
    {r x : Process} (hne : r ≠ ch ∨ x ≠ p) :
    (Function.update s.channels ch k r).pc x = (s.channels r).pc x := by
  rcases eq_or_ne r ch with rfl | hr
  · rw [Function.update_self, hpc, Function.update_of_ne (hne.resolve_left fun he => he rfl)]
  · rw [Function.update_of_ne hr]

/-- A statement of a call before or after its copy leaves the queues as they are. -/
theorem Follows.moved (h : Follows s a) (hI : EchoChannels.Inv a) {q : Pc}
    (hstand : s.standsAt p = some (ch, c)) (hk : Holds ch k (a.channels ch))
    (hsignaling : ∀ c, (s.channels ch).pc p ≠ .signaling c) (hq : q.call? = some c)
    (hpast : past q = past ((s.channels ch).pc p))
    (hpc : k.pc = Function.update (s.channels ch).pc p q)
    (hitem : k.itemPtr = (s.channels ch).itemPtr) : Follows (s.setChannel ch k) a := by
  have hself : k.pc p = q := by rw [hpc, Function.update_self]
  have hholds : ∀ r, Holds r ((s.setChannel ch k).channels r) (a.channels r) := fun r => by
    have hr := h.holds_update hk r
    rwa [Function.update_eq_self] at hr
  have hsame : ∀ r, (s.setChannel ch k).past r = s.past r := fun r => by
    refine past_congr rfl fun ch' c' hstand' => ?_
    by_cases hne : ch' ≠ ch ∨ r ≠ p
    · exact congrArg past (update_pc_of_ne hpc hne)
    · obtain ⟨rfl, rfl⟩ := not_or.mp hne |>.imp not_not.mp not_not.mp
      show past ((Function.update s.channels ch' k ch').pc r) = _
      rw [Function.update_self, hself, hpast]
  refine ⟨h.names, hholds, fun ch' r d hd => ?_, ?_, fun pid => ?_, fun pid hpid => ?_, h.served,
    h.request, h.response⟩
  · show s.standsAt r = some (ch', d)
    by_cases hne : ch' ≠ ch ∨ r ≠ p
    · exact h.seated ch' r d (by rw [← update_pc_of_ne hpc hne]; exact hd)
    · obtain ⟨rfl, rfl⟩ := not_or.mp hne |>.imp not_not.mp not_not.mp
      change ((Function.update s.channels ch' k ch').pc r).call? = some d at hd
      rw [Function.update_self, hself, hq] at hd
      rw [hstand, Option.some.inj hd]
  · refine h.server.congr rfl (hsame _) ?_
    show (Function.update s.channels ch k .server).itemPtr .server = _
    rcases eq_or_ne Process.server ch with rfl | hne
    · rw [Function.update_self, hitem]
    · rw [Function.update_of_ne hne]
  · exact (h.clients pid).congr rfl (hsame _)
  · show Quiet ((Function.update s.channels ch k (.client pid)).pc .server)
    by_cases hne : Process.client pid ≠ ch ∨ Process.server ≠ p
    · rw [update_pc_of_ne hpc hne]
      exact h.quiet pid hpid
    · obtain ⟨rfl, rfl⟩ := not_or.mp hne |>.imp not_not.mp not_not.mp
      exact absurd (h.signaling hI hpid hstand) (hsignaling c)

end Calls

section Returns

variable {p ch : Process} {c : Call} {m : Move} {ret : State → State}
  {k : MutexChannel.State Process}

/-- A step of a call is one in its channel. -/
theorem Follows.callStep (h : Follows s a) (hstand : s.standsAt p = some (ch, c))
    (hcall : s.call p ch c m ret = some t) :
    ∃ k, (channel Process (shape ch).elemSize (shape ch).capacity).Reachable k ∧
      CallStep (s.channels ch) p c m k ∧ t = m.finish ret (s.setChannel ch k) := by
  obtain ⟨k, hnext, rfl⟩ := Option.map_eq_some_iff.mp hcall
  refine ⟨k, (h.holds ch).reachable.next hnext, next_callStep hnext fun d hd => ?_, rfl⟩
  have hd := h.seated ch p d hd
  rw [hstand] at hd
  cases hd
  rfl

/-- A step of a call goes on, or it returns, or it copies. -/
theorem Follows.call (h : Follows s a) (hI : EchoChannels.Inv a)
    (hstand : s.standsAt p = some (ch, c)) (hcall : s.call p ch c m ret = some t) :
    Follows t a ∨
    (∃ k, (s.channels ch).pc p = .signaling c ∧ Holds ch k (a.channels ch) ∧
      k.pc = Function.update (s.channels ch).pc p .idle ∧
      k.itemPtr = (s.channels ch).itemPtr ∧ t = ret (s.setChannel ch k)) ∨
    ∃ k, (s.channels ch).pc p = .copying c ∧
      (channel Process (shape ch).elemSize (shape ch).capacity).Reachable k ∧
      k = ((s.channels ch).transfer p c).goto p (.advancing c) ∧
      k.pc = Function.update (s.channels ch).pc p (.advancing c) ∧ t = s.setChannel ch k := by
  obtain ⟨k, hreach, hstep, rfl⟩ := h.callStep hstand hcall
  cases hstep with
  | returned w n hpc =>
    exact .inr (.inl ⟨_, hpc, ⟨hreach, (h.holds ch).queued⟩, rfl, rfl, rfl⟩)
  | copied hpc => exact .inr (.inr ⟨_, hpc, hreach, rfl, by cases c <;> rfl, rfl⟩)
  | moved _ q _ hm hsignaling hq hpast hpc hputs hgets hitem =>
    have hholds : Holds ch k (a.channels ch) := ⟨hreach, by
      rw [hputs, hgets]
      exact (h.holds ch).queued⟩
    have hmoved := h.moved hI hstand hholds hsignaling hq hpast hpc hitem
    cases m with
    | signal w => exact absurd rfl (hm w)
    | step | wake => exact .inl hmoved

/-- A process that returned is in no channel. -/
theorem Follows.returned_idle (h : Follows s a) (hstand : s.standsAt p = some (ch, c))
    (hpc : k.pc = Function.update (s.channels ch).pc p .idle) (r : Process) :
    (Function.update s.channels ch k r).pc p = .idle := by
  rcases eq_or_ne r ch with rfl | hr
  · rw [Function.update_self, hpc, Function.update_self]
  · rw [Function.update_of_ne hr]
    refine h.idle fun d hd => hr ?_
    rw [hstand] at hd
    cases hd
    rfl

/-- The server returns from a call. -/
theorem Follows.server_returned (h : Follows s a) (hstand : s.standsAt .server = some (ch, c))
    (hk : Holds ch k (a.channels ch))
    (hpc : k.pc = Function.update (s.channels ch).pc .server .idle) {x : ServerAt}
    (hx : ∀ msg r, x ≠ .putting msg r)
    (hview : ServerView { s.setChannel ch k with server := x } a.server) :
    Follows { s.setChannel ch k with server := x } a := by
  have hidle := h.returned_idle hstand hpc
  refine h.server_step rfl rfl h.names (fun r => ?_) (fun r q hq => update_pc_of_ne hpc (.inr hq))
    (fun r d hd => ?_) hview (fun pid _ => ?_) (fun msg pid hmsg => absurd hmsg (hx _ _)) h.request
    fun _ => rfl
  · have hr := h.holds_update hk r
    rwa [Function.update_eq_self] at hr
  · change ((Function.update s.channels ch k r).pc .server).call? = some d at hd
    rw [hidle] at hd
    cases hd
  · show Quiet ((Function.update s.channels ch k (.client pid)).pc .server)
    rw [hidle]
    trivial

/-- A client returns from a call. -/
theorem Follows.client_returned (h : Follows s a) {pid : Pid}
    (hstand : s.standsAt (.client pid) = some (ch, c)) (hk : Holds ch k (a.channels ch))
    (hpc : k.pc = Function.update (s.channels ch).pc (.client pid) .idle)
    (hitem : k.itemPtr = (s.channels ch).itemPtr) {x : ClientAt} (hx : x.Started)
    (hleaving : ¬ (s.clients pid).pc.Leaving) (hclosing : ∀ d, x ≠ .closing d)
    (hview : x.view false = (s.clients pid).pc.view true)
    (hpast : s.past (.client pid) = true) :
    Follows ((s.setChannel ch k).setClient pid { s.clients pid with pc := x }) a := by
  have hidle := h.returned_idle hstand hpc
  have hself : ((s.setChannel ch k).setClient pid { s.clients pid with pc := x }).clients pid =
      { s.clients pid with pc := x } := Function.update_self _ _ _
  have hsame : ((s.setChannel ch k).setClient pid { s.clients pid with pc := x }).past
      (.client pid) = false := by
    unfold State.past
    split
    next r d hd => exact congrArg past (hidle r)
    next => rfl
  have hold := h.clients pid
  refine h.client_step pid rfl rfl (fun q hq => Function.update_of_ne hq _ _) (fun _ _ => rfl)
    h.names (fun r => ?_) (fun r q hq => update_pc_of_ne hpc (.inr hq)) ?_ (fun r d hd => ?_) ?_
    (fun hpid => ?_) (fun _ => ?_) h.request (fun _ _ => rfl)
    (fun hd => absurd (h.response pid hd) hleaving)
  · have hr := h.holds_update hk r
    rwa [Function.update_eq_self] at hr
  · show (Function.update s.channels ch k .server).itemPtr .server = _
    rcases eq_or_ne Process.server ch with rfl | hne
    · rw [Function.update_self, hitem]
    · rw [Function.update_of_ne hne]
  · change ((Function.update s.channels ch k r).pc (.client pid)).call? = some d at hd
    rw [hidle] at hd
    cases hd
  · refine ⟨?_, ?_, ?_, fun d hd => ?_⟩
    · rw [hself, hsame, hold.pc_eq, hpast, hview]
    · rw [hself]
      exact hold.channel_eq
    · rw [hself]
      exact hold.msg_eq
    · rw [hself] at hd
      exact absurd hd (hclosing d)
  · show Quiet ((Function.update s.channels ch k (.client pid)).pc .server)
    rw [update_pc_of_ne hpc (.inr (nofun : Process.server ≠ .client pid))]
    exact h.quiet pid hpid
  · rw [hself]
    exact hx

end Returns

section Copies

variable {p ch : Process} {k k' : MutexChannel.State Process} {f : BoundedFifo.Fifo Message}
  {m : Message}

/-- The copy of a put adds a message to the queue, which has space. -/
theorem Holds.copy_put (h : Holds ch k f) (hpc : k.pc p = .copying (.put (recordBytes m)))
    (hreach : (channel Process (shape ch).elemSize (shape ch).capacity).Reachable k')
    (hk' : k' = (k.transfer p (.put (recordBytes m))).goto p (.advancing (.put (recordBytes m)))) :
    f.queue.length < ch.capacity ∧ Holds ch k' ⟨f.queue ++ [m], f.entered ++ [m], f.left⟩ := by
  have hroom : ((f.queue.map recordBytes).length : ℤ) < ch.capacity :=
    copying_put_room h.reachable hpc h.queued
  rw [List.length_map] at hroom
  refine ⟨by omega, hreach, ?_⟩
  rw [hk']
  show (k.puts ++ [(p, recordBytes m)]).map Prod.snd =
    k.gets.map Prod.snd ++ (f.queue ++ [m]).map recordBytes
  rw [List.map_append, List.map_append, h.queued, List.append_assoc]
  rfl

/-- The copy of a get takes the oldest message of the queue. -/
theorem Holds.copy_get (h : Holds ch k f) (hpc : k.pc p = .copying .get)
    (hreach : (channel Process (shape ch).elemSize (shape ch).capacity).Reachable k')
    (hk' : k' = (k.transfer p .get).goto p (.advancing .get)) :
    ∃ m rest, f.queue = m :: rest ∧ k'.itemPtr = Function.update k.itemPtr p (recordBytes m) ∧
      Holds ch k' ⟨rest, f.entered, f.left ++ [m]⟩ := by
  obtain ⟨bytes, hfront⟩ := copying_get_front h.reachable hpc h.queued
  obtain ⟨m, rest, hqueue, hm, rfl⟩ := List.map_eq_cons_iff.mp hfront
  refine ⟨m, rest, hqueue, ?_, hreach, ?_⟩
  · rw [hk', hm]
    rfl
  · have hqueued := h.queued
    rw [hqueue, List.map_cons] at hqueued
    rw [hk']
    show k.puts.map Prod.snd = (k.gets ++ [(p, k.rb.front)]).map Prod.snd ++ rest.map recordBytes
    rw [List.map_append, hqueued, List.append_assoc, ← hm]
    rfl

/-- A put of the queue with space. -/
theorem mcPut_of_room (hroom : (a.channels ch).queue.length < ch.capacity) :
    a.mcPut ch m = some { a with
      channels := Function.update a.channels ch
        ⟨(a.channels ch).queue ++ [m], (a.channels ch).entered ++ [m], (a.channels ch).left⟩ } := by
  rw [EchoChannels.State.mcPut, BoundedFifo.Fifo.next, if_pos hroom, Option.map_some]

/-- A get of the queue with a message. -/
theorem mcGet_of_cons {rest : List Message} (hqueue : (a.channels ch).queue = m :: rest) :
    a.mcGet ch = some (m, { a with
      channels := Function.update a.channels ch
        ⟨rest, (a.channels ch).entered, (a.channels ch).left ++ [m]⟩ }) := by
  simp only [EchoChannels.State.mcGet, hqueue, BoundedFifo.Fifo.next, Option.map_some]

end Copies

section Effects

variable {p ch : Process} {c : Call} {k : MutexChannel.State Process}
  {f : BoundedFifo.Fifo Message}

/-- After its copy a process is past it. -/
theorem past_advancing (hstand : s.standsAt p = some (ch, c))
    (hpc : k.pc = Function.update (s.channels ch).pc p (.advancing c)) :
    (s.setChannel ch k).past p = true := by
  have hstand' : (s.setChannel ch k).standsAt p = some (ch, c) := hstand
  rw [past_eq hstand']
  show past ((Function.update s.channels ch k ch).pc p) = true
  rw [Function.update_self, hpc, Function.update_self]
  rfl

/-- It is still in the call. -/
theorem Follows.seated_advancing (h : Follows s a) (hstand : s.standsAt p = some (ch, c))
    (hpc : k.pc = Function.update (s.channels ch).pc p (.advancing c)) (r : Process) (d : Call)
    (hd : ((Function.update s.channels ch k r).pc p).call? = some d) :
    s.standsAt p = some (r, d) := by
  rcases eq_or_ne r ch with rfl | hr
  · rw [Function.update_self, hpc, Function.update_self] at hd
    rw [hstand, ← Option.some.inj hd]
  · rw [Function.update_of_ne hr] at hd
    exact h.seated r p d hd

/-- The server copies the element of its call. -/
theorem Follows.server_copied (h : Follows s a) (hI : EchoChannels.Inv a)
    (hstand : s.standsAt .server = some (ch, c))
    (hcopying : (s.channels ch).pc .server = .copying c) (hk : Holds ch k f)
    (hpc : k.pc = Function.update (s.channels ch).pc .server (.advancing c))
    (pc : EchoChannels.ServerPc) (hview : ServerView (s.setChannel ch k) pc) :
    Follows (s.setChannel ch k)
      { a with channels := Function.update a.channels ch f, server := pc } := by
  refine h.server_step rfl rfl h.names (h.holds_update hk)
    (fun r q hq => update_pc_of_ne hpc (.inr hq)) (h.seated_advancing hstand hpc) hview
    (fun pid hpid => ?_) h.served h.request fun _ => rfl
  show Quiet ((Function.update s.channels ch k (.client pid)).pc .server)
  rcases eq_or_ne (Process.client pid) ch with rfl | hne
  · have hsignaling := h.signaling hI hpid hstand
    rw [hcopying] at hsignaling
    cases hsignaling
  · rw [update_pc_of_ne hpc (.inl hne)]
    exact h.quiet pid hpid

/-- A client copies the element of its call. -/
theorem Follows.client_copied (h : Follows s a) {pid : Pid}
    (hstand : s.standsAt (.client pid) = some (ch, c)) (hk : Holds ch k f)
    (hpc : k.pc = Function.update (s.channels ch).pc (.client pid) (.advancing c))
    (hitem : ∀ q, q ≠ .client pid → k.itemPtr q = (s.channels ch).itemPtr q)
    {x : EchoChannels.Client} (hview : ClientView (s.setChannel ch k) pid x)
    (hquiet : ¬ x.pc.Awaiting → Quiet ((s.channels (.client pid)).pc .server)) :
    Follows (s.setChannel ch k)
      (EchoChannels.State.setClient { a with channels := Function.update a.channels ch f } pid x) := by
  have hself : (EchoChannels.State.setClient { a with
      channels := Function.update a.channels ch f } pid x).clients pid = x :=
    Function.update_self _ _ _
  refine h.client_step pid rfl rfl (fun _ _ => rfl) (fun q hq => Function.update_of_ne hq _ _)
    h.names (h.holds_update hk) (fun r q hq => update_pc_of_ne hpc (.inr hq)) ?_
    (h.seated_advancing hstand hpc) ?_ (fun hx => ?_) id h.request (fun _ _ => rfl) (h.response pid)
  · show (Function.update s.channels ch k .server).itemPtr .server = _
    rcases eq_or_ne Process.server ch with rfl | hne
    · rw [Function.update_self, hitem .server nofun]
    · rw [Function.update_of_ne hne]
  · rw [hself]
    exact hview
  · rw [hself] at hx
    show Quiet ((Function.update s.channels ch k (.client pid)).pc .server)
    rw [update_pc_of_ne hpc (.inr (nofun : Process.server ≠ .client pid))]
    exact hquiet hx

/-- While a client copies its response, the server left its channel to the signal. -/
theorem Follows.quiet_of_getting (h : Follows s a) (hI : EchoChannels.Inv a) {pid : Pid}
    (hcopying : (s.channels (.client pid)).pc (.client pid) = .copying .get)
    {m : Message} {rest : List Message} (hqueue : (a.channels (.client pid)).queue = m :: rest) :
    Quiet ((s.channels (.client pid)).pc .server) := by
  by_cases hout : ∀ d, s.standsAt .server ≠ some (.client pid, d)
  · rw [h.idle hout]
    trivial
  · obtain ⟨d, hd⟩ := not_forall.mp hout
    have hstand := not_not.mp hd
    obtain ⟨msg, hserver, rfl⟩ := putting_of_standsAt hstand
    have hpast : EchoStatements.past ((s.channels (.client pid)).pc .server) = true := by
      rw [← past_eq hstand]
      by_contra hnot
      -- the message in the hand would be a second one in flight
      have hview := h.server
      rw [ServerView, hserver] at hview
      obtain ⟨n, -, hpc⟩ := hview
      rw [Bool.eq_false_of_not_eq_true hnot, if_neg Bool.false_ne_true] at hpc
      obtain rfl := Process.client.inj (hI.target n _ hpc)
      have hflight := (hI.clients n.sender).flight
      have hhand : n ∈ a.server.hand ++ (a.channels .server).queue := by
        rw [hpc]
        exact List.mem_cons_self
      have hmem : n ∈ (a.server.hand ++ (a.channels .server).queue).filter
          fun m : Message => m.sender = n.sender :=
        List.mem_filter.mpr ⟨hhand, decide_eq_true rfl⟩
      have hpos := List.length_pos_of_mem hmem
      have hlength := congrArg List.length hflight
      rw [EchoChannels.State.inFlight, List.length_append, hqueue, List.length_cons,
        if_pos (hI.awaited hhand), List.length_singleton] at hlength
      omega
    have hclient : ((s.channels (.client pid)).pc (.client pid)).Holding := by
      rw [hcopying]
      trivial
    have hholding : ¬ ((s.channels (.client pid)).pc .server).Holding := fun hs =>
      Process.noConfusion (holding_unique (h.holds _).reachable hs hclient)
    cases hpc : (s.channels (.client pid)).pc .server with
    | idle | signaling => trivial
    | locking | waiting =>
      rw [hpc] at hpast
      cases hpast
    | checking | copying | advancing | wrapping | counting | unlocking =>
      rw [hpc] at hholding
      exact absurd trivial hholding

end Effects

section Server

variable {m : Move}

/-- A statement outside the calls is executed. -/
theorem plain_spec {u : State} (h : m.plain u = some t) : t = u := by
  cases m with
  | step => exact (Option.some.inj h).symm
  | signal | wake => cases h

/-- A process that is in no channel copied nothing. -/
theorem past_of_idle {p : Process} (hidle : ∀ ch, (t.channels ch).pc p = .idle) :
    t.past p = false := by
  unfold State.past
  split
  next ch c hstand => exact congrArg past (hidle ch)
  next => rfl

/-- The server has to get its next message. -/
theorem serverView_getting (hserver : t.server = .getting) (hpast : t.past .server = false) :
    ServerView t .getting := by
  rw [ServerView, hserver]
  dsimp only
  rw [hpast, if_neg Bool.false_ne_true]

/-- The server moves on outside its calls. -/
theorem Follows.server_plain (h : Follows s a) (hout : s.standsAt .server = none) {x : ServerAt}
    (pc : EchoChannels.ServerPc) (hview : ServerView { s with server := x } pc)
    (hserved : ∀ msg pid, x = .putting msg (.client pid) → (s.clients pid).pc.Started) :
    Follows { s with server := x } { a with server := pc } := by
  refine h.server_step rfl rfl h.names h.holds (fun _ _ _ => rfl) (fun ch c hc => ?_) hview h.quiet
    hserved h.request fun _ => rfl
  change ((s.channels ch).pc .server).call? = some c at hc
  rw [h.out_idle hout] at hc
  cases hc

/-- A new channel is empty. -/
theorem Follows.holds_mcCreate (h : Follows s a) (owner : Process) (name : List Char)
    (ch : Process) :
    Holds ch ((s.mcCreate owner name).channels ch) ((a.mcCreate owner name).channels ch) := by
  have hnew : Holds owner ⟨MutexChannel.mcCreate sizeofMsg owner.capacity (s.channels owner).rb.buf,
      .new, fun _ => .idle, (s.channels owner).itemPtr, [], []⟩ ⟨[], [], []⟩ :=
    ⟨.start ⟨_, _, rfl⟩, rfl⟩
  exact h.holds_update hnew ch

/-- Nothing of it is destroyed, whatever was destroyed of others. -/
theorem mcCreate_destroyed (s : State) (owner ch : Process) (name : List Char) :
    (s.mcCreate owner name).destroyed ch = if ch = owner then [] else s.destroyed ch := by
  show Function.update s.destroyed owner [] ch = _
  rw [Function.update_apply]

/-- Other channels stay as they are. -/
theorem mcCreate_of_ne {owner ch : Process} {name : List Char} (hne : ch ≠ owner) :
    (s.mcCreate owner name).channels ch = s.channels ch :=
  Function.update_of_ne hne _ _

/-- Nobody is in a channel when it is created. -/
theorem mcCreate_pc {owner : Process} (name : List Char)
    (hidle : ∀ p, (s.channels owner).pc p = .idle) (ch p : Process) :
    ((s.mcCreate owner name).channels ch).pc p = (s.channels ch).pc p := by
  rcases eq_or_ne ch owner with rfl | hne
  · rw [hidle]
    show (Function.update s.channels ch _ ch).pc p = .idle
    rw [Function.update_self]
  · rw [mcCreate_of_ne hne]

/-- The server creates the request channel. -/
theorem Follows.createRequest (h : Follows s a) (hI : EchoChannels.Inv a)
    (hserver : s.server = .creating) :
    Follows { s.mcCreate .server echoServiceName with server := .getting }
      { a.mcCreate .server echoServiceName with server := .getting } := by
  have hview := h.server
  rw [ServerView, hserver] at hview
  have hout : s.standsAt .server = none := by rw [State.standsAt, hserver]
  have hidle : ∀ p, (s.channels .server).pc p = .idle := by
    intro p
    refine h.idle fun c hc => ?_
    cases p with
    | server =>
      rw [hout] at hc
      cases hc
    | client pid =>
      -- no client opened the request channel yet
      exact (h.calling hI hc).1 hview
  have hpcs := mcCreate_pc echoServiceName hidle
  have hnone : ∀ ch, ((s.mcCreate .server echoServiceName).channels ch).pc .server =
      .idle := fun ch => (hpcs ch .server).trans (h.out_idle hout ch)
  refine h.server_step rfl rfl ?_ (h.holds_mcCreate .server echoServiceName) (fun ch r _ => hpcs ch r)
    (fun ch c hc => ?_) ?_
    (fun pid hpid => ?_) nofun ?_ (fun pid => ?_)
  · show Function.update a.names _ _ = Function.update s.names _ _
    rw [h.names]
  · change (((s.mcCreate .server echoServiceName).channels ch).pc .server).call? =
      some c at hc
    rw [hnone] at hc
    cases hc
  · exact serverView_getting rfl (past_of_idle hnone)
  · exact (congrArg Quiet (hpcs _ _)).mpr (h.quiet pid hpid)
  · exact (mcCreate_destroyed s .server .server echoServiceName).trans (if_pos rfl)
  · exact (mcCreate_destroyed s .server (.client pid) echoServiceName).trans (if_neg nofun)

/-- A client that waits created its channel. -/
theorem Follows.started_of_awaiting (h : Follows s a) {pid : Pid}
    (hpid : (a.clients pid).pc.Awaiting) : (s.clients pid).pc.Started := by
  rw [(h.clients pid).pc_eq] at hpid
  cases hpc : (s.clients pid).pc with
  | opening | creating =>
    rw [hpc] at hpid
    exact hpid.elim
  | testing | putting | getting | destroying | closing | done => trivial

/-- Every step of the server is a step above, or none. -/
theorem Follows.runServer (h : Follows s a) (hI : EchoChannels.Inv a)
    (hstep : s.runServer m = some t) :
    Follows t a ∨ ∃ a', a.runServer = some a' ∧ Follows t a' := by
  have hview := h.server
  unfold State.runServer at hstep
  cases hserver : s.server with
  | creating =>
    rw [hserver] at hstep
    obtain rfl := plain_spec hstep
    have hpc : a.server = .creating := by
      rw [ServerView, hserver] at hview
      exact hview
    refine .inr ⟨_, ?_, h.createRequest hI hserver⟩
    rw [EchoChannels.State.runServer, hpc]
  | getting =>
    rw [hserver] at hstep
    have hstand : s.standsAt .server = some (.server, .get) := by rw [State.standsAt, hserver]
    rw [ServerView, hserver] at hview
    dsimp only at hview
    rw [past_eq hstand] at hview
    obtain hmoved | ⟨k, hpc, hk, hkpc, hitem, rfl⟩ | ⟨k, hpc, hreach, hk, hkpc, rfl⟩ :=
      h.call hI hstand hstep
    · exact .inl hmoved
    · -- the message that was copied before is returned
      rw [hpc, past_signaling, if_pos rfl] at hview
      obtain ⟨msg, hmsg, hopening⟩ := hview
      refine .inl (h.server_returned hstand hk hkpc nofun ?_)
      rw [ServerView]
      refine ⟨msg, ?_, hopening⟩
      show (Function.update s.channels .server k .server).itemPtr .server = _
      rw [Function.update_self, hitem, hmsg]
    · rw [hpc, past_copying, if_neg Bool.false_ne_true] at hview
      obtain ⟨msg, rest, hqueue, hitem, hholds⟩ := (h.holds .server).copy_get hpc hreach hk
      refine .inr ⟨_, ?_, h.server_copied hI hstand hpc hholds hkpc (.opening msg) ?_⟩
      · rw [EchoChannels.State.runServer, hview]
        dsimp only
        rw [mcGet_of_cons hqueue]
        rfl
      · have hserver' : (s.setChannel .server k).server = .getting := hserver
        rw [ServerView, hserver']
        dsimp only
        rw [past_advancing hstand hkpc, if_pos rfl]
        refine ⟨msg, ?_, rfl⟩
        show (Function.update s.channels .server k .server).itemPtr .server = _
        rw [Function.update_self, hitem, Function.update_self]
  | opening msg =>
    rw [hserver] at hstep
    rw [ServerView, hserver] at hview
    obtain ⟨m, rfl, hpc⟩ := hview
    have hhand : m ∈ a.server.hand ++ (a.channels .server).queue := by
      rw [hpc]
      exact List.mem_cons_self
    have hname := hI.named_of_hand hhand
    have hsender : s.names (senderName (recordBytes m)) = some (.client m.sender) := by
      rw [senderName_recordBytes, ← h.names, hname]
    have hout : s.standsAt .server = none := by rw [State.standsAt, hserver]
    dsimp only at hstep
    rw [hsender] at hstep
    obtain rfl := plain_spec hstep
    refine .inr ⟨_, ?_, h.server_plain hout (.putting m (.client m.sender)) ?_ ?_⟩
    · rw [EchoChannels.State.runServer, hpc]
      dsimp only
      rw [hname]
    · have hpast : State.past { s with server := .putting (recordBytes m) (.client m.sender) }
          .server = false := past_of_idle (h.out_idle hout)
      rw [ServerView]
      refine ⟨m, rfl, ?_⟩
      rw [hpast, if_neg Bool.false_ne_true]
    · intro msg pid hx
      cases hx
      exact h.started_of_awaiting (hI.awaited hhand)
  | putting msg resp =>
    rw [hserver] at hstep
    have hstand : s.standsAt .server = some (resp, .put msg) := by rw [State.standsAt, hserver]
    rw [ServerView, hserver] at hview
    obtain ⟨m, rfl, hpc⟩ := hview
    rw [past_eq hstand] at hpc
    obtain hmoved | ⟨k, hkpc, hk, hkpc', hitem, rfl⟩ | ⟨k, hkpc, hreach, hk, hkpc', rfl⟩ :=
      h.call hI hstand hstep
    · exact .inl hmoved
    · rw [hkpc, past_signaling, if_pos rfl] at hpc
      refine .inl (h.server_returned hstand hk hkpc' nofun ?_)
      rw [ServerView]
      exact ⟨rfl, _, hpc⟩
    · rw [hkpc, past_copying, if_neg Bool.false_ne_true] at hpc
      obtain ⟨hroom, hholds⟩ := (h.holds resp).copy_put hkpc hreach hk
      refine .inr ⟨_, ?_, h.server_copied hI hstand hkpc hholds hkpc'
        (.closing resp (respName m.sender)) ?_⟩
      · rw [EchoChannels.State.runServer, hpc]
        dsimp only
        rw [mcPut_of_room hroom]
        rfl
      · have hserver' : (s.setChannel resp k).server = .putting (recordBytes m) resp := hserver
        rw [ServerView, hserver']
        refine ⟨m, rfl, ?_⟩
        rw [past_advancing hstand hkpc', if_pos rfl]
  | closing resp d =>
    rw [hserver] at hstep
    have hout : s.standsAt .server = none := by rw [State.standsAt, hserver]
    obtain ⟨⟨name, hpc⟩, hkept⟩ := h.server_closes hI hserver
    simp only [hkept] at hstep
    obtain rfl := plain_spec hstep
    refine .inr ⟨_, ?_, h.server_plain hout .getting ?_ nofun⟩
    · rw [EchoChannels.State.runServer, hpc]
    · exact serverView_getting rfl (past_of_idle (h.out_idle hout))
  | destroying d =>
    rw [ServerView, hserver] at hview
    exact absurd hview hI.serving.1
  | done =>
    rw [hserver] at hstep
    cases hstep

end Server

section Clients

variable {niters : ℕ} {pid : Pid} {m : Move}

/-- Where a client stands after its step. -/
theorem setClient_self (s : State) (pid : Pid) (c : Client) :
    (s.setClient pid c).clients pid = c :=
  Function.update_self _ _ _

/-- States that differ in what is destroyed of one channel. -/
def Destroys (ch : Process) (s t : State) : Prop :=
  t.names = s.names ∧ t.channels = s.channels ∧ t.server = s.server ∧ t.clients = s.clients ∧
    ∀ r, r ≠ ch → t.destroyed r = s.destroyed r

theorem Destroys.refl (ch : Process) (s : State) : Destroys ch s s :=
  ⟨rfl, rfl, rfl, rfl, fun _ _ => rfl⟩

/-- A statement of `mc_destroy` does nothing else. -/
theorem mcDestroy_destroys (s : State) (caller ch : Process) (d : Teardown) :
    Destroys ch s (s.mcDestroy caller ch d).1 := by
  cases d with
  | testing | unmapping => exact .refl ch s
  | destroying part => exact ⟨rfl, rfl, rfl, rfl, fun r hr => Function.update_of_ne hr _ _⟩

/-- A client moves on outside its calls, and so it does above. -/
theorem Follows.client_plain (h : Follows s a) (hout : s.standsAt (.client pid) = none)
    {u : State} (hu : Destroys (.client pid) s u) {c : Client} {x : EchoChannels.Client}
    (hpc : x.pc = c.pc.view false) (hchannel : x.channel = c.channel) (hmsg : x.msg = c.msg)
    (hclosing : ∀ d, c.pc = .closing d → d = .testing) (hawaiting : ¬ (a.clients pid).pc.Awaiting)
    (hserved : (s.clients pid).pc.Started → c.pc.Started)
    (hleaving : u.destroyed (.client pid) ≠ [] → c.pc.Leaving) :
    Follows (u.setClient pid c) (a.setClient pid x) := by
  obtain ⟨hnames, hchannels, hserver, hclients, hdestroyed⟩ := hu
  have hidle : ∀ ch, ((u.setClient pid c).channels ch).pc (.client pid) = .idle := fun ch => by
    show (u.channels ch).pc (.client pid) = .idle
    rw [hchannels]
    exact h.out_idle hout ch
  have hsame : ∀ ch, (u.setClient pid c).channels ch = s.channels ch := congrFun hchannels
  refine h.client_step pid hserver rfl (fun q hq => ?_) (fun q hq => Function.update_of_ne hq _ _)
    (h.names.trans hnames.symm) (fun ch => ?_) (fun ch r _ => ?_) ?_ (fun ch c hc => ?_) ?_
    (fun _ => ?_) ?_ ((hdestroyed .server nofun).trans h.request)
    (fun q hq => hdestroyed (.client q) ?_) ?_
  · exact (Function.update_of_ne hq _ _).trans (congrFun hclients q)
  · rw [hsame]
    exact h.holds ch
  · rw [hsame]
  · rw [hsame]
  · rw [hidle] at hc
    cases hc
  · rw [EchoChannels.setClient_self]
    refine ⟨?_, ?_, ?_, ?_⟩
    · rw [setClient_self, past_of_idle hidle, hpc]
    · rw [setClient_self, hchannel]
    · rw [setClient_self, hmsg]
    · rw [setClient_self]
      exact hclosing
  · rw [hsame]
    exact h.quiet pid hawaiting
  · rw [setClient_self]
    exact hserved
  · exact fun he => hq (Process.client.inj he)
  · rw [setClient_self]
    exact hleaving

/-- A client creates its channel. -/
theorem Follows.createResponse (h : Follows s a) (hI : EchoChannels.Inv a)
    (hpc : (s.clients pid).pc = .creating) :
    Follows ((s.mcCreate (.client pid) (respName pid)).setClient pid
        { s.clients pid with
          pc := .testing 1, msg := { (s.clients pid).msg with sender := pid } })
      ((a.mcCreate (.client pid) (respName pid)).setClient pid
        { a.clients pid with
          pc := .testing 1, msg := { (a.clients pid).msg with sender := pid } }) := by
  have hview := h.clients pid
  have hout : s.standsAt (.client pid) = none := by
    unfold State.standsAt
    dsimp only
    rw [hpc]
  have hawaiting : ¬ (a.clients pid).pc.Awaiting := by
    rw [hview.pc_eq, hpc]
    exact id
  have hidle : ∀ p, (s.channels (.client pid)).pc p = .idle := by
    intro p
    refine h.idle fun c hc => ?_
    cases p with
    | server =>
      obtain ⟨msg, hserver, -⟩ := putting_of_standsAt hc
      have hstarted := h.served msg pid hserver
      rw [hpc] at hstarted
      exact hstarted
    | client q =>
      obtain ⟨-, ⟨hrequest, -⟩ | ⟨hown, -⟩⟩ := h.calling hI hc
      · cases hrequest
      · obtain rfl := Process.client.inj hown
        rw [hout] at hc
        cases hc
  have hpcs := mcCreate_pc (respName pid) hidle
  have hitem : ((s.mcCreate (.client pid) (respName pid)).channels .server).itemPtr .server =
      (s.channels .server).itemPtr .server := by
    rw [mcCreate_of_ne (nofun : Process.server ≠ .client pid)]
  refine h.client_step pid rfl rfl (fun q hq => Function.update_of_ne hq _ _)
    (fun q hq => Function.update_of_ne hq _ _) ?_ (h.holds_mcCreate (.client pid) (respName pid))
    (fun ch r _ => hpcs ch r) hitem (fun ch c hc => ?_) ?_ (fun _ => ?_) (fun _ => ?_)
    ?_ (fun q hq => ?_) (fun hd => absurd ?_ hd)
  · show Function.update a.names _ _ = Function.update s.names _ _
    rw [h.names]
  · change (((s.mcCreate (.client pid) (respName pid)).channels ch).pc (.client pid)).call? =
      some c at hc
    rw [hpcs, h.out_idle hout] at hc
    cases hc
  · rw [EchoChannels.setClient_self]
    refine ⟨?_, ?_, ?_, ?_⟩
    · rw [setClient_self]
      rfl
    · rw [setClient_self]
      exact hview.channel_eq
    · rw [setClient_self]
      dsimp only
      rw [hview.msg_eq]
    · rw [setClient_self]
      exact fun d hd => nomatch hd
  · exact (congrArg Quiet (hpcs _ _)).mpr (h.quiet pid hawaiting)
  · rw [setClient_self]
    trivial
  · exact (mcCreate_destroyed s (.client pid) .server (respName pid)).trans
      ((if_neg nofun).trans h.request)
  · exact (mcCreate_destroyed s (.client pid) (.client q) (respName pid)).trans
      (if_neg fun he => hq (Process.client.inj he))
  · exact (mcCreate_destroyed s (.client pid) (.client pid) (respName pid)).trans (if_pos rfl)

/-- Every step of a client is a step above, or none. -/
theorem Follows.runClient (h : Follows s a) (hI : EchoChannels.Inv a)
    (hstep : s.runClient niters pid m = some t) :
    Follows t a ∨ ∃ a', a.runClient niters pid = some a' ∧ Follows t a' := by
  have hview := h.clients pid
  have hpc' := hview.pc_eq
  have hsame : a.setClient pid (a.clients pid) = a := by
    rw [EchoChannels.State.setClient, Function.update_eq_self]
  simp only [State.runClient] at hstep
  cases hpc : (s.clients pid).pc with
  | opening =>
    have hout : s.standsAt (.client pid) = none := by simp only [State.standsAt, hpc]
    rw [hpc] at hstep hpc'
    have hawaiting : ¬ (a.clients pid).pc.Awaiting := by rw [hpc']; exact id
    refine .inr ?_
    cases hname : s.names echoServiceName with
    | none =>
      simp only [hname] at hstep
      obtain rfl := plain_spec hstep
      refine ⟨_, ?_, h.client_plain hout (.refl _ s) (c := { s.clients pid with pc := .done })
        (x := { a.clients pid with pc := .done }) rfl hview.channel_eq hview.msg_eq
        (fun _ he => by cases he) hawaiting (fun _ => trivial) (fun _ => trivial)⟩
      simp only [EchoChannels.State.runClient, hpc', ClientAt.view, h.names, hname]
    | some channel =>
      simp only [hname] at hstep
      obtain rfl := plain_spec hstep
      refine ⟨_, ?_, h.client_plain hout (.refl _ s)
        (c := { s.clients pid with pc := .creating, channel := channel })
        (x := { a.clients pid with pc := .creating, channel := channel }) rfl rfl hview.msg_eq
        (fun _ he => by cases he) hawaiting (fun hs => by rw [hpc] at hs; exact hs)
        (fun hd => absurd (h.response pid hd) (by rw [hpc]; exact id))⟩
      simp only [EchoChannels.State.runClient, hpc', ClientAt.view, h.names, hname]
  | creating =>
    rw [hpc] at hstep hpc'
    obtain rfl := plain_spec hstep
    refine .inr ⟨_, ?_, h.createResponse hI hpc⟩
    simp only [EchoChannels.State.runClient, hpc', ClientAt.view]
  | testing attempt =>
    have hout : s.standsAt (.client pid) = none := by simp only [State.standsAt, hpc]
    rw [hpc] at hstep hpc'
    have hawaiting : ¬ (a.clients pid).pc.Awaiting := by rw [hpc']; exact id
    refine .inr ?_
    dsimp only at hstep
    split at hstep
    next hle =>
      obtain rfl := plain_spec hstep
      refine ⟨_, ?_, h.client_plain hout (.refl _ s) (x := { a.clients pid with
        pc := .putting attempt
        msg := { (a.clients pid).msg with
          msg := EchoChannels.sprintf (a.clients pid).msg.msg
            (EchoChannels.requestText (a.clients pid).msg.sender attempt) } })
        rfl hview.channel_eq ?_ (fun _ he => by cases he) hawaiting (fun _ => trivial)
        (fun hd => absurd (h.response pid hd) (by rw [hpc]; exact id))⟩
      · simp only [EchoChannels.State.runClient, hpc', ClientAt.view, if_pos hle]
      · dsimp only
        rw [hview.msg_eq]
    next hlt =>
      obtain rfl := plain_spec hstep
      refine ⟨_, ?_, h.client_plain hout (.refl _ s) (x := { a.clients pid with pc := .destroying })
        rfl hview.channel_eq hview.msg_eq (fun _ he => by cases he) hawaiting (fun _ => trivial)
        (fun _ => trivial)⟩
      simp only [EchoChannels.State.runClient, hpc', ClientAt.view, if_neg hlt]
  | putting attempt =>
    have hstand : s.standsAt (.client pid) =
        some ((s.clients pid).channel, .put (recordBytes (s.clients pid).msg)) := by
      simp only [State.standsAt, hpc]
    rw [hpc] at hstep hpc'
    rw [past_eq hstand] at hpc'
    obtain hmoved | ⟨k, hkpc, hk, hkpc', hitem, rfl⟩ | ⟨k, hkpc, hreach, hk, hkpc', rfl⟩ :=
      h.call hI hstand hstep
    · exact .inl hmoved
    · refine .inl (h.client_returned hstand hk hkpc' hitem trivial (by rw [hpc]; exact id)
        (fun _ he => by cases he) (by rw [hpc]; rfl) ?_)
      rw [past_eq hstand, hkpc, past_signaling]
    · rw [hkpc, past_copying] at hpc'
      obtain ⟨hroom, hholds⟩ := (h.holds _).copy_put hkpc hreach hk
      refine .inr ⟨_, ?_, h.client_copied hstand hholds hkpc' (fun q _ => by rw [hk]; rfl)
        (x := { a.clients pid with
          pc := .getting attempt
          requests := (a.clients pid).requests ++ [(a.clients pid).msg] }) ?_
        (fun hx => absurd trivial hx)⟩
      · simp only [EchoChannels.State.runClient, hpc', ClientAt.view, hview.channel_eq, hview.msg_eq,
          mcPut_of_room hroom]
        rfl
      · refine ⟨?_, hview.channel_eq, hview.msg_eq, hview.closing⟩
        rw [past_advancing hstand hkpc']
        show _ = (s.clients pid).pc.view true
        rw [hpc]
        rfl
  | getting attempt =>
    have hstand : s.standsAt (.client pid) = some (.client pid, .get) := by
      simp only [State.standsAt, hpc]
    rw [hpc] at hstep hpc'
    rw [past_eq hstand] at hpc'
    obtain hmoved | ⟨k, hkpc, hk, hkpc', hitem, rfl⟩ | ⟨k, hkpc, hreach, hk, hkpc', rfl⟩ :=
      h.call hI hstand hstep
    · exact .inl hmoved
    · refine .inl (h.client_returned hstand hk hkpc' hitem trivial (by rw [hpc]; exact id)
        (fun _ he => by cases he) (by rw [hpc]; rfl) ?_)
      rw [past_eq hstand, hkpc, past_signaling]
    · rw [hkpc, past_copying] at hpc'
      obtain ⟨msg, rest, hqueue, hitem, hholds⟩ := (h.holds _).copy_get hkpc hreach hk
      refine .inr ⟨_, ?_, h.client_copied hstand hholds hkpc'
        (fun q hq => by rw [hitem, Function.update_of_ne hq])
        (x := { a.clients pid with
          pc := .testing (attempt + 1)
          resp := msg
          responses := (a.clients pid).responses ++ [msg] }) ?_
        (fun _ => h.quiet_of_getting hI hkpc hqueue)⟩
      · simp only [EchoChannels.State.runClient, hpc', ClientAt.view, mcGet_of_cons hqueue]
        rfl
      · refine ⟨?_, hview.channel_eq, hview.msg_eq, hview.closing⟩
        rw [past_advancing hstand hkpc']
        show _ = (s.clients pid).pc.view true
        rw [hpc]
        rfl
  | destroying d =>
    have hout : s.standsAt (.client pid) = none := by simp only [State.standsAt, hpc]
    rw [hpc] at hstep hpc'
    have hawaiting : ¬ (a.clients pid).pc.Awaiting := by rw [hpc']; exact id
    have hdestroys := mcDestroy_destroys s (.client pid) (.client pid) d
    dsimp only at hstep
    split at hstep
    next u d' hu =>
      obtain rfl := plain_spec hstep
      rw [hu] at hdestroys
      refine .inl ?_
      have hfollows := h.client_plain hout hdestroys
        (c := { s.clients pid with pc := .destroying d' }) (x := a.clients pid)
        hpc' hview.channel_eq hview.msg_eq (fun _ he => by cases he) hawaiting (fun _ => trivial)
        (fun _ => trivial)
      rwa [hsame] at hfollows
    next u hu =>
      obtain rfl := plain_spec hstep
      rw [hu] at hdestroys
      refine .inr ⟨_, ?_, h.client_plain hout hdestroys
        (c := { s.clients pid with pc := .closing .testing })
        (x := { a.clients pid with pc := .closing }) rfl hview.channel_eq hview.msg_eq
        (fun d hd => (ClientAt.closing.inj hd).symm) hawaiting (fun _ => trivial) (fun _ => trivial)⟩
      simp only [EchoChannels.State.runClient, hpc', ClientAt.view]
  | closing d =>
    have hout : s.standsAt (.client pid) = none := by simp only [State.standsAt, hpc]
    have hkept := h.client_closes hI hpc
    rw [hpc] at hstep hpc'
    have hawaiting : ¬ (a.clients pid).pc.Awaiting := by rw [hpc']; exact id
    simp only [hkept] at hstep
    obtain rfl := plain_spec hstep
    refine .inr ⟨_, ?_, h.client_plain hout (.refl _ s) (c := { s.clients pid with pc := .done })
      (x := { a.clients pid with pc := .done }) rfl hview.channel_eq hview.msg_eq
      (fun _ he => by cases he) hawaiting (fun _ => trivial) (fun _ => trivial)⟩
    simp only [EchoChannels.State.runClient, hpc', ClientAt.view]
  | done =>
    rw [hpc] at hstep
    cases hstep

end Clients

/-- The statements refine the calls. -/
theorem refines_calls (niters : Pid → ℕ) :
    Simulation (service niters) (EchoChannels.service niters)
      fun s a => (EchoChannels.service niters).Reachable a ∧ Follows s a where
  init s hs := by
    have hidle : ∀ ch p, (s.channels ch).pc p = .idle := fun ch p => by
      obtain ⟨buf, itemPtr, hk⟩ := hs.channels_eq ch
      rw [hk]
    have hpast : ∀ p, s.past p = false := fun p => past_of_idle fun ch => hidle ch p
    have hstart : EchoChannels.Started ⟨fun _ => none, fun _ => ⟨[], [], []⟩, .creating, fun pid =>
        ⟨.opening, (s.clients pid).channel, (s.clients pid).msg, (s.clients pid).msg, [], []⟩⟩ :=
      ⟨fun _ => rfl, fun _ => rfl, rfl, fun _ => ⟨rfl, rfl, rfl⟩⟩
    refine ⟨_, hstart, .start hstart, (funext hs.names_eq).symm, fun ch => ⟨?_, ?_⟩,
      fun ch p c hc => ?_, ?_, fun pid => ⟨?_, rfl, rfl, fun d hd => ?_⟩, fun pid _ => ?_,
      fun msg pid hmsg => ?_, hs.destroyed_eq _, fun pid hd => absurd (hs.destroyed_eq _) hd⟩
    · exact .start (hs.channels_eq ch)
    · obtain ⟨buf, itemPtr, hk⟩ := hs.channels_eq ch
      rw [hk]
      rfl
    · rw [hidle] at hc
      cases hc
    · rw [ServerView, hs.server_eq]
    · rw [hs.clients_eq, hpast]
      rfl
    · rw [hs.clients_eq] at hd
      cases hd
    · rw [hidle]
      trivial
    · rw [hs.server_eq] at hmsg
      cases hmsg
  step s l t a _ h hstep := by
    obtain ⟨ha, hfollows⟩ := h
    have hI := EchoChannels.inv_reachable ha
    have hlift : ∀ p, (Follows t a ∨ ∃ a', EchoChannels.State.next niters a p = some a' ∧
        Follows t a') → ∃ a', (EchoChannels.service niters).Steps a a' ∧
          (EchoChannels.service niters).Reachable a' ∧ Follows t a' := by
      rintro p (hsame | ⟨a', hnext, hmatched⟩)
      · exact ⟨a, .refl, ha, hsame⟩
      · exact ⟨a', .single ⟨p, hnext⟩, ha.next hnext, hmatched⟩
    obtain ⟨p, m⟩ := l
    cases p with
    | server => exact hlift .server (hfollows.runServer hI hstep)
    | client pid => exact hlift (.client pid) (hfollows.runClient hI hstep)

/-- What is known of the messages holds between the statements. -/
theorem follows_reachable {niters : Pid → ℕ} (hs : (service niters).Reachable s) :
    ∃ a, EchoChannels.Inv a ∧ Follows s a := by
  obtain ⟨a, -, ha, h⟩ := (refines_calls niters).reachable hs
  exact ⟨a, EchoChannels.inv_reachable ha, h⟩

end SistemasOperativos.EchoStatements
