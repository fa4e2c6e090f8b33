import SistemasOperativos.EchoChannelsProgress
import SistemasOperativos.EchoStatementsProgress
import SistemasOperativos.EchoTeardown

/-!
# The echo service completes, statement by statement

Where no statement can be executed, everybody who is in a channel sleeps there
and finds nothing to take, so the server waits for a request and the clients are
done. Each of them got back the bytes that it put.
-/

namespace SistemasOperativos.EchoStatements

open TransitionRuns MachineInt MutexChannel
open ByteMemory (Byte)
open EchoChannels (Pid Process Message respName echoServiceName)

/-- The elements that a process copied, oldest first. -/
def copiesOf (p : Process) (history : List (Process × List Byte)) : List (List Byte) :=
  (history.filter fun x => x.1 = p).map Prod.snd

/-- What a client put into the request channel. -/
def State.requests (s : State) (pid : Pid) : List (List Byte) :=
  copiesOf (.client pid) (s.channels .server).puts

/-- What a client got from its own channel. -/
def State.responses (s : State) (pid : Pid) : List (List Byte) :=
  copiesOf (.client pid) (s.channels (.client pid)).gets

section Copies

theorem copiesOf_self (p : Process) (history : List (Process × List Byte)) (item : List Byte) :
    copiesOf p (history ++ [(p, item)]) = copiesOf p history ++ [item] := by
  simp [copiesOf]

theorem copiesOf_other {p q : Process} (hq : q ≠ p) (history : List (Process × List Byte))
    (item : List Byte) : copiesOf p (history ++ [(q, item)]) = copiesOf p history := by
  simp [copiesOf, hq]

end Copies

/-- The histories of the calls are those of the copies. -/
structure Recorded (s : State) (a : EchoChannels.State) : Prop where
  fresh : s.server = .creating → (s.channels .server).puts = []
  requests : ∀ pid, s.requests pid = (a.clients pid).requests.map recordBytes
  responses : ∀ pid, s.responses pid = (a.clients pid).responses.map recordBytes

variable {s t : State} {a a' : EchoChannels.State} {p ch : Process} {c : Call} {m : Move}
  {k : MutexChannel.State Process}

section Histories

theorem setChannel_self (s : State) (ch : Process) (k : MutexChannel.State Process) :
    (s.setChannel ch k).channels ch = k :=
  Function.update_self _ _ _

theorem setChannel_of_ne (s : State) {r : Process} (k : MutexChannel.State Process) (hr : r ≠ ch) :
    (s.setChannel ch k).channels r = s.channels r :=
  Function.update_of_ne hr _ _

/-- Nothing is copied. -/
theorem Recorded.unmoved (h : Recorded s a) (hrequests : ∀ q, t.requests q = s.requests q)
    (hresponses : ∀ q, t.responses q = s.responses q)
    (hfresh : t.server = .creating → (t.channels .server).puts = [])
    (hclients : ∀ q, (a'.clients q).requests = (a.clients q).requests ∧
      (a'.clients q).responses = (a.clients q).responses) : Recorded t a' := by
  refine ⟨hfresh, fun q => ?_, fun q => ?_⟩
  · rw [hrequests, (hclients q).1]
    exact h.requests q
  · rw [hresponses, (hclients q).2]
    exact h.responses q

/-- One channel changes, but not its histories. -/
theorem setChannel_histories (ht : t.channels = Function.update s.channels ch k)
    (hputs : k.puts = (s.channels ch).puts) (hgets : k.gets = (s.channels ch).gets) (r : Process) :
    (t.channels r).puts = (s.channels r).puts ∧ (t.channels r).gets = (s.channels r).gets := by
  rw [ht]
  rcases eq_or_ne r ch with rfl | hne
  · rw [Function.update_self]
    exact ⟨hputs, hgets⟩
  · rw [Function.update_of_ne hne]
    exact ⟨rfl, rfl⟩

/-- Histories that are the same record the same. -/
theorem Recorded.congr (h : Recorded s a) (hserver : t.server = .creating → s.server = .creating)
    (hchannels : ∀ r, (t.channels r).puts = (s.channels r).puts ∧
      (t.channels r).gets = (s.channels r).gets)
    (hclients : ∀ q, (a'.clients q).requests = (a.clients q).requests ∧
      (a'.clients q).responses = (a.clients q).responses) : Recorded t a' := by
  refine h.unmoved (fun q => ?_) (fun q => ?_) (fun hs => ?_) hclients
  · rw [State.requests, (hchannels _).1]
    rfl
  · rw [State.responses, (hchannels _).2]
    rfl
  · rw [(hchannels _).1]
    exact h.fresh (hserver hs)

/-- Whoever calls does it after the request channel was created. -/
theorem Follows.created_of_calling (h : Follows s a) (hI : EchoChannels.Inv a) {pid : Pid}
    (hstand : s.standsAt (.client pid) = some (ch, c)) : s.server ≠ .creating := by
  intro hserver
  have hview := h.server
  rw [ServerView, hserver] at hview
  exact (h.calling hI hstand).1 hview

/-- A client creates its channel before it has a history. -/
theorem Recorded.create (h : Recorded s a) (hI : EchoChannels.Inv a) {pid : Pid} {x : Client}
    (hnone : (a.clients pid).requests.length = 0)
    (hclients : ∀ q, (a'.clients q).requests = (a.clients q).requests ∧
      (a'.clients q).responses = (a.clients q).responses) :
    Recorded ((s.mcCreate (.client pid) (respName pid)).setClient pid x) a' := by
  have hempty : (a.clients pid).responses = [] := by
    have hhistory := (hI.clients pid).history
    rw [List.length_eq_zero_iff.mp hnone] at hhistory
    exact (List.append_eq_nil_iff.mp hhistory.symm).1
  have hothers : ∀ r, r ≠ Process.client pid →
      ((s.mcCreate (.client pid) (respName pid)).setClient pid x).channels r = s.channels r :=
    fun r hr => Function.update_of_ne hr _ _
  refine ⟨fun hs => ?_, fun q => ?_, fun q => ?_⟩
  · rw [hothers .server Process.noConfusion]
    exact h.fresh hs
  · rw [State.requests, hothers .server Process.noConfusion, (hclients q).1, ← h.requests]
    rfl
  · rw [(hclients q).2]
    rcases eq_or_ne q pid with rfl | hq
    · have hnew : ((s.mcCreate (.client q) (respName q)).setClient q x).channels (.client q) =
          ⟨mcCreate sizeofMsg (Process.client q).capacity (s.channels (.client q)).rb.buf, .new,
            fun _ => .idle, (s.channels (.client q)).itemPtr, [], []⟩ := Function.update_self _ _ _
      rw [hempty, State.responses, hnew]
      rfl
    · rw [State.responses, hothers _ fun he => hq (Process.client.inj he), ← h.responses]
      rfl

/-- A client that copies its request puts it. -/
theorem Recorded.put (h : Recorded s a) {pid : Pid} {msg : Message}
    (hk : k = ((s.channels .server).transfer (.client pid) (.put (recordBytes msg))).goto
      (.client pid) (.advancing (.put (recordBytes msg))))
    (hserver : s.server ≠ .creating)
    (hothers : ∀ q, q ≠ pid → a'.clients q = a.clients q)
    (hrequests : (a'.clients pid).requests = (a.clients pid).requests ++ [msg])
    (hresponses : (a'.clients pid).responses = (a.clients pid).responses) :
    Recorded (s.setChannel .server k) a' := by
  have hputs : ((s.setChannel .server k).channels .server).puts =
      (s.channels .server).puts ++ [(.client pid, recordBytes msg)] := by
    rw [setChannel_self, hk]
    rfl
  refine ⟨fun hs => absurd hs hserver, fun q => ?_, fun q => ?_⟩
  · rw [State.requests, hputs]
    rcases eq_or_ne q pid with rfl | hq
    · rw [copiesOf_self, hrequests, List.map_append, ← h.requests]
      rfl
    · rw [copiesOf_other fun he => hq (Process.client.inj he).symm, hothers q hq, ← h.requests]
      rfl
  · have hsame : (s.setChannel .server k).responses q = s.responses q := by
      rw [State.responses, setChannel_of_ne s k (Process.noConfusion : Process.client q ≠ .server)]
      rfl
    rw [hsame, h.responses]
    rcases eq_or_ne q pid with rfl | hq
    · rw [hresponses]
    · rw [hothers q hq]

/-- A client that copies its response gets it. -/
theorem Recorded.get (h : Recorded s a) {pid : Pid} {msg : Message}
    (hk : k = ((s.channels (.client pid)).transfer (.client pid) .get).goto
      (.client pid) (.advancing .get))
    (hserver : s.server ≠ .creating) (hfront : (s.channels (.client pid)).rb.front = recordBytes msg)
    (hothers : ∀ q, q ≠ pid → a'.clients q = a.clients q)
    (hrequests : (a'.clients pid).requests = (a.clients pid).requests)
    (hresponses : (a'.clients pid).responses = (a.clients pid).responses ++ [msg]) :
    Recorded (s.setChannel (.client pid) k) a' := by
  have hgets : ((s.setChannel (.client pid) k).channels (.client pid)).gets =
      (s.channels (.client pid)).gets ++ [(.client pid, recordBytes msg)] := by
    rw [setChannel_self, hk, ← hfront]
    rfl
  refine ⟨fun hs => absurd hs hserver, fun q => ?_, fun q => ?_⟩
  · have hsame : (s.setChannel (.client pid) k).requests q = s.requests q := by
      rw [State.requests, setChannel_of_ne s k (Process.noConfusion : Process.server ≠ .client pid)]
      rfl
    rw [hsame, h.requests]
    rcases eq_or_ne q pid with rfl | hq
    · rw [hrequests]
    · rw [hothers q hq]
  · rcases eq_or_ne q pid with rfl | hq
    · rw [State.responses, hgets, copiesOf_self, hresponses, List.map_append, ← h.responses]
      rfl
    · have hsame : (s.setChannel (.client pid) k).responses q = s.responses q := by
        rw [State.responses, setChannel_of_ne s k fun he => hq (Process.client.inj he)]
        rfl
      rw [hsame, h.responses, hothers q hq]

end Histories

section Clients

variable {niters : ℕ} {pid : Pid}

/-- A client whose place above stays the same takes no step above. -/
theorem Follows.stays (h : Follows s a)
    (hsteps : Follows t a ∨ ∃ a', a.runClient niters pid = some a' ∧ Follows t a')
    (hview : (t.clients pid).pc.view (t.past (.client pid)) =
      (s.clients pid).pc.view (s.past (.client pid))) : Follows t a := by
  rcases hsteps with hsame | ⟨a', hrun, hfollows⟩
  · exact hsame
  · refine absurd ?_ (EchoChannels.runClient_pc_ne hrun)
    rw [(hfollows.clients pid).pc_eq, hview, (h.clients pid).pc_eq]

/-- A client whose place above changes takes a step above. -/
theorem Follows.moves (h : Follows s a)
    (hsteps : Follows t a ∨ ∃ a', a.runClient niters pid = some a' ∧ Follows t a')
    (hview : (t.clients pid).pc.view (t.past (.client pid)) ≠
      (s.clients pid).pc.view (s.past (.client pid))) :
    ∃ a', a.runClient niters pid = some a' ∧ Follows t a' := by
  rcases hsteps with hsame | hmoved
  · refine absurd ?_ hview
    rw [← (hsame.clients pid).pc_eq, ← (h.clients pid).pc_eq]
  · exact hmoved

/-- A step of a client in a call, with the histories. -/
theorem Follows.client_call_recorded (h : Follows s a) (hI : EchoChannels.Inv a)
    (hr : Recorded s a) (hstand : s.standsAt (.client pid) = some (ch, c)) {x : ClientAt}
    (hcall : s.call (.client pid) ch c m
      (fun u => u.setClient pid { s.clients pid with pc := x }) = some t)
    (hreturn : x.view false = (s.clients pid).pc.view true)
    (hcopies : (s.clients pid).pc.view true ≠ (s.clients pid).pc.view false)
    (hcopied : (s.channels ch).pc (.client pid) = .copying c → ∀ k a',
      k = ((s.channels ch).transfer (.client pid) c).goto (.client pid) (.advancing c) →
      (channel Process (shape ch).elemSize (shape ch).capacity).Reachable k →
      a.runClient niters pid = some a' → Recorded (s.setChannel ch k) a')
    (hsteps : Follows t a ∨ ∃ a', a.runClient niters pid = some a' ∧ Follows t a') :
    (Follows t a ∧ Recorded t a) ∨
      ∃ a', a.runClient niters pid = some a' ∧ Follows t a' ∧ Recorded t a' := by
  obtain ⟨k, hreach, hstep, rfl⟩ := h.callStep hstand hcall
  have hcreated := h.created_of_calling hI hstand
  cases hstep with
  | returned w n hpc =>
    have hidle := h.returned_idle (k := { s.channels ch with monitor := n }.goto (.client pid) .idle)
      hstand rfl
    refine .inl ⟨h.stays hsteps ?_, hr.congr id (setChannel_histories rfl rfl rfl)
      fun _ => ⟨rfl, rfl⟩⟩
    rw [past_eq hstand, hpc, past_signaling, past_of_idle hidle]
    exact (congrArg (fun c => ClientAt.view false (Client.pc c)) (setClient_self _ _ _)).trans hreturn
  | moved _ q _ hm hsignaling hq hpast hpc hputs hgets hitem =>
    have hplain : m.finish (fun u => u.setClient pid { s.clients pid with pc := x })
        (s.setChannel ch k) = s.setChannel ch k := by
      cases m with
      | signal w => exact absurd rfl (hm w)
      | step | wake => rfl
    rw [hplain] at hsteps ⊢
    refine .inl ⟨h.stays hsteps ?_, hr.congr id (setChannel_histories rfl hputs hgets)
      fun _ => ⟨rfl, rfl⟩⟩
    have hthere : (s.setChannel ch k).standsAt (.client pid) = some (ch, c) := hstand
    have hself : ((s.setChannel ch k).channels ch).pc (.client pid) = q := by
      rw [setChannel_self, hpc, Function.update_self]
    rw [past_eq hthere, past_eq hstand, hself, hpast]
    rfl
  | copied hpc =>
    have hafter := past_advancing hstand (k := ((s.channels ch).transfer (.client pid) c).goto
      (.client pid) (.advancing c)) (by cases c <;> rfl)
    have hbefore : s.past (.client pid) = false := by rw [past_eq hstand, hpc, past_copying]
    obtain ⟨a', hrun, hfollows⟩ := h.moves hsteps (by
      rw [hbefore]
      exact (congrArg (fun b => (s.clients pid).pc.view b) hafter).trans_ne hcopies)
    exact .inr ⟨a', hrun, hfollows, hcopied hpc _ a' rfl hreach hrun⟩

/-- A step of a client outside its calls, with the histories. -/
theorem recorded_of_plain
    (hput : ∀ k, (a.clients pid).pc ≠ .putting k) (hget : ∀ k, (a.clients pid).pc ≠ .getting k)
    (hsteps : Follows t a ∨ ∃ a', a.runClient niters pid = some a' ∧ Follows t a')
    (hrecorded : ∀ a', (∀ q, (a'.clients q).requests = (a.clients q).requests ∧
      (a'.clients q).responses = (a.clients q).responses) → Recorded t a') :
    (Follows t a ∧ Recorded t a) ∨
      ∃ a', a.runClient niters pid = some a' ∧ Follows t a' ∧ Recorded t a' := by
  rcases hsteps with hsame | ⟨a', hrun, hfollows⟩
  · exact .inl ⟨hsame, hrecorded a fun _ => ⟨rfl, rfl⟩⟩
  · refine .inr ⟨a', hrun, hfollows, hrecorded a' fun q => ?_⟩
    rcases eq_or_ne q pid with rfl | hq
    · exact EchoChannels.runClient_histories hrun hput hget
    · rw [EchoChannels.runClient_others hrun hq]
      exact ⟨rfl, rfl⟩

/-- Destroying a channel leaves the histories. -/
theorem Recorded.destroy (hr : Recorded s a) {p ch : Process} {d : Teardown}
    (hserver : t.server = (s.mcDestroy p ch d).1.server)
    (hchannels : t.channels = (s.mcDestroy p ch d).1.channels)
    (hclients : ∀ q, (a'.clients q).requests = (a.clients q).requests ∧
      (a'.clients q).responses = (a.clients q).responses) : Recorded t a' := by
  obtain ⟨-, hchannels', hserver', -⟩ := mcDestroy_destroys s p ch d
  refine hr.congr (fun hcreating => hserver'.symm.trans (hserver.symm.trans hcreating)) (fun r => ?_)
    hclients
  rw [hchannels, hchannels']
  exact ⟨rfl, rfl⟩

/-- Every step of a client is a step above with the histories, or none. -/
theorem Follows.runClient_recorded (h : Follows s a) (hI : EchoChannels.Inv a) (hr : Recorded s a)
    (hmade : (a.clients pid).pc.Made niters (a.clients pid).requests.length)
    (hstep : s.runClient niters pid m = some t) :
    (Follows t a ∧ Recorded t a) ∨
      ∃ a', a.runClient niters pid = some a' ∧ Follows t a' ∧ Recorded t a' := by
  have hsteps := h.runClient hI hstep
  have hview := h.clients pid
  have hpc' := hview.pc_eq
  simp only [State.runClient] at hstep
  cases hpc : (s.clients pid).pc with
  | opening =>
    rw [hpc] at hstep hpc'
    refine recorded_of_plain (by simp [hpc', ClientAt.view]) (by simp [hpc', ClientAt.view]) hsteps
      fun a' ha => ?_
    dsimp only at hstep
    split at hstep
    all_goals
      obtain rfl := plain_spec hstep
      exact hr.congr id (fun _ => ⟨rfl, rfl⟩) ha
  | creating =>
    rw [hpc] at hstep hpc'
    rw [hpc'] at hmade
    refine recorded_of_plain (by simp [hpc', ClientAt.view]) (by simp [hpc', ClientAt.view]) hsteps
      fun a' ha => ?_
    obtain rfl := plain_spec hstep
    exact hr.create hI hmade ha
  | testing attempt =>
    rw [hpc] at hstep hpc'
    refine recorded_of_plain (by simp [hpc', ClientAt.view]) (by simp [hpc', ClientAt.view]) hsteps
      fun a' ha => ?_
    dsimp only at hstep
    split at hstep
    all_goals
      obtain rfl := plain_spec hstep
      exact hr.congr id (fun _ => ⟨rfl, rfl⟩) ha
  | putting attempt =>
    have hstand : s.standsAt (.client pid) =
        some ((s.clients pid).channel, .put (recordBytes (s.clients pid).msg)) := by
      simp only [State.standsAt, hpc]
    rw [hpc] at hstep hpc'
    refine h.client_call_recorded hI hr hstand hstep (by rw [hpc]; rfl)
      (by simp [hpc, ClientAt.view]) (fun hcopying k a' hk _ hrun => ?_) hsteps
    rw [past_eq hstand, hcopying, past_copying] at hpc'
    obtain ⟨hrequests, hresponses⟩ := EchoChannels.runClient_putting hpc' hrun
    have hopened := (hI.clients pid).opened (by rw [hpc']; trivial)
    rw [hview.msg_eq] at hrequests
    rw [hview.channel_eq] at hopened
    rw [hopened.1] at hk hstand ⊢
    exact hr.put hk (h.created_of_calling hI hstand)
      (fun q hq => EchoChannels.runClient_others hrun hq) hrequests hresponses
  | getting attempt =>
    have hstand : s.standsAt (.client pid) = some (.client pid, .get) := by
      simp only [State.standsAt, hpc]
    rw [hpc] at hstep hpc'
    refine h.client_call_recorded hI hr hstand hstep (by rw [hpc]; rfl)
      (by simp [hpc, ClientAt.view]) (fun hcopying k a' hk hreach hrun => ?_) hsteps
    rw [past_eq hstand, hcopying, past_copying] at hpc'
    obtain ⟨msg, rest, hqueue, hitem, -⟩ := (h.holds _).copy_get hcopying hreach hk
    obtain ⟨hrequests, hresponses⟩ := EchoChannels.runClient_getting hpc' hqueue hrun
    have hfront : (s.channels (.client pid)).rb.front = recordBytes msg := by
      have hself := congrFun hitem (.client pid)
      rw [Function.update_self, hk] at hself
      change Function.update (s.channels (.client pid)).itemPtr (.client pid)
        (s.channels (.client pid)).rb.front (.client pid) = _ at hself
      rwa [Function.update_self] at hself
    exact hr.get hk (h.created_of_calling hI hstand) hfront
      (fun q hq => EchoChannels.runClient_others hrun hq) hrequests hresponses
  | destroying d =>
    rw [hpc] at hstep hpc'
    refine recorded_of_plain (by simp [hpc', ClientAt.view]) (by simp [hpc', ClientAt.view]) hsteps
      fun a' ha => ?_
    dsimp only at hstep
    split at hstep
    next u d' hu =>
      obtain rfl := plain_spec hstep
      exact hr.destroy (by rw [hu]; rfl) (by rw [hu]; rfl) ha
    next u hu =>
      obtain rfl := plain_spec hstep
      exact hr.destroy (by rw [hu]; rfl) (by rw [hu]; rfl) ha
  | closing d =>
    have hkept := h.client_closes hI hpc
    rw [hpc] at hstep hpc'
    refine recorded_of_plain (by simp [hpc', ClientAt.view]) (by simp [hpc', ClientAt.view]) hsteps
      fun a' ha => ?_
    simp only [hkept] at hstep
    obtain rfl := plain_spec hstep
    exact hr.congr id (fun _ => ⟨rfl, rfl⟩) ha
  | done =>
    rw [hpc] at hstep
    cases hstep

end Clients

section Server

/-- A put adds to what was put, and a get to what was got. -/
theorem CallStep.histories {k' : MutexChannel.State Process} (h : CallStep k p c m k') :
    (k'.puts = k.puts ∨ ∃ item, c = .put item) ∧ (k'.gets = k.gets ∨ c = .get) := by
  cases h with
  | returned w n hpc => exact ⟨.inl rfl, .inl rfl⟩
  | copied hpc =>
    cases c with
    | put item => exact ⟨.inr ⟨item, rfl⟩, .inl rfl⟩
    | get => exact ⟨.inl rfl, .inr rfl⟩
  | moved _ q _ hm hsignaling hq hpast hpc hputs hgets hitem => exact ⟨.inl hputs, .inl hgets⟩

/-- The server gets from the request channel and puts into the others. -/
theorem Follows.server_call_recorded (h : Follows s a) (hr : Recorded s a)
    (hstand : s.standsAt .server = some (ch, c)) {x : State → ServerAt}
    (hcall : s.call .server ch c m (fun u => { u with server := x u }) = some t)
    (hwhere : (ch = .server ∧ c = .get) ∨ (ch ≠ .server ∧ ∃ item, c = .put item))
    (hserver : s.server ≠ .creating) (hx : ∀ u, x u ≠ .creating)
    (hclients : a'.clients = a.clients) : Recorded t a' := by
  obtain ⟨k, -, hstep, rfl⟩ := h.callStep hstand hcall
  obtain ⟨hputs, hgets⟩ := hstep.histories
  have hchannels : (m.finish (fun u => { u with server := x u }) (s.setChannel ch k)).channels =
      Function.update s.channels ch k := by cases m <;> rfl
  have hcreated : (m.finish (fun u => { u with server := x u }) (s.setChannel ch k)).server ≠
      .creating := by
    cases m with
    | signal w => exact hx _
    | step | wake => exact hserver
  refine hr.unmoved (fun q => ?_) (fun q => ?_) (fun hs => absurd hs hcreated)
    fun q => by rw [hclients]; exact ⟨rfl, rfl⟩
  · rw [State.requests, hchannels]
    rcases hwhere with ⟨rfl, rfl⟩ | ⟨hne, -⟩
    · rw [Function.update_self, hputs.resolve_right fun ⟨_, he⟩ => Call.noConfusion he]
      rfl
    · rw [Function.update_of_ne hne.symm]
      rfl
  · rw [State.responses, hchannels]
    rcases eq_or_ne (Process.client q) ch with rfl | hne
    · rcases hwhere with ⟨hrequest, -⟩ | ⟨-, item, rfl⟩
      · cases hrequest
      · rw [Function.update_self, hgets.resolve_right Call.noConfusion]
        rfl
    · rw [Function.update_of_ne hne]
      rfl

/-- Every step of the server keeps the histories of the clients. -/
theorem Follows.runServer_recorded (h : Follows s a) (hI : EchoChannels.Inv a) (hr : Recorded s a)
    (hstep : s.runServer m = some t) :
    (Follows t a ∧ Recorded t a) ∨ ∃ a', a.runServer = some a' ∧ Follows t a' ∧ Recorded t a' := by
  have hrecorded : ∀ a' : EchoChannels.State, a'.clients = a.clients → Recorded t a' := by
    intro a' ha
    have hsame : ∀ q, (a'.clients q).requests = (a.clients q).requests ∧
        (a'.clients q).responses = (a.clients q).responses := fun q => by rw [ha]; exact ⟨rfl, rfl⟩
    have hview := h.server
    unfold State.runServer at hstep
    cases hserver : s.server with
    | creating =>
      rw [hserver] at hstep
      obtain rfl := plain_spec hstep
      refine hr.unmoved (fun q => ?_) (fun q => ?_) ServerAt.noConfusion hsame
      · have hnew : ({ s.mcCreate .server echoServiceName with
            server := .getting } : State).requests q = [] := by
          simp [State.requests, State.mcCreate, copiesOf]
        rw [hnew, State.requests, hr.fresh hserver]
        rfl
      · have hother : (s.mcCreate .server echoServiceName).channels (.client q) =
            s.channels (.client q) := mcCreate_of_ne Process.noConfusion
        exact congrArg (fun k => copiesOf (.client q) (MutexChannel.State.gets k)) hother
    | getting =>
      rw [hserver] at hstep
      have hstand : s.standsAt .server = some (.server, .get) := by rw [State.standsAt, hserver]
      exact h.server_call_recorded hr hstand hstep (.inl ⟨rfl, rfl⟩)
        (by rw [hserver]; exact ServerAt.noConfusion) (fun _ => ServerAt.noConfusion) ha
    | opening msg =>
      rw [hserver] at hstep
      dsimp only at hstep
      split at hstep
      all_goals
        obtain rfl := plain_spec hstep
        exact hr.congr ServerAt.noConfusion (fun _ => ⟨rfl, rfl⟩) hsame
    | putting msg resp =>
      rw [hserver] at hstep
      have hstand : s.standsAt .server = some (resp, .put msg) := by rw [State.standsAt, hserver]
      rw [ServerView, hserver] at hview
      obtain ⟨n, rfl, hpc⟩ := hview
      have hresp : resp ≠ .server := by
        split at hpc
        next => exact hI.closing resp _ hpc
        next =>
          rw [hI.target n resp hpc]
          exact Process.noConfusion
      exact h.server_call_recorded hr hstand hstep (.inr ⟨hresp, _, rfl⟩)
        (by rw [hserver]; exact ServerAt.noConfusion) (fun _ => ServerAt.noConfusion) ha
    | closing resp d =>
      rw [hserver] at hstep
      simp only [(h.server_closes hI hserver).2] at hstep
      obtain rfl := plain_spec hstep
      exact hr.congr ServerAt.noConfusion (fun _ => ⟨rfl, rfl⟩) hsame
    | destroying d =>
      rw [ServerView, hserver] at hview
      exact absurd hview hI.serving.1
    | done =>
      rw [hserver] at hstep
      cases hstep
  rcases h.runServer hI hstep with hsame | ⟨a', hrun, hfollows⟩
  · exact .inl ⟨hsame, hrecorded a rfl⟩
  · exact .inr ⟨a', hrun, hfollows, hrecorded a' (EchoChannels.runServer_clients hrun)⟩

end Server

/-- The statements, the calls that they refine and what is counted of these. -/
structure Matched (niters : Pid → ℕ) (s : State) (a : EchoChannels.State) : Prop where
  inv : EchoChannels.Inv a
  follows : Follows s a
  recorded : Recorded s a
  counted : ∀ pid, EchoChannels.Counted (niters pid) (a.clients pid)

section Runs

variable {niters : Pid → ℕ}

/-- At the start nothing was put. -/
theorem matched_started (hs : Started s) (hsize : ∀ pid, (s.clients pid).msg.msg.length = 256) :
    ∃ a, Matched niters s a := by
  obtain ⟨a, ha, -, hfollows⟩ := (refines_calls niters).init s hs
  have hempty : ∀ ch, (s.channels ch).puts = [] ∧ (s.channels ch).gets = [] := fun ch => by
    obtain ⟨buf, itemPtr, hk⟩ := hs.channels_eq ch
    rw [hk]
    exact ⟨rfl, rfl⟩
  refine ⟨a, EchoChannels.inv_reachable (.start ha), hfollows,
    ⟨fun _ => (hempty _).1, fun pid => ?_, fun pid => ?_⟩, fun pid => ?_⟩
  · rw [(ha.clients_eq pid).2.1, State.requests, (hempty _).1]
    rfl
  · rw [(ha.clients_eq pid).2.2, State.responses, (hempty _).2]
    rfl
  · obtain ⟨hpc, hrequests, -⟩ := ha.clients_eq pid
    refine ⟨?_, ?_⟩
    · rw [hpc, hrequests]
      rfl
    · rw [(hfollows.clients pid).msg_eq, hsize]

/-- The client is about to open the service, and it is not there. -/
def Misses (s : State) (pid : Pid) : Prop :=
  (s.clients pid).pc = .opening ∧ s.names echoServiceName = none

/-- In a run, the client found no service when it opened it. -/
def Missed (pid : Pid) (trace : List (Transition State (Process × Move))) : Prop :=
  ∃ x ∈ trace, x.label.1 = .client pid ∧ Misses x.source pid

/-- A client of which the service is missed above misses it. -/
theorem Follows.misses (h : Follows s a) {pid : Pid} (hpc : (a.clients pid).pc = .opening)
    (hname : a.names echoServiceName = none) : Misses s pid := by
  have hview := (h.clients pid).pc_eq
  rw [hpc] at hview
  refine ⟨?_, h.names ▸ hname⟩
  cases hat : (s.clients pid).pc with
  | opening => rfl
  | putting attempt | getting attempt =>
    rw [hat] at hview
    cases hpast : s.past (.client pid) <;> rw [hpast] at hview <;> cases hview
  | _ =>
    rw [hat] at hview
    cases hview

/-- Every statement keeps it so, and a client only gives up when it misses the service. -/
theorem Matched.step (h : Matched niters s a) (hint : ∀ pid, niters pid < 2 ^ 31)
    (hstep : s.next niters (p, m) = some t) :
    ∃ a', Matched niters t a' ∧ ∀ pid, (a'.clients pid).GaveUp (niters pid) →
      (a.clients pid).GaveUp (niters pid) ∨ p = .client pid ∧ Misses s pid := by
  cases p with
  | server =>
    obtain ⟨hfollows, hrecorded⟩ | ⟨a', hrun, hfollows, hrecorded⟩ :=
      h.follows.runServer_recorded h.inv h.recorded hstep
    · exact ⟨a, ⟨h.inv, hfollows, hrecorded, h.counted⟩, fun _ hgave => .inl hgave⟩
    · have hclients := EchoChannels.runServer_clients hrun
      refine ⟨a', ⟨h.inv.runServer hrun, hfollows, hrecorded, fun pid => ?_⟩, fun pid hgave => .inl ?_⟩
      · rw [hclients]
        exact h.counted pid
      · rwa [hclients] at hgave
  | client pid =>
    obtain ⟨hfollows, hrecorded⟩ | ⟨a', hrun, hfollows, hrecorded⟩ :=
      h.follows.runClient_recorded h.inv h.recorded (h.counted pid).made hstep
    · exact ⟨a, ⟨h.inv, hfollows, hrecorded, h.counted⟩, fun _ hgave => .inl hgave⟩
    · refine ⟨a', ⟨h.inv.runClient hrun, hfollows, hrecorded, fun q => ?_⟩, fun q hgave => ?_⟩
      · rcases eq_or_ne q pid with rfl | hq
        · exact (h.counted q).runClient (hint q) hrun
        · rw [EchoChannels.runClient_others hrun hq]
          exact h.counted q
      · rcases eq_or_ne q pid with rfl | hq
        · obtain ⟨hpc, hname⟩ := (h.counted q).gaveUp_step hrun hgave
          exact .inr ⟨rfl, h.follows.misses hpc hname⟩
        · rw [EchoChannels.runClient_others hrun hq] at hgave
          exact .inl hgave

/-- And so it is along every run. -/
theorem Matched.run {s₀ : State} {a₀ : EchoChannels.State}
    {trace : List (Transition State (Process × Move))} (h : Matched niters s₀ a₀)
    (hint : ∀ pid, niters pid < 2 ^ 31) (hrun : (service niters).Run s₀ trace t) :
    ∃ a, Matched niters t a ∧ ∀ pid, (a.clients pid).GaveUp (niters pid) →
      (a₀.clients pid).GaveUp (niters pid) ∨ Missed pid trace := by
  induction hrun with
  | nil => exact ⟨a₀, h, fun _ hgave => .inl hgave⟩
  | snoc _ hstep ih =>
    obtain ⟨a, ha, hmissed⟩ := ih
    obtain ⟨a', ha', hmisses⟩ := ha.step hint hstep
    refine ⟨a', ha', fun pid hgave => ?_⟩
    rcases hmisses pid hgave with hbefore | ⟨hp, hmisses⟩
    · refine (hmissed pid hbefore).imp_right fun ⟨x, hx, hlabel, hx'⟩ => ?_
      exact ⟨x, List.mem_append_left _ hx, hlabel, hx'⟩
    · exact .inr ⟨_, List.mem_append_right _ (List.mem_singleton.mpr rfl), hp, hmisses⟩

end Runs

/-- Nobody can go on, unless it wakes for no reason. -/
def Blocked (niters : Pid → ℕ) (s : State) : Prop :=
  ∀ p m, m ≠ .wake → s.next niters (p, m) = none

section Progress

variable {niters : Pid → ℕ}

variable (niters) in
/-- A process that stands at a call goes on with it. -/
theorem next_of_standsAt (hstand : s.standsAt p = some (ch, c)) (m : Move) :
    ∃ ret, s.next niters (p, m) = s.call p ch c m ret := by
  cases p with
  | server =>
    unfold State.standsAt at hstand
    dsimp only at hstand
    split at hstand
    next hpc =>
      cases hstand
      exact ⟨_, by simp only [State.next, State.runServer, hpc]; rfl⟩
    next msg resp hpc =>
      cases hstand
      exact ⟨_, by simp only [State.next, State.runServer, hpc]; rfl⟩
    next => cases hstand
  | client pid =>
    unfold State.standsAt at hstand
    dsimp only at hstand
    split at hstand
    next attempt hpc =>
      obtain ⟨rfl, rfl⟩ := Prod.mk.inj (Option.some.inj hstand)
      exact ⟨_, by simp only [State.next, State.runClient, hpc]; rfl⟩
    next attempt hpc =>
      obtain ⟨rfl, rfl⟩ := Prod.mk.inj (Option.some.inj hstand)
      exact ⟨_, by simp only [State.next, State.runClient, hpc]; rfl⟩
    next => cases hstand

/-- So a blocked process is blocked in its channel. -/
theorem Blocked.call (h : Blocked niters s) (hstand : s.standsAt p = some (ch, c))
    (hm : m ≠ .wake) : (s.channels ch).next (p, m.action (s.channels ch) p c) = none := by
  obtain ⟨ret, hnext⟩ := next_of_standsAt niters hstand m
  have hnone := h p m hm
  rw [hnext] at hnone
  exact Option.map_eq_none_iff.mp hnone

/-- Then nobody can go on in any channel. -/
theorem Blocked.stuck (h : Blocked niters s) (hfollows : Follows s a) (ch : Process) :
    Stuck (s.channels ch) := by
  intro p
  cases hcall : ((s.channels ch).pc p).call? with
  | none =>
    have hidle : (s.channels ch).pc p = .idle := by
      cases hpc : (s.channels ch).pc p with
      | idle => rfl
      | _ => simp [hpc, Pc.call?] at hcall
    exact ⟨by simp [MutexChannel.State.run, hidle], fun w => by
      simp [MutexChannel.State.next, hidle]⟩
  | some c =>
    have hstand := hfollows.seated ch p c hcall
    have hbusy : (s.channels ch).pc p ≠ .idle := fun hidle => by simp [hidle, Pc.call?] at hcall
    refine ⟨?_, fun w => h.call hstand (m := .signal w) Move.noConfusion⟩
    have hnone := h.call hstand (m := .step) Move.noConfusion
    rw [Move.action, if_neg hbusy] at hnone
    exact hnone

/-- The counter of a channel whose mutex is free. -/
theorem Holds.size_eq {f : BoundedFifo.Fifo Message} (h : Holds ch k f)
    (hfree : k.monitor.holder = none) :
    k.rb.size = f.queue.length ∧ k.rb.capacity = ch.capacity ∧ k.rb.elemSize = sizeofMsg := by
  obtain ⟨hsize, hcapacity, helem⟩ := size_of_free (shape ch) h.reachable hfree
  have hlength := congrArg List.length h.queued
  rw [List.length_append, List.length_map, List.length_map, List.length_map] at hlength
  exact ⟨by omega, hcapacity, helem⟩

/-- The waiting and the counters of a channel. -/
theorem Holds.wakeInv {f : BoundedFifo.Fifo Message} (h : Holds ch k f) :
    WakeInv (shape ch).capacity k :=
  wakeInv_reachable (shape ch).capacity_pos (shape ch).capacity_le h.reachable

/-- A blocked process has its copy before it. -/
theorem Blocked.unpast (h : Blocked niters s) (hfollows : Follows s a) (p : Process) :
    s.past p = false := by
  cases hstand : s.standsAt p with
  | none => rw [State.past, hstand]
  | some x =>
    rw [past_eq (c := x.2) hstand]
    rcases (h.stuck hfollows x.1).idle_or_asleep (hfollows.holds x.1).wakeInv.holding p with
      hpc | ⟨d, hpc, -⟩
    · rw [hpc]
      rfl
    · rw [hpc]
      rfl

/-- A blocked process that is in a call sleeps there, and finds nothing. -/
theorem Blocked.asleep (h : Blocked niters s) (hfollows : Follows s a)
    (hstand : s.standsAt p = some (ch, c))
    (hitem : ∀ item, c = .put item → (item.length : ℤ) = sizeofMsg) :
    (s.channels ch).pc p = .waiting c ∧ c.blocked (s.channels ch).rb ∧
      (s.channels ch).rb.size = (a.channels ch).queue.length ∧
      (s.channels ch).rb.capacity = ch.capacity := by
  have hholds := hfollows.holds ch
  have hstuck := h.stuck hfollows ch
  have hwake := hholds.wakeInv
  obtain ⟨hsize, hcapacity, helem⟩ := hholds.size_eq (hstuck.free hwake.holding)
  rcases hstuck.idle_or_asleep hwake.holding p with hidle | ⟨d, hd, -⟩
  · -- the call could start
    have hnone := h.call hstand (m := .step) Move.noConfusion
    have hwf : c.WellFormed (s.channels ch).rb := by
      cases c with
      | put item => exact (hitem item rfl).trans helem.symm
      | get => trivial
    simp [Move.action, hidle, MutexChannel.State.next, hwf] at hnone
  · have hcall := hfollows.seated ch p d (by rw [hd]; rfl)
    rw [hstand] at hcall
    cases hcall
    exact ⟨hd, hstuck.blocked hwake hd, hsize, hcapacity⟩

/-- A blocked server waits for a request, and there is none. -/
theorem Matched.server_blocked (h : Matched niters s a) (hblocked : Blocked niters s) :
    s.server = .getting ∧ (s.channels .server).pc .server = .waiting .get ∧
      a.server = .getting ∧ (a.channels .server).queue = [] := by
  have hI := h.inv
  have hview := h.follows.server
  have hunpast := hblocked.unpast h.follows .server
  have hnone := hblocked .server .step Move.noConfusion
  simp only [State.next, State.runServer] at hnone
  cases hserver : s.server with
  | creating => simp [hserver, Move.plain] at hnone
  | getting =>
    have hstand : s.standsAt .server = some (.server, .get) := by rw [State.standsAt, hserver]
    obtain ⟨hpc, hempty, hsize, -⟩ := hblocked.asleep h.follows hstand fun _ => Call.noConfusion
    have hzero : (s.channels .server).rb.size = 0 := hempty
    rw [ServerView, hserver] at hview
    dsimp only at hview
    rw [hunpast, if_neg Bool.false_ne_true] at hview
    exact ⟨rfl, hpc, hview, List.length_eq_zero_iff.mp (by omega)⟩
  | opening msg =>
    rw [hserver] at hnone
    dsimp only at hnone
    split at hnone <;> cases hnone
  | putting msg resp =>
    have hstand : s.standsAt .server = some (resp, .put msg) := by rw [State.standsAt, hserver]
    rw [ServerView, hserver] at hview
    obtain ⟨n, rfl, hpc⟩ := hview
    rw [hunpast, if_neg Bool.false_ne_true] at hpc
    -- the message in the hand is the last one of its sender, whose channel is empty
    obtain ⟨hempty, hmsg⟩ := hI.response_empty (m := n) (by rw [hpc]; exact List.mem_cons_self)
    obtain rfl := hI.target n resp hpc
    obtain ⟨-, hfull, hsize, hcapacity⟩ := hblocked.asleep h.follows hstand fun item hitem => by
      cases hitem
      rw [length_recordBytes, hmsg, (h.counted n.sender).size]
      rfl
    have hsame : (s.channels (.client n.sender)).rb.size =
        (s.channels (.client n.sender)).rb.capacity := hfull
    rw [hsize, hcapacity, hempty] at hsame
    cases hsame
  | closing resp d =>
    rw [hserver] at hnone
    simp [(h.follows.server_closes hI hserver).2, Move.plain] at hnone
  | destroying d =>
    rw [ServerView, hserver] at hview
    exact absurd hview hI.serving.1
  | done =>
    rw [ServerView, hserver] at hview
    exact absurd hview hI.serving.2

/-- While the server waits for a request that nobody put, a blocked client is done. -/
theorem Matched.client_blocked (h : Matched niters s a) (hblocked : Blocked niters s) (pid : Pid) :
    (s.clients pid).pc = .done := by
  obtain ⟨hserver, -, hgetting, hqueue⟩ := h.server_blocked hblocked
  have hI := h.inv
  have hview := h.follows.clients pid
  have hpc' := hview.pc_eq
  rw [hblocked.unpast h.follows] at hpc'
  have hnone := hblocked (.client pid) .step Move.noConfusion
  simp only [State.next, State.runClient] at hnone
  cases hpc : (s.clients pid).pc with
  | opening | testing =>
    rw [hpc] at hnone
    dsimp only at hnone
    split at hnone <;> cases hnone
  | creating => simp [hpc, Move.plain] at hnone
  | putting attempt =>
    have hstand : s.standsAt (.client pid) =
        some ((s.clients pid).channel, .put (recordBytes (s.clients pid).msg)) := by
      simp only [State.standsAt, hpc]
    rw [hpc] at hpc'
    have hopened := (hI.clients pid).opened (by rw [hpc']; trivial)
    rw [← hview.channel_eq, hopened.1] at hstand
    obtain ⟨-, hfull, hsize, hcapacity⟩ := hblocked.asleep h.follows hstand fun item hitem => by
      cases hitem
      rw [length_recordBytes, ← hview.msg_eq, (h.counted pid).size]
      rfl
    have hsame : (s.channels .server).rb.size = (s.channels .server).rb.capacity := hfull
    rw [hsize, hcapacity, hqueue] at hsame
    cases hsame
  | getting attempt =>
    have hstand : s.standsAt (.client pid) = some (.client pid, .get) := by
      simp only [State.standsAt, hpc]
    obtain ⟨-, hempty, hsize, -⟩ := hblocked.asleep h.follows hstand fun _ => Call.noConfusion
    have hzero : (s.channels (.client pid)).rb.size = 0 := hempty
    have hown : (a.channels (.client pid)).queue = [] := List.length_eq_zero_iff.mp (by omega)
    refine absurd ?_ (hI.not_awaiting (by rw [hgetting]; rfl) hqueue hown)
    rw [hpc', hpc]
    trivial
  | destroying d =>
    rw [hpc] at hnone
    dsimp only at hnone
    split at hnone <;> cases hnone
  | closing d =>
    rw [hpc] at hnone
    simp [h.follows.client_closes hI hpc, Move.plain] at hnone
  | done => rfl

/-- A client that is done got back what it put. -/
theorem Matched.done (h : Matched niters s a) {pid : Pid} (hpc : (s.clients pid).pc = .done) :
    s.responses pid = s.requests pid ∧
      (s.requests pid = [] ∨ (s.requests pid).length = niters pid) := by
  have hpc' := (h.follows.clients pid).pc_eq
  rw [hpc] at hpc'
  have hmade := (h.counted pid).made
  rw [hpc'] at hmade
  have hsame := h.inv.responses_eq pid (by rw [hpc']; exact id)
  rw [h.recorded.responses, h.recorded.requests, hsame, List.length_map]
  refine ⟨rfl, hmade.imp_left fun hzero => ?_⟩
  rw [List.length_eq_zero_iff.mp hzero, List.map_nil]

end Progress

/-- The moves of a run in which somebody wakes for no reason. -/
def wakeUps (trace : List (Transition State (Process × Move))) : ℕ :=
  trace.countP fun x => x.label.2 = .wake

theorem sum_gain (trace : List (Transition State (Process × Move))) :
    (trace.map fun x => x.label.2.gain).sum = 3 * wakeUps trace := by
  induction trace with
  | nil => rfl
  | cons x trace ih =>
    rw [List.map_cons, List.sum_cons, ih, wakeUps, wakeUps, List.countP_cons]
    cases x.label.2 with
    | step | signal => simp [Move.gain]
    | wake =>
      simp only [Move.gain, decide_true, if_true]
      omega

/-- The work that is left at the start. -/
theorem workLeft_started {niters : Pid → ℕ} (hs : Started s) :
    workLeft niters s = (∑ pid, (100 * niters pid + 9)) + 50 := by
  have hwaiting : s.waiting = 0 := by
    obtain ⟨buf, itemPtr, hk⟩ := hs.channels_eq .server
    rw [State.waiting, hk]
    rfl
  have hclients : ∀ pid, s.left niters (.client pid) = 100 * niters pid + 9 := fun pid => by
    simp only [State.left, hs.clients_eq, ClientAt.left]
  have hserver : s.left niters .server = 50 := by
    simp only [State.left, hs.server_eq, ServerAt.left]
  rw [workLeft, sum_processes, hwaiting, hserver, Finset.sum_congr rfl fun pid _ => hclients pid]
  omega

/-- Every statement takes something off the work that is left, up to what a wake-up gives back. -/
theorem workLeft_lt {niters : Pid → ℕ} (hs : (service niters).Reachable s)
    (hstep : s.next niters (p, m) = some t) : workLeft niters t < workLeft niters s + m.gain := by
  obtain ⟨a, hI, hfollows⟩ := follows_reachable hs
  cases p with
  | server => exact hfollows.runServer_left hI hstep
  | client pid => exact hfollows.runClient_left hI hstep

/-- So from everywhere somebody can go on until nobody can. -/
theorem exists_blocked {niters : Pid → ℕ} (hs : (service niters).Reachable s) :
    ∃ trace t, (service niters).Run s trace t ∧ Blocked niters t := by
  obtain ⟨t, hsteps, hblocked⟩ := hs.eventually (D := Blocked niters) (workLeft niters)
    fun u hu hgoes => by
      simp only [Blocked, not_forall] at hgoes
      obtain ⟨p, m, hm, hnext⟩ := hgoes
      obtain ⟨t, ht⟩ := Option.ne_none_iff_exists'.mp hnext
      have hless := workLeft_lt hu ht
      have hzero : m.gain = 0 := by
        cases m with
        | step | signal => rfl
        | wake => exact absurd rfl hm
      exact ⟨(p, m), t, ht, by omega⟩
  obtain ⟨trace, hrun⟩ := hsteps.exists_run
  exact ⟨trace, t, hrun, hblocked⟩

end SistemasOperativos.EchoStatements
