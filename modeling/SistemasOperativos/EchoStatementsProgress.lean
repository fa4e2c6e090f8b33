import SistemasOperativos.EchoStatementsRefinement
import SistemasOperativos.MutexChannelProgress

/-!
# The statements that are left of the echo service

Every statement takes something off the work that is left: the statements of the
call in which a process stands, those of its later calls, and the ones that the
server needs for each request in the request channel. Only a process that wakes
gives some back, and a signal pays for the sleeper that it wakes.
-/

namespace SistemasOperativos.EchoStatements

open TransitionRuns MachineInt MutexChannel Census
open ByteMemory (Byte)
open EchoChannels (Pid Process Message respName echoServiceName)

/-- The server, and a client for each process number. -/
def processes : Option Pid ≃ Process where
  toFun o := o.elim .server .client
  invFun
    | .server => none
    | .client pid => some pid
  left_inv o := by cases o <;> rfl
  right_inv p := by cases p <;> rfl

instance : Fintype Process := Fintype.ofEquiv _ processes

theorem sum_processes (f : Process → ℕ) : ∑ p, f p = f .server + ∑ pid, f (.client pid) := by
  rw [← Equiv.sum_comp processes, Fintype.sum_option]
  rfl

/-- Where a process stands in its call. -/
def State.place (s : State) (p : Process) : Place :=
  match s.standsAt p with
  | some (ch, _) => (s.channels ch).place p
  | none => (.idle, false)

/-- The statements of `mc_destroy` by the owner, and the one after them. -/
def Teardown.left : Teardown → ℕ
  | .testing => 6
  | .destroying .hasItems => 5
  | .destroying .hasSpace => 4
  | .destroying .lock => 3
  | .unmapping => 2

/-- The statements of the server up to its next message. -/
def ServerAt.left (x : Place) : ServerAt → ℕ
  | .creating => 50
  | .getting => (if past x.1 then 40 else 0) + callLeft x
  | .opening _ => 41
  | .putting _ _ => 20 + callLeft x
  | .closing _ _ => 21
  | .destroying _ | .done => 0

/-- The statements of a client, with 40 of the server for each request that it has still
to put. -/
def ClientAt.left (niters : ℕ) (x : Place) : ClientAt → ℕ
  | .opening => 100 * niters + 9
  | .creating => 100 * niters + 8
  | .testing k => 100 * (niters + 1 - k) + 7
  | .putting k => 100 * (niters - k) + 7 + ((if past x.1 then 20 else 60) + callLeft x)
  | .getting k => 100 * (niters - k) + 7 + callLeft x
  | .destroying d => d.left
  | .closing _ => 1
  | .done => 0

/-- The statements that are left to a process. -/
def State.left (niters : Pid → ℕ) (s : State) : Process → ℕ
  | .server => s.server.left (s.place .server)
  | .client pid => (s.clients pid).pc.left (niters pid) (s.place (.client pid))

/-- Requests in the request channel. -/
def State.waiting (s : State) : ℕ :=
  (s.channels .server).puts.length - (s.channels .server).gets.length

/-- The work that is left, with 40 statements for each request in the request channel. -/
def workLeft (niters : Pid → ℕ) (s : State) : ℕ := (∑ p, s.left niters p) + 40 * s.waiting

section Frames

variable {niters : Pid → ℕ} {s t : State} {p q : Process} {d : ℕ}

variable (niters) in
/-- Same control, and a place that costs at most so much more. -/
theorem left_le (hserver : q = .server → t.server = s.server)
    (hclient : ∀ pid, q = .client pid → (t.clients pid).pc = (s.clients pid).pc)
    (hpast : past (t.place q).1 = past (s.place q).1)
    (hcall : callLeft (t.place q) ≤ callLeft (s.place q) + d) :
    t.left niters q ≤ s.left niters q + d := by
  cases q with
  | server =>
    simp only [State.left, hserver rfl]
    cases s.server <;> simp only [ServerAt.left, hpast] <;> omega
  | client pid =>
    simp only [State.left, hclient pid rfl]
    cases (s.clients pid).pc <;> simp only [ClientAt.left, hpast] <;> omega

/-- Every process but one has as much left as before, but for a sleeper that is woken. -/
theorem workLeft_add_le (w : Option Process)
    (hothers : ∀ q, q ≠ p → t.left niters q ≤ s.left niters q + if w = some q then d else 0) :
    workLeft niters t + (s.left niters p + 40 * s.waiting) ≤
      workLeft niters s + (t.left niters p + 40 * t.waiting) + d := by
  have hsum := sum_moved p w d hothers
  unfold workLeft
  omega

end Frames

section Calls

variable {niters : Pid → ℕ} {s t : State} {a : EchoChannels.State} {p ch : Process} {c : Call}
  {k : MutexChannel.State Process} {ret : State → State}

theorem place_eq (hstand : s.standsAt p = some (ch, c)) : s.place p = (s.channels ch).place p := by
  rw [State.place, hstand]

/-- A process that is in no call has a whole call before it. -/
theorem place_idle (hidle : ∀ ch, (s.channels ch).pc p = .idle) : s.place p = (.idle, false) := by
  unfold State.place
  split
  next ch c hstand =>
    rw [place_of_not_waiting (by rw [hidle]; exact fun _ => MutexChannel.Pc.noConfusion), hidle]
  next => rfl

/-- A channel that changes, for a process that stands where it stood. -/
theorem place_channel (hstand : t.standsAt p = s.standsAt p)
    (hchannels : t.channels = Function.update s.channels ch k) :
    t.place p = s.place p ∨
      ∃ c, s.standsAt p = some (ch, c) ∧ t.place p = k.place p ∧
        s.place p = (s.channels ch).place p := by
  cases hs : s.standsAt p with
  | none =>
    left
    rw [State.place, State.place, hstand, hs]
  | some x =>
    obtain ⟨r, c⟩ := x
    rcases eq_or_ne r ch with rfl | hr
    · refine .inr ⟨c, rfl, ?_, place_eq hs⟩
      rw [place_eq (hstand.trans hs), hchannels, Function.update_self]
    · left
      rw [place_eq (hstand.trans hs), place_eq hs, hchannels, Function.update_of_ne hr]

theorem setChannel_place (hstand : s.standsAt p = some (ch, c)) :
    (s.setChannel ch k).place p = k.place p := by
  have hstand' : (s.setChannel ch k).standsAt p = some (ch, c) := hstand
  rw [place_eq hstand']
  simp only [State.setChannel, Function.update_self]

theorem setChannel_waiting : (s.setChannel ch k).waiting =
    if ch = .server then k.puts.length - k.gets.length else s.waiting := by
  unfold State.waiting State.setChannel
  split
  next he => simp only [he, Function.update_self]
  next hne => simp only [Function.update_of_ne (Ne.symm hne)]

/-- The same numbers of elements were put and got. -/
theorem setChannel_waiting_eq (hputs : k.puts = (s.channels ch).puts)
    (hgets : k.gets = (s.channels ch).gets) : (s.setChannel ch k).waiting = s.waiting := by
  rw [setChannel_waiting]
  split
  next he => rw [hputs, hgets, he, State.waiting]
  next => rfl

/-- A statement is neither a signal nor a wake-up. -/
theorem action_step (k : MutexChannel.State Process) (p : Process) (c : Call) :
    (∀ w, Move.step.action k p c ≠ .signal w) ∧ Move.step.action k p c ≠ .wake := by
  simp only [Move.action]
  split <;> simp

/-- What a statement of a call does to the work that is left: less is left of the call, or
its element is copied. -/
inductive CallProgress (s t : State) (p ch : Process) (c : Call) : Prop
  | on : t.waiting = s.waiting → past (t.place p).1 = past (s.place p).1 →
      callLeft (t.place p) < callLeft (s.place p) → CallProgress s t p ch c
  | copied : s.place p = (.copying c, false) → t.place p = (.advancing c, false) →
      (ch ≠ .server → t.waiting = s.waiting) →
      (c = .get → ch = .server → t.waiting + 1 = s.waiting) → t.waiting ≤ s.waiting + 1 →
      CallProgress s t p ch c

/-- A statement of a call. -/
theorem Follows.call_step (h : Follows s a) (hstand : s.standsAt p = some (ch, c))
    (hcall : s.call p ch c .step ret = some t) :
    t.server = s.server ∧ t.clients = s.clients ∧ (∀ q, q ≠ p → t.place q = s.place q) ∧
      CallProgress s t p ch c := by
  obtain ⟨k, hnext, rfl⟩ := Option.map_eq_some_iff.mp hcall
  have hcalls : ∀ d, ((s.channels ch).pc p).call? = some d → d = c := by
    intro d hd
    have hseated := h.seated ch p d hd
    rw [hstand] at hseated
    cases hseated
    rfl
  have hreach := (h.holds ch).reachable.next hnext
  have hstep := next_callStep hnext hcalls
  obtain ⟨hsignal, hwake⟩ := action_step (s.channels ch) p c
  have hbefore := place_eq hstand
  show (s.setChannel ch k).server = _ ∧ (s.setChannel ch k).clients = _ ∧
    (∀ q, q ≠ p → (s.setChannel ch k).place q = s.place q) ∧ CallProgress s (s.setChannel ch k) p ch c
  refine ⟨rfl, rfl, fun q hq => ?_, ?_⟩
  · rcases place_channel (t := s.setChannel ch k) (s := s) (p := q) rfl rfl with
      hsame | ⟨d, -, hk, hs⟩
    · exact hsame
    · rw [hk, hs]
      exact place_other hnext hq (hsignal _)
  · cases hstep with
    | copied hpc =>
      have hself : (((s.channels ch).transfer p c).goto p (.advancing c)).pc p = .advancing c :=
        goto_self _ _
      have hle := gets_le_puts (shape ch) hreach
      have hle' := gets_le_puts (shape ch) (h.holds ch).reachable
      refine .copied ?_ ?_ ?_ ?_ ?_
      · rw [hbefore,
          place_of_not_waiting (by rw [hpc]; exact fun _ => MutexChannel.Pc.noConfusion), hpc]
      · rw [setChannel_place hstand,
          place_of_not_waiting (by rw [hself]; exact fun _ => MutexChannel.Pc.noConfusion),
          hself]
      · intro hne
        rw [setChannel_waiting, if_neg hne]
      · rintro rfl rfl
        rw [setChannel_waiting, if_pos rfl]
        simp only [State.waiting, MutexChannel.State.transfer, MutexChannel.State.goto,
          List.length_append, List.length_singleton] at hle ⊢
        omega
      · rw [setChannel_waiting]
        split
        next he =>
          subst he
          cases c <;> simp only [State.waiting, MutexChannel.State.transfer,
            MutexChannel.State.goto, List.length_append, List.length_singleton] <;> omega
        next => omega
    | moved _ q _ hm hnot hq hpast hpc hputs hgets hitem =>
      refine .on (setChannel_waiting_eq hputs hgets) ?_ ?_
      · rw [setChannel_place hstand, hbefore]
        show past (k.pc p) = past ((s.channels ch).pc p)
        rw [hpc, Function.update_self, hpast]
      · rw [setChannel_place hstand, hbefore]
        exact callLeft_own hnext hsignal hwake

/-- A process in a call wakes. -/
theorem call_wake (hstand : s.standsAt p = some (ch, c))
    (hcall : s.call p ch c .wake ret = some t) :
    t.server = s.server ∧ t.clients = s.clients ∧ t.waiting = s.waiting ∧
      (∀ q, past (t.place q).1 = past (s.place q).1) ∧
      (∀ q, q ≠ p → callLeft (t.place q) ≤ callLeft (s.place q)) ∧
      callLeft (t.place p) ≤ callLeft (s.place p) + 2 := by
  obtain ⟨k, hnext, rfl⟩ := Option.map_eq_some_iff.mp hcall
  have hpc := wake_pc hnext
  have hexecuted : k.puts = (s.channels ch).puts ∧ k.gets = (s.channels ch).gets := by
    simp only [MutexChannel.State.next, Move.action] at hnext
    split at hnext
    · obtain ⟨m, -, rfl⟩ := Option.map_eq_some_iff.mp hnext
      exact ⟨rfl, rfl⟩
    · cases hnext
  have hplace : ∀ q, (s.setChannel ch k).place q = s.place q ∨
      ∃ d, s.standsAt q = some (ch, d) ∧ (s.setChannel ch k).place q = k.place q ∧
        s.place q = (s.channels ch).place q := fun q => place_channel rfl rfl
  refine ⟨rfl, rfl, setChannel_waiting_eq hexecuted.1 hexecuted.2, fun q => ?_, fun q hq => ?_, ?_⟩
  · rcases hplace q with hsame | ⟨d, -, hk, hs⟩
    · rw [Move.finish, hsame]
    · rw [Move.finish, hk, hs]
      show past (k.pc q) = past ((s.channels ch).pc q)
      rw [hpc]
  · rcases hplace q with hsame | ⟨d, -, hk, hs⟩
    · rw [Move.finish, hsame]
    · rw [Move.finish, hk, hs, place_other hnext hq (by simp [Move.action])]
  · rw [Move.finish, setChannel_place hstand, place_eq hstand]
    exact callLeft_same_pc (congrFun hpc p)

/-- A process in a call signals and returns. -/
theorem Follows.call_signal (h : Follows s a) (hstand : s.standsAt p = some (ch, c))
    {w : Option Process} (hcall : s.call p ch c (.signal w) ret = some t) :
    ∃ k, t = ret (s.setChannel ch k) ∧ s.place p = (.signaling c, false) ∧
      k.pc = Function.update (s.channels ch).pc p .idle ∧
      (s.setChannel ch k).waiting = s.waiting ∧
      ∀ q, q ≠ p → past ((s.setChannel ch k).place q).1 = past (s.place q).1 ∧
        callLeft ((s.setChannel ch k).place q) ≤
          callLeft (s.place q) + if w = some q then 2 else 0 := by
  obtain ⟨k, hnext, rfl⟩ := Option.map_eq_some_iff.mp hcall
  have hcalls : ∀ d, ((s.channels ch).pc p).call? = some d → d = c := by
    intro d hd
    have hseated := h.seated ch p d hd
    rw [hstand] at hseated
    cases hseated
    rfl
  cases next_callStep hnext hcalls with
  | returned _ n hpc =>
    refine ⟨_, rfl, ?_, rfl, setChannel_waiting_eq rfl rfl, fun q hq => ?_⟩
    · rw [place_eq hstand,
          place_of_not_waiting (by rw [hpc]; exact fun _ => MutexChannel.Pc.noConfusion), hpc]
    · obtain ⟨hsame, -⟩ := next_other hnext hq
      rcases place_channel (t := s.setChannel ch _) (s := s) (p := q) rfl rfl with
        hkept | ⟨d, -, hk, hs⟩
      · rw [hkept]
        exact ⟨rfl, Nat.le_add_right _ _⟩
      · rw [hk, hs]
        refine ⟨congrArg past hsame, ?_⟩
        split
        next => exact callLeft_same_pc hsame
        next hw =>
          rw [place_other hnext hq fun he => hw (Action.signal.inj he)]
          exact Nat.le_refl _
  | moved _ q _ hm => exact absurd rfl (hm w)

end Calls

section Steps

variable {niters : Pid → ℕ} {s t : State} {a : EchoChannels.State} {p ch : Process} {c : Call}
  {ret : State → State}

/-- A server that is in a call waits for a request or puts a response, not into its own
channel. -/
theorem Follows.server_calling (h : Follows s a) (hI : EchoChannels.Inv a)
    (hstand : s.standsAt .server = some (ch, c)) :
    (s.server = .getting ∧ ch = .server ∧ c = .get) ∨
      ∃ msg resp, s.server = .putting msg resp ∧ ch = resp ∧ c = .put msg ∧ resp ≠ .server := by
  have hview := h.server
  unfold State.standsAt at hstand
  dsimp only at hstand
  split at hstand
  next hpc =>
    cases hstand
    exact .inl ⟨hpc, rfl, rfl⟩
  next msg resp hpc =>
    cases hstand
    rw [ServerView, hpc] at hview
    obtain ⟨m, -, hpc'⟩ := hview
    refine .inr ⟨msg, _, hpc, rfl, rfl, fun he => ?_⟩
    subst he
    split at hpc'
    next => exact hI.closing _ _ hpc' rfl
    next =>
      have htarget := hI.target _ _ hpc'
      cases htarget
  next => cases hstand

/-- A client that is in a call puts its request or waits for its response. -/
theorem Follows.client_calling (h : Follows s a) (hI : EchoChannels.Inv a) {pid : Pid}
    (hstand : s.standsAt (.client pid) = some (ch, c)) :
    (∃ k, (s.clients pid).pc = .putting k ∧ ch = .server ∧
        c = .put (recordBytes (s.clients pid).msg)) ∨
      ∃ k, (s.clients pid).pc = .getting k ∧ ch = .client pid ∧ c = .get := by
  have hcalling := (h.calling hI hstand).2
  unfold State.standsAt at hstand
  dsimp only at hstand
  split at hstand
  next k hpc =>
    cases hstand
    refine .inl ⟨k, hpc, ?_, rfl⟩
    rcases hcalling with ⟨hch, -⟩ | ⟨-, hget⟩
    · exact hch
    · cases hget
  next k hpc =>
    cases hstand
    exact .inr ⟨k, hpc, rfl, rfl⟩
  next => cases hstand

/-- A statement of a call. -/
theorem Follows.workLeft_call (h : Follows s a) (hI : EchoChannels.Inv a)
    (hstand : s.standsAt p = some (ch, c)) (hcall : s.call p ch c .step ret = some t) :
    workLeft niters t < workLeft niters s := by
  obtain ⟨hserver, hclients, hplace, hprogress⟩ := h.call_step hstand hcall
  have hothers : ∀ q, q ≠ p →
      t.left niters q ≤ s.left niters q + if none = some q then 0 else 0 := by
    intro q hq
    have hsame := hplace q hq
    have hle := left_le niters (d := 0) (fun _ => hserver)
      (fun pid _ => by rw [hclients]) (by rw [hsame]) (by rw [hsame]; exact Nat.le_refl _)
      (t := t) (s := s) (q := q)
    simpa using hle
  have hsum := workLeft_add_le none hothers
  have hown : t.left niters p + 40 * t.waiting < s.left niters p + 40 * s.waiting := by
    cases p with
    | server =>
      simp only [State.left, hserver]
      rcases h.server_calling hI hstand with ⟨hpc, rfl, rfl⟩ | ⟨msg, resp, hpc, rfl, rfl, hne⟩
      · cases hprogress with
        | on hwaiting hpast hless =>
          simp only [hpc, ServerAt.left, hpast, hwaiting]
          omega
        | copied hs ht hout hget hput =>
          have htaken := hget rfl rfl
          simp only [hpc, ServerAt.left, hs, ht, past, callLeft]
          simp only [Bool.false_eq_true, if_false, if_true]
          omega
      · cases hprogress with
        | on hwaiting hpast hless =>
          simp only [hpc, ServerAt.left, hwaiting]
          omega
        | copied hs ht hout hget hput =>
          have hwaiting := hout hne
          simp only [hpc, ServerAt.left, hs, ht, callLeft, hwaiting]
          omega
    | client pid =>
      simp only [State.left, hclients]
      rcases h.client_calling hI hstand with ⟨k, hpc, rfl, rfl⟩ | ⟨k, hpc, rfl, rfl⟩
      · cases hprogress with
        | on hwaiting hpast hless =>
          simp only [hpc, ClientAt.left, hpast, hwaiting]
          omega
        | copied hs ht hout hget hput =>
          simp only [hpc, ClientAt.left, hs, ht, past, callLeft]
          simp only [Bool.false_eq_true, if_false, if_true]
          omega
      · cases hprogress with
        | on hwaiting hpast hless =>
          simp only [hpc, ClientAt.left, hwaiting]
          omega
        | copied hs ht hout hget hput =>
          have hwaiting := hout Process.noConfusion
          simp only [hpc, ClientAt.left, hs, ht, callLeft, hwaiting]
          omega
  omega

variable (niters) in
/-- A process that wakes has two statements more before it. -/
theorem workLeft_wake (hstand : s.standsAt p = some (ch, c))
    (hcall : s.call p ch c .wake ret = some t) :
    workLeft niters t ≤ workLeft niters s + 2 := by
  obtain ⟨hserver, hclients, hwaiting, hpast, hcalls, hown⟩ := call_wake hstand hcall
  have hothers : ∀ q, q ≠ p →
      t.left niters q ≤ s.left niters q + if none = some q then 0 else 0 := by
    intro q hq
    have hle := left_le niters (d := 0) (fun _ => hserver)
      (fun pid _ => by rw [hclients]) (hpast q) (hcalls q hq) (t := t) (s := s) (q := q)
    simpa using hle
  have hsum := workLeft_add_le none hothers
  have hthis := left_le niters (d := 2) (fun _ => hserver)
    (fun pid _ => by rw [hclients]) (hpast p) hown (t := t) (s := s) (q := p)
  omega

/-- A signal and the return of its call. -/
theorem workLeft_signal {u : State} {w : Option Process}
    (hservers : p ≠ .server → t.server = s.server)
    (hclients : ∀ pid, p ≠ .client pid → t.clients pid = s.clients pid)
    (hchannels : t.channels = u.channels) (hsame : u.server = s.server ∧ u.clients = s.clients)
    (hwaiting : u.waiting = s.waiting)
    (hplace : ∀ q, q ≠ p → past (u.place q).1 = past (s.place q).1 ∧
      callLeft (u.place q) ≤ callLeft (s.place q) + if w = some q then 2 else 0)
    (hown : t.left niters p + 3 ≤ s.left niters p) : workLeft niters t < workLeft niters s := by
  have hothers : ∀ q, q ≠ p → t.left niters q ≤ s.left niters q + if w = some q then 2 else 0 := by
    intro q hq
    have hstand : t.standsAt q = u.standsAt q := by
      cases q with
      | server => exact standsAt_server ((hservers hq.symm).trans hsame.1.symm)
      | client pid =>
        exact standsAt_client ((hclients pid hq.symm).trans (congrFun hsame.2 pid).symm)
    have hthere : t.place q = u.place q := by
      simp only [State.place, hstand, hchannels]
    obtain ⟨hpast, hcall⟩ := hplace q hq
    rw [← hthere] at hpast hcall
    exact left_le niters (fun he => hservers (fun hp => hq (by rw [hp, he])))
      (fun pid he => by rw [hclients pid fun hp => hq (by rw [hp, he])]) hpast hcall
  have hsum := workLeft_add_le w hothers
  have hcount : t.waiting = s.waiting := by
    rw [← hwaiting, State.waiting, hchannels]
    rfl
  omega

/-- A process moves on outside its calls, and nobody is in a channel that is created. -/
theorem workLeft_plain (hservers : p ≠ .server → t.server = s.server)
    (hclients : ∀ pid, p ≠ .client pid → t.clients pid = s.clients pid)
    (hplace : ∀ q, q ≠ p → t.standsAt q = s.standsAt q → t.place q = s.place q)
    (hwaiting : t.waiting ≤ s.waiting) (hown : t.left niters p < s.left niters p) :
    workLeft niters t < workLeft niters s := by
  have hothers : ∀ q, q ≠ p →
      t.left niters q ≤ s.left niters q + if none = some q then 0 else 0 := by
    intro q hq
    have hstand : t.standsAt q = s.standsAt q := by
      cases q with
      | server => exact standsAt_server (hservers hq.symm)
      | client pid => exact standsAt_client (hclients pid hq.symm)
    have hthere := hplace q hq hstand
    have hle := left_le niters (d := 0)
      (fun he => hservers (fun hp => hq (by rw [hp, he])))
      (fun pid he => by rw [hclients pid fun hp => hq (by rw [hp, he])])
      (by rw [hthere]) (by rw [hthere]; exact Nat.le_refl _) (t := t) (s := s) (q := q)
    simpa using hle
  have hsum := workLeft_add_le none hothers
  omega

/-- The channels stay as they are. -/
theorem place_kept {q : Process} (hchannels : t.channels = s.channels)
    (hstand : t.standsAt q = s.standsAt q) : t.place q = s.place q := by
  simp only [State.place, hchannels, hstand]

/-- A channel is created in which nobody is. -/
theorem place_created {owner q : Process} (name : List Char)
    (hidle : ∀ p, (s.channels owner).pc p = .idle)
    (hchannels : t.channels = (s.mcCreate owner name).channels)
    (hstand : t.standsAt q = s.standsAt q) : t.place q = s.place q := by
  have hpcs := mcCreate_pc name hidle
  cases hs : s.standsAt q with
  | none => simp only [State.place, hstand, hs]
  | some x =>
    obtain ⟨ch, c⟩ := x
    rw [place_eq (hstand.trans hs), place_eq hs, hchannels]
    rcases eq_or_ne ch owner with rfl | hne
    · have hnew := (hpcs ch q).trans (hidle q)
      rw [place_of_not_waiting (by rw [hnew]; exact fun _ => MutexChannel.Pc.noConfusion), hnew,
        place_of_not_waiting (by rw [hidle]; exact fun _ => MutexChannel.Pc.noConfusion), hidle]
    · rw [mcCreate_of_ne hne]

/-- Nobody is in the request channel before it is created. -/
theorem Follows.request_unused (h : Follows s a) (hI : EchoChannels.Inv a)
    (hserver : s.server = .creating) (p : Process) : (s.channels .server).pc p = .idle := by
  have hview := h.server
  rw [ServerView, hserver] at hview
  refine h.idle fun c hc => ?_
  cases p with
  | server => simp [State.standsAt, hserver] at hc
  | client pid => exact (h.calling hI hc).1 hview

/-- Nor in the channel of a client. -/
theorem Follows.response_unused (h : Follows s a) (hI : EchoChannels.Inv a) {pid : Pid}
    (hpc : (s.clients pid).pc = .creating) (p : Process) :
    (s.channels (.client pid)).pc p = .idle := by
  refine h.idle fun c hc => ?_
  cases p with
  | server =>
    obtain ⟨msg, hserver, -⟩ := putting_of_standsAt hc
    have hstarted := h.served msg pid hserver
    rw [hpc] at hstarted
    exact hstarted
  | client q =>
    rcases (h.calling hI hc).2 with ⟨hrequest, -⟩ | ⟨hown, -⟩
    · cases hrequest
    · obtain rfl := Process.client.inj hown
      simp [State.standsAt, hpc] at hc

end Steps

section Processes

variable {niters : Pid → ℕ} {s t : State} {a : EchoChannels.State} {m : Move}

/-- What a wake-up gives back. -/
def Move.gain : Move → ℕ
  | .wake => 3
  | .step | .signal _ => 0

/-- Every statement of a call takes something off the work that is left, if its return does. -/
theorem Follows.call_left (h : Follows s a) (hI : EchoChannels.Inv a) {p ch : Process} {c : Call}
    {ret : State → State} (hstand : s.standsAt p = some (ch, c))
    (hcall : s.call p ch c m ret = some t)
    (hreturn : ∀ w, m = .signal w → workLeft niters t < workLeft niters s) :
    workLeft niters t < workLeft niters s + m.gain := by
  cases m with
  | step => exact Nat.lt_add_right _ (h.workLeft_call hI hstand hcall)
  | wake =>
    have hle := workLeft_wake niters hstand hcall
    simp only [Move.gain]
    omega
  | signal w => exact Nat.lt_add_right _ (hreturn w rfl)

variable (niters) in
/-- A process that is in no call has whole calls before it. -/
theorem server_left_idle (t : State) (hidle : ∀ ch, (t.channels ch).pc .server = .idle) :
    t.left niters .server = t.server.left (.idle, false) := by
  simp only [State.left, place_idle hidle]

variable (niters) in
theorem client_left_idle (t : State) {pid : Pid}
    (hidle : ∀ ch, (t.channels ch).pc (.client pid) = .idle) :
    t.left niters (.client pid) = (t.clients pid).pc.left (niters pid) (.idle, false) := by
  simp only [State.left, place_idle hidle]

/-- The server moves on outside its calls. -/
theorem Follows.server_plain_left (h : Follows s a) (hout : s.standsAt .server = none)
    {x : ServerAt} (hless : x.left (.idle, false) < s.server.left (.idle, false)) :
    workLeft niters { s with server := x } < workLeft niters s := by
  have hidle := h.out_idle hout
  refine workLeft_plain (p := .server) (fun hne => absurd rfl hne) (fun _ _ => rfl)
    (fun q _ hq => place_kept rfl hq) (Nat.le_refl _) ?_
  rw [server_left_idle niters s hidle, server_left_idle niters { s with server := x } hidle]
  exact hless

/-- The server returns from a call. -/
theorem Follows.server_return_left (h : Follows s a) {ch : Process} {c : Call}
    (hstand : s.standsAt .server = some (ch, c)) {w : Option Process} {x : State → ServerAt}
    (hcall : s.call .server ch c (.signal w) (fun u => { u with server := x u }) = some t)
    (hless : ∀ u y, (x u).left y + 3 ≤ s.server.left (.signaling c, false)) :
    workLeft niters t < workLeft niters s := by
  obtain ⟨k, rfl, hplace, hpc, hwaiting, hothers⟩ := h.call_signal hstand hcall
  refine workLeft_signal (p := .server) (u := s.setChannel ch k) (w := w)
    (fun hne => absurd rfl hne) (fun _ _ => rfl) rfl ⟨rfl, rfl⟩ hwaiting hothers ?_
  simp only [State.left, hplace]
  exact hless _ _

/-- Every step of the server takes something off the work that is left. -/
theorem Follows.runServer_left (h : Follows s a) (hI : EchoChannels.Inv a)
    (hstep : s.runServer m = some t) : workLeft niters t < workLeft niters s + m.gain := by
  have hview := h.server
  unfold State.runServer at hstep
  cases hserver : s.server with
  | creating =>
    rw [hserver] at hstep
    obtain rfl := plain_spec hstep
    have hout : s.standsAt .server = none := by rw [State.standsAt, hserver]
    have hunused := h.request_unused hI hserver
    have hidle := h.out_idle hout
    refine Nat.lt_add_right _ (workLeft_plain (p := .server) (fun hne => absurd rfl hne)
      (fun _ _ => rfl) (fun q _ hq => place_created echoServiceName hunused rfl hq) ?_ ?_)
    · simp [State.waiting, State.mcCreate]
    · have hafter := server_left_idle niters
        { s.mcCreate .server echoServiceName with server := .getting } fun ch =>
          (mcCreate_pc echoServiceName hunused ch .server).trans (hidle ch)
      rw [server_left_idle niters s hidle, hserver]
      refine hafter.trans_lt ?_
      simp [ServerAt.left, past, callLeft]
  | getting =>
    rw [hserver] at hstep
    have hstand : s.standsAt .server = some (.server, .get) := by rw [State.standsAt, hserver]
    refine h.call_left hI hstand hstep fun w hsignal => ?_
    subst hsignal
    refine h.server_return_left hstand hstep fun u y => ?_
    rw [hserver]
    exact Nat.le_refl _
  | opening msg =>
    rw [hserver] at hstep
    have hout : s.standsAt .server = none := by rw [State.standsAt, hserver]
    dsimp only at hstep
    split at hstep
    next =>
      obtain rfl := plain_spec hstep
      refine Nat.lt_add_right _ (h.server_plain_left hout ?_)
      rw [hserver]
      simp [ServerAt.left]
    next resp _ =>
      obtain rfl := plain_spec hstep
      refine Nat.lt_add_right _ (h.server_plain_left hout ?_)
      rw [hserver]
      simp only [ServerAt.left, callLeft]
      omega
  | putting msg resp =>
    rw [hserver] at hstep
    have hstand : s.standsAt .server = some (resp, .put msg) := by rw [State.standsAt, hserver]
    refine h.call_left hI hstand hstep fun w hsignal => ?_
    subst hsignal
    refine h.server_return_left hstand hstep fun u y => ?_
    rw [hserver]
    exact Nat.le_refl _
  | closing resp d =>
    rw [hserver] at hstep
    have hout : s.standsAt .server = none := by rw [State.standsAt, hserver]
    simp only [(h.server_closes hI hserver).2] at hstep
    obtain rfl := plain_spec hstep
    refine Nat.lt_add_right _ (h.server_plain_left hout ?_)
    rw [hserver]
    simp [ServerAt.left, past, callLeft]
  | destroying d =>
    rw [ServerView, hserver] at hview
    exact absurd hview hI.serving.1
  | done =>
    rw [hserver] at hstep
    cases hstep

variable {pid : Pid}

/-- A client moves on outside its calls. -/
theorem Follows.client_plain_left (h : Follows s a) (hout : s.standsAt (.client pid) = none)
    {u : State} (hu : Destroys (.client pid) s u) {c : Client}
    (hless : c.pc.left (niters pid) (.idle, false) <
      (s.clients pid).pc.left (niters pid) (.idle, false)) :
    workLeft niters (u.setClient pid c) < workLeft niters s := by
  obtain ⟨-, hchannels, hserver, hclients, -⟩ := hu
  have hidle := h.out_idle hout
  have hsame : (u.setClient pid c).channels = s.channels := hchannels
  refine workLeft_plain (p := .client pid) (fun _ => hserver) (fun q hq => ?_)
    (fun q _ hq => place_kept hsame hq) ?_ ?_
  · have hne : q ≠ pid := fun he => hq (by rw [he])
    exact (Function.update_of_ne hne _ _).trans (congrFun hclients q)
  · rw [State.waiting, hsame]
    exact Nat.le_refl _
  · rw [client_left_idle niters s hidle, client_left_idle niters _ fun ch => by rw [hsame, hidle],
      setClient_self]
    exact hless

/-- A client returns from a call. -/
theorem Follows.client_return_left (h : Follows s a) {ch : Process} {c : Call}
    (hstand : s.standsAt (.client pid) = some (ch, c)) {w : Option Process} {x : Client}
    (hcall : s.call (.client pid) ch c (.signal w) (fun u => u.setClient pid x) = some t)
    (hless : x.pc.left (niters pid) (.idle, false) + 3 ≤
      (s.clients pid).pc.left (niters pid) (.signaling c, false)) :
    workLeft niters t < workLeft niters s := by
  obtain ⟨k, rfl, hplace, hpc, hwaiting, hothers⟩ := h.call_signal hstand hcall
  have hidle := h.returned_idle hstand hpc
  refine workLeft_signal (p := .client pid) (u := s.setChannel ch k) (w := w) (fun _ => rfl)
    (fun q hq => ?_) rfl ⟨rfl, rfl⟩ hwaiting hothers ?_
  · have hne : q ≠ pid := fun he => hq (by rw [he])
    exact Function.update_of_ne hne _ _
  · rw [client_left_idle niters _ hidle, setClient_self]
    simp only [State.left, hplace]
    exact hless

/-- A statement of `mc_destroy` by the owner. -/
theorem mcDestroy_left (s : State) (p : Process) (d : Teardown) :
    (∀ d', (s.mcDestroy p p d).2 = some d' → d'.left < d.left) ∧
      ((s.mcDestroy p p d).2 = none → 1 < d.left) := by
  cases d with
  | testing => simp [State.mcDestroy, Teardown.left]
  | destroying part => cases part <;> simp [State.mcDestroy, Teardown.left]
  | unmapping => simp [State.mcDestroy, Teardown.left]

/-- Every step of a client takes something off the work that is left. -/
theorem Follows.runClient_left (h : Follows s a) (hI : EchoChannels.Inv a)
    (hstep : s.runClient (niters pid) pid m = some t) :
    workLeft niters t < workLeft niters s + m.gain := by
  simp only [State.runClient] at hstep
  cases hpc : (s.clients pid).pc with
  | opening =>
    have hout : s.standsAt (.client pid) = none := by simp only [State.standsAt, hpc]
    rw [hpc] at hstep
    dsimp only at hstep
    split at hstep
    all_goals
      obtain rfl := plain_spec hstep
      refine Nat.lt_add_right _ (h.client_plain_left hout (.refl _ s) ?_)
      rw [hpc]
      simp only [ClientAt.left]
      omega
  | creating =>
    have hout : s.standsAt (.client pid) = none := by simp only [State.standsAt, hpc]
    rw [hpc] at hstep
    obtain rfl := plain_spec hstep
    have hunused := h.response_unused hI hpc
    have hidle := h.out_idle hout
    refine Nat.lt_add_right _ (workLeft_plain (p := .client pid) (fun _ => rfl) (fun q hq => ?_)
      (fun q _ hq => place_created (respName pid) hunused rfl hq) ?_ ?_)
    · have hne : q ≠ pid := fun he => hq (by rw [he])
      exact Function.update_of_ne hne _ _
    · have hne : Process.server ≠ .client pid := Process.noConfusion
      simp [State.waiting, State.setClient, State.mcCreate, hne]
    · have hafter : ∀ (c : Client) ch, (((s.mcCreate (.client pid) (respName pid)).setClient pid
          c).channels ch).pc (.client pid) = .idle := fun c ch =>
        (mcCreate_pc (respName pid) hunused ch (.client pid)).trans (hidle ch)
      rw [client_left_idle niters s hidle, client_left_idle niters _ (hafter _), setClient_self, hpc]
      simp only [ClientAt.left]
      omega
  | testing attempt =>
    have hout : s.standsAt (.client pid) = none := by simp only [State.standsAt, hpc]
    rw [hpc] at hstep
    dsimp only at hstep
    split at hstep
    next hle =>
      obtain rfl := plain_spec hstep
      refine Nat.lt_add_right _ (h.client_plain_left hout (.refl _ s) ?_)
      rw [hpc]
      simp only [ClientAt.left, past, callLeft, Bool.false_eq_true, if_false]
      omega
    next =>
      obtain rfl := plain_spec hstep
      refine Nat.lt_add_right _ (h.client_plain_left hout (.refl _ s) ?_)
      rw [hpc]
      simp only [ClientAt.left, Teardown.left]
      omega
  | putting attempt =>
    have hstand : s.standsAt (.client pid) =
        some ((s.clients pid).channel, .put (recordBytes (s.clients pid).msg)) := by
      simp only [State.standsAt, hpc]
    rw [hpc] at hstep
    refine h.call_left hI hstand hstep fun w hsignal => ?_
    subst hsignal
    refine h.client_return_left hstand hstep ?_
    rw [hpc]
    simp only [ClientAt.left, past, callLeft, if_true]
    omega
  | getting attempt =>
    have hstand : s.standsAt (.client pid) = some (.client pid, .get) := by
      simp only [State.standsAt, hpc]
    rw [hpc] at hstep
    refine h.call_left hI hstand hstep fun w hsignal => ?_
    subst hsignal
    refine h.client_return_left hstand hstep ?_
    rw [hpc]
    simp only [ClientAt.left, callLeft]
    omega
  | destroying d =>
    have hout : s.standsAt (.client pid) = none := by simp only [State.standsAt, hpc]
    have hdestroys := mcDestroy_destroys s (.client pid) (.client pid) d
    rw [hpc] at hstep
    dsimp only at hstep
    split at hstep
    next u d' hu =>
      obtain rfl := plain_spec hstep
      rw [hu] at hdestroys
      refine Nat.lt_add_right _ (h.client_plain_left hout hdestroys ?_)
      rw [hpc]
      exact (mcDestroy_left s (.client pid) d).1 d' (by rw [hu])
    next u hu =>
      obtain rfl := plain_spec hstep
      rw [hu] at hdestroys
      refine Nat.lt_add_right _ (h.client_plain_left hout hdestroys ?_)
      rw [hpc]
      exact (mcDestroy_left s (.client pid) d).2 (by rw [hu])
  | closing d =>
    have hout : s.standsAt (.client pid) = none := by simp only [State.standsAt, hpc]
    have hkept := h.client_closes hI hpc
    rw [hpc] at hstep
    simp only [hkept] at hstep
    obtain rfl := plain_spec hstep
    refine Nat.lt_add_right _ (h.client_plain_left hout (.refl _ s) ?_)
    rw [hpc]
    simp only [ClientAt.left]
    omega
  | done =>
    rw [hpc] at hstep
    cases hstep

end Processes

end SistemasOperativos.EchoStatements
