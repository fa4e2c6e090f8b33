import SistemasOperativos.EchoStatementsRefinement
import SistemasOperativos.FifoEcho

/-!
# The records of the echo service over named pipes

The request FIFO is a sequence of whole records, one for each client that waits
and was not served yet, so no read of the server is short, and the FIFO of the
sender is always there and has room. A client gets the records back that it
wrote, in the order in which it wrote them.
-/

namespace SistemasOperativos.FifoEcho

open TransitionRuns RecordPipes
open ByteMemory (Byte)
open EchoChannels (Pid Process Message snprintf sprintf requestText length_pid_le length_sprintf
  length_requestText_lt)
open EchoStatements (recordBytes readInt readInt_recordBytes length_recordBytes)

section Names

/-- `sprintf` prints a count as the number it is. -/
theorem toString_natCast (n : ℕ) : toString (n : ℤ) = toString n := rfl

/-- The FIFO of a client is named after its process number. -/
theorem fifoName_client (pid : Pid) : fifoName (.client pid) = clientName pid.val := rfl

/-- That name is the prefix followed by the digits of the process number. -/
theorem clientName_eq (pid : Pid) :
    clientName pid.val = echoClientPrefix ++ (toString pid.val).toList := by
  have hlength := length_pid_le pid
  rw [clientName, toString_natCast]
  refine List.take_of_length_le ?_
  rw [List.length_append]
  change 7 + _ ≤ 255
  omega

/-- Different processes have different names. -/
theorem fifoName_injective : Function.Injective fifoName := by
  have hserver : ∀ pid : Pid, fifoName (.client pid) ≠ fifoName .server := by
    intro pid hname
    rw [fifoName_client, clientName_eq] at hname
    have hfirst : some 'c' = some 'e' := congrArg List.head? hname
    exact absurd hfirst (by decide)
  intro p q hname
  cases p with
  | server =>
    cases q with
    | server => rfl
    | client pid => exact absurd hname.symm (hserver pid)
  | client pid =>
    cases q with
    | server => exact absurd hname (hserver pid)
    | client pid' =>
      rw [fifoName_client, fifoName_client, clientName_eq, clientName_eq] at hname
      have hdigits := String.toList_inj.mp (List.append_cancel_left hname)
      rw [Fin.ext (Nat.repr_injective hdigits)]

/-- The server finds the name of the sender in the record. -/
theorem clientName_recordBytes (m : Message) :
    clientName (readInt (recordBytes m)) = fifoName (.client m.sender) := by
  rw [readInt_recordBytes, fifoName_client]

end Names

/-- The client waits for a response. -/
def ClientPc.Awaiting : ClientPc → Prop
  | .reading _ => True
  | _ => False

/-- The FIFO of the client exists. -/
def ClientPc.Made : ClientPc → Prop
  | .opening | .making | .done => False
  | _ => True

/-- The client has its FIFO open. -/
def ClientPc.Entered : ClientPc → Prop
  | .testing _ | .writing _ | .reading _ | .closingServer | .closingOwn => True
  | _ => False

/-- The client has the FIFO of the server open. -/
def ClientPc.Joined : ClientPc → Prop
  | .opening | .closingOwn | .unlinking | .done => False
  | _ => True

instance : (pc : ClientPc) → Decidable pc.Awaiting
  | .reading _ => .isTrue trivial
  | .opening | .making | .entering | .failing | .testing _ | .writing _ | .closingServer
  | .closingOwn | .unlinking | .done => .isFalse id

/-- A client that waits is there to be answered. -/
theorem ClientPc.Awaiting.there {pc : ClientPc} (h : pc.Awaiting) : pc.Entered ∧ pc.Made := by
  cases pc with
  | reading => exact ⟨trivial, trivial⟩
  | opening | making | entering | failing | testing | writing | closingServer | closingOwn
  | unlinking | done => exact h.elim

/-- The number of requests that were written, by where the client stands. -/
def ClientPc.Count (niters : ℕ) : ClientPc → ℕ → Prop
  | .opening, n | .making, n | .entering, n => n = 0
  | .failing, _ => False
  | .testing k, n => k = n + 1 ∧ n ≤ niters
  | .writing k, n => k = n + 1 ∧ k ≤ niters
  | .reading k, n => k = n ∧ k ≤ niters
  | .closingServer, n | .closingOwn, n | .unlinking, n => n = niters
  | .done, n => n = 0 ∨ n = niters

/-- The record of the request that a client makes. -/
def Client.request (c : Client) : List Byte := recordBytes c.msg

/-- What holds of one client, by where it stands. -/
structure ClientInv (niters : ℕ) (s : State) (pid : Pid) (c : Client) : Prop where
  size : c.msg.msg.length = 256
  sender : c.pc.Entered → c.msg.sender = pid
  joined : c.pc.Joined → c.sfd = .server ∧ Process.server ∈ s.opens .server
  made : c.pc.Made → s.names (fifoName (.client pid)) = some (.client pid)
  entered : c.pc.Entered → c.cfd = .client pid ∧ Process.client pid ∈ s.opens (.client pid)
  count : c.pc.Count niters c.requests.length
  text : ∀ k, c.pc = .writing k → ∃ buf, c.msg = ⟨pid, sprintf buf (requestText pid k)⟩
  history : c.requests = c.responses ++ if c.pc.Awaiting then [c.request] else []
  own : ∀ (i : ℕ) r, c.requests[i]? = some r →
    ∃ buf, r = recordBytes ⟨pid, sprintf buf (requestText pid (i + 1))⟩

/-- The request that the server holds, by where it stands. -/
def Hand (s : State) (held : Option Pid) : Prop :=
  match s.server with
  | .opening msg => ∃ pid, held = some pid ∧ msg = (s.clients pid).request
  | .writing msg cfd => ∃ pid, held = some pid ∧ msg = (s.clients pid).request ∧ cfd = .client pid
  | .closing cfd => held = none ∧ cfd ≠ .server
  | .making | .entering | .reading => held = none
  | .leaving | .done => False

/-- The clients that wait in the request FIFO, and the one whose request the server
holds. The request of every other client that waits was answered. -/
structure Inv (niters : Pid → ℕ) (s : State) (queue : List Pid) (held : Option Pid) : Prop where
  named : ∀ name p, s.names name = some p → name = fifoName p
  made : s.server ≠ .making → s.names echoServiceName = some .server
  opened : s.server ≠ .making → s.server ≠ .entering → Process.server ∈ s.opens .server
  hand : Hand s held
  framed : Framed sizeofMsg (s.pipes .server) (queue.map fun pid => (s.clients pid).request)
  nodup : (held.toList ++ queue).Nodup
  waits : ∀ pid ∈ held.toList ++ queue, (s.clients pid).pc.Awaiting
  reply : ∀ pid, s.pipes (.client pid) =
    if (s.clients pid).pc.Awaiting ∧ pid ∉ held.toList ++ queue then (s.clients pid).request else []
  clients : ∀ pid, ClientInv (niters pid) s pid (s.clients pid)

variable {niters : Pid → ℕ} {s t : State} {queue : List Pid} {held : Option Pid}

/-- The record that a client sends has the size of a message. -/
theorem ClientInv.length_request {n : ℕ} {pid : Pid} {c : Client} (h : ClientInv n s pid c) :
    c.request.length = sizeofMsg := by
  rw [Client.request, length_recordBytes, h.size]

/-- A client only looks at the files. -/
theorem ClientInv.congr {n : ℕ} {pid : Pid} {c : Client} (h : ClientInv n s pid c)
    (hnames : s.names (fifoName (.client pid)) = some (.client pid) →
      t.names (fifoName (.client pid)) = some (.client pid))
    (hserver : Process.server ∈ s.opens .server → Process.server ∈ t.opens .server)
    (hopens : Process.client pid ∈ s.opens (.client pid) →
      Process.client pid ∈ t.opens (.client pid)) : ClientInv n t pid c :=
  { h with
    joined := fun hj => ⟨(h.joined hj).1, hserver (h.joined hj).2⟩
    made := fun hm => hnames (h.made hm)
    entered := fun he => ⟨(h.entered he).1, hopens (h.entered he).2⟩ }

/-- The hand of the server only shows requests of clients that wait. -/
theorem Hand.congr (h : Hand s held) (hserver : t.server = s.server)
    (hclients : ∀ pid, held = some pid → (t.clients pid).request = (s.clients pid).request) :
    Hand t held := by
  unfold Hand at h ⊢
  rw [hserver]
  cases hpc : s.server with
  | opening msg =>
    rw [hpc] at h
    obtain ⟨pid, hheld, hmsg⟩ := h
    exact ⟨pid, hheld, hmsg.trans (hclients pid hheld).symm⟩
  | writing msg cfd =>
    rw [hpc] at h
    obtain ⟨pid, hheld, hmsg, hcfd⟩ := h
    exact ⟨pid, hheld, hmsg.trans (hclients pid hheld).symm, hcfd⟩
  | making | entering | reading | closing | leaving | done => rwa [hpc] at h

section Client

/-- A client that does not wait goes on with the same records. -/
theorem ClientInv.moved {n : ℕ} {pid : Pid} {c c' : Client} (h : ClientInv n s pid c)
    (hidle : ¬ c.pc.Awaiting) (hidle' : ¬ c'.pc.Awaiting)
    (hrequests : c'.requests = c.requests) (hresponses : c'.responses = c.responses)
    (hsize : c'.msg.msg.length = 256) (hsender : c'.pc.Entered → c'.msg.sender = pid)
    (hjoined : c'.pc.Joined → c'.sfd = .server ∧ Process.server ∈ t.opens .server)
    (hmade : c'.pc.Made → t.names (fifoName (.client pid)) = some (.client pid))
    (hentered : c'.pc.Entered → c'.cfd = .client pid ∧ Process.client pid ∈ t.opens (.client pid))
    (hcount : c'.pc.Count n c.requests.length)
    (htext : ∀ k, c'.pc = .writing k → ∃ buf, c'.msg = ⟨pid, sprintf buf (requestText pid k)⟩) :
    ClientInv n t pid c' := by
  have hhistory := h.history
  rw [if_neg hidle] at hhistory
  refine ⟨hsize, hsender, hjoined, hmade, hentered, hrequests ▸ hcount, htext, ?_, hrequests ▸ h.own⟩
  rw [hrequests, hresponses, if_neg hidle', hhistory]

/-- A step of a client that does not wait before or after, and leaves the bytes in
the FIFOs alone. -/
theorem Inv.setClient {u : State} (h : Inv niters s queue held) (pid : Pid) {c : Client}
    (hserver : u.server = s.server) (hclients : u.clients = s.clients) (hpipes : u.pipes = s.pipes)
    (hnamed : ∀ name p, u.names name = some p → name = fifoName p)
    (hnames : ∀ p, p ≠ .client pid → s.names (fifoName p) = some p → u.names (fifoName p) = some p)
    (hopens : ∀ p, p ≠ .client pid → p ∈ s.opens p → p ∈ u.opens p)
    (hidle : ¬ (s.clients pid).pc.Awaiting) (hidle' : ¬ c.pc.Awaiting)
    (hc : ClientInv (niters pid) u pid c) : Inv niters (u.setClient pid c) queue held := by
  have hself : (u.setClient pid c).clients pid = c := by simp [State.setClient]
  have hother : ∀ q, q ≠ pid → (u.setClient pid c).clients q = s.clients q := by
    intro q hq
    simp [State.setClient, hq, hclients]
  have hflight : ∀ q ∈ held.toList ++ queue, (u.setClient pid c).clients q = s.clients q := by
    intro q hq
    exact hother q fun heq => hidle (heq ▸ h.waits q hq)
  refine ⟨hnamed, fun hm => hnames .server (by simp) (h.made (hserver ▸ hm)),
    fun hm he => hopens .server (by simp) (h.opened (hserver ▸ hm) (hserver ▸ he)),
    h.hand.congr hserver fun q hq => by rw [hflight q (by simp [hq])], ?_, h.nodup, ?_, ?_, ?_⟩
  · have hmap : (queue.map fun q => ((u.setClient pid c).clients q).request) =
        queue.map fun q => (s.clients q).request :=
      List.map_congr_left fun q hq => by rw [hflight q (List.mem_append_right _ hq)]
    rw [hmap]
    exact hpipes ▸ h.framed
  · intro q hq
    rw [hflight q hq]
    exact h.waits q hq
  · intro q
    change u.pipes (.client q) = _
    rw [hpipes, h.reply q]
    by_cases hq : q = pid
    · subst hq
      rw [hself, if_neg fun hw => hidle hw.1, if_neg fun hw => hidle' hw.1]
    · rw [hother q hq]
  · intro q
    by_cases hq : q = pid
    · subst hq
      rw [hself]
      exact { hc with }
    · have hne : Process.client q ≠ .client pid := by simpa using hq
      rw [hother q hq]
      exact (h.clients q).congr (hnames _ hne) (hopens _ (by simp)) (hopens _ hne)

/-- `mkfifo` makes sure that the name is there. -/
theorem mkfifo_names (hnamed : ∀ name p, s.names name = some p → name = fifoName p)
    (owner : Process) (name : List Char) : (s.mkfifo owner).names name =
      if name = fifoName owner then some owner else s.names name := by
  unfold State.mkfifo
  by_cases hname : name = fifoName owner
  · subst hname
    rw [if_pos rfl]
    cases hold : s.names (fifoName owner) with
    | none => simp
    | some p =>
      obtain rfl := fifoName_injective (hnamed _ _ hold)
      simpa using hold
  · rw [if_neg hname]
    cases s.names (fifoName owner) <;> simp [hname]

/-- `mkfifo` opens nothing and moves nobody. -/
theorem mkfifo_fields (s : State) (owner : Process) :
    (s.mkfifo owner).opens = s.opens ∧ (s.mkfifo owner).pipes = s.pipes ∧
    (s.mkfifo owner).server = s.server ∧ (s.mkfifo owner).clients = s.clients := by
  unfold State.mkfifo
  cases s.names (fifoName owner) <;> simp

/-- An `open` that returns adds its own process to those that have the FIFO open. -/
theorem mem_entered {p fifo q r : Process} :
    q ∈ (s.entered p fifo).opens r ↔ q ∈ s.opens r ∨ q = p ∧ r = fifo := by
  by_cases hr : r = fifo
  · subst hr
    simp [State.entered, or_comm]
  · simp [State.entered, hr]

/-- A `close` takes away its own process only. -/
theorem mem_close {p fifo q r : Process} :
    q ∈ (s.close p fifo).opens r ↔ q ∈ s.opens r ∧ (r = fifo → q ≠ p) := by
  by_cases hr : r = fifo
  · subst hr
    simp [State.close, and_comm]
  · simp [State.close, hr]

/-- A FIFO that another process has open keeps its bytes, and so does an empty one. -/
theorem close_pipes {p fifo : Process}
    (h : (∃ q ∈ s.opens fifo, q ≠ p) ∨ s.pipes fifo = []) : (s.close p fifo).pipes = s.pipes := by
  unfold State.close
  dsimp only
  split
  next hnone =>
    cases h with
    | inl hq =>
      obtain ⟨q, hq, hne⟩ := hq
      exact absurd (hnone ▸ Finset.mem_erase.mpr ⟨hne, hq⟩) (Finset.notMem_empty q)
    | inr hempty => rw [← hempty, Function.update_eq_self]
  next => rfl

/-- Every FIFO that a name leads to is the one of that name. -/
theorem Inv.name_eq (h : Inv niters s queue held) {p q : Process}
    (hname : s.names (fifoName p) = some q) : q = p :=
  (fifoName_injective (h.named _ _ hname)).symm

/-- The `open` of the service FIFO. -/
theorem Inv.clientOpening (h : Inv niters s queue held) {pid : Pid}
    (hpc : (s.clients pid).pc = .opening) {capacity n : ℕ}
    (hstep : s.runClient capacity n pid = some t) : Inv niters t queue held := by
  have hc := h.clients pid
  have hcount := hc.count
  rw [hpc] at hcount
  have hidle : ¬ (s.clients pid).pc.Awaiting := by simp [hpc, ClientPc.Awaiting]
  simp only [State.runClient, hpc] at hstep
  split at hstep
  next hnone =>
    cases hstep
    exact h.setClient pid rfl rfl rfl h.named (fun _ _ hn => hn) (fun _ _ ho => ho) hidle id
      (hc.moved hidle id rfl rfl hc.size (fun he => he.elim) (fun hj => hj.elim)
        (fun hm => hm.elim) (fun he => he.elim) (.inl hcount) fun k hk => by cases hk)
  next fifo hname =>
    obtain rfl := h.name_eq (p := .server) hname
    obtain ⟨u, hu, rfl⟩ := Option.map_eq_some_iff.mp hstep
    obtain ⟨hreader, hu⟩ := Option.ite_none_right_eq_some.mp hu
    cases hu
    exact h.setClient pid rfl rfl rfl h.named (fun _ _ hn => hn)
      (fun _ _ ho => mem_entered.mpr (.inl ho)) hidle id
      (hc.moved hidle id rfl rfl hc.size (fun he => he.elim)
        (fun _ => ⟨rfl, mem_entered.mpr (.inl hreader)⟩) (fun hm => hm.elim) (fun he => he.elim)
        hcount fun k hk => by cases hk)

/-- The `mkfifo` of a client. -/
theorem Inv.clientMaking (h : Inv niters s queue held) {pid : Pid}
    (hpc : (s.clients pid).pc = .making) {capacity n : ℕ}
    (hstep : s.runClient capacity n pid = some t) : Inv niters t queue held := by
  have hc := h.clients pid
  have hcount := hc.count
  have hjoined := hc.joined
  rw [hpc] at hcount hjoined
  have hidle : ¬ (s.clients pid).pc.Awaiting := by simp [hpc, ClientPc.Awaiting]
  obtain ⟨hopens, hpipes, hserver, hclients⟩ := mkfifo_fields s (.client pid)
  simp only [State.runClient, hpc] at hstep
  cases hstep
  refine h.setClient pid hserver hclients hpipes (fun name p hname => ?_) (fun p hp hname => ?_)
    (fun _ _ ho => hopens ▸ ho) hidle id
    (hc.moved hidle id rfl rfl hc.size (fun he => he.elim) (fun _ => hopens ▸ hjoined trivial)
      (fun _ => ?_) (fun he => he.elim) hcount fun k hk => by cases hk)
  · rw [mkfifo_names h.named] at hname
    split at hname
    next heq =>
      cases hname
      exact heq
    next => exact h.named _ _ hname
  · rw [mkfifo_names h.named, if_neg fun heq => hp (fifoName_injective heq)]
    exact hname
  · rw [mkfifo_names h.named, if_pos rfl]

/-- The `open` of the client's own FIFO. -/
theorem Inv.clientEntering (h : Inv niters s queue held) {pid : Pid}
    (hpc : (s.clients pid).pc = .entering) {capacity n : ℕ}
    (hstep : s.runClient capacity n pid = some t) : Inv niters t queue held := by
  have hc := h.clients pid
  have hcount := hc.count
  have hjoined := hc.joined
  have hmade := hc.made
  rw [hpc] at hcount hjoined hmade
  have hidle : ¬ (s.clients pid).pc.Awaiting := by simp [hpc, ClientPc.Awaiting]
  simp only [State.runClient, hpc, hmade trivial] at hstep
  cases hstep
  obtain ⟨hsfd, hserver⟩ := hjoined trivial
  have hcount' : (s.clients pid).requests.length = 0 := hcount
  exact h.setClient pid rfl rfl rfl h.named (fun _ _ hn => hn)
    (fun _ _ ho => mem_entered.mpr (.inl ho)) hidle id
    (hc.moved hidle id rfl rfl hc.size (fun _ => rfl)
      (fun _ => ⟨hsfd, mem_entered.mpr (.inl hserver)⟩) (fun _ => hmade trivial)
      (fun _ => ⟨rfl, mem_entered.mpr (.inr ⟨rfl, rfl⟩)⟩) ⟨by omega, by omega⟩
      fun k hk => by cases hk)

/-- The test of the loop, after which the next record is filled in or the loop ends. -/
theorem Inv.clientTesting (h : Inv niters s queue held) {pid : Pid} {attempt : ℕ}
    (hpc : (s.clients pid).pc = .testing attempt) (hint : niters pid < 2 ^ 31) {capacity : ℕ}
    (hstep : s.runClient capacity (niters pid) pid = some t) : Inv niters t queue held := by
  have hc := h.clients pid
  have hcount := hc.count
  have hjoined := hc.joined
  have hmade := hc.made
  have hsender := hc.sender
  have hentered := hc.entered
  rw [hpc] at hcount hjoined hmade hsender hentered
  obtain ⟨hattempt, hle⟩ := hcount
  have hidle : ¬ (s.clients pid).pc.Awaiting := by simp [hpc, ClientPc.Awaiting]
  simp only [State.runClient, hpc] at hstep
  split at hstep
  next hmore =>
    cases hstep
    have htext : (requestText (s.clients pid).msg.sender attempt).length <
        (s.clients pid).msg.msg.length := by
      rw [hc.size]
      exact length_requestText_lt _ (by omega)
    refine h.setClient pid rfl rfl rfl h.named (fun _ _ hn => hn) (fun _ _ ho => ho) hidle id
      (hc.moved hidle id rfl rfl ?_ (fun _ => hsender trivial) (fun _ => hjoined trivial)
        (fun _ => hmade trivial) (fun _ => hentered trivial) ⟨hattempt, hmore⟩ fun k hk => ?_)
    · rw [length_sprintf htext, hc.size]
    · cases hk
      rw [hsender trivial]
      exact ⟨_, rfl⟩
  next hless =>
    cases hstep
    exact h.setClient pid rfl rfl rfl h.named (fun _ _ hn => hn) (fun _ _ ho => ho) hidle id
      (hc.moved hidle id rfl rfl hc.size (fun _ => hsender trivial) (fun _ => hjoined trivial)
        (fun _ => hmade trivial) (fun _ => hentered trivial)
        (by change _ = _; omega) fun k hk => by cases hk)

/-- The `close` of the service FIFO. -/
theorem Inv.clientClosing (h : Inv niters s queue held) {pid : Pid}
    (hpc : (s.clients pid).pc = .closingServer) {capacity n : ℕ}
    (hstep : s.runClient capacity n pid = some t) : Inv niters t queue held := by
  have hc := h.clients pid
  have hcount := hc.count
  have hjoined := hc.joined
  have hmade := hc.made
  have hsender := hc.sender
  have hentered := hc.entered
  rw [hpc] at hcount hjoined hmade hsender hentered
  obtain ⟨hsfd, hserver⟩ := hjoined trivial
  obtain ⟨hcfd, hopen⟩ := hentered trivial
  have hidle : ¬ (s.clients pid).pc.Awaiting := by simp [hpc, ClientPc.Awaiting]
  simp only [State.runClient, hpc, hsfd] at hstep
  cases hstep
  exact h.setClient pid rfl rfl (close_pipes (.inl ⟨_, hserver, by simp⟩)) h.named
    (fun _ _ hn => hn) (fun p hp ho => mem_close.mpr ⟨ho, fun _ => hp⟩) hidle id
    (hc.moved hidle id rfl rfl hc.size (fun _ => hsender trivial) (fun hj => hj.elim)
      (fun _ => hmade trivial) (fun _ => ⟨hcfd, mem_close.mpr ⟨hopen, by simp⟩⟩) hcount
      fun k hk => by cases hk)

/-- The `close` of the client's own FIFO. -/
theorem Inv.clientClosingOwn (h : Inv niters s queue held) {pid : Pid}
    (hpc : (s.clients pid).pc = .closingOwn) {capacity n : ℕ}
    (hstep : s.runClient capacity n pid = some t) : Inv niters t queue held := by
  have hc := h.clients pid
  have hcount := hc.count
  have hmade := hc.made
  have hentered := hc.entered
  rw [hpc] at hcount hmade hentered
  have hcfd := (hentered trivial).1
  have hidle : ¬ (s.clients pid).pc.Awaiting := by simp [hpc, ClientPc.Awaiting]
  have hempty : s.pipes (.client pid) = [] := by rw [h.reply, if_neg fun hw => hidle hw.1]
  simp only [State.runClient, hpc, hcfd] at hstep
  cases hstep
  exact h.setClient pid rfl rfl (close_pipes (.inr hempty)) h.named
    (fun _ _ hn => hn) (fun p hp ho => mem_close.mpr ⟨ho, fun _ => hp⟩) hidle id
    (hc.moved hidle id rfl rfl hc.size (fun he => he.elim) (fun hj => hj.elim)
      (fun _ => hmade trivial) (fun he => he.elim) hcount fun k hk => by cases hk)

/-- The `unlink` of the client's own FIFO. -/
theorem Inv.clientUnlinking (h : Inv niters s queue held) {pid : Pid}
    (hpc : (s.clients pid).pc = .unlinking) {capacity n : ℕ}
    (hstep : s.runClient capacity n pid = some t) : Inv niters t queue held := by
  have hc := h.clients pid
  have hcount := hc.count
  rw [hpc] at hcount
  have hidle : ¬ (s.clients pid).pc.Awaiting := by simp [hpc, ClientPc.Awaiting]
  simp only [State.runClient, hpc] at hstep
  cases hstep
  refine h.setClient (u := { s with
      names := Function.update s.names (fifoName (.client pid)) none }) pid rfl rfl rfl
    (fun name p hname => ?_) (fun p hp hname => ?_) (fun _ _ ho => ho) hidle id
    (hc.moved hidle id rfl rfl hc.size (fun he => he.elim) (fun hj => hj.elim)
      (fun hm => hm.elim) (fun he => he.elim) (.inr hcount) fun k hk => by cases hk)
  · by_cases hgone : name = fifoName (.client pid)
    · simp [hgone] at hname
    · exact h.named _ _ (by simpa [hgone] using hname)
  · have hne : fifoName p ≠ fifoName (.client pid) := fun heq => hp (fifoName_injective heq)
    simpa [hne] using hname

/-- The `write` of a request puts the client at the end of the queue. -/
theorem Inv.clientWriting (h : Inv niters s queue held) {pid : Pid} {attempt : ℕ}
    (hpc : (s.clients pid).pc = .writing attempt) {capacity n : ℕ}
    (hstep : s.runClient capacity n pid = some t) :
    Inv niters t (queue ++ [pid]) held := by
  have hc := h.clients pid
  have hcount := hc.count
  have hjoined := hc.joined
  have hmade := hc.made
  have hsender := hc.sender
  have hentered := hc.entered
  have hhistory := hc.history
  have hidle : ¬ (s.clients pid).pc.Awaiting := by simp [hpc, ClientPc.Awaiting]
  rw [if_neg hidle, List.append_nil] at hhistory
  rw [hpc] at hcount hjoined hmade hsender hentered
  obtain ⟨hsfd, hserver⟩ := hjoined trivial
  obtain ⟨hattempt, hle⟩ := hcount
  have hout : pid ∉ held.toList ++ queue := fun hmem => hidle (h.waits pid hmem)
  simp only [State.runClient, hpc, hsfd, State.write, if_pos hserver, Option.map_map] at hstep
  obtain ⟨pipe, hwrite, rfl⟩ := Option.map_eq_some_iff.mp hstep
  let c : Client := { s.clients pid with
    pc := .reading attempt
    sfd := .server
    requests := (s.clients pid).requests ++ [(s.clients pid).request] }
  let u : State := { s with pipes := Function.update s.pipes .server pipe }
  change Inv niters (u.setClient pid c) (queue ++ [pid]) held
  have hself : (u.setClient pid c).clients pid = c := by simp [State.setClient]
  have hother : ∀ q, q ≠ pid → (u.setClient pid c).clients q = s.clients q := by
    intro q hq
    simp [State.setClient, hq, u]
  have hflight : ∀ q ∈ held.toList ++ queue, (u.setClient pid c).clients q = s.clients q :=
    fun q hq => hother q fun heq => hout (heq ▸ hq)
  refine ⟨h.named, h.made, h.opened, h.hand.congr rfl fun q hq => by rw [hflight q (by simp [hq])],
    ?_, ?_, ?_, ?_, ?_⟩
  · have hmap : ((queue ++ [pid]).map fun q => ((u.setClient pid c).clients q).request) =
        (queue.map fun q => (s.clients q).request) ++ [(s.clients pid).request] := by
      rw [List.map_append, List.map_singleton, hself]
      exact congrArg₂ _ (List.map_congr_left fun q hq => by
        rw [hflight q (List.mem_append_right _ hq)]) rfl
    have hpipe : (u.setClient pid c).pipes .server = pipe := by simp [State.setClient, u]
    rw [hmap, hpipe]
    exact h.framed.write hc.length_request hwrite
  · rw [← List.append_assoc, List.nodup_append]
    refine ⟨h.nodup, List.nodup_singleton pid, fun a ha b hb heq => hout ?_⟩
    rw [← List.mem_singleton.mp hb, ← heq]
    exact ha
  · intro q hq
    rw [← List.append_assoc] at hq
    rcases List.mem_append.mp hq with hq | hq
    · rw [hflight q hq]
      exact h.waits q hq
    · rw [List.mem_singleton.mp hq, hself]
      trivial
  · intro q
    have hpipe : (u.setClient pid c).pipes (.client q) = s.pipes (.client q) := by
      simp [State.setClient, u]
    rw [hpipe, h.reply, ← List.append_assoc]
    by_cases hq : q = pid
    · subst hq
      rw [if_neg fun hw => hidle hw.1, if_neg fun hw => hw.2 (by simp)]
    · rw [hother q hq]
      simp [hq]
  · intro q
    by_cases hq : q = pid
    · subst hq
      rw [hself]
      refine ⟨hc.size, fun _ => hsender trivial, fun _ => ⟨rfl, hserver⟩, fun _ => hmade trivial,
        fun _ => hentered trivial, ⟨?_, hle⟩, fun k hk => (by cases hk), ?_, fun i r hr => ?_⟩
      · simpa [c] using hattempt
      · simpa [c, ClientPc.Awaiting, Client.request] using hhistory
      · by_cases hi : i < (s.clients q).requests.length
        · rw [List.getElem?_append_left hi] at hr
          exact hc.own i r hr
        · have hlast := (List.getElem?_eq_some_iff.mp hr).1
          have heq : i = (s.clients q).requests.length := by
            simp only [c, List.length_append, List.length_singleton] at hlast
            omega
          subst heq
          rw [List.getElem?_concat_length] at hr
          obtain ⟨buf, hmsg⟩ := hc.text attempt hpc
          rw [← Option.some.inj hr, Client.request, hmsg, hattempt]
          exact ⟨buf, rfl⟩
    · rw [hother q hq]
      exact { h.clients q with }

/-- The `read` of a response, which is the client's own last request. -/
theorem Inv.clientReading (h : Inv niters s queue held) {pid : Pid} {attempt : ℕ}
    (hpc : (s.clients pid).pc = .reading attempt) {capacity n : ℕ}
    (hstep : s.runClient capacity n pid = some t) : Inv niters t queue held := by
  have hc := h.clients pid
  have hcount := hc.count
  have hjoined := hc.joined
  have hmade := hc.made
  have hsender := hc.sender
  have hentered := hc.entered
  have hhistory := hc.history
  have hwaits : (s.clients pid).pc.Awaiting := by
    rw [hpc]
    trivial
  rw [if_pos hwaits] at hhistory
  rw [hpc] at hcount hjoined hmade hsender hentered
  obtain ⟨hcfd, hopen⟩ := hentered trivial
  obtain ⟨hattempt, hle⟩ := hcount
  simp only [State.runClient, hpc, hcfd, State.read, Option.map_map] at hstep
  obtain ⟨⟨bytes, rest⟩, hread, rfl⟩ := Option.map_eq_some_iff.mp hstep
  -- only an answered request is in the FIFO of the client, and it is one record
  have hanswered : (s.clients pid).pc.Awaiting ∧ pid ∉ held.toList ++ queue := by
    by_contra hnot
    rw [h.reply, if_neg hnot] at hread
    cases hread
  have hframed : Framed sizeofMsg (s.pipes (.client pid)) [(s.clients pid).request] := by
    rw [h.reply, if_pos hanswered]
    exact ⟨by simp, by simpa using hc.length_request⟩
  obtain ⟨records, hrecords, hrest⟩ := hframed.read (by decide) hread
  obtain ⟨rfl, rfl⟩ := List.cons.inj hrecords
  obtain rfl : rest = [] := hrest.content
  let c : Client := { s.clients pid with
    pc := .testing (attempt + 1)
    cfd := .client pid
    responses := (s.clients pid).responses ++ [(s.clients pid).request] }
  let u : State := { s with pipes := Function.update s.pipes (.client pid) [] }
  change Inv niters (u.setClient pid c) queue held
  have hself : (u.setClient pid c).clients pid = c := by simp [State.setClient]
  have hother : ∀ q, q ≠ pid → (u.setClient pid c).clients q = s.clients q := by
    intro q hq
    simp [State.setClient, hq, u]
  have hflight : ∀ q ∈ held.toList ++ queue, (u.setClient pid c).clients q = s.clients q :=
    fun q hq => hother q fun heq => hanswered.2 (heq ▸ hq)
  refine ⟨h.named, h.made, h.opened, h.hand.congr rfl fun q hq => by rw [hflight q (by simp [hq])],
    ?_, h.nodup, ?_, ?_, ?_⟩
  · have hmap : (queue.map fun q => ((u.setClient pid c).clients q).request) =
        queue.map fun q => (s.clients q).request :=
      List.map_congr_left fun q hq => by rw [hflight q (List.mem_append_right _ hq)]
    have hpipe : (u.setClient pid c).pipes .server = s.pipes .server := by
      simp [State.setClient, u]
    rw [hmap, hpipe]
    exact h.framed
  · intro q hq
    rw [hflight q hq]
    exact h.waits q hq
  · intro q
    by_cases hq : q = pid
    · subst hq
      rw [hself, if_neg fun hw => hw.1]
      simp [State.setClient, u]
    · have hpipe : (u.setClient pid c).pipes (.client q) = s.pipes (.client q) := by
        simp [State.setClient, u, hq]
      rw [hpipe, h.reply, hother q hq]
  · intro q
    by_cases hq : q = pid
    · subst hq
      rw [hself]
      refine ⟨hc.size, fun _ => hsender trivial, fun _ => hjoined trivial, fun _ => hmade trivial,
        fun _ => ⟨rfl, hopen⟩, ⟨?_, ?_⟩, fun k hk => (by cases hk), ?_, hc.own⟩
      · simpa [c] using hattempt
      · simpa [c, ← hattempt] using hle
      · simpa [c, ClientPc.Awaiting] using hhistory
    · rw [hother q hq]
      exact { h.clients q with }

/-- Every step of a client keeps the invariant. -/
theorem Inv.runClient (h : Inv niters s queue held) {pid : Pid} (hint : niters pid < 2 ^ 31)
    {capacity : ℕ} (hstep : s.runClient capacity (niters pid) pid = some t) :
    ∃ queue', Inv niters t queue' held := by
  cases hpc : (s.clients pid).pc with
  | opening => exact ⟨queue, h.clientOpening hpc hstep⟩
  | making => exact ⟨queue, h.clientMaking hpc hstep⟩
  | entering => exact ⟨queue, h.clientEntering hpc hstep⟩
  | failing =>
    have hcount := (h.clients pid).count
    rw [hpc] at hcount
    exact hcount.elim
  | testing attempt => exact ⟨queue, h.clientTesting hpc hint hstep⟩
  | writing attempt => exact ⟨queue ++ [pid], h.clientWriting hpc hstep⟩
  | reading attempt => exact ⟨queue, h.clientReading hpc hstep⟩
  | closingServer => exact ⟨queue, h.clientClosing hpc hstep⟩
  | closingOwn => exact ⟨queue, h.clientClosingOwn hpc hstep⟩
  | unlinking => exact ⟨queue, h.clientUnlinking hpc hstep⟩
  | done => simp [State.runClient, hpc] at hstep

end Client

section Server

/-- The name in a request leads to the FIFO of its sender, which has it open. -/
theorem Inv.sender_found (h : Inv niters s queue held) {pid : Pid}
    (hwaits : (s.clients pid).pc.Awaiting) :
    s.names (clientName (readInt (s.clients pid).request)) = some (.client pid) ∧
      Process.client pid ∈ s.opens (.client pid) := by
  obtain ⟨hentered, hmade⟩ := hwaits.there
  refine ⟨?_, ((h.clients pid).entered hentered).2⟩
  rw [Client.request, clientName_recordBytes, (h.clients pid).sender hentered]
  exact (h.clients pid).made hmade

/-- A step of the server that leaves the bytes in the FIFOs alone. -/
theorem Inv.setServer {u : State} {pc : ServerPc} (h : Inv niters s queue held)
    (hclients : u.clients = s.clients) (hpipes : u.pipes = s.pipes)
    (hnamed : ∀ name p, u.names name = some p → name = fifoName p)
    (hnames : ∀ p, s.names (fifoName p) = some p → u.names (fifoName p) = some p)
    (hopens : ∀ p, p ∈ s.opens p → p ∈ u.opens p)
    (hmade : pc ≠ .making → u.names echoServiceName = some .server)
    (hopened : pc ≠ .making → pc ≠ .entering → Process.server ∈ u.opens .server)
    (hhand : Hand { u with server := pc } held) :
    Inv niters { u with server := pc } queue held := by
  refine ⟨hnamed, hmade, hopened, hhand, ?_, h.nodup, ?_, ?_, fun pid => ?_⟩
  · simp only [hclients, hpipes]
    exact h.framed
  · simp only [hclients]
    exact h.waits
  · simp only [hclients, hpipes]
    exact h.reply
  · simp only [hclients]
    exact { (h.clients pid).congr (t := u) (hnames _) (hopens _) (hopens _) with }

/-- The server has nobody's request in hand before its `read` and right after its start. -/
theorem Inv.hand_none (h : Inv niters s queue held)
    (hpc : s.server = .making ∨ s.server = .entering ∨ s.server = .reading) : held = none := by
  have hhand := h.hand
  unfold Hand at hhand
  rcases hpc with hpc | hpc | hpc <;> rwa [hpc] at hhand

/-- The `mkfifo` of the server. -/
theorem Inv.serverMaking (h : Inv niters s queue held) (hpc : s.server = .making) {capacity : ℕ}
    (hstep : s.runServer capacity = some t) : Inv niters t queue held := by
  have hheld := h.hand_none (.inl hpc)
  obtain ⟨hopens, hpipes, -, hclients⟩ := mkfifo_fields s .server
  simp only [State.runServer, hpc] at hstep
  cases hstep
  refine h.setServer hclients hpipes (fun name p hname => ?_) (fun p hname => ?_)
    (fun _ ho => hopens ▸ ho) (fun _ => ?_) (fun _ he => absurd rfl he) hheld
  · rw [mkfifo_names h.named] at hname
    split at hname
    next heq =>
      cases hname
      exact heq
    next => exact h.named _ _ hname
  · rw [mkfifo_names h.named]
    split
    next heq => rw [fifoName_injective heq]
    next => exact hname
  · exact (mkfifo_names h.named .server echoServiceName).trans (if_pos rfl)

/-- The `open` of the service FIFO by the server. -/
theorem Inv.serverEntering (h : Inv niters s queue held) (hpc : s.server = .entering)
    {capacity : ℕ} (hstep : s.runServer capacity = some t) : Inv niters t queue held := by
  have hheld := h.hand_none (.inr (.inl hpc))
  have hmade : s.names (fifoName .server) = some .server := h.made (by simp [hpc])
  simp only [State.runServer, hpc, hmade] at hstep
  cases hstep
  exact h.setServer rfl rfl h.named (fun _ hn => hn) (fun _ ho => mem_entered.mpr (.inl ho))
    (fun _ => hmade) (fun _ _ => mem_entered.mpr (.inr ⟨rfl, rfl⟩)) hheld

/-- The `read` of the server takes the request at the head of the queue in hand. -/
theorem Inv.serverReading (h : Inv niters s queue held) (hpc : s.server = .reading)
    {capacity : ℕ} (hstep : s.runServer capacity = some t) :
    ∃ pid rest, queue = pid :: rest ∧ held = none ∧
      t.server = .opening (s.clients pid).request ∧ Inv niters t rest (some pid) := by
  obtain rfl := h.hand_none (.inr (.inr hpc))
  have hmade := h.made (by simp [hpc])
  have hopened := h.opened (by simp [hpc]) (by simp [hpc])
  simp only [State.runServer, hpc, State.read, Option.map_map] at hstep
  obtain ⟨⟨bytes, rest⟩, hread, rfl⟩ := Option.map_eq_some_iff.mp hstep
  obtain ⟨records, hrecords, hrest⟩ := h.framed.read (by decide) hread
  obtain ⟨pid, queue', rfl, rfl, rfl⟩ := List.map_eq_cons_iff.mp hrecords
  have hlength := (h.clients pid).length_request
  refine ⟨pid, queue', rfl, rfl, if_pos hlength, h.named, fun _ => hmade, fun _ _ => hopened,
    ?_, ?_, h.nodup, h.waits, ?_, fun q => { h.clients q with }⟩
  · simp only [Hand, Function.comp_apply, if_pos hlength]
    exact ⟨pid, rfl, rfl⟩
  · simpa using hrest
  · intro q
    have hreply := h.reply q
    simpa using hreply

/-- The `open` of the sender's FIFO, which exists and is the sender's own. -/
theorem Inv.serverOpening (h : Inv niters s queue held) {msg : List Byte}
    (hpc : s.server = .opening msg) {capacity : ℕ} (hstep : s.runServer capacity = some t) :
    Inv niters t queue held := by
  have hmade := h.made (by simp [hpc])
  have hopened := h.opened (by simp [hpc]) (by simp [hpc])
  have hhand := h.hand
  simp only [Hand, hpc] at hhand
  obtain ⟨pid, rfl, rfl⟩ := hhand
  obtain ⟨hname, hopen⟩ := h.sender_found (h.waits pid (by simp))
  simp only [State.runServer, hpc, hname, State.openWrite, if_pos hopen, Option.map_some] at hstep
  cases hstep
  exact h.setServer rfl rfl h.named (fun _ hn => hn) (fun _ ho => mem_entered.mpr (.inl ho))
    (fun _ => hmade) (fun _ _ => mem_entered.mpr (.inl hopened)) ⟨pid, rfl, rfl, rfl⟩

/-- The `write` of the response empties the server's hand. -/
theorem Inv.serverWriting (h : Inv niters s queue held) {msg : List Byte} {cfd : Process}
    (hpc : s.server = .writing msg cfd) {capacity : ℕ} (hstep : s.runServer capacity = some t) :
    Inv niters t queue none := by
  have hmade := h.made (by simp [hpc])
  have hopened := h.opened (by simp [hpc]) (by simp [hpc])
  have hhand := h.hand
  simp only [Hand, hpc] at hhand
  obtain ⟨pid, rfl, rfl, rfl⟩ := hhand
  have hwaits := h.waits pid (by simp)
  obtain ⟨-, hopen⟩ := h.sender_found hwaits
  have hempty : s.pipes (.client pid) = [] := by rw [h.reply, if_neg fun hw => hw.2 (by simp)]
  obtain ⟨hout, hnodup⟩ := List.nodup_cons.mp h.nodup
  simp only [State.runServer, hpc, State.write, if_pos hopen, hempty, Option.map_map] at hstep
  obtain ⟨pipe, hwrite, rfl⟩ := Option.map_eq_some_iff.mp hstep
  obtain ⟨-, hpipe⟩ := Option.ite_none_right_eq_some.mp hwrite
  cases hpipe
  refine ⟨h.named, fun _ => hmade, fun _ _ => hopened, ⟨rfl, by simp⟩, ?_, hnodup,
    fun q hq => h.waits q (List.mem_cons_of_mem pid hq), fun q => ?_, fun q => { h.clients q with }⟩
  · simpa using h.framed
  · by_cases hq : q = pid
    · subst hq
      have hout' : q ∉ queue := hout
      simp [hwaits, hout']
    · have hreply := h.reply q
      by_cases hin : q ∈ queue <;> simpa [hq, hin] using hreply

/-- The `close` of the sender's FIFO. -/
theorem Inv.serverClosing (h : Inv niters s queue held) {cfd : Process}
    (hpc : s.server = .closing cfd) {capacity : ℕ} (hstep : s.runServer capacity = some t) :
    Inv niters t queue held := by
  have hmade := h.made (by simp [hpc])
  have hopened := h.opened (by simp [hpc]) (by simp [hpc])
  have hhand := h.hand
  simp only [Hand, hpc] at hhand
  obtain ⟨rfl, hcfd⟩ := hhand
  simp only [State.runServer, hpc] at hstep
  cases hstep
  have hpipes : (s.close .server cfd).pipes = s.pipes := by
    refine close_pipes ?_
    cases cfd with
    | server => exact absurd rfl hcfd
    | client pid =>
      by_cases hopen : Process.client pid ∈ s.opens (.client pid)
      · exact .inl ⟨_, hopen, by simp⟩
      · refine .inr ?_
        rw [h.reply, if_neg fun hw => hopen ((h.clients pid).entered hw.1.there.1).2]
  exact h.setServer rfl hpipes h.named (fun _ hn => hn)
    (fun p ho => mem_close.mpr ⟨ho, fun heq hp => hcfd (heq.symm.trans hp)⟩) (fun _ => hmade)
    (fun _ _ => mem_close.mpr ⟨hopened, fun heq => absurd heq.symm hcfd⟩) rfl

/-- Every step of the server keeps the invariant. -/
theorem Inv.runServer (h : Inv niters s queue held) {capacity : ℕ}
    (hstep : s.runServer capacity = some t) : ∃ queue' held', Inv niters t queue' held' := by
  cases hpc : s.server with
  | making => exact ⟨queue, held, h.serverMaking hpc hstep⟩
  | entering => exact ⟨queue, held, h.serverEntering hpc hstep⟩
  | reading =>
    obtain ⟨pid, rest, -, -, -, h'⟩ := h.serverReading hpc hstep
    exact ⟨rest, some pid, h'⟩
  | opening msg => exact ⟨queue, held, h.serverOpening hpc hstep⟩
  | writing msg cfd => exact ⟨queue, none, h.serverWriting hpc hstep⟩
  | closing cfd => exact ⟨queue, held, h.serverClosing hpc hstep⟩
  | leaving | done =>
    have hhand := h.hand
    simp only [Hand, hpc] at hhand

end Server

section Runs

variable {started : Finset Pid} {capacity : ℕ}

/-- Nothing is queued when the processes start. -/
theorem inv_started (niters : Pid → ℕ) (h : Started s) : Inv niters s [] none := by
  refine ⟨h.names, fun hm => absurd h.server hm, fun hm => absurd h.server hm, ?_, ?_,
    List.nodup_nil, fun pid hmem => absurd hmem List.not_mem_nil, fun pid => ?_, fun pid => ?_⟩
  · simp [Hand, h.server]
  · rw [h.pipes]
    exact framed_nil sizeofMsg
  · rw [h.pipes, (h.clients pid).1, if_neg fun hw => hw.1]
  · obtain ⟨hpc, hsize, hrequests, hresponses⟩ := h.clients pid
    refine ⟨hsize, ?_, ?_, ?_, ?_, ?_, ?_, ?_, ?_⟩
    · simp [hpc, ClientPc.Entered]
    · simp [hpc, ClientPc.Joined]
    · simp [hpc, ClientPc.Made]
    · simp [hpc, ClientPc.Entered]
    · simp [hpc, hrequests, ClientPc.Count]
    · simp [hpc]
    · simp [hpc, hrequests, hresponses, ClientPc.Awaiting]
    · simp [hrequests]

/-- Every step keeps the invariant. -/
theorem Inv.next (h : Inv niters s queue held) (hint : ∀ pid, niters pid < 2 ^ 31) {p : Process}
    (hstep : s.next started capacity niters p = some t) :
    ∃ queue' held', Inv niters t queue' held' := by
  cases p with
  | server => exact h.runServer hstep
  | client pid =>
    obtain ⟨-, hrun⟩ := Option.ite_none_right_eq_some.mp hstep
    obtain ⟨queue', h'⟩ := h.runClient (hint pid) hrun
    exact ⟨queue', held, h'⟩

/-- In every reachable state the requests under way are accounted for. -/
theorem inv_reachable (hint : ∀ pid, niters pid < 2 ^ 31)
    (h : (service started capacity niters).Reachable s) :
    ∃ queue held, Inv niters s queue held := by
  refine System.Reachable.invariant (I := fun s => ∃ queue held, Inv niters s queue held)
    (fun s hs => ⟨[], none, inv_started niters hs⟩) (fun s p t _ hs hstep => ?_) h
  obtain ⟨queue, held, hI⟩ := hs
  exact hI.next hint hstep

/-- The echo service over named pipes. The server never leaves its loop. The request
FIFO always holds whole records, at most one of a client, so every read returns
one; the FIFO of the sender is there, open and empty when the server answers.
The i-th record that a client reads is the i-th that it wrote, and it is the one
with its own number and text. -/
theorem fifo_echo_agrees (hint : ∀ pid, niters pid < 2 ^ 31)
    (h : (service started capacity niters).Reachable s) :
    (s.server ≠ .leaving ∧ s.server ≠ .done) ∧
    (∃ waiting : List Pid, waiting.Nodup ∧
      Framed sizeofMsg (s.pipes .server) (waiting.map fun pid => (s.clients pid).request)) ∧
    (∀ msg, s.server = .opening msg → ∃ pid, msg = (s.clients pid).request ∧
      s.names (clientName (readInt msg)) = some (.client pid) ∧
      Process.client pid ∈ s.opens (.client pid) ∧ s.pipes (.client pid) = []) ∧
    ∀ pid, (s.clients pid).requests.length ≤ (s.clients pid).responses.length + 1 ∧
      ∀ (i : ℕ) r, (s.clients pid).responses[i]? = some r →
        (s.clients pid).requests[i]? = some r ∧
        ∃ buf, r = recordBytes ⟨pid, sprintf buf (requestText pid (i + 1))⟩ := by
  obtain ⟨queue, held, hI⟩ := inv_reachable hint h
  have hhand := hI.hand
  refine ⟨?_, ⟨queue, hI.nodup.of_append_right, hI.framed⟩, fun msg hpc => ?_, fun pid => ?_⟩
  · constructor <;> intro hpc <;> simp [Hand, hpc] at hhand
  · simp only [Hand, hpc] at hhand
    obtain ⟨pid, rfl, rfl⟩ := hhand
    obtain ⟨hname, hopen⟩ := hI.sender_found (hI.waits pid (by simp))
    exact ⟨pid, rfl, hname, hopen, by rw [hI.reply, if_neg fun hw => hw.2 (by simp)]⟩
  · have hc := hI.clients pid
    have hhistory := hc.history
    constructor
    · rw [hhistory, List.length_append]
      split <;> simp
    · intro i r hr
      have hbound := (List.getElem?_eq_some_iff.mp hr).1
      have hrequest : (s.clients pid).requests[i]? = some r := by
        rw [hhistory, List.getElem?_append_left hbound, hr]
      exact ⟨hrequest, hc.own i r hrequest⟩

/-- Before anything runs, with buffers of zeros. -/
def nothingStarted : State where
  names := fun _ => none
  opens := fun _ => ∅
  pipes := fun _ => []
  server := .making
  clients := fun pid => ⟨.opening, .server, .server, ⟨pid, List.replicate 256 0⟩, [], []⟩

/-- It is a state in which a run may start. -/
theorem started_nothingStarted : Started nothingStarted :=
  ⟨fun _ _ h => absurd h (Option.some_ne_none _).symm, fun _ => rfl, fun _ => rfl, rfl, fun _ =>
    ⟨rfl, List.length_replicate, rfl, rfl⟩⟩

/-- A client makes one request, and the server answers it. -/
theorem fifo_echo_agrees_one_client : ∃ s : State, (service {7} 4096 fun _ => 1).Reachable s ∧
    (s.clients 7).responses.length = 1 ∧
    ∀ (i : ℕ) r, (s.clients 7).responses[i]? = some r → (s.clients 7).requests[i]? = some r := by
  have hint : ∀ _ : Pid, 1 < 2 ^ 31 := fun _ => Nat.one_lt_two_pow (by decide)
  have hstart : (service {7} 4096 fun _ => 1).Reachable nothingStarted :=
    .start started_nothingStarted
  obtain ⟨s, hs, hlength⟩ := hstart.exists_of_any
    [.server, .server, .client 7, .client 7, .client 7, .client 7, .client 7, .server, .server,
      .server, .server, .client 7]
    (p := fun s => (s.clients 7).responses.length = 1) (by decide +kernel)
  exact ⟨s, hs, of_decide_eq_true hlength,
    fun i r hr => (((fifo_echo_agrees hint hs).2.2.2 7).2 i r hr).1⟩

end Runs

end SistemasOperativos.FifoEcho
