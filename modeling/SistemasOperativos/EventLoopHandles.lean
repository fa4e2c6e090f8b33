import SistemasOperativos.EventLoop

/-!
# The handles that the event loop calls back

A registered descriptor has a live handle. An event that is left keeps its
registration as long as no callback closes a handle on its descriptor. Once
one does, callbacks that return at once bring `process` to that event.
-/

namespace SistemasOperativos.EventLoop

open TransitionRuns

variable {κ χ : Type} {s t : State κ χ}

/-- Registered descriptors have live handles. -/
structure Inv (s : State κ χ) : Prop where
  fresh : ∀ ah, s.allocated ≤ ah → s.heap ah = none
  registered : ∀ fd ah, s.interest fd = some ah → ∃ h, s.heap ah = some h ∧ h.fd = fd

/-- The events that are left have their registrations. -/
def Pending (s : State κ χ) : Prop := ∀ e ∈ s.phase.rest, e.Ready → s.interest e.fd = some e.ptr

section Operations

/-- The place in the program does not matter for the handles. -/
theorem Inv.moved (h : Inv s) (phase : Phase κ χ) : Inv { s with phase := phase } :=
  ⟨h.fresh, h.registered⟩

/-- A registration adds one handle, and at most one registration. -/
theorem registFd_spec (s : State κ χ) (fd : ℕ) (granted : Bool) :
    (s.registFd fd granted).heap = Function.update s.heap s.allocated (some ⟨fd, none, none⟩) ∧
      (s.registFd fd granted).allocated = s.allocated + 1 ∧
      (s.registFd fd granted).phase = s.phase ∧
      ((s.registFd fd granted).interest = s.interest ∨ s.interest fd = none ∧
        (s.registFd fd granted).interest = Function.update s.interest fd (some s.allocated)) := by
  unfold State.registFd State.addClient
  split
  next h => exact ⟨rfl, rfl, rfl, .inr ⟨h.2, rfl⟩⟩
  next => exact ⟨rfl, rfl, rfl, .inl rfl⟩

/-- After `rem_client` a descriptor is not registered, and nothing else changed. -/
theorem remClient_spec (s : State κ χ) (cfd : ℕ) :
    (s.remClient cfd).heap = s.heap ∧ (s.remClient cfd).allocated = s.allocated ∧
      (s.remClient cfd).phase = s.phase ∧
      (s.remClient cfd).interest = Function.update s.interest cfd none := by
  unfold State.remClient
  split
  next h => exact ⟨rfl, rfl, rfl, by rw [← h, Function.update_eq_self]⟩
  next => exact ⟨rfl, rfl, rfl, rfl⟩

/-- Setting a callback does not move the program. -/
theorem doAsync_phase {ah : ℕ} {cb : κ} {ctx : Option χ} (h : s.doAsync ah cb ctx = some t) :
    t.phase = s.phase := by
  obtain ⟨hd, -, rfl⟩ := Option.map_eq_some_iff.mp h
  rfl

/-- Closing a handle does not move the program. -/
theorem close_phase {ah : ℕ} (h : s.close ah = some t) : t.phase = s.phase := by
  obtain ⟨hd, -, rfl⟩ := Option.map_eq_some_iff.mp h
  exact (remClient_spec s hd.fd).2.2.1

/-- A new handle is registered under its own descriptor. -/
theorem Inv.registFd (h : Inv s) (fd : ℕ) (granted : Bool) : Inv (s.registFd fd granted) := by
  obtain ⟨hheap, hallocated, -, hinterest⟩ := registFd_spec s fd granted
  have hkeep : ∀ ah hd, s.heap ah = some hd → (s.registFd fd granted).heap ah = some hd := by
    intro ah hd hlive
    have hne : ah ≠ s.allocated := fun he => by
      rw [he, h.fresh _ le_rfl] at hlive
      cases hlive
    rw [hheap, Function.update_of_ne hne, hlive]
  have hold : ∀ fd' ah, s.interest fd' = some ah →
      ∃ hd, (s.registFd fd granted).heap ah = some hd ∧ hd.fd = fd' := by
    intro fd' ah hreg
    obtain ⟨hd, hlive, hfd⟩ := h.registered fd' ah hreg
    exact ⟨hd, hkeep ah hd hlive, hfd⟩
  constructor
  · intro ah hah
    rw [hallocated] at hah
    rw [hheap, Function.update_of_ne (by omega), h.fresh ah (Nat.le_of_succ_le hah)]
  · intro fd' ah hreg
    rcases hinterest with hsame | ⟨-, hnew⟩
    · rw [hsame] at hreg
      exact hold fd' ah hreg
    · rw [hnew] at hreg
      rcases eq_or_ne fd' fd with rfl | hne
      · rw [Function.update_self] at hreg
        cases hreg
        exact ⟨⟨fd', none, none⟩, by rw [hheap, Function.update_self], rfl⟩
      · rw [Function.update_of_ne hne] at hreg
        exact hold fd' ah hreg

/-- A callback is set on a live handle, which keeps its descriptor. -/
theorem Inv.doAsync (h : Inv s) {ah : ℕ} {hd : Handle κ χ} (hlive : s.heap ah = some hd) (cb : κ)
    (ctx : Option χ) :
    Inv { s with heap := Function.update s.heap ah (some { hd with cb := some cb, ctx := ctx }) } := by
  constructor
  · intro ah' hah
    have hne : ah' ≠ ah := fun he => by
      rw [he] at hah
      rw [h.fresh ah hah] at hlive
      cases hlive
    exact (Function.update_of_ne hne _ _).trans (h.fresh ah' hah)
  · intro fd ah' hreg
    obtain ⟨hd', hlive', hfd⟩ := h.registered fd ah' hreg
    rcases eq_or_ne ah' ah with rfl | hne
    · rw [hlive] at hlive'
      cases hlive'
      exact ⟨_, Function.update_self _ _ _, hfd⟩
    · exact ⟨hd', (Function.update_of_ne hne _ _).trans hlive', hfd⟩

/-- A handle is freed after its descriptor left the epoll set. -/
theorem Inv.close (h : Inv s) {ah : ℕ} {hd : Handle κ χ} (hlive : s.heap ah = some hd) :
    Inv { s.remClient hd.fd with heap := Function.update (s.remClient hd.fd).heap ah none } := by
  obtain ⟨hheap, hallocated, -, hinterest⟩ := remClient_spec s hd.fd
  constructor
  · intro ah' hah
    change (s.remClient hd.fd).allocated ≤ ah' at hah
    change Function.update (s.remClient hd.fd).heap ah none ah' = none
    rw [hallocated] at hah
    rw [hheap, Function.update_apply, h.fresh ah' hah, ite_self]
  · intro fd ah' hreg
    change (s.remClient hd.fd).interest fd = some ah' at hreg
    change ∃ hd', Function.update (s.remClient hd.fd).heap ah none ah' = some hd' ∧ hd'.fd = fd
    rw [hinterest] at hreg
    have hfd : fd ≠ hd.fd := fun he => by
      rw [he, Function.update_self] at hreg
      cases hreg
    rw [Function.update_of_ne hfd] at hreg
    obtain ⟨hd', hlive', hfd'⟩ := h.registered fd ah' hreg
    have hne : ah' ≠ ah := fun he => by
      rw [he, hlive] at hlive'
      cases hlive'
      exact hfd hfd'.symm
    exact ⟨hd', by rw [hheap, Function.update_of_ne hne, hlive'], hfd'⟩

end Operations

/-- Every step keeps the registrations and their handles together. -/
theorem Inv.next {a : Action κ χ} (h : Inv s) (hstep : s.next a = some t) : Inv t := by
  cases next_moves hstep with
  | registered fd granted => exact h.registFd fd granted
  | started ah cb ctx hd hlive => exact h.doAsync hlive cb ctx
  | closed ah hd hlive => exact h.close hlive
  | returned | looped | reported | finished | passed | called => exact h.moved _

/-- Along every run, registered descriptors have live handles. -/
theorem inv_reachable (h : (loop κ χ).Reachable s) : Inv s := by
  refine System.Reachable.invariant (I := Inv) (fun s hs => ?_) (fun s a t _ hs => hs.next) h
  rw [hs]
  exact ⟨fun _ _ => rfl, fun _ _ hreg => nomatch hreg⟩

/-- Events that are left keep their registrations unless a handle on their
descriptor is closed. -/
theorem Pending.next {a : Action κ χ} (h : Pending s) (ha : s.Closable a)
    (hstep : s.next a = some t) : Pending t := by
  cases next_moves hstep with
  | registered fd granted =>
    obtain ⟨-, -, hphase, hinterest⟩ := registFd_spec s fd granted
    intro e he hready
    rw [hphase] at he
    have hreg := h e he hready
    rcases hinterest with hsame | ⟨hfree, hnew⟩
    · rw [hsame, hreg]
    · have hne : e.fd ≠ fd := fun hfd => by
        rw [hfd, hfree] at hreg
        cases hreg
      rw [hnew, Function.update_of_ne hne, hreg]
  | started => exact h
  | closed ah hd hlive =>
    obtain ⟨-, -, hphase, hinterest⟩ := remClient_spec s hd.fd
    intro e he hready
    change e ∈ (s.remClient hd.fd).phase.rest at he
    change (s.remClient hd.fd).interest e.fd = some e.ptr
    rw [hphase] at he
    rw [hinterest, Function.update_of_ne (ha ah hd rfl hlive e he hready), h e he hready]
  | returned call rest hphase => exact fun e he => h e (by rwa [hphase])
  | looped | finished => exact fun e he => (nomatch he)
  | reported batch hreports => exact fun e he _ => hreports.registered e he
  | passed e rest hphase | called e rest call hphase =>
    exact fun e' he' => h e' (by rw [hphase]; exact List.mem_cons_of_mem e he')

/-- Registered events make the next one safe. -/
theorem Inv.safe (h : Inv s) (hp : Pending s) : s.Safe := by
  intro e rest hphase hready
  have hreg := hp e (by rw [hphase]; exact List.mem_cons_self) hready
  obtain ⟨hd, hlive, hfd⟩ := h.registered e.fd e.ptr hreg
  exact ⟨hd, hlive, fun _ => hfd ▸ hreg⟩

/-- Calls that free no handle. -/
def Action.Keeps : Action κ χ → Prop
  | .close _ => False
  | _ => True

/-- Only `ap_close` may close a handle too early. -/
theorem reachable_keeps {a : Action κ χ} (h : ((loop κ χ).restrict State.Closable).Reachable s)
    (hnext : s.next a = some t) (ha : a.Keeps) :
    ((loop κ χ).restrict State.Closable).Reachable t :=
  h.next ⟨fun ah _ he => (he ▸ ha : (Action.close ah : Action κ χ).Keeps).elim, hnext⟩

/-- Without such closes the events that are left keep their registrations. -/
theorem pending_reachable (h : ((loop κ χ).restrict State.Closable).Reachable s) : Pending s := by
  refine System.Reachable.invariant (S := (loop κ χ).restrict State.Closable) (I := Pending)
    (fun s hs => ?_) (fun s a t _ hp hstep => hp.next hstep.1 hstep.2) h
  rw [hs]
  exact fun e he => nomatch he

/-- Nor is any state unsafe then. -/
theorem safe_reachable (h : ((loop κ χ).restrict State.Closable).Reachable s) : s.Safe :=
  (inv_reachable h.of_restrict).safe (pending_reachable h)

section Stale

/-- The handle of an event was closed, or will be called back unregistered. -/
def State.Stale (s : State κ χ) (e : Event) : Prop :=
  ∀ h, s.heap e.ptr = some h → h.cb.isSome ∧ s.interest h.fd ≠ some e.ptr

/-- Callbacks that return at once bring the loop to any event that is left. -/
theorem unsafe_of_stale {e : Event} (hready : e.Ready) (rest : List Event) (hmem : e ∈ rest) :
    ∀ {s : State κ χ}, s.phase = .processing rest → s.Stale e →
      ∃ u, (loop κ χ).Steps s u ∧ ¬ u.Safe := by
  induction rest with
  | nil => cases hmem
  | cons first rest ih =>
    intro s hphase hstale
    rcases List.mem_cons.mp hmem with rfl | hlater
    · refine ⟨s, .refl, fun hsafe => ?_⟩
      obtain ⟨hd, hlive, hcalled⟩ := hsafe e rest hphase hready
      exact (hstale hd hlive).2 (hcalled (hstale hd hlive).1)
    · -- the loop goes on to the rest, unless the first event is unsafe itself
      have hnext : ∀ t, s.processEvent first rest = some t → (loop κ χ).Steps s t := fun t ht => by
        have hrun : s.next .run = some t := by simp only [State.next, hphase, ht]
        exact .single ⟨.run, hrun⟩
      by_cases hfirst : first.Ready
      · cases hlive : s.heap first.ptr with
        | none =>
          refine ⟨s, .refl, fun hsafe => ?_⟩
          obtain ⟨hd, hlive', -⟩ := hsafe first rest hphase hfirst
          rw [hlive] at hlive'
          cases hlive'
        | some hd =>
          obtain ⟨u, hu, hbad⟩ := ih hlater (s := { s with phase := .processing rest }) rfl hstale
          cases hcb : hd.cb with
          | none =>
            have hevent : s.processEvent first rest = some { s with phase := .processing rest } := by
              simp only [State.processEvent, if_pos hfirst, hlive, Option.map_some, hcb]
            exact ⟨u, (hnext _ hevent).trans hu, hbad⟩
          | some cb =>
            have hevent : s.processEvent first rest =
                some { s with phase := .calling ⟨cb, first.ptr, hd.ctx⟩ rest } := by
              simp only [State.processEvent, if_pos hfirst, hlive, Option.map_some, hcb]
            exact ⟨u, ((hnext _ hevent).tail ⟨.ret, rfl⟩).trans hu, hbad⟩
      · have hevent : s.processEvent first rest = some { s with phase := .processing rest } :=
          if_neg hfirst
        obtain ⟨u, hu, hbad⟩ := ih hlater (s := { s with phase := .processing rest }) rfl hstale
        exact ⟨u, (hnext _ hevent).trans hu, hbad⟩

/-- After a close on the descriptor of an event that is left, that event can become unsafe. -/
theorem unsafe_of_close (h : Inv s) (hp : Pending s) (cb : κ) {call : Call κ χ}
    {rest : List Event} (hphase : s.phase = .calling call rest) (ah : ℕ) {hd : Handle κ χ}
    {e : Event} (he : e ∈ rest) (hready : e.Ready) (hfd : e.fd = hd.fd) :
    ∃ u, (loop κ χ).Steps { s.remClient hd.fd with
      heap := Function.update (s.remClient hd.fd).heap ah none } u ∧ ¬ u.Safe := by
  obtain ⟨hheap, -, hcalling, hinterest⟩ := remClient_spec s hd.fd
  have hreg := hp e (by rw [hphase]; exact he) hready
  obtain ⟨hd', hlive', hfd'⟩ := h.registered e.fd e.ptr hreg
  rw [hphase] at hcalling
  rcases eq_or_ne e.ptr ah with heq | hne
  · -- the handle of the event itself is gone
    have hret : State.next { s.remClient hd.fd with
        heap := Function.update (s.remClient hd.fd).heap ah none } .ret =
        some { s.remClient hd.fd with
          heap := Function.update (s.remClient hd.fd).heap ah none
          phase := .processing rest } := by
      simp only [State.next, hcalling]
    obtain ⟨u, hu, hbad⟩ := unsafe_of_stale hready rest he
      (s := { s.remClient hd.fd with
        heap := Function.update (s.remClient hd.fd).heap ah none
        phase := .processing rest }) rfl (fun hd'' hlive'' => by
        change Function.update (s.remClient hd.fd).heap ah none e.ptr = some hd'' at hlive''
        rw [heq, Function.update_self] at hlive''
        cases hlive'')
    exact ⟨u, .head ⟨.ret, hret⟩ hu, hbad⟩
  · -- another handle on the descriptor is gone, and the one of the event gets a callback
    have hother : Function.update (s.remClient hd.fd).heap ah none e.ptr = some hd' := by
      rw [hheap, Function.update_of_ne hne, hlive']
    let v : State κ χ := { s.remClient hd.fd with
      heap := Function.update (Function.update (s.remClient hd.fd).heap ah none) e.ptr
        (some { hd' with cb := some cb, ctx := none }) }
    have hasync : State.next { s.remClient hd.fd with
        heap := Function.update (s.remClient hd.fd).heap ah none } (.async e.ptr cb none) =
        some v := by
      simp only [State.next, hcalling, Phase.user, if_true, State.doAsync, hother, Option.map_some, v]
    have hret : v.next .ret = some { v with phase := .processing rest } := by
      have hv : v.phase = .calling call rest := hcalling
      simp only [State.next, hv]
    obtain ⟨u, hu, hbad⟩ := unsafe_of_stale hready rest he
      (s := { v with phase := .processing rest }) rfl (fun hd'' hlive'' => by
        have hself : v.heap e.ptr = some { hd' with cb := some cb, ctx := none } :=
          Function.update_self _ _ _
        change v.heap e.ptr = some hd'' at hlive''
        rw [hself] at hlive''
        cases hlive''
        refine ⟨rfl, fun hreg' => ?_⟩
        change (s.remClient hd.fd).interest hd'.fd = some e.ptr at hreg'
        rw [hinterest, hfd', hfd, Function.update_self] at hreg'
        cases hreg')
    exact ⟨u, .head ⟨_, hasync⟩ (.head ⟨.ret, hret⟩ hu), hbad⟩

end Stale

/-- As long as no callback closes a handle on a descriptor with an event that is
left, `process` reads only open handles and calls back only registered ones. Any
other close can be followed by a read of a closed handle or by such a call. -/
theorem process_open_handles (κ χ : Type) (cb : κ) :
    (∀ s, ((loop κ χ).restrict State.Closable).Reachable s → s.Safe) ∧
      ∀ s t ah, ((loop κ χ).restrict State.Closable).Reachable s →
        (loop κ χ).step s (.close ah) t → ¬ s.Closable (.close ah) →
        ∃ u, (loop κ χ).Steps t u ∧ ¬ u.Safe := by
  constructor
  · exact fun s hs => safe_reachable hs
  · intro s t ah hs hstep hbad
    simp only [State.Closable, Action.close.injEq, not_forall, not_not, exists_prop] at hbad
    obtain ⟨_, hd, rfl, hlive, e, he, hready, hfd⟩ := hbad
    have hnext : s.next (.close ah) = some t := hstep
    simp only [State.next, State.close, hlive, Option.map_some, Option.ite_none_right_eq_some,
      Option.some.injEq] at hnext
    obtain ⟨huser, rfl⟩ := hnext
    cases hphase : s.phase with
    | calling call rest =>
      rw [hphase] at he
      exact unsafe_of_close (inv_reachable hs.of_restrict) (pending_reachable hs) cb hphase ah he hready
        hfd
    | setup | waiting =>
      rw [hphase] at he
      cases he
    | processing rest =>
      rw [hphase] at huser
      cases huser

/-- The next event is to be handled and its handle is closed. -/
def State.nextClosed (s : State κ χ) : Bool :=
  match s.phase with
  | .processing (e :: _) => decide e.Ready && (s.heap e.ptr).isNone
  | _ => false

/-- The loop then reads a closed handle. -/
theorem unsafe_of_nextClosed (h : s.nextClosed = true) : ¬ s.Safe := by
  intro hsafe
  unfold State.nextClosed at h
  split at h
  next e rest hphase =>
    rw [Bool.and_eq_true, decide_eq_true_eq] at h
    obtain ⟨hd, hlive, -⟩ := hsafe e rest hphase h.1
    rw [hlive] at h
    cases h.2
  next => cases h

/-- Two descriptors are reported at once, and the first callback closes the other handle. -/
theorem closed_handle_read : ∃ s, (loop Unit Unit).Reachable s ∧ ¬ s.Safe := by
  have hstart : (loop Unit Unit).Reachable initial := .start rfl
  obtain ⟨s, hs, hbad⟩ := hstart.exists_of_any
    [.regist 5 true, .regist 6 true, .async 0 () none, .async 1 () none, .loop,
      .wait [⟨0, epollIn, 5⟩, ⟨1, epollIn, 6⟩], .run, .close 1, .ret]
    (p := State.nextClosed) (by decide +kernel)
  exact ⟨s, hs, unsafe_of_nextClosed hbad⟩

end SistemasOperativos.EventLoop
