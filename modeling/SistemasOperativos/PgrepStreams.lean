import SistemasOperativos.PgrepSteps

/-!
# The chunks that pass through the search program

What was inserted in a queue, and what its producer is about to insert, is what
the producer has read and kept so far, with the marker of the end behind it.
What was removed from a queue is what its consumer has handled, and the item
that it holds.
-/

namespace SistemasOperativos.Pgrep

open TransitionRuns UThread UThreadQueue
open ByteMemory (Byte)

/-- The chunks of the file. A file that cannot be opened has none. -/
def chunks (file : Option (List Chunk)) : List Chunk := file.getD []

/-- The chunks as items, with the marker of the end. -/
def items (cs : List Chunk) : List (Option Chunk) := cs.map some ++ [none]

/-- The chunk contains the word. -/
def Contains (word : List Byte) (line : Chunk) : Bool := (strstr line word).isSome

/-- The item that a thread is about to insert. -/
def pendingItem : Pc Queue (Option Chunk) → List (Option Chunk)
  | .putting _ item => [item]
  | _ => []

/-- What `reader` still has to insert. -/
def ReaderPc.left (file : Option (List Chunk)) : ReaderPc → List (Option Chunk)
  | .opening => items (chunks file)
  | .reading rest => items rest
  | .returning | .exited => []

/-- The item that `filter` holds, or the last one that it got. -/
def FilterPc.held : FilterPc → List (Option Chunk)
  | .getting => []
  | .got line => [line]
  | .returning | .exited => [none]

/-- The marker, when `filter` has passed it on. -/
def FilterPc.marker : FilterPc → List (Option Chunk)
  | .getting | .got _ => []
  | .returning | .exited => [none]

/-- The item that `presenter` holds, or the last one that it got. -/
def PresenterPc.held : PresenterPc → List (Option Chunk)
  | .getting => []
  | .got line => [line]
  | .returning | .exited => [none]

/-- The number that `presenter` has written. -/
def PresenterPc.report (count : ℤ) : PresenterPc → Option ℤ
  | .getting | .got _ => none
  | .returning | .exited => some count

/-- The items removed from a queue so far. -/
def State.got (s : State) (q : Queue) : List (Option Chunk) := (s.queues.removed q).map Prod.snd

/-- The items that a thread has inserted in its queue, or is about to. -/
def State.given (s : State) (q : Queue) (t : Thread) : List (Option Chunk) :=
  s.queues.inserted q ++ pendingItem (s.queues.pc t.handle)

/-- What went through the queues so far. -/
structure Streams (file : Option (List Chunk)) (word : List Byte) (s : State) : Prop where
  read : s.given .qreader .reader ++ s.reader.left file = items (chunks file)
  filtered : ∃ done : List Chunk, s.got .qreader = done.map some ++ s.filter.held ∧
    s.given .qfilter .filter = (done.filter (Contains word)).map some ++ s.filter.marker
  presented : s.got .qfilter = s.printed.map some ++ s.presenter.held
  count_eq : s.count = wrapInt s.printed.length
  report_eq : s.report = s.presenter.report s.count

section Steps

variable {file : Option (List Chunk)} {word : List Byte} {s t : State}

/-- A step that passes nothing on, prints nothing and moves no marker. -/
theorem Streams.congr (h : Streams file word s)
    (hread : t.given .qreader .reader ++ t.reader.left file =
      s.given .qreader .reader ++ s.reader.left file)
    (hkept : t.given .qfilter .filter = s.given .qfilter .filter)
    (hgot : ∀ q, t.got q = s.got q) (hheld : t.filter.held = s.filter.held)
    (hmarker : t.filter.marker = s.filter.marker) (hpresenter : t.presenter.held = s.presenter.held)
    (hprinted : t.printed = s.printed) (hcount : t.count = s.count)
    (hreport : t.report = t.presenter.report t.count) : Streams file word t := by
  obtain ⟨done, htaken, hgiven⟩ := h.filtered
  refine ⟨hread.trans h.read, ⟨done, ?_, ?_⟩, ?_, ?_, hreport⟩
  · rw [hgot, hheld, htaken]
  · rw [hkept, hmarker, hgiven]
  · rw [hgot, hprinted, hpresenter]
    exact h.presented
  · rw [hcount, hprinted]
    exact h.count_eq

section Operations

variable {u : State} {a b : Thread} {p q : Queue} {item : Option Chunk}

/-- `queue_put` makes the item of its thread pending. -/
theorem given_put (hidle : s.queues.pc a.handle = .idle)
    (hu : u.queues = queuePut q item a.handle s.queues) :
    u.given p b = s.given p b ++ if b = a then [item] else [] := by
  simp only [State.given, hu, queuePut]
  by_cases hb : b = a
  · rw [hb, Function.update_self, if_pos rfl, hidle]
    simp only [pendingItem, List.append_nil]
  · rw [Function.update_of_ne (handle_ne hb), if_neg hb, List.append_nil]

/-- Then it inserts the item, which its thread has given before. -/
theorem given_putRest (hpc : s.queues.pc a.handle = .putting q item)
    (hu : u.queues = queuePutRest q item a.handle s.queues) (hside : b = a ↔ p = q) :
    u.given p b = s.given p b := by
  simp only [State.given, hu, queuePutRest]
  by_cases hb : b = a
  · rw [hb, hside.mp hb, Function.update_self, Function.update_self, hpc]
    simp only [pendingItem, List.append_nil]
  · rw [Function.update_of_ne (handle_ne hb), Function.update_of_ne fun hp => hb (hside.mpr hp)]

/-- `queue_get` gives nothing. -/
theorem given_get (hidle : s.queues.pc a.handle = .idle)
    (hu : u.queues = queueGet q a.handle s.queues) : u.given p b = s.given p b := by
  simp only [State.given, hu, queueGet]
  by_cases hb : b = a
  · rw [hb, Function.update_self, hidle]
    rfl
  · rw [Function.update_of_ne (handle_ne hb)]

/-- Then it removes the head of the list. -/
theorem getRest_spec {rest : List (Option Chunk)} (hpc : s.queues.pc a.handle = .getting q)
    (hlist : s.queues.list q = item :: rest)
    (hu : u.queues = queueGetRest q a.handle s.queues) :
    u.given p b = s.given p b ∧ u.got p = s.got p ++ if p = q then [item] else [] := by
  simp only [State.given, State.got, hu, queueGetRest, hlist]
  constructor
  · by_cases hb : b = a
    · rw [hb, Function.update_self, hpc]
      rfl
    · rw [Function.update_of_ne (handle_ne hb)]
  · by_cases hp : p = q
    · rw [hp, Function.update_self, if_pos rfl, List.map_append]
      rfl
    · rw [Function.update_of_ne hp, if_neg hp, List.append_nil]

end Operations

/-- What `reader` puts it has not to insert any more. -/
theorem ReaderPc.Puts.left_eq {pc next : ReaderPc} {item : Option Chunk}
    (h : pc.Puts file item next) : pc.left file = item :: next.left file := by
  cases h with
  | unopened hfile => simp [ReaderPc.left, items, chunks, hfile]
  | chunk | marker => simp [ReaderPc.left, items]

/-- Every step keeps what went through the queues in order. -/
theorem Streams.next (h : Streams file word s) (hplaces : Places s) (hmove : Moves file word s t) :
    Streams file word t := by
  cases hmove with
  | created | entered | left =>
    exact h.congr rfl rfl (fun _ => rfl) rfl rfl rfl rfl rfl h.report_eq
  | opened cs _ hpc hfile =>
    refine h.congr ?_ rfl (fun _ => rfl) rfl rfl rfl rfl rfl h.report_eq
    refine congrArg _ ?_
    rw [hpc, ReaderPc.left, ReaderPc.left, chunks, hfile, Option.getD_some]
  | readerPuts item pc hat hputs =>
    have hgiven {p : Queue} {b : Thread} := given_put (p := p) (b := b) hat.idle
      (u := { s with
        queues := queuePut .qreader item Thread.reader.handle s.queues, reader := pc }) rfl
    refine h.congr ?_ ?_ (fun _ => rfl) rfl rfl rfl rfl rfl h.report_eq
    · rw [hgiven, if_pos rfl, List.append_assoc, hputs.left_eq]
      rfl
    · rw [hgiven, if_neg (by decide), List.append_nil]
  | filterGets hat =>
    exact h.congr (congrArg (· ++ _) (given_get hat.idle rfl)) (given_get hat.idle rfl)
      (fun _ => rfl) rfl rfl rfl rfl rfl h.report_eq
  | filterGot line rest hr hp hpc hlist =>
    obtain ⟨done, htaken, hkept⟩ := h.filtered
    have hspec {p : Queue} {b : Thread} := getRest_spec (p := p) (b := b) hp hlist
      (u := { s with
        queues := queueGetRest .qreader Thread.filter.handle s.queues, filter := .got line }) rfl
    refine ⟨?_, ⟨done, ?_, ?_⟩, ?_, h.count_eq, h.report_eq⟩
    · rw [hspec.1]
      exact h.read
    · rw [(hspec (b := .filter)).2, if_pos rfl, htaken, hpc]
      simp only [FilterPc.held, List.append_nil]
    · rw [hspec.1, hkept, hpc]
      rfl
    · rw [(hspec (b := .filter)).2, if_neg (by decide), List.append_nil]
      exact h.presented
  | filterPuts item pc hat hputs =>
    obtain ⟨done, htaken, hkept⟩ := h.filtered
    have hgiven {p : Queue} {b : Thread} := given_put (p := p) (b := b) hat.idle
      (u := { s with
        queues := queuePut .qfilter item Thread.filter.handle s.queues, filter := pc }) rfl
    have hread : ({ s with
        queues := queuePut .qfilter item Thread.filter.handle s.queues
        filter := pc } : State).given .qreader .reader ++ s.reader.left file =
        items (chunks file) := by
      rw [hgiven, if_neg (by decide), List.append_nil]
      exact h.read
    generalize hpc : s.filter = before at hputs
    cases hputs with
    | chunk line hfound =>
      refine ⟨hread, ⟨done ++ [line], ?_, ?_⟩, h.presented, h.count_eq, h.report_eq⟩
      · refine htaken.trans ?_
        rw [hpc, List.map_append]
        simp only [FilterPc.held, List.map_cons, List.map_nil, List.append_nil]
      · have hline : [line].filter (Contains word) = [line] :=
          List.filter_cons_of_pos hfound
        rw [hgiven, if_pos rfl, hkept, hpc, List.filter_append, hline, List.map_append]
        simp only [FilterPc.marker, List.map_cons, List.map_nil, List.append_nil]
    | marker =>
      refine ⟨hread, ⟨done, ?_, ?_⟩, h.presented, h.count_eq, h.report_eq⟩
      · refine htaken.trans ?_
        rw [hpc]
        rfl
      · rw [hgiven, if_pos rfl, hkept, hpc]
        simp only [FilterPc.marker, List.append_nil]
  | filterDrops line hat hpc hmissed =>
    obtain ⟨done, htaken, hkept⟩ := h.filtered
    refine ⟨h.read, ⟨done ++ [line], ?_, ?_⟩, h.presented, h.count_eq, h.report_eq⟩
    · refine htaken.trans ?_
      rw [hpc, List.map_append]
      simp only [FilterPc.held, List.map_cons, List.map_nil, List.append_nil]
    · have hline : [line].filter (Contains word) = [] := List.filter_cons_of_neg hmissed
      refine hkept.trans ?_
      rw [hpc, List.filter_append, hline, List.append_nil]
      rfl
  | presenterGets hat =>
    exact h.congr (congrArg (· ++ _) (given_get hat.idle rfl)) (given_get hat.idle rfl)
      (fun _ => rfl) rfl rfl rfl rfl rfl h.report_eq
  | presenterGot line rest hr hp hpc hlist =>
    obtain ⟨done, htaken, hkept⟩ := h.filtered
    have hspec {p : Queue} {b : Thread} := getRest_spec (p := p) (b := b) hp hlist
      (u := { s with
        queues := queueGetRest .qfilter Thread.presenter.handle s.queues
        presenter := .got line }) rfl
    refine ⟨?_, ⟨done, ?_, ?_⟩, ?_, h.count_eq, ?_⟩
    · rw [hspec.1]
      exact h.read
    · rw [(hspec (b := .filter)).2, if_neg (by decide), List.append_nil, htaken]
    · rw [hspec.1, hkept]
    · rw [(hspec (b := .filter)).2, if_pos rfl, h.presented, hpc]
      simp only [PresenterPc.held, List.append_nil]
    · refine h.report_eq.trans ?_
      rw [hpc]
      rfl
  | prints line hat hpc =>
    refine ⟨h.read, h.filtered, ?_, ?_, ?_⟩
    · refine h.presented.trans ?_
      rw [hpc, List.map_append]
      simp only [PresenterPc.held, List.map_cons, List.map_nil, List.append_nil]
    · change wrapInt (s.count + 1) = wrapInt ((s.printed ++ [line]).length : ℕ)
      rw [h.count_eq, List.length_append, List.length_singleton]
      push_cast
      exact Int.bmod_add_bmod
    · refine h.report_eq.trans ?_
      rw [hpc]
      rfl
  | reports hat hpc =>
    refine h.congr rfl rfl (fun _ => rfl) rfl rfl ?_ rfl rfl rfl
    rw [hpc]
    rfl
  | put th q item hr hp =>
    have hsides : (Thread.reader = th ↔ Queue.qreader = q) ∧
        (Thread.filter = th ↔ Queue.qfilter = q) := by
      cases th with
      | reader =>
        rcases hplaces.reader with he | ⟨item', he⟩
        · exact absurd (hp.symm.trans he) (by simp)
        · cases hp.symm.trans he
          decide
      | filter =>
        rcases hplaces.filter with he | ⟨item', he⟩ | ⟨he, -⟩
        · exact absurd (hp.symm.trans he) (by simp)
        · cases hp.symm.trans he
          decide
        · exact absurd (hp.symm.trans he) (by simp)
      | presenter =>
        rcases hplaces.presenter with he | ⟨he, -⟩
        · exact absurd (hp.symm.trans he) (by simp)
        · exact absurd (hp.symm.trans he) (by simp)
    exact h.congr (congrArg (· ++ _) (given_putRest hp rfl hsides.1))
      (given_putRest hp rfl hsides.2) (fun _ => rfl) rfl rfl rfl rfl rfl h.report_eq
  | exits th hat hreturning =>
    cases th with
    | reader =>
      refine h.congr (congrArg _ ?_) rfl (fun _ => rfl) rfl rfl rfl rfl rfl h.report_eq
      have hpc : s.reader = .returning := hreturning
      rw [hpc]
      rfl
    | filter =>
      have hpc : s.filter = .returning := hreturning
      refine h.congr rfl rfl (fun _ => rfl) ?_ ?_ rfl rfl rfl h.report_eq
      · rw [hpc]
        rfl
      · rw [hpc]
        rfl
    | presenter =>
      have hpc : s.presenter = .returning := hreturning
      refine h.congr rfl rfl (fun _ => rfl) rfl rfl ?_ rfl rfl (h.report_eq.trans ?_)
      · rw [hpc]
        rfl
      · rw [hpc]
        rfl

end Steps

end SistemasOperativos.Pgrep
