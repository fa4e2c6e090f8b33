import SistemasOperativos.Connections

/-!
# Connections that are echoed by their owners

Each connection in use is behind one descriptor, and whoever owns the descriptor
echoes records of one size. What was read from a connection is what was written
to it and what its owner still owes. Another connection may get the number of a
closed descriptor, and begins anew. A write may fall short or fail, so what went
out is kept apart from what the writes were given.
-/

namespace SistemasOperativos.Connections

open ByteMemory (Byte)

/-- One write: the bytes that it was given, and how many of them it took. A write that
fails takes none. -/
structure Write where
  bytes : List Byte
  count : ℕ
  count_le : count ≤ bytes.length

/-- The bytes that went out. -/
def Write.taken (w : Write) : List Byte := w.bytes.take w.count

/-- Sockets with the writes on each connection, oldest first. -/
structure Traffic extends Sockets where
  writes : ℕ → List Write

/-- Descriptors in use before any connection. -/
def Traffic.start (opened : Finset ℕ) : Traffic := ⟨.start opened, fun _ => []⟩

/-- A write on the connection behind a descriptor. -/
def Traffic.write (n : Traffic) (fd : ℕ) (w : Write) : Traffic where
  toSockets := n.toSockets.write fd w.taken
  writes := Function.update n.writes (n.peer fd) (n.writes (n.peer fd) ++ [w])

/-- The traffic as if every write had taken all that it was given. -/
def Traffic.given (n : Traffic) : Sockets :=
  { n.toSockets with sent := fun c => (n.writes c).flatMap Write.bytes }

/-- Every write is given one record, and what went out is what the writes took. -/
structure Traffic.Recorded (size : ℕ) (n : Traffic) : Prop where
  record : ∀ c, ∀ w ∈ n.writes c, w.bytes.length = size
  sent : ∀ c, n.sent c = (n.writes c).flatMap Write.taken

section Traffic

variable {size : ℕ} {n : Traffic}

/-- A new connection, and the writes stay. -/
theorem Traffic.given_accept {m : Sockets} {cfd : ℕ} (hn : n.accept cfd = some m) :
    n.given.accept cfd = some { n with toSockets := m }.given := by
  simp only [Sockets.accept, Option.ite_none_left_eq_some, Option.some.injEq] at hn ⊢
  obtain ⟨hfree, rfl⟩ := hn
  exact ⟨hfree, rfl⟩

/-- A write that falls short counts as one that was given everything. -/
theorem Traffic.given_write (n : Traffic) (fd : ℕ) (w : Write) :
    (n.write fd w).given = n.given.write fd w.bytes := by
  have hsent : ∀ c, (Function.update n.writes (n.peer fd) (n.writes (n.peer fd) ++ [w]) c).flatMap
      Write.bytes = Function.update (fun c => (n.writes c).flatMap Write.bytes) (n.peer fd)
        ((n.writes (n.peer fd)).flatMap Write.bytes ++ w.bytes) c := by
    intro c
    rcases eq_or_ne c (n.peer fd) with rfl | hc
    · simp only [Function.update_self, List.flatMap_append, List.flatMap_singleton]
    · simp only [Function.update_of_ne hc]
  exact congrArg (fun f => { n.toSockets with sent := f }) (funext hsent)

/-- Nothing is written. -/
theorem Traffic.Recorded.keep (h : n.Recorded size) {m : Sockets} (hsent : m.sent = n.sent) :
    Traffic.Recorded size { n with toSockets := m } :=
  ⟨h.record, fun c => (congrFun hsent c).trans (h.sent c)⟩

/-- One more write of a record. -/
theorem Traffic.Recorded.write (h : n.Recorded size) (fd : ℕ) {w : Write}
    (hw : w.bytes.length = size) : (n.write fd w).Recorded size := by
  constructor
  · intro c v hv
    simp only [Traffic.write] at hv
    rcases eq_or_ne c (n.peer fd) with rfl | hc
    · rw [Function.update_self] at hv
      rcases List.mem_append.mp hv with hv | hv
      · exact h.record _ v hv
      · rw [List.mem_singleton.mp hv, hw]
    · rw [Function.update_of_ne hc] at hv
      exact h.record c v hv
  · intro c
    simp only [Traffic.write, Sockets.write]
    rcases eq_or_ne c (n.peer fd) with rfl | hc
    · simp only [Function.update_self, List.flatMap_append, List.flatMap_singleton,
        h.sent (n.peer fd)]
    · simp only [Function.update_of_ne hc, h.sent c]

/-- When no write falls short, all that the writes were given went out. -/
theorem Traffic.Recorded.sent_eq (h : n.Recorded size) {c : ℕ}
    (hfull : ∀ w ∈ n.writes c, w.count = w.bytes.length) :
    n.sent c = (n.writes c).flatMap Write.bytes := by
  have htaken : ∀ w ∈ n.writes c, w.taken = w.bytes := fun w hw =>
    List.take_of_length_le (hfull w hw).ge
  rw [h.sent c, List.flatMap_def, List.map_congr_left htaken, ← List.flatMap_def]

end Traffic

/-- Owned descriptors, and what the owner of each of them may owe. -/
structure Echoing (size : ℕ) (n : Sockets) (owned : ℕ → Prop) (owed : ℕ → List Byte → Prop) :
    Prop where
  peer_lt : ∀ fd, owned fd → n.peer fd < n.accepted
  /-- Different descriptors are different connections. -/
  separate : ∀ fd fd', owned fd → owned fd' → n.peer fd = n.peer fd' → fd = fd'
  fresh : ∀ c, n.accepted ≤ c → n.received c = [] ∧ n.sent c = []
  records : ∀ c, size ∣ (n.sent c).length
  held : ∀ fd, owned fd →
    ∃ tail, n.received (n.peer fd) = n.sent (n.peer fd) ++ tail ∧ owed fd tail
  /-- Behind the owner no whole record is left. -/
  gone : ∀ c, (∀ fd, owned fd → n.peer fd ≠ c) →
    ∃ tail, n.received c = n.sent c ++ tail ∧ (tail = [] ∨ tail.length < size)

section Echoing

variable {size : ℕ} {n m : Sockets} {owned owned' : ℕ → Prop} {owed owed' : ℕ → List Byte → Prop}

/-- No connection yet. -/
theorem echoing_start (opened : Finset ℕ) (owed : ℕ → List Byte → Prop) :
    Echoing size (.start opened) (fun _ => False) owed where
  peer_lt _ h := h.elim
  separate _ _ h := h.elim
  fresh _ _ := ⟨rfl, rfl⟩
  records _ := Nat.dvd_zero _
  held _ h := h.elim
  gone _ _ := ⟨[], rfl, .inl rfl⟩

/-- The owners change, and owe the same. -/
theorem Echoing.pass (h : Echoing size n owned owed) (howned : ∀ fd, owned' fd ↔ owned fd)
    (howed : ∀ fd tail, owned fd → owed fd tail → owed' fd tail) :
    Echoing size n owned' owed' where
  peer_lt fd hfd := h.peer_lt fd ((howned fd).mp hfd)
  separate fd fd' hfd hfd' := h.separate fd fd' ((howned fd).mp hfd) ((howned fd').mp hfd')
  fresh := h.fresh
  records := h.records
  held fd hfd := by
    have hbefore := (howned fd).mp hfd
    obtain ⟨tail, htail, hfits⟩ := h.held fd hbefore
    exact ⟨tail, htail, howed fd tail hbefore hfits⟩
  gone c hc := h.gone c fun fd hfd => hc fd ((howned fd).mpr hfd)

/-- A new connection, under any number that nobody owns. -/
theorem Echoing.accept (h : Echoing size n owned owed) {cfd : ℕ} (hn : n.accept cfd = some m)
    (hcfd : ¬ owned cfd) (howned : ∀ fd, owned' fd ↔ owned fd ∨ fd = cfd)
    (hnew : owed' cfd []) (howed : ∀ fd tail, owned fd → owed fd tail → owed' fd tail) :
    Echoing size m owned' owed' := by
  simp only [Sockets.accept, Option.ite_none_left_eq_some, Option.some.injEq] at hn
  obtain ⟨-, rfl⟩ := hn
  have hpeer : ∀ fd, owned fd → Function.update n.peer cfd n.accepted fd = n.peer fd := by
    intro fd hfd
    have hne : fd ≠ cfd := fun he => hcfd (he ▸ hfd)
    exact Function.update_of_ne hne _ _
  have hself : Function.update n.peer cfd n.accepted cfd = n.accepted := Function.update_self _ _ _
  constructor
  · intro fd hfd
    rcases (howned fd).mp hfd with hfd | rfl
    · have hlt := h.peer_lt fd hfd
      simp only [hpeer fd hfd]
      omega
    · simp only [hself]
      omega
  · intro fd fd' hfd hfd' he
    simp only at he
    rcases (howned fd).mp hfd with hfd | rfl
    · rcases (howned fd').mp hfd' with hfd' | rfl
      · rw [hpeer fd hfd, hpeer fd' hfd'] at he
        exact h.separate fd fd' hfd hfd' he
      · rw [hpeer fd hfd, hself] at he
        exact absurd (h.peer_lt fd hfd) (by omega)
    · rcases (howned fd').mp hfd' with hfd' | rfl
      · rw [hpeer fd' hfd', hself] at he
        exact absurd (h.peer_lt fd' hfd') (by omega)
      · rfl
  · intro c hc
    exact h.fresh c (by simp only at hc; omega)
  · exact h.records
  · intro fd hfd
    rcases (howned fd).mp hfd with hfd | rfl
    · obtain ⟨tail, htail, hfits⟩ := h.held fd hfd
      refine ⟨tail, ?_, howed fd tail hfd hfits⟩
      simp only [hpeer fd hfd]
      exact htail
    · obtain ⟨hreceived, hsent⟩ := h.fresh n.accepted le_rfl
      refine ⟨[], ?_, hnew⟩
      simp only [hself, hreceived, hsent, List.append_nil]
  · intro c hc
    refine h.gone c fun fd hfd => ?_
    have hne := hc fd ((howned fd).mpr (.inl hfd))
    simp only [hpeer fd hfd] at hne
    exact hne

/-- No owned descriptor is a connection that is still to come. -/
theorem Echoing.peer_ne (h : Echoing size n owned owed) {fd c : ℕ} (hfd : owned fd)
    (hc : n.accepted ≤ c) : c ≠ n.peer fd := by
  have hlt := h.peer_lt fd hfd
  omega

/-- An owner that owes nothing reads. -/
theorem Echoing.read (h : Echoing size n owned owed) {fd : ℕ} (hfd : owned fd) {bytes : List Byte}
    (hempty : ∀ tail, owed fd tail → tail = []) (howned : ∀ fd', owned' fd' ↔ owned fd')
    (hself : owed' fd bytes)
    (howed : ∀ fd' tail, fd' ≠ fd → owned fd' → owed fd' tail → owed' fd' tail) :
    Echoing size (n.read fd bytes) owned' owed' := by
  have hother : ∀ c, c ≠ n.peer fd → (n.read fd bytes).received c = n.received c :=
    fun c hc => Function.update_of_ne hc _ _
  constructor
  · exact fun fd' hfd' => h.peer_lt fd' ((howned fd').mp hfd')
  · exact fun fd₁ fd₂ h₁ h₂ => h.separate fd₁ fd₂ ((howned fd₁).mp h₁) ((howned fd₂).mp h₂)
  · intro c hc
    rw [hother c (h.peer_ne hfd hc)]
    exact h.fresh c hc
  · exact h.records
  · intro fd' hfd'
    have hbefore := (howned fd').mp hfd'
    obtain ⟨tail, htail, hfits⟩ := h.held fd' hbefore
    rcases eq_or_ne fd' fd with rfl | hne
    · rw [hempty tail hfits, List.append_nil] at htail
      refine ⟨bytes, ?_, hself⟩
      simp only [Sockets.read, Function.update_self, htail]
    · have hpeer : n.peer fd' ≠ n.peer fd := fun he => hne (h.separate fd' fd hbefore hfd he)
      exact ⟨tail, (hother _ hpeer).trans htail, howed fd' tail hne hbefore hfits⟩
  · intro c hc
    have hne : c ≠ n.peer fd := (hc fd ((howned fd).mpr hfd)).symm
    obtain ⟨tail, htail, hshort⟩ := h.gone c fun fd' hfd' => hc fd' ((howned fd').mpr hfd')
    exact ⟨tail, (hother c hne).trans htail, hshort⟩

/-- An owner writes the record that it owes. -/
theorem Echoing.write (h : Echoing size n owned owed) {fd : ℕ} (hfd : owned fd) {msg : List Byte}
    (hmsg : ∀ tail, owed fd tail → tail = msg) (hlength : msg.length = size)
    (howned : ∀ fd', owned' fd' ↔ owned fd') (hself : owed' fd [])
    (howed : ∀ fd' tail, fd' ≠ fd → owned fd' → owed fd' tail → owed' fd' tail) :
    Echoing size (n.write fd msg) owned' owed' := by
  have hother : ∀ c, c ≠ n.peer fd → (n.write fd msg).sent c = n.sent c :=
    fun c hc => Function.update_of_ne hc _ _
  have hthis : (n.write fd msg).sent (n.peer fd) = n.sent (n.peer fd) ++ msg :=
    Function.update_self _ _ _
  constructor
  · exact fun fd' hfd' => h.peer_lt fd' ((howned fd').mp hfd')
  · exact fun fd₁ fd₂ h₁ h₂ => h.separate fd₁ fd₂ ((howned fd₁).mp h₁) ((howned fd₂).mp h₂)
  · intro c hc
    rw [hother c (h.peer_ne hfd hc)]
    exact h.fresh c hc
  · intro c
    rcases eq_or_ne c (n.peer fd) with rfl | hne
    · rw [hthis, List.length_append, hlength]
      exact (h.records _).add (Nat.dvd_refl size)
    · rw [hother c hne]
      exact h.records c
  · intro fd' hfd'
    have hbefore := (howned fd').mp hfd'
    obtain ⟨tail, htail, hfits⟩ := h.held fd' hbefore
    rcases eq_or_ne fd' fd with rfl | hne
    · rw [hmsg tail hfits] at htail
      refine ⟨[], ?_, hself⟩
      have hpeer : (n.write fd' msg).peer fd' = n.peer fd' := rfl
      rw [hpeer, hthis, List.append_nil]
      exact htail
    · have hpeer : n.peer fd' ≠ n.peer fd := fun he => hne (h.separate fd' fd hbefore hfd he)
      refine ⟨tail, ?_, howed fd' tail hne hbefore hfits⟩
      have hsent := hother _ hpeer
      rw [← hsent] at htail
      exact htail
  · intro c hc
    have hne : c ≠ n.peer fd := (hc fd ((howned fd).mpr hfd)).symm
    obtain ⟨tail, htail, hshort⟩ := h.gone c fun fd' hfd' => hc fd' ((howned fd').mpr hfd')
    rw [← hother c hne] at htail
    exact ⟨tail, htail, hshort⟩

/-- To close a descriptor leaves the traffic alone. -/
theorem Echoing.closeOther (h : Echoing size n owned owed) (fd : ℕ) :
    Echoing size (n.close fd) owned owed :=
  ⟨h.peer_lt, h.separate, h.fresh, h.records, h.held, h.gone⟩

/-- An owner that owes no whole record gives its connection up. -/
theorem Echoing.close (h : Echoing size n owned owed) {fd : ℕ}
    (hshort : ∀ tail, owed fd tail → tail.length < size)
    (howned : ∀ fd', owned' fd' ↔ owned fd' ∧ fd' ≠ fd)
    (howed : ∀ fd' tail, fd' ≠ fd → owned fd' → owed fd' tail → owed' fd' tail) :
    Echoing size (n.close fd) owned' owed' where
  peer_lt fd' hfd' := h.peer_lt fd' ((howned fd').mp hfd').1
  separate fd₁ fd₂ h₁ h₂ := h.separate fd₁ fd₂ ((howned fd₁).mp h₁).1 ((howned fd₂).mp h₂).1
  fresh := h.fresh
  records := h.records
  held fd' hfd' := by
    obtain ⟨hbefore, hne⟩ := (howned fd').mp hfd'
    obtain ⟨tail, htail, hfits⟩ := h.held fd' hbefore
    exact ⟨tail, htail, howed fd' tail hne hbefore hfits⟩
  gone c hc := by
    by_cases hc' : ∃ fd', owned fd' ∧ n.peer fd' = c
    · obtain ⟨fd', hfd', rfl⟩ := hc'
      have he : fd' = fd := by
        by_contra hne
        exact hc fd' ((howned fd').mpr ⟨hfd', hne⟩) rfl
      subst he
      obtain ⟨tail, htail, hfits⟩ := h.held fd' hfd'
      exact ⟨tail, htail, .inr (hshort tail hfits)⟩
    · exact h.gone c fun fd' hfd' he => hc' ⟨fd', hfd', he⟩

end Echoing

end SistemasOperativos.Connections
