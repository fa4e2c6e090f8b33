import SistemasOperativos.CircularChain

/-!
# Intrusive lists and the sequences they stand for

The list entries are nodes of one memory, each with a forward and a backward
link. The operations write the links one by one in the source's order. On a
well-formed list they act like operations on sequences, and lists apart from it
keep all their links. So programs over several lists in one memory, with entries
that move from one list to another, compute on sequences.
-/

namespace SistemasOperativos.IntrusiveList

open CircularChain

variable {α : Type*}

/-- The link fields of a node. -/
structure ListEntry (α : Type*) where
  flink : α
  blink : α

/-- The links of all nodes. -/
abbrev Memory (α : Type*) := α → ListEntry α

/-- The memory as forward and backward links. -/
def links (m : Memory α) : Links α := ⟨fun x => (m x).flink, fun x => (m x).blink⟩

/-- A circular list with this head and these entries in order. -/
def WellFormed (m : Memory α) (listhead : α) (entries : List α) : Prop :=
  (links m).Ring listhead entries

/-- Lists apart from some nodes keep their links and their entries. -/
def KeepsApart (m m' : Memory α) (nodes : List α) : Prop :=
  ∀ (k : α) (fs : List α), WellFormed m k fs → (k :: fs).Disjoint nodes →
    WellFormed m' k fs ∧ ∀ x ∈ k :: fs, m' x = m x

variable {m m' : Memory α} {h e : α} {es xs ys nodes : List α}

/-- The head points back to the last entry. -/
theorem WellFormed.blink_head (hlist : WellFormed m h es) : (m h).blink = before h es :=
  hlist.head_neighbours.1

/-- The head points forward to the first entry. -/
theorem WellFormed.flink_head (hlist : WellFormed m h es) : (m h).flink = after h es :=
  hlist.head_neighbours.2

/-- An entry points back to the one before it, or to the head. -/
theorem WellFormed.blink_entry (hlist : WellFormed m h (xs ++ e :: ys)) :
    (m e).blink = before h xs := (Links.Ring.neighbours hlist).1

/-- An entry points forward to the one after it, or to the head. -/
theorem WellFormed.flink_entry (hlist : WellFormed m h (xs ++ e :: ys)) :
    (m e).flink = after h ys := (Links.Ring.neighbours hlist).2

/-- So its backward link stays in the list. -/
theorem WellFormed.blink_mem (hlist : WellFormed m h (xs ++ e :: ys)) :
    (m e).blink ∈ h :: (xs ++ e :: ys) := by
  rw [hlist.blink_entry, ← List.cons_append]
  exact List.mem_append_left _ (before_mem h xs)

/-- And so does its forward link. -/
theorem WellFormed.flink_mem (hlist : WellFormed m h (xs ++ e :: ys)) :
    (m e).flink ∈ h :: (xs ++ e :: ys) := by
  rw [hlist.flink_entry]
  have hsub : (h :: ys).Sublist (h :: (xs ++ e :: ys)) :=
    ((List.sublist_cons_self e ys).trans (List.sublist_append_right xs _)).cons_cons h
  exact hsub.subset (after_mem h ys)

/-- Lists apart from the nodes that change keep everything. -/
theorem keepsApart_of_eq (hsame : ∀ x ∉ nodes, m' x = m x) : KeepsApart m m' nodes := by
  intro k fs hlist hapart
  have hkeep : ∀ x ∈ k :: fs, m' x = m x := fun x hx => hsame x (hapart hx)
  refine ⟨Links.Ring.frame hlist fun x hx => ?_, hkeep⟩
  simp [links, hkeep x hx]

/-- A memory holds a sequence for each head, and no node is in two places. -/
structure Represents (m : Memory α) (heads : Set α) (lists : α → List α) : Prop where
  wellFormed : ∀ k ∈ heads, WellFormed m k (lists k)
  apart : ∀ k ∈ heads, ∀ l ∈ heads, k ≠ l → (k :: lists k).Disjoint (l :: lists l)

/-- Every other list is apart from a list together with a node that is in none. -/
theorem Represents.disjoint_cons {heads : Set α} {lists : α → List α}
    (hrep : Represents m heads lists) (hh : h ∈ heads) (he : ∀ k ∈ heads, e ∉ k :: lists k)
    {k : α} (hk : k ∈ heads) (hkh : k ≠ h) : (k :: lists k).Disjoint (e :: h :: lists h) := by
  rw [List.disjoint_cons_right]
  exact ⟨he k hk, hrep.apart k hk h hh hkh⟩

/-- A smaller set of lists, with the same entries. -/
theorem Represents.congr {heads heads' : Set α} {lists lists' : α → List α}
    (hrep : Represents m heads lists) (hheads : heads' ⊆ heads)
    (hlists : ∀ k ∈ heads', lists' k = lists k) : Represents m heads' lists' := by
  constructor
  · intro k hk
    rw [hlists k hk]
    exact hrep.wellFormed k (hheads hk)
  · intro k hk l hl hkl
    rw [hlists k hk, hlists l hl]
    exact hrep.apart k (hheads hk) l (hheads hl) hkl

section Operations

variable [DecidableEq α]

/-- `entry->flink = target`. -/
def setFlink (m : Memory α) (entry target : α) : Memory α :=
  Function.update m entry { m entry with flink := target }

/-- `entry->blink = target`. -/
def setBlink (m : Memory α) (entry target : α) : Memory α :=
  Function.update m entry { m entry with blink := target }

/-- `init_list_head`. -/
def initListHead (m : Memory α) (listhead : α) : Memory α :=
  setFlink (setBlink m listhead listhead) listhead listhead

/-- `is_list_empty`. -/
def isListEmpty (m : Memory α) (listhead : α) : Bool :=
  (m listhead).flink == listhead

/-- `remove_entry_list`. -/
def removeEntryList (m : Memory α) (entry : α) : Bool × Memory α :=
  let flink := (m entry).flink
  let blink := (m entry).blink
  (flink == blink, setBlink (setFlink m blink flink) flink blink)

/-- `remove_head_list`. -/
def removeHeadList (m : Memory α) (listhead : α) : α × Memory α :=
  let entry := (m listhead).flink
  let flink := (m entry).flink
  (entry, setBlink (setFlink m listhead flink) flink listhead)

/-- `remove_tail_list`. -/
def removeTailList (m : Memory α) (listhead : α) : α × Memory α :=
  let entry := (m listhead).blink
  let blink := (m entry).blink
  (entry, setFlink (setBlink m listhead blink) blink listhead)

/-- `insert_tail_list`. -/
def insertTailList (m : Memory α) (listhead entry : α) : Memory α :=
  let blink := (m listhead).blink
  setBlink (setFlink (setBlink (setFlink m entry listhead) entry blink) blink entry)
    listhead entry

/-- `insert_head_list`. -/
def insertHeadList (m : Memory α) (listhead entry : α) : Memory α :=
  let flink := (m listhead).flink
  setFlink (setBlink (setBlink (setFlink m entry flink) entry listhead) flink entry)
    listhead entry

/-! ## The writes as joins of neighbours -/

/-- A write to a forward link, on the links of all nodes. -/
@[simp] theorem links_setFlink (m : Memory α) (a b : α) :
    links (setFlink m a b) =
      ⟨Function.update (links m).forward a b, (links m).backward⟩ := by
  unfold links setFlink
  congr 1 <;> funext x <;> by_cases hx : x = a <;> simp [hx]

/-- A write to a backward link. -/
@[simp] theorem links_setBlink (m : Memory α) (a b : α) :
    links (setBlink m a b) =
      ⟨(links m).forward, Function.update (links m).backward a b⟩ := by
  unfold links setBlink
  congr 1 <;> funext x <;> by_cases hx : x = a <;> simp [hx]

/-- Other nodes keep both links. -/
theorem setFlink_of_ne {m : Memory α} {a b x : α} (hx : x ≠ a) : setFlink m a b x = m x :=
  Function.update_of_ne hx _ _

/-- They do so for a backward link too. -/
theorem setBlink_of_ne {m : Memory α} {a b x : α} (hx : x ≠ a) : setBlink m a b x = m x :=
  Function.update_of_ne hx _ _

/-- Taking an entry out joins its two neighbours. -/
theorem links_removeEntryList (m : Memory α) (e : α) :
    links (removeEntryList m e).2 = (links m).join (m e).blink (m e).flink := by
  simp [removeEntryList, Links.join]

/-- Taking the first entry out joins the head to the second. -/
theorem links_removeHeadList (m : Memory α) (h : α) :
    links (removeHeadList m h).2 = (links m).join h (m (m h).flink).flink := by
  simp [removeHeadList, Links.join]

/-- Taking the last entry out joins the one before it to the head. -/
theorem links_removeTailList (m : Memory α) (h : α) :
    links (removeTailList m h).2 = (links m).join (m (m h).blink).blink h := by
  simp [removeTailList, Links.join]

/-- The entry is not its own neighbour, so the order of the writes does not matter. -/
theorem links_insertTailList {m : Memory α} {h e : α} (he : e ≠ (m h).blink) :
    links (insertTailList m h e) = ((links m).join (m h).blink e).join e h := by
  simp [insertTailList, Links.join, Function.update_comm he]

/-- At the other end the entry must not be the head itself. -/
theorem links_insertHeadList {m : Memory α} {h e : α} (he : e ≠ h) :
    links (insertHeadList m h e) = ((links m).join h e).join e (m h).flink := by
  simp [insertHeadList, Links.join, Function.update_comm he]

/-! ## Sequences -/

/-- A head that was just initialised has no entries, whatever the memory held. -/
theorem wellFormed_initListHead (m : Memory α) (h : α) : WellFormed (initListHead m h) h [] := by
  have hjoin : links (initListHead m h) = (links m).join h h := by
    simp [initListHead, Links.join]
  rw [WellFormed, hjoin]
  exact ring_nil_join _ h

/-- The test compares one link, and it is right. -/
theorem WellFormed.isListEmpty_iff (hlist : WellFormed m h es) :
    isListEmpty m h = true ↔ es = [] := by
  rw [isListEmpty, beq_iff_eq, hlist.flink_head]
  have hd : (h :: ([] ++ es)).Nodup := hlist.distinct
  simpa [eq_comm] using before_eq_after_iff hd

/-- An entry is taken out wherever it stands. -/
theorem WellFormed.removeEntryList (hlist : WellFormed m h (xs ++ e :: ys)) :
    WellFormed (removeEntryList m e).2 h (xs ++ ys) := by
  rw [WellFormed, links_removeEntryList, hlist.blink_entry, hlist.flink_entry]
  exact Links.Ring.remove hlist

/-- The result tells whether the list is empty afterwards. -/
theorem WellFormed.removeEntryList_fst (hlist : WellFormed m h (xs ++ e :: ys)) :
    (IntrusiveList.removeEntryList m e).1 = true ↔ xs ++ ys = [] := by
  have hd := (WellFormed.removeEntryList hlist).distinct
  rw [IntrusiveList.removeEntryList, beq_iff_eq, hlist.blink_entry, hlist.flink_entry, eq_comm]
  exact before_eq_after_iff hd

/-- The first entry is returned, or the head of an empty list. -/
theorem WellFormed.removeHeadList_fst (hlist : WellFormed m h es) :
    (removeHeadList m h).1 = es.headD h := hlist.flink_head

/-- The last entry is returned, or the head of an empty list. -/
theorem WellFormed.removeTailList_fst (hlist : WellFormed m h es) :
    (removeTailList m h).1 = es.getLastD h := hlist.blink_head

/-- The rest of the list stays, in order. -/
theorem WellFormed.removeHeadList (hlist : WellFormed m h es) :
    WellFormed (removeHeadList m h).2 h es.tail := by
  cases es with
  | nil =>
    have hself : (m h).flink = h := hlist.flink_head
    rw [WellFormed, links_removeHeadList, hself, hself]
    exact ring_nil_join _ h
  | cons e es =>
    have hfirst : WellFormed m h ([] ++ e :: es) := hlist
    have hnext : (m e).flink = after h es := hfirst.flink_entry
    rw [WellFormed, links_removeHeadList, hlist.flink_head, after, List.headD_cons, hnext]
    exact Links.Ring.remove hfirst

/-- The entries before the last one stay, in order. -/
theorem WellFormed.removeTailList (hlist : WellFormed m h es) :
    WellFormed (removeTailList m h).2 h es.dropLast := by
  cases es using List.reverseRecOn with
  | nil =>
    have hself : (m h).blink = h := hlist.blink_head
    rw [WellFormed, links_removeTailList, hself, hself]
    exact ring_nil_join _ h
  | append_singleton es e =>
    have hnext : (m e).blink = before h es := hlist.blink_entry
    rw [WellFormed, links_removeTailList, hlist.blink_head, before_concat, hnext,
      List.dropLast_concat]
    simpa using Links.Ring.remove hlist

/-- An entry that is not in the list becomes its last one. -/
theorem WellFormed.insertTailList (hlist : WellFormed m h es) (he : e ∉ h :: es) :
    WellFormed (insertTailList m h e) h (es ++ [e]) := by
  have hne : e ≠ (m h).blink := by
    rw [hlist.blink_head]
    exact fun heq => he (heq ▸ before_mem h es)
  rw [WellFormed, links_insertTailList hne, hlist.blink_head]
  have hring : (links m).Ring h (es ++ []) := by rwa [List.append_nil]
  exact hring.insert (by rwa [List.append_nil])

/-- An entry that is not in the list becomes its first one. -/
theorem WellFormed.insertHeadList (hlist : WellFormed m h es) (he : e ∉ h :: es) :
    WellFormed (insertHeadList m h e) h (e :: es) := by
  have hne : e ≠ h := fun heq => he (heq ▸ List.mem_cons_self)
  rw [WellFormed, links_insertHeadList hne, hlist.flink_head]
  have hring : (links m).Ring h ([] ++ es) := hlist
  exact hring.insert he

/-! ## What stays as it is -/

/-- Only nodes of the list are written when an entry is taken out. -/
theorem WellFormed.removeEntryList_apart (hlist : WellFormed m h (xs ++ e :: ys)) :
    KeepsApart m (IntrusiveList.removeEntryList m e).2 (h :: (xs ++ e :: ys)) := by
  refine keepsApart_of_eq fun x hx => ?_
  have hb : x ≠ (m e).blink := fun heq => hx (heq ▸ hlist.blink_mem)
  have hf : x ≠ (m e).flink := fun heq => hx (heq ▸ hlist.flink_mem)
  exact (setBlink_of_ne hf).trans (setFlink_of_ne hb)

/-- The same when the first entry is. -/
theorem WellFormed.removeHeadList_apart (hlist : WellFormed m h es) :
    KeepsApart m (IntrusiveList.removeHeadList m h).2 (h :: es) := by
  refine keepsApart_of_eq fun x hx => ?_
  have hh : x ≠ h := fun heq => hx (by simp [heq])
  have hf : x ≠ (m (m h).flink).flink := by
    rintro rfl
    cases es with
    | nil =>
      have hself : (m h).flink = h := hlist.flink_head
      exact hh (by rw [hself, hself])
    | cons e es =>
      have hhead : (m h).flink = e := hlist.flink_head
      have hfirst : WellFormed m h ([] ++ e :: es) := hlist
      rw [hhead] at hx
      exact hx hfirst.flink_mem
  exact (setBlink_of_ne hf).trans (setFlink_of_ne hh)

/-- The same when the last entry is. -/
theorem WellFormed.removeTailList_apart (hlist : WellFormed m h es) :
    KeepsApart m (IntrusiveList.removeTailList m h).2 (h :: es) := by
  refine keepsApart_of_eq fun x hx => ?_
  have hh : x ≠ h := fun heq => hx (by simp [heq])
  have hb : x ≠ (m (m h).blink).blink := by
    rintro rfl
    cases es using List.reverseRecOn with
    | nil =>
      have hself : (m h).blink = h := hlist.blink_head
      exact hh (by rw [hself, hself])
    | append_singleton es e =>
      have hlast : (m h).blink = e := hlist.blink_head.trans (before_concat h e es)
      rw [hlast] at hx
      exact hx hlist.blink_mem
  exact (setFlink_of_ne hb).trans (setBlink_of_ne hh)

/-- An insertion writes the new entry and nodes of the list. -/
theorem WellFormed.insertTailList_apart (hlist : WellFormed m h es) :
    KeepsApart m (IntrusiveList.insertTailList m h e) (e :: h :: es) := by
  refine keepsApart_of_eq fun x hx => ?_
  have he : x ≠ e := fun heq => hx (by simp [heq])
  have hh : x ≠ h := fun heq => hx (by simp [heq])
  have hb : x ≠ (m h).blink := by
    rw [hlist.blink_head]
    exact fun heq => hx (List.mem_cons_of_mem e (heq ▸ before_mem h es))
  exact (setBlink_of_ne hh).trans ((setFlink_of_ne hb).trans
    ((setBlink_of_ne he).trans (setFlink_of_ne he)))

/-- So does one at the front. -/
theorem WellFormed.insertHeadList_apart (hlist : WellFormed m h es) :
    KeepsApart m (IntrusiveList.insertHeadList m h e) (e :: h :: es) := by
  refine keepsApart_of_eq fun x hx => ?_
  have he : x ≠ e := fun heq => hx (by simp [heq])
  have hh : x ≠ h := fun heq => hx (by simp [heq])
  have hf : x ≠ (m h).flink := by
    rw [hlist.flink_head]
    exact fun heq => hx (List.mem_cons_of_mem e (heq ▸ after_mem h es))
  exact (setFlink_of_ne hh).trans ((setBlink_of_ne hf).trans
    ((setBlink_of_ne he).trans (setFlink_of_ne he)))

/-- The operations on a list act on its sequence of entries, and keep every other list. -/
theorem operations_act_on_sequence (hlist : WellFormed m h es) :
    (isListEmpty m h = true ↔ es = []) ∧
    (∀ e ∉ h :: es,
      (WellFormed (insertTailList m h e) h (es ++ [e]) ∧
        KeepsApart m (insertTailList m h e) (e :: h :: es)) ∧
      (WellFormed (insertHeadList m h e) h (e :: es) ∧
        KeepsApart m (insertHeadList m h e) (e :: h :: es))) ∧
    (∀ e₁ rest, es = e₁ :: rest →
      (removeHeadList m h).1 = e₁ ∧ WellFormed (removeHeadList m h).2 h rest) ∧
    (∀ rest eₙ, es = rest ++ [eₙ] →
      (removeTailList m h).1 = eₙ ∧ WellFormed (removeTailList m h).2 h rest) ∧
    (es = [] →
      ((removeHeadList m h).1 = h ∧ WellFormed (removeHeadList m h).2 h []) ∧
      ((removeTailList m h).1 = h ∧ WellFormed (removeTailList m h).2 h [])) ∧
    (KeepsApart m (removeHeadList m h).2 (h :: es) ∧
      KeepsApart m (removeTailList m h).2 (h :: es)) ∧
    (∀ xs e ys, es = xs ++ e :: ys →
      WellFormed (removeEntryList m e).2 h (xs ++ ys) ∧
      ((removeEntryList m e).1 = true ↔ xs ++ ys = []) ∧
      KeepsApart m (removeEntryList m e).2 (h :: es)) := by
  refine ⟨hlist.isListEmpty_iff, ?_, ?_, ?_, ?_,
    ⟨hlist.removeHeadList_apart, hlist.removeTailList_apart⟩, ?_⟩
  · intro e he
    exact ⟨⟨hlist.insertTailList he, hlist.insertTailList_apart⟩,
      ⟨hlist.insertHeadList he, hlist.insertHeadList_apart⟩⟩
  · rintro e₁ rest rfl
    exact ⟨hlist.removeHeadList_fst, hlist.removeHeadList⟩
  · rintro rest eₙ rfl
    refine ⟨hlist.removeTailList_fst.trans (before_concat h eₙ rest), ?_⟩
    simpa using hlist.removeTailList
  · rintro rfl
    exact ⟨⟨hlist.removeHeadList_fst, hlist.removeHeadList⟩,
      ⟨hlist.removeTailList_fst, hlist.removeTailList⟩⟩
  · rintro xs e ys rfl
    exact ⟨hlist.removeEntryList, hlist.removeEntryList_fst, hlist.removeEntryList_apart⟩

/-- A list of two entries at the nodes 0, 1 and 2, built by the operations themselves. -/
def twoEntries : Memory ℕ :=
  insertTailList (insertTailList (initListHead (fun _ => ⟨7, 7⟩) 0) 0 1) 0 2

/-- The operations that built it keep it well formed. -/
theorem wellFormed_twoEntries : WellFormed twoEntries 0 [1, 2] :=
  ((wellFormed_initListHead _ 0).insertTailList (by decide)).insertTailList (by decide)

/-- Its first entry is taken out, and the second stays. -/
theorem operations_act_on_two_entries :
    (removeHeadList twoEntries 0).1 = 1 ∧ WellFormed (removeHeadList twoEntries 0).2 0 [2] :=
  (operations_act_on_sequence wellFormed_twoEntries).2.2.1 1 [2] rfl

/-! ## Programs over several lists in one memory -/

/-- One call of an operation. A removal in the middle records the list that the entry
is in, which the code does not look at. -/
inductive Operation (α : Type*)
  | insertTail (listhead entry : α)
  | insertHead (listhead entry : α)
  | removeHead (listhead : α)
  | removeTail (listhead : α)
  | removeEntry (owner entry : α)
  | isEmpty (listhead : α)

/-- What a call returns. -/
inductive Reply (α : Type*)
  | nothing
  | entry (e : α)
  | flag (b : Bool)

/-- A call as the code runs it. -/
def execute (m : Memory α) : Operation α → Reply α × Memory α
  | .insertTail h e => (.nothing, insertTailList m h e)
  | .insertHead h e => (.nothing, insertHeadList m h e)
  | .removeHead h => (.entry (removeHeadList m h).1, (removeHeadList m h).2)
  | .removeTail h => (.entry (removeTailList m h).1, (removeTailList m h).2)
  | .removeEntry _ e => (.flag (removeEntryList m e).1, (removeEntryList m e).2)
  | .isEmpty h => (.flag (isListEmpty m h), m)

/-- The same call on sequences. -/
def onSequences (lists : α → List α) : Operation α → Reply α × (α → List α)
  | .insertTail h e => (.nothing, Function.update lists h (lists h ++ [e]))
  | .insertHead h e => (.nothing, Function.update lists h (e :: lists h))
  | .removeHead h => (.entry ((lists h).headD h), Function.update lists h (lists h).tail)
  | .removeTail h => (.entry ((lists h).getLastD h), Function.update lists h (lists h).dropLast)
  | .removeEntry h e =>
    (.flag ((lists h).erase e).isEmpty, Function.update lists h ((lists h).erase e))
  | .isEmpty h => (.flag (lists h).isEmpty, lists)

/-- What callers promise: an inserted entry is in no list, a removed one is in its list. -/
def Permitted (heads : Set α) (lists : α → List α) : Operation α → Prop
  | .insertTail h e | .insertHead h e => h ∈ heads ∧ ∀ k ∈ heads, e ∉ k :: lists k
  | .removeHead h | .removeTail h | .isEmpty h => h ∈ heads
  | .removeEntry h e => h ∈ heads ∧ e ∈ lists h

/-- One list changes within nodes that no other list has. -/
theorem Represents.update {heads : Set α} {lists : α → List α} {fs : List α}
    (hrep : Represents m heads lists) (hh : h ∈ heads) (hlist : WellFormed m' h fs)
    (hkeep : KeepsApart m m' nodes)
    (hnodes : ∀ k ∈ heads, k ≠ h → (k :: lists k).Disjoint nodes)
    (hfs : ∀ x ∈ h :: fs, x ∈ nodes) :
    Represents m' heads (Function.update lists h fs) := by
  have hother : ∀ k, k ≠ h → Function.update lists h fs k = lists k := fun k hk =>
    Function.update_of_ne hk fs lists
  have hself : Function.update lists h fs h = fs := Function.update_self h fs lists
  constructor
  · intro k hk
    by_cases hkh : k = h
    · subst hkh
      rwa [hself]
    · rw [hother k hkh]
      exact (hkeep k _ (hrep.wellFormed k hk) (hnodes k hk hkh)).1
  · intro k hk l hl hkl
    by_cases hkh : k = h
    · subst hkh
      rw [hself, hother l (Ne.symm hkl)]
      exact fun x hx hxl => hnodes l hl (Ne.symm hkl) hxl (hfs x hx)
    · by_cases hlh : l = h
      · subst hlh
        rw [hself, hother k hkh]
        exact fun x hxk hx => hnodes k hk hkl hxk (hfs x hx)
      · rw [hother k hkh, hother l hlh]
        exact hrep.apart k hk l hl hkl

/-- A permitted call returns what the call on sequences returns, and keeps the two in step. -/
theorem execute_represents {heads : Set α} {lists : α → List α} {op : Operation α}
    (hrep : Represents m heads lists) (hop : Permitted heads lists op) :
    (execute m op).1 = (onSequences lists op).1 ∧
      Represents (execute m op).2 heads (onSequences lists op).2 := by
  cases op with
  | insertTail h e =>
    have hlist := hrep.wellFormed h hop.1
    refine ⟨rfl, hrep.update hop.1 (hlist.insertTailList (hop.2 h hop.1))
      hlist.insertTailList_apart (fun k => hrep.disjoint_cons hop.1 hop.2) fun x hx => ?_⟩
    simp only [List.mem_cons, List.mem_append, List.not_mem_nil, or_false] at hx ⊢
    tauto
  | insertHead h e =>
    have hlist := hrep.wellFormed h hop.1
    refine ⟨rfl, hrep.update hop.1 (hlist.insertHeadList (hop.2 h hop.1))
      hlist.insertHeadList_apart (fun k => hrep.disjoint_cons hop.1 hop.2) fun x hx => ?_⟩
    simp only [List.mem_cons] at hx ⊢
    tauto
  | removeHead h =>
    have hlist := hrep.wellFormed h hop
    refine ⟨congrArg Reply.entry hlist.removeHeadList_fst, hrep.update hop hlist.removeHeadList
      hlist.removeHeadList_apart (fun k hk => hrep.apart k hk h hop) fun x hx => ?_⟩
    exact (List.Sublist.cons_cons h (List.tail_sublist _)).subset hx
  | removeTail h =>
    have hlist := hrep.wellFormed h hop
    refine ⟨congrArg Reply.entry hlist.removeTailList_fst, hrep.update hop hlist.removeTailList
      hlist.removeTailList_apart (fun k hk => hrep.apart k hk h hop) fun x hx => ?_⟩
    exact (List.Sublist.cons_cons h (List.dropLast_sublist _)).subset hx
  | removeEntry h e =>
    have hlist := hrep.wellFormed h hop.1
    obtain ⟨xs, ys, hexs, hes, herase⟩ := List.exists_erase_eq hop.2
    have hsplit : WellFormed m h (xs ++ e :: ys) := hes ▸ hlist
    have hflag : (removeEntryList m e).1 = ((lists h).erase e).isEmpty := by
      rw [Bool.eq_iff_iff, hsplit.removeEntryList_fst, herase, List.isEmpty_iff]
    refine ⟨congrArg Reply.flag hflag, hrep.update hop.1 ?_ hsplit.removeEntryList_apart ?_ ?_⟩
    · rw [herase]
      exact hsplit.removeEntryList
    · rw [← hes]
      exact fun k hk => hrep.apart k hk h hop.1
    · rw [← hes]
      exact fun x hx => (List.Sublist.cons_cons h List.erase_sublist).subset hx
  | isEmpty h =>
    have hlist := hrep.wellFormed h hop
    have hflag : isListEmpty m h = (lists h).isEmpty := by
      rw [Bool.eq_iff_iff, hlist.isListEmpty_iff, List.isEmpty_iff]
    exact ⟨congrArg Reply.flag hflag, hrep⟩

/-- An entry that is in no list goes to the tail of one of them. -/
theorem Represents.insertTail {heads : Set α} {lists : α → List α}
    (hrep : Represents m heads lists) (hh : h ∈ heads) (he : ∀ k ∈ heads, e ∉ k :: lists k) :
    Represents (insertTailList m h e) heads (Function.update lists h (lists h ++ [e])) := by
  have hop : Permitted heads lists (.insertTail h e) := ⟨hh, he⟩
  exact (execute_represents hrep hop).2

/-- The head of a list is returned and leaves it. -/
theorem Represents.removeHead {heads : Set α} {lists : α → List α}
    (hrep : Represents m heads lists) (hh : h ∈ heads) :
    (removeHeadList m h).1 = (lists h).headD h ∧
      Represents (removeHeadList m h).2 heads (Function.update lists h (lists h).tail) := by
  have hop : Permitted heads lists (.removeHead h) := hh
  obtain ⟨hreply, hnext⟩ := execute_represents hrep hop
  exact ⟨Reply.entry.inj hreply, hnext⟩

/-- The calls of a program one after the other, with what they return. -/
def executeAll (m : Memory α) : List (Operation α) → List (Reply α) × Memory α
  | [] => ([], m)
  | op :: ops =>
    let rest := executeAll (execute m op).2 ops
    ((execute m op).1 :: rest.1, rest.2)

/-- The same calls on sequences. -/
def allOnSequences (lists : α → List α) : List (Operation α) → List (Reply α) × (α → List α)
  | [] => ([], lists)
  | op :: ops =>
    let rest := allOnSequences (onSequences lists op).2 ops
    ((onSequences lists op).1 :: rest.1, rest.2)

/-- Every call of the program is permitted where it is made. -/
def AllPermitted (heads : Set α) (lists : α → List α) : List (Operation α) → Prop
  | [] => True
  | op :: ops => Permitted heads lists op ∧ AllPermitted heads (onSequences lists op).2 ops

/-- Programs over intrusive lists compute on sequences, also where an entry that was
removed from one list is inserted into another. -/
theorem executeAll_represents {heads : Set α} {lists : α → List α} {ops : List (Operation α)}
    (hrep : Represents m heads lists) (hops : AllPermitted heads lists ops) :
    (executeAll m ops).1 = (allOnSequences lists ops).1 ∧
      Represents (executeAll m ops).2 heads (allOnSequences lists ops).2 := by
  induction ops generalizing m lists with
  | nil => exact ⟨rfl, hrep⟩
  | cons op ops ih =>
    obtain ⟨hreply, hnext⟩ := execute_represents hrep hops.1
    obtain ⟨hreplies, hlast⟩ := ih hnext hops.2
    exact ⟨congrArg₂ List.cons hreply hreplies, hlast⟩

end Operations

end SistemasOperativos.IntrusiveList
