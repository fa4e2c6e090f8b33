import SistemasOperativos.ConditionMonitor
import SistemasOperativos.IntrusiveList
import SistemasOperativos.TransitionRuns

/-!
# The queue of the thread pools over its linked nodes

A put allocates a node and links it at the tail, and a get unlinks the node at the
head, reads its item and frees it, both with the mutex in their hands. The nodes are
blocks that are used again, and a statement that touches a block which is not
allocated is stuck.
-/

namespace SistemasOperativos.LinkedQueue

open TransitionRuns ConditionMonitor IntrusiveList

variable {π φ : Type*}

/-- Where a `LIST_ENTRY` lies: in the queue itself, or in a block that malloc returned. -/
inductive Address
  | list
  | block (b : ℕ)
  deriving DecidableEq, Repr

/-- The condition variable of the queue. -/
inductive Cond
  | hasItems
  deriving DecidableEq, Repr

/-- Where a thread stands in `queue_put` or `queue_get`, by its next statement. -/
inductive Pc (φ : Type*)
  | idle
  | putLocking (item : φ)
  /-- `create_node`. -/
  | creating (item : φ)
  /-- `insert_tail_list`. -/
  | inserting (node : ℕ)
  /-- `pthread_cond_signal`. -/
  | signaling
  | putUnlocking
  | getLocking
  /-- `is_list_empty`. -/
  | testing
  /-- The call of `pthread_cond_wait`. -/
  | sleeping
  /-- Inside `pthread_cond_wait`. -/
  | waiting
  /-- `remove_head_list`. -/
  | removing
  /-- `node->item`. -/
  | reading (node : ℕ)
  /-- `destroy_node`. -/
  | destroying (node : ℕ) (item : φ)
  | getUnlocking (item : φ)

/-- The queue with its nodes, the threads that use it, and the items that entered and left. -/
structure State (π φ : Type*) where
  memory : Memory Address
  /-- The field `item` of a node. -/
  item : ℕ → φ
  allocated : Finset ℕ
  monitor : Monitor π Cond
  pc : π → Pc φ
  entered : List φ
  left : List φ

/-- What a thread does. -/
inductive Action (π φ : Type*)
  /-- It calls `queue_put`. -/
  | put (item : φ)
  /-- It calls `queue_get`. -/
  | get
  /-- It executes its next statement. -/
  | step
  /-- Its `create_node` gets a block. -/
  | malloc (b : ℕ)
  /-- Its signal wakes a sleeper, or nobody. -/
  | signal (w : Option π)
  /-- It wakes for no reason. -/
  | wake

/-- A thread may read and write an entry. -/
def State.Valid (s : State π φ) : Address → Prop
  | .list => True
  | .block b => b ∈ s.allocated

instance (s : State π φ) : (a : Address) → Decidable (s.Valid a)
  | .list => .isTrue trivial
  | .block b => inferInstanceAs (Decidable (b ∈ s.allocated))

variable [DecidableEq π]

/-- A thread moves on. -/
def State.goto (s : State π φ) (p : π) (q : Pc φ) : State π φ :=
  { s with pc := Function.update s.pc p q }

/-- `insert_tail_list(&q->list, &node->link)`. -/
def State.insertTail (s : State π φ) (p : π) (b : ℕ) : Option (State π φ) :=
  if s.Valid (.block b) ∧ s.Valid (s.memory .list).blink then
    some ({ s with
      memory := insertTailList s.memory .list (.block b)
      entered := s.entered ++ [s.item b] }.goto p .signaling)
  else none

/-- `container_of(remove_head_list(&q->list), node_t, link)`. -/
def State.removeHead (s : State π φ) (p : π) : Option (State π φ) :=
  if s.Valid (s.memory .list).flink ∧ s.Valid (s.memory (s.memory .list).flink).flink then
    match (removeHeadList s.memory .list).1 with
    | .block b => some ({ s with memory := (removeHeadList s.memory .list).2 }.goto p (.reading b))
    | .list => none
  else none

/-- One statement of a thread. -/
def State.run (s : State π φ) (p : π) : Option (State π φ) :=
  match s.pc p with
  | .putLocking x => (s.monitor.lock p).map fun m => { s with monitor := m }.goto p (.creating x)
  | .inserting b => s.insertTail p b
  | .putUnlocking => (s.monitor.unlock p).map fun m => { s with monitor := m }.goto p .idle
  | .getLocking => (s.monitor.lock p).map fun m => { s with monitor := m }.goto p .testing
  | .testing => some (s.goto p (if isListEmpty s.memory .list then .sleeping else .removing))
  | .sleeping => (s.monitor.wait .hasItems p).map fun m => { s with monitor := m }.goto p .waiting
  | .waiting => (s.monitor.relock .hasItems p).map fun m => { s with monitor := m }.goto p .testing
  | .removing => s.removeHead p
  | .reading b =>
    if b ∈ s.allocated then
      some ({ s with left := s.left ++ [s.item b] }.goto p (.destroying b (s.item b)))
    else none
  | .destroying b x =>
    if b ∈ s.allocated then
      some ({ s with allocated := s.allocated.erase b }.goto p (.getUnlocking x))
    else none
  | .getUnlocking _ => (s.monitor.unlock p).map fun m => { s with monitor := m }.goto p .idle
  | .idle | .creating _ | .signaling => none

/-- One action of a thread. malloc returns a block that is not allocated. -/
def State.next (s : State π φ) : π × Action π φ → Option (State π φ)
  | (p, .put x) =>
    match s.pc p with
    | .idle => some (s.goto p (.putLocking x))
    | _ => none
  | (p, .get) =>
    match s.pc p with
    | .idle => some (s.goto p .getLocking)
    | _ => none
  | (p, .step) => s.run p
  | (p, .malloc b) =>
    match s.pc p with
    | .creating x =>
      if b ∈ s.allocated then none
      else
        some ({ s with
          item := Function.update s.item b x
          allocated := insert b s.allocated }.goto p (.inserting b))
    | _ => none
  | (p, .signal w) =>
    match s.pc p with
    | .signaling =>
      (s.monitor.signal .hasItems w).map fun m => { s with monitor := m }.goto p .putUnlocking
    | _ => none
  | (p, .wake) =>
    match s.pc p with
    | .waiting => (s.monitor.wake .hasItems p).map fun m => { s with monitor := m }
    | _ => none

/-- After `queue_init`, over a memory that held anything before. -/
def queueInit (garbage : Memory Address) (item : ℕ → φ) : State π φ :=
  ⟨initListHead garbage .list, item, ∅, .new, fun _ => .idle, [], []⟩

/-- All runs of threads that put and get. -/
def queue (π φ : Type*) [DecidableEq π] : System (State π φ) (π × Action π φ) :=
  ofNext (fun s => ∃ garbage item, s = queueInit garbage item) State.next

/-- Between taking the mutex and giving it back. -/
def Pc.Inside : Pc φ → Prop
  | .creating _ | .inserting _ | .signaling | .putUnlocking | .testing | .sleeping | .removing
  | .reading _ | .destroying .. | .getUnlocking _ => True
  | .idle | .putLocking _ | .getLocking | .waiting => False

/-- A node that is allocated and not linked. -/
def Pc.hand : Pc φ → Option ℕ
  | .inserting b | .reading b | .destroying b _ => some b
  | _ => none

/-- A node that was unlinked and not read. -/
def Pc.unlinked : Pc φ → Option ℕ
  | .reading b => some b
  | _ => none

/-- The node in the hands of the thread inside. -/
def State.inHand (s : State π φ) : Option ℕ := s.monitor.holder.bind fun p => (s.pc p).hand

/-- The node that the thread inside unlinked and did not read yet. -/
def State.unlinked (s : State π φ) : Option ℕ := s.monitor.holder.bind fun p => (s.pc p).unlinked

/-- The nodes of a queue are linked in their order, and nothing else is allocated but the
node in somebody's hands. -/
structure Kept (s : State π φ) (hand unlinked : Option ℕ) (nodes : List ℕ) : Prop where
  list : WellFormed s.memory .list (nodes.map .block)
  distinct : (hand.toList ++ nodes).Nodup
  allocated : ∀ b, b ∈ s.allocated ↔ b ∈ hand.toList ++ nodes
  /-- What entered is what left and what is in the nodes. -/
  history : s.entered = s.left ++ (unlinked.toList ++ nodes).map s.item

section Nodes

omit [DecidableEq π]

variable {s : State π φ} {nodes : List ℕ} {b : ℕ}

/-- Linked nodes are allocated. -/
theorem Kept.valid {hand unlinked : Option ℕ} (h : Kept s hand unlinked nodes) {a : Address}
    (ha : a ∈ Address.list :: nodes.map .block) : s.Valid a := by
  rcases List.mem_cons.mp ha with rfl | ha
  · trivial
  · obtain ⟨c, hc, rfl⟩ := List.mem_map.mp ha
    exact (h.allocated c).mpr (List.mem_append_right _ hc)

/-- A new node is in hand. -/
theorem Kept.create (h : Kept s none none nodes) (hb : b ∉ s.allocated) (x : φ) :
    Kept { s with item := Function.update s.item b x, allocated := insert b s.allocated }
      (some b) none nodes := by
  have hout : b ∉ nodes := fun hin => hb ((h.allocated b).mpr hin)
  refine ⟨h.list, List.nodup_cons.mpr ⟨hout, h.distinct⟩, fun c => ?_, h.history.trans ?_⟩
  · rw [Finset.mem_insert, h.allocated c]
    exact List.mem_cons.symm
  · congr 1
    refine List.map_congr_left fun c hc => (Function.update_of_ne (fun he => hout ?_) _ _).symm
    exact he ▸ hc

/-- The node in hand is linked at the tail. -/
theorem Kept.insertTail (h : Kept s (some b) none nodes) :
    Kept { s with
      memory := insertTailList s.memory .list (.block b)
      entered := s.entered ++ [s.item b] } none none (nodes ++ [b]) := by
  have hdistinct : ([b] ++ nodes).Nodup := h.distinct
  have hout : Address.block b ∉ Address.list :: nodes.map .block := by
    simpa using (List.nodup_cons.mp hdistinct).1
  refine ⟨?_, ?_, fun c => ?_, ?_⟩
  · simpa using h.list.insertTailList hout
  · have hrotated : (nodes ++ [b]).Nodup := List.nodup_append_comm.mp hdistinct
    exact hrotated
  · rw [h.allocated c]
    simp [or_comm]
  · simp [h.history]

/-- The node at the head is unlinked, and then in hand. -/
theorem Kept.removeHead (h : Kept s none none (b :: nodes)) :
    (removeHeadList s.memory .list).1 = .block b ∧
      Kept { s with memory := (removeHeadList s.memory .list).2 } (some b) (some b) nodes :=
  ⟨h.list.removeHeadList_fst, h.list.removeHeadList, h.distinct, h.allocated, h.history⟩

/-- The item of the node in hand leaves. -/
theorem Kept.read (h : Kept s (some b) (some b) nodes) :
    Kept { s with left := s.left ++ [s.item b] } (some b) none nodes :=
  ⟨h.list, h.distinct, h.allocated, by simp [h.history]⟩

/-- The node in hand is freed. -/
theorem Kept.destroy (h : Kept s (some b) none nodes) :
    Kept { s with allocated := s.allocated.erase b } none none nodes := by
  have hdistinct : (b :: nodes).Nodup := h.distinct
  obtain ⟨hout, hnodes⟩ := List.nodup_cons.mp hdistinct
  refine ⟨h.list, hnodes, fun c => ?_, h.history⟩
  rw [Finset.mem_erase, h.allocated c]
  constructor
  · rintro ⟨hne, hin⟩
    exact (List.mem_cons.mp hin).resolve_left hne
  · intro hin
    exact ⟨fun he => hout (he ▸ hin), List.mem_cons_of_mem b hin⟩

end Nodes

end SistemasOperativos.LinkedQueue
