import Mathlib.Data.List.Chain
import Mathlib.Data.List.Nodup
import Mathlib.Tactic

/-!
# Circular chains of doubly linked nodes

A ring is a head and a sequence of distinct nodes whose forward and backward
links agree all the way round. One operation makes two nodes neighbours. It
closes the gap that a removed node leaves, and used twice it inserts a node.
-/

namespace SistemasOperativos.CircularChain

variable {α : Type*}

/-- Forward and backward link of every node. -/
structure Links (α : Type*) where
  forward : α → α
  backward : α → α

/-- The second node follows the first, and the first precedes the second. -/
def Links.Joined (m : Links α) (a b : α) : Prop := m.forward a = b ∧ m.backward b = a

/-- A head and its entries in order, linked both ways and back to the head. -/
structure Links.Ring (m : Links α) (h : α) (es : List α) : Prop where
  distinct : (h :: es).Nodup
  linked : ((h :: es) ++ [h]).IsChain m.Joined

/-- Make two nodes neighbours. -/
def Links.join [DecidableEq α] (m : Links α) (a b : α) : Links α where
  forward := Function.update m.forward a b
  backward := Function.update m.backward b a

/-- The node in front of the entries that come after `xs`. -/
abbrev before (h : α) (xs : List α) : α := xs.getLastD h

/-- The node behind the entries that come before `ys`. -/
abbrev after (h : α) (ys : List α) : α := ys.headD h

theorem getLast?_cons_eq (h : α) (xs : List α) : (h :: xs).getLast? = some (before h xs) := by
  simp [List.getLast?_cons, List.getLastD_eq_getLast?]

theorem head?_append_eq (h : α) (ys : List α) : (ys ++ [h]).head? = some (after h ys) := by
  cases ys <;> rfl

theorem before_concat (h e : α) (xs : List α) : before h (xs ++ [e]) = e :=
  List.getLastD_concat

theorem before_mem (h : α) (xs : List α) : before h xs ∈ h :: xs :=
  List.mem_of_getLast? (getLast?_cons_eq h xs)

theorem after_mem (h : α) (ys : List α) : after h ys ∈ h :: ys := by
  cases ys with
  | nil => exact List.mem_cons_self
  | cons y ys => exact List.mem_cons_of_mem h List.mem_cons_self

/-- A chain only depends on the forward links of all nodes but the last, and on the
backward links of all nodes but the first. -/
theorem isChain_congr {m m' : Links α} {l : List α} (hl : l.IsChain m.Joined)
    (hf : ∀ x ∈ l.dropLast, m'.forward x = m.forward x)
    (hb : ∀ x ∈ l.tail, m'.backward x = m.backward x) : l.IsChain m'.Joined := by
  induction l with
  | nil => exact List.isChain_nil
  | cons a l ih =>
    cases l with
    | nil => exact List.isChain_singleton a
    | cons b l =>
      rw [List.isChain_cons_cons] at hl ⊢
      have ha : m'.forward a = m.forward a := hf a (by simp)
      have hbb : m'.backward b = m.backward b := hb b (by simp)
      refine ⟨⟨ha.trans hl.1.1, hbb.trans hl.1.2⟩, ih hl.2 ?_ ?_⟩
      · intro x hx
        exact hf x (by simp [hx])
      · intro x hx
        exact hb x (List.mem_of_mem_tail hx)

/-- The part of a ring before a gap, the step over it, and the part behind it. -/
theorem isChain_gap {m : Links α} {h : α} {xs ys : List α} :
    ((h :: (xs ++ ys)) ++ [h]).IsChain m.Joined ↔
      (h :: xs).IsChain m.Joined ∧ (ys ++ [h]).IsChain m.Joined ∧
        m.Joined (before h xs) (after h ys) := by
  have hsplit : (h :: (xs ++ ys)) ++ [h] = (h :: xs) ++ (ys ++ [h]) := by simp
  rw [hsplit, List.isChain_append, getLast?_cons_eq, head?_append_eq]
  simp

/-- The neighbours of an entry in a ring. -/
theorem Links.Ring.neighbours {m : Links α} {h e : α} {xs ys : List α}
    (hring : m.Ring h (xs ++ e :: ys)) :
    m.backward e = before h xs ∧ m.forward e = after h ys := by
  have hleft := (isChain_gap.mp hring.linked).2.2
  have happ : xs ++ e :: ys = (xs ++ [e]) ++ ys := by simp
  rw [happ] at hring
  have hright := (isChain_gap.mp hring.linked).2.2
  rw [before_concat] at hright
  exact ⟨hleft.2, hright.1⟩

/-- The neighbours of the head of a ring. -/
theorem Links.Ring.head_neighbours {m : Links α} {h : α} {es : List α} (hring : m.Ring h es) :
    m.backward h = before h es ∧ m.forward h = after h es := by
  have hlast := hring.linked
  rw [← List.append_nil es, isChain_gap] at hlast
  have hfirst := hring.linked
  rw [← List.nil_append es, isChain_gap] at hfirst
  exact ⟨hlast.2.2.2, hfirst.2.2.1⟩

/-- The two sides of a gap are the same node only in a ring without entries. -/
theorem before_eq_after_iff {h : α} {xs ys : List α} (hd : (h :: (xs ++ ys)).Nodup) :
    before h xs = after h ys ↔ xs ++ ys = [] := by
  have hap : (h :: xs) ++ ys = h :: (xs ++ ys) := rfl
  rw [← hap, List.nodup_append] at hd
  obtain ⟨hxs, -, hcross⟩ := hd
  constructor
  · intro heq
    cases ys with
    | cons y ys => exact absurd heq (hcross _ (before_mem h xs) y (by simp))
    | nil =>
      cases xs using List.reverseRecOn with
      | nil => rfl
      | append_singleton xs x =>
        rw [before_concat] at heq
        exact absurd (heq : x = h) (by rintro rfl; simp at hxs)
  · intro hnil
    obtain ⟨rfl, rfl⟩ := List.append_eq_nil_iff.mp hnil
    rfl

/-- A ring keeps its entries while none of its nodes has a link changed. -/
theorem Links.Ring.frame {m m' : Links α} {h : α} {es : List α} (hring : m.Ring h es)
    (hsame : ∀ x ∈ h :: es, m'.forward x = m.forward x ∧ m'.backward x = m.backward x) :
    m'.Ring h es := by
  refine ⟨hring.distinct, isChain_congr hring.linked ?_ ?_⟩
  · intro x hx
    rw [List.dropLast_concat] at hx
    exact (hsame x hx).1
  · intro x hx
    have hmem : x ∈ h :: es := by
      rcases List.mem_append.mp hx with hes | hh
      · exact List.mem_cons_of_mem h hes
      · simp [List.mem_singleton.mp hh]
    exact (hsame x hmem).2

section Joining

variable [DecidableEq α]

theorem join_forward_of_ne {m : Links α} {a b x : α} (hx : x ≠ a) :
    (m.join a b).forward x = m.forward x := Function.update_of_ne hx _ _

theorem join_backward_of_ne {m : Links α} {a b x : α} (hx : x ≠ b) :
    (m.join a b).backward x = m.backward x := Function.update_of_ne hx _ _

theorem join_joined (m : Links α) (a b : α) : (m.join a b).Joined a b := by
  simp [Links.Joined, Links.join]

/-- A chain is kept by a join whose first node is no source of the chain and whose second
node is no target. -/
theorem isChain_join {m : Links α} {l : List α} {a b : α} (hl : l.IsChain m.Joined)
    (ha : a ∉ l.dropLast) (hb : b ∉ l.tail) : l.IsChain (m.join a b).Joined :=
  isChain_congr hl (fun _ hx => join_forward_of_ne (ne_of_mem_of_not_mem hx ha))
    (fun _ hx => join_backward_of_ne (ne_of_mem_of_not_mem hx hb))

/-- The chain before a gap is kept when the gap is closed to a node outside it. -/
theorem isChain_front_join {m : Links α} {h q : α} {xs : List α}
    (hchain : (h :: xs).IsChain m.Joined) (hd : (h :: xs).Nodup) (hq : q ∉ xs) :
    (h :: xs).IsChain (m.join (before h xs) q).Joined := by
  refine isChain_join hchain ?_ hq
  cases xs using List.reverseRecOn with
  | nil => simp
  | append_singleton xs x =>
    rw [before_concat, ← List.cons_append, List.dropLast_concat]
    rw [← List.cons_append, List.nodup_append] at hd
    exact fun hmem => hd.2.2 x hmem x (by simp) rfl

/-- The chain behind a gap is kept when the gap is closed from a node outside it. -/
theorem isChain_back_join {m : Links α} {h p : α} {ys : List α}
    (hchain : (ys ++ [h]).IsChain m.Joined) (hd : (h :: ys).Nodup) (hp : p ∉ ys) :
    (ys ++ [h]).IsChain (m.join p (after h ys)).Joined := by
  refine isChain_join hchain (by simpa using hp) ?_
  cases ys with
  | nil => simp
  | cons y ys =>
    simp only [List.nodup_cons, List.mem_cons, not_or] at hd
    simp only [after, List.headD_cons, List.cons_append, List.tail_cons, List.mem_append,
      List.mem_singleton, not_or]
    exact ⟨hd.2.1, fun heq => hd.1.1 heq.symm⟩

/-- Closing the gap between two chains of distinct nodes gives a ring. -/
theorem ring_of_join {m : Links α} {h : α} {xs ys : List α} (hd : (h :: (xs ++ ys)).Nodup)
    (hfront : (h :: xs).IsChain m.Joined) (hback : (ys ++ [h]).IsChain m.Joined) :
    (m.join (before h xs) (after h ys)).Ring h (xs ++ ys) := by
  have happ : (h :: xs) ++ ys = h :: (xs ++ ys) := rfl
  have hparts := hd
  rw [← happ, List.nodup_append] at hparts
  obtain ⟨hxs, hys, hcross⟩ := hparts
  have hmem : h ∉ xs ++ ys := (List.nodup_cons.mp hd).1
  refine ⟨hd, isChain_gap.mpr ⟨isChain_front_join hfront hxs ?_, isChain_back_join hback ?_ ?_,
    join_joined m _ _⟩⟩
  · intro hq
    rcases List.mem_cons.mp (after_mem h ys) with hh | hy
    · rw [hh] at hq
      exact hmem (List.mem_append_left ys hq)
    · exact hcross _ (List.mem_cons_of_mem h hq) _ hy rfl
  · exact List.nodup_cons.mpr ⟨fun hh => hmem (List.mem_append_right xs hh), hys⟩
  · exact fun hp => hcross _ (before_mem h xs) _ hp rfl

/-- Removal rule. Joining the neighbours of an entry leaves the ring of the others. -/
theorem Links.Ring.remove {m : Links α} {h e : α} {xs ys : List α}
    (hring : m.Ring h (xs ++ e :: ys)) :
    (m.join (before h xs) (after h ys)).Ring h (xs ++ ys) := by
  have hfront := (isChain_gap.mp hring.linked).1
  have hback := (isChain_gap.mp hring.linked).2.1
  have hd : (h :: (xs ++ ys)).Nodup := by
    refine hring.distinct.sublist ?_
    exact List.Sublist.cons_cons h ((List.sublist_cons_self e ys).append_left xs)
  rw [List.cons_append] at hback
  exact ring_of_join hd hfront (List.isChain_of_isChain_cons hback)

/-- Insertion rule. A new entry is joined to both sides of the gap it goes into. -/
theorem Links.Ring.insert {m : Links α} {h e : α} {xs ys : List α} (hring : m.Ring h (xs ++ ys))
    (he : e ∉ h :: (xs ++ ys)) :
    ((m.join (before h xs) e).join e (after h ys)).Ring h (xs ++ e :: ys) := by
  obtain ⟨hfront, hback, -⟩ := isChain_gap.mp hring.linked
  have happ : (h :: xs) ++ ys = h :: (xs ++ ys) := rfl
  have hparts := hring.distinct
  rw [← happ, List.nodup_append] at hparts
  obtain ⟨hxs, hys, hcross⟩ := hparts
  have hexs : e ∉ h :: xs := fun hmem => he (List.mem_append_left ys hmem)
  have heys : e ∉ ys := fun hmem => he (List.mem_append_right (h :: xs) hmem)
  have hd : (h :: ((xs ++ [e]) ++ ys)).Nodup := by
    have hperm : (e :: h :: (xs ++ ys)).Perm (h :: ((xs ++ [e]) ++ ys)) := by
      rw [List.append_assoc, List.singleton_append]
      exact (List.Perm.swap h e _).trans (List.Perm.cons h List.perm_middle.symm)
    exact hperm.nodup_iff.mp (List.nodup_cons.mpr ⟨he, hring.distinct⟩)
  have hfront' : (h :: (xs ++ [e])).IsChain (m.join (before h xs) e).Joined := by
    rw [← List.cons_append, List.isChain_append, getLast?_cons_eq]
    refine ⟨isChain_front_join hfront hxs fun hmem => hexs (List.mem_cons_of_mem h hmem),
      List.isChain_singleton e, ?_⟩
    simpa using join_joined m (before h xs) e
  have hback' : (ys ++ [h]).IsChain (m.join (before h xs) e).Joined := by
    refine isChain_join hback ?_ ?_
    · rw [List.dropLast_concat]
      exact fun hp => hcross _ (before_mem h xs) _ hp rfl
    · intro hmem
      rcases List.mem_append.mp (List.mem_of_mem_tail hmem) with hy | hh
      · exact heys hy
      · exact hexs (by simp [List.mem_singleton.mp hh])
  have hring' := ring_of_join hd hfront' hback'
  rw [before_concat, List.append_assoc, List.singleton_append] at hring'
  exact hring'

/-- A node joined to itself is a ring without entries. -/
theorem ring_nil_join (m : Links α) (h : α) : (m.join h h).Ring h [] :=
  ⟨by simp, by simpa using join_joined m h h⟩

end Joining

end SistemasOperativos.CircularChain
