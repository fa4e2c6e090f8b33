import SistemasOperativos.DenseArray

/-!
# A scan that removes entries from the array under it

A scan goes through the front of an array, serves the entries that are ready,
and removes those of them that come to their end by moving the last entry over
them. The entry that moved in is behind the scan by then. So the scan serves a
ready entry exactly if its index and the number of entries removed before it add
up to less than the length of the array.
-/

namespace SistemasOperativos.RemovingScan

open DenseArray

/-- Where a scan stands. It stops early when its budget is used up. -/
structure Scan (α : Type*) where
  index : ℕ
  /-- Number of entries in front. -/
  left : ℕ
  budget : ℤ
  entries : ℕ → α
  /-- The entries served, in order. -/
  served : List α

variable {α β : Type*} {ready : α → Prop} {ends : ℕ → α → Prop} [DecidablePred ready]
  [∀ i, DecidablePred (ends i)]

/-- The scan passes one entry. -/
def Scan.next (ready : α → Prop) (ends : ℕ → α → Prop) [DecidablePred ready]
    [∀ i, DecidablePred (ends i)] (s : Scan α) : Option (Scan α) :=
  if s.index < s.left ∧ 0 < s.budget then
    if ready (s.entries s.index) then
      if ends s.index (s.entries s.index) then
        some ⟨s.index + 1, s.left - 1, s.budget - 1, moveLast s.entries s.left s.index,
          s.served ++ [s.entries s.index]⟩
      else
        some { s with index := s.index + 1, served := s.served ++ [s.entries s.index] }
    else some { s with index := s.index + 1 }
  else none

/-- Number of entries of `f` that a scan from `a` on removes before it comes to index `i`. -/
def removals (ready : α → Prop) (ends : ℕ → α → Prop) [DecidablePred ready]
    [∀ i, DecidablePred (ends i)] (f : ℕ → α) (a i : ℕ) : ℕ :=
  ((Finset.Ico a i).filter fun j => ready (f j) ∧ ends j (f j)).card

/-- A later index has as many removals before it, or more. -/
theorem removals_mono (f : ℕ → α) (a : ℕ) {i j : ℕ} (hij : i ≤ j) :
    removals ready ends f a i ≤ removals ready ends f a j :=
  Finset.card_le_card (Finset.filter_subset_filter _ (Finset.Ico_subset_Ico_right hij))

/-- One more entry is removed, or is not. -/
theorem removals_succ (f : ℕ → α) {a i : ℕ} (hi : a ≤ i) :
    removals ready ends f a (i + 1) =
      removals ready ends f a i + if ready (f i) ∧ ends i (f i) then 1 else 0 := by
  rw [removals, ← Finset.insert_Ico_right_eq_Ico_add_one hi, Finset.filter_insert]
  split
  · rw [Finset.card_insert_of_notMem fun hmem => ?_, removals]
    exact absurd (Finset.mem_Ico.mp (Finset.mem_filter.mp hmem).1).2 (lt_irrefl i)
  · rw [removals, Nat.add_zero]

/-- Removals depend on the entries that the scan passes. -/
theorem removals_congr {f g : ℕ → α} {a i : ℕ} (h : ∀ j, a ≤ j → j < i → f j = g j) :
    removals ready ends f a i = removals ready ends g a i := by
  refine congrArg Finset.card (Finset.filter_congr fun j hj => ?_)
  obtain ⟨hlow, hhigh⟩ := Finset.mem_Ico.mp hj
  rw [h j hlow hhigh]

/-- The entries before index `i` that are ready, in order. -/
def readyBefore (ready : α → Prop) [DecidablePred ready] (f : ℕ → α) (a i : ℕ) : List ℕ :=
  (List.range' a (i - a)).filter fun j => ready (f j)

/-- One more entry is ready, or is not. -/
theorem readyBefore_succ (f : ℕ → α) {a i : ℕ} (hi : a ≤ i) :
    readyBefore ready f a (i + 1) = readyBefore ready f a i ++ if ready (f i) then [i] else [] := by
  have hlast : a + 1 * (i - a) = i := by omega
  rw [readyBefore, Nat.sub_add_comm hi, List.range'_concat, List.filter_append, hlast,
    List.filter_cons, List.filter_nil, readyBefore]
  simp only [decide_eq_true_eq]

/-- What a scan has done that started at index `a` of `n` entries. -/
structure Kept (ready : α → Prop) (ends : ℕ → α → Prop) [DecidablePred ready]
    [∀ i, DecidablePred (ends i)] (f : ℕ → α) (a n : ℕ) (b : ℤ) (s : Scan α) : Prop where
  start_le : a ≤ s.index
  left_eq : s.left + removals ready ends f a s.index = n
  budget_eq : s.budget = b - removals ready ends f a s.index
  /-- Removed entries were ahead of the index when it came to them. -/
  passed : ∀ j, a ≤ j → j < s.index → j + removals ready ends f a j < n
  /-- The entries ahead are those of the start. -/
  ahead : ∀ j, s.index ≤ j → s.entries j = f j
  served_eq : s.served = (readyBefore ready f a s.index).map f

variable {f : ℕ → α} {a n k : ℕ} {b : ℤ} {s t : Scan α}

/-- The start of a scan. -/
theorem kept_start (ready : α → Prop) (ends : ℕ → α → Prop) [DecidablePred ready]
    [∀ i, DecidablePred (ends i)] (f : ℕ → α) (a n : ℕ) (b : ℤ) :
    Kept ready ends f a n b ⟨a, n, b, f, []⟩ where
  start_le := le_rfl
  left_eq := by simp [removals]
  budget_eq := by simp [removals]
  passed j hj hlt := absurd hlt (Nat.not_lt.mpr hj)
  ahead _ _ := rfl
  served_eq := by simp [readyBefore]

/-- Passing an entry that stays in the table. -/
theorem Kept.stays (h : Kept ready ends f a n b s) {served : List α}
    (hpassed : ∀ j, a ≤ j → j < s.index + 1 → j + removals ready ends f a j < n)
    (hremovals : removals ready ends f a (s.index + 1) = removals ready ends f a s.index)
    (hserved : served = (readyBefore ready f a (s.index + 1)).map f) :
    Kept ready ends f a n b { s with index := s.index + 1, served := served } where
  start_le := Nat.le_succ_of_le h.start_le
  left_eq := by
    rw [hremovals]
    exact h.left_eq
  budget_eq := by
    rw [hremovals]
    exact h.budget_eq
  passed := hpassed
  ahead j hj := h.ahead j (Nat.le_of_succ_le hj)
  served_eq := hserved

/-- Passing an entry. -/
theorem Kept.next (h : Kept ready ends f a n b s) (hnext : s.next ready ends = some t) :
    Kept ready ends f a n b t := by
  have hleft := h.left_eq
  have hbudget := h.budget_eq
  unfold Scan.next at hnext
  split at hnext
  · next hgo =>
    have hindex := h.ahead s.index le_rfl
    have hremovals : removals ready ends f a (s.index + 1) =
        removals ready ends f a s.index + if ready (f s.index) ∧ ends s.index (f s.index) then 1
          else 0 := removals_succ f h.start_le
    have hready : readyBefore ready f a (s.index + 1) =
        readyBefore ready f a s.index ++ if ready (f s.index) then [s.index] else [] :=
      readyBefore_succ f h.start_le
    have hpassed : ∀ j, a ≤ j → j < s.index + 1 → j + removals ready ends f a j < n := by
      intro j hj hlt
      rcases Nat.lt_succ_iff_lt_or_eq.mp hlt with hlt | rfl
      · exact h.passed j hj hlt
      · omega
    rw [hindex] at hnext
    split at hnext
    · next hr =>
      rw [if_pos hr] at hready
      split at hnext
      · next he =>
        rw [if_pos ⟨hr, he⟩] at hremovals
        cases hnext
        refine ⟨Nat.le_succ_of_le h.start_le, ?_, ?_, hpassed, fun j hj => ?_, ?_⟩
        · show s.left - 1 + removals ready ends f a (s.index + 1) = n
          omega
        · show s.budget - 1 = b - removals ready ends f a (s.index + 1)
          omega
        · have hlt : s.index < j := hj
          show moveLast s.entries s.left s.index j = f j
          rw [moveLast, Function.update_of_ne hlt.ne', h.ahead j hlt.le]
        · show s.served ++ [f s.index] = _
          rw [h.served_eq, hready, List.map_append, List.map_singleton]
      · next he =>
        rw [if_neg fun hboth => he hboth.2] at hremovals
        cases hnext
        refine h.stays hpassed hremovals ?_
        rw [h.served_eq, hready, List.map_append, List.map_singleton]
    · next hr =>
      rw [if_neg fun hboth => hr hboth.1] at hremovals
      rw [if_neg hr, List.append_nil] at hready
      cases hnext
      refine h.stays hpassed hremovals ?_
      rw [hready]
      exact h.served_eq
  · cases hnext

/-- With a budget for all ready entries of the first `k`, a scan that has stopped
has come to those of them that are not too far behind. -/
theorem Kept.passed_iff (h : Kept ready ends f a n b s) (hstop : s.next ready ends = none)
    (hbudget : (((Finset.Ico a k).filter fun j => ready (f j)).card : ℤ) ≤ b) {j : ℕ} (hj : a ≤ j)
    (hk : j < k) (hready : ready (f j)) :
    j < s.index ↔ j + removals ready ends f a j < n := by
  refine ⟨h.passed j hj, fun hlt => ?_⟩
  by_contra hge
  have hmono : removals ready ends f a s.index ≤ removals ready ends f a j :=
    removals_mono f a (Nat.le_of_not_lt hge)
  have hleft := h.left_eq
  have hstopped : ¬ (s.index < s.left ∧ 0 < s.budget) := by
    intro hgo
    simp only [Scan.next, if_pos hgo] at hstop
    split at hstop
    · split at hstop
      · cases hstop
      · cases hstop
    · cases hstop
  have hin : s.index < s.left := by omega
  have hout : s.budget ≤ 0 := by
    by_contra hpos
    exact hstopped ⟨hin, by omega⟩
  -- entry `j` is ready and was not removed
  have hsub : insert j ((Finset.Ico a s.index).filter fun i => ready (f i) ∧ ends i (f i)) ⊆
      (Finset.Ico a k).filter fun i => ready (f i) := by
    intro i hi
    rcases Finset.mem_insert.mp hi with rfl | hi
    · exact Finset.mem_filter.mpr ⟨Finset.mem_Ico.mpr ⟨hj, hk⟩, hready⟩
    · obtain ⟨hrange, hr, -⟩ := Finset.mem_filter.mp hi
      have hlow := (Finset.mem_Ico.mp hrange).1
      have hhigh := (Finset.mem_Ico.mp hrange).2
      exact Finset.mem_filter.mpr ⟨Finset.mem_Ico.mpr ⟨hlow, by omega⟩, hr⟩
  have hcard := Finset.card_le_card hsub
  rw [Finset.card_insert_of_notMem fun hmem =>
    hge (Finset.mem_Ico.mp (Finset.mem_filter.mp hmem).1).2] at hcard
  have hbudget' := h.budget_eq
  change s.budget = b - removals ready ends f a s.index at hbudget'
  change removals ready ends f a s.index + 1 ≤ _ at hcard
  omega

variable [DecidableEq β]

/-- Entries with different names are served at most once. -/
theorem Kept.count_served (h : Kept ready ends f a n b s) {name : α → β} {m : ℕ} (hm : n ≤ m)
    (hname : ∀ i, a ≤ i → i < m → ∀ j, a ≤ j → j < m → name (f i) = name (f j) → i = j) {j : ℕ}
    (hj : a ≤ j) (hn : j < m) (hready : ready (f j)) :
    (s.served.map name).count (name (f j)) = if j < s.index then 1 else 0 := by
  have hmem (i : ℕ) : i ∈ readyBefore ready f a s.index ↔ (a ≤ i ∧ i < s.index) ∧ ready (f i) := by
    have hstart := h.start_le
    simp only [readyBefore, List.mem_filter, List.mem_range'_1, decide_eq_true_eq]
    refine and_congr_left fun _ => ?_
    omega
  have hbound (i : ℕ) (hi : i ∈ readyBefore ready f a s.index) : a ≤ i ∧ i < m := by
    obtain ⟨⟨hlow, hhigh⟩, -⟩ := (hmem i).mp hi
    have hpassed := h.passed i hlow hhigh
    omega
  rw [h.served_eq, List.map_map]
  split
  · next hlt =>
    refine List.count_eq_one_of_mem ?_ (List.mem_map_of_mem ((hmem j).mpr ⟨⟨hj, hlt⟩, hready⟩))
    refine List.Nodup.map_on (fun x hx y hy he => ?_) ((List.nodup_range' ..).filter _)
    have hxb := hbound x hx
    have hyb := hbound y hy
    exact hname x hxb.1 hxb.2 y hyb.1 hyb.2 he
  · next hge =>
    refine List.count_eq_zero_of_not_mem fun hin => ?_
    obtain ⟨i, hi, he⟩ := List.mem_map.mp hin
    have hib := hbound i hi
    have hij := hname i hib.1 hib.2 j hj hn he
    rw [hij] at hi
    exact hge ((hmem j).mp hi).1.2

/-- A scan that has stopped has served all ready entries of the first `k` once,
exactly if none of them was too far behind when the scan came to it. -/
theorem Kept.served_once_iff (h : Kept ready ends f a n b s) (hstop : s.next ready ends = none)
    (name : α → β) {m : ℕ} (hm : n ≤ m)
    (hname : ∀ i, a ≤ i → i < m → ∀ j, a ≤ j → j < m → name (f i) = name (f j) → i = j)
    (hk : k ≤ m) (hbudget : (((Finset.Ico a k).filter fun j => ready (f j)).card : ℤ) ≤ b) :
    (∀ j, a ≤ j → j < k → ready (f j) → (s.served.map name).count (name (f j)) = 1) ↔
      ∀ j, a ≤ j → j < k → ready (f j) → j + removals ready ends f a j < n := by
  refine forall_congr' fun j => forall_congr' fun hj => forall_congr' fun hlt =>
    forall_congr' fun hready => ?_
  rw [h.count_served hm hname hj (hlt.trans_le hk) hready,
    ← h.passed_iff hstop hbudget hj hlt hready]
  split
  · next hin => exact ⟨fun _ => hin, fun _ => rfl⟩
  · next hout => exact ⟨fun he => (nomatch he), fun hin => absurd hin hout⟩

end SistemasOperativos.RemovingScan
