import Mathlib.Algebra.BigOperators.Group.List.Basic
import Mathlib.Data.Int.Order.Basic
import Mathlib.Tactic

/-!
# Serving requests in order while a budget lasts

Requests in a list are granted from the head on, each in full, up to the first
that costs more than what is left. A larger budget grants all that a smaller one
does, and a budget that comes in two parts grants as much as its sum.
-/

namespace SistemasOperativos.GreedyService

variable {β : Type*} (cost : β → ℤ)

/-- The requests that a budget grants. -/
def served (budget : ℤ) : List β → List β
  | [] => []
  | r :: rest => if cost r ≤ budget then r :: served (budget - cost r) rest else []

/-- What the requests of a list cost together. -/
def total (requests : List β) : ℤ := (requests.map cost).sum

/-- The requests that a budget leaves. -/
def unserved (budget : ℤ) (requests : List β) : List β :=
  requests.drop (served cost budget requests).length

@[simp] theorem total_nil : total cost [] = 0 := rfl

@[simp] theorem total_cons (r : β) (rest : List β) :
    total cost (r :: rest) = cost r + total cost rest := by
  simp [total]

@[simp] theorem total_append (xs ys : List β) :
    total cost (xs ++ ys) = total cost xs + total cost ys := by
  simp [total]

variable {cost}

theorem served_cons_of_le {budget : ℤ} {r : β} {rest : List β} (h : cost r ≤ budget) :
    served cost budget (r :: rest) = r :: served cost (budget - cost r) rest := if_pos h

theorem served_cons_of_lt {budget : ℤ} {r : β} {rest : List β} (h : budget < cost r) :
    served cost budget (r :: rest) = [] := if_neg (not_le.mpr h)

theorem unserved_cons_of_le {budget : ℤ} {r : β} {rest : List β} (h : cost r ≤ budget) :
    unserved cost budget (r :: rest) = unserved cost (budget - cost r) rest := by
  rw [unserved, served_cons_of_le h, List.length_cons, List.drop_succ_cons, unserved]

theorem unserved_cons_of_lt {budget : ℤ} {r : β} {rest : List β} (h : budget < cost r) :
    unserved cost budget (r :: rest) = r :: rest := by
  rw [unserved, served_cons_of_lt h, List.length_nil, List.drop_zero]

/-- Requests are granted in order, and the rest is left as it was. -/
theorem served_append_unserved (budget : ℤ) (requests : List β) :
    served cost budget requests ++ unserved cost budget requests = requests := by
  induction requests generalizing budget with
  | nil => rfl
  | cons r rest ih =>
    by_cases h : cost r ≤ budget
    · rw [served_cons_of_le h, unserved_cons_of_le h, List.cons_append, ih]
    · rw [served_cons_of_lt (not_le.mp h), unserved_cons_of_lt (not_le.mp h), List.nil_append]

/-- The grants are paid from the budget. -/
theorem total_served_le {budget : ℤ} (hb : 0 ≤ budget) (requests : List β) :
    total cost (served cost budget requests) ≤ budget := by
  induction requests generalizing budget with
  | nil => exact hb
  | cons r rest ih =>
    by_cases h : cost r ≤ budget
    · have hrest := ih (sub_nonneg.mpr h)
      rw [served_cons_of_le h, total_cons]
      omega
    · rw [served_cons_of_lt (not_le.mp h)]
      exact hb

/-- Nothing is granted exactly if the head, if there is one, costs too much. -/
theorem served_eq_nil_iff {budget : ℤ} {requests : List β} :
    served cost budget requests = [] ↔ ∀ r ∈ requests.head?, budget < cost r := by
  cases requests with
  | nil => simp [served]
  | cons r rest => simp [served]

/-- A budget that comes in two parts grants, in both rounds together, what its sum grants
in one. -/
theorem served_add {budget : ℤ} {more : ℤ} (hmore : 0 ≤ more) (requests : List β) :
    served cost (budget + more) requests =
      served cost budget requests ++
        served cost (budget - total cost (served cost budget requests) + more)
          (unserved cost budget requests) := by
  induction requests generalizing budget with
  | nil => rfl
  | cons r rest ih =>
    by_cases h : cost r ≤ budget
    · have hrest := @ih (budget - cost r)
      have hsum : budget + more - cost r = budget - cost r + more := by omega
      rw [served_cons_of_le (le_trans h (by omega)), hsum, hrest, served_cons_of_le h,
        unserved_cons_of_le h, total_cons, List.cons_append, sub_sub budget]
    · rw [served_cons_of_lt (not_le.mp h), unserved_cons_of_lt (not_le.mp h), total_nil, sub_zero,
        List.nil_append]

/-- Two rounds split the requests in three. -/
theorem served_twice_append (first second : ℤ) (requests : List β) :
    served cost first requests ++ served cost second (unserved cost first requests) ++
      unserved cost second (unserved cost first requests) = requests := by
  rw [List.append_assoc, served_append_unserved, served_append_unserved]

/-- When two rounds leave what one round leaves, they grant the same requests. -/
theorem served_of_unserved_twice {c first second : ℤ} {requests : List β}
    (h : unserved cost c requests = unserved cost second (unserved cost first requests)) :
    served cost c requests =
      served cost first requests ++ served cost second (unserved cost first requests) := by
  have hone : served cost c requests ++ unserved cost c requests = requests :=
    served_append_unserved c requests
  have htwo : served cost first requests ++ served cost second (unserved cost first requests) ++
      unserved cost second (unserved cost first requests) = requests :=
    served_twice_append first second requests
  rw [← h] at htwo
  exact List.append_cancel_right (hone.trans htwo.symm)

/-- When they grant the same requests, they leave the same. -/
theorem unserved_of_served_twice {c first second : ℤ} {requests : List β}
    (h : served cost c requests =
      served cost first requests ++ served cost second (unserved cost first requests)) :
    unserved cost c requests = unserved cost second (unserved cost first requests) := by
  have hone : served cost c requests ++ unserved cost c requests = requests :=
    served_append_unserved c requests
  have htwo : served cost first requests ++ served cost second (unserved cost first requests) ++
      unserved cost second (unserved cost first requests) = requests :=
    served_twice_append first second requests
  rw [← h] at htwo
  exact List.append_cancel_left (hone.trans htwo.symm)

section Positive

variable {c : ℤ} {requests : List β}

/-- Nothing is granted from a budget that is not positive. -/
theorem served_of_nonpos (hpos : ∀ r ∈ requests, 0 < cost r) (hc : c ≤ 0) :
    served cost c requests = [] := by
  refine served_eq_nil_iff.mpr fun r hr => ?_
  have hcost := hpos r (List.mem_of_head? hr)
  omega

/-- Grants of positive requests cost something, unless there are none. -/
theorem total_served_pos (hpos : ∀ r ∈ requests, 0 < cost r)
    (hne : served cost c requests ≠ []) : 0 < total cost (served cost c requests) := by
  have hall : ∀ r ∈ served cost c requests, 0 < cost r := by
    intro r hr
    have hall : served cost c requests ++ unserved cost c requests = requests :=
      served_append_unserved c requests
    refine hpos r ?_
    rw [← hall]
    exact List.mem_append_left _ hr
  cases hcase : served cost c requests with
  | nil => exact absurd hcase hne
  | cons r rest =>
    rw [hcase] at hall
    have hr := hall r List.mem_cons_self
    have hrest : 0 ≤ total cost rest := by
      refine List.sum_nonneg fun x hx => ?_
      obtain ⟨q, hq, rfl⟩ := List.mem_map.mp hx
      exact (hall q (List.mem_cons_of_mem _ hq)).le
    rw [total_cons]
    omega

/-- What a budget leaves after its grants. -/
theorem left_range (hpos : ∀ r ∈ requests, 0 < cost r) :
    min c 0 ≤ c - total cost (served cost c requests) ∧
      c - total cost (served cost c requests) ≤ c := by
  by_cases hne : served cost c requests = []
  · rw [hne, total_nil]
    omega
  · have hc : 0 ≤ c := by
      by_contra hneg
      exact hne (served_of_nonpos hpos (by omega))
    have hcost := total_served_pos hpos hne
    have hpaid : total cost (served cost c requests) ≤ c := total_served_le hc requests
    omega

/-- A budget with a cap that is raised twice, with grants in between, ends like one raised
once by both amounts exactly if the cap cuts nothing, or nothing is granted in between. -/
theorem capped_twice_iff {u a b cap : ℤ} (hpos : ∀ r ∈ requests, 0 < cost r) (hb : 0 < b) :
    (min (u + (a + b)) cap - total cost (served cost (min (u + (a + b)) cap) requests) =
        min (min (u + a) cap - total cost (served cost (min (u + a) cap) requests) + b) cap -
          total cost (served cost
            (min (min (u + a) cap - total cost (served cost (min (u + a) cap) requests) + b) cap)
            (unserved cost (min (u + a) cap) requests)) ∧
      unserved cost (min (u + (a + b)) cap) requests =
        unserved cost
          (min (min (u + a) cap - total cost (served cost (min (u + a) cap) requests) + b) cap)
          (unserved cost (min (u + a) cap) requests)) ↔
      u + (a + b) ≤ cap ∨ served cost (min (u + a) cap) requests = [] := by
  constructor
  · rintro ⟨hunits, hleft⟩
    by_contra hcon
    obtain ⟨hover, hne⟩ := not_or.mp hcon
    have hcost := total_served_pos hpos hne
    have hsame := congrArg (total cost) (served_of_unserved_twice hleft)
    rw [total_append] at hsame
    -- the second raise starts below the cap, so the two together grant or keep more
    omega
  · rintro (hfits | hnone)
    · have hfirst : min (u + a) cap = u + a := by omega
      have hone : min (u + (a + b)) cap = u + a + b := by omega
      have hpaid := (left_range (c := u + a) hpos).2
      rw [hfirst, hone]
      have hsecond : min (u + a - total cost (served cost (u + a) requests) + b) cap =
          u + a - total cost (served cost (u + a) requests) + b := by omega
      have hserved := @served_add β cost (u + a) b hb.le requests
      rw [hsecond]
      refine ⟨?_, unserved_of_served_twice hserved⟩
      rw [hserved, total_append]
      omega
    · have hall : unserved cost (min (u + a) cap) requests = requests := by
        rw [unserved, hnone, List.length_nil, List.drop_zero]
      have hsecond : min (min (u + a) cap - 0 + b) cap = min (u + (a + b)) cap := by omega
      rw [hnone, hall, total_nil, hsecond]
      exact ⟨rfl, rfl⟩

end Positive

end SistemasOperativos.GreedyService
