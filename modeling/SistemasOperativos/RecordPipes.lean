import Mathlib.Data.List.Basic

/-!
# Pipes that carry records of one size

A pipe is the sequence of the bytes in it. A write puts all its bytes or waits,
and a read takes as many bytes as it asks for, or fewer when there are fewer.
While every writer writes whole records of one size and every reader asks for
that size, the pipe stays a sequence of records and no read is short.
-/

namespace SistemasOperativos.RecordPipes

variable {β : Type*} {capacity size : ℕ} {pipe rest bytes : List β} {records : List (List β)}

/-- An atomic write into a pipe with a capacity. It waits while there is no space. -/
def write (capacity : ℕ) (pipe bytes : List β) : Option (List β) :=
  if pipe.length + bytes.length ≤ capacity then some (pipe ++ bytes) else none

/-- A read that waits while the pipe is empty: the bytes read and those left. -/
def read (size : ℕ) (pipe : List β) : Option (List β × List β) :=
  match pipe with
  | [] => none
  | first :: rest => some ((first :: rest).take size, (first :: rest).drop size)

/-- The pipe holds these records, each of the given size. -/
structure Framed (size : ℕ) (pipe : List β) (records : List (List β)) : Prop where
  content : pipe = records.flatten
  whole : ∀ r ∈ records, r.length = size

theorem framed_nil (size : ℕ) : Framed size ([] : List β) [] :=
  ⟨rfl, by simp⟩

theorem Framed.length_eq (h : Framed size pipe records) :
    pipe.length = records.length * size := by
  rw [h.content]
  have hwhole := h.whole
  clear h
  induction records with
  | nil => simp
  | cons r records ih =>
    rw [List.flatten_cons, List.length_append, hwhole r List.mem_cons_self,
      ih fun q hq => hwhole q (List.mem_cons_of_mem r hq), List.length_cons, Nat.succ_mul,
      Nat.add_comm]

/-- The number of records is read off the number of bytes. -/
theorem Framed.count_eq (h : Framed size pipe records) (hsize : 0 < size) :
    pipe.length / size = records.length := by
  rw [h.length_eq, Nat.mul_div_cancel _ hsize]

/-- A write of a whole record adds it behind the others. -/
theorem Framed.write (h : Framed size pipe records) (hbytes : bytes.length = size)
    (hwrite : RecordPipes.write capacity pipe bytes = some rest) :
    Framed size rest (records ++ [bytes]) := by
  obtain ⟨-, hrest⟩ := Option.ite_none_right_eq_some.mp hwrite
  constructor
  · rw [List.flatten_append, List.flatten_singleton, ← h.content]
    exact (Option.some.inj hrest).symm
  · intro r hr
    rcases List.mem_append.mp hr with hold | hnew
    · exact h.whole r hold
    · rw [List.mem_singleton.mp hnew, hbytes]

/-- A read returns exactly the oldest record. -/
theorem Framed.read (h : Framed size pipe records) (hsize : 0 < size)
    (hread : RecordPipes.read size pipe = some (bytes, rest)) :
    ∃ records', records = bytes :: records' ∧ Framed size rest records' := by
  cases hrecords : records with
  | nil =>
    rw [h.content, hrecords] at hread
    cases hread
  | cons r records' =>
    have hlength := h.whole r (by simp [hrecords])
    have hpipe : pipe = r ++ records'.flatten := by
      rw [h.content, hrecords, List.flatten_cons]
    have hboth : RecordPipes.read size pipe = some (pipe.take size, pipe.drop size) := by
      cases pipe with
      | nil =>
        have hr := (List.append_eq_nil_iff.mp hpipe.symm).1
        rw [hr, List.length_nil] at hlength
        omega
      | cons first others => rfl
    rw [hboth, hpipe, List.take_left' hlength, List.drop_left' hlength] at hread
    cases hread
    exact ⟨records', rfl, rfl, fun q hq => h.whole q (by simp [hrecords, hq])⟩

/-- A read only waits when there is no record. -/
theorem Framed.read_eq_none (h : Framed size pipe records) (hsize : 0 < size) :
    RecordPipes.read size pipe = none ↔ records = [] := by
  cases hpipe : pipe with
  | nil =>
    have hlength := h.length_eq
    rw [hpipe] at hlength
    have hzero : records.length = 0 := by
      rcases Nat.mul_eq_zero.mp hlength.symm with hr | hs
      · exact hr
      · omega
    simpa [RecordPipes.read] using List.length_eq_zero_iff.mp hzero
  | cons first rest =>
    have hne : records ≠ [] := by
      intro hnil
      rw [h.content, hnil] at hpipe
      cases hpipe
    simp [RecordPipes.read, hne]

/-- A write into a pipe that has room for the records and one more does not wait. -/
theorem Framed.write_isSome (h : Framed size pipe records) (hbytes : bytes.length = size)
    (hroom : (records.length + 1) * size ≤ capacity) :
    RecordPipes.write capacity pipe bytes = some (pipe ++ bytes) := by
  refine if_pos ?_
  rw [h.length_eq, hbytes, ← Nat.succ_mul]
  exact hroom

end SistemasOperativos.RecordPipes
