import SistemasOperativos.PgrepRun

/-!
# What the search program prints

When `ut_run` has returned, the three threads have left, the marker of the end
has passed both queues behind all chunks, and the chunks that contain the word
have been printed in the order of the file. `presenter` counts them in an `int`.
-/

namespace SistemasOperativos.Pgrep

open TransitionRuns UThread UThreadConservation UThreadQueue
open ByteMemory (Byte)

variable {file : Option (List Chunk)} {word : List Byte} {size : Queue → ℤ} {s : State}

/-- `strstr` finds a word that is somewhere in the line. -/
theorem contains_iff {line : Chunk} : Contains word line = true ↔ word <:+: line := by
  unfold Contains strstr
  rw [List.find?_isSome, List.infix_iff_prefix_suffix]
  constructor
  · rintro ⟨rest, hrest, hword⟩
    exact ⟨rest, List.isPrefixOf_iff_prefix.mp hword, (List.mem_tails rest line).mp hrest⟩
  · rintro ⟨rest, hword, hrest⟩
    exact ⟨rest, (List.mem_tails rest line).mpr hrest, List.isPrefixOf_iff_prefix.mpr hword⟩

/-- The chunks of the file that contain the word, in the order of the file. -/
def matching (file : Option (List Chunk)) (word : List Byte) : List Chunk :=
  (chunks file).filter fun line => word <:+: line

/-- They are those that `filter` lets pass. -/
theorem filter_contains (file : Option (List Chunk)) (word : List Byte) :
    (chunks file).filter (Contains word) = matching file word := by
  refine List.filter_congr fun line _ => ?_
  rw [Bool.eq_iff_iff, contains_iff, decide_eq_true_eq]

/-- What the program has done when `ut_run` has returned. -/
structure Finished (file : Option (List Chunk)) (word : List Byte) (s : State) : Prop where
  printed : s.printed = matching file word
  /-- The number of chunks, in a variable of type `int`. -/
  report : s.report = some (wrapInt (matching file word).length)
  exited : ∀ th, s.Exited th
  /-- The closing assertions of `ut_run`. -/
  closing : s.queues.lib.readyQueue = [] ∧ s.queues.lib.numberOfThreads = 0
  empty : ∀ q, s.queues.list q = []

/-- When `ut_run` has returned, everything is done. -/
theorem Inv.finished (h : Inv file word size s) (hsize : Sizes size) (hmain : s.main = .returned) :
    Finished file word s := by
  obtain ⟨-, hclosing⟩ := h.threads.returned hmain
  obtain ⟨loc, hc⟩ := h.conserved
  have hnil : s.queues.lib.descriptors = [] :=
    List.eq_nil_of_length_eq_zero (hc.counted.symm.trans hclosing.2)
  have hgone (th : Thread) : s.Exited th ∧ s.queues.pc th.handle = .idle := by
    refine h.gone hsize (by rw [hmain]; rfl) ?_
    rw [hnil]
    exact List.not_mem_nil
  obtain ⟨hreader, hreaderIdle⟩ := hgone .reader
  obtain ⟨hfilter, hfilterIdle⟩ := hgone .filter
  have hpresenter := (hgone .presenter).1
  change s.reader = .exited at hreader
  change s.filter = .exited at hfilter
  change s.presenter = .exited at hpresenter
  obtain ⟨done, htaken, hkept⟩ := h.streams.filtered
  have hread := h.streams.read
  have hpresented := h.streams.presented
  rw [State.given, hreaderIdle, hreader] at hread
  rw [State.given, hfilterIdle, hfilter] at hkept
  rw [hfilter] at htaken
  rw [hpresenter] at hpresented
  simp only [pendingItem, ReaderPc.left, FilterPc.held, FilterPc.marker, PresenterPc.held,
    List.append_nil] at hread hkept htaken hpresented
  -- the marker has passed the first queue, then the second
  have hfirst := h.order hsize .qreader
  rw [hread, htaken, items] at hfirst
  obtain ⟨hqreader, rfl⟩ := all_removed hfirst.symm
  have hsecond := h.order hsize .qfilter
  rw [hkept, hpresented] at hsecond
  obtain ⟨hqfilter, hprinted⟩ := all_removed hsecond.symm
  rw [filter_contains] at hprinted
  have hreport := h.streams.report_eq
  rw [hpresenter, PresenterPc.report, h.streams.count_eq, hprinted] at hreport
  refine ⟨hprinted, hreport, fun th => (hgone th).1, hclosing, fun q => ?_⟩
  cases q with
  | qreader => exact hqreader
  | qfilter => exact hqfilter

/-- The program has queues for one item. -/
theorem sizes_one : Sizes fun _ => 1 := fun _ => by norm_num [intMax]

/-- The run of the program, for every file, word and size of the queues: it never
stops before `ut_run` has returned, and then everything is done. A file that
cannot be opened has no occurrences. -/
theorem pgrep_filters (file : Option (List Chunk)) (word : List Byte) {size : Queue → ℤ}
    (hsize : Sizes size) :
    ∀ s, (program file word size).Reachable s →
      (∃ t, (program file word size).Steps s t ∧ t.main = .returned) ∧
      (s.next file word = none ↔ s.main = .returned) ∧
      (s.main = .returned → Finished file word s ∧
        ((s.printed.length : ℤ) ≤ intMax → s.report = some (s.printed.length : ℤ)) ∧
        (file = none → s.printed = [] ∧ s.report = some 0)) := by
  intro s hs
  have hI := inv_reachable hs
  refine ⟨returns hsize hs, ⟨fun hnone => ?_, hI.next_none⟩, fun hmain => ?_⟩
  · by_contra hmain
    obtain ⟨t, ht⟩ := hI.next_some hsize hmain
    cases hnone.symm.trans ht
  · have hdone := hI.finished hsize hmain
    refine ⟨hdone, fun hcount => ?_, ?_⟩
    · rw [hdone.printed] at hcount ⊢
      rw [hdone.report, wrapInt_eq (Int.natCast_nonneg _) hcount]
    · rintro rfl
      refine ⟨hdone.printed, hdone.report.trans (congrArg some ?_)⟩
      exact wrapInt_eq (x := 0) le_rfl (by decide)

/-- Two lines, of which the second contains the word, through queues for one item. -/
theorem pgrep_filters_second_line :
    ∃ s, (program (some [[97, 10], [98, 99, 10]]) [99] fun _ => 1).Reachable s ∧
      s.printed = [[98, 99, 10]] ∧ s.report = some 1 := by
  obtain ⟨⟨t, hsteps, hmain⟩, -, -⟩ :=
    pgrep_filters (some [[97, 10], [98, 99, 10]]) [99] sizes_one (start fun _ => 1) (.start rfl)
  have ht : (program (some [[97, 10], [98, 99, 10]]) [99] fun _ => 1).Reachable t :=
    System.Reachable.steps (.start rfl) hsteps
  obtain ⟨hdone, -⟩ :=
    (pgrep_filters (some [[97, 10], [98, 99, 10]]) [99] sizes_one t ht).2.2 hmain
  exact ⟨t, ht, hdone.printed.trans (by decide), hdone.report.trans (by decide)⟩

/-- A file of 2 ^ 31 empty lines, all of which contain the empty word: the number
that is reported is not theirs. -/
theorem pgrep_count_wraps :
    ∃ s, (program (some (List.replicate (2 ^ 31) [10])) [] fun _ => 1).Reachable s ∧
      s.main = .returned ∧ s.printed.length = 2 ^ 31 ∧ s.report = some (-2 ^ 31) := by
  have hstart : (program (some (List.replicate (2 ^ 31) [10])) [] fun _ => 1).Reachable
      (start fun _ => 1) := .start rfl
  obtain ⟨t, hsteps, hmain⟩ := returns sizes_one hstart
  have ht : (program (some (List.replicate (2 ^ 31) [10])) [] fun _ => 1).Reachable t :=
    hstart.steps hsteps
  have hdone := (inv_reachable ht).finished sizes_one hmain
  have hlength : (matching (some (List.replicate (2 ^ 31) [10])) []).length = 2 ^ 31 := by
    unfold matching chunks
    rw [Option.getD_some, List.filter_eq_self.mpr, List.length_replicate]
    exact fun line _ => decide_eq_true List.nil_infix
  refine ⟨t, ht, hmain, ?_, ?_⟩
  · rw [hdone.printed, hlength]
  · rw [hdone.report, hlength]
    decide

end SistemasOperativos.Pgrep
