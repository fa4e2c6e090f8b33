import SistemasOperativos.TransitionRuns
import SistemasOperativos.MachineInt

/-!
# The names of memory channels

A channel lives in a shared-memory object under a name, which any process can
open. Names of objects and paths of files are two namespaces. `mc_destroy`
unmaps the channel, and for the owner also removes its name, but from the
files, so that no name of a channel ever goes away.
-/

namespace SistemasOperativos.ChannelNames

open TransitionRuns MachineInt

/-- `sizeof(mem_channel_t)`. -/
abbrev sizeofMemChannel : ℤ := 168

/-- `total_size_in_bytes`. -/
def totalSize (elemSize capacity : ℤ) : ℤ := int32 (int32 (elemSize * capacity) + sizeofMemChannel)

/-- A shared-memory object, with the fields of the channel that are read when it
is destroyed. -/
structure Object where
  /-- Length in bytes. -/
  length : ℤ
  elemSize : ℤ
  capacity : ℤ
  owner : ℕ
  deriving DecidableEq, Repr

/-- A region of a process that shows an object. -/
structure Mapping (ν : Type*) where
  pid : ℕ
  name : ν

/-- The two namespaces, the mapped regions, and what the calls said and did. -/
structure State (ν : Type*) where
  /-- Objects by name. -/
  shm : ν → Option Object
  /-- Paths of files. -/
  files : Finset ν
  /-- Mapped regions by address. -/
  maps : ℕ → Option (Mapping ν)
  /-- Number of regions mapped so far. -/
  nmaps : ℕ
  /-- The process that created a name and has not called `mc_destroy` on it since. -/
  creator : ν → Option ℕ
  /-- Files that calls of `mc_destroy` removed. -/
  removed : List ν

/-- What happens next. -/
inductive Action (ν : Type*)
  /-- `mc_create`. -/
  | mcCreate (pid : ℕ) (name : ν) (elemSize capacity : ℤ)
  /-- `mc_open`. -/
  | mcOpen (pid : ℕ) (name : ν)
  /-- `mc_destroy`. -/
  | mcDestroy (pid rb : ℕ) (name : ν)
  /-- Some program writes a file. -/
  | touch (path : ν)

variable {ν : Type*} [DecidableEq ν]

/-- `shm_open` with `O_CREAT`. A name without an object gets an empty one. -/
def State.shmOpenCreate (s : State ν) (name : ν) : State ν :=
  match s.shm name with
  | none => { s with shm := Function.update s.shm name (some ⟨0, 0, 0, 0⟩) }
  | some _ => s

/-- `ftruncate`. -/
def State.ftruncate (s : State ν) (name : ν) (size : ℤ) : State ν :=
  { s with
    shm := Function.update s.shm name ((s.shm name).map fun o => { o with length := size }) }

/-- `shmem_internal_map`. A region has at least one byte. -/
def State.internalMap (s : State ν) (pid : ℕ) (name : ν) (size : ℤ) : Option ℕ × State ν :=
  if size = 0 then (none, s)
  else (some s.nmaps, { s with
    maps := Function.update s.maps s.nmaps (some ⟨pid, name⟩)
    nmaps := s.nmaps + 1 })

/-- `shmem_create`. A negative size is refused by `ftruncate`. -/
def State.shmemCreate (s : State ν) (pid : ℕ) (name : ν) (size : ℤ) : Option ℕ × State ν :=
  if size < 0 then (none, s.shmOpenCreate name)
  else ((s.shmOpenCreate name).ftruncate name size).internalMap pid name size

/-- `shmem_open`. -/
def State.shmemOpen (s : State ν) (pid : ℕ) (name : ν) : Option ℕ × State ν :=
  match s.shm name with
  | none => (none, s)
  | some o => s.internalMap pid name o.length

/-- `munmap`. -/
def State.munmap (s : State ν) (base : ℕ) : State ν :=
  { s with maps := Function.update s.maps base none }

/-- `unlink`, which knows paths of files only. -/
def State.unlink (s : State ν) (path : ν) : State ν :=
  if path ∈ s.files then { s with files := s.files.erase path, removed := s.removed ++ [path] }
  else s

/-- `shmem_destroy`. -/
def State.shmemDestroy (s : State ν) (name : ν) (base : ℕ) : State ν := (s.munmap base).unlink name

/-- `mc_create`, with none for a null pointer. -/
def State.mcCreate (s : State ν) (pid : ℕ) (name : ν) (elemSize capacity : ℤ) :
    Option ℕ × State ν :=
  match s.shmemCreate pid name (totalSize elemSize capacity) with
  | (none, s) => (none, s)
  | (some rb, s) =>
    (some rb, { s with
      shm := Function.update s.shm name ((s.shm name).map fun o =>
        { o with elemSize := elemSize, capacity := capacity, owner := pid })
      creator := Function.update s.creator name (some pid) })

/-- `mc_open`, with none for a null pointer. -/
def State.mcOpen (s : State ν) (pid : ℕ) (name : ν) : Option ℕ × State ν := s.shmemOpen pid name

/-- The channel that a region of a process shows. -/
def State.channel (s : State ν) (pid rb : ℕ) : Option Object :=
  (s.maps rb).bind fun m => if m.pid = pid then s.shm m.name else none

/-- What the calls so far say about a name, after its creator may have destroyed it. -/
def State.disowned (s : State ν) (pid : ℕ) (name : ν) : State ν :=
  if s.creator name = some pid then { s with creator := Function.update s.creator name none }
  else s

/-- `mc_destroy`, on a channel that can be read. -/
def State.mcDestroy (s : State ν) (pid rb : ℕ) (name : ν) : Option (State ν) :=
  (s.channel pid rb).bind fun o =>
    if o.length = 0 then none
    else if pid = o.owner then some ((s.disowned pid name).shmemDestroy name rb)
    else some ((s.disowned pid name).munmap rb)

/-- One call, or a new file. -/
def State.next (s : State ν) : Action ν → Option (State ν)
  | .mcCreate pid name elemSize capacity => some (s.mcCreate pid name elemSize capacity).2
  | .mcOpen pid name => some (s.mcOpen pid name).2
  | .mcDestroy pid rb name => s.mcDestroy pid rb name
  | .touch path => some { s with files := insert path s.files }

/-- Any files, and no channel yet. -/
structure Started (s : State ν) : Prop where
  shm_eq : ∀ name, s.shm name = none
  maps_eq : ∀ base, s.maps base = none
  creator_eq : ∀ name, s.creator name = none
  removed_eq : s.removed = []

/-- All sequences of calls. -/
def system (ν : Type*) [DecidableEq ν] : System (State ν) (Action ν) := ofNext Started State.next

/-- `mc_open` succeeds exactly on the names that were created and not destroyed
by their creator since, and `mc_destroy` removed no file. -/
structure State.NamesGone (s : State ν) : Prop where
  opens_iff : ∀ pid name, (s.mcOpen pid name).1.isSome ↔ (s.creator name).isSome
  none_removed : s.removed = []

/-- No creator destroys its name, no owner destroys a channel under the path of a
file, and no name in use is created again with a total size of zero. -/
def State.Harmless (s : State ν) : Action ν → Prop
  | .mcCreate _ name elemSize capacity => totalSize elemSize capacity = 0 → s.creator name = none
  | .mcDestroy pid rb name => s.creator name ≠ some pid ∧
      ((s.channel pid rb).map Object.owner = some pid → name ∉ s.files)
  | _ => True

section Names

/-- A name whose object has some bytes. -/
def State.Opens (s : State ν) (name : ν) : Prop := ∃ o, s.shm name = some o ∧ o.length ≠ 0

variable {s t : State ν}

omit [DecidableEq ν] in
/-- Exactly such a name can be opened. -/
theorem mcOpen_isSome (s : State ν) (pid : ℕ) (name : ν) :
    (s.mcOpen pid name).1.isSome ↔ s.Opens name := by
  simp only [State.mcOpen, State.shmemOpen, State.Opens]
  cases s.shm name with
  | none => simp
  | some o =>
    by_cases ho : o.length = 0
    · simp [State.internalMap, ho]
    · simp [State.internalMap, ho]

omit [DecidableEq ν] in
/-- The names that open are those of the calls. -/
theorem namesGone_iff (s : State ν) :
    s.NamesGone ↔ (∀ name, s.Opens name ↔ (s.creator name).isSome) ∧ s.removed = [] := by
  constructor
  · exact fun h => ⟨fun name => (mcOpen_isSome s 0 name).symm.trans (h.opens_iff 0 name),
      h.none_removed⟩
  · exact fun h => ⟨fun pid name => (mcOpen_isSome s pid name).trans (h.1 name), h.2⟩

omit [DecidableEq ν] in
/-- A step that changes neither objects nor creators nor files. -/
theorem namesGone_congr (hshm : t.shm = s.shm) (hcreator : t.creator = s.creator)
    (hremoved : t.removed = s.removed) : t.NamesGone ↔ s.NamesGone := by
  simp only [namesGone_iff, State.Opens, hshm, hcreator, hremoved]

omit [DecidableEq ν] in
/-- Opening a channel changes no name. -/
theorem mcOpen_names (s : State ν) (pid : ℕ) (name : ν) : (s.mcOpen pid name).2.shm = s.shm ∧
    (s.mcOpen pid name).2.creator = s.creator ∧ (s.mcOpen pid name).2.removed = s.removed := by
  simp only [State.mcOpen, State.shmemOpen]
  split
  next => exact ⟨rfl, rfl, rfl⟩
  next o _ =>
    unfold State.internalMap
    split <;> exact ⟨rfl, rfl, rfl⟩

/-- The object that a name has when `mc_create` sets its length. -/
theorem shmOpenCreate_spec (s : State ν) (name : ν) :
    ∃ o, (s.shmOpenCreate name).shm = Function.update s.shm name (some o) ∧
      (s.Opens name ↔ o.length ≠ 0) ∧ (s.shmOpenCreate name).creator = s.creator ∧
      (s.shmOpenCreate name).removed = s.removed := by
  unfold State.shmOpenCreate State.Opens
  cases hname : s.shm name with
  | none => exact ⟨⟨0, 0, 0, 0⟩, rfl, by simp, rfl, rfl⟩
  | some o =>
    have hself : Function.update s.shm name (some o) = s.shm := by
      rw [← hname, Function.update_eq_self]
    exact ⟨o, hself.symm, by simp, rfl, rfl⟩

/-- A name opens after its object was replaced if the new one has some bytes. -/
theorem opens_update {o : Object} {n : ν} (hshm : t.shm = Function.update s.shm n (some o))
    (other : ν) : t.Opens other ↔ if other = n then o.length ≠ 0 else s.Opens other := by
  unfold State.Opens
  rw [hshm]
  split
  next he =>
    rw [he, Function.update_self]
    simp
  next hne => rw [Function.update_of_ne hne]

/-- Creating a name gives it an object of the total size, unless that is negative. -/
theorem mcCreate_spec (s : State ν) (pid : ℕ) (name : ν) (elemSize capacity : ℤ) :
    (s.mcCreate pid name elemSize capacity).2.removed = s.removed ∧
      (∀ other, (s.mcCreate pid name elemSize capacity).2.Opens other ↔
        if other = name ∧ 0 ≤ totalSize elemSize capacity then totalSize elemSize capacity ≠ 0
        else s.Opens other) ∧
      (s.mcCreate pid name elemSize capacity).2.creator =
        if 0 < totalSize elemSize capacity then Function.update s.creator name (some pid)
        else s.creator := by
  obtain ⟨o, hshm, hopens, hcreator, hremoved⟩ := shmOpenCreate_spec s name
  unfold State.mcCreate State.shmemCreate
  rcases lt_trichotomy (totalSize elemSize capacity) 0 with hneg | hzero | hpos
  · rw [if_pos hneg, if_neg (not_lt.mpr hneg.le)]
    refine ⟨hremoved, fun other => ?_, hcreator⟩
    rw [if_neg fun h => absurd h.2 (not_le.mpr hneg)]
    refine (opens_update hshm other).trans ?_
    split
    next he => rw [he, hopens]
    next => exact Iff.rfl
  · rw [hzero, if_neg (lt_irrefl _), if_neg (lt_irrefl _), State.internalMap, if_pos rfl]
    refine ⟨hremoved, fun other => ?_, hcreator⟩
    have hcut : ((s.shmOpenCreate name).ftruncate name 0).shm =
        Function.update s.shm name (some { o with length := 0 }) := by
      simp only [State.ftruncate, hshm, Function.update_self, Option.map_some, Function.update_idem]
    simpa using opens_update hcut other
  · rw [if_neg (not_lt.mpr hpos.le), if_pos hpos, State.internalMap, if_neg hpos.ne']
    refine ⟨hremoved, fun other => ?_, ?_⟩
    · dsimp only [State.ftruncate]
      refine (opens_update (s := s) (n := name) (o := ⟨totalSize elemSize capacity, elemSize,
        capacity, pid⟩) ?_ other).trans ?_
      · simp only [hshm, Function.update_self, Option.map_some, Function.update_idem]
      · simp only [hpos.le, and_true]
    · exact congrArg (fun f => Function.update f name (some pid)) hcreator

/-- `unlink` removes a file of that path and no object. -/
theorem unlink_spec (s : State ν) (path : ν) : (s.unlink path).shm = s.shm ∧
    (s.unlink path).creator = s.creator ∧
    (s.unlink path).removed = s.removed ++ (if path ∈ s.files then [path] else []) := by
  unfold State.unlink
  split
  next hmem => exact ⟨rfl, rfl, rfl⟩
  next hmem => exact ⟨rfl, rfl, (List.append_nil _).symm⟩

/-- What `mc_destroy` does to the names: the claim of the creator ends, and for
the owner of the channel a file of that path is removed. -/
theorem mcDestroy_spec {pid rb : ℕ} {name : ν} (h : s.mcDestroy pid rb name = some t) :
    t.shm = s.shm ∧
      t.creator = (if s.creator name = some pid then Function.update s.creator name none
        else s.creator) ∧
      t.removed = s.removed ++
        (if (s.channel pid rb).map Object.owner = some pid ∧ name ∈ s.files then [name] else []) := by
  obtain ⟨o, ho, h⟩ := Option.bind_eq_some_iff.mp h
  have hdisowned : (s.disowned pid name).shm = s.shm ∧
      (s.disowned pid name).creator = (if s.creator name = some pid then
        Function.update s.creator name none else s.creator) ∧
      (s.disowned pid name).removed = s.removed ∧ (s.disowned pid name).files = s.files := by
    unfold State.disowned
    split <;> exact ⟨rfl, rfl, rfl, rfl⟩
  obtain ⟨hshm, hcreator, hremoved, hfiles⟩ := hdisowned
  rw [ho, Option.map_some]
  split at h
  · cases h
  · split at h
    next howner =>
      cases h
      obtain ⟨hshm', hcreator', hremoved'⟩ := unlink_spec ((s.disowned pid name).munmap rb) name
      refine ⟨hshm'.trans hshm, hcreator'.trans hcreator, hremoved'.trans ?_⟩
      simp only [State.munmap, hremoved, hfiles, ← howner, true_and]
    next hother =>
      cases h
      refine ⟨hshm, hcreator, hremoved.trans ?_⟩
      rw [if_neg fun hc => hother (Option.some.inj hc.1).symm, List.append_nil]

/-- A step from a state whose names are those of the calls keeps them so exactly
when it is harmless. -/
theorem namesGone_next_iff (hs : s.NamesGone) {a : Action ν} (h : s.next a = some t) :
    t.NamesGone ↔ s.Harmless a := by
  obtain ⟨hopens, hnone⟩ := (namesGone_iff s).mp hs
  cases a with
  | mcCreate pid name elemSize capacity =>
    cases h
    obtain ⟨hremoved, hnew, hcreator⟩ := mcCreate_spec s pid name elemSize capacity
    rw [namesGone_iff, hremoved, hcreator]
    simp only [hnew, hnone, and_true, State.Harmless]
    rcases lt_trichotomy (totalSize elemSize capacity) 0 with hneg | hzero | hpos
    · simp only [not_le.mpr hneg, and_false, if_false, not_lt.mpr hneg.le, hopens, implies_true,
        hneg.ne, false_implies]
    · simp only [hzero, le_refl, and_true, ne_eq, not_true_eq_false, lt_irrefl, if_false,
        true_implies]
      constructor
      · intro hall
        have hname := hall name
        rw [if_pos rfl] at hname
        exact Option.not_isSome_iff_eq_none.mp hname.mpr
      · intro hfree other
        split
        next he => rw [he, hfree]; simp
        next => exact hopens other
    · simp only [hpos.le, and_true, hpos, if_true, hpos.ne', ne_eq, not_false_eq_true,
        false_implies, iff_true]
      intro other
      rcases eq_or_ne other name with rfl | hne
      · simp
      · rw [if_neg hne, Function.update_of_ne hne, hopens]
  | mcOpen pid name =>
    cases h
    obtain ⟨hshm, hcreator, hremoved⟩ := mcOpen_names s pid name
    rw [namesGone_congr hshm hcreator hremoved]
    exact iff_of_true hs trivial
  | mcDestroy pid rb name =>
    obtain ⟨hshm, hcreator, hremoved⟩ := mcDestroy_spec h
    have hsame : ∀ other, t.Opens other ↔ s.Opens other := fun other => by
      unfold State.Opens
      rw [hshm]
    rw [namesGone_iff, hremoved, hcreator, hnone, List.nil_append]
    simp only [hsame, hopens, State.Harmless]
    refine and_congr ?_ ?_
    · split
      next hclaimed =>
        refine iff_of_false (fun hall => ?_) (not_not_intro hclaimed)
        have hname := hall name
        rw [Function.update_self, hclaimed] at hname
        simp at hname
      next hother => exact iff_of_true (fun _ => Iff.rfl) hother
    · simp only [ite_eq_right_iff, List.cons_ne_nil, imp_false, not_and]
  | touch path =>
    cases h
    have hsame : State.NamesGone { s with files := insert path s.files } ↔ s.NamesGone :=
      namesGone_congr rfl rfl rfl
    exact iff_of_true (hsame.mpr hs) trivial

end Names

/-- Along a sequence of calls, exactly the names that are in use can be opened and
no file is removed, if and only if every call is harmless. -/
theorem names_gone_iff_harmless (ν : Type*) [DecidableEq ν] (s t : State ν)
    (trace : List (Transition (State ν) (Action ν))) (hs : (system ν).init s)
    (hrun : (system ν).Run s trace t) :
    (∀ x ∈ trace, x.target.NamesGone) ↔ ∀ x ∈ trace, x.source.Harmless x.label := by
  have hstart : s.NamesGone := by
    rw [namesGone_iff]
    refine ⟨fun name => iff_of_false ?_ ?_, hs.removed_eq⟩
    · rintro ⟨o, ho, -⟩
      rw [hs.shm_eq] at ho
      cases ho
    · rw [hs.creator_eq]
      simp
  exact hrun.forall_good_iff hstart fun s a t hgood hstep => namesGone_next_iff hgood hstep

/-- No channel and no file. -/
def noChannels : State String := ⟨fun _ => none, ∅, fun _ => none, 0, fun _ => none, []⟩

/-- A run may start there. -/
theorem started_noChannels : (system String).init noChannels :=
  ⟨fun _ => rfl, fun _ => rfl, fun _ => rfl, rfl⟩

/-- A client that opens a channel and destroys it leaves the name as it was. -/
theorem names_gone_client_only : ∃ (t : State String)
    (trace : List (Transition (State String) (Action String))),
    (system String).Run noChannels trace t ∧ trace.map Transition.label =
      [.mcCreate 7 "/echo" 16 4, .mcOpen 8 "/echo", .mcDestroy 8 1 "/echo"] ∧
    ∀ x ∈ trace, x.target.NamesGone := by
  have hcreate : noChannels.next (.mcCreate 7 "/echo" 16 4) = some _ := rfl
  have hopen : (noChannels.mcCreate 7 "/echo" 16 4).2.next (.mcOpen 8 "/echo") = some _ := rfl
  obtain ⟨t, hdestroy⟩ : ∃ t, ((noChannels.mcCreate 7 "/echo" 16 4).2.mcOpen 8 "/echo").2.next
      (.mcDestroy 8 1 "/echo") = some t := Option.isSome_iff_exists.mp (by decide +kernel)
  have hrun : (system String).Run noChannels _ t :=
    (((System.Run.nil noChannels).snoc hcreate).snoc hopen).snoc hdestroy
  refine ⟨t, _, hrun, rfl,
    (names_gone_iff_harmless String _ _ _ started_noChannels hrun).mpr ?_⟩
  simp only [List.nil_append, List.cons_append, List.forall_mem_cons, State.Harmless]
  refine ⟨fun _ => rfl, trivial, ⟨by decide +kernel, fun howner => ?_⟩, fun _ hx => nomatch hx⟩
  exact absurd howner (by decide +kernel)

/-- A process creates a channel and destroys it, next to a file of the same path. -/
theorem destroyed_name_opens : ∃ s : State String, (system String).Reachable s ∧
    s.creator "/echo" = none ∧ (s.mcOpen 8 "/echo").1.isSome ∧ s.removed = ["/echo"] := by
  have hstart : (system String).Reachable noChannels := .start started_noChannels
  obtain ⟨s, hs, hbad⟩ := hstart.exists_of_any
    [.touch "/echo", .mcCreate 7 "/echo" 16 4, .mcDestroy 7 0 "/echo"]
    (p := fun s => s.creator "/echo" = none ∧ (s.mcOpen 8 "/echo").1.isSome ∧
      s.removed = ["/echo"]) (by decide +kernel)
  exact ⟨s, hs, of_decide_eq_true hbad⟩

end SistemasOperativos.ChannelNames
