import SistemasOperativos.ConditionMonitor

/-!
# Locks that let one thread in at a time

A thread acquires a lock and releases it again. Whatever a lock stores, it shows
who is in, which is nobody or one thread. A mutex stores its holder, and a
semaphore of one unit stores how many units it has.
-/

namespace SistemasOperativos.ExclusiveLock

open ConditionMonitor

variable {σ τ : Type*}

/-- A lock that stores values of a type, and what its two calls do. A call that has to wait
gives nothing. -/
structure Lock (σ τ : Type*) where
  new : σ
  acquire : σ → τ → Option σ
  release : σ → τ → Option σ

/-- A lock that shows who is in, under a way to read what it stores. -/
structure Excludes (L : Lock σ τ) (Shows : σ → Option τ → Prop) : Prop where
  new : Shows L.new none
  /-- Who acquires the lock finds nobody in. -/
  acquire : ∀ {m m' : σ} {o : Option τ} {p : τ}, Shows m o → L.acquire m p = some m' →
    o = none ∧ Shows m' (some p)
  /-- Nobody waits for a lock with nobody in. -/
  free : ∀ {m : σ} (p : τ), Shows m none → ∃ m', L.acquire m p = some m'
  /-- Who is in can release the lock. -/
  release : ∀ {m : σ} {p : τ}, Shows m (some p) → ∃ m', L.release m p = some m' ∧ Shows m' none

/-- A semaphore with its number of units. A post adds one, whoever makes it. -/
def semaphore (τ : Type*) (units : ℕ) : Lock ℕ τ where
  new := units
  acquire m _ := if m = 0 then none else some (m - 1)
  release m _ := some (m + 1)

/-- A mutex, without conditions. -/
def mutex (τ : Type*) [DecidableEq τ] : Lock (Monitor τ Empty) τ where
  new := .new
  acquire := Monitor.lock
  release := Monitor.unlock

/-- The unit of a semaphore that has one is there when nobody is in. -/
def OneUnit (m : ℕ) (o : Option τ) : Prop := m = if o.isNone then 1 else 0

/-- A semaphore of one unit lets one thread in at a time. -/
theorem semaphore_excludes : Excludes (semaphore τ 1) OneUnit where
  new := rfl
  acquire {m m' o p} hm hacquire := by
    simp only [semaphore, Option.ite_none_left_eq_some, Option.some.injEq] at hacquire
    obtain ⟨hpos, rfl⟩ := hacquire
    cases o with
    | none =>
      refine ⟨rfl, ?_⟩
      rw [show m = 1 from hm]
      rfl
    | some q => exact absurd hm hpos
  free {m} p hm := by
    rw [show m = 1 from hm]
    exact ⟨0, rfl⟩
  release {m p} hm := by
    rw [show m = 0 from hm]
    exact ⟨1, rfl, rfl⟩

/-- A mutex lets one thread in at a time. -/
theorem mutex_excludes [DecidableEq τ] : Excludes (mutex τ) fun m o => m.holder = o where
  new := rfl
  acquire {m m' o p} hm hacquire := by
    obtain ⟨hfree, rfl⟩ := Monitor.lock_spec hacquire
    exact ⟨hm.symm.trans hfree, rfl⟩
  free {m} p hm := ⟨_, if_pos hm⟩
  release {m p} hm := ⟨_, if_pos hm, rfl⟩

end SistemasOperativos.ExclusiveLock
