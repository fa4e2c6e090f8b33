import Mathlib.Tactic

/-!
# Byte-addressed memory with little-endian 64-bit words

A memory is a function from addresses to bytes. Words occupy eight
consecutive bytes at any address. A store changes what a load reads only where
the two ranges overlap, and a run of words on a stack survives every change
outside its own bytes.
-/

namespace SistemasOperativos.ByteMemory

/-- A byte. -/
abbrev Byte := BitVec 8

/-- A machine word. -/
abbrev Word := BitVec 64

/-- Contents of every address. -/
abbrev Memory := ℕ → Byte

/-- The word in the eight bytes from an address on. -/
@[irreducible] def load (m : Memory) (a : ℕ) : Word :=
  BitVec.ofNat 64 ((m a).toNat + 2 ^ 8 * (m (a + 1)).toNat + 2 ^ 16 * (m (a + 2)).toNat +
    2 ^ 24 * (m (a + 3)).toNat + 2 ^ 32 * (m (a + 4)).toNat + 2 ^ 40 * (m (a + 5)).toNat +
    2 ^ 48 * (m (a + 6)).toNat + 2 ^ 56 * (m (a + 7)).toNat)

/-- Replace the eight bytes from an address on. -/
@[irreducible] def store (m : Memory) (a : ℕ) (w : Word) : Memory := fun x =>
  if a ≤ x ∧ x < a + 8 then BitVec.ofNat 8 (w.toNat / 2 ^ (8 * (x - a))) else m x

/-- A load only reads its own eight bytes. -/
theorem load_congr {m m' : Memory} {a : ℕ} (h : ∀ x, a ≤ x → x < a + 8 → m' x = m x) :
    load m' a = load m a := by
  unfold load
  rw [h a (by omega) (by omega), h (a + 1) (by omega) (by omega), h (a + 2) (by omega) (by omega),
    h (a + 3) (by omega) (by omega), h (a + 4) (by omega) (by omega),
    h (a + 5) (by omega) (by omega), h (a + 6) (by omega) (by omega),
    h (a + 7) (by omega) (by omega)]

/-- A store only writes its own eight bytes. -/
theorem store_outside {m : Memory} {a : ℕ} {w : Word} {x : ℕ} (h : x < a ∨ a + 8 ≤ x) :
    store m a w x = m x := by
  rw [store, if_neg (by omega)]

/-- What was stored is loaded. -/
@[simp] theorem load_store_same (m : Memory) (a : ℕ) (w : Word) : load (store m a w) a = w := by
  have hbyte : ∀ i < 8, (store m a w (a + i)).toNat = w.toNat / 2 ^ (8 * i) % 2 ^ 8 := by
    intro i hi
    rw [store, if_pos ⟨by omega, by omega⟩, BitVec.toNat_ofNat, Nat.add_sub_cancel_left]
  have h0 := hbyte 0 (by omega)
  rw [Nat.add_zero] at h0
  have hw := w.isLt
  apply BitVec.eq_of_toNat_eq
  rw [load, BitVec.toNat_ofNat, h0, hbyte 1 (by omega), hbyte 2 (by omega), hbyte 3 (by omega),
    hbyte 4 (by omega), hbyte 5 (by omega), hbyte 6 (by omega), hbyte 7 (by omega)]
  omega

/-- A store elsewhere does not change what is loaded. -/
theorem load_store_disjoint {m : Memory} {a b : ℕ} {w : Word} (h : b + 8 ≤ a ∨ a + 8 ≤ b) :
    load (store m a w) b = load m b :=
  load_congr fun _ _ _ => store_outside (by omega)

/-- Consecutive words from an address upwards. -/
def WordsAt (m : Memory) (a : ℕ) : List Word → Prop
  | [] => True
  | w :: ws => load m a = w ∧ WordsAt m (a + 8) ws

/-- Words are kept by every change outside their bytes. -/
theorem WordsAt.congr {m m' : Memory} (ws : List Word) :
    ∀ {a : ℕ}, WordsAt m a ws → (∀ x, a ≤ x → x < a + 8 * ws.length → m' x = m x) →
      WordsAt m' a ws := by
  induction ws with
  | nil => exact fun _ _ => trivial
  | cons w rest ih =>
    intro a h hm
    simp only [List.length_cons] at hm
    have hfirst : load m' a = load m a := load_congr fun x hlo hhi => hm x hlo (by omega)
    exact ⟨hfirst.trans h.1, ih h.2 fun x hlo hhi => hm x (by omega) (by omega)⟩

/-- Storing the word below a run of words extends the run. -/
theorem WordsAt.push {m : Memory} {a : ℕ} {ws : List Word} (h : WordsAt m (a + 8) ws) (w : Word) :
    WordsAt (store m a w) a (w :: ws) :=
  ⟨load_store_same m a w, h.congr ws fun _ hlo _ => store_outside (by omega)⟩

/-- Store words one after the other from an address upwards. -/
def storeWords (m : Memory) (a : ℕ) : List Word → Memory
  | [] => m
  | w :: ws => storeWords (store m a w) (a + 8) ws

/-- Stored words are there, and nothing else changed. -/
theorem storeWords_spec (ws : List Word) :
    ∀ (m : Memory) (a : ℕ), WordsAt (storeWords m a ws) a ws ∧
      ∀ x, x < a ∨ a + 8 * ws.length ≤ x → storeWords m a ws x = m x := by
  induction ws with
  | nil => exact fun _ _ => ⟨trivial, fun _ _ => rfl⟩
  | cons w rest ih =>
    intro m a
    obtain ⟨hwords, houtside⟩ := ih (store m a w) (a + 8)
    simp only [storeWords, List.length_cons]
    refine ⟨⟨?_, hwords⟩, fun x hx => ?_⟩
    · rw [load_congr (m := store m a w) fun x _ hhi => houtside x (by omega), load_store_same]
    · rw [houtside x (by omega), store_outside (by omega)]

end SistemasOperativos.ByteMemory
