import Mathlib.Logic.Function.Basic
import Mathlib.Algebra.Ring.Nat
import Mathlib.Tactic.Common

/-!
# Byte-addressed memory

Memory is a function from addresses to bytes. Words are little-endian: loads and
stores of `n` bytes at any address, with what a store changes and leaves alone.
-/
namespace ByteMemory

abbrev Memory := ℕ → UInt8

/-- The little-endian value of the `n` bytes from `a` on. -/
def load (m : Memory) (a : ℕ) : ℕ → ℕ
  | 0 => 0
  | n + 1 => (m a).toNat + 256 * load m (a + 1) n

/-- Stores the `n` low bytes of `v` from `a` on. -/
def store (m : Memory) (a v : ℕ) : ℕ → Memory
  | 0 => m
  | n + 1 => store (Function.update m a (UInt8.ofNat v)) (a + 1) (v / 256) n

/-- Copies `n` bytes from `src` to `dst`, areas that do not overlap. -/
def copy (m : Memory) (dst src n : ℕ) : Memory := fun i =>
  if dst ≤ i ∧ i < dst + n then m (src + (i - dst)) else m i

/-- `n` bytes of value `v` from `a` on. -/
def fill (m : Memory) (a : ℕ) (v : UInt8) (n : ℕ) : Memory := fun i =>
  if a ≤ i ∧ i < a + n then v else m i

theorem load_congr {m m' : Memory} {a n : ℕ} (h : ∀ i, a ≤ i → i < a + n → m' i = m i) :
    load m' a n = load m a n := by
  induction n generalizing a with
  | zero => rfl
  | succ n ih =>
    rw [load, load, h a (Nat.le_refl a) (by omega), ih fun i hi hi' => h i (by omega) (by omega)]

theorem store_outside (m : Memory) (v : ℕ) {a n i : ℕ} (h : i < a ∨ a + n ≤ i) :
    store m a v n i = m i := by
  induction n generalizing m a v with
  | zero => rfl
  | succ n ih =>
    rw [store, ih _ _ (by omega), Function.update_of_ne (by omega)]

theorem load_lt (m : Memory) (a n : ℕ) : load m a n < 256 ^ n := by
  induction n generalizing a with
  | zero => exact Nat.one_pos
  | succ n ih =>
    have hbyte := (m a).toNat_lt
    have hrest := ih (a + 1)
    rw [load, Nat.pow_succ]
    omega

theorem load_store (m : Memory) (a : ℕ) {v n : ℕ} (h : v < 256 ^ n) :
    load (store m a v n) a n = v := by
  induction n generalizing m a v with
  | zero =>
    rw [Nat.pow_zero] at h
    simp [load]
    omega
  | succ n ih =>
    have hrest : v / 256 < 256 ^ n := by
      rw [Nat.pow_succ] at h
      omega
    rw [store, load, ih _ _ hrest, store_outside _ _ (by omega), Function.update_self]
    simp
    omega

/-- Loads next to a store do not see it. -/
theorem load_store_apart (m : Memory) (v : ℕ) {a n b k : ℕ} (h : b + k ≤ a ∨ a + n ≤ b) :
    load (store m a v n) b k = load m b k :=
  load_congr fun _ _ _ => store_outside m v (by omega)

theorem store_congr {m m' : Memory} {a v n i : ℕ} (h : m' i = m i) : store m' a v n i = store m a v n i := by
  induction n generalizing m m' a v with
  | zero => exact h
  | succ n ih =>
    refine ih ?_
    by_cases hi : i = a
    · simp only [hi, Function.update_self]
    · simp only [Function.update_of_ne hi, h]

/-- The low bytes of a word. -/
theorem load_firsts {m : Memory} {a k n : ℕ} (h : k ≤ n) : load m a k = load m a n % 256 ^ k := by
  induction k generalizing a n with
  | zero => simp [load, Nat.mod_one]
  | succ k ih =>
    obtain ⟨n, rfl⟩ : ∃ j, n = j + 1 := ⟨n - 1, by omega⟩
    have hbyte := (m a).toNat_lt
    have hmod : ((m a).toNat + 256 * load m (a + 1) n) % (256 * 256 ^ k) =
        ((m a).toNat + 256 * load m (a + 1) n) % 256 +
          256 * (((m a).toNat + 256 * load m (a + 1) n) / 256 % 256 ^ k) := Nat.mod_mul
    rw [load, load, ih (by omega : k ≤ n), Nat.pow_succ, Nat.mul_comm (256 ^ k), hmod]
    have hlow : ((m a).toNat + 256 * load m (a + 1) n) % 256 = (m a).toNat := by omega
    have hhigh : ((m a).toNat + 256 * load m (a + 1) n) / 256 = load m (a + 1) n := by omega
    rw [hlow, hhigh]

theorem copy_outside (m : Memory) {dst src n i : ℕ} (h : i < dst ∨ dst + n ≤ i) :
    copy m dst src n i = m i := by
  rw [copy, if_neg (by omega)]

theorem fill_outside (m : Memory) (v : UInt8) {a n i : ℕ} (h : i < a ∨ a + n ≤ i) :
    fill m a v n i = m i := by
  rw [fill, if_neg (by omega)]

theorem fill_update_before (m : Memory) (a n : ℕ) (v : UInt8) :
    fill (Function.update m a v) (a + 1) v n = fill m a v (n + 1) := by
  funext i
  simp only [fill, Function.update_apply]
  split_ifs <;> first | rfl | omega

@[simp] theorem fill_zero (m : Memory) (a : ℕ) (v : UInt8) : fill m a v 0 = m := by
  funext i
  rw [fill, if_neg (by omega)]

theorem fill_inside (m : Memory) (v : UInt8) {a n i : ℕ} (h : a ≤ i) (h' : i < a + n) :
    fill m a v n i = v := by
  rw [fill, if_pos ⟨h, h'⟩]

theorem load_shift {m m' : Memory} {a a' n : ℕ} (h : ∀ i, i < n → m' (a' + i) = m (a + i)) :
    load m' a' n = load m a n := by
  induction n generalizing a a' with
  | zero => rfl
  | succ n ih =>
    have hrest : load m' (a' + 1) n = load m (a + 1) n := ih fun i hi => by
      have hbyte := h (i + 1) (by omega)
      rwa [show a' + (i + 1) = a' + 1 + i by omega, show a + (i + 1) = a + 1 + i by omega]
        at hbyte
    rw [load, load, hrest, show m' a' = m a by simpa using h 0 (by omega)]

theorem store_inside (m : Memory) (a v : ℕ) {n i : ℕ} (h : i < n) :
    store m a v n (a + i) = UInt8.ofNat (v / 256 ^ i) := by
  induction n generalizing m a v i with
  | zero => omega
  | succ n ih =>
    rw [store]
    cases i with
    | zero =>
      rw [store_outside _ _ (by omega)]
      simp
    | succ i =>
      rw [show a + (i + 1) = a + 1 + i by omega, ih _ _ _ (by omega), Nat.div_div_eq_div_mul,
        Nat.pow_succ, Nat.mul_comm (256 ^ i)]

theorem load_store_mod (m : Memory) (a v n : ℕ) : load (store m a v n) a n = v % 256 ^ n := by
  have hstore : load (store m a v n) a n = load (store m a (v % 256 ^ n) n) a n :=
    load_shift fun i hi => by
      rw [store_inside m a v hi, store_inside m a _ hi]
      apply UInt8.toNat.inj
      have hsplit : 256 ^ n = 256 ^ i * (256 * 256 ^ (n - i - 1)) := by
        rw [← Nat.mul_assoc, ← Nat.pow_succ, ← Nat.pow_add]
        congr 1
        omega
      rw [hsplit, Nat.mod_mul_right_div_self]
      simp
  rw [hstore, load_store m a (Nat.mod_lt _ (Nat.pow_pos (by omega)))]

/-! ## Pages -/

/-- Pages of one size next to each other. -/
def paged (pages : ℕ → Memory) (size : ℕ) : Memory := fun i => pages (i / size) (i % size)

theorem div_page {size a i n : ℕ} (h : a % size + n ≤ size) (hi : i < n) :
    (a + i) / size = a / size ∧ (a + i) % size = a % size + i := by
  have hsize : 0 < size := by omega
  have ha := Nat.div_add_mod a size
  have hlt : a % size + i < size := by omega
  have heq : a + i = a % size + i + size * (a / size) := by omega
  rw [heq, Nat.add_mul_div_left _ _ hsize, Nat.add_mul_mod_self_left, Nat.div_eq_of_lt hlt,
    Nat.mod_eq_of_lt hlt, Nat.zero_add]
  exact ⟨rfl, rfl⟩

/-- An aligned word lies within a page. -/
theorem aligned_fits {size a n : ℕ} (hn : n ∣ size) (ha : n ∣ a) (hsize : 0 < size) :
    a % size + n ≤ size := by
  obtain ⟨m, rfl⟩ := hn
  obtain ⟨b, rfl⟩ := ha
  have hm : b % m < m := Nat.mod_lt b (Nat.pos_of_mul_pos_left hsize)
  rw [Nat.mul_mod_mul_left]
  exact Nat.mul_le_mul_left n hm

/-- A word within a page. -/
theorem load_paged (pages : ℕ → Memory) {size a n : ℕ} (h : a % size + n ≤ size) :
    load (paged pages size) a n = load (pages (a / size)) (a % size) n :=
  load_shift fun i hi => by
    obtain ⟨hdiv, hmod⟩ := div_page h hi
    rw [paged, hdiv, hmod]

/-- A word stored within a page is stored in the memory of all pages. -/
theorem paged_store (pages : ℕ → Memory) (v : ℕ) {size a n : ℕ} (h : a % size + n ≤ size) :
    paged (Function.update pages (a / size) (store (pages (a / size)) (a % size) v n)) size =
      store (paged pages size) a v n := by
  funext k
  by_cases hin : a ≤ k ∧ k < a + n
  · obtain ⟨i, rfl⟩ := Nat.exists_eq_add_of_le hin.1
    have hi : i < n := by omega
    obtain ⟨hdiv, hmod⟩ := div_page h hi
    rw [store_inside _ _ _ hi, paged, hdiv, hmod, Function.update_self, store_inside _ _ _ hi]
  · have hout : k < a ∨ a + n ≤ k := by omega
    rw [store_outside _ _ hout, paged, paged]
    by_cases hpage : k / size = a / size
    · rw [hpage, Function.update_self, store_outside]
      have ha := Nat.div_add_mod a size
      have hk := Nat.div_add_mod k size
      rw [hpage] at hk
      omega
    · rw [Function.update_of_ne hpage]

theorem paged_update (pages : ℕ → Memory) (b : UInt8) {size a : ℕ} :
    paged (Function.update pages (a / size)
      (Function.update (pages (a / size)) (a % size) b)) size =
      Function.update (paged pages size) a b := by
  funext k
  by_cases hk : k = a
  · subst hk
    rw [paged, Function.update_self, Function.update_self, Function.update_self]
  · rw [Function.update_of_ne hk, paged, paged]
    by_cases hpage : k / size = a / size
    · rw [hpage, Function.update_self, Function.update_of_ne]
      intro hmod
      apply hk
      rw [← Nat.div_add_mod k size, ← Nat.div_add_mod a size, hpage, hmod]
    · rw [Function.update_of_ne hpage]

end ByteMemory
