import RtThread.Library.ByteMemory

/-!
# Copies and fills in steps

A copy that goes up or down byte by byte, a fill that goes up, and the ones that go by
words. Each is the copy or the fill of the whole area, a copy when its steps do not
overwrite what they still have to read.
-/
namespace ByteMemory

variable (m : Memory) {a dst src k n : ℕ} {v : UInt8}

/-- Copies `n` bytes, the first one first. -/
def copyUp (m : Memory) (dst src : ℕ) : ℕ → Memory
  | 0 => m
  | n + 1 => copyUp (Function.update m dst (m src)) (dst + 1) (src + 1) n

/-- Copies `n` bytes, the last one first. -/
def copyDown (m : Memory) (dst src : ℕ) : ℕ → Memory
  | 0 => m
  | n + 1 => copyDown (Function.update m (dst + n) (m (src + n))) dst src n

/-- Fills `n` bytes, the first one first. -/
def fillUp (m : Memory) (a : ℕ) (v : UInt8) : ℕ → Memory
  | 0 => m
  | n + 1 => fillUp (Function.update m a v) (a + 1) v n

/-! ## Areas in two parts -/

@[simp] theorem copy_zero : copy m dst src 0 = m := by
  ext i
  rw [copy_outside m (by omega)]

theorem copy_inside {i : ℕ} (h : dst ≤ i) (h' : i < dst + n) :
    copy m dst src n i = m (src + (i - dst)) := by
  rw [copy, if_pos ⟨h, h'⟩]

/-- A second copy goes on where the first one ended, which left its source alone. -/
theorem copy_copy (h : ∀ i, src + k ≤ i → i < src + k + n → i < dst ∨ dst + k ≤ i) :
    copy (copy m dst src k) (dst + k) (src + k) n = copy m dst src (k + n) := by
  ext i
  by_cases hsecond : dst + k ≤ i ∧ i < dst + k + n
  · have hsource := h (src + k + (i - (dst + k))) (by omega) (by omega)
    rw [copy_inside _ hsecond.1 hsecond.2, copy_outside _ hsource,
      copy_inside m (by omega) (by omega), show src + k + (i - (dst + k)) = src + (i - dst) by omega]
  · rw [copy_outside _ (by omega)]
    by_cases hfirst : dst ≤ i ∧ i < dst + k
    · rw [copy_inside m hfirst.1 hfirst.2, copy_inside m hfirst.1 (by omega)]
    · rw [copy_outside m (by omega), copy_outside m (by omega)]

/-- The upper part first. -/
theorem copy_copy_below (h : ∀ i, src ≤ i → i < src + k → i < dst + k ∨ dst + k + n ≤ i) :
    copy (copy m (dst + k) (src + k) n) dst src k = copy m dst src (k + n) := by
  ext i
  by_cases hlower : dst ≤ i ∧ i < dst + k
  · have hsource := h (src + (i - dst)) (by omega) (by omega)
    rw [copy_inside _ hlower.1 hlower.2, copy_outside _ hsource,
      copy_inside m hlower.1 (by omega)]
  · rw [copy_outside _ (by omega)]
    by_cases hupper : dst + k ≤ i ∧ i < dst + k + n
    · rw [copy_inside m hupper.1 hupper.2, copy_inside m (by omega) (by omega),
        show src + k + (i - (dst + k)) = src + (i - dst) by omega]
    · rw [copy_outside m (by omega), copy_outside m (by omega)]

theorem fill_fill : fill (fill m a v k) (a + k) v n = fill m a v (k + n) := by
  ext i
  by_cases hin : a ≤ i ∧ i < a + (k + n)
  · rw [fill_inside m v hin.1 hin.2]
    by_cases hsecond : a + k ≤ i
    · rw [fill_inside _ v hsecond (by omega)]
    · rw [fill_outside _ v (by omega), fill_inside m v hin.1 (by omega)]
  · rw [fill_outside _ v (by omega), fill_outside m v (by omega), fill_outside m v (by omega)]

/-! ## Bytes and words -/

theorem copy_one : copy m dst src 1 = Function.update m dst (m src) := by
  ext i
  by_cases h : i = dst
  · rw [h, copy_inside m le_rfl (Nat.lt_succ_self dst), Nat.sub_self, Nat.add_zero,
      Function.update_self]
  · rw [copy_outside m (by omega), Function.update_of_ne h]

theorem fill_one : fill m a v 1 = Function.update m a v := by
  rw [← fill_update_before, fill_zero]

/-- What a store of loaded bytes leaves at each address. -/
theorem store_load_apply (m' : Memory) (i : ℕ) : store m' dst (load m src n) n i =
    if dst ≤ i ∧ i < dst + n then m (src + (i - dst)) else m' i := by
  induction n generalizing m' dst src with
  | zero => rw [if_neg (by omega), store]
  | succ n ih =>
    have hbyte := (m src).toNat_lt
    have hlow : UInt8.ofNat (load m src (n + 1)) = m src := by
      apply UInt8.toNat_inj.mp
      rw [load, UInt8.toNat_ofNat']
      omega
    have hrest : load m src (n + 1) / 256 = load m (src + 1) n := by
      rw [load]
      omega
    rw [store, hlow, hrest, ih]
    by_cases hfirst : i = dst
    · rw [hfirst, if_neg (by omega), if_pos ⟨le_rfl, by omega⟩, Function.update_self,
        Nat.sub_self, Nat.add_zero]
    · by_cases hin : dst + 1 ≤ i ∧ i < dst + 1 + n
      · rw [if_pos hin, if_pos (by omega), show src + 1 + (i - (dst + 1)) = src + (i - dst) by omega]
      · rw [if_neg hin, if_neg (by omega), Function.update_of_ne hfirst]

/-- A word that is loaded and stored is copied, whatever it overlaps. -/
theorem store_load : store m dst (load m src n) n = copy m dst src n := by
  ext i
  rw [store_load_apply, copy]

/-- A word whose bytes are all the same fills. -/
theorem store_fill {w : ℕ} (h : ∀ i < n, w / 256 ^ i % 256 = v.toNat) :
    store m a w n = fill m a v n := by
  induction n generalizing m a w with
  | zero => rw [store, fill_zero]
  | succ n ih =>
    have hlow : UInt8.ofNat w = v := by
      apply UInt8.toNat_inj.mp
      rw [UInt8.toNat_ofNat']
      simpa using h 0 (Nat.succ_pos n)
    have hrest : ∀ i < n, w / 256 / 256 ^ i % 256 = v.toNat := by
      intro i hi
      rw [Nat.div_div_eq_div_mul, ← Nat.pow_succ']
      exact h (i + 1) (Nat.succ_lt_succ hi)
    rw [store, hlow, ih (Function.update m a v) hrest, fill_update_before]

/-! ## Steps of one byte -/

theorem fillUp_eq_fill : fillUp m a v n = fill m a v n := by
  induction n generalizing m a with
  | zero => rw [fillUp, fill_zero]
  | succ n ih => rw [fillUp, ih, fill_update_before]

/-- A copy that goes up may overlap its source from below. -/
theorem copyUp_eq_copy (h : dst ≤ src ∨ src + n ≤ dst) : copyUp m dst src n = copy m dst src n := by
  induction n generalizing m dst src with
  | zero => rw [copyUp, copy_zero]
  | succ n ih =>
    rw [copyUp, ih _ (by omega), ← copy_one, copy_copy m fun i _ _ => by omega, Nat.add_comm]

/-- A copy that goes down may overlap its source from above. -/
theorem copyDown_eq_copy (h : src ≤ dst ∨ dst + n ≤ src) :
    copyDown m dst src n = copy m dst src n := by
  induction n generalizing m with
  | zero => rw [copyDown, copy_zero]
  | succ n ih =>
    rw [copyDown, ih _ (by omega), ← copy_one, copy_copy_below m fun i _ _ => by omega]

end ByteMemory
