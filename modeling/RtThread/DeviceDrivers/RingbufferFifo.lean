import RtThread.DeviceDrivers.Ringbuffer

/-!
# The ring buffer is a bounded byte queue

`Stores cap rb q` relates the indices, mirrors and bytes to the queue `q` of
stored bytes. Each operation is shown to answer as the bounded queue does and to
keep the relation, and runs of any length follow by simulation.
-/
namespace RtThread
namespace Ringbuffer
open CircularFifo Transition

/-- The stored bytes are `q`: equal mirrors mean that the write index is in the
same round as the read index, different mirrors that it is one round ahead. -/
structure Stores (cap : ℕ) (rb : Ringbuffer) (q : List UInt8) : Prop where
  size_eq : rb.bufferSize = cap
  cap_lt : cap < 2 ^ 15
  read_lt : rb.readIndex < max 1 cap
  place : rb.writeMirror = rb.readMirror ∧ rb.writeIndex = rb.readIndex + q.length ∧
      rb.writeIndex < max 1 cap ∨
    rb.writeMirror = (!rb.readMirror) ∧ rb.writeIndex + cap = rb.readIndex + q.length ∧ 0 < cap
  cells : Holds rb.bufferPtr cap rb.readIndex q

variable {cap : ℕ} {rb : Ringbuffer} {q : List UInt8}

theorem stores_init (pool : ℕ → UInt8) {size : ℕ} (h : size < 2 ^ 15) :
    Stores (4 * (size / 4)) (rtRingbufferInit pool size) [] where
  size_eq := rtAlignDown_four size
  cap_lt := by omega
  read_lt := by simp [rtRingbufferInit]
  place := .inl ⟨rfl, rfl, by simp [rtRingbufferInit]⟩
  cells := Holds.nil _ _ _

namespace Stores

theorem write_lt (h : Stores cap rb q) : rb.writeIndex < max 1 cap := by
  have hfit := h.cells.fits
  have hr := h.read_lt
  obtain ⟨-, -, hlt⟩ | ⟨-, hw, -⟩ := h.place
  · exact hlt
  · omega

/-- The write index is the slot behind the newest byte. -/
theorem write_eq (h : Stores cap rb q) (hpos : 0 < cap) :
    rb.writeIndex = (rb.readIndex + q.length) % cap := by
  have hr := h.read_lt
  have hw := h.write_lt
  rw [slot_eq (by omega) h.cells.fits]
  obtain ⟨-, he, hlt⟩ | ⟨-, he, -⟩ := h.place <;> split <;> omega

theorem status_eq (h : Stores cap rb q) : rb.rtRingbufferStatus =
    if q.length = 0 then .empty else if q.length = cap then .full else .halffull := by
  have hfit := h.cells.fits
  have hr := h.read_lt
  unfold rtRingbufferStatus
  obtain ⟨hm, he, hlt⟩ | ⟨hm, he, hpos⟩ := h.place
  · by_cases h0 : q.length = 0
    · simp [hm, he, h0]
    · have hc : q.length ≠ cap := by omega
      simp [he, h0, hc]
  · have h0 : q.length ≠ 0 := by omega
    rw [if_neg h0]
    by_cases hc : q.length = cap
    · have hrw : rb.readIndex = rb.writeIndex := by omega
      simp [hrw, hm, hc]
    · have hrw : rb.readIndex ≠ rb.writeIndex := by omega
      simp [hrw, hc]

theorem dataLen_eq (h : Stores cap rb q) : rb.rtRingbufferDataLen = q.length := by
  have hfit := h.cells.fits
  have hr := h.read_lt
  have hcap := h.cap_lt
  have hsize := h.size_eq
  unfold rtRingbufferDataLen
  rw [h.status_eq]
  by_cases h0 : q.length = 0
  · simp [h0]
  · by_cases hc : q.length = cap
    · rw [if_neg h0, if_pos hc, hc]
      exact hsize
    · rw [if_neg h0, if_neg hc]
      simp only
      obtain ⟨-, he, hlt⟩ | ⟨-, he, -⟩ := h.place
      · rw [if_pos (by omega)]
        omega
      · rw [if_neg (by omega), uint16]
        omega

theorem space_eq (h : Stores cap rb q) : rb.rtRingbufferSpaceLen = ((cap - q.length : ℕ) : ℤ) := by
  have hfit := h.cells.fits
  rw [rtRingbufferSpaceLen, h.dataLen_eq, h.size_eq]
  omega

theorem uint16_space (h : Stores cap rb q) :
    uint16 rb.rtRingbufferSpaceLen = cap - q.length := by
  have hcap := h.cap_lt
  rw [h.space_eq, uint16_of_lt (by omega)]

end Stores

/-- What the straight block stores, for any window that ends at the write index. -/
theorem putStraight_holds {start n : ℕ} {ptr : List UInt8}
    (hs : Holds rb.bufferPtr rb.bufferSize start q)
    (hw : rb.writeIndex = (start + q.length) % rb.bufferSize)
    (hroom : q.length + n ≤ rb.bufferSize) (hend : rb.writeIndex + n < rb.bufferSize)
    (hptr : n ≤ ptr.length) (hsize : rb.bufferSize < 2 ^ 15) :
    ∃ cells, rb.putStraight ptr n =
        some { rb with bufferPtr := cells, writeIndex := rb.writeIndex + n } ∧
      Holds cells rb.bufferSize start (q ++ ptr.take n) := by
  have hlen : (ptr.take n).length = n := by simp [hptr]
  refine ⟨overwrite rb.bufferPtr rb.writeIndex (ptr.take n), ?_,
    hs.append _ hw (by omega) (by omega)⟩
  have hidx : index15 (rb.writeIndex + n) = rb.writeIndex + n := by
    unfold index15
    omega
  rw [putStraight, copyIn, if_pos (by omega)]
  simp [hidx]

/-- What the block that goes into the other mirror stores. -/
theorem putAround_holds {start n : ℕ} {ptr : List UInt8}
    (hs : Holds rb.bufferPtr rb.bufferSize start q)
    (hw : rb.writeIndex = (start + q.length) % rb.bufferSize) (hlt : rb.writeIndex < rb.bufferSize)
    (hroom : q.length + n ≤ rb.bufferSize) (hend : rb.bufferSize ≤ rb.writeIndex + n)
    (hptr : n ≤ ptr.length) (hsize : rb.bufferSize < 2 ^ 15) :
    ∃ cells, rb.putAround ptr n =
        some { rb with bufferPtr := cells, writeMirror := !rb.writeMirror,
                       writeIndex := rb.writeIndex + n - rb.bufferSize } ∧
      Holds cells rb.bufferSize start (q ++ ptr.take n) := by
  -- the bytes up to the last slot, then the rest from slot 0 on
  obtain ⟨first, hfirst⟩ : ∃ first, first = rb.bufferSize - rb.writeIndex := ⟨_, rfl⟩
  have hlen : (ptr.take first).length = first := by simp; omega
  have hlen' : ((ptr.drop first).take (n - first)).length = n - first := by simp; omega
  have hfill := hs.append (ptr.take first) hw (by omega) (by omega)
  have hslot : 0 = (start + (q ++ ptr.take first).length) % rb.bufferSize := by
    rw [List.length_append, hlen, ← Nat.add_assoc, Nat.add_mod, ← hw]
    have hsum : rb.writeIndex + first = rb.bufferSize := by omega
    by_cases h0 : rb.writeIndex = 0
    · have : first = rb.bufferSize := by omega
      simp [h0, this]
    · rw [Nat.mod_eq_of_lt (a := first) (by omega), hsum, Nat.mod_self]
  have hall := hfill.append ((ptr.drop first).take (n - first)) hslot
    (by rw [List.length_append]; omega) (by omega)
  have htake : ptr.take first ++ (ptr.drop first).take (n - first) = ptr.take n := by
    rw [← List.take_add]
    congr 1
    omega
  rw [List.append_assoc, htake] at hall
  refine ⟨_, ?_, hall⟩
  have hidx : index15 (n - first) = rb.writeIndex + n - rb.bufferSize := by
    unfold index15
    omega
  rw [putAround, ← hfirst, copyIn, if_pos (by omega), Option.bind_some, copyIn,
    if_pos (by simp; omega)]
  simp [hidx]

namespace Stores

theorem putStraight (h : Stores cap rb q) {n : ℕ} {ptr : List UInt8}
    (hroom : q.length + n ≤ cap) (hend : rb.writeIndex + n < cap) (hptr : n ≤ ptr.length) :
    ∃ rb', rb.putStraight ptr n = some rb' ∧ Stores cap rb' (q ++ ptr.take n) := by
  obtain rfl := h.size_eq
  obtain ⟨cells, hput, hcells⟩ :=
    putStraight_holds h.cells (h.write_eq (by omega)) hroom hend hptr h.cap_lt
  refine ⟨_, hput, rfl, h.cap_lt, h.read_lt, ?_, hcells⟩
  have hlen : (q ++ ptr.take n).length = q.length + n := by simp [hptr]
  rw [hlen]
  obtain ⟨hm, he, -⟩ | ⟨hm, he, hpos⟩ := h.place
  · exact .inl ⟨hm, by simp only; omega, by simp only; omega⟩
  · exact .inr ⟨hm, by simp only; omega, hpos⟩

theorem putAround (h : Stores cap rb q) {n : ℕ} {ptr : List UInt8} (hpos : 0 < cap)
    (hroom : q.length + n ≤ cap) (hend : cap ≤ rb.writeIndex + n) (hptr : n ≤ ptr.length) :
    ∃ rb', rb.putAround ptr n = some rb' ∧ Stores cap rb' (q ++ ptr.take n) := by
  obtain rfl := h.size_eq
  have hlt := h.write_lt
  have hr := h.read_lt
  obtain ⟨cells, hput, hcells⟩ :=
    putAround_holds h.cells (h.write_eq hpos) (by omega) hroom hend hptr h.cap_lt
  refine ⟨_, hput, rfl, h.cap_lt, hr, ?_, hcells⟩
  have hlen : (q ++ ptr.take n).length = q.length + n := by simp [hptr]
  rw [hlen]
  -- with different mirrors the free space ends before the last slot
  obtain ⟨hm, he, -⟩ | ⟨hm, he, -⟩ := h.place
  · exact .inr ⟨by simp [hm], by simp only; omega, hpos⟩
  · omega

theorem put (h : Stores cap rb q) {length : ℕ} {ptr : List UInt8} (hptr : length ≤ ptr.length) :
    ∃ rb', rb.rtRingbufferPut ptr length = some (rb', min length (cap - q.length)) ∧
      Stores cap rb' (q ++ ptr.take (min length (cap - q.length))) := by
  have hfit := h.cells.fits
  have hlt := h.write_lt
  unfold rtRingbufferPut
  rw [h.uint16_space, h.size_eq]
  by_cases hfull : cap - q.length = 0
  · exact ⟨rb, by simp [hfull], by simpa [hfull] using h⟩
  · obtain ⟨n, hn⟩ : ∃ n, n = min length (cap - q.length) := ⟨_, rfl⟩
    have hmin : (if cap - q.length < length then cap - q.length else length) = n := by
      split <;> omega
    have hnptr : n ≤ ptr.length := by omega
    simp only [hfull, if_false, hmin, ← hn]
    by_cases hend : cap - rb.writeIndex > n
    · obtain ⟨rb', hput, hs⟩ := h.putStraight (by omega) (by omega) hnptr
      exact ⟨rb', by simp [hend, hput], hs⟩
    · obtain ⟨rb', hput, hs⟩ := h.putAround (by omega) (by omega) (by omega) hnptr
      exact ⟨rb', by simp [hend, hput], hs⟩

theorem get (h : Stores cap rb q) (length : ℕ) :
    ∃ rb', rb.rtRingbufferGet length =
        some (rb', min length q.length, q.take length) ∧ Stores cap rb' (q.drop length) := by
  obtain rfl := h.size_eq
  have hfit := h.cells.fits
  have hr := h.read_lt
  have hcap := h.cap_lt
  unfold rtRingbufferGet
  rw [h.dataLen_eq]
  by_cases h0 : q.length = 0
  · obtain rfl := List.length_eq_zero_iff.mp h0
    exact ⟨rb, by simp, by simpa using h⟩
  · obtain ⟨n, hn⟩ : ∃ n, n = min length q.length := ⟨_, rfl⟩
    have hmin : (if q.length < length then q.length else length) = n := by split <;> omega
    have htake : q.take length = q.take n := by rw [List.take_eq_take_iff]; omega
    have hdrop : q.drop length = q.drop n := by
      by_cases hlen : length ≤ q.length
      · rw [hn, Nat.min_eq_left hlen]
      · rw [List.drop_eq_nil_of_le (by omega), List.drop_eq_nil_of_le (by omega)]
    simp only [h0, if_false, hmin, ← hn, htake, hdrop]
    by_cases hend : rb.bufferSize - rb.readIndex > n
    · have hidx : index15 (rb.readIndex + n) = rb.readIndex + n := by
        unfold index15
        omega
      have hout : rb.copyOut rb.readIndex n = some (q.take n) := by
        rw [copyOut, if_pos (by omega), h.cells.slice_eq (by omega) (by omega)]
      refine ⟨{ rb with readIndex := rb.readIndex + n }, by simp [hend, hout, hidx],
        rfl, hcap, by simp only; omega, ?_, h.cells.drop n (by omega)⟩
      rw [List.length_drop]
      obtain ⟨hm, he, hlt⟩ | ⟨hm, he, hpos⟩ := h.place
      · exact .inl ⟨hm, by simp only; omega, hlt⟩
      · exact .inr ⟨hm, by simp only; omega, hpos⟩
    · obtain ⟨first, hfirst⟩ : ∃ first, first = rb.bufferSize - rb.readIndex := ⟨_, rfl⟩
      have hidx : index15 (n - first) = n - first := by
        unfold index15
        omega
      have hstart : Holds rb.bufferPtr rb.bufferSize 0 (q.drop first) :=
        (h.cells.drop first (by omega)).congr_start (by
          rw [Nat.zero_mod, show rb.readIndex + first = rb.bufferSize by omega, Nat.mod_self])
      have hrest : Holds rb.bufferPtr rb.bufferSize (n - first) (q.drop n) := by
        have hd := hstart.drop (n - first) (by rw [List.length_drop]; omega)
        rwa [List.drop_drop, Nat.zero_add, show first + (n - first) = n by omega] at hd
      have hout : rb.copyOut rb.readIndex first = some (q.take first) := by
        rw [copyOut, if_pos (by omega), h.cells.slice_eq (by omega) (by omega)]
      have hout' : rb.copyOut 0 (n - first) = some ((q.drop first).take (n - first)) := by
        rw [copyOut, if_pos (by omega),
          hstart.slice_eq (by rw [List.length_drop]; omega) (by omega)]
      have hjoin : q.take first ++ (q.drop first).take (n - first) = q.take n := by
        rw [← List.take_add]
        congr 1
        omega
      refine ⟨{ rb with readMirror := !rb.readMirror, readIndex := n - first }, ?_,
        rfl, hcap, by simp only; omega, ?_, hrest⟩
      · rw [if_neg hend, ← hfirst, hout, Option.bind_some, hout', Option.map_some, hjoin, hidx]
      · -- reading past the last slot: the writer was one round ahead
        rw [List.length_drop]
        obtain ⟨-, he, hlt⟩ | ⟨hm, he, hpos⟩ := h.place
        · omega
        · exact .inl ⟨hm, by simp only; omega, by simp only; omega⟩

/-- One more byte behind the newest one, in a buffer that is not full. -/
theorem nextWrite (h : Stores cap rb q) {cells : ℕ → UInt8} {ch : UInt8} (hroom : q.length < cap)
    (hcells : Holds cells cap rb.readIndex (q ++ [ch])) :
    Stores cap { rb with bufferPtr := cells }.nextWrite (q ++ [ch]) := by
  obtain rfl := h.size_eq
  have hr := h.read_lt
  have hw := h.write_lt
  have hcap := h.cap_lt
  have hlen : (q ++ [ch]).length = q.length + 1 := by simp
  unfold Ringbuffer.nextWrite
  split
  · next hend =>
    simp only at hend
    refine ⟨rfl, hcap, hr, ?_, hcells⟩
    rw [hlen]
    obtain ⟨hm, he, -⟩ | ⟨hm, he, hpos⟩ := h.place
    · exact .inr ⟨by simp [hm], by simp only; omega, by omega⟩
    · omega
  · next hend =>
    simp only at hend
    have hidx : index15 (rb.writeIndex + 1) = rb.writeIndex + 1 := by
      unfold index15
      omega
    refine ⟨rfl, hcap, hr, ?_, hcells⟩
    rw [hlen]
    simp only [hidx]
    obtain ⟨hm, he, -⟩ | ⟨hm, he, hpos⟩ := h.place
    · exact .inl ⟨hm, by omega, by omega⟩
    · exact .inr ⟨hm, by omega, hpos⟩

theorem nextRead {ch : UInt8} (h : Stores cap rb (ch :: q)) : Stores cap rb.nextRead q := by
  obtain rfl := h.size_eq
  have hr := h.read_lt
  have hcap := h.cap_lt
  have hfit := h.cells.fits
  have hcells := h.cells.pop.2
  have hplace := h.place
  rw [List.length_cons] at hfit hplace
  unfold Ringbuffer.nextRead
  split
  · next hend =>
    have hzero : Holds rb.bufferPtr rb.bufferSize 0 q := hcells.congr_start (by
      rw [Nat.zero_mod, show rb.readIndex + 1 = rb.bufferSize by omega, Nat.mod_self])
    refine ⟨rfl, hcap, by simp, ?_, hzero⟩
    obtain ⟨hm, he, hlt⟩ | ⟨hm, he, hpos⟩ := hplace
    · omega
    · exact .inl ⟨hm, by simp only; omega, by simp only; omega⟩
  · next hend =>
    have hidx : index15 (rb.readIndex + 1) = rb.readIndex + 1 := by
      unfold index15
      omega
    rw [hidx]
    refine ⟨rfl, hcap, by simp only; omega, ?_, hcells⟩
    obtain ⟨hm, he, hlt⟩ | ⟨hm, he, hpos⟩ := hplace
    · exact .inl ⟨hm, by simp only; omega, hlt⟩
    · exact .inr ⟨hm, by simp only; omega, hpos⟩

theorem storeByte_eq (h : Stores cap rb q) (hpos : 0 < cap) (ch : UInt8) :
    rb.storeByte rb.writeIndex ch =
      some { rb with bufferPtr := Function.update rb.bufferPtr rb.writeIndex ch } := by
  have hw := h.write_lt
  have hsize := h.size_eq
  rw [storeByte, if_pos (by omega)]

theorem putchar (h : Stores cap rb q) (ch : UInt8) :
    ∃ rb', rb.rtRingbufferPutchar ch = some (rb', if q.length < cap then 1 else 0) ∧
      Stores cap rb' (if q.length < cap then q ++ [ch] else q) := by
  have hfit := h.cells.fits
  unfold rtRingbufferPutchar
  rw [h.space_eq]
  by_cases hroom : q.length < cap
  · have hsp : ¬ ((cap - q.length : ℕ) : ℤ) = 0 := by omega
    have hcells := h.cells.push hroom (h.write_eq (by omega)) ch
    rw [if_neg hsp, if_pos hroom, if_pos hroom, h.storeByte_eq (by omega) ch, Option.map_some]
    exact ⟨_, rfl, h.nextWrite hroom hcells⟩
  · have hsp : ((cap - q.length : ℕ) : ℤ) = 0 := by omega
    exact ⟨rb, by simp [hsp, hroom], by simpa [hroom] using h⟩

theorem getchar (h : Stores cap rb q) :
    ∃ rb', rb.rtRingbufferGetchar = some (rb', min 1 q.length, q.take 1) ∧
      Stores cap rb' (q.drop 1) := by
  unfold rtRingbufferGetchar
  rw [h.dataLen_eq]
  cases q with
  | nil => exact ⟨rb, by simp, by simpa using h⟩
  | cons ch q =>
    have hfit := h.cells.fits
    have hr := h.read_lt
    have hsize := h.size_eq
    obtain ⟨hch, -⟩ := h.cells.pop
    rw [List.length_cons] at hfit
    rw [Nat.mod_eq_of_lt (by omega)] at hch
    have hload : rb.loadByte rb.readIndex = some ch := by
      rw [loadByte, if_pos (by omega), hch]
    exact ⟨rb.nextRead, by simp [hload], h.nextRead⟩

/-- Overwriting the oldest byte of a full buffer. -/
theorem putcharForce_full (h : Stores cap rb q) (hpos : 0 < cap) (hfull : q.length = cap)
    (ch : UInt8) : ∃ rb', rb.rtRingbufferPutcharForce ch = some (rb', 1) ∧
      Stores cap rb' (q.drop 1 ++ [ch]) := by
  have hstore := h.storeByte_eq hpos ch
  have hstatus : rb.rtRingbufferStatus = .full := by
    rw [h.status_eq, if_neg (by omega), if_pos hfull]
  obtain rfl := h.size_eq
  have hr := h.read_lt
  have hcap := h.cap_lt
  obtain ⟨hm, hw⟩ : rb.writeMirror = (!rb.readMirror) ∧ rb.writeIndex = rb.readIndex := by
    obtain ⟨hm, he, hlt⟩ | ⟨hm, he, -⟩ := h.place
    · omega
    · exact ⟨hm, by omega⟩
  cases q with
  | nil => simp at hfull; omega
  | cons old q =>
    rw [List.length_cons] at hfull
    have hlen : (q ++ [ch]).length = q.length + 1 := by simp
    -- the freed slot is the one behind the newest byte
    have hcells : Holds (Function.update rb.bufferPtr rb.writeIndex ch) rb.bufferSize
        (rb.readIndex + 1) (q ++ [ch]) := by
      refine h.cells.pop.2.push (by omega) ?_ ch
      rw [show rb.readIndex + 1 + q.length = rb.readIndex + rb.bufferSize by omega,
        Nat.add_mod_right, hw, Nat.mod_eq_of_lt (by omega)]
    unfold rtRingbufferPutcharForce
    rw [hstatus, hstore, Option.map_some, List.drop_succ_cons, List.drop_zero]
    simp only [if_true]
    by_cases hend : (rb.writeIndex : ℤ) = rb.bufferSize - 1
    · rw [if_pos hend]
      have hzero : Holds (Function.update rb.bufferPtr rb.writeIndex ch) rb.bufferSize 0
          (q ++ [ch]) := hcells.congr_start (by
        rw [Nat.zero_mod, show rb.readIndex + 1 = rb.bufferSize by omega, Nat.mod_self])
      refine ⟨_, rfl, rfl, hcap, by simp, ?_, hzero⟩
      rw [hlen]
      exact .inr ⟨by simp [hm], by simp only; omega, hpos⟩
    · have hidx : index15 (rb.writeIndex + 1) = rb.readIndex + 1 := by
        unfold index15
        omega
      rw [if_neg hend, hidx]
      refine ⟨_, rfl, rfl, hcap, by simp only; omega, ?_, hcells⟩
      rw [hlen]
      exact .inr ⟨hm, by simp only; omega, hpos⟩

theorem putcharForce (h : Stores cap rb q) (hpos : 0 < cap) (ch : UInt8) :
    ∃ rb', rb.rtRingbufferPutcharForce ch = some (rb', 1) ∧
      Stores cap rb' (if q.length < cap then q ++ [ch] else q.drop 1 ++ [ch]) := by
  have hfit := h.cells.fits
  by_cases hroom : q.length < cap
  · have hstatus : rb.rtRingbufferStatus ≠ .full := by
      rw [h.status_eq]
      by_cases h0 : q.length = 0
      · simp [h0]
      · rw [if_neg h0, if_neg (by omega)]
        simp
    have hcells := h.cells.push hroom (h.write_eq hpos) ch
    refine ⟨_, ?_, by rw [if_pos hroom]; exact h.nextWrite hroom hcells⟩
    unfold rtRingbufferPutcharForce Ringbuffer.nextWrite
    rw [h.storeByte_eq hpos ch, Option.map_some]
    simp only [hstatus, if_false]
    split <;> rfl
  · rw [if_neg hroom]
    exact h.putcharForce_full hpos (by omega) ch

end Stores

/-- The calls of a FIFO's life; `put` and `get` with a length up to `rt_uint16_t`. -/
inductive FifoCall where
  | put (ptr : List UInt8)
  | putchar (ch : UInt8)
  | get (length : ℕ)
  | getchar
  | putcharForce (ch : UInt8)
  deriving DecidableEq

/-- What a call returns, the bytes it delivers, and `rt_ringbuffer_data_len` after it. -/
structure Reply where
  returned : ℕ
  bytes : List UInt8
  dataLen : ℕ
  deriving DecidableEq

def replyWith (bytes : List UInt8) (returned : ℕ) (rb : Ringbuffer) : Ringbuffer × Reply :=
  (rb, ⟨returned, bytes, rb.rtRingbufferDataLen⟩)

def call (rb : Ringbuffer) : FifoCall → Option (Ringbuffer × Reply)
  | .put ptr => (rb.rtRingbufferPut ptr ptr.length).map fun r => replyWith [] r.2 r.1
  | .putchar ch => (rb.rtRingbufferPutchar ch).map fun r => replyWith [] r.2 r.1
  | .get length => (rb.rtRingbufferGet length).map fun r => replyWith r.2.2 r.2.1 r.1
  | .getchar => rb.rtRingbufferGetchar.map fun r => replyWith r.2.2 r.2.1 r.1
  | .putcharForce ch => (rb.rtRingbufferPutcharForce ch).map fun r => replyWith [] r.2 r.1

/-- The byte queue of at most `cap` bytes that the buffer stands for. -/
def fifoCall (cap : ℕ) (q : List UInt8) : FifoCall → List UInt8 × Reply
  | .put ptr =>
    let taken := ptr.take (cap - q.length)
    (q ++ taken, ⟨taken.length, [], q.length + taken.length⟩)
  | .putchar ch =>
    if q.length < cap then (q ++ [ch], ⟨1, [], q.length + 1⟩) else (q, ⟨0, [], q.length⟩)
  | .get length =>
    (q.drop length, ⟨min length q.length, q.take length, q.length - min length q.length⟩)
  | .getchar => (q.drop 1, ⟨min 1 q.length, q.take 1, q.length - 1⟩)
  | .putcharForce ch =>
    if q.length < cap then (q ++ [ch], ⟨1, [], q.length + 1⟩)
    else (q.drop 1 ++ [ch], ⟨1, [], q.length⟩)

def ringbufferMachine : Machine Ringbuffer FifoCall Reply := ⟨call⟩

def fifoMachine (cap : ℕ) : Machine (List UInt8) FifoCall Reply :=
  ⟨fun q c => some (fifoCall cap q c)⟩

/-- A buffer without room must not be forced. -/
def FifoCall.Allowed (cap : ℕ) : FifoCall → Prop
  | .putcharForce _ => 0 < cap
  | _ => True

theorem Stores.replyWith_eq (h : Stores cap rb q) (bytes : List UInt8) (n : ℕ) :
    replyWith bytes n rb = (rb, ⟨n, bytes, q.length⟩) := by
  rw [replyWith, h.dataLen_eq]

/-- One call: the buffer and the queue answer alike. -/
theorem call_simulates (cap : ℕ) :
    ringbufferMachine.Simulates (fifoMachine cap) (Stores cap) (FifoCall.Allowed cap) := by
  intro rb q c h hok
  have hfit := h.cells.fits
  cases c with
  | put ptr =>
    obtain ⟨rb', hput, hs⟩ := h.put (le_refl ptr.length)
    have htake : ptr.take (min ptr.length (cap - q.length)) = ptr.take (cap - q.length) := by
      rw [List.take_eq_take_iff]
      omega
    have hlen : (ptr.take (cap - q.length)).length = min ptr.length (cap - q.length) := by
      rw [List.length_take, Nat.min_comm]
    rw [htake] at hs
    refine ⟨rb', _, ⟨min ptr.length (cap - q.length), [], (q ++ ptr.take (cap - q.length)).length⟩,
      ?_, ?_, hs⟩
    · simp [ringbufferMachine, call, hput, hs.replyWith_eq]
    · simp [fifoMachine, fifoCall, Nat.min_comm]
  | putchar ch =>
    obtain ⟨rb', hput, hs⟩ := h.putchar ch
    by_cases hroom : q.length < cap
    · rw [if_pos hroom] at hput hs
      refine ⟨rb', _, ⟨1, [], (q ++ [ch]).length⟩, ?_, ?_, hs⟩
      · simp [ringbufferMachine, call, hput, hs.replyWith_eq]
      · simp [fifoMachine, fifoCall, hroom]
    · rw [if_neg hroom] at hput hs
      refine ⟨rb', _, ⟨0, [], q.length⟩, ?_, ?_, hs⟩
      · simp [ringbufferMachine, call, hput, hs.replyWith_eq]
      · simp [fifoMachine, fifoCall, hroom]
  | get length =>
    obtain ⟨rb', hget, hs⟩ := h.get length
    refine ⟨rb', _, ⟨min length q.length, q.take length, (q.drop length).length⟩, ?_, ?_, hs⟩
    · simp [ringbufferMachine, call, hget, hs.replyWith_eq]
    · simp [fifoMachine, fifoCall]
      omega
  | getchar =>
    obtain ⟨rb', hget, hs⟩ := h.getchar
    refine ⟨rb', _, ⟨min 1 q.length, q.take 1, (q.drop 1).length⟩, ?_, ?_, hs⟩
    · simp [ringbufferMachine, call, hget, hs.replyWith_eq]
    · simp [fifoMachine, fifoCall]
  | putcharForce ch =>
    obtain ⟨rb', hput, hs⟩ := h.putcharForce hok ch
    by_cases hroom : q.length < cap
    · rw [if_pos hroom] at hs
      refine ⟨rb', _, ⟨1, [], (q ++ [ch]).length⟩, ?_, ?_, hs⟩
      · simp [ringbufferMachine, call, hput, hs.replyWith_eq]
      · simp [fifoMachine, fifoCall, hroom]
    · rw [if_neg hroom] at hs
      have hlen : (q.drop 1 ++ [ch]).length = q.length := by
        simp
        have : 0 < cap := hok
        omega
      refine ⟨rb', _, ⟨1, [], (q.drop 1 ++ [ch]).length⟩, ?_, ?_, hs⟩
      · simp [ringbufferMachine, call, hput, hs.replyWith_eq]
      · rw [hlen]
        simp [fifoMachine, fifoCall, hroom]

/-- The bytes in the buffer, oldest first. -/
def contents (rb : Ringbuffer) : List UInt8 :=
  (List.range rb.rtRingbufferDataLen).map fun i =>
    rb.bufferPtr ((rb.readIndex + i) % rb.bufferSize)

theorem Stores.contents_eq (h : Stores cap rb q) : rb.contents = q := by
  rw [contents, h.dataLen_eq, h.size_eq]
  exact h.cells.eq_map.symm

/-- From `rt_ringbuffer_init` on, every sequence of calls is answered as the
bounded byte queue answers it, no call touches a byte at or past the capacity,
and the bytes stored at the end are the queue. -/
theorem ringbuffer_refines_fifo (pool : ℕ → UInt8) (size : ℕ) (h16 : size < 2 ^ 15)
    (calls : List FifoCall)
    (hforce : 0 < 4 * (size / 4) ∨ ∀ ch, FifoCall.putcharForce ch ∉ calls) :
    ∃ rb q replies,
      ringbufferMachine.run (rtRingbufferInit pool size) calls = some (rb, replies) ∧
      (fifoMachine (4 * (size / 4))).run [] calls = some (q, replies) ∧
      rb.contents = q ∧ rb.rtRingbufferDataLen = q.length ∧ q.length ≤ 4 * (size / 4) := by
  have hok : ∀ c ∈ calls, FifoCall.Allowed (4 * (size / 4)) c := by
    intro c hc
    cases c with
    | putcharForce ch =>
      obtain hpos | hnone := hforce
      · exact hpos
      · exact absurd hc (hnone ch)
    | _ => trivial
  obtain ⟨rb, q, replies, hrun, hfifo, hs⟩ :=
    (call_simulates (4 * (size / 4))).run (stores_init pool h16) hok
  exact ⟨rb, q, replies, hrun, hfifo, hs.contents_eq, hs.dataLen_eq, hs.cells.fits⟩

/-- Four slots of a pool of seven bytes, filled across the last slot and forced. -/
theorem ringbuffer_refines_fifo_seven : ∃ rb replies,
    ringbufferMachine.run (rtRingbufferInit (fun _ => 0) 7)
      [.put [1, 2, 3], .get 2, .put [4, 5, 6, 7], .putcharForce 8, .getchar] = some (rb, replies) ∧
    rb.contents = [5, 6, 8] ∧ replies.map Reply.returned = [3, 2, 3, 1, 1] := by
  obtain ⟨rb, q, replies, hrun, hfifo, hq, -, -⟩ := ringbuffer_refines_fifo (fun _ => 0) 7
    (by decide) [.put [1, 2, 3], .get 2, .put [4, 5, 6, 7], .putcharForce 8, .getchar]
    (.inl (by decide))
  have hend : (fifoMachine (4 * (7 / 4))).run []
      [.put [1, 2, 3], .get 2, .put [4, 5, 6, 7], .putcharForce 8, .getchar] =
      some ([5, 6, 8], [⟨3, [], 3⟩, ⟨2, [1, 2], 1⟩, ⟨3, [], 4⟩, ⟨1, [], 4⟩, ⟨1, [4], 3⟩]) := rfl
  rw [hend, Option.some.injEq, Prod.mk.injEq] at hfifo
  obtain ⟨rfl, rfl⟩ := hfifo
  exact ⟨rb, _, hrun, hq, rfl⟩

end Ringbuffer
end RtThread
