import RtThread.DeviceDrivers.RingbufferFifo

/-!
# Overwriting puts

`rt_ringbuffer_put_force` replaces a length that does not fit by the whole
buffer size. The theorem says for which buffers and data the result is still the
last `buffer_size` bytes of what was stored followed by the data.
-/
namespace RtThread
namespace Ringbuffer
open CircularFifo Transition

variable {cap : ℕ} {rb : Ringbuffer} {q : List UInt8}

/-- The block that goes into the other mirror reads all of its length. -/
theorem putAround_short {n : ℕ} {ptr : List UInt8} (hptr : ptr.length < n)
    (hend : rb.bufferSize ≤ rb.writeIndex + n) : rb.putAround ptr n = none := by
  unfold putAround copyIn
  dsimp only
  by_cases hfirst : rb.writeIndex + (rb.bufferSize - rb.writeIndex) ≤ rb.bufferSize ∧
      0 + (rb.bufferSize - rb.writeIndex) ≤ ptr.length
  · rw [if_pos hfirst, Option.bind_some, if_neg (by simp; omega), Option.map_none]
  · rw [if_neg hfirst, Option.bind_none]

theorem putStraight_short {n : ℕ} {ptr : List UInt8} (hptr : ptr.length < n) :
    rb.putStraight ptr n = none := by
  rw [putStraight, copyIn, if_neg (by omega), Option.map_none]

namespace Stores

/-- Data that fits is put as by `rt_ringbuffer_put`. -/
theorem putForce_fits (h : Stores cap rb q) (hpos : 0 < cap) {length : ℕ} {ptr : List UInt8}
    (hfits : length ≤ cap - q.length) (hptr : length ≤ ptr.length) :
    ∃ rb', rb.rtRingbufferPutForce ptr length = some (rb', length) ∧
      Stores cap rb' (q ++ ptr.take length) := by
  have hfit := h.cells.fits
  have hw := h.write_lt
  have hle : ¬ length > cap - q.length := by omega
  unfold rtRingbufferPutForce
  rw [h.uint16_space, h.size_eq]
  simp only [hle, if_false]
  by_cases hend : cap - rb.writeIndex > length
  · obtain ⟨rb', hput, hs⟩ := h.putStraight (by omega) (by omega) hptr
    exact ⟨rb', by simp [hend, hput], hs⟩
  · obtain ⟨rb', hput, hs⟩ := h.putAround hpos (by omega) (by omega) hptr
    exact ⟨rb', by simp [hend, hput], hs⟩

/-- Data that does not fit: `buffer_size` bytes are read and the buffer is full of
them afterwards, unless data was stored and the mirrors were equal; then both
mirrors flip and the buffer reads as empty. -/
theorem putForce_over (h : Stores cap rb q) (hpos : 0 < cap) {length : ℕ} {ptr : List UInt8}
    (hover : cap - q.length < length) (hptr : cap ≤ ptr.length) :
    ∃ rb', rb.rtRingbufferPutForce ptr length = some (rb', cap) ∧
      Stores cap rb' (if q ≠ [] ∧ rb.readMirror = rb.writeMirror then [] else ptr.take cap) := by
  obtain rfl := h.size_eq
  have hfit := h.cells.fits
  have hw := h.write_lt
  have hcap := h.cap_lt
  have hempty : Holds rb.bufferPtr rb.bufferSize rb.writeIndex [] := Holds.nil _ _ _
  have hslot : rb.writeIndex = (rb.writeIndex + 0) % rb.bufferSize :=
    (Nat.mod_eq_of_lt (by omega)).symm
  obtain ⟨cells, hput, hcells⟩ :=
    putAround_holds hempty hslot (by omega) (by simp) (by omega) hptr hcap
  have hlen : (ptr.take rb.bufferSize).length = rb.bufferSize := by simp [hptr]
  rw [List.nil_append] at hcells
  unfold rtRingbufferPutForce
  rw [h.uint16_space]
  simp only [hover, gt_iff_lt, if_true,
    show ¬ rb.bufferSize < rb.bufferSize - rb.writeIndex by omega, if_false, hput, Option.map_some, Nat.add_sub_cancel]
  by_cases hq : q = []
  · -- an empty buffer: the read index stays, the write index comes round to it
    subst hq
    obtain ⟨hm, he, -⟩ | ⟨hm, he, -⟩ := h.place
    · have hr : rb.writeIndex = rb.readIndex := by simpa using he
      refine ⟨_, rfl, ?_⟩
      simp only [List.length_nil, Nat.sub_zero, Nat.lt_irrefl, if_false, ne_eq, not_true_eq_false,
        false_and]
      refine ⟨rfl, hcap, h.read_lt, .inr ⟨by simp [hm], ?_, hpos⟩, ?_⟩
      · simp only [hlen]
        omega
      · simpa [hr] using hcells
    · have hr := h.read_lt
      rw [List.length_nil] at he
      omega
  · have hlpos := List.length_pos_of_ne_nil hq
    refine ⟨_, rfl, ?_⟩
    simp only [show rb.bufferSize - q.length < rb.bufferSize by omega, if_true, ne_eq, hq,
      not_false_eq_true, true_and]
    obtain ⟨hm, he, -⟩ | ⟨hm, he, -⟩ := h.place
    · rw [if_pos hm.symm]
      exact ⟨rfl, hcap, hw, .inl ⟨by simp [hm], by simp, hw⟩, Holds.nil _ _ _⟩
    · rw [if_neg (by simp [hm])]
      refine ⟨rfl, hcap, hw, .inr ⟨by simp [hm], ?_, hpos⟩, hcells⟩
      simp only [hlen]

/-- Data that does not fit but is shorter than the buffer is read past its end. -/
theorem putForce_short (h : Stores cap rb q) {length : ℕ} {ptr : List UInt8}
    (hover : cap - q.length < length) (hptr : ptr.length < cap) :
    rb.rtRingbufferPutForce ptr length = none := by
  obtain rfl := h.size_eq
  have hw := h.write_lt
  unfold rtRingbufferPutForce
  rw [h.uint16_space]
  simp only [hover, gt_iff_lt, if_true,
    show ¬ rb.bufferSize < rb.bufferSize - rb.writeIndex by omega, if_false, putAround_short hptr (Nat.le_add_left _ _), Option.map_none]

/-- Whatever lies behind the data, the buffer stays well formed. -/
theorem putForce_stores (h : Stores cap rb q) (hpos : 0 < cap) {length n : ℕ} {ptr : List UInt8}
    {rb' : Ringbuffer} (hput : rb.rtRingbufferPutForce ptr length = some (rb', n)) :
    ∃ q', Stores cap rb' q' := by
  by_cases hfits : length ≤ cap - q.length
  · by_cases hptr : length ≤ ptr.length
    · obtain ⟨rb'', hput', hs⟩ := h.putForce_fits hpos hfits hptr
      rw [hput', Option.some.injEq, Prod.mk.injEq] at hput
      exact ⟨_, hput.1 ▸ hs⟩
    · have hw := h.write_lt
      unfold rtRingbufferPutForce at hput
      rw [h.uint16_space, h.size_eq] at hput
      simp only [show ¬ length > cap - q.length by omega, if_false] at hput
      split at hput
      · simp [putStraight_short (Nat.lt_of_not_le hptr)] at hput
      · next hend =>
        have hsize := h.size_eq
        rw [putAround_short (Nat.lt_of_not_le hptr) (by omega)] at hput
        simp at hput
  · by_cases hptr : cap ≤ ptr.length
    · obtain ⟨rb'', hput', hs⟩ := h.putForce_over hpos (Nat.lt_of_not_le hfits) hptr
      rw [hput', Option.some.injEq, Prod.mk.injEq] at hput
      exact ⟨_, hput.1 ▸ hs⟩
    · rw [h.putForce_short (Nat.lt_of_not_le hfits) (Nat.lt_of_not_le hptr)] at hput
      contradiction

end Stores

/-- All calls of a buffer's life. For an overwriting put the memory from the data
pointer on is given, which may go on behind the `length` bytes of data. -/
inductive BufferCall where
  | fifo (c : FifoCall)
  | putForce (memory : List UInt8) (length : ℕ)

def bufferCall (rb : Ringbuffer) : BufferCall → Option (Ringbuffer × Reply)
  | .fifo c => rb.call c
  | .putForce memory length =>
    (rb.rtRingbufferPutForce memory length).map fun r => replyWith [] r.2 r.1

def bufferMachine : Machine Ringbuffer BufferCall Reply := ⟨bufferCall⟩

/-- One call keeps a buffer with room well formed. -/
theorem bufferCall_stores (hpos : 0 < cap) {rb' : Ringbuffer} {c : BufferCall} {o : Reply}
    (h : ∃ q, Stores cap rb q) (hc : bufferMachine.step rb c = some (rb', o)) :
    ∃ q, Stores cap rb' q := by
  obtain ⟨q, h⟩ := h
  cases c with
  | fifo c =>
    have hok : FifoCall.Allowed cap c := by cases c <;> first | exact hpos | trivial
    obtain ⟨rb'', q', o', hstep, -, hs⟩ := call_simulates cap rb q c h hok
    have heq : some (rb'', o') = some (rb', o) := hstep.symm.trans hc
    rw [Option.some.injEq, Prod.mk.injEq] at heq
    exact ⟨q', heq.1 ▸ hs⟩
  | putForce memory length =>
    obtain ⟨⟨rb'', n⟩, hput, he⟩ := Option.map_eq_some_iff.mp hc
    have hrb : rb'' = rb' := congrArg Prod.fst he
    exact h.putForce_stores hpos (hrb ▸ hput)

/-- The call reads no byte behind the data, and leaves the last `buffer_size`
bytes of what was stored followed by the data. -/
def KeepsLast (rb : Ringbuffer) (data : List UInt8) : Prop :=
  ∃ rb' n, rb.rtRingbufferPutForce data data.length = some (rb', n) ∧
    rb'.contents = keepLast rb.bufferSize (rb.contents ++ data) ∧
    rb'.rtRingbufferDataLen = min rb.bufferSize (rb.rtRingbufferDataLen + data.length)

theorem Stores.keepsLast_iff (h : Stores cap rb q) (hpos : 0 < cap) (data : List UInt8) :
    KeepsLast rb data ↔
      data.length ≤ cap - q.length ∨
        (q = [] ∨ rb.readMirror ≠ rb.writeMirror) ∧ cap ≤ data.length ∧
          data.take cap = keepLast cap data := by
  have hfit := h.cells.fits
  unfold KeepsLast
  rw [h.size_eq, h.contents_eq, h.dataLen_eq]
  by_cases hfits : data.length ≤ cap - q.length
  · obtain ⟨rb', hput, hs⟩ := h.putForce_fits hpos hfits (le_refl data.length)
    rw [List.take_length] at hs
    have hle : (q ++ data).length ≤ cap := by rw [List.length_append]; omega
    simp only [hfits, true_or, iff_true]
    refine ⟨rb', _, hput, by rw [hs.contents_eq, keepLast_of_le hle], ?_⟩
    rw [hs.dataLen_eq, List.length_append]
    omega
  · have hover : cap - q.length < data.length := Nat.lt_of_not_le hfits
    by_cases hptr : cap ≤ data.length
    · obtain ⟨rb', hput, hs⟩ := h.putForce_over hpos hover hptr
      have hwant := keepLast_append_of_le q hptr
      have hlen : (keepLast cap data).length = cap := by simp [hptr]
      simp only [hfits, false_or, hptr, true_and, hput, Option.some.injEq, Prod.mk.injEq, hwant,
        show min cap (q.length + data.length) = cap by omega]
      constructor
      · rintro ⟨_, _, ⟨rfl, rfl⟩, hcontents, -⟩
        rw [hs.contents_eq] at hcontents
        split at hcontents
        · rw [← hcontents, List.length_nil] at hlen
          omega
        · next hkeep =>
          refine ⟨?_, hcontents⟩
          by_cases hq : q = []
          · exact .inl hq
          · exact .inr fun hm => hkeep ⟨hq, hm⟩
      · rintro ⟨hkind, hsame⟩
        have hkeep : ¬ (q ≠ [] ∧ rb.readMirror = rb.writeMirror) := by tauto
        rw [if_neg hkeep] at hs
        exact ⟨rb', _, ⟨rfl, rfl⟩, hs.contents_eq.trans hsame, by
          rw [hs.dataLen_eq, hsame, hlen]⟩
    · have hnone := h.putForce_short hover (Nat.lt_of_not_le hptr)
      simp [hnone, hfits, hptr]

end Ringbuffer
end RtThread
