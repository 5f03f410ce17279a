import RtThread.Kernel.MessageQueue
import RtThread.Library.BoundedFifo
import RtThread.Library.SinglyLinked

/-!
# The blocks of a message queue

Between its two sections a send or a receive has a block to itself. `Intact` says where
the blocks are: in the free list, in the queue, or held by one call. `Contains` says which
message a block has. What each operation of a section does to both is one lemma.
-/
namespace RtThread
open SinglyLinked

namespace RtMessagequeue

variable {C : Type} [DecidableEq C]

/-- The free list is `fs`, the queue is `qs`, and `held` says which call has which block. -/
structure Intact (mq : RtMessagequeue) (fs qs : List ℕ) (held : C → Option ℕ) : Prop where
  freeList : Chain mq.next mq.msgQueueFree fs
  queueList : Chain mq.next mq.msgQueueHead qs
  tail : mq.msgQueueTail = qs.getLast?
  entry : mq.entry = qs.length
  small : mq.maxMsgs < 2 ^ 16
  partition : Partition (· < mq.maxMsgs) fs qs held

/-- The first bytes of the block are the message. -/
structure Contains (mq : RtMessagequeue) (msg : ℕ) (m : List (BitVec 8)) : Prop where
  fits : m.length ≤ mq.msgSize
  bytes : ∀ i (hi : i < m.length), mq.bytes msg i = m[i]

theorem Contains.congr {mq mq' : RtMessagequeue} {msg : ℕ} {m : List (BitVec 8)}
    (h : mq.Contains msg m) (hsize : mq'.msgSize = mq.msgSize)
    (hbytes : mq'.bytes msg = mq.bytes msg) : mq'.Contains msg m where
  fits := hsize ▸ h.fits
  bytes := fun i hi => (congrFun hbytes i).trans (h.bytes i hi)

theorem contains_copyIn {mq : RtMessagequeue} {msg : ℕ} {buffer : List (BitVec 8)}
    (h : buffer.length ≤ mq.msgSize) : (mq.copyIn msg buffer).Contains msg buffer where
  fits := h
  bytes := fun i hi => by simp [copyIn, hi]

theorem copyIn_bytes_of_ne {mq : RtMessagequeue} {msg msg' : ℕ} (h : msg' ≠ msg)
    (buffer : List (BitVec 8)) : (mq.copyIn msg buffer).bytes msg' = mq.bytes msg' :=
  Function.update_of_ne h _ _

/-- What a receiver copies: as many bytes as it asked for and a message may have, the
message first. -/
theorem Contains.copyOut {mq : RtMessagequeue} {msg : ℕ} {m : List (BitVec 8)}
    (h : mq.Contains msg m) (size : ℕ) : (mq.copyOut msg size).length = min size mq.msgSize ∧
      (mq.copyOut msg size).take m.length = m.take size := by
  have hlen : (mq.copyOut msg size).length = min size mq.msgSize := by
    rw [RtMessagequeue.copyOut, List.length_map, List.length_range]
    split <;> omega
  refine ⟨hlen, List.ext_getElem ?_ fun i hi hi' => ?_⟩
  · have := h.fits
    rw [List.length_take, List.length_take, hlen]
    omega
  · rw [List.length_take] at hi'
    simp only [List.getElem_take, RtMessagequeue.copyOut, List.getElem_map, List.getElem_range]
    exact h.bytes i (by omega)

namespace Intact

variable {mq : RtMessagequeue} {fs qs : List ℕ} {held : C → Option ℕ} {c : C} {msg : ℕ}

omit [DecidableEq C] in
theorem length_le (h : mq.Intact fs qs held) {xs : List ℕ} (hnd : xs.Nodup)
    (hxs : ∀ x ∈ xs, x ∈ qs ∨ ∃ c, held c = some x) : xs.length ≤ mq.maxMsgs := by
  have hsub : xs.toFinset ⊆ Finset.range mq.maxMsgs := by
    intro x hx
    rw [Finset.mem_range, h.partition.cover]
    exact .inr (hxs x (List.mem_toFinset.mp hx))
  have hcard := Finset.card_le_card hsub
  rwa [List.toFinset_card_of_nodup hnd, Finset.card_range] at hcard

omit [DecidableEq C] in
theorem nodup_queue (h : mq.Intact fs qs held) : qs.Nodup :=
  (List.nodup_append.mp h.partition.nodup).2.1

omit [DecidableEq C] in
/-- A held block is one more than the queue has. -/
theorem length_lt (h : mq.Intact fs qs held) (hc : held c = some msg) :
    qs.length < mq.maxMsgs := by
  have hapart := (h.partition.held_apart c msg hc).2
  refine h.length_le (List.nodup_cons.mpr ⟨hapart, h.nodup_queue⟩) fun x hx => ?_
  rcases List.mem_cons.mp hx with rfl | hx
  · exact .inr ⟨c, hc⟩
  · exact .inl hx

omit [DecidableEq C] in
theorem congr {held' : C → Option ℕ} (h : mq.Intact fs qs held) (hheld : ∀ c, held' c = held c) :
    mq.Intact fs qs held' :=
  ⟨h.freeList, h.queueList, h.tail, h.entry, h.small, h.partition.congr hheld⟩

/-- A call takes the first free block. -/
theorem alloc (h : mq.Intact fs qs held) (hc : held c = none) {mq' : RtMessagequeue}
    (hmsg : mq.alloc = some (msg, mq')) :
    ∃ fs', mq'.Intact fs' qs (Function.update held c (some msg)) := by
  obtain ⟨first, hfirst, he⟩ := Option.map_eq_some_iff.mp hmsg
  obtain ⟨rfl, rfl⟩ := Prod.mk.inj he
  have hfree := h.freeList
  rw [hfirst] at hfree
  obtain ⟨fs', rfl, hrest⟩ := hfree.eq_cons
  exact ⟨fs', hrest, h.queueList, h.tail, h.entry, h.small,
    h.partition.take hc (List.Perm.of_eq rfl)⟩

omit [DecidableEq C] in
/-- The field of a held block may be written. -/
theorem endAt (h : mq.Intact fs qs held) (hc : held c = some msg) :
    (mq.endAt msg).Intact fs qs held :=
  have hapart := h.partition.held_apart c msg hc
  ⟨h.freeList.update hapart.1 none, h.queueList.update hapart.2 none, h.tail, h.entry, h.small,
    h.partition⟩

omit [DecidableEq C] in
theorem copyIn (h : mq.Intact fs qs held) (buffer : List (BitVec 8)) :
    (mq.copyIn msg buffer).Intact fs qs held :=
  ⟨h.freeList, h.queueList, h.tail, h.entry, h.small, h.partition⟩

omit [DecidableEq C] in
theorem entry_succ (h : mq.Intact fs qs held) (hc : held c = some msg) :
    uint16 ((mq.entry : ℤ) + 1) = qs.length + 1 := by
  have hlt := h.length_lt hc
  have hsmall := h.small
  rw [h.entry]
  unfold uint16
  omega

/-- A message is linked behind the last one. -/
theorem link (h : mq.Intact fs qs held) (hc : held c = some msg) (hend : mq.next msg = none) :
    (mq.link msg).Intact fs (qs ++ [msg]) (Function.update held c none) := by
  obtain ⟨hfs, hqs⟩ := h.partition.held_apart c msg hc
  have hentry := h.entry_succ hc
  have hnd := List.nodup_append.mp h.partition.nodup
  have hperm : (fs ++ (qs ++ [msg])).Perm (msg :: (fs ++ qs)) := by
    rw [← List.append_assoc]
    exact List.perm_append_singleton _ _
  have hpart := h.partition.give hc hperm
  have hhead := h.queueList.head?_eq
  cases htail : qs.getLast? with
  | none =>
    -- the first message of an empty queue
    obtain rfl := List.getLast?_eq_none_iff.mp htail
    have hnone : mq.msgQueueTail = none := h.tail
    rw [List.head?_nil] at hhead
    refine ⟨?_, ?_, by simp [RtMessagequeue.link], ?_, h.small, hpart⟩
    · simpa only [RtMessagequeue.link, hnone] using h.freeList
    · simp [RtMessagequeue.link, hnone, hhead, Chain, hend]
    · simpa [RtMessagequeue.link] using hentry
  | some last =>
    have hsome : mq.msgQueueTail = some last := h.tail.trans htail
    have hmem := List.mem_of_getLast? htail
    have hne : mq.msgQueueHead ≠ none := by
      rw [hhead]
      intro hnil
      rw [List.head?_eq_none_iff.mp hnil] at hmem
      cases hmem
    have hlast : last ∉ fs := fun hm => hnd.2.2 last hm last hmem rfl
    refine ⟨?_, ?_, by simp [RtMessagequeue.link], ?_, h.small, hpart⟩
    · simpa only [RtMessagequeue.link, hsome] using h.freeList.update hlast _
    · simpa only [RtMessagequeue.link, hsome, hne, if_false] using
        h.queueList.append htail hnd.2.1 hqs hend
    · simpa [RtMessagequeue.link] using hentry

/-- An urgent message is linked in front of the first one. -/
theorem linkFirst (h : mq.Intact fs qs held) (hc : held c = some msg) :
    (mq.linkFirst msg).Intact fs (msg :: qs) (Function.update held c none) := by
  obtain ⟨hfs, hqs⟩ := h.partition.held_apart c msg hc
  refine ⟨h.freeList.update hfs _, h.queueList.push hqs, ?_, h.entry_succ hc, h.small,
    h.partition.give hc List.perm_middle⟩
  simp only [RtMessagequeue.linkFirst, h.tail]
  cases hlast : qs.getLast? with
  | none => simp [List.getLast?_eq_none_iff.mp hlast]
  | some last => simp [List.getLast?_cons, hlast]

omit [DecidableEq C] in
/-- The tail after the first message has left. -/
theorem dropHead_tail {qs' : List ℕ} (hnd : (msg :: qs').Nodup)
    (htail : mq.msgQueueTail = (msg :: qs').getLast?) :
    (if mq.msgQueueTail = some msg then none else mq.msgQueueTail) = qs'.getLast? := by
  rw [htail, List.getLast?_cons]
  cases hlast : qs'.getLast? with
  | none => simp
  | some last =>
    have hne : last ≠ msg := fun he =>
      (List.nodup_cons.mp hnd).1 (he ▸ List.mem_of_getLast? hlast)
    simp [hne]

/-- A call takes the first message. -/
theorem unlink (h : mq.Intact fs qs held) (hc : held c = none) {mq' : RtMessagequeue}
    (hmsg : mq.unlink = some (msg, mq')) :
    ∃ qs', qs = msg :: qs' ∧ mq'.Intact fs qs' (Function.update held c (some msg)) := by
  obtain ⟨first, hfirst, he⟩ := Option.map_eq_some_iff.mp hmsg
  obtain ⟨rfl, rfl⟩ := Prod.mk.inj he
  have hqueue := h.queueList
  rw [hfirst] at hqueue
  obtain ⟨qs', rfl, hrest⟩ := hqueue.eq_cons
  have hnd := h.nodup_queue
  refine ⟨qs', rfl, h.freeList, hrest, dropHead_tail hnd h.tail, ?_, h.small,
    h.partition.take hc List.perm_middle⟩
  have hentry := h.entry
  have hlt := h.length_le hnd fun x hx => .inl hx
  have hsmall := h.small
  rw [List.length_cons] at hentry hlt
  change uint16 ((mq.entry : ℤ) - 1) = qs'.length
  rw [hentry]
  unfold uint16
  omega

/-- A call gives its block back. -/
theorem giveBack (h : mq.Intact fs qs held) (hc : held c = some msg) :
    (mq.free msg).Intact (msg :: fs) qs (Function.update held c none) :=
  have hapart := h.partition.held_apart c msg hc
  ⟨h.freeList.push hapart.1, h.queueList.update hapart.2 _, h.tail, h.entry, h.small,
    h.partition.give hc (List.Perm.of_eq rfl)⟩

/-! ## The loops -/

omit [DecidableEq C] in
/-- Releasing the messages puts them in front of the free list, the last one first. -/
theorem releaseAll_eq {n : ℕ} {mq : RtMessagequeue} {fs qs : List ℕ} (hn : qs.length < n)
    (hfree : Chain mq.next mq.msgQueueFree fs) (hqueue : Chain mq.next mq.msgQueueHead qs)
    (htail : mq.msgQueueTail = qs.getLast?) (hnd : (fs ++ qs).Nodup) :
    ∃ next free, RtMessagequeue.releaseAll n mq = some { mq with
        next := next, msgQueueHead := none, msgQueueTail := none, msgQueueFree := free } ∧
      Chain next free (qs.reverse ++ fs) ∧ ∀ x, x ∉ qs → next x = mq.next x := by
  induction n generalizing mq fs qs with
  | zero => omega
  | succ n ih =>
    cases qs with
    | nil =>
      obtain ⟨next, bytes, msgSize, maxMsgs, entry, head, tail, free, flag⟩ := mq
      obtain rfl : head = none := hqueue
      obtain rfl : tail = none := htail
      exact ⟨next, free, rfl, hfree, fun _ _ => rfl⟩
    | cons msg qs =>
      have hhead : mq.msgQueueHead = some msg := hqueue.1
      have hnd' : (msg :: (fs ++ qs)).Nodup := (List.perm_middle.nodup_iff.mp hnd)
      obtain ⟨hmsg, hrest⟩ := List.nodup_cons.mp hnd'
      rw [List.mem_append, not_or] at hmsg
      have htail' := dropHead_tail (List.nodup_append.mp hnd).2.1 htail
      obtain ⟨next, free, hrun, hchain, hsame⟩ := @ih ((mq.dropHead msg).free msg)
        (msg :: fs) qs (by simpa using hn) (hfree.push hmsg.1)
        (hqueue.2.update hmsg.2 _) htail' hnd'
      refine ⟨next, free, ?_, by simpa using hchain, fun x hx => ?_⟩
      · rw [RtMessagequeue.releaseAll, hhead]
        exact hrun
      · obtain ⟨hne, hx⟩ := List.ne_and_not_mem_of_not_mem_cons hx
        rw [hsame x hx]
        exact Function.update_of_ne hne _ _

omit [DecidableEq C] in
theorem reset (h : mq.Intact fs qs held) {mq' : RtMessagequeue}
    (hr : RtMessagequeue.releaseAll (mq.maxMsgs + 1) mq = some mq') :
    Intact { mq' with entry := 0 } (qs.reverse ++ fs) [] held ∧ mq'.bytes = mq.bytes ∧
      mq'.msgSize = mq.msgSize ∧ mq'.maxMsgs = mq.maxMsgs ∧
      ∀ x, x ∉ qs → mq'.next x = mq.next x := by
  have hlen := h.length_le h.nodup_queue fun x hx => .inl hx
  obtain ⟨next, free, hrun, hchain, hsame⟩ := releaseAll_eq (Nat.lt_succ_of_le hlen) h.freeList
    h.queueList h.tail h.partition.nodup
  obtain rfl := Option.some.inj (hr.symm.trans hrun)
  refine ⟨⟨hchain, rfl, rfl, rfl, h.small, h.partition.move ?_⟩, rfl, rfl, rfl, hsame⟩
  rw [List.append_nil]
  exact List.perm_append_comm.trans ((List.reverse_perm qs).symm.append_right fs)

end Intact

/-- `rt_mq_init` links the blocks from the last to the first. -/
theorem initFree_chain (mq : RtMessagequeue) (hfree : mq.msgQueueFree = none) (n : ℕ) :
    Chain (mq.initFree n).next (mq.initFree n).msgQueueFree (List.range n).reverse := by
  induction n with
  | zero => exact hfree
  | succ n ih =>
    rw [List.range_succ, List.reverse_append, List.reverse_singleton, List.singleton_append]
    exact ih.push (by simp)

theorem initFree_eq (mq : RtMessagequeue) (n : ℕ) : mq.initFree n =
    { mq with next := (mq.initFree n).next, msgQueueFree := (mq.initFree n).msgQueueFree } := by
  induction n with
  | zero => rfl
  | succ n ih => rw [initFree, free, ih]

omit [DecidableEq C] in
theorem intact_init (next : ℕ → Option ℕ) (bytes : ℕ → ℕ → BitVec 8) (msgSize poolSize : ℕ)
    (flag : IpcFlag) : Intact (rtMqInit next bytes msgSize poolSize flag)
      (List.range (rtMqInit next bytes msgSize poolSize flag).maxMsgs).reverse []
      fun _ : C => none := by
  unfold rtMqInit
  set mq : RtMessagequeue := ⟨next, bytes, uint16 (rtAlign msgSize rtAlignSize),
    uint16 (poolSize / (uint16 (rtAlign msgSize rtAlignSize) + 4) : ℕ), 0, none, none, none, flag⟩
  have hchain := initFree_chain mq rfl mq.maxMsgs
  have heq := initFree_eq mq mq.maxMsgs
  have hmax : (mq.initFree mq.maxMsgs).maxMsgs = mq.maxMsgs := by rw [heq]
  refine ⟨by rwa [hmax], ?_, by rw [heq]; rfl, by rw [heq]; rfl, ?_, ?_⟩
  · rw [heq]
    rfl
  · rw [hmax]
    exact uint16_lt (poolSize / (mq.msgSize + 4) : ℕ)
  · refine ⟨?_, by simp, by simp, by simp⟩
    rw [List.append_nil, List.nodup_reverse]
    exact List.nodup_range

end RtMessagequeue
end RtThread
