import RtThread.Kernel.MessageQueueRuns

/-!
# What a message queue delivers

The messages of a queue in the order in which they will be received, and those that a call
has taken and not copied yet, are all that `MqSpec` knows: it has neither blocks nor lists.
`Delivers` relates it to the queue between any two sections.
-/
namespace RtThread
open Kernel Transition SinglyLinked BoundedFifo

structure MqSpec (C : Type) where
  queue : List (List (BitVec 8))
  taken : C → Option (List (BitVec 8))

namespace MqSpec

variable {C : Type} [DecidableEq C]

/-- The operation on the queue that a step of a call stands for. -/
def ops (a : MqSpec C) : MqEnd C → List (Op (List (BitVec 8)))
  | .linked true buffer => [.pushFront buffer]
  | .linked false buffer => [.push buffer]
  | .took _ => (a.queue.head?.map Op.pop).toList
  | .resets => [.clear]
  | _ => []

/-- The message that a call has to copy after a step; none when the step is not allowed. -/
def hands (msgSize : ℕ) (a : MqSpec C) : MqEnd C → Option (C → Option (List (BitVec 8)))
  | .took c =>
    if a.taken c = none ∧ a.queue ≠ [] then some (Function.update a.taken c a.queue.head?) else none
  | .copied c size buffer =>
    match a.taken c with
    | some m =>
      if buffer.length = min size msgSize ∧ buffer.take m.length = m.take size then
        some (Function.update a.taken c none)
      else none
    | none => none
  | _ => some a.taken

/-- The queue of `maxMsgs` messages of at most `msgSize` bytes. -/
def machine (maxMsgs msgSize : ℕ) :
    Machine (MqSpec C) (MqEnd C) (List (Op (List (BitVec 8)))) where
  step a o :=
    (BoundedFifo.run maxMsgs a.queue (a.ops o)).bind fun queue =>
      (a.hands msgSize o).map fun taken => (⟨queue, taken⟩, a.ops o)

theorem machine_step {maxMsgs msgSize : ℕ} {a : MqSpec C} {o : MqEnd C}
    {queue : List (List (BitVec 8))} {taken : C → Option (List (BitVec 8))}
    (hq : BoundedFifo.run maxMsgs a.queue (a.ops o) = some queue)
    (ht : a.hands msgSize o = some taken) :
    (machine maxMsgs msgSize).step a o = some (⟨queue, taken⟩, a.ops o) := by
  simp only [machine, hq, ht, Option.bind_some, Option.map_some]

theorem run_ops {maxMsgs msgSize : ℕ} {a a' : MqSpec C} {os : List (MqEnd C)}
    {opss : List (List (Op (List (BitVec 8))))}
    (h : (machine maxMsgs msgSize).run a os = some (a', opss)) :
    BoundedFifo.run maxMsgs a.queue opss.flatten = some a'.queue := by
  induction os generalizing a opss with
  | nil =>
    obtain ⟨rfl, rfl⟩ := Prod.mk.inj (Option.some.inj h)
    rfl
  | cons o os ih =>
    obtain ⟨a₁, ops, opss', hs, hrest, rfl⟩ := Machine.run_cons_eq_some h
    obtain ⟨queue, hq, hs⟩ := Option.bind_eq_some_iff.mp hs
    obtain ⟨taken, -, he⟩ := Option.map_eq_some_iff.mp hs
    obtain ⟨rfl, rfl⟩ := Prod.mk.inj he
    rw [List.flatten_cons]
    exact run_append hq (ih hrest)

/-- Only a reset throws messages away. -/
theorem clear_not_mem {maxMsgs msgSize : ℕ} {a a' : MqSpec C} {os : List (MqEnd C)}
    {opss : List (List (Op (List (BitVec 8))))}
    (h : (machine maxMsgs msgSize).run a os = some (a', opss)) (hos : MqEnd.resets ∉ os) :
    Op.clear ∉ opss.flatten := by
  induction os generalizing a opss with
  | nil =>
    obtain ⟨rfl, rfl⟩ := Prod.mk.inj (Option.some.inj h)
    exact List.not_mem_nil
  | cons o os ih =>
    obtain ⟨a₁, ops, opss', hs, hrest, rfl⟩ := Machine.run_cons_eq_some h
    obtain ⟨queue, hq, hs⟩ := Option.bind_eq_some_iff.mp hs
    obtain ⟨taken, -, he⟩ := Option.map_eq_some_iff.mp hs
    obtain ⟨rfl, rfl⟩ := Prod.mk.inj he
    obtain ⟨hne, hos⟩ := List.ne_and_not_mem_of_not_mem_cons hos
    rw [List.flatten_cons, List.mem_append, not_or]
    refine ⟨fun hm => ?_, ih hrest hos⟩
    cases o with
    | resets => exact hne rfl
    | linked urgent buffer => cases urgent <;> simp [ops] at hm
    | took c => cases hqueue : a.queue <;> simp [ops, hqueue] at hm
    | _ => cases hm

end MqSpec

namespace RtMessagequeue

variable {mq : RtMessagequeue} {msg : ℕ}

/-- Linking a message writes the field of the last message at most. -/
theorem link_next {qs : List ℕ} (htail : mq.msgQueueTail = qs.getLast?) {x : ℕ} (hx : x ∉ qs) :
    (mq.link msg).next x = mq.next x := by
  cases hlast : mq.msgQueueTail with
  | none => simp only [link, hlast]
  | some last =>
    have hmem := List.mem_of_getLast? (htail.symm.trans hlast)
    have hne : x ≠ last := fun he => hx (he ▸ hmem)
    simp only [link, hlast]
    exact Function.update_of_ne hne _ _

/-- The block as a send leaves it between its sections. -/
theorem fill_of_ne {msg' : ℕ} (h : msg' ≠ msg) (urgent : Bool) (buffer : List (BitVec 8)) :
    ((if urgent then mq else mq.endAt msg).copyIn msg buffer).bytes msg' = mq.bytes msg' ∧
      ((if urgent then mq else mq.endAt msg).copyIn msg buffer).next msg' = mq.next msg' := by
  cases urgent with
  | true => exact ⟨copyIn_bytes_of_ne h buffer, rfl⟩
  | false => exact ⟨copyIn_bytes_of_ne h buffer, Function.update_of_ne h _ _⟩

theorem fill_size (urgent : Bool) (buffer : List (BitVec 8)) :
    ((if urgent then mq else mq.endAt msg).copyIn msg buffer).maxMsgs = mq.maxMsgs ∧
      ((if urgent then mq else mq.endAt msg).copyIn msg buffer).msgSize = mq.msgSize := by
  cases urgent <;> exact ⟨rfl, rfl⟩

theorem Intact.fill {C : Type} {held : C → Option ℕ} {fs qs : List ℕ} (h : mq.Intact fs qs held)
    {c : C} (hc : held c = some msg) (urgent : Bool) (buffer : List (BitVec 8)) :
    ((if urgent then mq else mq.endAt msg).copyIn msg buffer).Intact fs qs held := by
  cases urgent with
  | true => exact h.copyIn buffer
  | false => exact (h.endAt hc).copyIn buffer

end RtMessagequeue

/-- What a call knows of its block, and the message it has to copy. -/
def MqCall.Keeps (mq : RtMessagequeue) (taken : Option (List (BitVec 8))) : MqCall → Prop
  | .idle | .waiting _ _ _ | .read _ => taken = none
  | .filling _ _ buffer => taken = none ∧ buffer.length ≤ mq.msgSize
  | .filled urgent msg buffer =>
    taken = none ∧ mq.Contains msg buffer ∧ (urgent = false → mq.next msg = none)
  | .reading _ msg => ∃ m, taken = some m ∧ mq.Contains msg m

/-- A call keeps what it knows when its own block is left alone. -/
theorem MqCall.Keeps.congr {mq mq' : RtMessagequeue} {taken : Option (List (BitVec 8))}
    {r : MqCall} (h : r.Keeps mq taken) (hsize : mq'.msgSize = mq.msgSize)
    (hblock : ∀ msg, r.block = some msg →
      mq'.bytes msg = mq.bytes msg ∧ mq'.next msg = mq.next msg) : r.Keeps mq' taken := by
  cases r with
  | idle | waiting size timeout tickDelta | read msg => exact h
  | filling urgent msg buffer => exact ⟨h.1, hsize ▸ h.2⟩
  | filled urgent msg buffer =>
    obtain ⟨hbytes, hnext⟩ := hblock msg rfl
    obtain ⟨htaken, hcontains, hend⟩ := h
    exact ⟨htaken, hcontains.congr hsize hbytes, fun hu => hnext.trans (hend hu)⟩
  | reading size msg =>
    obtain ⟨hbytes, -⟩ := hblock msg rfl
    obtain ⟨m, htaken, hcontains⟩ := h
    exact ⟨m, htaken, hcontains.congr hsize hbytes⟩

namespace MqSystem

variable {T I : Type} [DecidableEq T] [DecidableEq I]

/-- The blocks are where `Intact` says, the queue has the messages of the specification,
and each call has its own. -/
structure Delivers (s : MqSystem T I) (fs qs : List ℕ) (a : MqSpec (T ⊕ I)) : Prop where
  intact : s.mq.Intact fs qs fun c => (s.call c).block
  queue : List.Forall₂ s.mq.Contains qs a.queue
  keeps : ∀ c, (s.call c).Keeps s.mq (a.taken c)

/-- The specification can do the step, and the queue keeps its size. -/
def Follows (s' : MqSystem T I) (s : MqSystem T I) (a : MqSpec (T ⊕ I)) (o : MqEnd (T ⊕ I)) :
    Prop :=
  ∃ a' fs' qs', (MqSpec.machine s.mq.maxMsgs s.mq.msgSize).step a o = some (a', a.ops o) ∧
    s'.Delivers fs' qs' a' ∧ s'.mq.maxMsgs = s.mq.maxMsgs ∧ s'.mq.msgSize = s.mq.msgSize

theorem setCall_block (s : MqSystem T I) (c : T ⊕ I) (r : MqCall) (c' : T ⊕ I) :
    ((s.setCall c r).call c').block =
      Function.update (fun c => (s.call c).block) c r.block c' :=
  Function.apply_update (fun _ => MqCall.block) s.call c r c'

omit [DecidableEq T] [DecidableEq I] in
/-- The messages of the queue are read from the blocks in it. -/
theorem queue_congr {mq mq' : RtMessagequeue} {qs : List ℕ} {queue : List (List (BitVec 8))}
    (h : List.Forall₂ mq.Contains qs queue) (hsize : mq'.msgSize = mq.msgSize)
    (hbytes : ∀ msg ∈ qs, mq'.bytes msg = mq.bytes msg) : List.Forall₂ mq'.Contains qs queue := by
  induction h with
  | nil => exact .nil
  | cons hfirst hrest ih =>
    exact .cons (hfirst.congr hsize (hbytes _ List.mem_cons_self))
      (ih fun msg hm => hbytes msg (List.mem_cons_of_mem _ hm))

/-- A section of a call leaves the blocks of the other calls alone. -/
theorem Delivers.section {s : MqSystem T I} {fs qs : List ℕ} {a : MqSpec (T ⊕ I)}
    (h : s.Delivers fs qs a) {c : T ⊕ I} {r : MqCall} (k : Kernel T Unit) {mq : RtMessagequeue}
    {fs' qs' : List ℕ} {a' : MqSpec (T ⊕ I)}
    (hintact : mq.Intact fs' qs' (Function.update (fun c => (s.call c).block) c r.block))
    (hqueue : List.Forall₂ mq.Contains qs' a'.queue) (hkeeps : r.Keeps mq (a'.taken c))
    (htaken : ∀ c', c' ≠ c → a'.taken c' = a.taken c') (hsize : mq.msgSize = s.mq.msgSize)
    (hblocks : ∀ c' msg, c' ≠ c → (s.call c').block = some msg →
      mq.bytes msg = s.mq.bytes msg ∧ mq.next msg = s.mq.next msg) :
    ({ s with kernel := k, mq := mq }.setCall c r).Delivers fs' qs' a' where
  intact := hintact.congr (setCall_block s c r)
  queue := hqueue
  keeps := by
    intro c'
    by_cases hc : c' = c
    · subst hc
      simpa [setCall] using hkeeps
    · have hold := (h.keeps c').congr hsize fun msg => hblocks c' msg hc
      simpa [setCall, hc, htaken c' hc] using hold

omit [DecidableEq T] [DecidableEq I] in
/-- What another call holds is another block. -/
theorem Delivers.ne_of_held {s : MqSystem T I} {fs qs : List ℕ} {a : MqSpec (T ⊕ I)}
    (h : s.Delivers fs qs a) {c c' : T ⊕ I} {msg msg' : ℕ} (hc : (s.call c).block = some msg)
    (hc' : (s.call c').block = some msg') (hne : c' ≠ c) : msg' ≠ msg := by
  rintro rfl
  exact hne (h.intact.partition.held_once c' c msg' hc' hc)

omit [DecidableEq T] [DecidableEq I] in
/-- A call without a block has no message to copy. -/
theorem Delivers.taken_of_block {s : MqSystem T I} {fs qs : List ℕ} {a : MqSpec (T ⊕ I)}
    (h : s.Delivers fs qs a) {c : T ⊕ I} (hcall : (s.call c).block = none) : a.taken c = none := by
  have hkeep := h.keeps c
  cases hc : s.call c with
  | idle | waiting size timeout tickDelta =>
    rw [hc] at hkeep
    exact hkeep
  | filling urgent msg buffer | filled urgent msg buffer | reading size msg | read msg =>
    rw [hc] at hcall
    cases hcall

/-- The end of the first section of a receive. -/
theorem Delivers.takeEnds {s : MqSystem T I} {fs qs : List ℕ} {a : MqSpec (T ⊕ I)}
    (h : s.Delivers fs qs a) {ts : List T} {c : T ⊕ I} {size : ℕ}
    (hcall : (s.call c).block = none) {t : T} {k : Kernel T Unit} {mq : RtMessagequeue}
    {taken : Option ℕ} {out : RetryEnd}
    (hcase : MqTakeCase s.kernel (fun _ => ts) () s.mq t k mq taken out) :
    (s.takeEnds c size (k, mq, taken, out)).1.Follows s a
      (s.takeEnds c size (k, mq, taken, out)).2 := by
  have htaken := h.taken_of_block hcall
  have hsame : ∀ r : MqCall, r.block = none →
      s.mq.Intact fs qs (Function.update (fun c => (s.call c).block) c r.block) := by
    intro r hr
    rw [hr, ← hcall, Function.update_eq_self]
    exact h.intact
  cases hcase with
  | fails he hw hrec =>
    refine ⟨a, fs, qs, MqSpec.machine_step rfl rfl, ?_, rfl, rfl⟩
    exact h.section k (hsame .idle rfl) h.queue htaken (fun _ _ => rfl) rfl
      fun _ _ _ _ => ⟨rfl, rfl⟩
  | @waits hempty k' tm timeout delta htime hw hrec =>
    refine ⟨a, fs, qs, MqSpec.machine_step rfl rfl, ?_, rfl, rfl⟩
    exact h.section k (hsame (.waiting size timeout delta) rfl) h.queue htaken (fun _ _ => rfl) rfl
      fun _ _ _ _ => ⟨rfl, rfl⟩
  | @takes hsome msg mq' hmsg =>
    obtain ⟨qs', rfl, hintact⟩ := h.intact.unlink (c := c) hcall hmsg
    obtain ⟨first, -, he⟩ := Option.map_eq_some_iff.mp hmsg
    obtain ⟨rfl, rfl⟩ := Prod.mk.inj he
    cases hqueue : a.queue with
    | nil =>
      have hno := h.queue
      rw [hqueue] at hno
      cases hno
    | cons m queue =>
      have hall := h.queue
      rw [hqueue] at hall
      obtain ⟨hfirst, hrest⟩ := List.forall₂_cons.mp hall
      refine ⟨⟨queue, Function.update a.taken c (some m)⟩, fs, qs', ?_, ?_, rfl, rfl⟩
      · apply MqSpec.machine_step
        · simp only [MqSystem.takeEnds, MqSpec.ops, hqueue]
          exact BoundedFifo.run_pop _ _ _
        · simp [MqSystem.takeEnds, MqSpec.hands, htaken, hqueue]
      · refine h.section _ hintact (queue_congr hrest rfl fun _ _ => rfl) ?_ ?_ rfl
          fun _ _ _ _ => ⟨rfl, rfl⟩
        · exact ⟨m, by simp, hfirst.congr rfl rfl⟩
        · exact fun c' hc' => Function.update_of_ne hc' _ _

/-- The step lemma: the specification follows every section, copy and timeout. -/
theorem StepCase.follows {s s' : MqSystem T I} {ts : List T} {o : MqEnd (T ⊕ I)}
    {fs qs : List ℕ} {a : MqSpec (T ⊕ I)} (h : s.Delivers fs qs a) (hs : s.StepCase ts s' o) :
    s'.Follows s a o := by
  cases hs with
  | refuses => exact ⟨a, fs, qs, MqSpec.machine_step rfl rfl, h, rfl, rfl⟩
  | @allocates c hcall urgent buffer hlen msg mq hmsg =>
    have hkeep := h.keeps c
    have hheld : (s.call c).block = none := by rw [hcall]; rfl
    rw [hcall] at hkeep
    obtain ⟨fs', hintact⟩ := h.intact.alloc (c := c) hheld hmsg
    obtain ⟨first, -, he⟩ := Option.map_eq_some_iff.mp hmsg
    obtain ⟨rfl, rfl⟩ := Prod.mk.inj he
    refine ⟨a, fs', qs, MqSpec.machine_step rfl rfl, ?_, rfl, rfl⟩
    exact h.section s.kernel hintact (queue_congr h.queue rfl fun _ _ => rfl) ⟨hkeep, hlen⟩
      (fun _ _ => rfl) rfl fun _ _ _ _ => ⟨rfl, rfl⟩
  | @fills c urgent msg buffer hcall =>
    have hkeep := h.keeps c
    have hheld : (s.call c).block = some msg := by rw [hcall]; rfl
    rw [hcall] at hkeep
    obtain ⟨htaken, hlen⟩ := hkeep
    have hapart := h.intact.partition.held_apart c msg hheld
    obtain ⟨hmax, hsize⟩ := @RtMessagequeue.fill_size s.mq msg urgent buffer
    refine ⟨a, fs, qs, MqSpec.machine_step rfl rfl, ?_, hmax, hsize⟩
    refine h.section s.kernel ?_ ?_ ⟨htaken, ?_, ?_⟩ (fun _ _ => rfl) hsize ?_
    · have hsame : Function.update (fun c => (s.call c).block) c (some msg) =
          fun c => (s.call c).block := Function.update_eq_self_iff.mpr hheld.symm
      exact (h.intact.fill hheld urgent buffer).congr (congrFun hsame)
    · refine queue_congr h.queue hsize fun msg' hm => ?_
      have hne : msg' ≠ msg := fun he => hapart.2 (he ▸ hm)
      exact (RtMessagequeue.fill_of_ne hne urgent buffer).1
    · exact RtMessagequeue.contains_copyIn (by cases urgent <;> exact hlen)
    · rintro rfl
      exact Function.update_self ..
    · intro c' msg' hc' hheld'
      exact RtMessagequeue.fill_of_ne (h.ne_of_held hheld hheld' hc') urgent buffer
  | @links c urgent msg buffer hcall k resumed hres =>
    have hkeep := h.keeps c
    have hheld : (s.call c).block = some msg := by rw [hcall]; rfl
    rw [hcall] at hkeep
    obtain ⟨htaken, hcontains, hend⟩ := hkeep
    have hroom : a.queue.length < s.mq.maxMsgs := by
      rw [← h.queue.length_eq]
      exact h.intact.length_lt (c := c) hheld
    cases urgent with
    | true =>
      refine ⟨⟨buffer :: a.queue, a.taken⟩, fs, msg :: qs, ?_, ?_, rfl, rfl⟩
      · exact MqSpec.machine_step (run_pushFront hroom buffer) rfl
      · refine h.section k (h.intact.linkFirst hheld) ?_ htaken (fun _ _ => rfl) rfl ?_
        · exact .cons (hcontains.congr rfl rfl) (queue_congr h.queue rfl fun _ _ => rfl)
        · intro c' msg' hc' hheld'
          exact ⟨rfl, Function.update_of_ne (h.ne_of_held hheld hheld' hc') _ _⟩
    | false =>
      refine ⟨⟨a.queue ++ [buffer], a.taken⟩, fs, qs ++ [msg], ?_, ?_, rfl, rfl⟩
      · exact MqSpec.machine_step (run_push hroom buffer) rfl
      · refine h.section k (h.intact.link hheld (hend rfl)) ?_ htaken (fun _ _ => rfl) rfl ?_
        · have hold : List.Forall₂ (s.mq.link msg).Contains qs a.queue :=
            queue_congr h.queue rfl fun _ _ => rfl
          exact List.rel_append hold (.cons (hcontains.congr rfl rfl) .nil)
        · intro c' msg' hc' hheld'
          have hapart := h.intact.partition.held_apart c' msg' hheld'
          exact ⟨rfl, RtMessagequeue.link_next h.intact.tail hapart.2⟩
  | receives ht hcall hcase hempty => exact h.takeEnds hcall hcase
  | polls hcall hcase hkeep => exact h.takeEnds (by rw [hcall]; rfl) hcase
  | @copies c size msg hcall =>
    have hkeep := h.keeps c
    have hheld : (s.call c).block = some msg := by rw [hcall]; rfl
    rw [hcall] at hkeep
    obtain ⟨m, htaken, hcontains⟩ := hkeep
    refine ⟨⟨a.queue, Function.update a.taken c none⟩, fs, qs, ?_, ?_, rfl, rfl⟩
    · apply MqSpec.machine_step rfl
      simp only [MqSpec.hands, htaken, hcontains.copyOut size, and_self, if_true]
    · refine h.section s.kernel ?_ h.queue (Function.update_self ..) ?_ rfl
        fun _ _ _ _ => ⟨rfl, rfl⟩
      · have hsame : Function.update (fun c => (s.call c).block) c (some msg) =
            fun c => (s.call c).block := Function.update_eq_self_iff.mpr hheld.symm
        exact h.intact.congr (congrFun hsame)
      · exact fun c' hc' => Function.update_of_ne hc' _ _
  | @releases c msg hcall =>
    have hkeep := h.keeps c
    have hheld : (s.call c).block = some msg := by rw [hcall]; rfl
    rw [hcall] at hkeep
    refine ⟨a, msg :: fs, qs, MqSpec.machine_step rfl rfl, ?_, rfl, rfl⟩
    refine h.section s.kernel (h.intact.giveBack hheld) (queue_congr h.queue rfl fun _ _ => rfl)
      hkeep (fun _ _ => rfl) rfl ?_
    intro c' msg' hc' hheld'
    exact ⟨rfl, Function.update_of_ne (h.ne_of_held hheld hheld' hc') _ _⟩
  | expires | ticks =>
    exact ⟨a, fs, qs, MqSpec.machine_step rfl rfl, ⟨h.intact, h.queue, h.keeps⟩, rfl, rfl⟩
  | @resets k hw hthread mq hmq =>
    obtain ⟨hintact, hbytes, hsize, hmax, hnext⟩ := h.intact.reset hmq
    refine ⟨⟨[], a.taken⟩, qs.reverse ++ fs, [], MqSpec.machine_step rfl rfl, ?_, hmax, hsize⟩
    refine ⟨hintact, .nil, fun c => (h.keeps c).congr hsize fun msg hheld => ?_⟩
    have hapart := h.intact.partition.held_apart c msg hheld
    exact ⟨congrFun hbytes msg, hnext msg hapart.2⟩

omit [DecidableEq T] [DecidableEq I] in
theorem Fresh.delivers {s : MqSystem T I} (h : s.Fresh) :
    ∃ fs, s.Delivers fs [] ⟨[], fun _ => none⟩ := by
  obtain ⟨next, bytes, msgSize, poolSize, flag, hmq⟩ := h.mq
  have hblock : ∀ c, (s.call c).block = none := fun c => by rw [h.call c]; rfl
  have hintact := RtMessagequeue.intact_init (C := T ⊕ I) next bytes msgSize poolSize flag
  rw [← hmq] at hintact
  exact ⟨_, hintact.congr hblock, .nil, fun c => by rw [h.call c]; rfl⟩

variable [Fintype T]

/-- The run lemma. -/
theorem run_follows {s s' : MqSystem T I} {es : List (Event T I)} {os : List (MqEnd (T ⊕ I))}
    {fs qs : List ℕ} {a : MqSpec (T ⊕ I)} (hw : ∃ ts, s.kernel.Waits fun _ => ts)
    (h : s.Delivers fs qs a) (hrun : machine.run s es = some (s', os)) :
    ∃ a' ops fs' qs', (MqSpec.machine s.mq.maxMsgs s.mq.msgSize).run a os = some (a', ops) ∧
      s'.Delivers fs' qs' a' := by
  induction es generalizing s os fs qs a with
  | nil =>
    obtain ⟨rfl, rfl⟩ := Prod.mk.inj (Option.some.inj hrun)
    exact ⟨a, [], fs, qs, rfl, h⟩
  | cons e es ih =>
    obtain ⟨s₁, o, os', hs, hrest, rfl⟩ := Machine.run_cons_eq_some hrun
    obtain ⟨ts, hts⟩ := hw
    have hcase := step_cases hts hs
    obtain ⟨a₁, fs₁, qs₁, hstep, h₁, hmax, hsize⟩ := hcase.follows h
    obtain ⟨a', ops, fs', qs', hall, h'⟩ := ih (hcase.waits hts) h₁ hrest
    rw [hmax, hsize] at hall
    exact ⟨a', _, fs', qs', Machine.run_cons_of_step hstep hall, h'⟩

/-- Between any two sections every block is in the free list, in the queue or with one call,
and what the sections, copies and resets have answered is what the specification allows: the
messages leave in the order of the queue, each with the bytes that were sent. What has been
linked has been taken once or is in the queue, unless a reset has thrown it away. -/
theorem queue_keeps_messages {s s' : MqSystem T I} (h : s.Fresh) {es : List (Event T I)}
    {os : List (MqEnd (T ⊕ I))} (hrun : machine.run s es = some (s', os)) :
    ∃ a ops fs qs,
      (MqSpec.machine s.mq.maxMsgs s.mq.msgSize).run ⟨[], fun _ => none⟩ os = some (a, ops) ∧
      s'.Delivers fs qs a ∧ BoundedFifo.run s.mq.maxMsgs [] ops.flatten = some a.queue ∧
      (MqEnd.resets ∉ os → (puts ops.flatten).Perm (takes ops.flatten ++ a.queue)) := by
  obtain ⟨fs₀, hinit⟩ := h.delivers
  obtain ⟨a, ops, fs, qs, hspec, hdelivers⟩ := run_follows ⟨_, h.waits⟩ hinit hrun
  have hops := MqSpec.run_ops hspec
  refine ⟨a, ops, fs, qs, hspec, hdelivers, hops, fun hreset => ?_⟩
  have hperm := run_perm (MqSpec.clear_not_mem hspec hreset) hops
  rwa [List.append_nil] at hperm

/-- A queue for three messages of four bytes and three started threads. -/
def freshQueue : MqSystem (Fin 3) Unit :=
  ⟨startedThreads Unit, rtMqInit (fun _ => none) (fun _ _ => 0) 4 24 .prio, fun _ => .idle⟩

theorem freshQueue_fresh : freshQueue.Fresh :=
  ⟨startedThreads_waits, ⟨_, _, _, _, _, rfl⟩, fun _ => rfl⟩

/-- An urgent message of an interrupt overtakes a send; the reset comes while a send has a
block and a receive is copying. -/
theorem queue_keeps_messages_reset : ∃ s os a ops, machine.run freshQueue
    [.recv 2 4 (-1), .send (.inl 0) false [1, 2], .send (.inr ()) true [9], .fill (.inl 0),
      .fill (.inr ()), .link (.inr ()), .link (.inl 0), .resumed 2, .send (.inl 1) false [3],
      .copy (.inl 2), .reset, .release (.inl 2), .fill (.inl 1), .link (.inl 1), .poll () 0 1,
      .copy (.inr ()), .release (.inr ())] = some (s, os) ∧
    (MqSpec.machine 3 4).run ⟨[], fun _ => none⟩ os = some (a, ops) ∧
    BoundedFifo.run 3 [] ops.flatten = some a.queue := by
  have hrun : (machine.run freshQueue
      [.recv 2 4 (-1), .send (.inl 0) false [1, 2], .send (.inr ()) true [9], .fill (.inl 0),
        .fill (.inr ()), .link (.inr ()), .link (.inl 0), .resumed 2, .send (.inl 1) false [3],
        .copy (.inl 2), .reset, .release (.inl 2), .fill (.inl 1), .link (.inl 1), .poll () 0 1,
        .copy (.inr ()), .release (.inr ())]).isSome := by
    decide +kernel
  obtain ⟨⟨s, os⟩, h⟩ := Option.isSome_iff_exists.mp hrun
  obtain ⟨a, ops, fs, qs, hspec, -, hops, -⟩ := queue_keeps_messages freshQueue_fresh h
  have hmax : freshQueue.mq.maxMsgs = 3 := by decide +kernel
  have hsize : freshQueue.mq.msgSize = 4 := by decide +kernel
  rw [hmax, hsize] at hspec
  rw [hmax] at hops
  exact ⟨s, os, a, ops, h, hspec, hops⟩

end MqSystem
end RtThread
