import RtThread.Kernel.Slab

/-!
# The lock of the slab allocator

The programs of `rt_malloc`, `rt_realloc` and `rt_free` take and release `heap_sem` in turn,
unless `rt_page_alloc` has no pages for a new zone: there `rt_malloc` releases it twice.
-/
namespace RtThread
open LockedPrograms GappedRuns SinglyLinked Transition

/-- Whatever runs the list leads through, one of them has so many pages. -/
def PageHeap.HasRoom (h : PageHeap) (npages : ℕ) : Prop :=
  ∀ rs, h.Lists rs → ∃ r ∈ rs, npages ≤ r.length

/-- Only a walk over the whole list ends without a page. -/
theorem PageHeap.allocFrom_refused {h h' : PageHeap} {npages fuel : ℕ} {prev : PageHeap.Slot}
    (hcall : h.allocFrom npages fuel prev = some (none, h')) :
    ∃ rs : List Run, Chain h.next (h.read prev) (rs.map Run.start) ∧
      ∀ r ∈ rs, h.page r.start = r.length ∧ r.length < npages := by
  induction fuel generalizing prev with
  | zero => simp [PageHeap.allocFrom] at hcall
  | succ fuel ih =>
    rw [PageHeap.allocFrom] at hcall
    cases hread : h.read prev with
    | none => exact ⟨[], rfl, by simp⟩
    | some b =>
      simp only [hread] at hcall
      split_ifs at hcall with hlong hfits
      · simp at hcall
      · simp at hcall
      · obtain ⟨rs, hchain, hpages⟩ := ih hcall
        refine ⟨⟨b, h.page b⟩ :: rs, ⟨rfl, hchain⟩, ?_⟩
        refine List.forall_mem_cons.mpr ⟨⟨rfl, ?_⟩, hpages⟩
        show h.page b < npages
        omega

/-- A walk that ends with a page has found a run in whatever the list leads through. -/
theorem PageHeap.allocFrom_served {h h' : PageHeap} {npages fuel p : ℕ} {prev : PageHeap.Slot}
    {rs : List Run} (hcall : h.allocFrom npages fuel prev = some (some p, h'))
    (hchain : Chain h.next (h.read prev) (rs.map Run.start))
    (hpages : ∀ r ∈ rs, h.page r.start = r.length) : ∃ r ∈ rs, npages ≤ r.length := by
  induction fuel generalizing prev rs with
  | zero => simp [PageHeap.allocFrom] at hcall
  | succ fuel ih =>
    rw [PageHeap.allocFrom] at hcall
    cases rs with
    | nil =>
      have hread : h.read prev = none := hchain
      simp [hread] at hcall
    | cons r rs =>
      have hread : h.read prev = some r.start := hchain.1
      have hpage := hpages r List.mem_cons_self
      simp only [hread, hpage] at hcall
      split_ifs at hcall with hlong hfits
      · exact ⟨r, List.mem_cons_self, Nat.le_of_lt hlong⟩
      · exact ⟨r, List.mem_cons_self, Nat.le_of_eq hfits.symm⟩
      · obtain ⟨q, hq, hle⟩ := ih hcall hchain.2 fun q hq => hpages q (List.mem_cons_of_mem r hq)
        exact ⟨q, List.mem_cons_of_mem r hq, hle⟩

theorem PageHeap.HasRoom.not_refused {h h' : PageHeap} {npages : ℕ} (hroom : h.HasRoom npages) :
    h.allocFrom npages PageHeap.pageBound .list ≠ some (none, h') := by
  intro hcall
  obtain ⟨rs, hchain, hpages⟩ := PageHeap.allocFrom_refused hcall
  obtain ⟨r, hr, hle⟩ := hroom rs ⟨hchain, fun r hr => (hpages r hr).1⟩
  have hlt := (hpages r hr).2
  omega

namespace Slab

/-- A request for the pages of a new zone finds a run that has them. -/
def ZoneFound : Action → Slab → Prop
  | .plain, _ => True
  | .newZone npages, s => s.pages.HasRoom npages

abbrev LocksOutside (p : Program) : Prop := Locks ZoneFound false p

variable {size ptr npages page : ℕ} {next : ℕ → Program} {p : Program}

theorem stuck_locks (b : Bool) : Locks ZoneFound b stuck := .act fun _ _ _ _ h => by simp at h

/-- An action outside of the protected sections that leads to programs that lock. -/
theorem locks_act {f : Slab → Option (Slab × Program)} {b : Bool}
    (h : ∀ s s' p, f s = some (s', p) → Locks ZoneFound b p) :
    Locks ZoneFound b (.act .plain f) := .act fun s s' p _ hf => h s s' p hf

theorem rtPageAlloc_locks {next : Option ℕ → Program} (h : ∀ o, LocksOutside (next o)) :
    LocksOutside (rtPageAlloc .plain npages next) := by
  rw [rtPageAlloc]
  split_ifs
  · exact h none
  · refine .take (locks_act fun s s' p hf => ?_)
    obtain ⟨r, -, he⟩ := Option.map_eq_some_iff.mp hf
    obtain ⟨-, rfl⟩ := Prod.mk.inj he
    exact .release (h r.1)

/-- The pages of a new zone are found, so that only that continuation counts. -/
theorem newZone_locks {next : Option ℕ → Program} (hpages : npages ≠ 0)
    (h : ∀ z, LocksOutside (next (some z))) :
    LocksOutside (rtPageAlloc (.newZone npages) npages next) := by
  rw [rtPageAlloc, if_neg hpages]
  refine .take (.act fun s s' p hroom hf => ?_)
  obtain ⟨⟨o, pages⟩, hcall, he⟩ := Option.map_eq_some_iff.mp hf
  obtain ⟨-, rfl⟩ := Prod.mk.inj he
  cases o with
  | none => exact absurd hcall hroom.not_refused
  | some z => exact .release (h z)

theorem rtPageFree_locks (h : LocksOutside p) : LocksOutside (rtPageFree page npages p) := by
  rw [rtPageFree]
  split_ifs
  · refine .take (locks_act fun s s' q hf => ?_)
    obtain ⟨r, -, he⟩ := Option.map_eq_some_iff.mp hf
    obtain ⟨-, rfl⟩ := Prod.mk.inj he
    exact .release h
  · exact stuck_locks false

theorem mallocLarge_locks (h : ∀ a, LocksOutside (next a)) :
    LocksOutside (mallocLarge size next) := by
  rw [mallocLarge]
  refine rtPageAlloc_locks fun o => ?_
  cases o with
  | none => exact h 0
  | some page =>
    refine locks_act fun s s' q hf => ?_
    obtain ⟨-, rfl⟩ := Prod.mk.inj (Option.some.inj hf)
    refine .take (locks_act fun s s' q hf => ?_)
    obtain ⟨-, rfl⟩ := Prod.mk.inj (Option.some.inj hf)
    exact .release (h _)

theorem mallocZone_locks (zi : ℕ) (hpages : npages ≠ 0) (h : ∀ a, LocksOutside (next a)) :
    Locks ZoneFound true (mallocZone zi size npages next) := by
  refine .release (newZone_locks hpages fun z => ?_)
  refine .take (locks_act fun s s' q hf => ?_)
  obtain ⟨-, rfl⟩ := Prod.mk.inj (Option.some.inj hf)
  exact .release (h _)

theorem mallocSmall_locks (h : ∀ a, LocksOutside (next a)) :
    LocksOutside (mallocSmall size next) := by
  refine .take (locks_act fun s s' q hf => ?_)
  dsimp only at hf
  split_ifs at hf with hindex
  cases harray : s.zoneArray (zoneindex size).1 with
  | some z =>
    simp only [harray] at hf
    obtain ⟨r, -, he⟩ := Option.map_eq_some_iff.mp hf
    obtain ⟨-, rfl⟩ := Prod.mk.inj he
    exact .release (h r.1)
  | none =>
    cases hfree : s.zoneFree with
    | some z =>
      simp only [harray, hfree] at hf
      obtain ⟨-, rfl⟩ := Prod.mk.inj (Option.some.inj hf)
      exact .release (h _)
    | none =>
      simp only [harray, hfree] at hf
      obtain ⟨-, rfl⟩ := Prod.mk.inj (Option.some.inj hf)
      have hzone := Nat.div_pos s.zone_page (show 0 < rtMmPageSize by decide)
      exact mallocZone_locks _ (Nat.ne_of_gt hzone) h

theorem rtMalloc_locks (h : ∀ a, LocksOutside (next a)) : LocksOutside (rtMalloc size next) := by
  rw [rtMalloc]
  split_ifs
  · exact h 0
  · refine locks_act fun s s' q hf => ?_
    obtain ⟨-, rfl⟩ := Prod.mk.inj (Option.some.inj hf)
    split_ifs
    · exact mallocLarge_locks h
    · exact mallocSmall_locks h

theorem freeLarge_locks (h : LocksOutside p) : LocksOutside (freeLarge ptr p) := by
  refine .take (locks_act fun s s' q hf => ?_)
  obtain ⟨-, rfl⟩ := Prod.mk.inj (Option.some.inj hf)
  refine .release ?_
  split_ifs
  · exact rtPageFree_locks h
  · exact stuck_locks false

theorem freeSmall_locks (h : LocksOutside p) : LocksOutside (freeSmall ptr p) := by
  refine .take (locks_act fun s s' q hf => ?_)
  dsimp only at hf
  split_ifs at hf with hmagic hspare
  · obtain ⟨t, -, he⟩ := Option.map_eq_some_iff.mp hf
    split_ifs at he
    · obtain ⟨-, rfl⟩ := Prod.mk.inj he
      exact .release (rtPageFree_locks h)
    · obtain ⟨-, rfl⟩ := Prod.mk.inj he
      exact .release h
  · obtain ⟨-, rfl⟩ := Prod.mk.inj (Option.some.inj hf)
    exact .release h

theorem rtFree_locks (h : LocksOutside p) : LocksOutside (rtFree ptr p) := by
  rw [rtFree]
  split_ifs
  · exact h
  · refine locks_act fun s s' q hf => ?_
    obtain ⟨-, rfl⟩ := Prod.mk.inj (Option.some.inj hf)
    split_ifs
    · exact freeLarge_locks h
    · exact freeSmall_locks h

theorem moveBlock_locks (h : ∀ a, LocksOutside (next a)) :
    LocksOutside (moveBlock ptr size next) := by
  refine rtMalloc_locks fun nptr => ?_
  split_ifs
  · exact h 0
  · exact rtFree_locks (h nptr)

theorem rtRealloc_locks (h : ∀ a, LocksOutside (next a)) :
    LocksOutside (rtRealloc ptr size next) := by
  rw [rtRealloc]
  split_ifs
  · exact rtMalloc_locks h
  · exact rtFree_locks (h 0)
  · refine locks_act fun s s' q hf => ?_
    cases htype : (s.kup ptr).type with
    | large =>
      simp only [htype] at hf
      obtain ⟨-, rfl⟩ := Prod.mk.inj (Option.some.inj hf)
      exact moveBlock_locks h
    | small =>
      simp only [htype] at hf
      split_ifs at hf
      · obtain ⟨-, rfl⟩ := Prod.mk.inj (Option.some.inj hf)
        exact h ptr
      · obtain ⟨-, rfl⟩ := Prod.mk.inj (Option.some.inj hf)
        exact moveBlock_locks h
    | free =>
      simp only [htype] at hf
      obtain ⟨-, rfl⟩ := Prod.mk.inj (Option.some.inj hf)
      exact h 0

theorem Call.locks (c : Call) : LocksOutside c.program := by
  cases c with
  | malloc size => exact rtMalloc_locks .done
  | realloc ptr size => exact rtRealloc_locks .done
  | free ptr => exact rtFree_locks (.done 0)

/-- Any threads that call the allocator. -/
abbrev machine (T : Type) [DecidableEq T] :
    Machine (Threads Slab Action ℕ T) (Event T Call) (Option ℕ) := Threads.machine Call.program

/-- The pages that a step asks for as a new zone are there. -/
abbrev ZonesFound {T : Type} : Threads Slab Action ℕ T → Event T Call → Prop :=
  Threads.ActionOk ZoneFound

/-- As long as every new zone finds its pages, `heap_sem` is one while no thread is inside a
protected section, and no two are. -/
theorem heapSem_excludes {T : Type} [DecidableEq T] (slab : Slab) {events : List (Event T Call)}
    (hfound : (machine T).Meets ZonesFound (Threads.quiet slab) events) :
    (machine T).Always Threads.ExcludesOthers (Threads.quiet slab) events :=
  Threads.always_exclusive Call.locks slab hfound

/-- Memory that holds nothing. -/
def blank : Slab where
  pages := ⟨fun _ => none, fun _ => 0, none⟩
  heapStart := 0
  heapEnd := 0
  memusage _ := ⟨.free, 0⟩
  zone _ := ⟨0, 0, 0, none, 0, 0, 0, 0, 0⟩
  chunkNext _ := 0
  zoneArray _ := none
  zoneFree := none
  zoneFreeCnt := 0
  zoneSize := rtMmPageSize
  zoneLimit := 0
  zonePageCnt := 1
  usedMem := 0
  maxMem := 0
  zone_page := Nat.le_refl _

/-- The first steps of one call of one thread. -/
def oneCall (c : Call) (steps : ℕ) : List (Event Unit Call) :=
  .start () c :: List.replicate steps (.run ())

/-- Whether the walk for a new zone ends with a page, where a step makes one. -/
def servesZone (s : Threads Slab Action ℕ Unit) : Event Unit Call → Bool
  | .start _ _ => true
  | .run t =>
    match s.call t with
    | some (.act (.newZone npages) _) =>
      ((s.shared.pages.allocFrom npages PageHeap.pageBound .list).bind Prod.fst).isSome
    | _ => true

theorem zonesFound_of_serves {s : Threads Slab Action ℕ Unit} {e : Event Unit Call}
    (h : servesZone s e = true) : ZonesFound s e := by
  cases e with
  | start t c => trivial
  | run t =>
    intro l f hcall
    cases l with
    | plain => trivial
    | newZone npages =>
      intro rs hlists
      simp only [servesZone, hcall] at h
      obtain ⟨page, hpage⟩ := Option.isSome_iff_exists.mp h
      obtain ⟨⟨o, h'⟩, hwalk, rfl⟩ := Option.bind_eq_some_iff.mp hpage
      exact PageHeap.allocFrom_served hwalk hlists.chain hlists.pages

/-- A new zone in a heap of 31 pages. -/
theorem heapSem_excludes_zone : ∃ slab, rtSystemHeapInit blank 0x1000 0x20000 = some slab ∧
    (machine Unit).Always Threads.ExcludesOthers (Threads.quiet slab)
      (oneCall (.malloc 8) 11) := by
  have hserves : (rtSystemHeapInit blank 0x1000 0x20000).map (fun slab =>
      decide ((machine Unit).Meets (fun s e => servesZone s e = true) (Threads.quiet slab)
        (oneCall (.malloc 8) 11))) = some true := by decide +kernel
  obtain ⟨slab, hinit, hmeets⟩ := Option.map_eq_some_iff.mp hserves
  exact ⟨slab, hinit, heapSem_excludes slab
    ((of_decide_eq_true hmeets).mono fun _ _ => zonesFound_of_serves)⟩

/-- Four free pages and a request for eight bytes. -/
theorem heapSem_released_twice :
    ¬∀ (beginAddr endAddr : ℕ) (slab : Slab),
      rtSystemHeapInit blank beginAddr endAddr = some slab → ∀ events : List (Event Unit Call),
        (machine Unit).Always Threads.ExcludesOthers (Threads.quiet slab) events := by
  intro h
  have hrun : ((rtSystemHeapInit blank 0x1000 0x6000).bind fun slab =>
      (machine Unit).run (Threads.quiet slab) (oneCall (.malloc 8) 8)).map
        (fun r => (r.1.value, r.1.inside ())) = some (2, false) := by decide +kernel
  obtain ⟨⟨s, os⟩, hbind, hvalue⟩ := Option.map_eq_some_iff.mp hrun
  obtain ⟨slab, hinit, hr⟩ := Option.bind_eq_some_iff.mp hbind
  obtain ⟨htwo, hout⟩ := Prod.mk.inj hvalue
  have hone := ((h _ _ slab hinit _).last hr).free fun _ => hout
  rw [htwo] at hone
  contradiction

end Slab
end RtThread
