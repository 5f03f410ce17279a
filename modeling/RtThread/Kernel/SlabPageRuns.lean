import RtThread.Kernel.SlabPages

/-!
# The page allocator over whole runs

Any sequence of `rt_page_alloc` and `rt_page_free` of allocated runs, with the owners of the
pages writing into them in between.
-/
namespace RtThread
open GappedRuns SinglyLinked Transition

/-- The allocator with the runs that its callers hold. -/
structure PageSystem where
  heap : PageHeap
  live : List Run

namespace PageSystem

/-- A call, or a write of what a head would hold into a page by its owner. -/
inductive Event where
  | alloc (npages : ℕ)
  | free (r : Run)
  | write (p : ℕ) (next : Option ℕ) (page : ℕ)

/-- The runs that are held after a call of `rt_page_alloc`. -/
def held (live : List Run) (npages : ℕ) : Option ℕ → List Run
  | none => live
  | some p => ⟨p, npages⟩ :: live

/-- The page that `rt_page_alloc` returns is the output. -/
def step (s : PageSystem) : Event → Option (PageSystem × Option ℕ)
  | .alloc npages =>
    (s.heap.rtPageAlloc npages).map fun r => (⟨r.2, held s.live npages r.1⟩, r.1)
  | .free r =>
    if r ∈ s.live then
      (s.heap.rtPageFree r.start r.length).map fun h => (⟨h, s.live.erase r⟩, none)
    else none
  | .write p next page =>
    if ∃ r ∈ s.live, r.Contains p then
      some (⟨(s.heap.setNext p next).setPage p page, s.live⟩, none)
    else none

def machine : Machine PageSystem Event (Option ℕ) := ⟨step⟩

/-- A page of the initial range is in exactly one run, and no other page is in any. -/
def Partitions (start npages : ℕ) (runs : List Run) : Prop :=
  ∀ p, cover runs p = if start ≤ p ∧ p < start + npages then 1 else 0

/-- The list leads through sorted runs with gaps that, with the allocated ones, make up the
initial range. -/
structure Inv (start npages : ℕ) (s : PageSystem) (rs : List Run) : Prop where
  lists : s.heap.Lists rs
  gapped : Gapped rs
  live_pos : ∀ r ∈ s.live, 0 < r.length
  partitions : Partitions start npages (rs ++ s.live)

variable {start npages n p : ℕ} {s s' : PageSystem} {rs : List Run} {x : Run}

namespace Inv

/-- A run that is free or allocated lies in the initial range. -/
theorem inside (v : Inv start npages s rs) {r : Run} (hr : r ∈ rs ++ s.live)
    (hp : r.Contains p) : start ≤ p ∧ p < start + npages := by
  have hcover := cover_pos hr hp
  rw [v.partitions p] at hcover
  by_contra hout
  rw [if_neg hout] at hcover
  exact absurd hcover (Nat.lt_irrefl 0)

theorem bounds (v : Inv start npages s rs) {r : Run} (hr : r ∈ rs ++ s.live) :
    start ≤ r.start ∧ r.stop ≤ start + npages := by
  have hpos : 0 < r.length := by
    rcases List.mem_append.mp hr with hr | hr
    · exact v.gapped.pos r hr
    · exact v.live_pos r hr
  have hfirst := v.inside hr (p := r.start) ⟨Nat.le_refl _, Nat.lt_add_of_pos_right hpos⟩
  have hlast : r.Contains (r.stop - 1) := by
    unfold Run.Contains Run.stop
    omega
  have hend := v.inside hr hlast
  omega

theorem length_lt (v : Inv start npages s rs) (hend : start + npages ≤ 2 ^ 20) :
    rs.length < PageHeap.pageBound := by
  have hle := v.gapped.length_le (fun r hr => (v.bounds (List.mem_append_left _ hr)).1)
    fun r hr => (v.bounds (List.mem_append_left _ hr)).2
  unfold PageHeap.pageBound
  omega

/-- An allocated run is apart from all free ones. -/
theorem apart (v : Inv start npages s rs) (hx : x ∈ s.live) : ∀ r ∈ rs, r.Apart x := by
  intro r hr
  have hrpos := v.gapped.pos r hr
  have hxpos := v.live_pos x hx
  by_contra hmeet
  -- The later one of the two starts is in both.
  have hboth : ∃ p, r.Contains p ∧ x.Contains p := by
    refine ⟨max r.start x.start, ?_, ?_⟩ <;>
    · unfold Run.Apart at hmeet
      unfold Run.Contains
      unfold Run.stop at *
      omega
  obtain ⟨p, hrp, hxp⟩ := hboth
  have hfree := cover_pos hr hrp
  have hheld := cover_pos hx hxp
  have htotal := v.partitions p
  rw [cover_append] at htotal
  split_ifs at htotal <;> omega

/-- What `rt_page_alloc` does. -/
theorem alloc (v : Inv start npages s rs) (hend : start + npages ≤ 2 ^ 20) (n : ℕ) :
    ∃ o h', s.heap.rtPageAlloc n = some (o, h') ∧
      (0 < n → (o = none ↔ ∀ r ∈ rs, r.length < n)) ∧
      ∃ ss, Inv start npages ⟨h', held s.live n o⟩ ss := by
  have hfuel := v.length_lt hend
  rcases Nat.eq_zero_or_pos n with rfl | hn
  · exact ⟨none, s.heap, rfl, fun h => absurd h (Nat.lt_irrefl 0), rs, v⟩
  rw [PageHeap.rtPageAlloc, if_neg (Nat.ne_of_gt hn)]
  cases htake : take n rs with
  | none =>
    exact ⟨none, s.heap, @PageHeap.allocFrom_none _ [] _ _ _ v.lists htake hfuel,
      fun _ => iff_of_true rfl (take_none_iff.mp htake), rs, v⟩
  | some r =>
    obtain ⟨p, ss⟩ := r
    obtain ⟨h', hcall, hlists⟩ :=
      @PageHeap.allocFrom_some _ [] _ _ _ _ _ v.lists v.gapped hn htake hfuel
    refine ⟨some p, h', hcall, fun _ => iff_of_false (by simp) fun hshort => ?_, ss, hlists,
      v.gapped.take htake, ?_, fun q => ?_⟩
    · rw [take_none_iff.mpr hshort] at htake
      contradiction
    · exact List.forall_mem_cons.mpr ⟨hn, v.live_pos⟩
    · have hq := v.partitions q
      have hcut := take_cover htake q
      rw [cover_append] at hq
      rw [cover_append, held, cover_cons, ← hq, hcut]
      omega

/-- What `rt_page_free` does. -/
theorem free (v : Inv start npages s rs) (hstart : 0 < start) (hend : start + npages ≤ 2 ^ 20)
    (hx : x ∈ s.live) : ∃ h', s.heap.rtPageFree x.start x.length = some h' ∧
      ∃ ss, Inv start npages ⟨h', s.live.erase x⟩ ss := by
  have hpos := v.live_pos x hx
  have hbounds := v.bounds (List.mem_append_right rs hx)
  have hapart := v.apart hx
  obtain ⟨h', hcall, hlists⟩ :=
    @PageHeap.freeFrom_eq _ [] _ _ _ v.lists v.gapped hpos hapart (v.length_lt hend)
  refine ⟨h', ?_, putBack x rs, hlists, v.gapped.putBack hpos hapart,
    fun r hr => v.live_pos r (List.mem_of_mem_erase hr), fun q => ?_⟩
  · rw [PageHeap.rtPageFree, if_pos ⟨by omega, by omega⟩]
    exact hcall
  · have hq := v.partitions q
    have hperm := cover_perm (List.perm_cons_erase hx) q
    rw [cover_cons] at hperm
    rw [cover_append, hperm] at hq
    rw [← hq]
    simp only [cover_append, putBack_cover]
    omega

/-- A write into an allocated page. -/
theorem write (v : Inv start npages s rs) (hp : ∃ r ∈ s.live, r.Contains p) (next : Option ℕ)
    (page : ℕ) : Inv start npages ⟨(s.heap.setNext p next).setPage p page, s.live⟩ rs := by
  obtain ⟨x, hx, hxp⟩ := hp
  have hout : ∀ r ∈ rs, r.start ≠ p := by
    intro r hr heq
    have hpos := v.gapped.pos r hr
    have hapart := v.apart hx r hr
    unfold Run.Contains at hxp
    unfold Run.Apart at hapart
    unfold Run.stop at *
    omega
  refine ⟨⟨v.lists.chain.update (fun hmem => ?_) next, fun r hr => ?_⟩, v.gapped, v.live_pos,
    v.partitions⟩
  · obtain ⟨r, hr, heq⟩ := List.mem_map.mp hmem
    exact hout r hr heq
  · exact (Function.update_of_ne (hout r hr) ..).trans (v.lists.pages r hr)

end Inv

/-- Some list of runs represents the state. -/
def Represented (start npages : ℕ) (s : PageSystem) : Prop := ∃ rs, Inv start npages s rs

theorem Represented.step (h : Represented start npages s) (hstart : 0 < start)
    (hend : start + npages ≤ 2 ^ 20) {e : Event} {o : Option ℕ}
    (hs : machine.step s e = some (s', o)) : Represented start npages s' := by
  obtain ⟨rs, v⟩ := h
  change s.step e = some (s', o) at hs
  cases e with
  | alloc n =>
    obtain ⟨o', h', hcall, -, hinv⟩ := v.alloc hend n
    rw [PageSystem.step, hcall] at hs
    obtain ⟨rfl, -⟩ := Prod.mk.inj (Option.some.inj hs)
    exact hinv
  | free r =>
    rw [PageSystem.step] at hs
    split_ifs at hs with hr
    obtain ⟨h', hcall, hinv⟩ := v.free hstart hend hr
    rw [hcall] at hs
    obtain ⟨rfl, -⟩ := Prod.mk.inj (Option.some.inj hs)
    exact hinv
  | write p next page =>
    rw [PageSystem.step] at hs
    split_ifs at hs with hp
    obtain ⟨rfl, -⟩ := Prod.mk.inj (Option.some.inj hs)
    exact ⟨rs, v.write hp next page⟩

/-- The initial run. -/
theorem init {next : ℕ → Option ℕ} {page : ℕ → ℕ} (hstart : 0 < start) (hpages : 0 < npages) :
    ∃ h, PageHeap.rtPageInit next page start npages = some h ∧
      Inv start npages ⟨h, []⟩ [⟨start, npages⟩] := by
  obtain ⟨h, hcall, hlists⟩ := @PageHeap.freeFrom_eq ⟨next, page, none⟩ [] [] ⟨start, npages⟩
    PageHeap.pageBound ⟨rfl, by simp⟩ gapped_nil hpages (by simp) (Nat.succ_pos _)
  refine ⟨h, ?_, hlists, gapped_nil.putBack hpages (by simp), by simp, fun p => ?_⟩
  · rw [PageHeap.rtPageInit, PageHeap.rtPageFree, if_pos ⟨by omega, by omega⟩]
    exact hcall
  · rw [List.append_nil, cover_cons]
    exact Nat.zero_add _

/-- Every call returns in a state that a run from the initialization reaches, the list is
sorted with gaps and makes up the initial range with the allocated runs, and only a request
for pages that no free run has is refused. -/
theorem page_runs_partition {next : ℕ → Option ℕ} {page : ℕ → ℕ} (hstart : 0 < start)
    (hpages : 0 < npages) (hend : start + npages ≤ 2 ^ 20) :
    ∃ h, PageHeap.rtPageInit next page start npages = some h ∧
      ∀ (events : List Event) (s : PageSystem) (os : List (Option ℕ)),
        machine.run ⟨h, []⟩ events = some (s, os) →
        ∃ rs, s.heap.Lists rs ∧ Gapped rs ∧ Partitions start npages (rs ++ s.live) ∧
          (∀ n, 0 < n → ∃ o h', s.heap.rtPageAlloc n = some (o, h') ∧
            (o = none ↔ ∀ r ∈ rs, r.length < n)) ∧
          ∀ r ∈ s.live, (s.heap.rtPageFree r.start r.length).isSome := by
  obtain ⟨h, hcall, hinv⟩ := @init start npages next page hstart hpages
  refine ⟨h, hcall, fun events s os hrun => ?_⟩
  have hreach : Represented start npages s :=
    Machine.run_invariant (fun _ _ _ _ hv hs => hv.step hstart hend hs) ⟨_, hinv⟩ hrun
  obtain ⟨rs, v⟩ := hreach
  refine ⟨rs, v.lists, v.gapped, v.partitions, fun n hn => ?_, fun r hr => ?_⟩
  · obtain ⟨o, h', ho, hnone, -⟩ := v.alloc hend n
    exact ⟨o, h', ho, hnone hn⟩
  · obtain ⟨h', hfree, -⟩ := v.free hstart hend hr
    exact Option.isSome_of_eq_some hfree

/-- Sixteen pages from page 32 on. -/
theorem page_runs_partition_sixteen :
    ∃ h, PageHeap.rtPageInit (fun _ => none) (fun _ => 0) 32 16 = some h ∧
      ∀ (events : List Event) (s : PageSystem) (os : List (Option ℕ)),
        machine.run ⟨h, []⟩ events = some (s, os) →
        ∃ rs, s.heap.Lists rs ∧ Gapped rs ∧ Partitions 32 16 (rs ++ s.live) ∧
          (∀ n, 0 < n → ∃ o h', s.heap.rtPageAlloc n = some (o, h') ∧
            (o = none ↔ ∀ r ∈ rs, r.length < n)) ∧
          ∀ r ∈ s.live, (s.heap.rtPageFree r.start r.length).isSome :=
  page_runs_partition (by decide) (by decide) (by decide)

/-- A request for no pages is refused while all pages are free. -/
theorem page_request_of_none :
    ¬∀ (start npages : ℕ) (next : ℕ → Option ℕ) (page : ℕ → ℕ), 0 < start → 0 < npages →
      start + npages ≤ 2 ^ 20 → ∀ h, PageHeap.rtPageInit next page start npages = some h →
      ∀ (events : List Event) (s : PageSystem) (os : List (Option ℕ)),
        machine.run ⟨h, []⟩ events = some (s, os) →
        ∀ rs, s.heap.Lists rs → ∀ n h', s.heap.rtPageAlloc n = some (none, h') →
          ∀ r ∈ rs, r.length < n := by
  intro hclaim
  obtain ⟨h, hcall, hinv⟩ := @init 32 16 (fun _ => none) (fun _ => 0) (by decide) (by decide)
  have hshort := hclaim 32 16 _ _ (by decide) (by decide) (by decide) h hcall [] ⟨h, []⟩ [] rfl
    [⟨32, 16⟩] hinv.lists 0 h rfl ⟨32, 16⟩ List.mem_cons_self
  exact absurd hshort (by decide)

end PageSystem
end RtThread
