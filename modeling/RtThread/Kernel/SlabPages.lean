import RtThread.Library.GappedRuns
import RtThread.Library.SinglyLinked
import RtThread.Library.Transition
import Mathlib.Algebra.Ring.Nat

/-!
# The page allocator

`rt_page_alloc` and `rt_page_free` of `slab.c`. A page is named by its number, its address
divided by `RT_MM_PAGE_SIZE`; the head of a free run lies in its first page, so that the
owner of a page writes over what a head would hold. A failed assertion does not return,
which is `none`. The heap semaphore is left out.
-/
namespace RtThread
open GappedRuns SinglyLinked Transition

/-- The two fields of `struct rt_page_head` in every page, and `rt_page_list`. -/
structure PageHeap where
  next : ℕ → Option ℕ
  page : ℕ → ℕ
  pageList : Option ℕ

namespace PageHeap

/-- What `prev` points to. -/
inductive Slot where
  | list
  | next (b : ℕ)
  deriving DecidableEq, Repr

def read (h : PageHeap) : Slot → Option ℕ
  | .list => h.pageList
  | .next b => h.next b

def write (h : PageHeap) (v : Option ℕ) : Slot → PageHeap
  | .list => { h with pageList := v }
  | .next b => { h with next := Function.update h.next b v }

def setNext (h : PageHeap) (b : ℕ) (v : Option ℕ) : PageHeap :=
  { h with next := Function.update h.next b v }

def setPage (h : PageHeap) (b v : ℕ) : PageHeap :=
  { h with page := Function.update h.page b v }

@[simp] theorem setPage_next (h : PageHeap) (b v : ℕ) : (h.setPage b v).next = h.next := rfl

/-- More pages than 32-bit addresses have: the bound of the loops. -/
def pageBound : ℕ := 2 ^ 20 + 1

/-- The loop of `rt_page_alloc` from `prev` on. -/
def allocFrom (h : PageHeap) (npages : ℕ) : ℕ → Slot → Option (Option ℕ × PageHeap)
  | 0, _ => none
  | k + 1, prev =>
    match h.read prev with
    | none => some (none, h)
    | some b =>
      if h.page b > npages then
        let n := b + npages
        let h := h.setNext n (h.next b)
        let h := h.setPage n (h.page b - npages)
        some (some b, h.write (some n) prev)
      else if h.page b = npages then some (some b, h.write (h.next b) prev)
      else allocFrom h npages k (.next b)

/-- The page that is returned, if there is one. -/
def rtPageAlloc (h : PageHeap) (npages : ℕ) : Option (Option ℕ × PageHeap) :=
  if npages = 0 then some (none, h) else h.allocFrom npages pageBound .list

/-- The head of a new run in front of `b`. -/
def linkRun (h : PageHeap) (n npages : ℕ) (b : Option ℕ) (prev : Slot) : PageHeap :=
  ((h.setPage n npages).setNext n b).write (some n) prev

/-- The run at `b` grows up to `b + (b->page += npages)`, and takes in the next one if it
starts there. -/
def growRun (h : PageHeap) (b npages : ℕ) : PageHeap :=
  let h := h.setPage b (h.page b + npages)
  if some (b + h.page b) = h.next b then
    let h := h.setPage b (h.page b + h.page (b + h.page b))
    h.setNext b ((h.next b).bind h.next)
  else h

/-- The loop of `rt_page_free` from `prev` on. -/
def freeFrom (h : PageHeap) (n npages : ℕ) : ℕ → Slot → Option PageHeap
  | 0, _ => none
  | k + 1, prev =>
    match h.read prev with
    | none => some (h.linkRun n npages none prev)
    | some b =>
      if h.page b > 0 ∧ (b > n ∨ b + h.page b ≤ n) then
        if b + h.page b = n then some (h.growRun b npages)
        else if b = n + npages then some (h.linkRun n (h.page b + npages) (h.next b) prev)
        else if b > n + npages then some (h.linkRun n npages (some b) prev)
        else freeFrom h n npages k (.next b)
      else none

def rtPageFree (h : PageHeap) (addr npages : ℕ) : Option PageHeap :=
  if addr ≠ 0 ∧ npages ≠ 0 then h.freeFrom addr npages pageBound .list else none

/-- `next` and `page` are what the memory holds before. -/
def rtPageInit (next : ℕ → Option ℕ) (page : ℕ → ℕ) (addr npages : ℕ) : Option PageHeap :=
  rtPageFree ⟨next, page, none⟩ addr npages

/-! ## The list and its runs -/

/-- `rt_page_list` leads through the heads of these runs. -/
structure Lists (h : PageHeap) (rs : List Run) : Prop where
  chain : Chain h.next h.pageList (rs.map Run.start)
  pages : ∀ r ∈ rs, h.page r.start = r.length

/-- Where `prev` points once the loop has passed the runs `pre`. -/
def slotAfter (pre : List Run) : Slot :=
  match pre.getLast? with
  | none => .list
  | some r => .next r.start

variable {h k : PageHeap} {pre suf rs ss : List Run} {r x : Run} {first : Option ℕ}
  {n fuel p : ℕ}

theorem slotAfter_concat (pre : List Run) (r : Run) : slotAfter (pre ++ [r]) = .next r.start := by
  rw [slotAfter, List.getLast?_concat]

theorem Lists.read (l : Lists h (pre ++ suf)) :
    h.read (slotAfter pre) = (suf.map Run.start).head? := by
  have hchain := l.chain
  rcases List.eq_nil_or_concat' pre with rfl | ⟨qs, q, rfl⟩
  · exact hchain.head?_eq
  · rw [slotAfter_concat]
    rw [List.append_assoc, List.map_append] at hchain
    exact hchain.behind.head?_eq

/-- The heads of `pre` are as they were, in a heap that is being changed. -/
structure SameHeads (h k : PageHeap) (pre : List Run) : Prop where
  pageList : k.pageList = h.pageList
  next : ∀ r ∈ pre, k.next r.start = h.next r.start
  page : ∀ r ∈ pre, k.page r.start = h.page r.start

/-- The runs behind `pre` are replaced through `prev`. -/
theorem Lists.relink (l : Lists h (pre ++ suf)) (g : Gapped (pre ++ suf))
    (hsame : SameHeads h k pre) (hchain : Chain k.next first (ss.map Run.start))
    (hpages : ∀ r ∈ ss, k.page r.start = r.length)
    (hapart : ∀ q ∈ pre, ∀ r ∈ ss, r.start ≠ q.start) :
    Lists (k.write first (slotAfter pre)) (pre ++ ss) := by
  have hpre : ∀ r ∈ pre ++ ss, k.page r.start = r.length := by
    intro r hr
    rcases List.mem_append.mp hr with hr | hr
    · rw [hsame.page r hr]
      exact l.pages r (List.mem_append_left suf hr)
    · exact hpages r hr
  rcases List.eq_nil_or_concat' pre with rfl | ⟨qs, q, rfl⟩
  · exact ⟨hchain, hpre⟩
  · rw [slotAfter_concat]
    refine ⟨?_, hpre⟩
    have hbefore := l.chain
    have hq : ∀ r ∈ qs, r.start ≠ q.start := by
      intro r hr heq
      have horder := (List.pairwise_append.mp (List.pairwise_append.mp g.pairwise).1).2.2 r hr q
        List.mem_cons_self
      unfold Run.stop at horder
      omega
    rw [List.append_assoc, List.map_append] at hbefore
    rw [List.append_assoc, List.map_append]
    change Chain (Function.update k.next q.start first) k.pageList
      (qs.map Run.start ++ q.start :: ss.map Run.start)
    rw [hsame.pageList]
    refine hbefore.replaceBehind (fun y hy => ?_) ?_
    · obtain ⟨r, hr, rfl⟩ := List.mem_map.mp hy
      rw [Function.update_of_ne (hq r hr)]
      exact hsame.next r (List.mem_append_left [q] hr)
    · rw [Function.update_self]
      refine hchain.update (fun hmem => ?_) first
      obtain ⟨r, hr, heq⟩ := List.mem_map.mp hmem
      exact hapart q (List.mem_append_right qs List.mem_cons_self) r hr heq

/-- The head of a run is changed in place, with other runs behind it. -/
theorem Lists.replaceHead (l : Lists h (pre ++ r :: suf)) (hsame : SameHeads h k pre)
    (hstart : x.start = r.start) (hpage : k.page r.start = x.length)
    (hchain : Chain k.next (k.next r.start) (ss.map Run.start))
    (hpages : ∀ s ∈ ss, k.page s.start = s.length) : Lists k (pre ++ x :: ss) := by
  have hbefore := l.chain
  rw [List.map_append, List.map_cons] at hbefore
  constructor
  · rw [List.map_append, List.map_cons, hstart, hsame.pageList]
    refine hbefore.replaceBehind (fun y hy => ?_) hchain
    obtain ⟨s, hs, rfl⟩ := List.mem_map.mp hy
    exact hsame.next s hs
  · intro s hs
    rcases List.mem_append.mp hs with hs | hs
    · rw [hsame.page s hs]
      exact l.pages s (List.mem_append_left _ hs)
    · rcases List.mem_cons.mp hs with rfl | hs
      · rw [hstart, hpage]
      · exact hpages s hs

/-- What lies around a run of the list. -/
theorem around (g : Gapped (pre ++ r :: suf)) :
    (∀ q ∈ pre, q.stop < r.start) ∧ (∀ s ∈ suf, r.stop < s.start) ∧
      ∀ q ∈ pre, ∀ s ∈ suf, q.stop < s.start := by
  obtain ⟨-, hsuf, happ⟩ := List.pairwise_append.mp g.pairwise
  exact ⟨fun q hq => happ q hq r List.mem_cons_self, (List.pairwise_cons.mp hsuf).1,
    fun q hq s hs => happ q hq s (List.mem_cons_of_mem r hs)⟩

theorem Lists.head (l : Lists h (pre ++ r :: suf)) :
    h.page r.start = r.length ∧ Chain h.next (h.next r.start) (suf.map Run.start) ∧
      ∀ s ∈ suf, h.page s.start = s.length := by
  have hchain := l.chain
  rw [List.map_append, List.map_cons] at hchain
  exact ⟨l.pages r (by simp), hchain.behind, fun s hs => l.pages s (by simp [hs])⟩

/-! ## rt_page_alloc -/

/-- No run is long enough: the list is walked to its end. -/
theorem allocFrom_none (l : Lists h (pre ++ suf)) (htake : take n suf = none)
    (hfuel : suf.length < fuel) : h.allocFrom n fuel (slotAfter pre) = some (none, h) := by
  induction suf generalizing pre fuel with
  | nil =>
    obtain ⟨fuel, rfl⟩ : ∃ f, fuel = f + 1 := ⟨fuel - 1, by omega⟩
    rw [allocFrom, l.read]
    rfl
  | cons r suf ih =>
    rw [List.length_cons] at hfuel
    obtain ⟨fuel, rfl⟩ : ∃ f, fuel = f + 1 := ⟨fuel - 1, by omega⟩
    have hshort := take_none_iff.mp htake
    have hr := hshort r List.mem_cons_self
    have hpage := l.head.1
    have hrest := @ih (pre ++ [r]) fuel (by simpa using l)
      (take_none_iff.mpr fun s hs => hshort s (List.mem_cons_of_mem r hs)) (by omega)
    rw [slotAfter_concat] at hrest
    rw [allocFrom, l.read]
    simp only [List.map_cons, List.head?_cons]
    rw [if_neg (by omega), if_neg (by omega), hrest]

/-- The first run that is long enough gives its front part. -/
theorem allocFrom_some (l : Lists h (pre ++ suf)) (g : Gapped (pre ++ suf)) (hn : 0 < n)
    (htake : take n suf = some (p, ss)) (hfuel : suf.length < fuel) :
    ∃ h', h.allocFrom n fuel (slotAfter pre) = some (some p, h') ∧ Lists h' (pre ++ ss) := by
  induction suf generalizing pre fuel ss with
  | nil => simp [take] at htake
  | cons r suf ih =>
    rw [List.length_cons] at hfuel
    obtain ⟨fuel, rfl⟩ : ∃ f, fuel = f + 1 := ⟨fuel - 1, by omega⟩
    obtain ⟨hpage, hchain, hpages⟩ := l.head
    obtain ⟨hpre, hsuf, hfar⟩ := around g
    rw [take] at htake
    rw [allocFrom, l.read]
    simp only [List.map_cons, List.head?_cons, hpage]
    split_ifs at htake with hlong hfits
    · -- The rest of the run gets a head of its own.
      obtain ⟨rfl, rfl⟩ := Prod.mk.inj (Option.some.inj htake)
      rw [if_pos hlong]
      have hne : r.start + n ≠ r.start := by omega
      have hout : ∀ q ∈ pre, q.start ≠ r.start + n := by
        intro q hq
        have hlt := hpre q hq
        unfold Run.stop at hlt
        omega
      have hbehind : ∀ s ∈ suf, s.start ≠ r.start + n := by
        intro s hs
        have hlt := hsuf s hs
        unfold Run.stop at hlt
        omega
      refine ⟨_, rfl, l.relink g ⟨rfl, fun q hq => Function.update_of_ne (hout q hq) ..,
        fun q hq => Function.update_of_ne (hout q hq) ..⟩ ?_ ?_ ?_⟩
      · refine ⟨rfl, ?_⟩
        change Chain (Function.update h.next (r.start + n) (h.next r.start))
          (Function.update h.next (r.start + n) (h.next r.start) (r.start + n)) (suf.map Run.start)
        rw [Function.update_self]
        refine hchain.update (fun hmem => ?_) _
        obtain ⟨s, hs, heq⟩ := List.mem_map.mp hmem
        exact hbehind s hs heq
      · intro s hs
        rcases List.mem_cons.mp hs with rfl | hs
        · change Function.update h.page (r.start + n) (h.page r.start - n) (r.start + n) = _
          rw [Function.update_self, hpage]
        · exact (Function.update_of_ne (hbehind s hs) ..).trans (hpages s hs)
      · intro q hq s hs
        rcases List.mem_cons.mp hs with rfl | hs
        · exact (hout q hq).symm
        · have hlt := hfar q hq s hs
          unfold Run.stop at hlt
          omega
    · obtain ⟨rfl, rfl⟩ := Prod.mk.inj (Option.some.inj htake)
      rw [if_neg hlong, if_pos hfits]
      refine ⟨_, rfl, l.relink g ⟨rfl, fun _ _ => rfl, fun _ _ => rfl⟩ hchain hpages ?_⟩
      intro q hq s hs
      have hlt := hfar q hq s hs
      unfold Run.stop at hlt
      omega
    · obtain ⟨⟨p', ts⟩, hrest, he⟩ := Option.map_eq_some_iff.mp htake
      obtain ⟨rfl, rfl⟩ := Prod.mk.inj he
      rw [if_neg hlong, if_neg hfits]
      obtain ⟨h', hcall, hlists⟩ := @ih (pre ++ [r]) ts fuel (by simpa using l) (by simpa using g)
        hrest (by omega)
      rw [slotAfter_concat] at hcall
      exact ⟨h', hcall, by simpa using hlists⟩

/-! ## rt_page_free -/

/-- The new head is linked in front of the runs `ss`. -/
theorem Lists.linkRun (l : Lists h (pre ++ suf)) (g : Gapped (pre ++ suf))
    (hpre : ∀ q ∈ pre, q.start ≠ x.start) (hss : ∀ s ∈ ss, s.start ≠ x.start)
    (hchain : Chain h.next first (ss.map Run.start))
    (hpages : ∀ s ∈ ss, h.page s.start = s.length)
    (hapart : ∀ q ∈ pre, ∀ s ∈ ss, s.start ≠ q.start) :
    Lists (h.linkRun x.start x.length first (slotAfter pre)) (pre ++ x :: ss) := by
  refine l.relink g ⟨rfl, fun q hq => Function.update_of_ne (hpre q hq) ..,
    fun q hq => Function.update_of_ne (hpre q hq) ..⟩ ?_ ?_ ?_
  · refine ⟨rfl, ?_⟩
    change Chain (Function.update h.next x.start first)
      (Function.update h.next x.start first x.start) (ss.map Run.start)
    rw [Function.update_self]
    refine hchain.update (fun hmem => ?_) _
    obtain ⟨s, hs, heq⟩ := List.mem_map.mp hmem
    exact hss s hs heq
  · intro s hs
    rcases List.mem_cons.mp hs with rfl | hs
    · exact Function.update_self ..
    · exact (Function.update_of_ne (hss s hs) ..).trans (hpages s hs)
  · intro q hq s hs
    rcases List.mem_cons.mp hs with rfl | hs
    · exact (hpre q hq).symm
    · exact hapart q hq s hs

/-- The run in front of the freed pages grows, and takes in the next one if they meet. -/
theorem Lists.growRun (l : Lists h (pre ++ r :: suf)) (g : Gapped (pre ++ r :: suf)) (n : ℕ) :
    Lists (h.growRun r.start n) (pre ++ grow r n suf) := by
  obtain ⟨hpage, hchain, hpages⟩ := l.head
  obtain ⟨hpre, hsuf, -⟩ := around g
  have hpre' : ∀ q ∈ pre, q.start ≠ r.start := by
    intro q hq
    have hlt := hpre q hq
    unfold Run.stop at hlt
    omega
  have hsuf' : ∀ s ∈ suf, s.start ≠ r.start := by
    intro s hs
    have hlt := hsuf s hs
    unfold Run.stop at hlt
    omega
  have hgrown : (h.setPage r.start (h.page r.start + n)).page r.start = r.length + n := by
    rw [← hpage]
    exact Function.update_self ..
  rw [PageHeap.growRun]
  simp only [hgrown, setPage_next]
  cases suf with
  | nil =>
    have hend : h.next r.start = none := hchain
    rw [if_neg (show ¬some (r.start + (r.length + n)) = h.next r.start by rw [hend]; simp), grow]
    exact l.replaceHead ⟨rfl, fun _ _ => rfl, fun q hq => Function.update_of_ne (hpre' q hq) ..⟩
      rfl hgrown hchain (by simp)
  | cons s suf =>
    have hnext : h.next r.start = some s.start := hchain.1
    have hs' := hsuf' s List.mem_cons_self
    rw [grow]
    by_cases hjoin : r.stop + n = s.start
    · have hmeet : r.start + (r.length + n) = s.start := by
        rw [← hjoin, Run.stop, Nat.add_assoc]
      rw [if_pos hjoin, if_pos (by rw [hmeet]; exact hnext.symm), hmeet]
      have hspage : (h.setPage r.start (h.page r.start + n)).page s.start = s.length :=
        (Function.update_of_ne hs' ..).trans (hpages s List.mem_cons_self)
      refine l.replaceHead ⟨rfl, fun q hq => Function.update_of_ne (hpre' q hq) .., fun q hq => ?_⟩
        rfl ?_ ?_ ?_
      · exact (Function.update_of_ne (hpre' q hq) ..).trans (Function.update_of_ne (hpre' q hq) ..)
      · rw [hspage]
        exact Function.update_self ..
      · change Chain (Function.update h.next r.start ((h.next r.start).bind h.next))
          (Function.update h.next r.start ((h.next r.start).bind h.next) r.start)
          (suf.map Run.start)
        rw [Function.update_self, hnext, Option.bind_some]
        refine hchain.2.update (fun hmem => ?_) _
        obtain ⟨t, ht, heq⟩ := List.mem_map.mp hmem
        exact hsuf' t (List.mem_cons_of_mem s ht) heq
      · intro t ht
        have ht' := hsuf' t (List.mem_cons_of_mem s ht)
        exact ((Function.update_of_ne ht' ..).trans (Function.update_of_ne ht' ..)).trans
          (hpages t (List.mem_cons_of_mem s ht))
    · have hmeet : ¬some (r.start + (r.length + n)) = h.next r.start := by
        rw [hnext, Option.some_inj]
        unfold Run.stop at hjoin
        omega
      rw [if_neg hjoin, if_neg hmeet]
      exact l.replaceHead ⟨rfl, fun _ _ => rfl, fun q hq => Function.update_of_ne (hpre' q hq) ..⟩
        rfl hgrown hchain fun t ht => (Function.update_of_ne (hsuf' t ht) ..).trans (hpages t ht)

/-- Freed pages are put back at their place. -/
theorem freeFrom_eq (l : Lists h (pre ++ suf)) (g : Gapped (pre ++ suf)) (hx : 0 < x.length)
    (hapart : ∀ r ∈ pre ++ suf, r.Apart x) (hfuel : suf.length < fuel) :
    ∃ h', h.freeFrom x.start x.length fuel (slotAfter pre) = some h' ∧
      Lists h' (pre ++ putBack x suf) := by
  have hne : ∀ r ∈ pre ++ suf, r.start ≠ x.start := by
    intro r hr heq
    have hpos := g.pos r hr
    have hr' := hapart r hr
    unfold Run.Apart Run.stop at hr'
    omega
  induction suf generalizing pre fuel with
  | nil =>
    obtain ⟨fuel, rfl⟩ : ∃ f, fuel = f + 1 := ⟨fuel - 1, by omega⟩
    rw [freeFrom, l.read]
    exact ⟨_, rfl, @Lists.linkRun h pre [] [] x none l g
      (fun q hq => hne q (List.mem_append_left [] hq)) (by simp) rfl (by simp) (by simp)⟩
  | cons r suf ih =>
    rw [List.length_cons] at hfuel
    obtain ⟨fuel, rfl⟩ : ∃ f, fuel = f + 1 := ⟨fuel - 1, by omega⟩
    obtain ⟨hpage, hchain, hpages⟩ := l.head
    obtain ⟨hpre, hsuf, hfar⟩ := around g
    have hrmem : r ∈ pre ++ r :: suf := by simp
    have hpos := g.pos r hrmem
    have hrx := hapart r hrmem
    have hassert : h.page r.start > 0 ∧
        (r.start > x.start ∨ r.start + h.page r.start ≤ x.start) := by
      rw [hpage]
      unfold Run.Apart Run.stop at hrx
      omega
    have hprex : ∀ q ∈ pre, q.start ≠ x.start := fun q hq => hne q (List.mem_append_left _ hq)
    have hfar' : ∀ q ∈ pre, ∀ s ∈ suf, s.start ≠ q.start := by
      intro q hq s hs
      have hlt := hfar q hq s hs
      unfold Run.stop at hlt
      omega
    rw [freeFrom, l.read]
    simp only [List.map_cons, List.head?_cons]
    rw [if_pos hassert, hpage, putBack, show r.start + r.length = r.stop from rfl,
      show x.start + x.length = x.stop from rfl]
    by_cases hbefore : r.stop = x.start
    · rw [if_pos hbefore, if_pos hbefore]
      exact ⟨_, rfl, l.growRun g x.length⟩
    rw [if_neg hbefore, if_neg hbefore]
    by_cases hbehind : r.start = x.stop
    · rw [if_pos hbehind, if_pos hbehind]
      exact ⟨_, rfl, @Lists.linkRun h pre (r :: suf) suf ⟨x.start, r.length + x.length⟩ _ l g hprex
        (fun s hs => hne s (by simp [hs])) hchain hpages hfar'⟩
    rw [if_neg hbehind, if_neg hbehind]
    by_cases hgap : x.stop < r.start
    · rw [if_pos hgap, if_pos hgap]
      have hall : Chain h.next (some r.start) ((r :: suf).map Run.start) := ⟨rfl, hchain⟩
      refine ⟨_, rfl, l.linkRun g hprex (fun s hs => hne s (List.mem_append_right pre hs)) hall
        ?_ ?_⟩
      · exact List.forall_mem_cons.mpr ⟨hpage, hpages⟩
      · intro q hq
        have hlt := hpre q hq
        unfold Run.stop at hlt
        exact List.forall_mem_cons.mpr ⟨by omega, hfar' q hq⟩
    · rw [if_neg hgap, if_neg hgap]
      obtain ⟨h', hcall, hlists⟩ := @ih (pre ++ [r]) fuel (by simpa using l) (by simpa using g)
        (by simpa using hapart) (by omega) (by simpa using hne)
      rw [slotAfter_concat] at hcall
      exact ⟨h', hcall, by simpa using hlists⟩

end PageHeap
end RtThread
