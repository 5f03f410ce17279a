import RtThread.Filesystems.FatTable
import RtThread.Library.SinglyLinked
import RtThread.Library.Transition
import Mathlib.Data.Finset.Card
import Mathlib.Order.Interval.Finset.Nat

/-!
# Cluster chains

Files as lists of clusters that the entries of the table link, and what `create_chain` and
`remove_chain` make of them: a new cluster was free and becomes the last of one file, removed
clusters become free, and no other entry changes. The loops end in any state. So the files stay
apart over any run of calls, and `sync` leaves them on the drive as their owners know them.
-/
namespace RtThread
open ByteMemory SinglyLinked

namespace FatFs

/-- A cluster leads to the next one unless its entry marks the end. -/
def next (v : FatVolume) (fs : FatFs) (c : ℕ) : Option ℕ :=
  if fs.entry v c < v.nFatent then some (fs.entry v c) else none

/-- The clusters whose entries are zero. -/
def freeClusters (v : FatVolume) (fs : FatFs) : Finset ℕ :=
  {c ∈ Finset.range v.nFatent | 2 ≤ c ∧ fs.entry v c = 0}

/-- The table links the clusters of each file; no file shares one with another, and no entry is
one of those that are not allowed. -/
structure Holds {κ : Type*} (v : FatVolume) (fs : FatFs) (files : κ → List ℕ) : Prop where
  chains : Chains (fs.next v) files
  range : ∀ k c, c ∈ files k → 2 ≤ c ∧ c < v.nFatent
  regular : ∀ c, 2 ≤ c → c < v.nFatent → fs.entry v c ≠ 1

/-- The number of free clusters is right where it is known. -/
def CountRight (v : FatVolume) (fs : FatFs) : Prop :=
  fs.freeClust = freeUnknown ∨ fs.freeClust = (fs.freeClusters v).card

variable {v : FatVolume} {fs fs' : FatFs}

theorem mem_freeClusters {c : ℕ} :
    c ∈ fs.freeClusters v ↔ 2 ≤ c ∧ c < v.nFatent ∧ fs.entry v c = 0 := by
  simp only [freeClusters, Finset.mem_filter, Finset.mem_range]
  tauto

variable (v fs) in
theorem card_freeClusters_lt : (fs.freeClusters v).card < 2 ^ 28 := by
  have hcard := Finset.card_filter_le (Finset.range v.nFatent) fun c => 2 ≤ c ∧ fs.entry v c = 0
  rw [Finset.card_range] at hcard
  have hle := v.nFatent_le
  have hlast : v.fsType.lastLink < 2 ^ 28 := by cases v.fsType <;> decide
  exact (hcard.trans hle).trans_lt hlast

theorem Same.freeClusters (h : Same v fs fs') : fs'.freeClusters v = fs.freeClusters v := by
  ext c
  rw [mem_freeClusters, mem_freeClusters]
  constructor
  · rintro ⟨hlo, hc, he⟩
    exact ⟨hlo, hc, (h.entry hc).symm.trans he⟩
  · rintro ⟨hlo, hc, he⟩
    exact ⟨hlo, hc, (h.entry hc).trans he⟩

theorem Same.next (h : Same v fs fs') {c : ℕ} (hc : c < v.nFatent) :
    fs'.next v c = fs.next v c := by
  rw [FatFs.next, FatFs.next, h.entry hc]

theorem Holds.congr {κ : Type*} {files : κ → List ℕ} (hh : fs.Holds v files)
    (h : ∀ c, c < v.nFatent → fs'.entry v c = fs.entry v c) : fs'.Holds v files where
  chains.chain k := (hh.chains.chain k).congr fun c hc => by
    rw [FatFs.next, FatFs.next, h c (hh.range k c hc).2]
  chains.apart := hh.chains.apart
  range := hh.range
  regular c hlo hc := by
    rw [h c hc]
    exact hh.regular c hlo hc

theorem Same.holds {κ : Type*} {files : κ → List ℕ} (h : Same v fs fs')
    (hh : fs.Holds v files) : fs'.Holds v files :=
  hh.congr fun _ hc => h.entry hc

theorem Same.countRight (h : Same v fs fs') (hc : fs.CountRight v) : fs'.CountRight v := by
  rw [CountRight, h.freeClusters, h.freeClust]
  exact hc

end FatFs

/-! ## The search for a free cluster -/

section Search

variable {v : FatVolume} {fs fs' : FatFs}

/-- The cluster behind `ncl`. -/
def behind (v : FatVolume) (ncl : ℕ) : ℕ := if v.nFatent ≤ ncl + 1 then 2 else ncl + 1

/-- The clusters that the search comes to behind `ncl`. -/
def Ahead (v : FatVolume) (scl ncl c : ℕ) : Prop :=
  2 ≤ c ∧ c < v.nFatent ∧ if scl ≤ ncl then ncl < c ∨ c ≤ scl else ncl < c ∧ c ≤ scl

/-- Nothing is left when the search has come around. -/
theorem searchFree_succ (scl fuel : ℕ) (fs : FatFs) (ncl : ℕ) :
    searchFree v scl (fuel + 1) fs ncl =
      if v.nFatent ≤ ncl + 1 ∧ scl < 2 then some (.stop 0, fs)
      else if (getFat v fs (behind v ncl)).1 = 0 then
        some (.free (behind v ncl), (getFat v fs (behind v ncl)).2)
      else if (getFat v fs (behind v ncl)).1 = fatDiskError ∨
          (getFat v fs (behind v ncl)).1 = 1 then
        some (.stop (getFat v fs (behind v ncl)).1, (getFat v fs (behind v ncl)).2)
      else if behind v ncl = scl then some (.stop 0, (getFat v fs (behind v ncl)).2)
      else searchFree v scl fuel (getFat v fs (behind v ncl)).2 (behind v ncl) := by
  have hwrap : (v.nFatent ≤ ncl + 1 ∧ scl < if v.nFatent ≤ ncl + 1 then 2 else ncl + 1) ↔
      v.nFatent ≤ ncl + 1 ∧ scl < 2 := by
    constructor
    · rintro ⟨hw, hlt⟩
      rw [if_pos hw] at hlt
      exact ⟨hw, hlt⟩
    · rintro ⟨hw, hlt⟩
      rw [if_pos hw]
      exact ⟨hw, hlt⟩
  rw [searchFree]
  simp only [hwrap]
  rfl

/-- The search ends, whatever the drive answers. -/
theorem searchFree_ends {scl fuel ncl : ℕ} (fs : FatFs) (hscl : 1 ≤ scl) (hlt : scl < v.nFatent)
    (hncl : ncl < v.nFatent)
    (hfuel : (if scl ≤ ncl then v.nFatent - 1 - ncl + scl else scl - ncl) ≤ fuel) :
    (searchFree v scl fuel fs ncl).isSome := by
  induction fuel generalizing fs ncl with
  | zero =>
    split at hfuel <;> omega
  | succ fuel ih =>
    have hgt := v.nFatent_gt
    have hbehind : behind v ncl < v.nFatent := by
      rw [behind]
      split <;> omega
    rw [searchFree_succ]
    split_ifs with hfull hfree herr hlast
    · rfl
    · rfl
    · rfl
    · rfl
    · refine ih _ hbehind ?_
      rw [behind] at hlast ⊢
      split_ifs at hlast hfuel ⊢ <;> omega

/-- What the search finds: a free cluster, or that there is none ahead. -/
theorem searchFree_ok {scl fuel ncl : ℕ} {out : FatSearch} (h : fs.Sound v)
    (hreg : ∀ c, 2 ≤ c → c < v.nFatent → fs.entry v c ≠ 1) (hpos : 1 ≤ ncl)
    (hncl : ncl < v.nFatent) (hs : searchFree v scl fuel fs ncl = some (out, fs'))
    (hout : out ≠ .stop fatDiskError) :
    fs'.Sound v ∧ FatFs.Same v fs fs' ∧
      ((∃ c, out = .free c ∧ c ∈ fs.freeClusters v) ∨
        (out = .stop 0 ∧ ∀ c, Ahead v scl ncl c → fs.entry v c ≠ 0)) := by
  induction fuel generalizing fs ncl with
  | zero => simp [searchFree] at hs
  | succ fuel ih =>
    have hgt := v.nFatent_gt
    have hd : 2 ≤ behind v ncl ∧ behind v ncl < v.nFatent := by
      rw [behind]
      split <;> omega
    rw [searchFree_succ] at hs
    split at hs
    · next hfull =>
      simp only [Option.some.injEq, Prod.mk.injEq] at hs
      obtain ⟨rfl, rfl⟩ := hs
      refine ⟨h, .refl v fs, .inr ⟨rfl, fun c hc => ?_⟩⟩
      obtain ⟨hlo, hhi, hrange⟩ := hc
      split at hrange <;> omega
    · next hfull =>
      cases hg : getFat v fs (behind v ncl) with
      | mk cs fs₁ =>
        rw [hg] at hs
        have hok := getFat_ok h hd.1 hd.2 hg
        simp only at hs
        split at hs
        · next hzero =>
          simp only [Option.some.injEq, Prod.mk.injEq] at hs
          obtain ⟨rfl, rfl⟩ := hs
          obtain ⟨hsound, hsame, hcs⟩ := hok (by rw [hzero]; decide)
          exact ⟨hsound, hsame, .inl ⟨_, rfl,
            FatFs.mem_freeClusters.mpr ⟨hd.1, hd.2, hcs.symm.trans hzero⟩⟩⟩
        · next hused =>
          split at hs
          · next herr =>
            simp only [Option.some.injEq, Prod.mk.injEq] at hs
            obtain ⟨rfl, rfl⟩ := hs
            obtain herr | herr := herr
            · exact absurd (by rw [herr]) hout
            · obtain ⟨-, -, hcs⟩ := hok (by rw [herr]; decide)
              exact absurd (hcs.symm.trans herr) (hreg _ hd.1 hd.2)
          · next herr =>
            obtain ⟨hsound, hsame, hcs⟩ := hok fun he => herr (.inl he)
            have hentry : fs.entry v (behind v ncl) ≠ 0 := hcs ▸ hused
            split at hs
            · next hlast =>
              simp only [Option.some.injEq, Prod.mk.injEq] at hs
              obtain ⟨rfl, rfl⟩ := hs
              refine ⟨hsound, hsame, .inr ⟨rfl, fun c hc => ?_⟩⟩
              by_cases hcd : c = behind v ncl
              · rw [hcd]
                exact hentry
              · obtain ⟨hlo, hhi, hrange⟩ := hc
                rw [behind] at hlast hcd
                split_ifs at hlast hcd hrange <;> omega
            · next hlast =>
              obtain ⟨hsound', hsame', hfound⟩ := ih hsound
                (fun c hlo hc => by rw [hsame.entry hc]; exact hreg c hlo hc) (by omega) hd.2 hs
              refine ⟨hsound', hsame.trans hsame', ?_⟩
              obtain ⟨c, hc, hmem⟩ | ⟨hstop, hnone⟩ := hfound
              · rw [hsame.freeClusters] at hmem
                exact .inl ⟨c, hc, hmem⟩
              · refine .inr ⟨hstop, fun c hc => ?_⟩
                by_cases hcd : c = behind v ncl
                · rw [hcd]
                  exact hentry
                · rw [← hsame.entry hc.2.1]
                  refine hnone c ⟨hc.1, hc.2.1, ?_⟩
                  obtain ⟨hlo, hhi, hrange⟩ := hc
                  rw [behind] at hlast hcd ⊢
                  split_ifs at hlast hcd hrange ⊢ <;> omega

end Search

/-! ## Entries after several changes -/

section Entries

variable {v : FatVolume} {fs fs' : FatFs}

/-- The entries are `e` now, and no other sector looks different. -/
structure FatFs.Becomes (v : FatVolume) (e : ℕ → ℕ) (fs fs' : FatFs) : Prop where
  entry : ∀ c, c < v.nFatent → fs'.entry v c = e c
  outside : ∀ s ∈ v.seen, s < v.fatbase ∨ v.fatbase + v.fsize ≤ s → fs'.view s = fs.view s
  near : fs'.winsect = fs.winsect ∨ fs'.winsect < v.fatbase + v.fsize

theorem FatFs.Same.becomes (h : FatFs.Same v fs fs') : FatFs.Becomes v (fs.entry v) fs fs' where
  entry _ hc := h.entry hc
  outside s hs _ := h.view s hs
  near := h.near

theorem FatFs.Stored.becomes {c val : ℕ}
    (h : FatFs.Stored v (v.fsType.setEntry (fs.table v) c val) fs fs') :
    FatFs.Becomes v (Function.update (fs.entry v) c (val % 2 ^ v.fsType.width)) fs fs' where
  entry d hd := by
    rw [h.entry hd, Function.update_apply]
  outside := h.outside
  near := h.near

theorem FatFs.Becomes.trans {e e' : ℕ → ℕ} {fs₁ : FatFs} (h : FatFs.Becomes v e fs fs₁)
    (h' : FatFs.Becomes v e' fs₁ fs') : FatFs.Becomes v e' fs fs' where
  entry := h'.entry
  outside s hs hout := (h'.outside s hs hout).trans (h.outside s hs hout)
  near := FatFs.near_trans h.near h'.near

theorem FatFs.Becomes.congr {e e' : ℕ → ℕ} (h : FatFs.Becomes v e fs fs')
    (he : ∀ c, c < v.nFatent → e c = e' c) : FatFs.Becomes v e' fs fs' where
  entry c hc := (h.entry c hc).trans (he c hc)
  outside := h.outside
  near := h.near

/-- `put_fat` as a change of one entry. -/
theorem putFat_becomes {c val : ℕ} (h : fs.Sound v) (hp : putFat v fs c val = (.ok, fs')) :
    fs'.Sound v ∧ FatFs.SameCounts fs fs' ∧
      FatFs.Becomes v (Function.update (fs.entry v) c (val % 2 ^ v.fsType.width)) fs fs' := by
  obtain ⟨-, -, hsound, hstored⟩ := putFat_ok h hp
  exact ⟨hsound, hstored.toSameCounts, hstored.becomes⟩

theorem FatVolume.lastLink_eq (v : FatVolume) :
    0x0FFFFFFF % 2 ^ v.fsType.width = v.fsType.lastLink := by
  cases v.fsType <;> rfl

theorem FatVolume.cluster_mod (v : FatVolume) {c : ℕ} (hc : c < v.nFatent) :
    c % 2 ^ v.fsType.width = c := by
  have hle := v.nFatent_le
  have hlast : v.fsType.lastLink < 2 ^ v.fsType.width := by cases v.fsType <;> decide
  exact Nat.mod_eq_of_lt (by omega)

end Entries

/-! ## `create_chain` -/

section Create

variable {v : FatVolume} {fs fs' : FatFs}

/-- The entries when `ncl` is the last cluster, behind `clst` if there is one. -/
def linkEntries (v : FatVolume) (e : ℕ → ℕ) (clst ncl c : ℕ) : ℕ :=
  if c = ncl then v.fsType.lastLink else if c = clst ∧ clst ≠ 0 then ncl else e c

/-- The counts when a cluster has been taken. -/
structure FatFs.Taken (ncl : ℕ) (fs fs' : FatFs) : Prop where
  lastClust : fs'.lastClust = ncl
  freeClust : fs'.freeClust =
    if fs.freeClust = freeUnknown then freeUnknown else (fs.freeClust + (2 ^ 32 - 1)) % 2 ^ 32

theorem FatFs.countFree_sound (fs : FatFs) (n : ℕ) (h : fs.Sound v) : (fs.countFree n).Sound v := by
  unfold countFree
  split
  · exact h
  · exact ⟨h.coherent, h.changed⟩

theorem FatFs.Becomes.countFree {e : ℕ → ℕ} (h : FatFs.Becomes v e fs fs') (n : ℕ) :
    FatFs.Becomes v e fs (fs'.countFree n) := by
  unfold FatFs.countFree
  split
  · exact h
  · exact ⟨h.entry, h.outside, h.near⟩

theorem FatFs.take_ok {e : ℕ → ℕ} {fs₁ : FatFs} (ncl : ℕ) (hsound : fs₁.Sound v)
    (hcounts : FatFs.SameCounts fs fs₁) (h : FatFs.Becomes v e fs fs₁) :
    (fs₁.take ncl).Sound v ∧ FatFs.Becomes v e fs (fs₁.take ncl) ∧
      FatFs.Taken ncl fs (fs₁.take ncl) := by
  unfold FatFs.take
  refine ⟨FatFs.countFree_sound _ _ ⟨hsound.coherent, hsound.changed⟩, ?_, ?_⟩
  · have hmoved : FatFs.Becomes v e fs { fs₁ with lastClust := ncl } :=
      ⟨h.entry, h.outside, h.near⟩
    exact hmoved.countFree _
  · unfold FatFs.countFree
    have hfree := hcounts.freeClust
    split
    · next hunk =>
      exact ⟨rfl, by rw [if_pos (hfree.symm.trans hunk)]; exact hunk⟩
    · next hknown =>
      refine ⟨rfl, ?_⟩
      rw [if_neg fun he => hknown (hfree.trans he)]
      simp only [hfree]

theorem linkCluster_ok {clst ncl r : ℕ} (h : fs.Sound v) (hncl : ncl ∈ fs.freeClusters v)
    (hclst : clst = 0 ∨ 2 ≤ clst ∧ clst < v.nFatent ∧ clst ≠ ncl)
    (hl : linkCluster v fs clst ncl = (r, fs')) (hr : r ≠ fatDiskError) :
    r = ncl ∧ fs'.Sound v ∧ FatFs.Becomes v (linkEntries v (fs.entry v) clst ncl) fs fs' ∧
      FatFs.Taken ncl fs fs' := by
  obtain ⟨hlo, hhi, -⟩ := FatFs.mem_freeClusters.mp hncl
  unfold linkCluster at hl
  cases hp : putFat v fs ncl 0x0FFFFFFF with
  | mk res fs₁ =>
    rw [hp] at hl
    have hres := putFat_result (v := v) fs 0x0FFFFFFF hlo hhi
    rw [hp] at hres
    obtain rfl | rfl := hres
    · obtain ⟨hsound₁, hcounts₁, hbec₁⟩ := putFat_becomes h hp
      rw [v.lastLink_eq] at hbec₁
      by_cases hzero : clst = 0
      · simp only [hzero, ne_eq, not_true_eq_false, and_false, if_false, if_true,
          Prod.mk.injEq] at hl
        obtain ⟨rfl, rfl⟩ := hl
        refine ⟨rfl, FatFs.take_ok ncl hsound₁ hcounts₁ (hbec₁.congr fun c _ => ?_)⟩
        simp [linkEntries, hzero, Function.update_apply]
      · obtain ⟨hclo, hchi, hne⟩ := hclst.resolve_left hzero
        simp only [hzero, ne_eq, not_false_eq_true, and_self, if_true] at hl
        cases hp' : putFat v fs₁ clst ncl with
        | mk res fs₂ =>
          rw [hp'] at hl
          have hres := putFat_result (v := v) fs₁ ncl hclo hchi
          rw [hp'] at hres
          obtain rfl | rfl := hres
          · obtain ⟨hsound₂, hcounts₂, hbec₂⟩ := putFat_becomes hsound₁ hp'
            rw [v.cluster_mod hhi] at hbec₂
            simp only [if_true, Prod.mk.injEq] at hl
            obtain ⟨rfl, rfl⟩ := hl
            refine ⟨rfl, FatFs.take_ok ncl hsound₂ (hcounts₁.trans hcounts₂)
              ((hbec₁.trans hbec₂).congr fun c hc => ?_)⟩
            rw [linkEntries, Function.update_apply, hbec₁.entry c hc, Function.update_apply]
            by_cases hcn : c = ncl
            · rw [if_neg (fun he => hne (he.symm.trans hcn)), if_pos hcn, if_pos hcn]
            · simp [hcn, hzero]
          · simp only [reduceCtorEq, if_false, if_true, Prod.mk.injEq] at hl
            exact absurd hl.1.symm hr
    · simp only [reduceCtorEq, false_and, if_false, if_true, Prod.mk.injEq] at hl
      exact absurd hl.1.symm hr

/-- What `create_chain` makes of a search: a new cluster for the chain, or the news that no
cluster is free. -/
theorem allocate_ok {clst scl : ℕ} (h : fs.Sound v)
    (hreg : ∀ c, 2 ≤ c → c < v.nFatent → fs.entry v c ≠ 1) (hscl : 1 ≤ scl)
    (hlt : scl < v.nFatent)
    (hclst : clst = 0 ∨ 2 ≤ clst ∧ clst < v.nFatent ∧ fs.entry v clst ≠ 0) :
    ∃ r fs', allocate v fs clst scl = some (r, fs') ∧ (r ≠ fatDiskError → fs'.Sound v ∧
      ((r = 0 ∧ fs.freeClusters v = ∅ ∧ FatFs.Same v fs fs') ∨
        (r ∈ fs.freeClusters v ∧ FatFs.Becomes v (linkEntries v (fs.entry v) clst r) fs fs' ∧
          FatFs.Taken r fs fs'))) := by
  have hends : (searchFree v scl v.nFatent fs scl).isSome :=
    searchFree_ends fs hscl hlt hlt (by rw [if_pos (Nat.le_refl scl)]; omega)
  obtain ⟨⟨out, fs₁⟩, hsearch⟩ := Option.isSome_iff_exists.mp hends
  have hok := searchFree_ok h hreg hscl hlt hsearch
  unfold allocate
  rw [hsearch]
  cases out with
  | stop answer =>
    refine ⟨answer, fs₁, rfl, fun hr => ?_⟩
    obtain ⟨hsound, hsame, ⟨c, hc, -⟩ | ⟨hstop, hnone⟩⟩ := hok fun he => hr (by simpa using he)
    · simp at hc
    · refine ⟨hsound, .inl ⟨by simpa using hstop, ?_, hsame⟩⟩
      refine Finset.eq_empty_of_forall_notMem fun c hc => ?_
      obtain ⟨hlo, hhi, hzero⟩ := FatFs.mem_freeClusters.mp hc
      refine hnone c ⟨hlo, hhi, ?_⟩ hzero
      rw [if_pos (Nat.le_refl scl)]
      omega
  | free ncl =>
    refine ⟨(linkCluster v fs₁ clst ncl).1, (linkCluster v fs₁ clst ncl).2, rfl, fun hr => ?_⟩
    obtain ⟨hsound, hsame, ⟨c, hc, hmem⟩ | ⟨hstop, -⟩⟩ := hok (by simp)
    · obtain rfl : ncl = c := by simpa using hc
      have hclst₁ : clst = 0 ∨ 2 ≤ clst ∧ clst < v.nFatent ∧ clst ≠ ncl := by
        obtain hzero | ⟨hlo, hhi, hused⟩ := hclst
        · exact .inl hzero
        · refine .inr ⟨hlo, hhi, fun he => hused ?_⟩
          rw [he]
          exact (FatFs.mem_freeClusters.mp hmem).2.2
      rw [← hsame.freeClusters] at hmem
      obtain ⟨heq, hsound', hbec, htaken⟩ :=
        linkCluster_ok (v := v) hsound hmem hclst₁ (Prod.mk.eta.symm) hr
      rw [heq]
      refine ⟨hsound', .inr ⟨by rwa [← hsame.freeClusters], (hsame.becomes.trans hbec).congr
        fun c hc => ?_, htaken.lastClust, ?_⟩⟩
      · unfold linkEntries
        rw [hsame.entry hc]
      · rw [htaken.freeClust, hsame.freeClust]
    · simp at hstop

/-- A cluster that another one follows is answered with it, unless the drive fails. -/
theorem createChain_follow {clst d : ℕ} (h : fs.Sound v) (hlo : 2 ≤ clst)
    (hhi : clst < v.nFatent) (hnext : fs.next v clst = some d) (hd : 2 ≤ d)
    (hread : (getFat v fs clst).1 ≠ fatDiskError) :
    ∃ fs', createChain v fs clst = some (d, fs') ∧ fs'.Sound v ∧ FatFs.Same v fs fs' := by
  obtain ⟨hsound, hsame, hcs⟩ := getFat_ok h hlo hhi Prod.mk.eta.symm hread
  unfold FatFs.next at hnext
  split at hnext
  · next hlt =>
    have hentry : (getFat v fs clst).1 = d := hcs.trans (Option.some.inj hnext)
    refine ⟨(getFat v fs clst).2, ?_, hsound, hsame⟩
    unfold createChain
    rw [if_neg (by omega)]
    simp only [hentry]
    rw [if_neg (by omega), if_pos (by omega)]
  · simp at hnext

/-- A new chain, or a cluster behind the last one. -/
theorem createChain_last {clst : ℕ} (h : fs.Sound v)
    (hreg : ∀ c, 2 ≤ c → c < v.nFatent → fs.entry v c ≠ 1)
    (hclst : clst = 0 ∨ 2 ≤ clst ∧ clst < v.nFatent ∧ fs.next v clst = none ∧
      (getFat v fs clst).1 ≠ fatDiskError) :
    ∃ r fs', createChain v fs clst = some (r, fs') ∧ (r ≠ fatDiskError → fs'.Sound v ∧
      ((r = 0 ∧ fs.freeClusters v = ∅ ∧ FatFs.Same v fs fs') ∨
        (r ∈ fs.freeClusters v ∧ FatFs.Becomes v (linkEntries v (fs.entry v) clst r) fs fs' ∧
          FatFs.Taken r fs fs'))) := by
  have hgt := v.nFatent_gt
  unfold createChain
  by_cases hzero : clst = 0
  · rw [if_pos hzero]
    refine allocate_ok h hreg ?_ ?_ (.inl hzero) <;> split <;> omega
  · obtain ⟨hlo, hhi, hnext, hread⟩ := hclst.resolve_left hzero
    obtain ⟨hsound, hsame, hcs⟩ := getFat_ok h hlo hhi Prod.mk.eta.symm hread
    have hlast : v.nFatent ≤ fs.entry v clst := by
      unfold FatFs.next at hnext
      split at hnext
      · simp at hnext
      · omega
    rw [if_neg hzero]
    simp only [hcs]
    rw [if_neg (by omega), if_neg (by omega)]
    have hused : (getFat v fs clst).2.entry v clst ≠ 0 := by
      rw [hsame.entry hhi]
      omega
    have hpos : 1 ≤ clst := by omega
    obtain ⟨r, fs', hall, hok⟩ := allocate_ok hsound
      (fun c hclo hc => by rw [hsame.entry hc]; exact hreg c hclo hc) hpos hhi
      (.inr ⟨hlo, hhi, hused⟩)
    refine ⟨r, fs', hall, fun hr => ?_⟩
    obtain ⟨hsound', ⟨hr0, hempty, hsame'⟩ | ⟨hmem, hbec, htaken⟩⟩ := hok hr
    · rw [hsame.freeClusters] at hempty
      exact ⟨hsound', .inl ⟨hr0, hempty, hsame.trans hsame'⟩⟩
    · rw [hsame.freeClusters] at hmem
      refine ⟨hsound', .inr ⟨hmem, (hsame.becomes.trans hbec).congr fun c hc => ?_,
        htaken.lastClust, ?_⟩⟩
      · unfold linkEntries
        rw [hsame.entry hc]
      · rw [htaken.freeClust, hsame.freeClust]

/-- `create_chain` ends in any state. -/
theorem allocate_ends {clst scl : ℕ} (fs : FatFs) (hscl : 1 ≤ scl) (hlt : scl < v.nFatent) :
    (allocate v fs clst scl).isSome := by
  have hends : (searchFree v scl v.nFatent fs scl).isSome :=
    searchFree_ends fs hscl hlt hlt (by rw [if_pos (Nat.le_refl scl)]; omega)
  obtain ⟨⟨out, fs₁⟩, hsearch⟩ := Option.isSome_iff_exists.mp hends
  unfold allocate
  rw [hsearch]
  cases out <;> rfl

theorem createChain_ends (fs : FatFs) (clst : ℕ) : (createChain v fs clst).isSome := by
  have hgt := v.nFatent_gt
  unfold createChain
  split
  · refine allocate_ends _ ?_ ?_ <;> split <;> omega
  · next hzero =>
    by_cases hhi : v.nFatent ≤ clst
    · have hget : getFat v fs clst = (1, fs) := by rw [getFat, if_pos (.inr hhi)]
      simp [hget]
    · simp only
      split_ifs
      · rfl
      · rfl
      · exact allocate_ends _ (by omega) (by omega)

theorem FatFs.Becomes.next {e : ℕ → ℕ} (h : FatFs.Becomes v e fs fs') {c : ℕ}
    (hc : c < v.nFatent) : fs'.next v c = if e c < v.nFatent then some (e c) else none := by
  rw [FatFs.next, h.entry c hc]

/-- A free cluster is in no file. -/
theorem FatFs.Holds.notMem_of_free {κ : Type*} {files : κ → List ℕ} (h : fs.Holds v files) {c : ℕ}
    (hc : c ∈ fs.freeClusters v) (k : κ) : c ∉ files k := by
  obtain ⟨-, -, hzero⟩ := FatFs.mem_freeClusters.mp hc
  intro hmem
  obtain ⟨as, bs, hsplit⟩ := List.append_of_mem hmem
  have hchain := h.chains.chain k
  rw [hsplit] at hchain
  have hbehind := hchain.behind
  have hgt := v.nFatent_gt
  rw [FatFs.next, hzero, if_pos (by omega)] at hbehind
  obtain ⟨ds, hds, -⟩ := hbehind.eq_cons
  have hrange := h.range k 0 (by rw [hsplit, hds]; simp)
  omega

/-- The last cluster of a file, or 0 when it has none. -/
def lastCluster (l : List ℕ) : ℕ := l.getLast?.getD 0

theorem FatFs.Holds.extend {κ : Type*} [DecidableEq κ] {files : κ → List ℕ} {k : κ} {r : ℕ}
    (h : fs.Holds v files) (hr : r ∈ fs.freeClusters v)
    (hb : FatFs.Becomes v (linkEntries v (fs.entry v) (lastCluster (files k)) r) fs fs') :
    fs'.Holds v (Function.update files k (files k ++ [r])) := by
  obtain ⟨hlo, hhi, hzero⟩ := FatFs.mem_freeClusters.mp hr
  have hlast : ∀ y, (files k).getLast? = some y → lastCluster (files k) = y ∧ 2 ≤ y ∧
      y < v.nFatent ∧ y ≠ r := by
    intro y hy
    have hmem := List.mem_of_getLast? hy
    have hrange := h.range k y hmem
    exact ⟨by rw [lastCluster, hy]; rfl, hrange.1, hrange.2,
      fun he => h.notMem_of_free hr k (he ▸ hmem)⟩
  have hout : ∀ k' y, y ∈ files k' → y ≠ r := fun k' y hy he =>
    h.notMem_of_free hr k' (he ▸ hy)
  refine ⟨h.chains.extend (h.notMem_of_free hr) (fun k' y hy hne => ?_) (fun y hy => ?_) ?_,
    fun k' c hc => ?_, fun c hclo hchi => ?_⟩
  · have hy2 := h.range k' y hy
    have hclst : ¬(y = lastCluster (files k) ∧ lastCluster (files k) ≠ 0) := by
      rintro ⟨he, hzero⟩
      unfold lastCluster at he hzero
      cases hl : (files k).getLast? with
      | none => simp [hl] at hzero
      | some z =>
        rw [hl] at he hne
        exact hne (by rw [he]; rfl)
    rw [hb.next hy2.2, linkEntries, if_neg (hout k' y hy), if_neg hclst, FatFs.next]
  · obtain ⟨hlc, hy0, hy1, hyr⟩ := hlast y hy
    have hclst : y = lastCluster (files k) ∧ lastCluster (files k) ≠ 0 := by omega
    rw [hb.next hy1, linkEntries, if_neg hyr, if_pos hclst, if_pos hhi]
  · have hle := v.nFatent_le
    rw [hb.next hhi, linkEntries, if_pos rfl, if_neg (by omega)]
  · by_cases hk : k' = k
    · subst hk
      rw [Function.update_self] at hc
      obtain hc | hc := List.mem_append.mp hc
      · exact h.range k' c hc
      · obtain rfl := List.mem_singleton.mp hc
        exact ⟨hlo, hhi⟩
    · rw [Function.update_of_ne hk] at hc
      exact h.range k' c hc
  · have hle := v.nFatent_le
    have hgt := v.nFatent_gt
    rw [hb.entry c hchi, linkEntries]
    split_ifs
    · omega
    · omega
    · exact h.regular c hclo hchi

theorem FatFs.Becomes.freeClusters_link {clst r : ℕ} (hr : r ∈ fs.freeClusters v)
    (hclst : clst = 0 ∨ fs.entry v clst ≠ 0)
    (hb : FatFs.Becomes v (linkEntries v (fs.entry v) clst r) fs fs') :
    fs'.freeClusters v = (fs.freeClusters v).erase r := by
  obtain ⟨hlo, hhi, -⟩ := FatFs.mem_freeClusters.mp hr
  have hgt := v.nFatent_gt
  have hle := v.nFatent_le
  ext c
  rw [Finset.mem_erase, FatFs.mem_freeClusters, FatFs.mem_freeClusters]
  constructor
  · rintro ⟨hclo, hchi, hzero⟩
    rw [hb.entry c hchi, linkEntries] at hzero
    split_ifs at hzero with h₁ h₂
    · omega
    · omega
    · exact ⟨h₁, hclo, hchi, hzero⟩
  · rintro ⟨hne, hclo, hchi, hzero⟩
    refine ⟨hclo, hchi, ?_⟩
    rw [hb.entry c hchi, linkEntries, if_neg hne, if_neg, hzero]
    rintro ⟨rfl, hclst0⟩
    exact (hclst.resolve_left hclst0) hzero

theorem FatFs.CountRight.take {r : ℕ} (h : fs.CountRight v) (hr : r ∈ fs.freeClusters v)
    (hfree : fs'.freeClusters v = (fs.freeClusters v).erase r) (ht : FatFs.Taken r fs fs') :
    fs'.CountRight v := by
  have hcard := Finset.card_erase_of_mem hr
  have hpos := Finset.card_pos.mpr ⟨r, hr⟩
  have hlt := FatFs.card_freeClusters_lt v fs
  obtain hunk | hknown := h
  · exact .inl (by rw [ht.freeClust, if_pos hunk])
  · refine .inr ?_
    rw [ht.freeClust, hfree, hcard, hknown, if_neg (by rw [freeUnknown]; omega)]
    omega

end Create

/-! ## `remove_chain` -/

section Remove

variable {v : FatVolume} {fs fs' : FatFs}

/-- The entries when the clusters of a list have become free. -/
def freeEntries (e : ℕ → ℕ) (l : List ℕ) (c : ℕ) : ℕ := if c ∈ l then 0 else e c

theorem FatFs.Becomes.freeClusters_insert {c : ℕ} (hlo : 2 ≤ c) (hhi : c < v.nFatent)
    (hb : FatFs.Becomes v (Function.update (fs.entry v) c 0) fs fs') :
    fs'.freeClusters v = insert c (fs.freeClusters v) := by
  ext d
  rw [Finset.mem_insert, FatFs.mem_freeClusters, FatFs.mem_freeClusters]
  constructor
  · rintro ⟨hdlo, hdhi, hzero⟩
    rw [hb.entry d hdhi, Function.update_apply] at hzero
    split_ifs at hzero with hdc
    · exact .inl hdc
    · exact .inr ⟨hdlo, hdhi, hzero⟩
  · rintro (rfl | ⟨hdlo, hdhi, hzero⟩)
    · exact ⟨hlo, hhi, by rw [hb.entry d hhi, Function.update_self]⟩
    · refine ⟨hdlo, hdhi, ?_⟩
      rw [hb.entry d hdhi, Function.update_apply]
      split_ifs
      · rfl
      · exact hzero

/-- One more free cluster is counted. -/
theorem FatFs.CountRight.free {c : ℕ} (h : fs.CountRight v) (hlo : 2 ≤ c) (hhi : c < v.nFatent)
    (hused : fs.entry v c ≠ 0) (hcounts : FatFs.SameCounts fs fs')
    (hb : FatFs.Becomes v (Function.update (fs.entry v) c 0) fs fs') :
    (fs'.countFree 1).CountRight v := by
  have hout : c ∉ fs.freeClusters v := fun hm => hused (FatFs.mem_freeClusters.mp hm).2.2
  have hcard := Finset.card_insert_of_notMem hout
  have hlt := FatFs.card_freeClusters_lt v fs
  rw [← hb.freeClusters_insert hlo hhi] at hcard
  unfold FatFs.countFree
  split
  · next hunk => exact .inl hunk
  · next hknown =>
    obtain hunk | hright := h
    · exact absurd (hcounts.freeClust.trans hunk) hknown
    · refine .inr ?_
      show (fs'.freeClust + 1) % 2 ^ 32 = (fs'.freeClusters v).card
      rw [hcard, hcounts.freeClust, hright]
      omega

/-- The loop frees the clusters that follow each other up to the end, unless the drive fails. -/
theorem removeLoop_ok {l : List ℕ} {fuel clst : ℕ} (h : fs.Sound v)
    (hchain : Chain (fs.next v) (if clst < v.nFatent then some clst else none) l)
    (hrange : ∀ c ∈ l, 2 ≤ c ∧ c < v.nFatent) (hfuel : l.length ≤ fuel) :
    ∃ res fs', removeLoop v fuel fs clst = some (res, fs') ∧ (res = .ok ∨ res = .diskErr) ∧
      (res = .ok → fs'.Sound v ∧ FatFs.Becomes v (freeEntries (fs.entry v) l) fs fs' ∧
        fs'.lastClust = fs.lastClust ∧ (fs.CountRight v → fs'.CountRight v)) := by
  induction l generalizing fs fuel clst with
  | nil =>
    have hend : ¬clst < v.nFatent := fun hlt => by
      rw [if_pos hlt] at hchain
      simp [Chain] at hchain
    refine ⟨.ok, fs, ?_, .inl rfl, fun _ => ⟨h, (FatFs.Same.refl v fs).becomes.congr
      fun c _ => by simp [freeEntries], rfl, id⟩⟩
    cases fuel <;> rw [removeLoop, if_neg hend]
  | cons c l ih =>
    have hlt : clst < v.nFatent := by
      by_contra hge
      rw [if_neg hge] at hchain
      simp [Chain] at hchain
    rw [if_pos hlt] at hchain
    have hnd := hchain.nodup
    obtain ⟨hhead, htail⟩ := hchain
    obtain rfl := Option.some.inj hhead
    obtain ⟨hlo, -⟩ := hrange clst List.mem_cons_self
    obtain ⟨hnotin, -⟩ := List.nodup_cons.mp hnd
    obtain ⟨fuel, rfl⟩ : ∃ n, fuel = n + 1 := ⟨fuel - 1, by simp at hfuel; omega⟩
    have hbig : ∀ n, n < 2 → fs.entry v clst ≠ n := by
      intro n hn he
      have hgt := v.nFatent_gt
      rw [FatFs.next, he, if_pos (by omega)] at htail
      obtain ⟨ds, rfl, -⟩ := htail.eq_cons
      have hmem := hrange n (by simp)
      omega
    rw [removeLoop, if_pos hlt]
    cases hg : getFat v fs clst with
    | mk nxt fs₁ =>
      have hok := getFat_ok h hlo hlt hg
      simp only
      by_cases herr : nxt = fatDiskError
      · refine ⟨.diskErr, fs₁, ?_, .inr rfl, fun he => by simp at he⟩
        rw [herr]
        rfl
      · obtain ⟨hsound₁, hsame₁, rfl⟩ := hok herr
        rw [if_neg (hbig 0 (by omega)), if_neg (hbig 1 (by omega)), if_neg herr]
        cases hp : putFat v fs₁ clst 0 with
        | mk res fs₂ =>
          have hres := putFat_result (v := v) fs₁ 0 hlo hlt
          rw [hp] at hres
          obtain rfl | rfl := hres
          · obtain ⟨hsound₂, hcounts₂, hbec₂⟩ := putFat_becomes hsound₁ hp
            rw [Nat.zero_mod] at hbec₂
            have hbec : FatFs.Becomes v (Function.update (fs.entry v) clst 0) fs fs₂ :=
              (hsame₁.becomes.trans hbec₂).congr fun d hd => by
                rw [Function.update_apply, Function.update_apply, hsame₁.entry hd]
            have hbec' := hbec.countFree 1
            have htail' : Chain ((fs₂.countFree 1).next v)
                (if fs.entry v clst < v.nFatent then some (fs.entry v clst) else none) l := by
              refine Chain.congr htail fun d hd => ?_
              have hdr := hrange d (List.mem_cons_of_mem _ hd)
              rw [hbec'.next hdr.2, Function.update_of_ne (fun he => hnotin (by rwa [← he])),
                FatFs.next]
            obtain ⟨res, fs', hloop, hres, hend⟩ := ih
              (FatFs.countFree_sound fs₂ 1 hsound₂) htail'
              (fun d hd => hrange d (List.mem_cons_of_mem _ hd)) (Nat.le_of_succ_le_succ hfuel)
            refine ⟨res, fs', hloop, hres, fun he => ?_⟩
            obtain ⟨hsound', hbec'', hlast, hcount⟩ := hend he
            refine ⟨hsound', (hbec'.trans hbec'').congr fun d hd => ?_, ?_, fun hc => ?_⟩
            · rw [freeEntries, freeEntries, hbec'.entry d hd, Function.update_apply]
              by_cases hdc : d = clst <;> simp [hdc]
            · have hcl : (fs₂.countFree 1).lastClust = fs₂.lastClust := by
                unfold FatFs.countFree
                split <;> rfl
              rw [hlast, hcl, hcounts₂.lastClust, hsame₁.lastClust]
            · refine hcount (FatFs.CountRight.free hc hlo hlt (hbig 0 (by omega)) ?_ hbec)
              exact hsame₁.toSameCounts.trans hcounts₂
          · exact ⟨.diskErr, fs₂, rfl, .inr rfl, fun he => by simp at he⟩

theorem card_freeClusters_le (v : FatVolume) (fs : FatFs) :
    (fs.freeClusters v).card + 2 ≤ v.nFatent := by
  have hgt := v.nFatent_gt
  have hsub : fs.freeClusters v ⊆ Finset.Ico 2 v.nFatent := fun c hc => by
    obtain ⟨hlo, hhi, -⟩ := FatFs.mem_freeClusters.mp hc
    exact Finset.mem_Ico.mpr ⟨hlo, hhi⟩
  have hcard := Finset.card_le_card hsub
  rw [Nat.card_Ico] at hcard
  omega

/-- The loop ends even where the table links clusters in a circle. -/
theorem removeLoop_ends {fuel clst : ℕ} (h : fs.Sound v) (hlo : 2 ≤ clst)
    (hfuel : v.nFatent ≤ fuel + (fs.freeClusters v).card + 1) :
    (removeLoop v fuel fs clst).isSome := by
  induction fuel generalizing fs clst with
  | zero =>
    have hle := card_freeClusters_le v fs
    omega
  | succ fuel ih =>
    rw [removeLoop]
    split
    · next hhi =>
      cases hg : getFat v fs clst with
      | mk nxt fs₁ =>
        have hok := getFat_ok h hlo hhi hg
        simp only
        split_ifs with h0 h1 herr
        · rfl
        · rfl
        · rfl
        · obtain ⟨hsound₁, hsame₁, hnxt⟩ := hok herr
          cases hp : putFat v fs₁ clst 0 with
          | mk res fs₂ =>
            have hres := putFat_result (v := v) fs₁ 0 hlo hhi
            rw [hp] at hres
            obtain rfl | rfl := hres
            · obtain ⟨hsound₂, -, hbec₂⟩ := putFat_becomes hsound₁ hp
              rw [Nat.zero_mod] at hbec₂
              have hout : clst ∉ fs₁.freeClusters v := fun hm => by
                have hzero := (FatFs.mem_freeClusters.mp hm).2.2
                rw [hsame₁.entry hhi, ← hnxt] at hzero
                exact h0 hzero
              have hcard := Finset.card_insert_of_notMem hout
              rw [← (hbec₂.countFree 1).freeClusters_insert hlo hhi, hsame₁.freeClusters] at hcard
              exact ih (FatFs.countFree_sound fs₂ 1 hsound₂) (by omega) (by omega)
            · rfl
    · rfl

/-- `remove_chain` ends in any state, also on entries that lead in a circle. -/
theorem removeChain_ends (h : fs.Sound v) (clst : ℕ) : (removeChain v fs clst).isSome := by
  unfold removeChain
  split
  · rfl
  · exact removeLoop_ends h (by omega) (by omega)

/-- `remove_chain` on the clusters that follow each other up to the end. -/
theorem removeChain_ok {l : List ℕ} {clst : ℕ} (h : fs.Sound v)
    (hchain : Chain (fs.next v) (some clst) (clst :: l))
    (hrange : ∀ c ∈ clst :: l, 2 ≤ c ∧ c < v.nFatent) :
    ∃ res fs', removeChain v fs clst = some (res, fs') ∧ (res = .ok ∨ res = .diskErr) ∧
      (res = .ok → fs'.Sound v ∧ FatFs.Becomes v (freeEntries (fs.entry v) (clst :: l)) fs fs' ∧
        fs'.lastClust = fs.lastClust ∧ (fs.CountRight v → fs'.CountRight v)) := by
  obtain ⟨hlo, hhi⟩ := hrange clst List.mem_cons_self
  have hlen : (clst :: l).length ≤ v.nFatent := by
    have hsub : (clst :: l).toFinset ⊆ Finset.range v.nFatent := fun c hc =>
      Finset.mem_range.mpr (hrange c (List.mem_toFinset.mp hc)).2
    have hcard := Finset.card_le_card hsub
    rwa [List.toFinset_card_of_nodup hchain.nodup, Finset.card_range] at hcard
  unfold removeChain
  rw [if_neg (by omega)]
  exact removeLoop_ok h (by rwa [if_pos hhi]) hrange hlen

/-- A file is cut behind `as`, where the end is marked; the other clusters become free. -/
theorem FatFs.Holds.cut {κ : Type*} [DecidableEq κ] {files : κ → List ℕ} {k : κ} {as l : List ℕ}
    {e : ℕ → ℕ} (h : fs.Holds v files) (hk : files k = as ++ l)
    (hb : FatFs.Becomes v e fs fs') (hfree : ∀ c ∈ l, e c = 0)
    (hsame : ∀ c, c ∉ l → as.getLast? ≠ some c → e c = fs.entry v c)
    (hlast : ∀ c, as.getLast? = some c → v.nFatent ≤ e c) :
    fs'.Holds v (Function.update files k as) := by
  have hchain := h.chains.chain k
  have hnd := hchain.nodup
  rw [hk] at hchain hnd
  have hother : ∀ k' c, k' ≠ k → c ∈ files k' → c ∉ as ++ l := fun k' c hne hc hm =>
    hne (h.chains.apart k' k c hc (hk ▸ hm))
  have hnext : ∀ k' c, c ∈ files k' → c ∉ l → as.getLast? ≠ some c → fs'.next v c = fs.next v c :=
    fun k' c hc hl hne => by
      rw [hb.next (h.range k' c hc).2, hsame c hl hne, FatFs.next]
  refine ⟨h.chains.replace ?_ (fun k' c hne hc hm => ?_) (fun k' c hne hc => ?_),
    fun k' c hc => ?_, fun c hlo hhi => ?_⟩
  · obtain rfl | ⟨bs, b, rfl⟩ := as.eq_nil_or_concat
    · rfl
    · rw [List.concat_eq_append] at hk hchain hnd hlast hnext ⊢
      have hmem : ∀ c ∈ bs ++ [b], c ∈ files k := fun c hc => hk ▸ List.mem_append_left l hc
      have hget : (bs ++ [b]).getLast? = some b := List.getLast?_append ..
      have happ := List.nodup_append.mp hnd
      have hbs := List.nodup_append.mp happ.1
      have hhead : (bs ++ [b] ++ l).head? = (bs ++ [b]).head? := by cases bs <;> rfl
      rw [hhead, List.append_assoc] at hchain
      show Chain (fs'.next v) (bs ++ [b]).head? (bs ++ b :: [])
      refine hchain.replaceBehind (fun c hc => ?_) ?_
      · refine hnext k c (hmem c (by simp [hc])) (fun hl => ?_) fun he => ?_
        · exact happ.2.2 c (by simp [hc]) c hl rfl
        · rw [hget] at he
          exact hbs.2.2 c hc b (by simp) (Option.some.inj he).symm
      · have hrange := h.range k b (hmem b (by simp))
        have hge := hlast b hget
        rw [hb.next hrange.2, if_neg (by omega)]
        rfl
  · exact hother k' c hne hc (List.mem_append_left l hm)
  · have hout := hother k' c hne hc
    refine hnext k' c hc (fun hl => hout (List.mem_append_right as hl)) fun he => hout ?_
    exact List.mem_append_left l (List.mem_of_getLast? he)
  · by_cases hkk : k' = k
    · rw [hkk, Function.update_self] at hc
      exact h.range k c (hk ▸ List.mem_append_left l hc)
    · rw [Function.update_of_ne hkk] at hc
      exact h.range k' c hc
  · rw [hb.entry c hhi]
    by_cases hl : c ∈ l
    · rw [hfree c hl]
      decide
    · by_cases he : as.getLast? = some c
      · have hge := hlast c he
        have hgt := v.nFatent_gt
        omega
      · rw [hsame c hl he]
        exact h.regular c hlo hhi

/-- A used cluster gets another entry that is not zero. -/
theorem FatFs.CountRight.relink {c val : ℕ} (h : fs.CountRight v) (hc : fs.entry v c ≠ 0)
    (hval : val ≠ 0) (hcounts : FatFs.SameCounts fs fs')
    (hb : FatFs.Becomes v (Function.update (fs.entry v) c val) fs fs') : fs'.CountRight v := by
  have hfree : fs'.freeClusters v = fs.freeClusters v := by
    ext d
    rw [FatFs.mem_freeClusters, FatFs.mem_freeClusters]
    refine and_congr_right fun _ => and_congr_right fun hd => ?_
    rw [hb.entry d hd, Function.update_apply]
    split
    · next heq =>
      rw [heq]
      exact iff_of_false hval hc
    · rfl
  rw [FatFs.CountRight, hfree, hcounts.freeClust]
  exact h

/-- The clusters of a file behind one of them become free. -/
theorem truncateChain_ok {κ : Type*} [DecidableEq κ] {files : κ → List ℕ} {k : κ}
    {as l : List ℕ} {clst : ℕ} (h : fs.Sound v) (hh : fs.Holds v files)
    (hk : files k = as ++ clst :: l) :
    ∃ res fs', truncateChain v fs clst = some (res, fs') ∧ (res = .ok ∨ res = .diskErr) ∧
      (res = .ok → fs'.Sound v ∧ fs'.Holds v (Function.update files k (as ++ [clst])) ∧
        (fs.CountRight v → fs'.CountRight v) ∧
        ∃ e, FatFs.Becomes v e fs fs' ∧ ∀ c, c ∉ files k → e c = fs.entry v c) := by
  have hchain := hh.chains.chain k
  have hnd := hchain.nodup
  rw [hk] at hchain hnd
  have htail := hchain.behind
  have hin : clst ∈ files k := by rw [hk]; simp
  obtain ⟨hlo, hhi⟩ := hh.range k clst hin
  have hused : fs.entry v clst ≠ 0 := fun hz =>
    hh.notMem_of_free (FatFs.mem_freeClusters.mpr ⟨hlo, hhi, hz⟩) k hin
  have hgt := v.nFatent_gt
  have hle := v.nFatent_le
  unfold truncateChain
  cases hg : getFat v fs clst with
  | mk nxt fs₁ =>
    have hok := getFat_ok h hlo hhi hg
    simp only
    by_cases herr : nxt = fatDiskError
    · rw [if_pos herr]
      exact ⟨.diskErr, fs₁, rfl, .inr rfl, fun he => by simp at he⟩
    · obtain ⟨hsound₁, hsame₁, rfl⟩ := hok herr
      rw [if_neg herr, if_neg (hh.regular clst hlo hhi)]
      by_cases hlast : fs.entry v clst < v.nFatent
      · rw [if_pos hlast]
        rw [FatFs.next, if_pos hlast] at htail
        obtain ⟨ds, rfl, -⟩ := htail.eq_cons
        have happ := List.nodup_append.mp hnd
        obtain ⟨hclst, hds⟩ := List.nodup_cons.mp happ.2.1
        have hrange : ∀ c ∈ fs.entry v clst :: ds, 2 ≤ c ∧ c < v.nFatent := fun c hc =>
          hh.range k c (by rw [hk]; exact List.mem_append_right as (List.mem_cons_of_mem _ hc))
        cases hp : putFat v fs₁ clst 0x0FFFFFFF with
        | mk res fs₂ =>
          have hres := putFat_result (v := v) fs₁ 0x0FFFFFFF hlo hhi
          rw [hp] at hres
          obtain rfl | rfl := hres
          · obtain ⟨hsound₂, hcounts₂, hbec₂⟩ := putFat_becomes hsound₁ hp
            rw [v.lastLink_eq] at hbec₂
            have hbec :
                FatFs.Becomes v (Function.update (fs.entry v) clst v.fsType.lastLink) fs fs₂ :=
              (hsame₁.becomes.trans hbec₂).congr fun d hd => by
                rw [Function.update_apply, Function.update_apply, hsame₁.entry hd]
            have hchain₂ : Chain (fs₂.next v) (some (fs.entry v clst)) (fs.entry v clst :: ds) := by
              refine Chain.congr htail fun d hd => ?_
              have hne : d ≠ clst := ne_of_mem_of_not_mem hd hclst
              rw [hbec.next (hrange d hd).2, Function.update_of_ne hne, FatFs.next]
            obtain ⟨res, fs', hrem, hres, hend⟩ := removeChain_ok hsound₂ hchain₂ hrange
            refine ⟨res, fs', hrem, hres, fun he => ?_⟩
            obtain ⟨hsound', hbec', -, hcount⟩ := hend he
            have hall : FatFs.Becomes v (freeEntries
                (Function.update (fs.entry v) clst v.fsType.lastLink) (fs.entry v clst :: ds))
                fs fs' :=
              (hbec.trans hbec').congr fun d hd => by
                rw [freeEntries, freeEntries, hbec.entry d hd]
            refine ⟨hsound', hh.cut (l := fs.entry v clst :: ds) (by rw [hk]; simp) hall
              (fun c hc => if_pos hc) (fun c hc hne => ?_) (fun c hc => ?_), fun hright => ?_,
              _, hall, fun c hc => ?_⟩
            · have hcc : c ≠ clst := fun he => hne (by rw [he]; exact List.getLast?_append ..)
              rw [freeEntries, if_neg hc, Function.update_of_ne hcc]
            · obtain rfl : clst = c := by
                rw [List.getLast?_append] at hc
                simpa using hc
              rw [freeEntries, if_neg hclst, Function.update_self]
              exact hle
            · exact hcount (hright.relink hused (by omega)
                (hsame₁.toSameCounts.trans hcounts₂) hbec)
            · rw [hk] at hc
              simp only [List.mem_append, List.mem_cons, not_or] at hc
              rw [freeEntries, if_neg (by simpa using hc.2.2), Function.update_of_ne hc.2.1]
          · exact ⟨.diskErr, fs₂, rfl, .inr rfl, fun he => by simp at he⟩
      · rw [FatFs.next, if_neg hlast] at htail
        obtain rfl : l = [] := by
          cases l with
          | nil => rfl
          | cons d ds => simp [Chain] at htail
        rw [if_neg hlast, ← hk, Function.update_eq_self]
        exact ⟨.ok, fs₁, rfl, .inl rfl, fun _ => ⟨hsound₁, hsame₁.holds hh, hsame₁.countRight,
          _, hsame₁.becomes, fun c _ => rfl⟩⟩

theorem truncateChain_ends (h : fs.Sound v) (clst : ℕ) : (truncateChain v fs clst).isSome := by
  unfold truncateChain
  by_cases hrange : clst < 2 ∨ v.nFatent ≤ clst
  · have hget : getFat v fs clst = (1, fs) := by rw [getFat, if_pos hrange]
    rw [hget]
    rfl
  · cases hg : getFat v fs clst with
    | mk nxt fs₁ =>
      simp only
      split_ifs with herr hint hnext
      · rfl
      · rfl
      · obtain ⟨hsound₁, -, -⟩ := getFat_ok h (by omega) (by omega) hg herr
        cases hp : putFat v fs₁ clst 0x0FFFFFFF with
        | mk res fs₂ =>
          cases res with
          | ok => exact removeChain_ends (putFat_becomes hsound₁ hp).1 nxt
          | _ => rfl
      · rfl
end Remove

/-! ## A drive that works -/

section Working

variable {v : FatVolume} {fs fs' : FatFs}

theorem FatVolume.lt_fatDiskError {c : ℕ} (hc : c < v.nFatent) : c ≠ fatDiskError := by
  have hle := v.nFatent_le
  have hlast : v.fsType.lastLink < 2 ^ 28 := by cases v.fsType <;> decide
  rw [fatDiskError]
  omega

theorem FatFs.Working.countFree (h : fs.Working v) (n : ℕ) : (fs.countFree n).Working v := by
  unfold FatFs.countFree
  split
  · exact h
  · exact ⟨⟨h.sound.coherent, h.sound.changed⟩, h.quiet, h.mirrored⟩

theorem FatFs.Working.take (h : fs.Working v) (ncl : ℕ) : (fs.take ncl).Working v := by
  have hmoved : ({ fs with lastClust := ncl } : FatFs).Working v :=
    ⟨⟨h.sound.coherent, h.sound.changed⟩, h.quiet, h.mirrored⟩
  exact hmoved.countFree _

theorem removeLoop_working {fuel clst : ℕ} {res : FResult} (h : fs.Working v) (hlo : 2 ≤ clst)
    (hs : removeLoop v fuel fs clst = some (res, fs')) : fs'.Working v ∧ res ≠ .diskErr := by
  induction fuel generalizing fs clst with
  | zero =>
    rw [removeLoop] at hs
    split at hs
    · contradiction
    · simp only [Option.some.injEq, Prod.mk.injEq] at hs
      obtain ⟨rfl, rfl⟩ := hs
      exact ⟨h, by decide⟩
  | succ fuel ih =>
    rw [removeLoop] at hs
    split at hs
    · next hhi =>
      obtain ⟨hw₁, hread⟩ := getFat_working h clst
      cases hg : getFat v fs clst with
      | mk nxt fs₁ =>
        rw [hg] at hw₁ hread hs
        simp only at hread hs
        split_ifs at hs with h0 h1
        · simp only [Option.some.injEq, Prod.mk.injEq] at hs
          obtain ⟨rfl, rfl⟩ := hs
          exact ⟨hw₁, by decide⟩
        · simp only [Option.some.injEq, Prod.mk.injEq] at hs
          obtain ⟨rfl, rfl⟩ := hs
          exact ⟨hw₁, by decide⟩
        · obtain ⟨hok, hw₂⟩ := putFat_working hw₁ 0 hlo hhi
          cases hp : putFat v fs₁ clst 0 with
          | mk r fs₂ =>
            rw [hp] at hok hw₂ hs
            simp only at hok hs
            subst hok
            exact ih (hw₂.countFree 1) (by omega) hs
    · simp only [Option.some.injEq, Prod.mk.injEq] at hs
      obtain ⟨rfl, rfl⟩ := hs
      exact ⟨h, by decide⟩

theorem removeChain_working {clst : ℕ} {res : FResult} (h : fs.Working v)
    (hs : removeChain v fs clst = some (res, fs')) : fs'.Working v ∧ res ≠ .diskErr := by
  unfold removeChain at hs
  split at hs
  · simp only [Option.some.injEq, Prod.mk.injEq] at hs
    obtain ⟨rfl, rfl⟩ := hs
    exact ⟨h, by decide⟩
  · exact removeLoop_working h (by omega) hs

theorem searchFree_working {scl fuel ncl : ℕ} {out : FatSearch} (h : fs.Working v)
    (hpos : 1 ≤ ncl) (hncl : ncl < v.nFatent)
    (hs : searchFree v scl fuel fs ncl = some (out, fs')) :
    fs'.Working v ∧ (∀ c, out = .free c → 2 ≤ c ∧ c < v.nFatent) ∧
      ∀ answer, out = .stop answer → answer ≠ fatDiskError := by
  induction fuel generalizing fs ncl with
  | zero => simp [searchFree] at hs
  | succ fuel ih =>
    have hgt := v.nFatent_gt
    have hd : 2 ≤ behind v ncl ∧ behind v ncl < v.nFatent := by
      rw [behind]
      split <;> omega
    have hzero : (0 : ℕ) ≠ fatDiskError := by decide
    rw [searchFree_succ] at hs
    obtain ⟨hw, hread⟩ := getFat_working h (behind v ncl)
    split_ifs at hs
    · simp only [Option.some.injEq, Prod.mk.injEq] at hs
      obtain ⟨rfl, rfl⟩ := hs
      exact ⟨h, by simp, by simpa using hzero⟩
    · simp only [Option.some.injEq, Prod.mk.injEq] at hs
      obtain ⟨rfl, rfl⟩ := hs
      exact ⟨hw, by simpa using hd, by simp⟩
    · simp only [Option.some.injEq, Prod.mk.injEq] at hs
      obtain ⟨rfl, rfl⟩ := hs
      exact ⟨hw, by simp, by simpa using hread⟩
    · simp only [Option.some.injEq, Prod.mk.injEq] at hs
      obtain ⟨rfl, rfl⟩ := hs
      exact ⟨hw, by simp, by simpa using hzero⟩
    · exact ih hw (by omega) hd.2 hs

theorem linkCluster_working {clst ncl : ℕ} (h : fs.Working v) (hlo : 2 ≤ ncl)
    (hhi : ncl < v.nFatent) (hclst : clst = 0 ∨ 2 ≤ clst ∧ clst < v.nFatent) :
    (linkCluster v fs clst ncl).2.Working v ∧ (linkCluster v fs clst ncl).1 ≠ fatDiskError := by
  have hncl := v.lt_fatDiskError hhi
  obtain ⟨hok, hw⟩ := putFat_working h 0x0FFFFFFF hlo hhi
  unfold linkCluster
  cases hp : putFat v fs ncl 0x0FFFFFFF with
  | mk r fs₁ =>
    rw [hp] at hok hw
    simp only at hok
    subst hok
    by_cases hzero : clst = 0
    · simp only [hzero, ne_eq, not_true_eq_false, and_false, if_false, if_true]
      exact ⟨hw.take ncl, hncl⟩
    · obtain ⟨hclo, hchi⟩ := hclst.resolve_left hzero
      obtain ⟨hok, hw'⟩ := putFat_working hw ncl hclo hchi
      simp only [hzero, ne_eq, not_false_eq_true, and_self, if_true, hok]
      exact ⟨hw'.take ncl, hncl⟩

theorem allocate_working {clst scl r : ℕ} (h : fs.Working v) (hscl : 1 ≤ scl)
    (hlt : scl < v.nFatent) (hclst : clst = 0 ∨ 2 ≤ clst ∧ clst < v.nFatent)
    (hs : allocate v fs clst scl = some (r, fs')) : fs'.Working v ∧ r ≠ fatDiskError := by
  unfold allocate at hs
  cases hsearch : searchFree v scl v.nFatent fs scl with
  | none => simp [hsearch] at hs
  | some found =>
    obtain ⟨out, fs₁⟩ := found
    obtain ⟨hw, hrange, hstop⟩ := searchFree_working h hscl hlt hsearch
    rw [hsearch] at hs
    cases out with
    | stop answer =>
      simp only [Option.some.injEq, Prod.mk.injEq] at hs
      obtain ⟨rfl, rfl⟩ := hs
      exact ⟨hw, hstop answer rfl⟩
    | free ncl =>
      obtain ⟨hlo, hhi⟩ := hrange ncl rfl
      have hlink := linkCluster_working hw hlo hhi hclst
      simp only [Option.some.injEq] at hs
      rw [hs] at hlink
      exact hlink

theorem createChain_working {clst r : ℕ} (h : fs.Working v)
    (hs : createChain v fs clst = some (r, fs')) : fs'.Working v ∧ r ≠ fatDiskError := by
  have hgt := v.nFatent_gt
  unfold createChain at hs
  split at hs
  · next hzero => exact allocate_working h (by split <;> omega) (by split <;> omega) (.inl hzero) hs
  · next hzero =>
    obtain ⟨hw, hread⟩ := getFat_working h clst
    have hrange : ¬(2 ≤ clst ∧ clst < v.nFatent) → (getFat v fs clst).1 < 2 := fun hout => by
      rw [getFat, if_pos (by omega)]
      exact Nat.one_lt_two
    simp only at hs
    split_ifs at hs with hbad hfollow
    · simp only [Option.some.injEq, Prod.mk.injEq] at hs
      obtain ⟨rfl, rfl⟩ := hs
      exact ⟨hw, by decide⟩
    · simp only [Option.some.injEq, Prod.mk.injEq] at hs
      obtain ⟨rfl, rfl⟩ := hs
      exact ⟨hw, hread⟩
    · have hin : 2 ≤ clst ∧ clst < v.nFatent := by
        by_contra hout
        exact hbad (hrange hout)
      exact allocate_working hw (by omega) hin.2 (.inr hin) hs

theorem truncateChain_working {clst : ℕ} {res : FResult} (h : fs.Working v)
    (hs : truncateChain v fs clst = some (res, fs')) : fs'.Working v ∧ res ≠ .diskErr := by
  obtain ⟨hw, hread⟩ := getFat_working h clst
  have hrange : ¬(2 ≤ clst ∧ clst < v.nFatent) → (getFat v fs clst).1 = 1 := fun hout => by
    rw [getFat, if_pos (by omega)]
  unfold truncateChain at hs
  simp only [hread, if_false] at hs
  split_ifs at hs with hint hnext
  · simp only [Option.some.injEq, Prod.mk.injEq] at hs
    obtain ⟨rfl, rfl⟩ := hs
    exact ⟨hw, by decide⟩
  · have hin : 2 ≤ clst ∧ clst < v.nFatent := by
      by_contra hout
      exact hint (hrange hout)
    obtain ⟨hok, hw'⟩ := putFat_working hw 0x0FFFFFFF hin.1 hin.2
    cases hp : putFat v (getFat v fs clst).2 clst 0x0FFFFFFF with
    | mk r fs₂ =>
      rw [hp] at hok hw' hs
      simp only at hok hs
      subst hok
      exact removeChain_working hw' hs
  · simp only [Option.some.injEq, Prod.mk.injEq] at hs
    obtain ⟨rfl, rfl⟩ := hs
    exact ⟨hw, by decide⟩

end Working

/-! ## Any run of calls -/

section Runs

variable {κ : Type*}

/-- A volume, and the clusters of its files as the owners know them from the answers. -/
structure FatSystem (κ : Type*) where
  fs : FatFs
  files : κ → List ℕ

/-- What is asked for a file: one more cluster; the cluster behind the one at a place; to give up
the clusters behind the one at a place; to give up all of them. -/
inductive ChainCall (κ : Type*) where
  | extend (k : κ)
  | follow (k : κ) (i : ℕ)
  | truncate (k : κ) (i : ℕ)
  | remove (k : κ)

namespace FatSystem

variable (v : FatVolume)

/-- The table is what the owners of the files think, and the count is right. -/
structure Inv (s : FatSystem κ) : Prop where
  sound : s.fs.Sound v
  holds : s.fs.Holds v s.files
  count : s.fs.CountRight v

/-- Nothing has changed that belongs to nobody here: used clusters of others, and all sectors
outside of the table. -/
structure Keeps (s t : FatSystem κ) : Prop where
  entry : ∀ c, c < v.nFatent → s.fs.entry v c ≠ 0 → (∀ k, c ∉ s.files k) →
    t.fs.entry v c = s.fs.entry v c ∧ ∀ k, c ∉ t.files k
  view : ∀ i ∈ v.seen, i < v.fatbase ∨ v.fatbase + v.fsize ≤ i → t.fs.view i = s.fs.view i

variable {v} {s t : FatSystem κ}

theorem Keeps.refl (s : FatSystem κ) : Keeps v s s := ⟨fun _ _ _ hk => ⟨rfl, hk⟩, fun _ _ _ => rfl⟩

theorem Keeps.trans {u : FatSystem κ} (h : Keeps v s t) (h' : Keeps v t u) : Keeps v s u where
  entry c hc hused hout := by
    obtain ⟨he, hout'⟩ := h.entry c hc hused hout
    obtain ⟨he', hout''⟩ := h'.entry c hc (he ▸ hused) hout'
    exact ⟨he'.trans he, hout''⟩
  view i hi hout := (h'.view i hi hout).trans (h.view i hi hout)

theorem Inv.same {fs : FatFs} (h : s.Inv v) (hsound : fs.Sound v) (hsame : FatFs.Same v s.fs fs) :
    ({ s with fs := fs } : FatSystem κ).Inv v ∧ Keeps v s { s with fs := fs } := by
  refine ⟨⟨hsound, hsame.holds h.holds, hsame.countRight h.count⟩, fun c hc _ hout => ?_,
    fun i hi _ => hsame.view i hi⟩
  exact ⟨hsame.entry hc, hout⟩

/-- What `create_chain` needs to know of the last cluster. -/
theorem Inv.last (h : s.Inv v) {k : κ}
    (hread : s.files k = [] ∨ (getFat v s.fs (lastCluster (s.files k))).1 ≠ fatDiskError) :
    lastCluster (s.files k) = 0 ∨ 2 ≤ lastCluster (s.files k) ∧
      lastCluster (s.files k) < v.nFatent ∧ lastCluster (s.files k) ∈ s.files k ∧
      s.fs.next v (lastCluster (s.files k)) = none ∧
      (getFat v s.fs (lastCluster (s.files k))).1 ≠ fatDiskError := by
  cases hl : (s.files k).getLast? with
  | none =>
    left
    rw [lastCluster, hl]
    rfl
  | some y =>
    have hy : lastCluster (s.files k) = y := by
      rw [lastCluster, hl]
      rfl
    have hmem := List.mem_of_getLast? hl
    have hne : s.files k ≠ [] := List.ne_nil_of_mem hmem
    rw [hy] at hread ⊢
    exact .inr ⟨(h.holds.range k y hmem).1, (h.holds.range k y hmem).2, hmem,
      (h.holds.chains.chain k).getLast?_next hl, hread.resolve_left hne⟩

theorem Inv.follow {k : κ} {i clst d : ℕ} (h : s.Inv v) (hi : (s.files k)[i]? = some clst)
    (hi' : (s.files k)[i + 1]? = some d) (hread : (getFat v s.fs clst).1 ≠ fatDiskError) :
    2 ≤ d ∧ ∃ fs, createChain v s.fs clst = some (d, fs) ∧ fs.Sound v ∧ FatFs.Same v s.fs fs := by
  have hnext := (h.holds.chains.chain k).getElem?_next hi hi'
  obtain ⟨hlo, hhi⟩ := h.holds.range k clst (List.mem_of_getElem? hi)
  obtain ⟨hdlo, -⟩ := h.holds.range k d (List.mem_of_getElem? hi')
  exact ⟨hdlo, createChain_follow h.sound hlo hhi hnext hdlo hread⟩

section Calls

variable [DecidableEq κ] (v)

/-- One call and its answer, a cluster or 0. A run stops where an error is reported. -/
def step (s : FatSystem κ) : ChainCall κ → Option (FatSystem κ × ℕ)
  | .extend k =>
    match createChain v s.fs (lastCluster (s.files k)) with
    | none => none
    | some (r, fs) =>
      if r = fatDiskError ∨ r = 1 then none
      else if r = 0 then some ({ s with fs := fs }, r)
      else some ({ fs := fs, files := Function.update s.files k (s.files k ++ [r]) }, r)
  | .follow k i =>
    match (s.files k)[i]?, (s.files k)[i + 1]? with
    | some clst, some _ =>
      match createChain v s.fs clst with
      | none => none
      | some (r, fs) => if r = fatDiskError ∨ r = 1 then none else some ({ s with fs := fs }, r)
    | _, _ => none
  | .truncate k i =>
    match (s.files k)[i]? with
    | none => none
    | some clst =>
      match truncateChain v s.fs clst with
      | some (.ok, fs) =>
        some ({ fs := fs, files := Function.update s.files k ((s.files k).take (i + 1)) }, 0)
      | _ => none
  | .remove k =>
    match removeChain v s.fs ((s.files k).headD 0) with
    | some (.ok, fs) => some ({ fs := fs, files := Function.update s.files k [] }, 0)
    | _ => none

def machine : Transition.Machine (FatSystem κ) (ChainCall κ) ℕ := ⟨step v⟩

/-- `create_chain` takes a cluster whose entry it cannot read for the last one. -/
def Ok (s : FatSystem κ) : ChainCall κ → Prop
  | .extend k => s.files k = [] ∨ (getFat v s.fs (lastCluster (s.files k))).1 ≠ fatDiskError
  | .follow k i => (getFat v s.fs ((s.files k)[i]?.getD 0)).1 ≠ fatDiskError
  | _ => True

instance Ok.decidable (s : FatSystem κ) : ∀ call, Decidable (s.Ok v call)
  | .extend _ => inferInstanceAs (Decidable (_ ∨ _))
  | .follow _ _ => inferInstanceAs (Decidable (_ ≠ _))
  | .truncate _ _ => inferInstanceAs (Decidable True)
  | .remove _ => inferInstanceAs (Decidable True)

end Calls

variable [DecidableEq κ]

/-- What the answer to a call says, by the state before it. -/
def Answers (s : FatSystem κ) (call : ChainCall κ) (t : FatSystem κ) (r : ℕ) : Prop :=
  match call with
  | .extend k =>
    r = 0 ∧ s.fs.freeClusters v = ∅ ∧ t.files = s.files ∨
      r ∈ s.fs.freeClusters v ∧ (∀ k', r ∉ s.files k') ∧
        t.files = Function.update s.files k (s.files k ++ [r])
  | .follow k i => (s.files k)[i + 1]? = some r ∧ t.files = s.files
  | .truncate k i => t.files = Function.update s.files k ((s.files k).take (i + 1))
  | .remove k => t.files = Function.update s.files k []

/-- The entries of clusters that no file has stay, and a file gets no cluster but a free one. -/
theorem Keeps.becomes {fs : FatFs} {e : ℕ → ℕ} {k : κ} {l : List ℕ}
    (hb : FatFs.Becomes v e s.fs fs)
    (he : ∀ c, s.fs.entry v c ≠ 0 → (∀ k', c ∉ s.files k') → e c = s.fs.entry v c)
    (hl : ∀ c ∈ l, c ∈ s.files k ∨ s.fs.entry v c = 0) :
    Keeps v s { fs := fs, files := Function.update s.files k l } where
  entry c hc hused hout := by
    refine ⟨(hb.entry c hc).trans (he c hused hout), fun k' hmem => ?_⟩
    replace hmem : c ∈ Function.update s.files k l k' := hmem
    by_cases hk : k' = k
    · subst hk
      rw [Function.update_self] at hmem
      obtain hin | hzero := hl c hmem
      · exact hout k' hin
      · exact hused hzero
    · rw [Function.update_of_ne hk] at hmem
      exact hout k' hmem
  view := hb.outside

/-- What has happened when a cluster was asked for and no error is reported. -/
theorem extend_eq_some {k : κ} {r : ℕ} (hs : step v s (.extend k) = some (t, r)) :
    ∃ fs, createChain v s.fs (lastCluster (s.files k)) = some (r, fs) ∧ r ≠ fatDiskError ∧
      t = { fs := fs
            files := if r = 0 then s.files else Function.update s.files k (s.files k ++ [r]) } := by
  cases hc : createChain v s.fs (lastCluster (s.files k)) with
  | none => simp [step, hc] at hs
  | some p =>
    simp only [step, hc] at hs
    split_ifs at hs with herr hzero
    · simp only [Option.some.injEq, Prod.mk.injEq] at hs
      obtain ⟨rfl, rfl⟩ := hs
      exact ⟨p.2, rfl, fun he => herr (.inl he), by rw [if_pos hzero]⟩
    · simp only [Option.some.injEq, Prod.mk.injEq] at hs
      obtain ⟨rfl, rfl⟩ := hs
      exact ⟨p.2, rfl, fun he => herr (.inl he), by rw [if_neg hzero]⟩

theorem follow_eq_some {k : κ} {i r : ℕ} (hs : step v s (.follow k i) = some (t, r)) :
    ∃ clst d fs, (s.files k)[i]? = some clst ∧ (s.files k)[i + 1]? = some d ∧
      createChain v s.fs clst = some (r, fs) ∧ t = { s with fs := fs } := by
  cases hi : (s.files k)[i]? with
  | none => simp [step, hi] at hs
  | some clst =>
    cases hi' : (s.files k)[i + 1]? with
    | none => simp [step, hi, hi'] at hs
    | some d =>
      cases hc : createChain v s.fs clst with
      | none => simp [step, hi, hi', hc] at hs
      | some p =>
        simp only [step, hi, hi', hc] at hs
        split_ifs at hs
        simp only [Option.some.injEq, Prod.mk.injEq] at hs
        obtain ⟨rfl, rfl⟩ := hs
        exact ⟨clst, d, p.2, rfl, rfl, hc, rfl⟩

theorem truncate_eq_some {k : κ} {i r : ℕ} (hs : step v s (.truncate k i) = some (t, r)) :
    ∃ clst fs, (s.files k)[i]? = some clst ∧ truncateChain v s.fs clst = some (.ok, fs) ∧
      t = { fs := fs, files := Function.update s.files k ((s.files k).take (i + 1)) } := by
  cases hi : (s.files k)[i]? with
  | none => simp [step, hi] at hs
  | some clst =>
    cases hc : truncateChain v s.fs clst with
    | none => simp [step, hi, hc] at hs
    | some p =>
      obtain ⟨res, fs⟩ := p
      simp only [step, hi, hc] at hs
      cases res with
      | ok =>
        simp only [Option.some.injEq, Prod.mk.injEq] at hs
        exact ⟨clst, fs, rfl, hc, hs.1.symm⟩
      | _ => contradiction

theorem remove_eq_some {k : κ} {r : ℕ} (hs : step v s (.remove k) = some (t, r)) :
    ∃ fs, removeChain v s.fs ((s.files k).headD 0) = some (.ok, fs) ∧
      t = { fs := fs, files := Function.update s.files k [] } := by
  cases hc : removeChain v s.fs ((s.files k).headD 0) with
  | none => simp only [step, hc, reduceCtorEq] at hs
  | some p =>
    obtain ⟨res, fs⟩ := p
    simp only [step, hc] at hs
    cases res with
    | ok =>
      simp only [Option.some.injEq, Prod.mk.injEq] at hs
      exact ⟨fs, rfl, hs.1.symm⟩
    | _ => contradiction

theorem step_extend {k : κ} {r : ℕ} (h : s.Inv v) (hok : s.Ok v (.extend k))
    (hs : step v s (.extend k) = some (t, r)) :
    t.Inv v ∧ Keeps v s t ∧ Answers (v := v) s (.extend k) t r := by
  obtain ⟨fs', hcreate, herr, rfl⟩ := extend_eq_some hs
  have hlast := h.last hok
  obtain ⟨r', fs₁, hcreate', hend⟩ := createChain_last h.sound h.holds.regular
    (hlast.imp id fun ⟨hlo, hhi, _, hnext, hread⟩ => ⟨hlo, hhi, hnext, hread⟩)
  obtain ⟨rfl, rfl⟩ : r = r' ∧ fs' = fs₁ := by simpa [hcreate] using hcreate'
  obtain ⟨hsound, ⟨hzero, hempty, hsame⟩ | ⟨hmem, hbec, htaken⟩⟩ := hend herr
  · rw [if_pos hzero]
    obtain ⟨hinv, hkeeps⟩ := h.same hsound hsame
    exact ⟨hinv, hkeeps, .inl ⟨hzero, hempty, rfl⟩⟩
  · obtain ⟨hlo, hhi, hfree⟩ := FatFs.mem_freeClusters.mp hmem
    have hne : r ≠ 0 := by omega
    rw [if_neg hne]
    have hused : lastCluster (s.files k) = 0 ∨ s.fs.entry v (lastCluster (s.files k)) ≠ 0 :=
      hlast.imp id fun ⟨hclo, hchi, hin, _, _⟩ hz =>
        h.holds.notMem_of_free (FatFs.mem_freeClusters.mpr ⟨hclo, hchi, hz⟩) k hin
    refine ⟨⟨hsound, h.holds.extend hmem hbec,
      h.count.take hmem (hbec.freeClusters_link hmem hused) htaken⟩,
      Keeps.becomes hbec (fun c hc hout => ?_) (fun c hc => ?_),
      .inr ⟨hmem, h.holds.notMem_of_free hmem, rfl⟩⟩
    · have hcr : c ≠ r := fun he => hc (he ▸ hfree)
      have hcl : ¬(c = lastCluster (s.files k) ∧ lastCluster (s.files k) ≠ 0) := by
        rintro ⟨rfl, hne⟩
        exact hout k (hlast.resolve_left hne).2.2.1
      rw [linkEntries, if_neg hcr, if_neg hcl]
    · obtain hc | hc := List.mem_append.mp hc
      · exact .inl hc
      · exact .inr (List.mem_singleton.mp hc ▸ hfree)

theorem step_follow {k : κ} {i r : ℕ} (h : s.Inv v) (hok : s.Ok v (.follow k i))
    (hs : step v s (.follow k i) = some (t, r)) :
    t.Inv v ∧ Keeps v s t ∧ Answers (v := v) s (.follow k i) t r := by
  obtain ⟨clst, d, fs', hi, hi', hcreate, rfl⟩ := follow_eq_some hs
  have hread : (getFat v s.fs clst).1 ≠ fatDiskError := by
    rw [Ok, hi] at hok
    exact hok
  obtain ⟨-, fs₁, hcreate', hsound, hsame⟩ := h.follow hi hi' hread
  obtain ⟨rfl, rfl⟩ : r = d ∧ fs' = fs₁ := by simpa [hcreate] using hcreate'
  obtain ⟨hinv, hkeeps⟩ := h.same hsound hsame
  exact ⟨hinv, hkeeps, hi', rfl⟩

theorem split_at {l : List ℕ} {i clst : ℕ} (hi : l[i]? = some clst) :
    l = l.take i ++ clst :: l.drop (i + 1) := by
  obtain ⟨hlen, hget⟩ := List.getElem?_eq_some_iff.mp hi
  rw [← hget, List.cons_getElem_drop_succ, List.take_append_drop]

theorem step_truncate {k : κ} {i r : ℕ} (h : s.Inv v)
    (hs : step v s (.truncate k i) = some (t, r)) :
    t.Inv v ∧ Keeps v s t ∧ Answers (v := v) s (.truncate k i) t r := by
  obtain ⟨clst, fs', hi, htrunc, rfl⟩ := truncate_eq_some hs
  have htake : (s.files k).take (i + 1) = (s.files k).take i ++ [clst] := by
    rw [List.take_add_one, hi]
    rfl
  obtain ⟨res, fs₁, htrunc', -, hend⟩ := truncateChain_ok h.sound h.holds (split_at hi)
  obtain ⟨rfl, rfl⟩ : FResult.ok = res ∧ fs' = fs₁ := by simpa [htrunc] using htrunc'
  obtain ⟨hsound, hholds, hcount, e, hbec, hsame⟩ := hend rfl
  refine ⟨⟨hsound, ?_, hcount h.count⟩,
    Keeps.becomes hbec (fun c _ hout => hsame c (hout k)) fun c hc =>
      .inl (List.mem_of_mem_take hc), rfl⟩
  rw [htake]
  exact hholds

theorem step_remove {k : κ} {r : ℕ} (h : s.Inv v) (hs : step v s (.remove k) = some (t, r)) :
    t.Inv v ∧ Keeps v s t ∧ Answers (v := v) s (.remove k) t r := by
  obtain ⟨fs', hremove, rfl⟩ := remove_eq_some hs
  cases hk : s.files k with
  | nil => simp [hk, removeChain] at hremove
  | cons clst l =>
    have hchain := h.holds.chains.chain k
    rw [hk] at hchain
    rw [hk, List.headD_cons] at hremove
    obtain ⟨res, fs₁, hremove', -, hend⟩ := removeChain_ok h.sound hchain fun c hc =>
      h.holds.range k c (hk ▸ hc)
    obtain ⟨rfl, rfl⟩ : FResult.ok = res ∧ fs' = fs₁ := by simpa [hremove] using hremove'
    obtain ⟨hsound, hbec, -, hcount⟩ := hend rfl
    refine ⟨⟨hsound, h.holds.cut hk hbec (fun c hc => if_pos hc) (fun c hc _ => if_neg hc)
      (fun c hc => by simp at hc), hcount h.count⟩,
      Keeps.becomes hbec (fun c _ hout => if_neg fun hc => hout k (hk ▸ hc)) fun c hc => ?_, rfl⟩
    simp at hc

theorem step_ok {call : ChainCall κ} {r : ℕ} (h : s.Inv v) (hok : s.Ok v call)
    (hs : step v s call = some (t, r)) :
    t.Inv v ∧ Keeps v s t ∧ Answers (v := v) s call t r := by
  cases call with
  | extend k => exact step_extend h hok hs
  | follow k i => exact step_follow h hok hs
  | truncate k i => exact step_truncate h hs
  | remove k => exact step_remove h hs

/-- In every run the table stays what the owners of the files think: no cluster is in two files,
the number of free clusters is right, nothing else changes on the volume, and each further call
ends and answers as it should. -/
theorem chains_kept {is : List (ChainCall κ)} {os : List ℕ} (h : s.Inv v)
    (hm : (machine v).Meets (Ok v) s is) (hrun : (machine v).run s is = some (t, os)) :
    t.Inv v ∧ Keeps v s t ∧
      (∀ call u r, t.Ok v call → step v t call = some (u, r) → Answers (v := v) t call u r) ∧
      ∀ clst, (createChain v t.fs clst).isSome ∧ (removeChain v t.fs clst).isSome ∧
        (truncateChain v t.fs clst).isSome := by
  obtain ⟨hinv, hkeeps⟩ := hm.run_invariant (J := fun a => a.Inv v ∧ Keeps v s a)
    (fun a call b r ha hok hs => by
      obtain ⟨hinv, hkeeps, -⟩ := step_ok ha.1 hok hs
      exact ⟨hinv, ha.2.trans hkeeps⟩) ⟨h, Keeps.refl s⟩ hrun
  exact ⟨hinv, hkeeps, fun call u r hok hs => (step_ok hinv hok hs).2.2,
    fun clst => ⟨createChain_ends t.fs clst, removeChain_ends hinv.sound clst,
      truncateChain_ends hinv.sound clst⟩⟩

/-- A volume of eight clusters. -/
def smallVolume : FatVolume where
  fsType := .fat12
  csize := 1
  nFats := 2
  nRootdir := 16
  ssize := 512
  fsiSector := 0
  nFatent := 10
  fsize := 1
  fatbase := 1
  dirbase := 3
  database := 4
  ssize_pow := ⟨9, by decide⟩
  csize_pow := ⟨0, by decide⟩
  fatbase_pos := Nat.one_pos
  nFats_pos := Nat.two_pos
  nFatent_gt := by decide
  nFatent_le := by decide
  table_le := by decide
  database_ge := by decide
  sectors_le := by decide

/-- It is empty, behind a drive that does not fail. -/
def smallSystem : FatSystem Bool where
  fs := {
    id := 1, wflag := false, fsiFlag := false, lastClust := 0, freeClust := 8, winsect := 0
    win := fun _ => 0
    drive := { sectors := fun _ _ => 0, faults := fun _ => none, noInit := false } }
  files := fun _ => []

theorem smallSystem_inv : smallSystem.Inv smallVolume where
  sound.coherent _ hseen := absurd rfl hseen.1
  sound.changed hflag := by contradiction
  holds.chains.chain _ := rfl
  holds.chains.apart _ _ _ hx := by contradiction
  holds.range _ _ hc := by contradiction
  holds.regular c _ hc := by
    have hall : ∀ c, c < 10 → smallSystem.fs.entry smallVolume c ≠ 1 := by decide +kernel
    exact hall c hc
  count := .inr (by decide +kernel)

def smallCalls : List (ChainCall Bool) :=
  [.extend false, .extend true, .extend false, .follow false 0, .truncate false 0, .extend true,
    .remove false]

theorem chains_kept_small : ∃ t os,
    (machine smallVolume).run smallSystem smallCalls = some (t, os) ∧
      t.Inv smallVolume ∧ Keeps smallVolume smallSystem t := by
  have hmeets : (machine smallVolume).Meets (Ok smallVolume) smallSystem smallCalls := by
    decide +kernel
  have hends : ((machine smallVolume).run smallSystem smallCalls).isSome := by decide +kernel
  obtain ⟨⟨t, os⟩, hrun⟩ := Option.isSome_iff_exists.mp hends
  obtain ⟨hinv, hkeeps, -⟩ := chains_kept smallSystem_inv hmeets hrun
  exact ⟨t, os, hrun, hinv, hkeeps⟩

/-! ## Runs on a drive that works -/

theorem step_working {call : ChainCall κ} {r : ℕ} (h : s.fs.Working v)
    (hs : step v s call = some (t, r)) : t.fs.Working v := by
  cases call with
  | extend k =>
    obtain ⟨fs, hcreate, -, rfl⟩ := extend_eq_some hs
    exact (createChain_working h hcreate).1
  | follow k i =>
    obtain ⟨clst, d, fs, -, -, hcreate, rfl⟩ := follow_eq_some hs
    exact (createChain_working h hcreate).1
  | truncate k i =>
    obtain ⟨clst, fs, -, htrunc, rfl⟩ := truncate_eq_some hs
    exact (truncateChain_working h htrunc).1
  | remove k =>
    obtain ⟨fs, hremove, rfl⟩ := remove_eq_some hs
    exact (removeChain_working h hremove).1

omit [DecidableEq κ] in
theorem Ok.of_working (h : s.fs.Working v) (call : ChainCall κ) : s.Ok v call := by
  cases call with
  | extend k => exact .inr (getFat_working h _).2
  | follow k i => exact (getFat_working h _).2
  | truncate k i => trivial
  | remove k => trivial

/-- A call for clusters that the file has. -/
def Fits (s : FatSystem κ) : ChainCall κ → Prop
  | .extend _ => True
  | .follow k i => i + 1 < (s.files k).length
  | .truncate k i => i < (s.files k).length
  | .remove k => s.files k ≠ []

theorem step_served {call : ChainCall κ} (h : s.Inv v) (hw : s.fs.Working v)
    (hfits : s.Fits call) : (step v s call).isSome := by
  cases call with
  | extend k =>
    have hlast := h.last (Ok.of_working hw (.extend k))
    obtain ⟨r, fs, hcreate, hend⟩ := createChain_last h.sound h.holds.regular
      (hlast.imp id fun ⟨hlo, hhi, _, hnext, hread⟩ => ⟨hlo, hhi, hnext, hread⟩)
    have herr := (createChain_working hw hcreate).2
    have hone : r ≠ 1 := by
      obtain ⟨-, ⟨hzero, -⟩ | ⟨hmem, -⟩⟩ := hend herr
      · omega
      · have hlo := (FatFs.mem_freeClusters.mp hmem).1
        omega
    simp only [step, hcreate, herr, hone, or_self, if_false]
    split <;> rfl
  | follow k i =>
    obtain ⟨d, hi'⟩ : ∃ d, (s.files k)[i + 1]? = some d := ⟨_, List.getElem?_eq_getElem hfits⟩
    obtain ⟨clst, hi⟩ : ∃ clst, (s.files k)[i]? = some clst :=
      ⟨_, List.getElem?_eq_getElem (Nat.lt_of_succ_lt hfits)⟩
    obtain ⟨hdlo, fs, hcreate, -⟩ := h.follow hi hi' (getFat_working hw _).2
    have herr := (createChain_working hw hcreate).2
    have hone : d ≠ 1 := by omega
    simp only [step, hi, hi', hcreate, herr, hone, or_self, if_false]
    rfl
  | truncate k i =>
    obtain ⟨clst, hi⟩ : ∃ clst, (s.files k)[i]? = some clst := ⟨_, List.getElem?_eq_getElem hfits⟩
    obtain ⟨res, fs, htrunc, hres, -⟩ := truncateChain_ok h.sound h.holds (split_at hi)
    obtain rfl := hres.resolve_right (truncateChain_working hw htrunc).2
    simp only [step, hi, htrunc]
    rfl
  | remove k =>
    cases hk : s.files k with
    | nil => exact absurd hk hfits
    | cons clst l =>
      have hchain := h.holds.chains.chain k
      rw [hk] at hchain
      obtain ⟨res, fs, hremove, hres, -⟩ := removeChain_ok h.sound hchain fun c hc =>
        h.holds.range k c (hk ▸ hc)
      obtain rfl := hres.resolve_right (removeChain_working hw hremove).2
      simp only [step, hk, List.headD_cons, hremove]
      rfl

theorem run_working {is : List (ChainCall κ)} {os : List ℕ} (h : s.Inv v) (hw : s.fs.Working v)
    (hrun : (machine v).run s is = some (t, os)) : t.Inv v ∧ t.fs.Working v := by
  have hstep : ∀ (a : FatSystem κ) call b r, a.Inv v ∧ a.fs.Working v →
      (machine v).step a call = some (b, r) → b.Inv v ∧ b.fs.Working v :=
    fun a call b r ⟨hinv, hworking⟩ hs =>
      ⟨(step_ok hinv (Ok.of_working hworking call) hs).1, step_working hworking hs⟩
  exact (machine v).run_invariant hstep ⟨h, hw⟩ hrun

/-- On a drive that works no call for clusters that the file has is refused, whatever calls came
before. -/
theorem calls_served {is : List (ChainCall κ)} {os : List ℕ} (h : s.Inv v) (hw : s.fs.Working v)
    (hrun : (machine v).run s is = some (t, os)) (call : ChainCall κ) (hfits : t.Fits call) :
    ((machine v).step t call).isSome := by
  obtain ⟨hinv, hworking⟩ := run_working h hw hrun
  exact step_served hinv hworking hfits

/-- On a drive that works, `sync` leaves behind any run what a new mount needs: every copy of the
table has the entries as they are, so that the files are read back as their owners know them,
and the FSInfo sector has the number of free clusters if it has changed. -/
theorem chains_on_drive {is : List (ChainCall κ)} {os : List ℕ} (h : s.Inv v)
    (hw : s.fs.Working v) (hfsi : v.fsType = .fat32 → v.fsiSector < v.fatbase)
    (hrun : (machine v).run s is = some (t, os)) :
    ∃ fs, syncFs v t.fs = (.ok, fs) ∧
      (∀ c j, c < v.nFatent → j < v.nFats →
        v.fsType.entry (fs.tableOnDrive v j) c = t.fs.entry v c) ∧
      (∀ m : FatFs, m.drive = fs.drive → m.wflag = false → m.winsect = 0 →
        m.Sound v ∧ m.Holds v t.files) ∧
      (v.fsType = .fat32 → t.fs.fsiFlag = true →
        load (fs.drive.sectors v.fsiSector) 488 4 = t.fs.freeClust) := by
  obtain ⟨hinv, hworking⟩ := run_working h hw hrun
  obtain ⟨fs, hsync, hcopies, hinfo⟩ := syncFs_working hworking hfsi
  refine ⟨fs, hsync, hcopies, fun m hdrive hclean hzero =>
    ⟨⟨fun _ hseen => ?_, fun hflag => ?_⟩, ?_⟩, fun hft hflag => ?_⟩
  · exact absurd hzero hseen.1
  · simp [hclean] at hflag
  · refine hinv.holds.congr fun c hc => ?_
    rw [FatFs.entry_unmoved hzero, FatFs.tableOnDrive, hdrive]
    exact hcopies c 0 hc v.nFats_pos
  · rw [(hinfo hft hflag).1, Nat.mod_eq_of_lt]
    obtain hunknown | hcard := hinv.count
    · rw [hunknown]
      decide
    · have hlt := FatFs.card_freeClusters_lt v t.fs
      omega

theorem smallSystem_working : smallSystem.fs.Working smallVolume where
  sound := smallSystem_inv.sound
  quiet _ := rfl
  mirrored _ _ := .inr fun _ _ => rfl

theorem calls_served_small : ∃ t os,
    (machine smallVolume).run smallSystem smallCalls = some (t, os) ∧
      ((machine smallVolume).step t (.extend false)).isSome := by
  have hends : ((machine smallVolume).run smallSystem smallCalls).isSome := by decide +kernel
  obtain ⟨⟨t, os⟩, hrun⟩ := Option.isSome_iff_exists.mp hends
  exact ⟨t, os, hrun, calls_served smallSystem_inv smallSystem_working hrun _ trivial⟩

theorem chains_on_drive_small : ∃ t os fs,
    (machine smallVolume).run smallSystem smallCalls = some (t, os) ∧
      syncFs smallVolume t.fs = (.ok, fs) ∧ ∀ c j, c < smallVolume.nFatent → j < smallVolume.nFats →
        smallVolume.fsType.entry (fs.tableOnDrive smallVolume j) c = t.fs.entry smallVolume c := by
  have hends : ((machine smallVolume).run smallSystem smallCalls).isSome := by decide +kernel
  obtain ⟨⟨t, os⟩, hrun⟩ := Option.isSome_iff_exists.mp hends
  obtain ⟨fs, hsync, hcopies, -⟩ := chains_on_drive smallSystem_inv smallSystem_working
    (fun hft => absurd hft (by decide)) hrun
  exact ⟨t, os, fs, hrun, hsync, hcopies⟩

end FatSystem
end Runs

end RtThread
