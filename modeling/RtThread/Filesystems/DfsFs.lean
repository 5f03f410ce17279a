import Mathlib.Data.List.GetD
import Mathlib.Data.List.Pairwise
import RtThread.Library.SlashPath

/-!
# Mounted filesystems

`dfs_filesystem_lookup` walks over the table of mounted filesystems and keeps the last entry of the
greatest length whose path is a prefix of the path in question; `dfs_subdir` cuts that prefix off.
A C string is the list of the characters before its terminator.
-/
namespace RtThread
open SlashPath

def nul : Char := Char.ofNat 0

/-- Character `i` of a string; the terminator stands behind the last one. -/
def charAt (s : List Char) (i : ℕ) : Char := s.getD i nul

/-- The sign of `strncmp`: of the difference of the first characters that differ. -/
def strncmp : List Char → List Char → ℕ → ℤ
  | _, _, 0 => 0
  | s, t, n + 1 =>
    if charAt s 0 ≠ charAt t 0 then if charAt s 0 < charAt t 0 then -1 else 1
    else if charAt s 0 = nul then 0
    else strncmp s.tail t.tail n

/-- An entry of `filesystem_table`. -/
structure DfsFilesystem (Ops : Type) where
  path : Option (List Char)
  ops : Option Ops

variable {Ops : Type}

/-- One round of the loop of `dfs_filesystem_lookup`, on `fs` and `prefixlen`. -/
def lookupRound (path : List Char) (found : Option (DfsFilesystem Ops) × ℕ)
    (iter : DfsFilesystem Ops) : Option (DfsFilesystem Ops) × ℕ :=
  match iter.path, iter.ops with
  | some mount, some _ =>
    let fspath := mount.length
    if fspath < found.2 ∨ strncmp mount path fspath ≠ 0 then found
    -- check next path separator
    else if fspath > 1 ∧ path.length > fspath ∧ charAt path fspath ≠ '/' then found
    else (some iter, fspath)
  | _, _ => found

def dfsFilesystemLookup (table : List (DfsFilesystem Ops)) (path : List Char) :
    Option (DfsFilesystem Ops) := (table.foldl (lookupRound path) (none, 0)).1

/-- The result points into `filename`: it is the text from there on. -/
def dfsSubdir (directory filename : List Char) : Option (List Char) :=
  if directory.length = filename.length then none
  else
    let dir := directory.length
    let dir := if charAt filename dir ≠ '/' ∧ dir ≠ 0 then dir - 1 else dir
    some (filename.drop dir)

/-- A normalised absolute path. -/
structure AbsPath where
  text : List Char
  normal : Normal text
  noNul : nul ∉ text

namespace DfsFilesystem

/-- The entry is in use and mounted at `mount`. -/
def Mounted (fs : DfsFilesystem Ops) (mount : List Char) : Prop :=
  fs.path = some mount ∧ fs.ops ≠ none

/-- The entry is mounted at a prefix of `path`, component by component. -/
def Covers (fs : DfsFilesystem Ops) (mount path : List Char) : Prop :=
  fs.Mounted mount ∧ components mount <+: components path

end DfsFilesystem

/-- A table whose filesystems are mounted at different normalised paths. -/
structure MountTable (Ops : Type) where
  entries : List (DfsFilesystem Ops)
  normal : ∀ fs ∈ entries, ∀ mount, fs.Mounted mount → Normal mount ∧ nul ∉ mount
  distinct : entries.Pairwise fun fs fs' => ∀ mount, fs.Mounted mount → ¬ fs'.Mounted mount

/-! ## Comparing texts -/

theorem charAt_cons (c : Char) (s : List Char) : charAt (c :: s) 0 = c := rfl

/-- A string is a prefix if no character differs up to its length. -/
theorem strncmp_eq_zero {s : List Char} (hs : nul ∉ s) (t : List Char) :
    strncmp s t s.length = 0 ↔ s <+: t := by
  induction s generalizing t with
  | nil => simp [strncmp]
  | cons c s ih =>
    have hc : c ≠ nul := fun he => hs (by simp [he])
    have hrest : nul ∉ s := fun hm => hs (List.mem_cons_of_mem c hm)
    rw [List.length_cons, strncmp, charAt_cons]
    rcases t with _ | ⟨d, t⟩
    · have hne : c ≠ charAt [] 0 := hc
      rw [if_pos hne]
      constructor
      · intro h
        split at h <;> contradiction
      · intro h
        simp at h
    · rw [charAt_cons, List.tail_cons, List.tail_cons, List.cons_prefix_cons]
      by_cases hd : c = d
      · rw [if_neg (not_not_intro hd), if_neg hc, ih hrest]
        exact ⟨fun h => ⟨hd, h⟩, fun h => h.2⟩
      · rw [if_pos hd]
        constructor
        · intro h
          split at h <;> contradiction
        · exact fun h => absurd h.1 hd

/-- The two tests of the loop accept the prefixes in components. -/
theorem accepts_iff {mount path : List Char} (hmount : Normal mount) (hnul : nul ∉ mount)
    (hpath : Normal path) :
    components mount <+: components path ↔ strncmp mount path mount.length = 0 ∧
      ¬ (mount.length > 1 ∧ path.length > mount.length ∧ charAt path mount.length ≠ '/') := by
  obtain ⟨hm, hmn⟩ := hmount.eq_path
  obtain ⟨hp, hpn⟩ := hpath.eq_path
  rw [prefix_iff hmn hpn, ← hm, ← hp, strncmp_eq_zero hnul]
  refine and_congr_right fun _ => ?_
  constructor
  · rintro h ⟨hlen, hlt, hne⟩
    rw [charAt, List.getD_eq_getElem _ _ hlt] at hne
    exact hne (h hlen _ (List.getElem?_eq_getElem hlt))
  · intro h hlen c hc
    obtain ⟨hlt, rfl⟩ := List.getElem?_eq_some_iff.mp hc
    by_contra hne
    refine h ⟨hlen, hlt, ?_⟩
    rwa [charAt, List.getD_eq_getElem _ _ hlt]

theorem length_lt_of_components {mount mount' : List Char} (hm : Normal mount)
    (hm' : Normal mount') (hbegins : components mount <+: components mount')
    (hne : mount ≠ mount') : mount.length < mount'.length := by
  obtain ⟨he, -⟩ := hm.eq_path
  obtain ⟨he', hn'⟩ := hm'.eq_path
  rw [he, he']
  refine length_path_lt hn' hbegins fun hc => hne ?_
  rw [he, he', hc]

/-! ## Below a mount point -/

/-- Below the mount point `dfs_subdir` leaves the path of the names that follow. -/
theorem dfsSubdir_path {names rest : List (List Char)} (h : ∀ c ∈ names ++ rest, IsName c) :
    dfsSubdir (path names) (path (names ++ rest)) =
      if rest = [] then none else some (path rest) := by
  have hrest : ∀ c ∈ rest, IsName c := fun c hc => h c (List.mem_append_right _ hc)
  split
  · next he => rw [he, List.append_nil, dfsSubdir, if_pos rfl]
  · next he =>
    have hlen := length_path_lt h (List.prefix_append names rest) (by simpa using he)
    rw [dfsSubdir, if_neg (Nat.ne_of_lt hlen)]
    rcases eq_or_ne names [] with rfl | hne
    · -- the separator is the root itself: one step back
      obtain ⟨c, cs, rfl⟩ := List.exists_cons_of_ne_nil he
      obtain ⟨x, xs, hx⟩ := List.exists_cons_of_ne_nil (hrest c List.mem_cons_self).ne_nil
      have hslash : x ≠ '/' := by
        intro hxe
        refine (hrest c List.mem_cons_self).no_slash ?_
        rw [hx, hxe]
        exact List.mem_cons_self
      have hchar : charAt (path (c :: cs)) 1 = x := by
        rw [path_eq_flatMap he, List.flatMap_cons, hx]
        rfl
      simp [hchar, hslash]
    · have hchar : charAt (path (names ++ rest)) (path names).length = '/' := by
        rw [path_append hne he, charAt, List.getD_append_right _ _ _ _ (Nat.le_refl _),
          Nat.sub_self]
        rfl
      simp only [hchar, ne_eq, not_true_eq_false, false_and, if_false]
      rw [path_append hne he, List.drop_left]

/-- For a mount point above `p`, `dfs_subdir` gives nothing or what has to be added to it. -/
theorem dfsSubdir_spec {mount : List Char} (hmount : Normal mount) (p : AbsPath)
    (hbegins : components mount <+: components p.text) :
    (dfsSubdir mount p.text = none ↔ p.text = mount) ∧
      ∀ suffix, dfsSubdir mount p.text = some suffix →
        suffix <:+ p.text ∧ (∃ rest, suffix = '/' :: rest) ∧
          (if mount = ['/'] then [] else mount) ++ suffix = p.text := by
  obtain ⟨names, hmn, rfl⟩ := normal_iff.mp hmount
  rw [components_path hmn] at hbegins
  obtain ⟨hp, hpn⟩ := p.normal.eq_path
  obtain ⟨rest, hrest⟩ := hbegins
  rw [← hrest] at hp hpn
  rw [hp, dfsSubdir_path hpn]
  rcases eq_or_ne rest [] with rfl | he
  · simp
  · rw [if_neg he]
    constructor
    · simp only [reduceCtorEq, false_iff]
      intro hpath
      have hnames := path_injective hpn hmn hpath
      exact he (by simpa using hnames)
    · intro suffix hsuffix
      obtain rfl := Option.some.inj hsuffix
      rcases eq_or_ne names [] with rfl | hc
      · exact ⟨List.suffix_refl _, ⟨_, rfl⟩, rfl⟩
      · have hroot : path names ≠ ['/'] := by
          intro hroot
          have hlen := one_lt_length_path hmn hc
          rw [hroot] at hlen
          exact Nat.lt_irrefl _ hlen
        rw [if_neg hroot, path_append hc he]
        exact ⟨List.suffix_append _ _, ⟨_, rfl⟩, rfl⟩

/-! ## The walk over the table -/

/-- What the loop has found when it has seen the entries `seen`. -/
inductive Found (path : List Char) (seen : List (DfsFilesystem Ops)) :
    Option (DfsFilesystem Ops) × ℕ → Prop
  | nothing (h : ∀ fs ∈ seen, ∀ mount, ¬ fs.Covers mount path) : Found path seen (none, 0)
  | entry {fs : DfsFilesystem Ops} {mount : List Char} (hmem : fs ∈ seen)
      (hcovers : fs.Covers mount path)
      (hlongest : ∀ fs' ∈ seen, ∀ mount', fs'.Covers mount' path →
        mount'.length ≤ mount.length) : Found path seen (some fs, mount.length)

namespace Found

variable {path mount : List Char} {seen : List (DfsFilesystem Ops)}
  {found : Option (DfsFilesystem Ops) × ℕ} {iter : DfsFilesystem Ops}

/-- An entry that does not lie above `path`, or not as close as the one found. -/
theorem skip (h : Found path seen found)
    (hiter : ∀ mount, iter.Covers mount path → found.1 ≠ none ∧ mount.length ≤ found.2) :
    Found path (seen ++ [iter]) found := by
  cases h with
  | nothing h =>
    refine .nothing fun fs hfs mount hcovers => ?_
    rcases List.mem_append.mp hfs with hfs | hfs
    · exact h fs hfs mount hcovers
    · rw [List.mem_singleton.mp hfs] at hcovers
      exact (hiter mount hcovers).1 rfl
  | entry hmem hcovers hlongest =>
    refine .entry (List.mem_append_left _ hmem) hcovers fun fs' hfs' mount' hcovers' => ?_
    rcases List.mem_append.mp hfs' with hfs' | hfs'
    · exact hlongest fs' hfs' mount' hcovers'
    · rw [List.mem_singleton.mp hfs'] at hcovers'
      exact (hiter mount' hcovers').2

theorem take (h : Found path seen found) (hcovers : iter.Covers mount path)
    (hle : found.2 ≤ mount.length) : Found path (seen ++ [iter]) (some iter, mount.length) := by
  refine .entry (List.mem_append_right _ List.mem_cons_self) hcovers
    fun fs' hfs' mount' hcovers' => ?_
  rcases List.mem_append.mp hfs' with hfs' | hfs'
  · cases h with
    | nothing h => exact absurd hcovers' (h fs' hfs' mount')
    | entry _ _ hlongest => exact Nat.le_trans (hlongest fs' hfs' mount' hcovers') hle
  · rw [List.mem_singleton.mp hfs'] at hcovers'
    obtain rfl := Option.some.inj (hcovers'.1.1.symm.trans hcovers.1.1)
    exact Nat.le_refl _

/-- The length is that of an entry. -/
theorem fst_ne_none (h : Found path seen found) {n : ℕ} (hlt : n < found.2) : found.1 ≠ none := by
  cases h with
  | nothing _ => exact absurd hlt (Nat.not_lt_zero n)
  | entry _ _ _ => exact Option.some_ne_none _

end Found

theorem lookupRound_unmounted {iter : DfsFilesystem Ops} (path : List Char)
    (found : Option (DfsFilesystem Ops) × ℕ) (h : ∀ mount, ¬ iter.Mounted mount) :
    lookupRound path found iter = found := by
  unfold lookupRound
  split
  · next mount ops hpath hops => exact absurd ⟨hpath, by simp [hops]⟩ (h mount)
  · rfl

theorem lookupRound_mounted {iter : DfsFilesystem Ops} {mount : List Char} (path : List Char)
    (found : Option (DfsFilesystem Ops) × ℕ) (h : iter.Mounted mount) :
    lookupRound path found iter =
      if mount.length < found.2 ∨ strncmp mount path mount.length ≠ 0 then found
      else if mount.length > 1 ∧ path.length > mount.length ∧ charAt path mount.length ≠ '/' then
        found
      else (some iter, mount.length) := by
  obtain ⟨hpath, hops⟩ := h
  obtain ⟨ops, hops⟩ := Option.ne_none_iff_exists'.mp hops
  simp only [lookupRound, hpath, hops]

theorem lookupRound_found {path : List Char} {seen : List (DfsFilesystem Ops)}
    {found : Option (DfsFilesystem Ops) × ℕ} {iter : DfsFilesystem Ops}
    (h : Found path seen found) (hpath : Normal path)
    (hiter : ∀ mount, iter.Mounted mount → Normal mount ∧ nul ∉ mount) :
    Found path (seen ++ [iter]) (lookupRound path found iter) := by
  by_cases hmounted : ∃ mount, iter.Mounted mount
  · obtain ⟨mount, hmounted⟩ := hmounted
    obtain ⟨hnormal, hnul⟩ := hiter mount hmounted
    have haccepts := accepts_iff hnormal hnul hpath
    have hsame : ∀ mount', iter.Covers mount' path →
        mount' = mount ∧ components mount <+: components path := by
      intro mount' hcovers
      obtain rfl := Option.some.inj (hcovers.1.1.symm.trans hmounted.1)
      exact ⟨rfl, hcovers.2⟩
    rw [lookupRound_mounted path found hmounted]
    split
    · next hshort =>
      refine h.skip fun mount' hcovers => ?_
      obtain ⟨rfl, hbegins⟩ := hsame mount' hcovers
      obtain hlt | hne := hshort
      · exact ⟨h.fst_ne_none hlt, Nat.le_of_lt hlt⟩
      · exact absurd (haccepts.mp hbegins).1 hne
    · next hlong =>
      obtain ⟨hle, hcmp⟩ := not_or.mp hlong
      split
      · next hsep =>
        refine h.skip fun mount' hcovers => ?_
        obtain ⟨rfl, hbegins⟩ := hsame mount' hcovers
        exact absurd hsep (haccepts.mp hbegins).2
      · next hsep =>
        have hbegins := haccepts.mpr ⟨not_not.mp hcmp, hsep⟩
        exact h.take ⟨hmounted, hbegins⟩ (Nat.le_of_not_lt hle)
  · rw [lookupRound_unmounted path found fun mount hm => hmounted ⟨mount, hm⟩]
    exact h.skip fun mount hcovers => absurd ⟨mount, hcovers.1⟩ hmounted

theorem foldl_found {path : List Char} {seen rest : List (DfsFilesystem Ops)}
    {found : Option (DfsFilesystem Ops) × ℕ} (h : Found path seen found) (hpath : Normal path)
    (hrest : ∀ fs ∈ rest, ∀ mount, fs.Mounted mount → Normal mount ∧ nul ∉ mount) :
    Found path (seen ++ rest) (rest.foldl (lookupRound path) found) := by
  induction rest generalizing seen found with
  | nil => simpa using h
  | cons iter rest ih =>
    have hround := lookupRound_found h hpath (hrest iter List.mem_cons_self)
    have hall := ih hround fun fs hfs => hrest fs (List.mem_cons_of_mem iter hfs)
    rwa [List.append_assoc, List.singleton_append] at hall

theorem lookup_found (table : MountTable Ops) (p : AbsPath) :
    Found p.text table.entries (table.entries.foldl (lookupRound p.text) (none, 0)) := by
  have hnothing : Found p.text ([] : List (DfsFilesystem Ops)) (none, 0) :=
    .nothing fun fs hfs => absurd hfs List.not_mem_nil
  exact foldl_found hnothing p.normal table.normal

/-- Another entry above `p` is mounted at a shorter path. -/
theorem MountTable.length_lt (table : MountTable Ops) {p : AbsPath}
    {fs fs' : DfsFilesystem Ops} {mount mount' : List Char} (hmem : fs ∈ table.entries)
    (hmem' : fs' ∈ table.entries) (hcovers : fs.Covers mount p.text)
    (hcovers' : fs'.Covers mount' p.text) (hne : fs' ≠ fs)
    (hle : mount'.length ≤ mount.length) :
    (components mount').length < (components mount).length := by
  obtain ⟨hnormal, -⟩ := table.normal fs hmem mount hcovers.1
  obtain ⟨hnormal', -⟩ := table.normal fs' hmem' mount' hcovers'.1
  by_contra hlong
  have hbegins := List.prefix_of_prefix_length_le hcovers.2 hcovers'.2 (Nat.le_of_not_lt hlong)
  by_cases hmount : mount = mount'
  · subst hmount
    have hsymm : Std.Symm fun a b : DfsFilesystem Ops => ∀ m, a.Mounted m → ¬ b.Mounted m :=
      ⟨fun a b h m hb ha => h m ha hb⟩
    exact table.distinct.forall hmem hmem' (Ne.symm hne) mount hcovers.1 hcovers'.1
  · exact absurd (length_lt_of_components hnormal hnormal' hbegins hmount) (Nat.not_lt_of_le hle)

/-- The lookup gives the filesystem mounted at the longest prefix of the path, if there is any, and
`dfs_subdir` then gives what the mount point lacks of the path. -/
theorem lookup_longest_prefix (table : MountTable Ops) (p : AbsPath) :
    match dfsFilesystemLookup table.entries p.text with
    | none => ∀ fs ∈ table.entries, ∀ mount, ¬ fs.Covers mount p.text
    | some fs => fs ∈ table.entries ∧ ∃ mount, fs.Covers mount p.text ∧
        (∀ fs' ∈ table.entries, fs' ≠ fs → ∀ mount', fs'.Covers mount' p.text →
          (components mount').length < (components mount).length) ∧
        (dfsSubdir mount p.text = none ↔ p.text = mount) ∧
        ∀ suffix, dfsSubdir mount p.text = some suffix →
          suffix <:+ p.text ∧ (∃ rest, suffix = '/' :: rest) ∧
            (if mount = ['/'] then [] else mount) ++ suffix = p.text := by
  have hfound := lookup_found table p
  unfold dfsFilesystemLookup
  generalize table.entries.foldl (lookupRound p.text) (none, 0) = found at hfound ⊢
  cases hfound with
  | nothing h => exact h
  | @entry fs mount hmem hcovers hlongest =>
    obtain ⟨hnormal, -⟩ := table.normal fs hmem mount hcovers.1
    refine ⟨hmem, mount, hcovers, fun fs' hmem' hne mount' hcovers' => ?_,
      dfsSubdir_spec hnormal p hcovers.2⟩
    exact table.length_lt hmem hmem' hcovers hcovers' hne (hlongest fs' hmem' mount' hcovers')

end RtThread
