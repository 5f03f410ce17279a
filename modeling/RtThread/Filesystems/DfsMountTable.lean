import RtThread.Filesystems.DfsMount
import RtThread.Library.PairedRows
import RtThread.Library.Transition

/-!
# The table of mounted filesystems over runs

The entries in use should be mounted at different paths, and a mount that fails should leave
nothing behind. `dfs_mount` compares the path as it was given with the paths of the table, while
`dfs_unmount` compares the full path.
-/
namespace RtThread
open SlashPath Transition

/-- The system and whether a mount has failed that left something behind. -/
structure MountTableState where
  sys : MountSystem
  broken : Bool

inductive MountInput where
  | mount (workingDirectory : CString) (deviceName : Option (List Char)) (path : CString)
      (type : List Char) (answers : MountAnswers)
  | unmount (workingDirectory specialfile : CString) (answers : UnmountAnswers)

namespace MountSystem

def refCounts (devices : List (List Char × Device Unit)) : List ℕ :=
  devices.map fun dev => dev.2.refCount

/-- The table, the reference counts and the blocks are the same. -/
def SameAs (s s' : MountSystem) : Prop :=
  s'.entries = s.entries ∧ refCounts s'.devices = refCounts s.devices ∧ s'.live = s.live

instance (s s' : MountSystem) : Decidable (s.SameAs s') := inferInstanceAs (Decidable (_ ∧ _))

/-- The entries in use are mounted at different normalised paths. -/
structure Distinct (entries : List MountEntry) : Prop where
  normal : ∀ entry ∈ entries, entry.ops ≠ none → ∃ text, entry.text = some text ∧ Normal text
  different : entries.Pairwise fun entry entry' =>
    entry.ops ≠ none → entry'.ops ≠ none → entry.text ≠ entry'.text

/-- There is an empty entry, and no other one has the path as it was given. -/
def Places (s : MountSystem) (path : List Char) : Prop :=
  ∃ fs, searchEntry path s.entries 0 none = some (some fs)

/-- The device is opened, but `rt_device_open` says that its driver has nothing to do for it. -/
def Unimplemented (devices : List (List Char × Device Unit)) (r : DriverResults)
    (dev : Option ℕ) : Prop :=
  ∃ i name d result d', dev = some i ∧ devices[i]? = some (name, d) ∧
    d.rtDeviceOpen r.ops rtDeviceOflagRdwr = some (.opened result, d') ∧ result ≠ rtEok

/-- Nothing in the way of the mount fails. -/
structure Completes (s : MountSystem) (workingDirectory : List Char) (dev : Option ℕ)
    (path fullpath : List Char) (answers : MountAnswers) : Prop where
  finds : s.ProbeFinds workingDirectory fullpath answers
  places : Places s path
  device : ∃ devices, DeviceOpened s.devices answers.device dev true devices
  driver : 0 ≤ answers.mount

structure MountOk (s : MountSystem) (workingDirectory : List Char) (dev : Option ℕ)
    (path fullpath : List Char) (answers : MountAnswers) : Prop where
  fresh : Completes s workingDirectory dev path fullpath answers →
    Normal fullpath ∧ ∀ entry ∈ s.entries, entry.ops ≠ none → entry.text ≠ some fullpath
  closes : s.ProbeLeaks workingDirectory fullpath answers →
    Completes s workingDirectory dev path fullpath answers
  implemented : s.ProbeFinds workingDirectory fullpath answers → Places s path →
    ¬ Unimplemented s.devices answers.device dev

/-! ## Searching the table -/

theorem searchEntry_some {path : List Char} {entries : List MountEntry} {i fs : ℕ}
    {found : Option ℕ} (h : searchEntry path entries i found = some (some fs)) :
    found = some fs ∨ i ≤ fs ∧ ∃ entry, entries[fs - i]? = some entry ∧ entry.ops = none := by
  induction entries generalizing i found with
  | nil => exact .inl (Option.some.inj h)
  | cons entry entries ih =>
    have hrest : ∀ {found'}, searchEntry path entries (i + 1) found' = some (some fs) →
        found' = some fs ∨ i ≤ fs ∧ ∃ entry', (entry :: entries)[fs - i]? = some entry' ∧
          entry'.ops = none := by
      intro found' h'
      obtain hfound | ⟨hle, entry', hentry', hnone⟩ := ih h'
      · exact .inl hfound
      · refine .inr ⟨by omega, entry', ?_, hnone⟩
        rw [show fs - i = fs - (i + 1) + 1 by omega, List.getElem?_cons_succ]
        exact hentry'
    unfold searchEntry at h
    split at h
    · next hops =>
      obtain hfound | hlater := hrest h
      · split at hfound
        · obtain rfl := Option.some.inj hfound
          exact .inr ⟨Nat.le_refl _, entry, by simp, hops⟩
        · exact .inl hfound
      · exact .inr hlater
    · split at h
      · contradiction
      · exact hrest h

/-! ## Devices -/

section
variable {devices devices' : List (List Char × Device Unit)} {r : DriverResults}
  {dev : Option ℕ} {opened : Bool}

/-- Counts that fit into their byte. -/
def Counts (devices : List (List Char × Device Unit)) : Prop :=
  ∀ dev ∈ devices, dev.2.refCount < 256

theorem Counts.set (h : Counts devices) {i : ℕ} {name : List Char} {d : Device Unit}
    (hlt : d.refCount < 256) : Counts (devices.set i (name, d)) := by
  intro dev hdev
  rcases List.mem_or_eq_of_mem_set hdev with hdev | rfl
  · exact h dev hdev
  · exact hlt

theorem refCounts_set {i : ℕ} {name : List Char} {d : Device Unit} (d' : Device Unit)
    (hi : devices[i]? = some (name, d)) :
    refCounts (devices.set i (name, d')) = (refCounts devices).set i d'.refCount ∧
      (refCounts devices)[i]? = some d.refCount := by
  simp [refCounts, List.map_set, hi]

theorem DeviceOpened.not_unimplemented (h : DeviceOpened devices r dev true devices') :
    ¬ Unimplemented devices r dev := by
  rintro ⟨i, name, d, result, d', rfl, hi, hopen, hne⟩
  generalize htrue : true = opened at h
  cases h with
  | device hi' hopen' =>
    obtain ⟨-, rfl⟩ := Prod.mk.inj (Option.some.inj (hi.symm.trans hi'))
    obtain ⟨rfl, -⟩ := Prod.mk.inj (Option.some.inj (hopen.symm.trans hopen'))
    exact hne (of_decide_eq_true htrue.symm)

theorem DeviceOpened.deterministic {opened' : Bool} {devices₁ : List (List Char × Device Unit)}
    (h : DeviceOpened devices r dev opened devices')
    (h' : DeviceOpened devices r dev opened' devices₁) : opened = opened' := by
  cases h with
  | noDevice =>
    cases h'
    rfl
  | device hi hopen =>
    cases h' with
    | device hi' hopen' =>
      obtain ⟨-, rfl⟩ := Prod.mk.inj (Option.some.inj (hi.symm.trans hi'))
      obtain ⟨rfl, -⟩ := Prod.mk.inj (Option.some.inj (hopen.symm.trans hopen'))
      rfl

/-- An opening is counted when it succeeds or is not implemented. -/
theorem DeviceOpened.counts {i : ℕ} (h : DeviceOpened devices r (some i) opened devices')
    (hcounts : Counts devices) : Counts devices' ∧ ∃ k n, (refCounts devices)[i]? = some k ∧
      refCounts devices' = (refCounts devices).set i (k + n) ∧
      (n = 0 ∧ opened = false ∧ ¬ Unimplemented devices r (some i) ∨
        n = 1 ∧ (opened = true ∨ Unimplemented devices r (some i))) := by
  cases h with
  | @device _ name d d' ret hi hopen =>
    obtain ⟨hcount, hlt, -⟩ := CountedDevice.rtDeviceOpen_counts
      (hcounts _ (List.mem_of_getElem? hi)) hopen
    obtain ⟨hset, hget⟩ := refCounts_set d' hi
    refine ⟨hcounts.set hlt, d.refCount, ret.opens, hget, by rw [hset, hcount], ?_⟩
    have hsame : Unimplemented devices r (some i) ↔ ∃ result, ret = .opened result ∧
        result ≠ rtEok := by
      constructor
      · rintro ⟨j, name', e, result, e', hj, hi', hopen', hne⟩
        obtain rfl := Option.some.inj hj
        obtain ⟨-, rfl⟩ := Prod.mk.inj (Option.some.inj (hi.symm.trans hi'))
        exact ⟨result, (Prod.mk.inj (Option.some.inj (hopen.symm.trans hopen'))).1, hne⟩
      · rintro ⟨result, rfl, hne⟩
        exact ⟨i, name, d, result, d', rfl, hi, hopen, hne⟩
    rw [hsame]
    have hcases := Device.rtDeviceOpen_cases hopen
    cases hcases with
    | initFailed _ hresult => exact .inl ⟨rfl, decide_eq_false hresult, by simp⟩
    | busy => exact .inl ⟨rfl, rfl, by simp⟩
    | openFailed _ _ hresult =>
      exact .inl ⟨rfl, decide_eq_false fun he => hresult (.inl he), by simp⟩
    | @opened result =>
      refine .inr ⟨rfl, ?_⟩
      by_cases hok : result = rtEok
      · exact .inl (decide_eq_true hok)
      · exact .inr ⟨result, rfl, hok⟩

theorem DeviceClosed.counts {i : ℕ} (h : DeviceClosed devices r (some i) devices')
    (hcounts : Counts devices) : Counts devices' ∧ ∃ k, (refCounts devices)[i]? = some k ∧
      refCounts devices' = (refCounts devices).set i (k - 1) := by
  cases h with
  | @device _ name d d' result hi hclose =>
    have hlt : d.refCount < 256 := hcounts _ (List.mem_of_getElem? hi)
    obtain ⟨hset, hget⟩ := refCounts_set d' hi
    have hcount : d'.refCount = d.refCount - 1 := by
      obtain h0 | h1 | hgt : d.refCount = 0 ∨ d.refCount = 1 ∨ 1 < d.refCount := by omega
      · rw [Device.rtDeviceClose_none _ h0] at hclose
        obtain ⟨-, rfl⟩ := Prod.mk.inj (Option.some.inj hclose)
        omega
      · rw [CountedDevice.rtDeviceClose_answer h1] at hclose
        obtain ⟨-, rfl⟩ := Prod.mk.inj (Option.some.inj hclose)
        split <;> simp [h1]
      · rw [Device.rtDeviceClose_more _ hgt hlt] at hclose
        obtain ⟨-, rfl⟩ := Prod.mk.inj (Option.some.inj hclose)
        rfl
    exact ⟨hcounts.set (by omega), d.refCount, hget, by rw [hset, hcount]⟩

theorem DeviceOpened.all_counts (h : DeviceOpened devices r dev opened devices')
    (hcounts : Counts devices) : Counts devices' := by
  cases dev with
  | none =>
    cases h
    exact hcounts
  | some i => exact (h.counts hcounts).1

theorem DeviceClosed.all_counts (h : DeviceClosed devices r dev devices')
    (hcounts : Counts devices) : Counts devices' := by
  cases dev with
  | none =>
    cases h
    exact hcounts
  | some i => exact (h.counts hcounts).1

/-- The devices behind a mount that fails at the device or at the driver. -/
theorem failed_counts {answers : MountAnswers} (hcounts : Counts devices)
    (h : DeviceOpened devices answers.device dev false devices' ∨
      answers.mount < 0 ∧ ∃ opened, DeviceOpened devices answers.device dev true opened ∧
        DeviceClosed opened answers.device dev devices') :
    Counts devices' ∧
      (refCounts devices' = refCounts devices ↔ ¬ Unimplemented devices answers.device dev) := by
  cases dev with
  | none =>
    have hno : ¬ Unimplemented devices answers.device none := by
      rintro ⟨i, name, d, result, d', hi, -⟩
      contradiction
    obtain h | ⟨-, opened, hopen, hclose⟩ := h
    · cases h
    · cases hopen
      cases hclose
      exact ⟨hcounts, iff_of_true rfl hno⟩
  | some i =>
    obtain hopen | ⟨-, opened, hopen, hclose⟩ := h
    · obtain ⟨hcounts', k, n, hget, hset, hcase⟩ := hopen.counts hcounts
      refine ⟨hcounts', ?_⟩
      obtain ⟨rfl, -, hno⟩ | ⟨rfl, hfalse | hun⟩ := hcase
      · rw [hset, Nat.add_zero]
        exact iff_of_true (List.set_self_of_getElem? hget) hno
      · contradiction
      · refine iff_of_false (fun he => ?_) (not_not_intro hun)
        have hlt := (List.getElem?_eq_some_iff.mp hget).1
        rw [hset] at he
        have hi := congrArg (·[i]?) he
        simp only [List.getElem?_set_self hlt, hget, Option.some.injEq] at hi
        omega
    · obtain ⟨hcounts₁, k, n, hget, hset, hcase⟩ := hopen.counts hcounts
      obtain ⟨hcounts', k', hget', hset'⟩ := hclose.counts hcounts₁
      refine ⟨hcounts', iff_of_true ?_ hopen.not_unimplemented⟩
      have hn : n = 1 := by
        obtain ⟨-, hfalse, -⟩ | ⟨hn, -⟩ := hcase
        · contradiction
        · exact hn
      have hlt := (List.getElem?_eq_some_iff.mp hget).1
      rw [hset, List.getElem?_set_self hlt, Option.some.injEq] at hget'
      rw [hset', hset, List.set_set, ← hget', hn, Nat.add_sub_cancel]
      exact List.set_self_of_getElem? hget

end

end MountSystem

namespace MountTableState
open MountSystem

variable (types : List (Option FilesystemOperation))

def step (s : MountTableState) : MountInput → Option (MountTableState × ℤ)
  | .mount workingDirectory deviceName path type answers =>
    (dfsMount types s.sys workingDirectory.text deviceName path.text type answers).map
      fun (result, sys) => (⟨sys, s.broken || (result = -1 ∧ ¬ s.sys.SameAs sys)⟩, result)
  | .unmount workingDirectory specialfile answers =>
    (s.sys.dfsUnmount workingDirectory.text specialfile.text answers).map
      fun (result, sys) => (⟨sys, s.broken⟩, result)

def machine : Machine MountTableState MountInput ℤ := ⟨step types⟩

/-- Nothing is mounted, and the devices are as they are registered. -/
def initial (devices : List (List Char × BitVec 16)) : MountTableState where
  sys :=
    { entries := List.replicate dfsFilesystemsMax .zero
      devices := devices.map fun dev => (dev.1, Device.rtDeviceRegister () dev.2)
      live := []
      next := 0 }
  broken := false

/-- The paths are different, and no failed mount has left anything behind. -/
def Good (s : MountTableState) : Prop := s.broken = false ∧ Distinct s.sys.entries

/-- The condition on a call. -/
def CallOk (s : MountTableState) : MountInput → Prop
  | .mount workingDirectory deviceName path type answers =>
    ∀ dev ops fullpath, s.sys.Starts types workingDirectory.text deviceName path.text type answers
      dev ops fullpath → MountOk s.sys workingDirectory.text dev path.text fullpath answers
  | .unmount _ _ _ => True

/-! ## The invariant -/

/-- An entry that is not in use is empty. -/
structure Inv (s : MountTableState) : Prop where
  unbroken : s.broken = false
  distinct : Distinct s.sys.entries
  empty : ∀ entry ∈ s.sys.entries, entry.ops = none → entry = .zero
  counts : Counts s.sys.devices

section
variable {types : List (Option FilesystemOperation)} {s s' : MountTableState} {i : MountInput}
  {o : ℤ} {sys : MountSystem} {fs : ℕ} {path : List Char}

theorem inv_initial (devices : List (List Char × BitVec 16)) : (initial devices).Inv := by
  refine ⟨rfl, ⟨fun entry hentry hops => ?_, ?_⟩, fun entry hentry _ => ?_, fun dev hdev => ?_⟩
  · obtain rfl := List.eq_of_mem_replicate hentry
    exact absurd rfl hops
  · refine List.pairwise_of_forall_mem_list fun entry hentry _ _ hops => ?_
    obtain rfl := List.eq_of_mem_replicate hentry
    exact absurd rfl hops
  · exact List.eq_of_mem_replicate hentry
  · obtain ⟨dev', -, rfl⟩ := List.mem_map.mp hdev
    exact Nat.zero_lt_succ _

/-- The search finds an empty entry. -/
theorem Inv.searched (h : s.Inv) (hsearch : searchEntry path s.sys.entries 0 none = some (some fs)) :
    s.sys.entries[fs]? = some .zero := by
  obtain hnone | ⟨-, entry, hentry, hops⟩ := searchEntry_some hsearch
  · contradiction
  · rw [Nat.sub_zero] at hentry
    rwa [← h.empty entry (List.mem_of_getElem? hentry) hops]

theorem Inv.set_zero (h : s.Inv) (hsearch : searchEntry path s.sys.entries 0 none = some (some fs)) :
    s.sys.entries.set fs .zero = s.sys.entries :=
  List.set_self_of_getElem? (h.searched hsearch)

/-- Replacing an entry keeps the paths different when it is emptied or gets a new path. -/
theorem distinct_set {entries : List MountEntry} {entry : MountEntry} (h : Distinct entries)
    (hnew : entry.ops ≠ none → (∃ text, entry.text = some text ∧ Normal text) ∧
      ∀ entry' ∈ entries, entry'.ops ≠ none → entry'.text ≠ entry.text) :
    Distinct (entries.set fs entry) := by
  refine ⟨fun entry' hentry' hops => ?_, ?_⟩
  · rcases List.mem_or_eq_of_mem_set hentry' with hentry' | rfl
    · exact h.normal entry' hentry' hops
    · exact (hnew hops).1
  · rw [List.pairwise_iff_getElem]
    intro i j hi hj hlt hops hops'
    simp only [List.length_set] at hi hj
    simp only [List.getElem_set] at hops hops' ⊢
    by_cases hfi : fs = i
    · have hfj : fs ≠ j := by omega
      rw [if_pos hfi] at hops ⊢
      rw [if_neg hfj] at hops' ⊢
      exact fun he => (hnew hops).2 _ (List.getElem_mem hj) hops' he.symm
    · rw [if_neg hfi] at hops ⊢
      by_cases hfj : fs = j
      · rw [if_pos hfj] at hops' ⊢
        exact (hnew hops').2 _ (List.getElem_mem hi) hops
      · rw [if_neg hfj] at hops' ⊢
        exact List.pairwise_iff_getElem.mp h.different i j hi hj hlt hops hops'

theorem text_ne_of_distinct {entries : List MountEntry} {j k : ℕ} {entry entry' : MountEntry}
    (h : Distinct entries) (hj : entries[j]? = some entry) (hk : entries[k]? = some entry')
    (hne : j ≠ k)
    (hops : entry.ops ≠ none) (hops' : entry'.ops ≠ none) : entry.text ≠ entry'.text := by
  obtain ⟨hjlt, rfl⟩ := List.getElem?_eq_some_iff.mp hj
  obtain ⟨hklt, rfl⟩ := List.getElem?_eq_some_iff.mp hk
  rcases Nat.lt_or_gt_of_ne hne with hlt | hlt
  · exact List.pairwise_iff_getElem.mp h.different j k hjlt hklt hlt hops hops'
  · exact (List.pairwise_iff_getElem.mp h.different k j hklt hjlt hlt hops' hops).symm

/-- A set entry shows that its path is new. -/
theorem fresh_of_distinct {entries : List MountEntry} {entry : MountEntry}
    {fullpath : List Char} (h : Distinct (entries.set fs entry)) (hfs : entries[fs]? = some .zero)
    (hops : entry.ops ≠ none) (htext : entry.text = some fullpath) :
    Normal fullpath ∧ ∀ entry' ∈ entries, entry'.ops ≠ none → entry'.text ≠ some fullpath := by
  obtain ⟨hlt, he⟩ := List.getElem?_eq_some_iff.mp hfs
  constructor
  · obtain ⟨text, htext', hnormal⟩ := h.normal entry (List.mem_set hlt entry) hops
    rwa [Option.some.inj (htext.symm.trans htext')]
  · intro entry' hentry' hops' htext'
    obtain ⟨j, hj⟩ := List.mem_iff_getElem?.mp hentry'
    have hne : fs ≠ j := by
      rintro rfl
      rw [hfs] at hj
      obtain rfl := Option.some.inj hj
      exact hops' rfl
    have hset : (entries.set fs entry)[fs]? = some entry := List.getElem?_set_self hlt
    have hset' : (entries.set fs entry)[j]? = some entry' := by
      rwa [List.getElem?_set_ne hne]
    exact text_ne_of_distinct h hset hset' hne hops hops' (htext.trans htext'.symm)

/-! ## One call -/

/-- The call has not found its device, its type or its path. -/
theorem callOk_of_not_starts {workingDirectory path : CString} {deviceName : Option (List Char)}
    {type : List Char} {answers : MountAnswers}
    (h : ¬ ∃ dev ops fullpath, s.sys.Starts types workingDirectory.text deviceName path.text type
      answers dev ops fullpath) :
    CallOk types s (.mount workingDirectory deviceName path type answers) :=
  fun dev ops fullpath hstarts => absurd ⟨dev, ops, fullpath, hstarts⟩ h

theorem callOk_iff {workingDirectory path : CString} {deviceName : Option (List Char)}
    {type fullpath : List Char} {answers : MountAnswers} {dev : Option ℕ}
    {ops : FilesystemOperation}
    (h : s.sys.Starts types workingDirectory.text deviceName path.text type answers dev ops
      fullpath) :
    CallOk types s (.mount workingDirectory deviceName path type answers) ↔
      MountOk s.sys workingDirectory.text dev path.text fullpath answers := by
  refine ⟨fun hok => hok dev ops fullpath h, fun hok dev' ops' fullpath' h' => ?_⟩
  obtain rfl := Option.some.inj (h.device.symm.trans h'.device)
  obtain rfl := Option.some.inj (Option.some.inj (h.text.symm.trans h'.text))
  exact hok

/-- Without a completed mount a leaked block is left behind. -/
theorem leaked_eq_nil {workingDirectory fullpath : List Char} {answers : MountAnswers}
    {leaked : List ℕ} {block : ℕ} {dev : Option ℕ}
    (hok : MountOk sys workingDirectory dev path fullpath answers)
    (hleaked : sys.Leaked workingDirectory fullpath answers block leaked)
    (hno : ¬ Completes sys workingDirectory dev path fullpath answers) : leaked = [] := by
  obtain ⟨-, rfl⟩ | ⟨hleaks, -⟩ := hleaked
  · rfl
  · exact absurd (hok.closes hleaks) hno

theorem not_leaks {workingDirectory fullpath : List Char} {answers : MountAnswers}
    {leaked : List ℕ} {block : ℕ}
    (hleaked : sys.Leaked workingDirectory fullpath answers block leaked)
    (hlive : leaked ++ sys.live = sys.live) :
    ¬ sys.ProbeLeaks workingDirectory fullpath answers := by
  obtain ⟨hno, -⟩ | ⟨-, rfl⟩ := hleaked
  · exact hno
  · simp at hlive

/-- A device that is opened is not opened in another way. -/
theorem not_completes_of_failed {workingDirectory fullpath : List Char} {answers : MountAnswers}
    {dev : Option ℕ} {devices : List (List Char × Device Unit)}
    (h : DeviceOpened sys.devices answers.device dev false devices ∨
      answers.mount < 0 ∧ ∃ opened, DeviceOpened sys.devices answers.device dev true opened ∧
        DeviceClosed opened answers.device dev devices) :
    ¬ Completes sys workingDirectory dev path fullpath answers := by
  intro hcompletes
  obtain hopen | ⟨hneg, -⟩ := h
  · obtain ⟨devices', hopen'⟩ := hcompletes.device
    exact Bool.noConfusion (hopen.deterministic hopen')
  · have := hcompletes.driver
    omega

theorem Inv.step (h : s.Inv) (hok : CallOk types s i)
    (hs : (machine types).step s i = some (s', o)) : s'.Inv := by
  cases i with
  | mount workingDirectory deviceName path type answers =>
    obtain ⟨⟨result, sys⟩, hmount, he⟩ := Option.map_eq_some_iff.mp hs
    obtain ⟨rfl, rfl⟩ := Prod.mk.inj he
    have hunbroken : ∀ {sys'}, s.sys.SameAs sys' →
        (s.broken || decide (result = -1 ∧ ¬ s.sys.SameAs sys')) = false := by
      intro sys' hsame
      simp [h.unbroken, hsame]
    obtain ⟨rfl, rfl, -⟩ | ⟨dev, ops, fullpath, hstarts, hcase⟩ := dfsMount_cases hmount
    · exact ⟨hunbroken ⟨rfl, rfl, rfl⟩, h.distinct, h.empty, h.counts⟩
    · have hok := (callOk_iff hstarts).mp hok
      cases hcase with
      | unfound => exact ⟨hunbroken ⟨rfl, rfl, rfl⟩, h.distinct, h.empty, h.counts⟩
      | unplaced _ hleaked _ _ hsearch =>
        have hno := leaked_eq_nil hok hleaked fun hc => by
          obtain ⟨fs, hfs⟩ := hc.places
          exact hsearch fs hfs
        subst hno
        exact ⟨hunbroken ⟨rfl, rfl, rfl⟩, h.distinct, h.empty, h.counts⟩
      | failed hfinds hleaked _ _ hsearch hdevices =>
        have hno := leaked_eq_nil hok hleaked (not_completes_of_failed hdevices)
        subst hno
        obtain ⟨hcounts, hsame⟩ := failed_counts h.counts hdevices
        have hzero := h.set_zero hsearch
        refine ⟨hunbroken ⟨hzero, hsame.mpr (hok.implemented hfinds ⟨_, hsearch⟩), rfl⟩, ?_, ?_,
          hcounts⟩
        · exact distinct_set h.distinct fun hops => absurd rfl hops
        · simp only [hzero]
          exact h.empty
      | @mounted next fs leaked devices hfinds _ _ _ hsearch hdevices hdriver =>
        obtain ⟨hnormal, hfresh⟩ := hok.fresh ⟨hfinds, ⟨fs, hsearch⟩, ⟨devices, hdevices⟩, hdriver⟩
        refine ⟨by simp [h.unbroken], ?_, ?_, hdevices.all_counts h.counts⟩
        · exact distinct_set h.distinct fun _ => ⟨⟨fullpath, rfl, hnormal⟩, hfresh⟩
        · intro entry hentry hops
          rcases List.mem_or_eq_of_mem_set hentry with hentry | rfl
          · exact h.empty entry hentry hops
          · contradiction
  | unmount workingDirectory specialfile answers =>
    obtain ⟨⟨result, sys⟩, hunmount, he⟩ := Option.map_eq_some_iff.mp hs
    obtain ⟨rfl, rfl⟩ := Prod.mk.inj he
    cases dfsUnmount_cases hunmount with
    | failed => exact ⟨h.unbroken, h.distinct, h.empty, h.counts⟩
    | unmounted _ _ hdevices =>
      refine ⟨h.unbroken, distinct_set h.distinct fun hops => absurd rfl hops, ?_,
        hdevices.all_counts h.counts⟩
      intro entry hentry hops
      rcases List.mem_or_eq_of_mem_set hentry with hentry | rfl
      · exact h.empty entry hentry hops
      · rfl

/-- What a call leaves behind shows that it has not met the condition. -/
theorem Inv.ok (h : s.Inv) (hs : (machine types).step s i = some (s', o)) (hgood : s'.Good) :
    CallOk types s i := by
  cases i with
  | unmount => trivial
  | mount workingDirectory deviceName path type answers =>
    obtain ⟨⟨result, sys⟩, hmount, he⟩ := Option.map_eq_some_iff.mp hs
    obtain ⟨rfl, rfl⟩ := Prod.mk.inj he
    obtain ⟨hunbroken, hdistinct⟩ := hgood
    have hsame : result = -1 → s.sys.SameAs sys := by
      intro hresult
      simpa [h.unbroken, hresult] using hunbroken
    obtain ⟨-, -, hno⟩ | ⟨dev, ops, fullpath, hstarts, hcase⟩ := dfsMount_cases hmount
    · exact callOk_of_not_starts hno
    · rw [callOk_iff hstarts]
      cases hcase with
      | unfound hfinds =>
        exact ⟨fun hc => absurd hc.finds hfinds, fun hl => absurd hl.finds hfinds,
          fun hf => absurd hf hfinds⟩
      | unplaced hfinds hleaked _ _ hsearch =>
        have hplaces : ¬ Places s.sys path.text := fun ⟨fs, hfs⟩ => hsearch fs hfs
        exact ⟨fun hc => absurd hc.places hplaces,
          fun hl => absurd hl (not_leaks hleaked (hsame rfl).2.2), fun _ hp => absurd hp hplaces⟩
      | failed hfinds hleaked _ _ hsearch hdevices =>
        have hno : ¬ Completes s.sys workingDirectory.text dev path.text fullpath answers :=
          not_completes_of_failed hdevices
        exact ⟨fun hc => absurd hc hno,
          fun hl => absurd hl (not_leaks hleaked (hsame rfl).2.2),
          fun _ _ => (failed_counts h.counts hdevices).2.mp (hsame rfl).2.1⟩
      | @mounted next fs leaked devices hfinds _ _ _ hsearch hdevices hdriver =>
        have hc : Completes s.sys workingDirectory.text dev path.text fullpath answers :=
          ⟨hfinds, ⟨fs, hsearch⟩, ⟨devices, hdevices⟩, hdriver⟩
        exact ⟨fun _ => fresh_of_distinct hdistinct (h.searched hsearch) (by simp) rfl,
          fun _ => hc, fun _ _ => hdevices.not_unimplemented⟩

end
/-- Two disks with the drivers that answer every call. -/
def twoDisks : MountTableState := initial [("sd0".toList, 0x003), ("flash0".toList, 0x003)]

def willing : MountAnswers := ⟨true, ⟨fun _ => true, fun _ => 0⟩, .zero, ⟨none, none, none⟩, 0⟩

end MountTableState
end RtThread
