import Mathlib.Data.BitVec
import Mathlib.Data.Finset.Card
import Mathlib.Data.List.Infix
import RtThread.Filesystems.DfsFs
import RtThread.Kernel.Device

/-!
# Types of file systems

`dfs_register` stores the operations of a type in the first empty slot of
`filesystem_operation_table`, and `dfs_mount` looks for a type by its name. The slots that are in
use stand before the empty ones.
-/
namespace RtThread

def dfsFilesystemTypesMax : ℕ := 4

def dfsStatusEnoent : ℤ := 2
def dfsStatusEbusy : ℤ := 16
def dfsStatusExdev : ℤ := 18
def dfsStatusEnodev : ℤ := 19
def dfsStatusEinval : ℤ := 22
def dfsStatusEnosys : ℤ := 38

def dfsFsFlagFullpath : BitVec 32 := 0x01

/-- `struct dfs_filesystem_operation`, with the functions that the driver has. -/
structure FilesystemOperation where
  name : List Char
  flags : BitVec 32
  hasMount : Bool
  hasUnmount : Bool
  hasOpen : Bool
  hasClose : Bool
  hasUnlink : Bool
  hasStat : Bool
  hasRename : Bool
  deriving DecidableEq

/-- `ops->flags & DFS_FS_FLAG_FULLPATH`. -/
def FilesystemOperation.fullpath (ops : FilesystemOperation) : Bool :=
  ops.flags &&& dfsFsFlagFullpath != 0#32

/-- The loop of `dfs_register` from slot `i` on, with `empty` and `ret` at its end. -/
def registerLoop (name : List Char) :
    List (Option FilesystemOperation) → ℕ → Option ℕ → Option ℕ × ℤ
  | [], _, empty => (empty, rtEok)
  | none :: table, i, empty =>
    registerLoop name table (i + 1) (if empty = none then some i else empty)
  | some ops :: table, i, empty =>
    if ops.name = name then (empty, -1) else registerLoop name table (i + 1) empty

def dfsRegister (table : List (Option FilesystemOperation)) (ops : FilesystemOperation) :
    ℤ × List (Option FilesystemOperation) :=
  let (empty, ret) := registerLoop ops.name table 0 none
  match empty with
  | some i => (ret, if ret = rtEok then table.set i (some ops) else table)
  | none => (ret, table)

/-- The search of `dfs_mount`: `none` reads the name through an empty slot, the inner `none` has
passed the table. The test of the source is on the address of the slot, which is never `NULL`. -/
def searchType (name : List Char) :
    List (Option FilesystemOperation) → Option (Option FilesystemOperation)
  | [] => some none
  | none :: _ => none
  | some ops :: table => if ops.name = name then some (some ops) else searchType name table

/-- What `dfs_mount` has when it has looked for the type. -/
inductive TypeFound where
  | failed (result errno : ℤ)
  | found (ops : FilesystemOperation)
  deriving DecidableEq

/-- The part of `dfs_mount` that finds the type. -/
def findType (table : List (Option FilesystemOperation)) (name : List Char) : Option TypeFound :=
  (searchType name table).map fun
    | none => .failed (-1) (-dfsStatusEnodev)
    | some ops => if ops.hasMount then .found ops else .failed (-1) (-dfsStatusEnosys)

/-- The table after the calls of `dfs_register`. -/
def registered (n : ℕ) (calls : List FilesystemOperation) : List (Option FilesystemOperation) :=
  calls.foldl (fun table ops => (dfsRegister table ops).2) (List.replicate n none)

/-- What registering is for: a call that returns `RT_EOK` has stored its operations, and of the
types in the table exactly those are found that have the name. -/
structure TypesServed (n : ℕ) (calls : List FilesystemOperation) : Prop where
  stored : ∀ before ops rest, calls = before ++ ops :: rest →
    (dfsRegister (registered n before) ops).1 = rtEok →
      some ops ∈ (dfsRegister (registered n before) ops).2
  present : ∀ ops, some ops ∈ registered n calls → findType (registered n calls) ops.name =
    some (if ops.hasMount then .found ops else .failed (-1) (-dfsStatusEnosys))
  absent : ∀ name, (∀ ops, some ops ∈ registered n calls → ops.name ≠ name) →
    findType (registered n calls) name = some (.failed (-1) (-dfsStatusEnodev))

/-- A table of `n` slots of which the first ones are in use. -/
def slots (n : ℕ) (kept : List FilesystemOperation) : List (Option FilesystemOperation) :=
  kept.map some ++ List.replicate (n - kept.length) none

section
variable {n : ℕ} {kept : List FilesystemOperation} {name : List Char} {ops : FilesystemOperation}

theorem mem_slots : some ops ∈ slots n kept ↔ ops ∈ kept := by
  simp [slots, List.mem_replicate]

/-! ## The two loops over a table -/

theorem registerLoop_empty (name : List Char) (k i : ℕ) (empty : Option ℕ) :
    registerLoop name (List.replicate k none) i empty =
      (if empty = none ∧ 0 < k then some i else empty, rtEok) := by
  induction k generalizing i empty with
  | zero => simp [registerLoop]
  | succ k ih =>
    rw [List.replicate_succ, registerLoop, ih]
    cases empty <;> simp

theorem registerLoop_slots (name : List Char) (kept : List FilesystemOperation) (k i : ℕ) :
    registerLoop name (kept.map some ++ List.replicate k none) i none =
      if ∃ ops ∈ kept, ops.name = name then (none, -1)
      else (if 0 < k then some (i + kept.length) else none, rtEok) := by
  induction kept generalizing i with
  | nil => simp [registerLoop_empty]
  | cons ops kept ih =>
    rw [List.map_cons, List.cons_append, registerLoop]
    by_cases hname : ops.name = name
    · simp [hname]
    · rw [if_neg hname, ih]
      simp [hname, Nat.add_assoc, Nat.add_comm 1]

theorem dfsRegister_known (h : ∃ ops' ∈ kept, ops'.name = ops.name) :
    dfsRegister (slots n kept) ops = (-1, slots n kept) := by
  rw [dfsRegister, slots, registerLoop_slots, if_pos h]

theorem dfsRegister_full (hnew : ¬ ∃ ops' ∈ kept, ops'.name = ops.name) (hfull : n ≤ kept.length) :
    dfsRegister (slots n kept) ops = (rtEok, slots n kept) := by
  rw [dfsRegister, slots, registerLoop_slots, if_neg hnew, if_neg (by omega)]

theorem dfsRegister_new (hnew : ¬ ∃ ops' ∈ kept, ops'.name = ops.name) (hroom : kept.length < n) :
    dfsRegister (slots n kept) ops = (rtEok, slots n (kept ++ [ops])) := by
  obtain ⟨k, hk⟩ : ∃ k, n - kept.length = k + 1 := ⟨n - kept.length - 1, by omega⟩
  have hk' : n - (kept ++ [ops]).length = k := by
    rw [List.length_append, List.length_singleton]
    omega
  rw [dfsRegister, slots, registerLoop_slots, if_neg hnew, if_pos (by omega)]
  simp only [if_true, Nat.zero_add, slots, hk, hk', Prod.mk.injEq, true_and]
  rw [List.set_append_right _ _ (by simp), List.length_map, Nat.sub_self, List.replicate_succ]
  simp

theorem searchType_slots (hroom : kept.length ≤ n) :
    searchType name (slots n kept) =
      match kept.find? (·.name = name) with
      | some ops => some (some ops)
      | none => if kept.length = n then some none else none := by
  induction kept generalizing n with
  | nil =>
    cases n with
    | zero => rfl
    | succ n => simp [slots, List.replicate_succ, searchType]
  | cons ops kept ih =>
    obtain ⟨m, rfl⟩ : ∃ m, n = m + 1 := ⟨n - 1, by simp at hroom; omega⟩
    have hslots : slots (m + 1) (ops :: kept) = some ops :: slots m kept := by simp [slots]
    rw [hslots, searchType]
    by_cases hname : ops.name = name
    · simp [hname]
    · rw [if_neg hname, ih (by simpa using hroom)]
      simp [hname]

/-! ## The table after a sequence of calls -/

/-- The slots in use hold calls with different names. -/
structure Kept (n : ℕ) (calls kept : List FilesystemOperation) : Prop where
  table : registered n calls = slots n kept
  room : kept.length ≤ n
  names : (kept.map (·.name)).Nodup
  calls : ∀ ops ∈ kept, ops ∈ calls

theorem Kept.empty (n : ℕ) : Kept n [] [] :=
  ⟨by simp [registered, slots], by simp, by simp, by simp⟩

theorem registered_concat (n : ℕ) (calls : List FilesystemOperation) (ops : FilesystemOperation) :
    registered n (calls ++ [ops]) = (dfsRegister (registered n calls) ops).2 := by
  simp [registered]

end

section
variable {n : ℕ} {calls kept : List FilesystemOperation} {ops : FilesystemOperation}

/-- One call: its name is known, or it takes a slot, or there is none left. -/
theorem Kept.register (h : Kept n calls kept) (ops : FilesystemOperation) :
    ((∃ ops' ∈ kept, ops'.name = ops.name) ∧ Kept n (calls ++ [ops]) kept ∧
      (dfsRegister (registered n calls) ops).1 ≠ rtEok) ∨
    ((∀ ops' ∈ kept, ops'.name ≠ ops.name) ∧ kept.length = n ∧ Kept n (calls ++ [ops]) kept ∧
      (dfsRegister (registered n calls) ops).1 = rtEok) ∨
    (Kept n (calls ++ [ops]) (kept ++ [ops]) ∧
      (dfsRegister (registered n calls) ops).1 = rtEok) := by
  have hcalls : ∀ ops' ∈ kept, ops' ∈ calls ++ [ops] := fun ops' hops' =>
    List.mem_append_left _ (h.calls ops' hops')
  by_cases hknown : ∃ ops' ∈ kept, ops'.name = ops.name
  · have hreg := dfsRegister_known (n := n) hknown
    rw [← h.table] at hreg
    refine .inl ⟨hknown, ⟨?_, h.room, h.names, hcalls⟩, ?_⟩
    · rw [registered_concat, hreg, h.table]
    · rw [hreg]
      simp [rtEok]
  · have hnew : ∀ ops' ∈ kept, ops'.name ≠ ops.name := fun ops' hops' he =>
      hknown ⟨ops', hops', he⟩
    rcases Nat.lt_or_eq_of_le h.room with hroom | hfull
    · have hreg := dfsRegister_new hknown hroom
      rw [← h.table] at hreg
      refine .inr (.inr ⟨⟨?_, ?_, ?_, ?_⟩, by rw [hreg]⟩)
      · rw [registered_concat, hreg]
      · rw [List.length_append, List.length_singleton]
        exact hroom
      · rw [List.map_append, List.nodup_append]
        refine ⟨h.names, by simp, fun a ha b hb => ?_⟩
        obtain ⟨ops', hops', rfl⟩ := List.mem_map.mp ha
        rw [List.map_singleton, List.mem_singleton] at hb
        exact hb ▸ hnew ops' hops'
      · intro ops' hops'
        rcases List.mem_append.mp hops' with hops' | hops'
        · exact hcalls ops' hops'
        · exact List.mem_append_right _ hops'
    · have hreg := dfsRegister_full hknown (Nat.le_of_eq hfull.symm)
      rw [← h.table] at hreg
      refine .inr (.inl ⟨hnew, hfull, ⟨?_, h.room, h.names, hcalls⟩, by rw [hreg]⟩)
      rw [registered_concat, hreg, h.table]

theorem exists_kept (n : ℕ) (calls : List FilesystemOperation) : ∃ kept, Kept n calls kept := by
  induction calls using List.reverseRecOn with
  | nil => exact ⟨[], .empty n⟩
  | append_singleton calls ops ih =>
    obtain ⟨kept, h⟩ := ih
    obtain ⟨-, h, -⟩ | ⟨-, -, h, -⟩ | ⟨h, -⟩ := h.register ops
    · exact ⟨_, h⟩
    · exact ⟨_, h⟩
    · exact ⟨_, h⟩

/-- A call that returns `RT_EOK` has stored its operations, for the whole sequence. -/
def AllStored (n : ℕ) (calls : List FilesystemOperation) : Prop :=
  ∀ before ops rest, calls = before ++ ops :: rest →
    (dfsRegister (registered n before) ops).1 = rtEok →
      some ops ∈ (dfsRegister (registered n before) ops).2

theorem AllStored.of_append {calls' : List FilesystemOperation}
    (h : AllStored n (calls ++ calls')) : AllStored n calls := by
  rintro before ops rest rfl
  exact h before ops (rest ++ calls') (by simp)

/-- When every call has stored its operations, the names in the table are those of the calls. -/
theorem AllStored.names (hstored : AllStored n calls) (h : Kept n calls kept) :
    ∀ ops ∈ calls, ∃ ops' ∈ kept, ops'.name = ops.name := by
  induction calls using List.reverseRecOn generalizing kept with
  | nil => simp
  | append_singleton calls ops ih =>
    obtain ⟨kept₀, h₀⟩ := exists_kept n calls
    have hunique : ∀ kept', Kept n (calls ++ [ops]) kept' → ∀ ops', ops' ∈ kept' ↔ ops' ∈ kept := by
      intro kept' h' ops'
      rw [← mem_slots (n := n), ← h'.table, h.table, mem_slots]
    have hold := ih hstored.of_append h₀
    intro ops' hops'
    obtain ⟨⟨ops₁, hops₁, hname⟩, h', -⟩ | ⟨hnew, hfull, h', hret⟩ | ⟨h', -⟩ := h₀.register ops
    · rcases List.mem_append.mp hops' with hops' | hops'
      · obtain ⟨ops₂, hops₂, hname₂⟩ := hold ops' hops'
        exact ⟨ops₂, (hunique _ h' _).mp hops₂, hname₂⟩
      · rw [List.mem_singleton.mp hops']
        exact ⟨ops₁, (hunique _ h' _).mp hops₁, hname⟩
    · -- the table was full
      have hmem := hstored calls ops [] rfl hret
      rw [← registered_concat, h'.table, mem_slots] at hmem
      exact absurd rfl (hnew ops hmem)
    · rcases List.mem_append.mp hops' with hops' | hops'
      · obtain ⟨ops₂, hops₂, hname₂⟩ := hold ops' hops'
        exact ⟨ops₂, (hunique _ h' _).mp (List.mem_append_left _ hops₂), hname₂⟩
      · rw [List.mem_singleton.mp hops']
        exact ⟨ops, (hunique _ h' _).mp (by simp), rfl⟩

/-! ## How many types there are -/

/-- The number of different names among the calls. -/
def typeCount (calls : List FilesystemOperation) : ℕ := (calls.map (·.name)).toFinset.card

theorem Kept.typeCount_eq (h : Kept n calls kept) : typeCount kept = kept.length := by
  rw [typeCount, List.toFinset_card_of_nodup h.names, List.length_map]

theorem Kept.subset (h : Kept n calls kept) :
    (kept.map (·.name)).toFinset ⊆ (calls.map (·.name)).toFinset := by
  intro name hname
  simp only [List.mem_toFinset, List.mem_map] at hname ⊢
  obtain ⟨ops, hops, rfl⟩ := hname
  exact ⟨ops, h.calls ops hops, rfl⟩

theorem AllStored.typeCount_eq (hstored : AllStored n calls) (h : Kept n calls kept) :
    typeCount calls = kept.length := by
  rw [← h.typeCount_eq]
  refine congrArg Finset.card (Finset.Subset.antisymm ?_ h.subset)
  intro name hname
  simp only [List.mem_toFinset, List.mem_map] at hname ⊢
  obtain ⟨ops, hops, rfl⟩ := hname
  exact hstored.names h ops hops

/-- With no more types than slots every call has a slot. -/
theorem allStored_of_typeCount (hcount : typeCount calls ≤ n) : AllStored n calls := by
  rintro before ops rest rfl hret
  obtain ⟨kept, h⟩ := exists_kept n before
  rw [← registered_concat]
  obtain ⟨-, -, hne⟩ | ⟨hnew, hfull, -, -⟩ | ⟨h', -⟩ := h.register ops
  · exact absurd hret hne
  · -- the names in the table and the new one are too many
    have hnot : ops.name ∉ (kept.map (·.name)).toFinset := by
      simp only [List.mem_toFinset, List.mem_map, not_exists, not_and]
      exact hnew
    have hcard := Finset.card_insert_of_notMem hnot
    have hsub : insert ops.name (kept.map (·.name)).toFinset ⊆
        ((before ++ ops :: rest).map (·.name)).toFinset := by
      refine Finset.insert_subset (by simp) (h.subset.trans ?_)
      intro name hname
      simp only [List.mem_toFinset, List.map_append, List.mem_append] at hname ⊢
      exact .inl hname
    have hle := Finset.card_le_card hsub
    have hkept := h.typeCount_eq
    unfold typeCount at hcount hkept
    omega
  · rw [h'.table, mem_slots]
    simp

theorem findType_slots (hroom : kept.length ≤ n) (name : List Char) :
    findType (slots n kept) name =
      match kept.find? (·.name = name) with
      | some ops => some (if ops.hasMount then .found ops else .failed (-1) (-dfsStatusEnosys))
      | none => if kept.length = n then some (.failed (-1) (-dfsStatusEnodev)) else none := by
  rw [findType, searchType_slots hroom]
  cases kept.find? (·.name = name) with
  | some ops => rfl
  | none => dsimp only; split <;> rfl

theorem find_name (hnames : (kept.map (·.name)).Nodup) (hops : ops ∈ kept) :
    kept.find? (fun ops' => ops'.name = ops.name) = some ops := by
  induction kept with
  | nil => exact absurd hops List.not_mem_nil
  | cons ops' kept ih =>
    obtain ⟨hnew, hnames⟩ := List.nodup_cons.mp hnames
    by_cases hname : ops'.name = ops.name
    · rcases List.mem_cons.mp hops with rfl | hops
      · simp
      · exact absurd (List.mem_map.mpr ⟨ops, hops, hname.symm⟩) hnew
    · rw [List.find?_cons_of_neg (by simpa using hname)]
      rcases List.mem_cons.mp hops with rfl | hops
      · exact absurd rfl hname
      · exact ih hnames hops

theorem exists_new_name (kept : List FilesystemOperation) :
    ∃ name, ∀ ops ∈ kept, ops.name ≠ name := by
  obtain ⟨name, hname⟩ := Infinite.exists_notMem_finset (kept.map (·.name)).toFinset
  refine ⟨name, fun ops hops he => hname ?_⟩
  simp only [List.mem_toFinset, List.mem_map]
  exact ⟨ops, hops, he⟩

/-- Registration and search agree exactly when the calls name as many different types as the table
has slots: with more a type gets no slot, with less the search reads through an empty one. -/
theorem typesServed_iff (calls : List FilesystemOperation) :
    TypesServed dfsFilesystemTypesMax calls ↔ typeCount calls = dfsFilesystemTypesMax := by
  obtain ⟨kept, h⟩ := exists_kept dfsFilesystemTypesMax calls
  constructor
  · intro hserved
    obtain ⟨name, hname⟩ := exists_new_name kept
    have hnone : kept.find? (fun ops => ops.name = name) = none := by
      simpa [List.find?_eq_none] using hname
    have hfind := hserved.absent name fun ops hops => by
      rw [h.table, mem_slots] at hops
      exact hname ops hops
    rw [h.table, findType_slots h.room, hnone] at hfind
    rw [AllStored.typeCount_eq hserved.stored h]
    by_contra hlen
    simp [hlen] at hfind
  · intro hcount
    have hstored := allStored_of_typeCount (Nat.le_of_eq hcount)
    have hlen : kept.length = dfsFilesystemTypesMax := (hstored.typeCount_eq h).symm.trans hcount
    refine ⟨hstored, fun ops hops => ?_, fun name hname => ?_⟩
    · rw [h.table, mem_slots] at hops
      rw [h.table, findType_slots h.room, find_name h.names hops]
    · have hnone : kept.find? (fun ops => ops.name = name) = none := by
        simp only [List.find?_eq_none, decide_eq_true_eq]
        exact fun ops hops => hname ops (by rw [h.table, mem_slots]; exact hops)
      rw [h.table, findType_slots h.room, hnone]
      exact if_pos hlen

def elmOperation : FilesystemOperation :=
  ⟨"elm".toList, 0, true, true, true, true, true, true, true⟩

/-- With one registered type any other name reads through an empty slot. -/
theorem unregistered_name_reads_null : ¬ TypesServed dfsFilesystemTypesMax [elmOperation] := by
  intro h
  have habsent : ∀ ops, some ops ∈ registered dfsFilesystemTypesMax [elmOperation] →
      ops.name ≠ "rom".toList := by
    intro ops hops
    rw [show registered dfsFilesystemTypesMax [elmOperation] = slots 4 [elmOperation] by decide,
      mem_slots, List.mem_singleton] at hops
    rw [hops]
    decide
  have hfind := h.absent "rom".toList habsent
  revert hfind
  decide

end
end RtThread
