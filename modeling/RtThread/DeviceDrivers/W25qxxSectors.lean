import RtThread.DeviceDrivers.W25qxx
import Mathlib.Tactic.Common
import Mathlib.Tactic.NormNum

/-!
# Sectors of the flash

Each procedure of the driver leads from an idle chip to an idle chip whose bytes are known.
The addresses of the pages stay aligned, so a program command never wraps inside its page,
and they stay below the capacity, so three bytes hold them.
-/
namespace RtThread.W25qxx
open Procedures

variable {env : W25Env} {s s' : W25Chip}

/-! ## Frames -/

theorem returns_spiFrame {sent : List UInt8} {n : ℕ} {recv : List UInt8} :
    (spiFrame env sent n).Returns s recv s' ↔
      recv = (s.frame env sent n).1 ∧ s' = (s.frame env sent n).2 := by
  unfold spiFrame
  rw [Proc.returns_bind_of (Proc.returns_read.mpr ⟨rfl, rfl⟩),
    Proc.returns_bind_of (a := ()) (Proc.returns_modify.mpr rfl), Proc.returns_pure]

theorem returns_rtSpiSend {sent : List UInt8} :
    (rtSpiSend env sent).Returns s () s' ↔ s' = (s.frame env sent 0).2 := by
  unfold rtSpiSend
  rw [Proc.returns_bind_of (returns_spiFrame.mpr ⟨rfl, rfl⟩), Proc.returns_pure]
  exact and_iff_right rfl

theorem readStatus_returns :
    (readStatus env).Returns s s.statusByte { s with busy := s.busy - 1 } := by
  unfold readStatus rtSpiSendrecv8 rtSpiSendThenRecv
  rw [Proc.returns_bind_of (returns_spiFrame.mpr ⟨rfl, rfl⟩), Proc.returns_pure]
  exact ⟨rfl, rfl⟩

theorem statusByte_busy : s.statusByte &&& 0x01 ≠ 0 ↔ 0 < s.busy := by
  have hbits : ∀ busy writeEnabled : Bool, ((if busy then 0x01 else (0 : UInt8)) |||
      (if writeEnabled then 0x02 else 0)) &&& 0x01 ≠ 0 ↔ busy = true := by decide
  simpa [W25Chip.statusByte] using hbits (decide (0 < s.busy)) s.writeEnabled

/-- The wait ends, whatever time the chip takes. -/
theorem waitBusy_returns : (waitBusy env).Returns s () { s with busy := 0 } := by
  obtain ⟨data, writeEnabled, busy, operations⟩ := s
  unfold waitBusy
  induction busy with
  | zero =>
    refine Proc.returns_loop.mpr (.inl ?_)
    rw [Proc.returns_bind_of readStatus_returns, if_neg (by rw [statusByte_busy]; simp)]
    exact Proc.returns_pure.mpr ⟨rfl, rfl⟩
  | succ busy ih =>
    refine Proc.returns_loop.mpr (.inr ⟨(), ⟨data, writeEnabled, busy, operations⟩, ?_, ih⟩)
    rw [Proc.returns_bind_of readStatus_returns, if_pos (by rw [statusByte_busy]; simp)]
    exact Proc.returns_pure.mpr ⟨rfl, rfl⟩

/-! ## Commands to an idle chip -/

/-- The chip is ready for a command and holds these bytes. -/
def Idle (data : ℕ → UInt8) (s : W25Chip) : Prop := s.busy = 0 ∧ s.data = data

variable {data : ℕ → UInt8}

theorem frame_idle (hs : s.busy = 0) {cmd : UInt8} (hcmd : cmd ≠ cmdRdsr1) (args : List UInt8)
    (n : ℕ) : s.frame env (cmd :: args) n = s.execute env cmd args n := by
  rw [W25Chip.frame, if_neg hcmd, if_neg (by omega)]

theorem wren_idle (hs : Idle data s) :
    (rtSpiSend env [cmdWren]).Returns s () { s with writeEnabled := true } := by
  rw [returns_rtSpiSend, frame_idle hs.1 (by decide)]
  rfl

theorem wrdi_idle (hs : Idle data s) :
    (rtSpiSend env [cmdWrdi]).Returns s () { s with writeEnabled := false } := by
  rw [returns_rtSpiSend, frame_idle hs.1 (by decide)]
  rfl

theorem execute_erase4K (hwe : s.writeEnabled = true) (a b c : UInt8) :
    (s.execute env cmdErase4K [a, b, c] 0).2 =
      s.started env (W25Chip.erased s.data (W25Chip.address env a b c)) := by
  simp only [W25Chip.execute, hwe, if_pos]
  rfl

theorem execute_pp (hwe : s.writeEnabled = true) (a b c : UInt8) (bytes : List UInt8) :
    (s.execute env cmdPp (a :: b :: c :: bytes) 0).2 =
      s.started env (W25Chip.programmed (W25Chip.address env a b c) 0 bytes s.data) := by
  simp only [W25Chip.execute, hwe, if_pos]
  rfl

/-- Write enable, an operation and the wait for it. -/
theorem operation_idle (env : W25Env) (cmd : UInt8) (args : List UInt8) (data' : ℕ → UInt8)
    (hs : Idle data s) (hcmd : cmd ≠ cmdRdsr1)
    (hop : ∀ t : W25Chip, t.writeEnabled = true → t.data = data →
      (t.execute env cmd args 0).2 = t.started env data') :
    ∃ t, Idle data' t ∧ ∀ {α : Type} {k : FlashProc α} {a : α} {t' : W25Chip},
      k.Returns t a t' →
      (do rtSpiSend env [cmdWren]; rtSpiSend env (cmd :: args); waitBusy env; k :
        FlashProc α).Returns s a t' := by
  let enabled : W25Chip := { s with writeEnabled := true }
  have hsent : (rtSpiSend env (cmd :: args)).Returns enabled () (enabled.started env data') := by
    rw [returns_rtSpiSend, frame_idle (show enabled.busy = 0 from hs.1) hcmd, hop enabled rfl hs.2]
  refine ⟨{ enabled.started env data' with busy := 0 }, ⟨rfl, rfl⟩, fun hk => ?_⟩
  rw [Proc.returns_bind_of (wren_idle hs), Proc.returns_bind_of hsent,
    Proc.returns_bind_of waitBusy_returns]
  exact hk

/-! ## Addresses -/

/-- Three bytes hold an address below the capacity. -/
theorem address_bytes (hcap : env.capacity ≤ 2 ^ 24) {addr : ℕ} (haddr : addr < env.capacity) :
    W25Chip.address env (UInt8.ofNat (addr / 65536)) (UInt8.ofNat (addr / 256))
      (UInt8.ofNat addr) = addr := by
  have hbyte : ∀ n, (UInt8.ofNat n).toNat = n % 256 := fun n => rfl
  rw [W25Chip.address, hbyte, hbyte, hbyte, Nat.mod_eq_of_lt (by omega)]
  omega

/-- From an aligned address the bytes fill the page from its start. -/
theorem programmed_apply {addr : ℕ} (haddr : addr % 256 = 0) (bytes : List UInt8) (i : ℕ)
    (hlen : i + bytes.length ≤ 256) (data : ℕ → UInt8) (a : ℕ) :
    W25Chip.programmed addr i bytes data a =
      if addr + i ≤ a ∧ a < addr + i + bytes.length then data a &&& bytes.getD (a - (addr + i)) 0
      else data a := by
  induction bytes generalizing i data with
  | nil =>
    rw [W25Chip.programmed, if_neg (by simp)]
  | cons byte bytes ih =>
    rw [List.length_cons] at hlen ⊢
    have hcell : addr / 256 * 256 + (addr + i) % 256 = addr + i := by omega
    rw [W25Chip.programmed, hcell, ih (i + 1) (by omega)]
    by_cases heq : a = addr + i
    · subst heq
      rw [if_neg (by omega), if_pos (by omega), Function.update_self, Nat.sub_self,
        List.getD_cons_zero]
    · rw [Function.update_of_ne heq]
      by_cases hin : addr + (i + 1) ≤ a ∧ a < addr + (i + 1) + bytes.length
      · rw [if_pos hin, if_pos (by omega),
          show a - (addr + i) = a - (addr + (i + 1)) + 1 by omega, List.getD_cons_succ]
      · rw [if_neg hin, if_neg (by omega)]

/-! ## The driver -/

/-- A range of bytes was changed by a function of the old byte and the place in the range. -/
def changed (start n : ℕ) (f : UInt8 → ℕ → UInt8) (data : ℕ → UInt8) : ℕ → UInt8 :=
  fun a => if start ≤ a ∧ a < start + n then f (data a) (a - start) else data a

theorem changed_zero (start : ℕ) (f : UInt8 → ℕ → UInt8) (data : ℕ → UInt8) :
    changed start 0 f data = data := funext fun a => if_neg (by omega)

/-- A range is changed in two parts. -/
theorem changed_add (start m n : ℕ) (f : UInt8 → ℕ → UInt8) (data : ℕ → UInt8) :
    changed (start + m) n (fun b i => f b (m + i)) (changed start m f data) =
      changed start (m + n) f data := by
  funext a
  unfold changed
  by_cases hfst : start ≤ a ∧ a < start + m
  · rw [if_neg (by omega), if_pos hfst, if_pos (by omega)]
  · rw [if_neg hfst]
    by_cases hsnd : start + m ≤ a ∧ a < start + m + n
    · rw [if_pos hsnd, if_pos (by omega)]
      exact congrArg (f (data a)) (show m + (a - (start + m)) = a - start by omega)
    · rw [if_neg hsnd, if_neg (by omega)]

theorem changed_congr {start n : ℕ} {f g : UInt8 → ℕ → UInt8}
    (h : ∀ b, ∀ i < n, f b i = g b i) (data : ℕ → UInt8) :
    changed start n f data = changed start n g data := by
  funext a
  unfold changed
  split
  · exact h _ _ (by omega)
  · rfl

theorem sector_le {i n : ℕ} (m : ℕ) (h : i < n) : i * m + m ≤ n * m := by
  rw [← Nat.succ_mul]
  exact Nat.mul_le_mul_right m h

theorem le_length_drop {n m : ℕ} {l : List UInt8} (h : (n + 1) * m ≤ l.length) :
    n * m ≤ (l.drop m).length := by
  rw [Nat.succ_mul] at h
  rw [List.length_drop]
  exact Nat.le_sub_of_add_le h

/-- One page is programmed. -/
theorem pp_idle (hcap : env.capacity ≤ 2 ^ 24) {addr : ℕ} {bytes : List UInt8} (hs : Idle data s)
    (haddr : addr % 256 = 0) (hfits : addr < env.capacity) (hlen : bytes.length = 256) :
    ∃ t, Idle (changed addr 256 (fun b i => b &&& bytes.getD i 0) data) t ∧
      ∀ {α : Type} {k : FlashProc α} {a : α} {t' : W25Chip}, k.Returns t a t' →
        (do rtSpiSend env [cmdWren]; rtSpiSendThenSend env (addressed cmdPp addr) bytes
            waitBusy env; k : FlashProc α).Returns s a t' := by
  refine operation_idle env cmdPp _ _ hs (by decide) fun u hwe hdata => ?_
  refine (execute_pp hwe _ _ _ bytes).trans ?_
  rw [address_bytes hcap hfits, hdata]
  congr 1
  funext a
  rw [programmed_apply haddr bytes 0 (by omega), changed, hlen]
  rfl

theorem programPages_idle (hcap : env.capacity ≤ 2 ^ 24) (pages : ℕ) :
    ∀ {s : W25Chip} {data : ℕ → UInt8} {addr : ℕ} {buffer : List UInt8}, Idle data s →
      addr % 256 = 0 → addr + pages * 256 ≤ env.capacity → pages * 256 ≤ buffer.length →
      ∃ s', (programPages env pages addr buffer).Returns s () s' ∧
        Idle (changed addr (pages * 256) (fun b i => b &&& buffer.getD i 0) data) s' := by
  induction pages with
  | zero =>
    intro s data addr buffer hs _ _ _
    refine ⟨s, Proc.returns_pure.mpr ⟨rfl, rfl⟩, ?_⟩
    rwa [Nat.zero_mul, changed_zero]
  | succ pages ih =>
    intro s data addr buffer hs haddr hfits hlen
    have htake : (buffer.take 256).length = 256 := by
      rw [List.length_take]
      omega
    obtain ⟨t, ht, hrun⟩ := pp_idle hcap hs haddr (by omega) htake
    have hnext : (addr + 256) % 2 ^ 32 = addr + 256 := Nat.mod_eq_of_lt (by omega)
    obtain ⟨s', hs', hidle⟩ := @ih t _ ((addr + 256) % 2 ^ 32) (buffer.drop 256) ht
      (by rw [hnext]; omega) (by rw [hnext]; omega) (le_length_drop hlen)
    refine ⟨s', hrun hs', ?_⟩
    have hbefore : changed addr 256 (fun b i => b &&& (buffer.take 256).getD i 0) data =
        changed addr 256 (fun b i => b &&& buffer.getD i 0) data := by
      refine changed_congr (fun b i hi => ?_) data
      rw [List.getD_eq_getElem?_getD, List.getD_eq_getElem?_getD, List.getElem?_take_of_lt hi]
    have hbehind : (fun (b : UInt8) i => b &&& (buffer.drop 256).getD i 0) =
        fun b i => b &&& buffer.getD (256 + i) 0 := by
      funext b i
      rw [List.getD_eq_getElem?_getD, List.getD_eq_getElem?_getD, List.getElem?_drop]
    rw [hnext, hbefore, hbehind,
      changed_add addr 256 (pages * 256) (fun b i => b &&& buffer.getD i 0)] at hidle
    rwa [show (pages + 1) * 256 = 256 + pages * 256 by omega]

/-- A sector is erased and filled with the bytes of the buffer. -/
theorem pageWrite_idle (hcap : env.capacity ≤ 2 ^ 24) {addr : ℕ} {buffer : List UInt8}
    (hs : Idle data s) (haddr : addr % 4096 = 0) (hfits : addr + 4096 ≤ env.capacity)
    (hlen : 4096 ≤ buffer.length) :
    ∃ s', (pageWrite env addr buffer).Returns s () s' ∧
      Idle (changed addr 4096 (fun _ i => buffer.getD i 0) data) s' := by
  obtain ⟨t, ht, hrun⟩ := operation_idle env cmdErase4K
    [UInt8.ofNat (addr / 65536), UInt8.ofNat (addr / 256), UInt8.ofNat addr]
    (W25Chip.erased data addr) hs (by decide) (fun u hwe hdata => by
      rw [execute_erase4K hwe, address_bytes hcap (by omega), hdata])
  obtain ⟨u, hu, hprog⟩ := @programPages_idle env hcap 16 t _ addr buffer ht (by omega)
    (by omega) (by omega)
  change (programPages env (w25PageSize / 256) addr buffer).Returns t () u at hu
  refine ⟨{ u with writeEnabled := false }, hrun ?_, hprog.1, hprog.2.trans (funext fun a => ?_)⟩
  · rw [Proc.returns_bind_of hu]
    exact wrdi_idle hprog
  · change changed addr 4096 _ (W25Chip.erased data addr) a = _
    unfold changed W25Chip.erased
    by_cases hin : addr ≤ a ∧ a < addr + 4096
    · rw [if_pos hin, if_pos hin, if_pos (by omega)]
      exact UInt8.neg_one_and
    · rw [if_neg hin, if_neg hin, if_neg (by omega)]

theorem writeBlocks_idle (hcap : env.capacity ≤ 2 ^ 24) (pos block : ℕ) :
    ∀ {s : W25Chip} {data : ℕ → UInt8} {i : ℕ} {ptr : List UInt8}, Idle data s →
      (pos + i + block) * 4096 ≤ env.capacity → block * 4096 ≤ ptr.length →
      ∃ s', (writeBlocks env pos block i ptr).Returns s () s' ∧
        Idle (changed ((pos + i) * 4096) (block * 4096) (fun _ i => ptr.getD i 0) data) s' := by
  induction block with
  | zero =>
    intro s data i ptr hs _ _
    refine ⟨s, Proc.returns_pure.mpr ⟨rfl, rfl⟩, ?_⟩
    rwa [Nat.zero_mul, changed_zero]
  | succ block ih =>
    intro s data i ptr hs hfits hlen
    have haddr : (pos + i) * w25PageSize % 2 ^ 32 = (pos + i) * 4096 := by
      rw [w25PageSize]
      exact Nat.mod_eq_of_lt (by omega)
    have hsector := (@sector_le (pos + i) (pos + i + (block + 1)) 4096 (by omega)).trans hfits
    have hplace : pos + i + (block + 1) = pos + (i + 1) + block := by omega
    have hrest := hfits
    rw [hplace] at hrest
    obtain ⟨t, ht, hwritten⟩ := @pageWrite_idle env s data hcap ((pos + i) * 4096) ptr hs
      (Nat.mul_mod_left _ _) hsector (by omega)
    rw [← haddr] at ht
    obtain ⟨s', hs', hidle⟩ := @ih t _ (i + 1) (ptr.drop w25PageSize) hwritten hrest
      (le_length_drop hlen)
    refine ⟨s', (Proc.returns_bind_of ht).mpr hs', ?_⟩
    have hbehind : (fun (_ : UInt8) i => (ptr.drop w25PageSize).getD i 0) =
        fun _ i => ptr.getD (4096 + i) 0 := by
      funext b i
      rw [List.getD_eq_getElem?_getD, List.getD_eq_getElem?_getD, List.getElem?_drop]
      rfl
    rw [hbehind, show (pos + (i + 1)) * 4096 = (pos + i) * 4096 + 4096 from Nat.succ_mul _ _,
      changed_add ((pos + i) * 4096) 4096 (block * 4096) (fun _ i => ptr.getD i 0)] at hidle
    rwa [show (block + 1) * 4096 = 4096 + block * 4096 by omega]

theorem w25Read_idle (hcap : env.capacity ≤ 2 ^ 24) (hs : Idle data s) {offset size : ℕ}
    (hfits : offset + size ≤ env.capacity) :
    (w25Read env offset size).Returns s ((List.range size).map fun i => data (offset + i))
      { s with writeEnabled := false } := by
  unfold w25Read
  rw [Proc.returns_bind_of (wrdi_idle hs)]
  refine returns_spiFrame.mpr ⟨?_, ?_⟩
  · rw [addressed, frame_idle (show ({ s with writeEnabled := false } : W25Chip).busy = 0 from hs.1)
      (by decide)]
    show _ = (List.range size).map fun i => s.data _
    refine List.map_congr_left fun i hi => ?_
    have hlt : i < size := List.mem_range.mp hi
    rw [address_bytes hcap (by omega), Nat.mod_eq_of_lt (by omega), hs.2]
  · rw [addressed, frame_idle (show ({ s with writeEnabled := false } : W25Chip).busy = 0 from hs.1)
      (by decide)]
    rfl

variable (env) in
/-- Opening waits for whatever the chip was doing. -/
theorem flashOpen_idle (s : W25Chip) :
    ∃ s', (flashOpen env).Returns s () s' ∧ Idle s.data s' := by
  let t := (s.frame env [cmdWren] 0).2
  let u := (t.frame env [cmdWrsr, 0, 0] 0).2
  refine ⟨{ u with busy := 0 }, ?_, rfl, ?_⟩
  · unfold flashOpen
    rw [Proc.returns_bind_of (returns_rtSpiSend.mpr rfl),
      Proc.returns_bind_of (returns_rtSpiSend.mpr rfl)]
    exact waitBusy_returns
  · have ht : t.data = s.data := by
      simp only [t, W25Chip.frame, W25Chip.execute]
      split_ifs <;> rfl
    rw [← ht]
    simp only [u, W25Chip.frame, W25Chip.execute]
    split_ifs <;> rfl

/-! ## Blocks of sectors -/

/-- The states of the chip behind `w25qxx_flash_open` and any transfers inside its sectors. -/
inductive Opened (env : W25Env) (sectorCount : ℕ) : W25Chip → Prop
  | opened {s s' : W25Chip} : (flashOpen env).Returns s () s' → Opened env sectorCount s'
  | written {s s' : W25Chip} {pos n r : ℕ} {buffer : List UInt8} : Opened env sectorCount s →
      pos + n ≤ sectorCount → buffer.length = n * 4096 →
      (flashWrite env pos buffer n).Returns s r s' → Opened env sectorCount s'
  | read {s s' : W25Chip} {pos n : ℕ} {buffer : List UInt8} : Opened env sectorCount s →
      pos + n ≤ sectorCount → (flashRead env pos n).Returns s buffer s' →
      Opened env sectorCount s'

theorem sectorCount_le {memoryTypeCapacity : BitVec 16} {count : ℕ}
    (hcount : w25SectorCount memoryTypeCapacity = some count) : count ≤ 4096 := by
  unfold w25SectorCount at hcount
  split_ifs at hcount <;> exact (Option.some.inj hcount).symm.trans_le (by decide)

theorem flashWrite_idle (hcap : env.capacity ≤ 2 ^ 24) (hs : Idle data s) {pos n : ℕ}
    {buffer : List UInt8} (hfits : (pos + n) * 4096 ≤ env.capacity)
    (hlen : buffer.length = n * 4096) :
    ∃ s', (flashWrite env pos buffer n).Returns s n s' ∧
      Idle (changed (pos * 4096) (n * 4096) (fun _ i => buffer.getD i 0) data) s' := by
  obtain ⟨s', hs', hidle⟩ := @writeBlocks_idle env hcap pos n s data 0 buffer hs hfits
    (Nat.le_of_eq hlen.symm)
  exact ⟨s', (Proc.returns_bind_of hs').mpr (Proc.returns_pure.mpr ⟨rfl, rfl⟩), hidle⟩

theorem flashRead_idle (hcap : env.capacity ≤ 2 ^ 24) (hs : Idle data s) {pos n : ℕ}
    (hfits : (pos + n) * 4096 ≤ env.capacity) :
    ∃ s', (flashRead env pos n).Returns s
        ((List.range (n * 4096)).map fun i => data (pos * 4096 + i)) s' ∧ Idle data s' := by
  have hpos : pos * w25PageSize % 2 ^ 32 = pos * 4096 :=
    Nat.mod_eq_of_lt (show pos * 4096 < 2 ^ 32 by omega)
  have hsize : n * w25PageSize % 2 ^ 32 = n * 4096 :=
    Nat.mod_eq_of_lt (show n * 4096 < 2 ^ 32 by omega)
  have hread := w25Read_idle hcap hs (show pos * 4096 + n * 4096 ≤ env.capacity by
    rwa [← Nat.add_mul])
  rw [← hpos, ← hsize] at hread
  rw [← hpos, ← hsize]
  exact ⟨_, hread, hs⟩

/-- Transfers leave the chip idle. -/
theorem Opened.idle {sectorCount : ℕ} (hcap : env.capacity ≤ 2 ^ 24)
    (hsectors : env.capacity = sectorCount * 4096) (hs : Opened env sectorCount s) :
    Idle s.data s := by
  have hfits : ∀ {pos n : ℕ}, pos + n ≤ sectorCount → (pos + n) * 4096 ≤ env.capacity := by
    intro pos n hpos
    rw [hsectors]
    exact Nat.mul_le_mul_right 4096 hpos
  induction hs with
  | @opened s t hopen =>
    obtain ⟨t', ht', hidle⟩ := flashOpen_idle env s
    obtain ⟨-, rfl⟩ := ht'.unique hopen
    exact ⟨hidle.1, rfl⟩
  | written hs hpos hlen hwrite ih =>
    obtain ⟨t', ht', hidle⟩ := flashWrite_idle hcap ih (hfits hpos) hlen
    obtain ⟨-, rfl⟩ := ht'.unique hwrite
    exact ⟨hidle.1, rfl⟩
  | read hs hpos hread ih =>
    obtain ⟨t', ht', hidle⟩ := flashRead_idle hcap ih (hfits hpos)
    obtain ⟨-, rfl⟩ := ht'.unique hread
    exact ⟨hidle.1, rfl⟩

/-- Opening keeps the bytes. From then on a write puts its buffer into its sectors and leaves
the others as they are, and reading these sectors gives the buffer. -/
theorem flash_keeps_sectors (env : W25Env) (memoryTypeCapacity : BitVec 16) (sectorCount : ℕ)
    (hcount : w25SectorCount memoryTypeCapacity = some sectorCount)
    (hsectors : env.capacity = sectorCount * 4096) :
    (∀ s, ∃ s', (flashOpen env).Returns s () s' ∧ s'.data = s.data) ∧
      ∀ s pos n buffer, Opened env sectorCount s → pos + n ≤ sectorCount →
        buffer.length = n * 4096 →
        ∃ t, (flashWrite env pos buffer n).Returns s n t ∧
          (∀ sector < n, ∀ i < 4096,
            t.data ((pos + sector) * 4096 + i) = buffer.getD (sector * 4096 + i) 0) ∧
          (∀ sector, sector < pos ∨ pos + n ≤ sector → ∀ i < 4096,
            t.data (sector * 4096 + i) = s.data (sector * 4096 + i)) ∧
          ∃ u, (flashRead env pos n).Returns t buffer u ∧ u.data = t.data := by
  have hcap : env.capacity ≤ 2 ^ 24 := by
    have hle := sectorCount_le hcount
    omega
  refine ⟨fun s => ?_, fun s pos n buffer hs hpos hlen => ?_⟩
  · obtain ⟨s', hs', hidle⟩ := flashOpen_idle env s
    exact ⟨s', hs', hidle.2⟩
  · have hfits : (pos + n) * 4096 ≤ env.capacity := by
      rw [hsectors]
      exact Nat.mul_le_mul_right 4096 hpos
    obtain ⟨t, ht, hwritten⟩ := flashWrite_idle hcap (hs.idle hcap hsectors) hfits hlen
    obtain ⟨u, hu, hidle⟩ := flashRead_idle hcap hwritten hfits
    refine ⟨t, ht, fun sector hsector i hi => ?_, fun sector hsector i hi => ?_, u, ?_,
      hidle.2.trans hwritten.2.symm⟩
    · rw [hwritten.2, changed, if_pos (by omega)]
      congr 1
      omega
    · rw [hwritten.2, changed, if_neg (by omega)]
    · convert hu using 1
      refine List.ext_getElem (by simpa using hlen) fun i hi hi' => ?_
      rw [List.getElem_map, List.getElem_range, changed, if_pos (by omega),
        Nat.add_sub_cancel_left, List.getD_eq_getElem?_getD, List.getElem?_eq_getElem hi]
      rfl

/-- Two sectors of the smallest chip, which is still busy when it is opened. -/
theorem flash_keeps_sectors_w25q80 :
    let env : W25Env := ⟨256 * 4096, fun _ => 3⟩
    let buffer := List.replicate (2 * 4096) 0xAB
    ∃ s t u : W25Chip, (flashOpen env).Returns ⟨fun _ => 0, false, 5, 0⟩ () s ∧
      (flashWrite env 7 buffer 2).Returns s 2 t ∧ (flashRead env 7 2).Returns t buffer u := by
  intro env buffer
  have hchip := flash_keeps_sectors env 0x4014 256 (by decide) rfl
  obtain ⟨s, hopen, -⟩ := hchip.1 ⟨fun _ => 0, false, 5, 0⟩
  obtain ⟨t, hwrite, -, -, u, hread, -⟩ :=
    hchip.2 s 7 2 buffer (.opened hopen) (by decide) List.length_replicate
  exact ⟨s, t, u, hopen, hwrite, hread⟩

end RtThread.W25qxx
