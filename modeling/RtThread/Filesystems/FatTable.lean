import RtThread.Filesystems.FatVolume

/-!
# The table seen through the window

What the functions of FatFs that read and change entries do to the table as a whole, until one
of them reports an error: an entry is read as it was last written, wherever the window stands,
and all other entries stay. On a drive that works `sync` brings every copy of the table up to date.
-/
namespace RtThread
open ByteMemory BlockWindow

/-! ## The window -/

/-- The sectors behind the window. Sector 0 stands for none, and nobody reads the copies of the
table. -/
def FatVolume.seen (v : FatVolume) : Set ℕ :=
  {s | s ≠ 0 ∧ (s < v.fatbase + v.fsize ∨ v.fatbase + v.nFats * v.fsize ≤ s)}

namespace FatFs

def window (fs : FatFs) : Window ℕ Memory :=
  { store := fs.drive.sectors, pos := fs.winsect, block := fs.win, dirty := fs.wflag }

/-- The sectors as the functions of FatFs see them. -/
def view (fs : FatFs) : ℕ → Memory := fs.window.view

/-- An unchanged window shows its sector; one that is changed is not on a reserved sector. -/
structure Sound (v : FatVolume) (fs : FatFs) : Prop where
  coherent : fs.window.Coherent v.seen
  changed : fs.wflag = true → fs.winsect ∈ v.seen ∧ v.fatbase ≤ fs.winsect

/-- The fields that count clusters are the same. -/
structure SameCounts (fs fs' : FatFs) : Prop where
  lastClust : fs'.lastClust = fs.lastClust
  freeClust : fs'.freeClust = fs.freeClust
  fsiFlag : fs'.fsiFlag = fs.fsiFlag

/-- Nothing has changed but for where the window stands. -/
structure SameView (v : FatVolume) (fs fs' : FatFs) : Prop extends SameCounts fs fs' where
  view : ∀ s ∈ v.seen, fs'.view s = fs.view s

/-- Besides, the window has moved to the table if at all. -/
structure Same (v : FatVolume) (fs fs' : FatFs) : Prop extends SameView v fs fs' where
  near : fs'.winsect = fs.winsect ∨ fs'.winsect < v.fatbase + v.fsize

theorem SameCounts.refl (fs : FatFs) : SameCounts fs fs := ⟨rfl, rfl, rfl⟩

theorem SameCounts.trans {fs fs' fs'' : FatFs} (h : SameCounts fs fs')
    (h' : SameCounts fs' fs'') : SameCounts fs fs'' where
  lastClust := h'.lastClust.trans h.lastClust
  freeClust := h'.freeClust.trans h.freeClust
  fsiFlag := h'.fsiFlag.trans h.fsiFlag

theorem SameView.refl (v : FatVolume) (fs : FatFs) : SameView v fs fs :=
  ⟨.refl fs, fun _ _ => rfl⟩

theorem Same.refl (v : FatVolume) (fs : FatFs) : Same v fs fs := ⟨.refl v fs, .inl rfl⟩

theorem near_trans {v : FatVolume} {fs fs' fs'' : FatFs}
    (h : fs'.winsect = fs.winsect ∨ fs'.winsect < v.fatbase + v.fsize)
    (h' : fs''.winsect = fs'.winsect ∨ fs''.winsect < v.fatbase + v.fsize) :
    fs''.winsect = fs.winsect ∨ fs''.winsect < v.fatbase + v.fsize := by
  omega

theorem Same.trans {v : FatVolume} {fs fs' fs'' : FatFs} (h : Same v fs fs')
    (h' : Same v fs' fs'') : Same v fs fs'' where
  toSameCounts := h.toSameCounts.trans h'.toSameCounts
  view s hs := (h'.view s hs).trans (h.view s hs)
  near := near_trans h.near h'.near

end FatFs

section Window

variable {v : FatVolume} {fs fs' : FatFs}

theorem Drive.diskRead_true {d d' : Drive} {s : ℕ} {win : Memory}
    (h : d.diskRead s = (true, win, d')) : win = d.sectors s ∧ d'.sectors = d.sectors := by
  unfold diskRead at h
  split at h
  · simp only [Prod.mk.injEq, true_and] at h
    obtain ⟨rfl, rfl⟩ := h
    exact ⟨rfl, rfl⟩
  · simp at h

theorem Drive.diskWrite_true {d d' : Drive} {s : ℕ} {buff : Memory}
    (h : d.diskWrite buff s = (true, d')) : d'.sectors = Function.update d.sectors s buff := by
  unfold diskWrite at h
  split at h
  · simp only [Prod.mk.injEq, true_and] at h
    rw [← h]
  · simp at h

/-- Whether or not it fails, a write leaves the other sectors alone. -/
theorem Drive.diskWrite_other (d : Drive) (buff : Memory) {s t : ℕ} (h : t ≠ s) :
    (d.diskWrite buff s).2.sectors t = d.sectors t := by
  unfold diskWrite
  split <;> exact Function.update_of_ne h ..

theorem writeCopies_sectors (win : Memory) {n wsect s : ℕ} (drive : Drive) (hs : s ∈ v.seen)
    (hfrom : v.fatbase ≤ wsect) (hto : wsect + n * v.fsize < v.fatbase + v.nFats * v.fsize) :
    (writeCopies v win n wsect drive).sectors s = drive.sectors s := by
  induction n generalizing wsect drive with
  | zero => rfl
  | succ n ih =>
    rw [Nat.succ_mul] at hto
    have hne : s ≠ wsect + v.fsize := by
      obtain ⟨-, hlow | hhigh⟩ := hs <;> omega
    rw [writeCopies, ih _ (by omega) (by omega), Drive.diskWrite_other _ _ hne]

theorem writeBack_ok (h : fs.Sound v) (hw : writeBack v fs = (.ok, fs')) :
    Window.WrittenBack v.seen fs.window fs'.window ∧ FatFs.SameCounts fs fs' := by
  unfold writeBack at hw
  cases hflag : fs.wflag with
  | false =>
    simp only [hflag, Bool.false_eq_true, if_false, Prod.mk.injEq, true_and] at hw
    subst hw
    exact ⟨h.coherent.writtenBack hflag, .refl fs⟩
  | true =>
    obtain ⟨hseen, hbase⟩ := h.changed hflag
    rw [if_pos hflag] at hw
    cases hdisk : fs.drive.diskWrite fs.win fs.winsect with
    | mk ok drive =>
      cases ok with
      | false => simp [hdisk] at hw
      | true =>
        have hsect := Drive.diskWrite_true hdisk
        simp only [hdisk] at hw
        split at hw
        · next hfat =>
          simp only [Prod.mk.injEq, true_and] at hw
          subst hw
          refine ⟨⟨rfl, rfl, rfl, fun s hs => ?_⟩, ⟨rfl, rfl, rfl⟩⟩
          have hcopies : v.nFats * v.fsize = (v.nFats - 1) * v.fsize + v.fsize := by
            rw [← Nat.succ_mul, Nat.succ_eq_add_one, Nat.sub_add_cancel v.nFats_pos]
          have hrest := writeCopies_sectors (n := v.nFats - 1) fs.win drive hs hbase (by omega)
          exact hrest.trans (congrFun hsect s)
        · simp only [Prod.mk.injEq, true_and] at hw
          subst hw
          exact ⟨⟨rfl, rfl, rfl, fun s _ => congrFun hsect s⟩, ⟨rfl, rfl, rfl⟩⟩

theorem moveWindow_result (v : FatVolume) (fs : FatFs) (s : ℕ) :
    (moveWindow v fs s).1 = .ok ∨ (moveWindow v fs s).1 = .diskErr := by
  have hback : (writeBack v fs).1 = .ok ∨ (writeBack v fs).1 = .diskErr := by
    unfold writeBack
    split
    · split
      · exact .inr rfl
      · split <;> exact .inl rfl
    · exact .inl rfl
  unfold moveWindow
  split
  · exact .inl rfl
  · split
    · split
      · exact .inl rfl
      · split
        · exact .inl rfl
        · exact .inr rfl
    · exact hback

/-- Moving the window changes nothing that is seen. -/
theorem moveWindow_ok {s : ℕ} (h : fs.Sound v) (hm : moveWindow v fs s = (.ok, fs')) :
    fs'.Sound v ∧ FatFs.SameView v fs fs' ∧ (s ≠ 0 → fs'.winsect = s) := by
  unfold moveWindow at hm
  split at hm
  · next heq =>
    simp only [Prod.mk.injEq, true_and] at hm
    subst hm
    exact ⟨h, .refl v fs, fun _ => heq⟩
  · cases hb : writeBack v fs with
    | mk res fs₁ =>
      rw [hb] at hm
      cases res with
      | ok =>
        obtain ⟨hback, hcounts⟩ := writeBack_ok h hb
        have hclean : fs₁.wflag = false := hback.clean
        simp only at hm
        split at hm
        · next hzero =>
          simp only [Prod.mk.injEq, true_and] at hm
          subst hm
          refine ⟨⟨hback.coherent, fun hf => ?_⟩, ⟨hcounts, fun t ht => hback.view ht⟩,
            fun hne => absurd hzero hne⟩
          rw [hclean] at hf
          contradiction
        · cases hr : fs₁.drive.diskRead s with
          | mk ok rest =>
            obtain ⟨win, drive⟩ := rest
            cases ok with
            | false => simp [hr] at hm
            | true =>
              obtain ⟨hwin, hsect⟩ := Drive.diskRead_true hr
              simp only [hr, Prod.mk.injEq, true_and] at hm
              have hfetch : fs'.window = fs₁.window.fetch s := by
                rw [← hm, hwin]
                simp [FatFs.window, Window.fetch, hsect]
              have hflag : fs'.wflag = false := by rw [← hm]; exact hclean
              refine ⟨⟨?_, fun hf => ?_⟩, ⟨?_, fun t ht => ?_⟩, fun _ => by rw [← hm]⟩
              · rw [hfetch]
                exact Window.fetch_coherent fs₁.window s
              · rw [hflag] at hf
                contradiction
              · rw [← hm]
                exact ⟨hcounts.lastClust, hcounts.freeClust, hcounts.fsiFlag⟩
              · rw [FatFs.view, hfetch]
                exact hback.fetch_view s ht
      | _ => simp at hm

end Window

/-! ## Entries -/

theorem low_nibble {p b : ℕ} : (p &&& 15) ||| (b <<< 4) % 256 = p % 16 + 16 * (b % 16) := by
  have hand : p &&& 15 = p % 16 := Nat.and_two_pow_sub_one_eq_mod p 4
  have hshift : (b <<< 4) % 256 = 2 ^ 4 * (b % 16) := by
    rw [Nat.shiftLeft_eq]
    omega
  rw [hand, hshift, Nat.lor_comm, ← Nat.two_pow_add_eq_or_of_lt (by omega : p % 16 < 2 ^ 4)]
  omega

theorem high_nibble {p : ℕ} (hp : p < 256) (b : ℕ) :
    (p &&& 240) ||| (b &&& 15) = p / 16 * 16 + b % 16 := by
  have hand : p &&& 240 = 2 ^ 4 * (p / 16) := by
    have hall : ∀ p, p < 256 → p &&& 240 = 2 ^ 4 * (p / 16) := by decide +kernel
    exact hall p hp
  have hb : b &&& 15 = b % 16 := Nat.and_two_pow_sub_one_eq_mod b 4
  rw [hand, hb, ← Nat.two_pow_add_eq_or_of_lt (by omega : b % 16 < 2 ^ 4)]
  omega

theorem fat12Low_toNat (clst val : ℕ) (p : UInt8) :
    (fat12Low clst val p).toNat =
      if clst % 2 = 1 then p.toNat % 16 + 16 * (val % 16) else val % 256 := by
  unfold fat12Low
  split
  · rw [UInt8.toNat_or, UInt8.toNat_and, UInt8.toNat_shiftLeft, UInt8.toNat_ofNat']
    exact (low_nibble (p := p.toNat) (b := val % 2 ^ 8)).trans (by omega)
  · rw [UInt8.toNat_ofNat']

theorem fat12High_toNat (clst val : ℕ) (p : UInt8) :
    (fat12High clst val p).toNat =
      if clst % 2 = 1 then val / 16 % 256 else p.toNat / 16 * 16 + val / 256 % 16 := by
  unfold fat12High
  split
  · rw [UInt8.toNat_ofNat', Nat.shiftRight_eq_div_pow]
  · rw [UInt8.toNat_or, UInt8.toNat_and, UInt8.toNat_and, UInt8.toNat_ofNat',
      Nat.shiftRight_eq_div_pow]
    exact (high_nibble p.toNat_lt _).trans (by omega)


namespace FatType

/-- The entry of a cluster in the bytes of a table. -/
def entry (t : Memory) (c : ℕ) : FatType → ℕ
  | fat12 =>
    let pair := load t (c + c / 2) 2
    if c % 2 = 1 then pair / 16 else pair % 4096
  | fat16 => load t (c * 2) 2
  | fat32 => load t (c * 4) 4 % 2 ^ 28

/-- The table with another entry for a cluster. -/
def setEntry (t : Memory) (c val : ℕ) : FatType → Memory
  | fat12 =>
    let bc := c + c / 2
    let t := Function.update t bc (fat12Low c val (t bc))
    Function.update t (bc + 1) (fat12High c val (t (bc + 1)))
  | fat16 => store t (c * 2) val 2
  | fat32 => store t (c * 4) (val ||| load t (c * 4) 4 &&& 0xF0000000) 4

theorem entry_congr (ft : FatType) {t t' : Memory} {c n : ℕ} (hc : c < n)
    (h : ∀ k, k < ft.tableSize n → t' k = t k) : ft.entry t' c = ft.entry t c := by
  cases ft with
  | fat12 =>
    have hload : load t' (c + c / 2) 2 = load t (c + c / 2) 2 :=
      load_congr fun i _ hi => h i (by simp only [tableSize]; omega)
    simp only [entry, hload]
  | fat16 => exact load_congr fun i _ hi => h i (by simp only [tableSize]; omega)
  | fat32 =>
    have hload : load t' (c * 4) 4 = load t (c * 4) 4 :=
      load_congr fun i _ hi => h i (by simp only [tableSize]; omega)
    simp only [entry, hload]

theorem load_two (t : Memory) (a : ℕ) : load t a 2 = (t a).toNat + 256 * (t (a + 1)).toNat := by
  simp [load]

/-- The bits of an entry. -/
def width : FatType → ℕ
  | fat12 => 12
  | fat16 => 16
  | fat32 => 28

theorem entry_lt (ft : FatType) (t : Memory) (c : ℕ) : ft.entry t c < 2 ^ ft.width := by
  cases ft with
  | fat12 =>
    have hpair := load_lt t (c + c / 2) 2
    simp only [entry, width]
    split <;> omega
  | fat16 => exact load_lt t (c * 2) 2
  | fat32 => exact Nat.mod_lt _ (by decide)

/-- An entry is read as it was written. -/
theorem entry_setEntry_self (ft : FatType) (t : Memory) (c val : ℕ) :
    ft.entry (ft.setEntry t c val) c = val % 2 ^ ft.width := by
  cases ft with
  | fat12 =>
    have hne : c + c / 2 ≠ c + c / 2 + 1 := by omega
    have hlow := fat12Low_toNat c val (t (c + c / 2))
    have hhigh := fat12High_toNat c val (t (c + c / 2 + 1))
    simp only [entry, setEntry, width, load_two, Function.update_self,
      Function.update_of_ne hne, Function.update_of_ne hne.symm]
    split at hlow
    · next hodd =>
      rw [if_pos hodd] at hhigh
      have hbyte := (t (c + c / 2)).toNat_lt
      rw [if_pos hodd, hlow, hhigh]
      omega
    · next heven =>
      rw [if_neg heven] at hhigh
      have hbyte := (t (c + c / 2 + 1)).toNat_lt
      rw [if_neg heven, hlow, hhigh]
      omega
  | fat16 => exact load_store_mod t (c * 2) val 2
  | fat32 =>
    have hkeep : (val ||| load t (c * 4) 4 &&& 0xF0000000) % 2 ^ 28 = val % 2 ^ 28 := by
      rw [Nat.or_mod_two_pow, Nat.and_mod_two_pow]
      simp
    simp only [entry, setEntry, width, load_store_mod]
    rw [Nat.mod_mod_of_dvd _ (by decide), hkeep]

/-- The other entries stay, also the one that shares a byte. -/
theorem entry_setEntry_ne (ft : FatType) (t : Memory) (val : ℕ) {c d : ℕ} (h : d ≠ c) :
    ft.entry (ft.setEntry t c val) d = ft.entry t d := by
  cases ft with
  | fat12 =>
    have hne : c + c / 2 ≠ c + c / 2 + 1 := by omega
    have hlow := fat12Low_toNat c val (t (c + c / 2))
    have hhigh := fat12High_toNat c val (t (c + c / 2 + 1))
    simp only [entry, setEntry, load_two, Function.update_of_ne hne.symm]
    by_cases hafter : d = c + 1 ∧ c % 2 = 0
    · obtain ⟨rfl, heven⟩ := hafter
      have hshare : c + 1 + (c + 1) / 2 = c + c / 2 + 1 := by omega
      have hodd : (c + 1) % 2 = 1 := by omega
      rw [hshare, Function.update_self, Function.update_of_ne (by omega),
        Function.update_of_ne (by omega), if_pos hodd, if_pos hodd, hhigh, if_neg (by omega)]
      omega
    · by_cases hbefore : c = d + 1 ∧ d % 2 = 0
      · obtain ⟨rfl, heven⟩ := hbefore
        have hshare : d + 1 + (d + 1) / 2 = d + d / 2 + 1 := by omega
        have hodd : ¬d % 2 = 1 := by omega
        rw [hshare] at hlow ⊢
        rw [Function.update_of_ne (by omega), Function.update_of_ne (by omega),
          Function.update_of_ne (by omega), Function.update_self, if_neg hodd, if_neg hodd, hlow,
          if_pos (by omega)]
        omega
      · rw [Function.update_of_ne (by omega), Function.update_of_ne (by omega),
          Function.update_of_ne (by omega), Function.update_of_ne (by omega)]
  | fat16 => exact load_store_apart t val (by omega)
  | fat32 =>
    simp only [entry, setEntry]
    rw [load_store_apart t _ (by omega)]

end FatType

/-! ## The bytes of the table -/

/-- The bytes of the first table as they are seen. -/
def FatFs.table (v : FatVolume) (fs : FatFs) : Memory :=
  paged (fun q => fs.view (v.fatbase + q)) v.ssize

/-- The entry of a cluster. -/
def FatFs.entry (v : FatVolume) (fs : FatFs) (c : ℕ) : ℕ := v.fsType.entry (fs.table v) c

section Table

variable {v : FatVolume} {fs fs' : FatFs}

theorem FatVolume.table_seen {q : ℕ} (h : q < v.fsize) : v.fatbase + q ∈ v.seen := by
  have hpos := v.fatbase_pos
  exact ⟨by omega, .inl (by omega)⟩

theorem FatVolume.page_lt {k : ℕ} (h : k < v.fsize * v.ssize) : k / v.ssize < v.fsize :=
  Nat.div_lt_of_lt_mul (by rwa [Nat.mul_comm])

theorem FatFs.SameView.table (h : FatFs.SameView v fs fs') {k : ℕ} (hk : k < v.fsize * v.ssize) :
    fs'.table v k = fs.table v k := by
  rw [FatFs.table, FatFs.table, paged, paged, h.view _ (v.table_seen (v.page_lt hk))]

theorem FatFs.entry_congr {c : ℕ} (hc : c < v.nFatent)
    (h : ∀ k, k < v.fsize * v.ssize → fs'.table v k = fs.table v k) :
    fs'.entry v c = fs.entry v c :=
  v.fsType.entry_congr hc fun k hk => h k (by have hle := v.table_le; omega)

theorem FatFs.SameView.entry (h : FatFs.SameView v fs fs') {c : ℕ} (hc : c < v.nFatent) :
    fs'.entry v c = fs.entry v c :=
  FatFs.entry_congr hc fun _ hk => h.table hk

/-- The window on a sector of the table. -/
theorem moveWindow_table {a : ℕ} (h : fs.Sound v) (ha : a < v.fsize * v.ssize)
    (hm : moveWindow v fs (v.fatbase + a / v.ssize) = (.ok, fs')) :
    fs'.Sound v ∧ FatFs.Same v fs fs' ∧ fs'.winsect = v.fatbase + a / v.ssize ∧
      fs'.win = fs.view (v.fatbase + a / v.ssize) := by
  obtain ⟨hsound, hsame, hpos⟩ := moveWindow_ok h hm
  have hpage := v.page_lt ha
  have hseen := v.table_seen hpage
  have hwin := hpos hseen.1
  refine ⟨hsound, ⟨hsame, .inr (by omega)⟩, hwin, ?_⟩
  rw [← hsame.view _ hseen, ← hwin]
  exact (Window.view_pos fs'.window).symm

/-- The window is changed where it stands. -/
theorem FatFs.view_put (fs : FatFs) (win : Memory) :
    { fs with win := win, wflag := true }.view = Function.update fs.view fs.winsect win :=
  Window.view_put fs.window win

theorem FatFs.sound_put (win : Memory) (hseen : fs.winsect ∈ v.seen)
    (hbase : v.fatbase ≤ fs.winsect) : { fs with win := win, wflag := true }.Sound v where
  coherent := Window.put_coherent fs.window win
  changed _ := ⟨hseen, hbase⟩

theorem FatFs.table_put {q : ℕ} (win : Memory) (hpos : fs.winsect = v.fatbase + q) :
    { fs with win := win, wflag := true }.table v =
      paged (Function.update (fun q => fs.view (v.fatbase + q)) q win) v.ssize := by
  rw [FatFs.table, FatFs.view_put, hpos]
  congr 1
  funext q'
  by_cases hq : q' = q
  · subst hq
    rw [Function.update_self, Function.update_self]
  · rw [Function.update_of_ne hq, Function.update_of_ne (by omega)]

end Table

/-! ## Reading and writing entries -/

section Access

variable {v : FatVolume} {fs fs' : FatFs}

theorem FatVolume.dvd_ssize (v : FatVolume) {n : ℕ} (h : n ∣ 512) : n ∣ v.ssize :=
  h.trans v.ssize_dvd

/-- The sector of an entry, as the source computes it for entries of whole words. -/
theorem FatVolume.div_ssize (v : FatVolume) {n : ℕ} (h : n ∣ 512) (c : ℕ) :
    c / (v.ssize / n) = c * n / v.ssize := by
  obtain ⟨m, hm⟩ := v.dvd_ssize h
  have hn : 0 < n := Nat.pos_of_dvd_of_pos h (by decide)
  rw [hm, Nat.mul_div_cancel_left m hn, Nat.mul_comm c n, Nat.mul_div_mul_left c m hn]

theorem FatVolume.fits_ssize (v : FatVolume) {n : ℕ} (h : n ∣ 512) (c : ℕ) :
    c * n % v.ssize + n ≤ v.ssize :=
  aligned_fits (v.dvd_ssize h) (Nat.dvd_mul_left n c) v.ssize_pos

theorem FatVolume.entry_bytes (v : FatVolume) {c : ℕ} (hc : c < v.nFatent) :
    match v.fsType with
    | .fat12 => c + c / 2 + 1 < v.fsize * v.ssize
    | .fat16 => c * 2 + 1 < v.fsize * v.ssize
    | .fat32 => c * 4 + 3 < v.fsize * v.ssize := by
  have hle := v.table_le
  cases hft : v.fsType <;> simp only [hft, FatType.tableSize] at hle ⊢ <;> omega

theorem FatFs.win_eq {q : ℕ} (hpos : fs.winsect = v.fatbase + q) :
    fs.win = fs.view (v.fatbase + q) := by
  rw [← hpos]
  exact (Window.view_pos fs.window).symm

theorem FatFs.load_table (fs : FatFs) {a n : ℕ} (h : a % v.ssize + n ≤ v.ssize) :
    load (fs.view (v.fatbase + a / v.ssize)) (a % v.ssize) n = load (fs.table v) a n :=
  (load_paged (fun q => fs.view (v.fatbase + q)) h).symm

/-- `get_fat` reads the entry, unless it reports an error of the drive. -/
theorem getFat_ok {c r : ℕ} (h : fs.Sound v) (hlo : 2 ≤ c) (hc : c < v.nFatent)
    (hg : getFat v fs c = (r, fs')) (hr : r ≠ fatDiskError) :
    fs'.Sound v ∧ FatFs.Same v fs fs' ∧ r = fs.entry v c := by
  have hbytes := v.entry_bytes hc
  unfold getFat at hg
  rw [if_neg (by omega)] at hg
  cases hft : v.fsType with
  | fat12 =>
    simp only [hft] at hg hbytes
    cases hm : moveWindow v fs (v.fatbase + (c + c / 2) / v.ssize) with
    | mk res fs₁ =>
      rw [hm] at hg
      cases res with
      | ok =>
        obtain ⟨hsound₁, hsame₁, -, hwin₁⟩ := moveWindow_table h (by omega) hm
        simp only at hg
        cases hm' : moveWindow v fs₁ (v.fatbase + (c + c / 2 + 1) / v.ssize) with
        | mk res fs₂ =>
          rw [hm'] at hg
          cases res with
          | ok =>
            obtain ⟨hsound₂, hsame₂, -, hwin₂⟩ := moveWindow_table hsound₁ hbytes hm'
            simp only [Prod.mk.injEq] at hg
            obtain ⟨hval, rfl⟩ := hg
            refine ⟨hsound₂, hsame₁.trans hsame₂, ?_⟩
            have hlow : fs₁.win ((c + c / 2) % v.ssize) = fs.table v (c + c / 2) := by
              rw [hwin₁]
              rfl
            have hhigh : fs₂.win ((c + c / 2 + 1) % v.ssize) = fs.table v (c + c / 2 + 1) := by
              rw [← hsame₁.table hbytes, hwin₂]
              rfl
            have hword := (fs.table v (c + c / 2)).toNat_lt
            have hpair : (fs.table v (c + c / 2)).toNat |||
                (fs.table v (c + c / 2 + 1)).toNat <<< 8 = load (fs.table v) (c + c / 2) 2 := by
              rw [FatType.load_two, Nat.shiftLeft_eq, Nat.lor_comm,
                Nat.mul_comm _ (2 ^ 8), ← Nat.two_pow_add_eq_or_of_lt hword, Nat.add_comm]
            rw [hlow, hhigh, hpair, Nat.shiftRight_eq_div_pow] at hval
            rw [← hval, FatFs.entry, hft, FatType.entry]
            split
            · rfl
            · exact Nat.and_two_pow_sub_one_eq_mod _ 12
          | _ => exact absurd (congrArg Prod.fst hg).symm hr
      | _ => exact absurd (congrArg Prod.fst hg).symm hr
  | fat16 =>
    simp only [hft, v.div_ssize (by decide : 2 ∣ 512)] at hg hbytes
    cases hm : moveWindow v fs (v.fatbase + c * 2 / v.ssize) with
    | mk res fs₁ =>
      rw [hm] at hg
      cases res with
      | ok =>
        obtain ⟨hsound₁, hsame₁, -, hwin₁⟩ := moveWindow_table h (by omega) hm
        simp only [Prod.mk.injEq] at hg
        obtain ⟨hval, rfl⟩ := hg
        refine ⟨hsound₁, hsame₁, ?_⟩
        rw [← hval, hwin₁, FatFs.entry, hft]
        exact fs.load_table (v.fits_ssize (by decide) c)
      | _ => exact absurd (congrArg Prod.fst hg).symm hr
  | fat32 =>
    simp only [hft, v.div_ssize (by decide : 4 ∣ 512)] at hg hbytes
    cases hm : moveWindow v fs (v.fatbase + c * 4 / v.ssize) with
    | mk res fs₁ =>
      rw [hm] at hg
      cases res with
      | ok =>
        obtain ⟨hsound₁, hsame₁, -, hwin₁⟩ := moveWindow_table h (by omega) hm
        simp only [Prod.mk.injEq] at hg
        obtain ⟨hval, rfl⟩ := hg
        refine ⟨hsound₁, hsame₁, ?_⟩
        rw [← hval, hwin₁, fs.load_table (v.fits_ssize (by decide) c), FatFs.entry, hft]
        exact Nat.and_two_pow_sub_one_eq_mod _ 28
      | _ => exact absurd (congrArg Prod.fst hg).symm hr

/-- The bytes of the table are `t` now, and nothing else has changed. -/
structure FatFs.Stored (v : FatVolume) (t : Memory) (fs fs' : FatFs) : Prop
    extends FatFs.SameCounts fs fs' where
  table : ∀ k, k < v.fsize * v.ssize → fs'.table v k = t k
  outside : ∀ s ∈ v.seen, s < v.fatbase ∨ v.fatbase + v.fsize ≤ s → fs'.view s = fs.view s
  near : fs'.winsect = fs.winsect ∨ fs'.winsect < v.fatbase + v.fsize

theorem FatFs.Same.stored (h : FatFs.Same v fs fs') : FatFs.Stored v (fs.table v) fs fs' where
  toSameCounts := h.toSameCounts
  table _ hk := h.table hk
  outside s hs _ := h.view s hs
  near := h.near

/-- The window is changed on a sector of the table, behind a move or another change. -/
theorem FatFs.Stored.put {t t' : Memory} {fs₁ : FatFs} {q : ℕ} (h : FatFs.Stored v t fs fs₁)
    (hq : q < v.fsize) (hpos : fs₁.winsect = v.fatbase + q) (win : Memory)
    (ht : ∀ k, k < v.fsize * v.ssize →
      paged (Function.update (fun q => fs₁.view (v.fatbase + q)) q win) v.ssize k = t' k) :
    { fs₁ with win := win, wflag := true }.Sound v ∧
      FatFs.Stored v t' fs { fs₁ with win := win, wflag := true } := by
  refine ⟨FatFs.sound_put win ?_ ?_, ⟨h.lastClust, h.freeClust, h.fsiFlag⟩, fun k hk => ?_,
    fun s hs hout => ?_, h.near⟩
  · rw [hpos]
    exact v.table_seen hq
  · rw [hpos]
    exact Nat.le_add_right ..
  · rw [FatFs.table_put win hpos]
    exact ht k hk
  · rw [FatFs.view_put, hpos, Function.update_of_ne (by omega)]
    exact h.outside s hs hout

/-- A word of an entry is stored in the sector that holds it. -/
theorem FatFs.Same.store_word {fs₁ : FatFs} {a n : ℕ} (h : FatFs.Same v fs fs₁) (val : ℕ)
    (ha : a < v.fsize * v.ssize) (hfit : a % v.ssize + n ≤ v.ssize)
    (hpos : fs₁.winsect = v.fatbase + a / v.ssize) :
    { fs₁ with win := store fs₁.win (a % v.ssize) val n, wflag := true }.Sound v ∧
      FatFs.Stored v (store (fs.table v) a val n) fs
        { fs₁ with win := store fs₁.win (a % v.ssize) val n, wflag := true } := by
  refine h.stored.put (v.page_lt ha) hpos _ fun k hk => ?_
  have hwin : fs₁.win = (fun q => fs₁.view (v.fatbase + q)) (a / v.ssize) := FatFs.win_eq hpos
  rw [hwin, paged_store _ _ hfit]
  exact store_congr (h.table hk)

/-- A byte of an entry is changed in the sector that holds it. -/
theorem FatFs.Stored.byte {t : Memory} {fs₁ : FatFs} {a : ℕ} (h : FatFs.Stored v t fs fs₁)
    (f : UInt8 → UInt8) (ha : a < v.fsize * v.ssize)
    (hpos : fs₁.winsect = v.fatbase + a / v.ssize) :
    let win := Function.update fs₁.win (a % v.ssize) (f (fs₁.win (a % v.ssize)))
    { fs₁ with win := win, wflag := true }.Sound v ∧
      FatFs.Stored v (Function.update t a (f (t a))) fs { fs₁ with win := win, wflag := true } := by
  refine h.put (v.page_lt ha) hpos _ fun k hk => ?_
  have hwin : fs₁.win = (fun q => fs₁.view (v.fatbase + q)) (a / v.ssize) := FatFs.win_eq hpos
  have hbyte : fs₁.win (a % v.ssize) = t a := by
    rw [← h.table a ha, hwin]
    rfl
  rw [hbyte, hwin, paged_update]
  by_cases hka : k = a
  · subst hka
    rw [Function.update_self, Function.update_self]
  · rw [Function.update_of_ne hka, Function.update_of_ne hka]
    exact h.table k hk

theorem FatFs.Stored.same {t : Memory} {fs₁ : FatFs} (h : FatFs.Stored v t fs fs₁)
    (h' : FatFs.Same v fs₁ fs') : FatFs.Stored v t fs fs' where
  toSameCounts := h.toSameCounts.trans h'.toSameCounts
  table k hk := (h'.table hk).trans (h.table k hk)
  outside s hs hout := (h'.view s hs).trans (h.outside s hs hout)
  near := FatFs.near_trans h.near h'.near

theorem putEntry_ok {c val : ℕ} (h : fs.Sound v) (hc : c < v.nFatent)
    (hp : putEntry v fs c val = (.ok, fs')) :
    { fs' with wflag := true }.Sound v ∧
      FatFs.Stored v (v.fsType.setEntry (fs.table v) c val) fs { fs' with wflag := true } := by
  have hbytes := v.entry_bytes hc
  unfold putEntry at hp
  cases hft : v.fsType with
  | fat12 =>
    simp only [hft] at hp hbytes
    cases hm : moveWindow v fs (v.fatbase + (c + c / 2) / v.ssize) with
    | mk res fs₁ =>
      rw [hm] at hp
      cases res with
      | ok =>
        obtain ⟨-, hsame₁, hpos₁, -⟩ := moveWindow_table h (by omega) hm
        obtain ⟨hsound, hstored⟩ := hsame₁.stored.byte (fat12Low c val) (by omega) hpos₁
        simp only at hp
        generalize hfs₂ : ({ fs₁ with
          win := Function.update fs₁.win ((c + c / 2) % v.ssize)
            (fat12Low c val (fs₁.win ((c + c / 2) % v.ssize))), wflag := true } : FatFs) = fs₂
          at hp hsound hstored
        cases hm' : moveWindow v fs₂ (v.fatbase + (c + c / 2 + 1) / v.ssize) with
        | mk res fs₃ =>
          rw [hm'] at hp
          cases res with
          | ok =>
            obtain ⟨-, hsame₃, hpos₃, -⟩ := moveWindow_table hsound hbytes hm'
            simp only [Prod.mk.injEq, true_and] at hp
            subst hp
            exact (hstored.same hsame₃).byte (fat12High c val) hbytes hpos₃
          | _ => simp at hp
      | _ => simp at hp
  | fat16 =>
    simp only [hft, v.div_ssize (by decide : 2 ∣ 512)] at hp hbytes
    cases hm : moveWindow v fs (v.fatbase + c * 2 / v.ssize) with
    | mk res fs₁ =>
      rw [hm] at hp
      cases res with
      | ok =>
        obtain ⟨-, hsame₁, hpos₁, -⟩ := moveWindow_table h (by omega) hm
        simp only [Prod.mk.injEq, true_and] at hp
        subst hp
        exact hsame₁.store_word val (by omega) (v.fits_ssize (by decide) c) hpos₁
      | _ => simp at hp
  | fat32 =>
    simp only [hft, v.div_ssize (by decide : 4 ∣ 512)] at hp hbytes
    cases hm : moveWindow v fs (v.fatbase + c * 4 / v.ssize) with
    | mk res fs₁ =>
      rw [hm] at hp
      cases res with
      | ok =>
        obtain ⟨-, hsame₁, hpos₁, hwin₁⟩ := moveWindow_table h (by omega) hm
        simp only [Prod.mk.injEq, true_and] at hp
        subst hp
        have hload : load fs₁.win (c * 4 % v.ssize) 4 = load (fs.table v) (c * 4) 4 := by
          rw [hwin₁, fs.load_table (v.fits_ssize (by decide) c)]
        rw [hload]
        exact hsame₁.store_word _ (by omega) (v.fits_ssize (by decide) c) hpos₁
      | _ => simp at hp

theorem putEntry_result (v : FatVolume) (fs : FatFs) (c val : ℕ) :
    (putEntry v fs c val).1 = .ok ∨ (putEntry v fs c val).1 = .diskErr := by
  unfold putEntry
  split
  · dsimp only
    split
    · split
      · exact .inl rfl
      · exact moveWindow_result ..
    · exact moveWindow_result ..
  · split
    · exact .inl rfl
    · exact moveWindow_result ..
  · split
    · exact .inl rfl
    · exact moveWindow_result ..

/-- Within its range `put_fat` fails only with the drive. -/
theorem putFat_result (fs : FatFs) {c : ℕ} (val : ℕ) (hlo : 2 ≤ c) (hc : c < v.nFatent) :
    (putFat v fs c val).1 = .ok ∨ (putFat v fs c val).1 = .diskErr := by
  rw [putFat, if_neg (by omega)]
  exact putEntry_result v fs c val

/-- `put_fat` changes one entry and nothing else, unless it reports an error. -/
theorem putFat_ok {c val : ℕ} (h : fs.Sound v) (hp : putFat v fs c val = (.ok, fs')) :
    2 ≤ c ∧ c < v.nFatent ∧ fs'.Sound v ∧
      FatFs.Stored v (v.fsType.setEntry (fs.table v) c val) fs fs' := by
  unfold putFat at hp
  split at hp
  · simp at hp
  · next hrange =>
    cases he : putEntry v fs c val with
    | mk res fs₁ =>
      rw [he] at hp
      simp only [Prod.mk.injEq] at hp
      obtain ⟨rfl, rfl⟩ := hp
      obtain ⟨hsound, hstored⟩ := putEntry_ok h (by omega) he
      exact ⟨by omega, by omega, hsound, hstored⟩

theorem FatFs.Stored.entry {c val d : ℕ} (hd : d < v.nFatent)
    (h : FatFs.Stored v (v.fsType.setEntry (fs.table v) c val) fs fs') :
    fs'.entry v d = if d = c then val % 2 ^ v.fsType.width else fs.entry v d := by
  have hentry : fs'.entry v d = v.fsType.entry (v.fsType.setEntry (fs.table v) c val) d :=
    v.fsType.entry_congr hd fun k hk => h.table k (by have hle := v.table_le; omega)
  rw [hentry]
  split
  · next heq => rw [heq, v.fsType.entry_setEntry_self]
  · next hne => exact v.fsType.entry_setEntry_ne _ _ hne

end Access

/-! ## The copies of the table -/

section Mirrors

variable {v : FatVolume} {fs fs' : FatFs}

/-- No call to the drive fails. -/
def Drive.Quiet (d : Drive) : Prop := ∀ i, d.faults i = none

/-- Every copy of the table is up to date, but for the sector in the window. -/
def FatFs.Mirrored (v : FatVolume) (fs : FatFs) : Prop :=
  ∀ q, q < v.fsize → (fs.wflag = true ∧ fs.winsect = v.fatbase + q) ∨
    ∀ j, j < v.nFats → fs.drive.sectors (v.fatbase + q + j * v.fsize) =
      fs.drive.sectors (v.fatbase + q)

/-- A volume on a drive that works. -/
structure FatFs.Working (v : FatVolume) (fs : FatFs) : Prop where
  sound : fs.Sound v
  quiet : fs.drive.Quiet
  mirrored : fs.Mirrored v

theorem Drive.Quiet.diskWrite {d : Drive} (h : d.Quiet) (buff : Memory) (s : ℕ) :
    (d.diskWrite buff s).1 = true ∧ (d.diskWrite buff s).2.Quiet ∧
      (d.diskWrite buff s).2.sectors = Function.update d.sectors s buff := by
  unfold Drive.diskWrite
  rw [h 0]
  exact ⟨rfl, fun i => h (i + 1), rfl⟩

theorem Drive.Quiet.diskRead {d : Drive} (h : d.Quiet) (s : ℕ) :
    (d.diskRead s).1 = true ∧ (d.diskRead s).2.2.Quiet ∧
      (d.diskRead s).2.2.sectors = d.sectors := by
  unfold Drive.diskRead
  rw [h 0]
  exact ⟨rfl, fun i => h (i + 1), rfl⟩

/-- All copies of a sector are written, and no other sector. -/
theorem writeCopies_quiet (win : Memory) {n w : ℕ} {drive : Drive} (h : drive.Quiet)
    (hpos : 0 < v.fsize) :
    (writeCopies v win n w drive).Quiet ∧
      (∀ j, j < n → (writeCopies v win n w drive).sectors (w + (j + 1) * v.fsize) = win) ∧
      ∀ s, (∀ j, j < n → s ≠ w + (j + 1) * v.fsize) →
        (writeCopies v win n w drive).sectors s = drive.sectors s := by
  induction n generalizing w drive with
  | zero => exact ⟨h, fun j hj => by omega, fun _ _ => rfl⟩
  | succ n ih =>
    obtain ⟨-, hquiet, hsect⟩ := h.diskWrite win (w + v.fsize)
    obtain ⟨hq, hin, hout⟩ := @ih (w + v.fsize) _ hquiet
    rw [writeCopies]
    refine ⟨hq, fun j hj => ?_, fun s hs => ?_⟩
    · cases j with
      | zero =>
        rw [Nat.zero_add, Nat.one_mul, hout _ fun j _ he => ?_, hsect, Function.update_self]
        have hstep := Nat.succ_mul j v.fsize
        rw [Nat.succ_eq_add_one] at hstep
        omega
      | succ j =>
        have hj' := hin j (by omega)
        rwa [show w + v.fsize + (j + 1) * v.fsize = w + (j + 1 + 1) * v.fsize by
          rw [Nat.succ_mul (j + 1)]
          omega] at hj'
    · rw [hout s fun j hj => ?_, hsect, Function.update_of_ne ?_]
      · have hs0 := hs 0 (by omega)
        rwa [Nat.zero_add, Nat.one_mul] at hs0
      · have hsj := hs (j + 1) (by omega)
        rw [Nat.succ_mul (j + 1)] at hsj
        omega

theorem FatVolume.fsize_pos (v : FatVolume) : 0 < v.fsize := by
  have hle := v.table_le
  have hgt := v.nFatent_gt
  refine Nat.pos_of_ne_zero fun hzero => ?_
  rw [hzero, Nat.zero_mul] at hle
  cases hft : v.fsType <;> rw [hft] at hle <;> simp only [FatType.tableSize] at hle <;> omega

/-- Every copy of the table is up to date. -/
def FatFs.Copied (v : FatVolume) (fs : FatFs) : Prop :=
  ∀ q j, q < v.fsize → j < v.nFats →
    fs.drive.sectors (v.fatbase + q + j * v.fsize) = fs.drive.sectors (v.fatbase + q)

theorem FatFs.Copied.mirrored (h : fs.Copied v) : fs.Mirrored v := fun q hq =>
  .inr fun j hj => h q j hq hj

theorem FatFs.Mirrored.copied (h : fs.Mirrored v) (hclean : fs.wflag = false) : fs.Copied v := by
  intro q j hq hj
  obtain ⟨hflag, -⟩ | hall := h q hq
  · simp [hclean] at hflag
  · exact hall j hj

/-- Copies of different sectors are different sectors. -/
theorem copy_inj {n q q' j k : ℕ} (hq : q < n) (hq' : q' < n) (h : q + j * n = q' + k * n) :
    q = q' := by
  have hmod := congrArg (· % n) h
  simp only [Nat.add_mul_mod_self_right, Nat.mod_eq_of_lt hq, Nat.mod_eq_of_lt hq'] at hmod
  exact hmod

/-- The window goes back to all copies of its sector. -/
theorem writeBack_working (h : fs.Working v) :
    (writeBack v fs).1 = .ok ∧ (writeBack v fs).2.drive.Quiet ∧ (writeBack v fs).2.Copied v := by
  unfold writeBack
  cases hflag : fs.wflag with
  | false => exact ⟨rfl, h.quiet, h.mirrored.copied hflag⟩
  | true =>
    obtain ⟨hseen, hbase⟩ := h.sound.changed hflag
    obtain ⟨hok, hquiet, hsect⟩ := h.quiet.diskWrite fs.win fs.winsect
    have hpos := v.fsize_pos
    rw [if_pos rfl]
    cases hdisk : fs.drive.diskWrite fs.win fs.winsect with
    | mk ok drive =>
      rw [hdisk] at hok hquiet hsect
      simp only at hok hquiet hsect
      subst hok
      simp only
      split
      · next hfat =>
        obtain ⟨q₀, hq₀⟩ : ∃ q₀, fs.winsect = v.fatbase + q₀ := Nat.exists_eq_add_of_le hbase
        have hlt₀ : q₀ < v.fsize := by omega
        obtain ⟨hquiet', hin, hout⟩ :=
          writeCopies_quiet fs.win (n := v.nFats - 1) (w := fs.winsect) hquiet hpos
        refine ⟨rfl, hquiet', fun q j hq hj => ?_⟩
        by_cases hqq : q = q₀
        · subst hqq
          have hfirst : (writeCopies v fs.win (v.nFats - 1) fs.winsect drive).sectors
              (v.fatbase + q) = fs.win := by
            rw [hout _ fun i hi he => ?_, hsect, hq₀, Function.update_self]
            have hmul := Nat.succ_mul i v.fsize
            rw [Nat.succ_eq_add_one] at hmul
            omega
          show (writeCopies v fs.win (v.nFats - 1) fs.winsect drive).sectors _ = _
          rw [hfirst]
          cases j with
          | zero => rw [Nat.zero_mul, Nat.add_zero, hfirst]
          | succ j =>
            rw [← hq₀]
            exact hin j (by omega)
        · have hother : ∀ j, (writeCopies v fs.win (v.nFats - 1) fs.winsect drive).sectors
              (v.fatbase + q + j * v.fsize) = fs.drive.sectors (v.fatbase + q + j * v.fsize) := by
            intro j
            rw [hout _ fun i hi he => hqq ?_, hsect, Function.update_of_ne fun he => hqq ?_]
            · refine copy_inj (j := j) (k := 0) hq hlt₀ ?_
              omega
            · exact copy_inj (j := j) (k := i + 1) hq hlt₀ (by omega)
          have hold := h.mirrored q hq
          obtain ⟨-, hwin⟩ | hall := hold
          · omega
          · have hzero := hother 0
            rw [Nat.zero_mul, Nat.add_zero] at hzero
            exact (hother j).trans ((hall j hj).trans hzero.symm)
      · next hfat =>
        have hhigh : v.fatbase + v.nFats * v.fsize ≤ fs.winsect := by
          obtain ⟨-, hlow | hhigh⟩ := hseen <;> omega
        refine ⟨rfl, hquiet, fun q j hq hj => ?_⟩
        have hmul : j * v.fsize + v.fsize ≤ v.nFats * v.fsize := by
          rw [← Nat.succ_mul]
          exact Nat.mul_le_mul_right _ hj
        show drive.sectors _ = drive.sectors _
        rw [hsect, Function.update_of_ne (by omega), Function.update_of_ne (by omega)]
        obtain ⟨-, hwin⟩ | hall := h.mirrored q hq
        · omega
        · exact hall j hj

theorem moveWindow_working (h : fs.Working v) (s : ℕ) :
    (moveWindow v fs s).1 = .ok ∧ (moveWindow v fs s).2.Working v := by
  have hmove : (moveWindow v fs s).1 = .ok ∧ (moveWindow v fs s).2.drive.Quiet ∧
      (moveWindow v fs s).2.Mirrored v := by
    unfold moveWindow
    split
    · exact ⟨rfl, h.quiet, h.mirrored⟩
    · obtain ⟨hok, hquiet, hcopied⟩ := writeBack_working h
      cases hb : writeBack v fs with
      | mk res fs₁ =>
        rw [hb] at hok hquiet hcopied
        simp only at hok hquiet hcopied
        subst hok
        simp only
        split
        · exact ⟨rfl, hquiet, hcopied.mirrored⟩
        · obtain ⟨hread, hquiet', hsect⟩ := hquiet.diskRead s
          cases hr : fs₁.drive.diskRead s with
          | mk ok rest =>
            rw [hr] at hread hquiet' hsect
            simp only at hread hquiet' hsect
            subst hread
            have hcopied' : FatFs.Copied v
                { fs₁ with win := rest.1, winsect := s, drive := rest.2 } := fun q j hq hj => by
              show rest.2.sectors _ = rest.2.sectors _
              rw [hsect]
              exact hcopied q j hq hj
            exact ⟨rfl, hquiet', hcopied'.mirrored⟩
  obtain ⟨hok, hquiet, hmirrored⟩ := hmove
  have hsound := (moveWindow_ok h.sound (Prod.ext hok rfl : moveWindow v fs s = (.ok, _))).1
  exact ⟨hok, hsound, hquiet, hmirrored⟩

/-- The window is changed on a sector of the table. -/
theorem FatFs.Working.put {q : ℕ} (h : fs.Working v) (hq : q < v.fsize)
    (hpos : fs.winsect = v.fatbase + q) (win : Memory) :
    { fs with win := win, wflag := true }.Working v where
  sound := FatFs.sound_put win (by rw [hpos]; exact v.table_seen hq) (by omega)
  quiet := h.quiet
  mirrored q' hq' := by
    by_cases hqq : q' = q
    · exact .inl ⟨rfl, by rw [hqq]; exact hpos⟩
    · obtain ⟨-, hwin⟩ | hall := h.mirrored q' hq'
      · omega
      · exact .inr hall

theorem moveWindow_table_working {a : ℕ} (h : fs.Working v) (ha : a < v.fsize * v.ssize) :
    ∃ fs', moveWindow v fs (v.fatbase + a / v.ssize) = (.ok, fs') ∧ fs'.Working v ∧
      fs'.winsect = v.fatbase + a / v.ssize := by
  obtain ⟨hok, hworking⟩ := moveWindow_working h (v.fatbase + a / v.ssize)
  have hmove : moveWindow v fs (v.fatbase + a / v.ssize) =
      (.ok, (moveWindow v fs (v.fatbase + a / v.ssize)).2) := Prod.ext hok rfl
  exact ⟨_, hmove, hworking, (moveWindow_table h.sound ha hmove).2.2.1⟩

theorem getFat_working (h : fs.Working v) (c : ℕ) :
    (getFat v fs c).2.Working v ∧ (getFat v fs c).1 ≠ fatDiskError := by
  unfold getFat
  split
  · exact ⟨h, (by decide : (1 : ℕ) ≠ fatDiskError)⟩
  · next hrange =>
    have hbytes := v.entry_bytes (c := c) (by omega)
    have hsmall : ∀ n, n < 2 ^ 28 → n ≠ fatDiskError := fun n hn => by
      rw [fatDiskError]
      omega
    cases hft : v.fsType with
    | fat12 =>
      simp only [hft] at hbytes
      obtain ⟨fs₁, hm₁, hw₁, -⟩ := moveWindow_table_working h (a := c + c / 2) (by omega)
      obtain ⟨fs₂, hm₂, hw₂, -⟩ := moveWindow_table_working hw₁ hbytes
      simp only [hm₁, hm₂]
      refine ⟨hw₂, hsmall _ ?_⟩
      have hlow := (fs₁.win ((c + c / 2) % v.ssize)).toNat_lt
      have hhigh := (fs₂.win ((c + c / 2 + 1) % v.ssize)).toNat_lt
      have hpair : (fs₁.win ((c + c / 2) % v.ssize)).toNat |||
          (fs₂.win ((c + c / 2 + 1) % v.ssize)).toNat <<< 8 < 2 ^ 16 := by
        refine Nat.or_lt_two_pow (by omega) ?_
        rw [Nat.shiftLeft_eq]
        omega
      split
      · exact (Nat.shiftRight_le _ _).trans_lt (hpair.trans (by decide))
      · exact Nat.and_le_left.trans_lt (hpair.trans (by decide))
    | fat16 =>
      simp only [hft, v.div_ssize (by decide : 2 ∣ 512)] at hbytes ⊢
      obtain ⟨fs₁, hm₁, hw₁, -⟩ := moveWindow_table_working h (a := c * 2) (by omega)
      simp only [hm₁]
      have hlt := load_lt fs₁.win (c * 2 % v.ssize) 2
      exact ⟨hw₁, hsmall _ (by omega)⟩
    | fat32 =>
      simp only [hft, v.div_ssize (by decide : 4 ∣ 512)] at hbytes ⊢
      obtain ⟨fs₁, hm₁, hw₁, -⟩ := moveWindow_table_working h (a := c * 4) (by omega)
      simp only [hm₁]
      refine ⟨hw₁, hsmall _ ?_⟩
      have hmask : load fs₁.win (c * 4 % v.ssize) 4 &&& 0x0FFFFFFF =
          load fs₁.win (c * 4 % v.ssize) 4 % 2 ^ 28 := Nat.and_two_pow_sub_one_eq_mod _ 28
      rw [hmask]
      exact Nat.mod_lt _ (by decide)

theorem putFat_working (h : fs.Working v) {c : ℕ} (val : ℕ) (hlo : 2 ≤ c) (hc : c < v.nFatent) :
    (putFat v fs c val).1 = .ok ∧ (putFat v fs c val).2.Working v := by
  have hbytes := v.entry_bytes hc
  have hentry : (putEntry v fs c val).1 = .ok ∧
      { (putEntry v fs c val).2 with wflag := true }.Working v := by
    unfold putEntry
    cases hft : v.fsType with
    | fat12 =>
      simp only [hft] at hbytes
      obtain ⟨fs₁, hm₁, hw₁, hpos₁⟩ := moveWindow_table_working h (a := c + c / 2) (by omega)
      have hlow := hw₁.put (v.page_lt (k := c + c / 2) (by omega)) hpos₁ (Function.update fs₁.win
        ((c + c / 2) % v.ssize) (fat12Low c val (fs₁.win ((c + c / 2) % v.ssize))))
      obtain ⟨fs₂, hm₂, hw₂, hpos₂⟩ := moveWindow_table_working hlow hbytes
      simp only [hm₁, hm₂]
      exact ⟨trivial, hw₂.put (v.page_lt hbytes) hpos₂ _⟩
    | fat16 =>
      simp only [hft, v.div_ssize (by decide : 2 ∣ 512)] at hbytes ⊢
      obtain ⟨fs₁, hm₁, hw₁, hpos₁⟩ := moveWindow_table_working h (a := c * 2) (by omega)
      simp only [hm₁]
      exact ⟨trivial, hw₁.put (v.page_lt (k := c * 2) (by omega)) hpos₁ _⟩
    | fat32 =>
      simp only [hft, v.div_ssize (by decide : 4 ∣ 512)] at hbytes ⊢
      obtain ⟨fs₁, hm₁, hw₁, hpos₁⟩ := moveWindow_table_working h (a := c * 4) (by omega)
      simp only [hm₁]
      exact ⟨trivial, hw₁.put (v.page_lt (k := c * 4) (by omega)) hpos₁ _⟩
  unfold putFat
  rw [if_neg (by omega)]
  exact hentry

/-! ## `sync` -/

/-- The FSInfo sector as `chk_mounted` checks and reads it. -/
theorem fsInfo_loads (fs : FatFs) :
    load (fsInfo fs) 510 2 = 0xAA55 ∧ load (fsInfo fs) 0 4 = 0x41615252 ∧
      load (fsInfo fs) 484 4 = 0x61417272 ∧ load (fsInfo fs) 488 4 = fs.freeClust % 2 ^ 32 ∧
      load (fsInfo fs) 492 4 = fs.lastClust % 2 ^ 32 := by
  unfold fsInfo
  refine ⟨?_, ?_, ?_, ?_, ?_⟩
  · rw [load_store_apart _ _ (by decide), load_store_apart _ _ (by decide),
      load_store_apart _ _ (by decide), load_store_apart _ _ (by decide), load_store_mod]
    rfl
  · rw [load_store_apart _ _ (by decide), load_store_apart _ _ (by decide),
      load_store_apart _ _ (by decide), load_store_mod]
    rfl
  · rw [load_store_apart _ _ (by decide), load_store_apart _ _ (by decide), load_store_mod]
    rfl
  · rw [load_store_apart _ _ (by decide), load_store_mod, show 256 ^ 4 = 2 ^ 32 by decide]
  · rw [load_store_mod, show 256 ^ 4 = 2 ^ 32 by decide]

/-- Behind a move to zero nothing waits to be written. -/
theorem moveWindow_zero (h : fs.Sound v) (hm : moveWindow v fs 0 = (.ok, fs')) :
    fs'.wflag = false := by
  unfold moveWindow at hm
  split at hm
  · next hpos =>
    simp only [Prod.mk.injEq, true_and] at hm
    subst hm
    by_contra hflag
    exact (h.changed (by simpa using hflag)).1.1 hpos
  · cases hb : writeBack v fs with
    | mk res fs₁ =>
      rw [hb] at hm
      cases res with
      | ok =>
        simp only [if_true, Prod.mk.injEq, true_and] at hm
        subst hm
        exact (writeBack_ok h hb).1.clean
      | _ => simp at hm

/-- A copy of the table as it is on the drive. -/
def FatFs.tableOnDrive (v : FatVolume) (fs : FatFs) (j : ℕ) : Memory :=
  paged (fun q => fs.drive.sectors (v.fatbase + q + j * v.fsize)) v.ssize

/-- After `sync` every copy of the table on the drive has the entries that `get_fat` reads, and
the FSInfo sector has the counts. -/
theorem syncFs_working (h : fs.Working v) (hfsi : v.fsType = .fat32 → v.fsiSector < v.fatbase) :
    ∃ fs', syncFs v fs = (.ok, fs') ∧
      (∀ c j, c < v.nFatent → j < v.nFats →
        v.fsType.entry (fs'.tableOnDrive v j) c = fs.entry v c) ∧
      (v.fsType = .fat32 → fs.fsiFlag = true →
        load (fs'.drive.sectors v.fsiSector) 488 4 = fs.freeClust % 2 ^ 32 ∧
          load (fs'.drive.sectors v.fsiSector) 492 4 = fs.lastClust % 2 ^ 32) := by
  obtain ⟨hok, hw⟩ := moveWindow_working h 0
  have hmove : moveWindow v fs 0 = (.ok, (moveWindow v fs 0).2) := Prod.ext hok rfl
  have hclean := moveWindow_zero h.sound hmove
  obtain ⟨-, hsame, -⟩ := moveWindow_ok h.sound hmove
  generalize (moveWindow v fs 0).2 = fs₁ at hmove hw hclean hsame
  have hcopied := hw.mirrored.copied hclean
  have hstore := (hw.sound.coherent.writtenBack hclean).store
  have htable : ∀ (sectors : ℕ → Memory), (∀ q j, q < v.fsize → j < v.nFats →
      sectors (v.fatbase + q + j * v.fsize) = fs₁.drive.sectors (v.fatbase + q + j * v.fsize)) →
      ∀ c j, c < v.nFatent → j < v.nFats →
        v.fsType.entry (paged (fun q => sectors (v.fatbase + q + j * v.fsize)) v.ssize) c =
          fs.entry v c := by
    intro sectors hsectors c j hc hj
    rw [← hsame.entry hc]
    refine v.fsType.entry_congr hc fun k hk => ?_
    have hpage := v.page_lt (k := k) (by have hle := v.table_le; omega)
    rw [paged, hsectors _ j hpage hj, hcopied _ j hpage hj]
    exact congrFun (hstore _ (v.table_seen hpage)) _
  have hfree := hsame.freeClust
  have hlast := hsame.lastClust
  have hflag := hsame.fsiFlag
  unfold syncFs
  rw [hmove]
  by_cases hinfo : v.fsType = .fat32 ∧ fs₁.fsiFlag = true
  · obtain ⟨-, hquiet, hsect⟩ := hw.quiet.diskWrite (fsInfo fs₁) v.fsiSector
    have hsync : (fs₁.drive.diskWrite (fsInfo fs₁) v.fsiSector).2.ctrlSync =
        (true, (fs₁.drive.diskWrite (fsInfo fs₁) v.fsiSector).2.afterCall) := by
      rw [Drive.ctrlSync, hquiet 0]
      rfl
    obtain ⟨-, -, -, hcount, hnext⟩ := fsInfo_loads fs₁
    have hbefore := hfsi hinfo.1
    simp only [if_pos hinfo, hsync]
    refine ⟨_, rfl, htable _ fun q j hq hj => ?_, fun _ _ => ?_⟩
    · show (fs₁.drive.diskWrite (fsInfo fs₁) v.fsiSector).2.sectors _ = _
      rw [hsect, Function.update_of_ne (by omega)]
    · show load ((fs₁.drive.diskWrite (fsInfo fs₁) v.fsiSector).2.sectors v.fsiSector) 488 4 = _ ∧
        load ((fs₁.drive.diskWrite (fsInfo fs₁) v.fsiSector).2.sectors v.fsiSector) 492 4 = _
      rw [hsect, Function.update_self, hcount, hnext, hfree, hlast]
      exact ⟨rfl, rfl⟩
  · have hsync : fs₁.drive.ctrlSync = (true, fs₁.drive.afterCall) := by
      rw [Drive.ctrlSync, hw.quiet 0]
      rfl
    simp only [if_neg hinfo, hsync]
    refine ⟨_, rfl, htable _ fun q j _ _ => rfl, fun hft hset => ?_⟩
    exact absurd ⟨hft, hflag.trans hset⟩ hinfo

/-- What is read when the window has moved nowhere yet is what is on the drive. -/
theorem FatFs.entry_unmoved {m : FatFs} (hzero : m.winsect = 0) (c : ℕ) :
    m.entry v c = v.fsType.entry (m.tableOnDrive v 0) c := by
  have htable : m.table v = m.tableOnDrive v 0 := by
    unfold FatFs.table FatFs.tableOnDrive
    congr 1
    funext q
    rw [Nat.zero_mul, Nat.add_zero]
    have hpos := v.fatbase_pos
    exact Window.view_of_ne (by show v.fatbase + q ≠ m.winsect; omega)
  rw [FatFs.entry, htable]

end Mirrors

end RtThread
