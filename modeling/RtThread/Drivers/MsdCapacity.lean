import RtThread.Drivers.MsdInitEnds
import RtThread.Drivers.MsdCounts
import Mathlib.Tactic.IntervalCases

/-!
# The capacity of an SD card

The sectors that the card specific data specify, and those that the initialisation stores.
A register of version 2 counts blocks of 512 KB, of which the driver makes half; the
largest capacity of version 1 wraps to zero.
-/
namespace RtThread.Msd
open Procedures

/-! ## The register -/

/-- The register as a number, the first byte highest. -/
def csdNat (csd : List UInt8) : ℕ := csd.foldl (fun n b => n * 256 + b.toNat) 0

/-- The bits from `high` down to `low`. -/
def csdField (csd : List UInt8) (high low : ℕ) : ℕ := csdNat csd / 2 ^ low % 2 ^ (high - low + 1)

def csdStructure (csd : List UInt8) : ℕ := csdField csd 127 126
def readBlLen (csd : List UInt8) : ℕ := csdField csd 83 80
def cSizeMult (csd : List UInt8) : ℕ := csdField csd 49 47

/-- `C_SIZE` of version 1. -/
def cSize (csd : List UInt8) : ℕ := csdField csd 73 62

/-- `C_SIZE` of version 2. -/
def cSizeHigh (csd : List UInt8) : ℕ := csdField csd 69 48

/-- The number of sectors that a register specifies. -/
def csdSectors (csd : List UInt8) : ℕ :=
  if csdStructure csd = 0 then
    (cSize csd + 1) * 2 ^ (cSizeMult csd + 2) * 2 ^ readBlLen csd / 512
  else (cSizeHigh csd + 1) * 1024

/-- The fields of a register of 16 bytes. -/
theorem csd_fields (b₀ b₁ b₂ b₃ b₄ b₅ b₆ b₇ b₈ b₉ b₁₀ b₁₁ b₁₂ b₁₃ b₁₄ b₁₅ : UInt8) :
    let csd := [b₀, b₁, b₂, b₃, b₄, b₅, b₆, b₇, b₈, b₉, b₁₀, b₁₁, b₁₂, b₁₃, b₁₄, b₁₅]
    csdStructure csd = b₀.toNat / 64 ∧ readBlLen csd = b₅.toNat % 16 ∧
      cSize csd = b₆.toNat % 4 * 1024 + b₇.toNat * 4 + b₈.toNat / 64 ∧
      cSizeMult csd = b₉.toNat % 4 * 2 + b₁₀.toNat / 128 ∧
      cSizeHigh csd = b₇.toNat % 64 * 65536 + b₈.toNat * 256 + b₉.toNat := by
  have h := fun b : UInt8 => b.toNat_lt
  have h₀ := h b₀
  have h₁ := h b₁
  have h₂ := h b₂
  have h₃ := h b₃
  have h₄ := h b₄
  have h₅ := h b₅
  have h₆ := h b₆
  have h₇ := h b₇
  have h₈ := h b₈
  have h₉ := h b₉
  have h₁₀ := h b₁₀
  have h₁₁ := h b₁₁
  have h₁₂ := h b₁₂
  have h₁₃ := h b₁₃
  have h₁₄ := h b₁₄
  have h₁₅ := h b₁₅
  clear h
  simp only [csdStructure, readBlLen, cSize, cSizeMult, cSizeHigh, csdField, csdNat,
    List.foldl_cons, List.foldl_nil]
  refine ⟨?_, ?_, ?_, ?_, ?_⟩ <;> omega

/-! ## What the driver makes of it -/

theorem csdByte_toNat (csd : List UInt8) (i : ℕ) (mask : UInt8) :
    (csdByte csd i mask).toNat = (csd.getD i 0).toNat &&& mask.toNat := by
  have hlt := (csd.getD i 0 &&& mask).toNat_lt
  rw [csdByte, BitVec.toNat_ofNat, Nat.mod_eq_of_lt (by omega), UInt8.toNat_and]

theorem and_high : ∀ n < 256, n &&& 0xC0 = n / 64 * 64 ∧ n &&& 0x80 = n / 128 * 128 := by
  decide +kernel

theorem and_low : ∀ n < 256, n &&& 0x03 = n % 4 ∧ n &&& 0x0F = n % 16 ∧ n &&& 0x3F = n % 64 ∧
    n &&& 0xFF = n := by
  decide +kernel

theorem exists_bytes {csd : List UInt8} (hlen : csd.length = 16) :
    ∃ b₀ b₁ b₂ b₃ b₄ b₅ b₆ b₇ b₈ b₉ b₁₀ b₁₁ b₁₂ b₁₃ b₁₄ b₁₅ : UInt8,
      csd = [b₀, b₁, b₂, b₃, b₄, b₅, b₆, b₇, b₈, b₉, b₁₀, b₁₁, b₁₂, b₁₃, b₁₄, b₁₅] := by
  refine ⟨csd[0], csd[1], csd[2], csd[3], csd[4], csd[5], csd[6], csd[7], csd[8], csd[9], csd[10],
    csd[11], csd[12], csd[13], csd[14], csd[15], ?_⟩
  refine List.ext_getElem (by simp [hlen]) fun i hi _ => ?_
  have hi' : i < 16 := hlen ▸ hi
  interval_cases i <;> rfl

theorem structure_toNat {csd : List UInt8} (hlen : csd.length = 16) :
    (csdByte csd 0 0xC0 >>> 6).toNat = csdStructure csd := by
  obtain ⟨b₀, b₁, b₂, b₃, b₄, b₅, b₆, b₇, b₈, b₉, b₁₀, b₁₁, b₁₂, b₁₃, b₁₄, b₁₅, rfl⟩ :=
    exists_bytes hlen
  rw [(csd_fields b₀ b₁ b₂ b₃ b₄ b₅ b₆ b₇ b₈ b₉ b₁₀ b₁₁ b₁₂ b₁₃ b₁₄ b₁₅).1,
    BitVec.toNat_ushiftRight, csdByte_toNat, Nat.shiftRight_eq_div_pow]
  show (b₀.toNat &&& 0xC0) / 2 ^ 6 = _
  rw [(and_high _ b₀.toNat_lt).1]
  omega

/-- `C_SIZE` of version 2, as the driver assembles it. -/
theorem cSizeHigh_toNat {csd : List UInt8} (hlen : csd.length = 16) :
    ((((csdByte csd 7 0x3F <<< 8) + csdByte csd 8 0xFF) <<< 8) + csdByte csd 9 0xFF).toNat =
      cSizeHigh csd := by
  obtain ⟨b₀, b₁, b₂, b₃, b₄, b₅, b₆, b₇, b₈, b₉, b₁₀, b₁₁, b₁₂, b₁₃, b₁₄, b₁₅, rfl⟩ :=
    exists_bytes hlen
  rw [(csd_fields b₀ b₁ b₂ b₃ b₄ b₅ b₆ b₇ b₈ b₉ b₁₀ b₁₁ b₁₂ b₁₃ b₁₄ b₁₅).2.2.2.2]
  simp only [BitVec.toNat_add, BitVec.toNat_shiftLeft, csdByte_toNat, Nat.shiftLeft_eq]
  have h₇ := b₇.toNat_lt
  have h₈ := b₈.toNat_lt
  have h₉ := b₉.toNat_lt
  show ((((b₇.toNat &&& 0x3F) * 2 ^ 8 % 2 ^ 32 + (b₈.toNat &&& 0xFF)) % 2 ^ 32 * 2 ^ 8 % 2 ^ 32) +
    (b₉.toNat &&& 0xFF)) % 2 ^ 32 = _
  rw [(and_low _ h₇).2.2.1, (and_low _ h₈).2.2.2, (and_low _ h₉).2.2.2]
  omega

theorem one_shiftLeft (x : BitVec 32) (hx : x.toNat < 32) : (1#32 <<< x).toNat = 2 ^ x.toNat := by
  rw [BitVec.shiftLeft_eq', BitVec.toNat_shiftLeft, Nat.shiftLeft_eq, Nat.mod_eq_of_lt]
  · simp
  · have hlt := Nat.pow_lt_pow_right (a := 2) (by decide) hx
    simpa using hlt

/-- `card_capacity` of version 1 is right modulo `2 ^ 32`. -/
theorem csdCapacity_toNat {csd : List UInt8} (hlen : csd.length = 16) :
    (csdCapacity csd).toNat =
      2 ^ readBlLen csd * ((cSize csd + 1) * 2 ^ (cSizeMult csd + 2)) % 2 ^ 32 := by
  obtain ⟨b₀, b₁, b₂, b₃, b₄, b₅, b₆, b₇, b₈, b₉, b₁₀, b₁₁, b₁₂, b₁₃, b₁₄, b₁₅, rfl⟩ :=
    exists_bytes hlen
  obtain ⟨-, hbl, hsize, hmult, -⟩ :=
    csd_fields b₀ b₁ b₂ b₃ b₄ b₅ b₆ b₇ b₈ b₉ b₁₀ b₁₁ b₁₂ b₁₃ b₁₄ b₁₅
  generalize hcsd : [b₀, b₁, b₂, b₃, b₄, b₅, b₆, b₇, b₈, b₉, b₁₀, b₁₁, b₁₂, b₁₃, b₁₄, b₁₅] = csd at *
  have hbyte : ∀ i mask, (csdByte csd i mask).toNat = (csd.getD i 0).toNat &&& mask.toNat :=
    csdByte_toNat csd
  have hblLen : (csdByte csd 5 0x0F).toNat = readBlLen csd := by
    rw [hbyte, hbl, ← hcsd]
    exact (and_low _ b₅.toNat_lt).2.1
  have hcSize : (((csdByte csd 6 0x03 <<< 8) + csdByte csd 7 0xFF) <<< 2 +
      (csdByte csd 8 0xC0 >>> 6)).toNat = cSize csd := by
    simp only [BitVec.toNat_add, BitVec.toNat_shiftLeft, BitVec.toNat_ushiftRight, hbyte,
      Nat.shiftLeft_eq, Nat.shiftRight_eq_div_pow, hsize]
    have h₆ := b₆.toNat_lt
    have h₇ := b₇.toNat_lt
    have h₈ := b₈.toNat_lt
    rw [← hcsd]
    show (((b₆.toNat &&& 0x03) * 2 ^ 8 % 2 ^ 32 + (b₇.toNat &&& 0xFF)) % 2 ^ 32 * 2 ^ 2 % 2 ^ 32 +
      (b₈.toNat &&& 0xC0) / 2 ^ 6) % 2 ^ 32 = _
    rw [(and_low _ h₆).1, (and_low _ h₇).2.2.2, (and_high _ h₈).1]
    omega
  have hcMult : ((csdByte csd 9 0x03 <<< 1) + (csdByte csd 10 0x80 >>> 7) + 2).toNat =
      cSizeMult csd + 2 := by
    simp only [BitVec.toNat_add, BitVec.toNat_shiftLeft, BitVec.toNat_ushiftRight, hbyte,
      Nat.shiftLeft_eq, Nat.shiftRight_eq_div_pow, hmult]
    have h₉ := b₉.toNat_lt
    have h₁₀ := b₁₀.toNat_lt
    rw [← hcsd]
    show (((b₉.toNat &&& 0x03) * 2 ^ 1 % 2 ^ 32 + (b₁₀.toNat &&& 0x80) / 2 ^ 7) % 2 ^ 32 + 2) %
      2 ^ 32 = _
    rw [(and_low _ h₉).1, (and_high _ h₁₀).2]
    omega
  have hlt : readBlLen csd < 32 ∧ cSizeMult csd + 2 < 32 := by
    have h₁₀ := b₁₀.toNat_lt
    rw [hbl, hmult]
    omega
  rw [csdCapacity, BitVec.toNat_mul, BitVec.toNat_mul, BitVec.toNat_add, hcSize,
    one_shiftLeft _ (by rw [hblLen]; exact hlt.1), one_shiftLeft _ (by rw [hcMult]; exact hlt.2),
    hblLen, hcMult]
  simp only [Nat.mul_mod, Nat.mod_mod]
  rfl

/-- The driver is right about version 1 unless the capacity is `2 ^ 32`, and wrong about
version 2. -/
theorem analyzeCsd_sectors_iff {csd : List UInt8} (hlen : csd.length = 16) {cardType : MsdCardType}
    (hsd : cardType ≠ .mmc) {maxClock sectorCount : BitVec 32}
    (h : analyzeCsd cardType sectorSize csd = some (maxClock, sectorCount))
    (hkind : csdStructure csd = 0 ∧ 9 ≤ readBlLen csd ∧ readBlLen csd ≤ 11 ∨ csdStructure csd = 1) :
    sectorCount.toNat = csdSectors csd ↔ csdStructure csd = 0 ∧
      ¬(readBlLen csd = 11 ∧ cSize csd = 4095 ∧ cSizeMult csd = 7) := by
  have hversion := structure_toNat hlen
  have hsize : cSize csd < 4096 := Nat.mod_lt _ (by decide)
  have hmult : cSizeMult csd < 8 := Nat.mod_lt _ (by decide)
  have hhigh : cSizeHigh csd < 4194304 := Nat.mod_lt _ (by decide)
  simp only [analyzeCsd, if_neg hsd] at h
  rcases hkind with ⟨hzero, hlow, hle⟩ | hone
  · have hbits : csdByte csd 0 0xC0 >>> 6 = 0 :=
      BitVec.eq_of_toNat_eq (hversion.trans hzero)
    rw [if_pos hbits] at h
    obtain ⟨-, rfl⟩ := Prod.mk.inj (Option.some.inj h)
    rw [BitVec.toNat_udiv, csdCapacity_toNat hlen, csdSectors, if_pos hzero,
      show sectorSize.toNat = 512 from rfl]
    generalize readBlLen csd = bl at *
    generalize cSizeMult csd = mult at *
    interval_cases bl <;> interval_cases mult <;> omega
  · have hne : ¬csdByte csd 0 0xC0 >>> 6 = 0 := fun he => by
      rw [he, hone] at hversion
      contradiction
    have hbits : csdByte csd 0 0xC0 >>> 6 = 1 := BitVec.eq_of_toNat_eq (hversion.trans hone)
    rw [if_neg hne, if_pos hbits] at h
    obtain ⟨-, rfl⟩ := Prod.mk.inj (Option.some.inj h)
    refine iff_of_false ?_ fun hc => by omega
    rw [BitVec.toNat_mul, BitVec.toNat_udiv, BitVec.toNat_add, cSizeHigh_toNat hlen, csdSectors,
      if_neg (by omega)]
    show ¬(cSizeHigh csd + 1) % 2 ^ 32 / 2 * 1024 % 2 ^ 32 = _
    omega

/-! ## What the initialisation stores -/

variable {env : MsdEnv} {s s' t : MsdState} {α β : Type}

/-- The register is what the card sent before the last checksum. -/
def csdOf (s : MsdState) : List UInt8 := ((received s).drop (s.log.length - 18)).take 16

/-- The stored count is the one of the register. -/
def CsdStored (s : MsdState) : Prop :=
  (csdOf s).length = 16 ∧
    ∃ maxClock, analyzeCsd s.cardType sectorSize (csdOf s) = some (maxClock, s.sectorCount)

theorem readBlock_csdOf {csd : List UInt8}
    (h : (readBlock env msdCsdLen).Returns s (.eok, csd) s') :
    csd.length = 16 ∧ csdOf s' = csd ∧ s'.cardType = s.cardType ∧
      s'.bytesPerSector = s.bytesPerSector := by
  obtain ⟨seg, gap, crc, ⟨n, rfl⟩, hseg, -, hlen, hcrc⟩ := readBlock_eok h
  have hlen' : csd.length = 16 := hlen
  refine ⟨hlen', ?_, rfl, rfl⟩
  have hlog : seg.length = gap.length + 1 + 18 := by
    have hcount := congrArg List.length hseg
    simp only [List.length_map, List.length_append, List.length_cons, hlen', hcrc] at hcount
    omega
  have hdrop : s.log.length + seg.length - 18 =
      (received s ++ (gap ++ [tokenReadStart])).length := by
    simp only [received, List.length_append, List.length_map, List.length_singleton]
    omega
  rw [csdOf, received, List.map_append, hseg, List.length_append, hdrop,
    show s.log.map Prod.snd ++ (gap ++ tokenReadStart :: (csd ++ crc)) =
      (received s ++ (gap ++ [tokenReadStart])) ++ (csd ++ crc) by simp [received],
    List.drop_left, ← hlen', List.take_left]

/-- A part that goes to the exit goes with an error. -/
def ExitsWithError (p : MsdProc (Part α)) : Prop :=
  p.Triple (fun _ => True) fun r _ => r ≠ .inl .eok

/-- Only the last procedure decides. -/
theorem triple_last {p : MsdProc α} {f : α → MsdProc β} {Q : β → MsdState → Prop}
    (hf : ∀ a, (f a).Triple (fun _ => True) Q) : (p >>= f).Triple (fun _ => True) Q :=
  Proc.Triple.bind (Q := fun _ _ => True) (fun _ _ _ _ _ => trivial) hf

theorem triple_orExit {p : MsdProc (Part α)} {next : α → MsdProc (Part β)}
    {Q : Part β → MsdState → Prop} (hp : ExitsWithError p)
    (hnext : ∀ a, (next a).Triple (fun _ => True) Q) (hQ : ∀ e s, e ≠ .eok → Q (.inl e) s) :
    (orExit p next).Triple (fun _ => True) Q := by
  refine Proc.Triple.bind hp fun r => ?_
  cases r with
  | inl e => exact Proc.triple_pure fun s hs => hQ e s fun he => hs (he ▸ rfl)
  | inr a => exact (hnext a).weaken (fun _ _ => trivial) fun _ _ h => h

theorem exits_orExit {p : MsdProc (Part α)} {next : α → MsdProc (Part β)} (hp : ExitsWithError p)
    (hnext : ∀ a, ExitsWithError (next a)) : ExitsWithError (orExit p next) :=
  triple_orExit hp hnext fun _ _ he h => he (Sum.inl.inj h)

theorem exits_pure {r : Part α} (h : r ≠ .inl .eok) : ExitsWithError (pure r) :=
  Proc.triple_pure fun _ _ => h

theorem exits_loop {ι : Type} {body : ι → MsdProc (ι ⊕ Part α)}
    (hbody : ∀ i, (body i).Triple (fun _ => True) fun r _ => r ≠ .inr (.inl .eok)) (i : ι) :
    ExitsWithError (Proc.loop body i) := by
  refine Proc.triple_loop (I := fun _ _ => True) (fun i => ?_) i
  refine (hbody i).weaken (fun _ h => h) fun r s h => ?_
  cases r with
  | inl _ => trivial
  | inr a => exact fun he => h (congrArg Sum.inr he)

theorem exits_retryCommand (cmd crc expected : UInt8) (response : MsdResponse) :
    ExitsWithError (retryCommand env cmd crc expected response) := by
  refine triple_last fun tickStart => exits_loop (fun response => ?_) response
  refine triple_last fun (result, response) => ?_
  dsimp only
  split
  · exact Proc.triple_pure fun _ _ => by simp
  · refine triple_last fun late => ?_
    cases late <;> exact Proc.triple_pure fun _ _ => by simp

theorem exits_cmd8 (response : MsdResponse) : ExitsWithError (cmd8 env response) := by
  have hagain : ∀ response, (pure (cmd8Again response) : MsdProc _).Triple (fun _ => True)
      fun r _ => r ≠ .inr (.inl .eok) := by
    intro response
    refine Proc.triple_pure fun _ _ => ?_
    unfold cmd8Again
    split <;> simp
  refine triple_last fun tickStart => exits_loop (fun response => ?_) response
  refine triple_last fun (result, response) => ?_
  dsimp only
  split
  · split
    · exact triple_last fun _ => Proc.triple_pure fun _ _ => by simp
    · refine triple_last fun _ => ?_
      split
      · exact Proc.triple_pure fun _ _ => by simp
      · exact hagain response
  · refine triple_last fun late => ?_
    split
    · exact Proc.triple_pure fun _ _ => by simp
    · exact hagain response

theorem exits_readOcrCmd (response : MsdResponse) : ExitsWithError (readOcrCmd env response) := by
  refine triple_last fun _ => triple_last fun (result, response) => ?_
  dsimp only
  split
  · next hne => exact triple_last fun _ => exits_pure fun he => hne (Sum.inl.inj he)
  · exact triple_last fun _ => exits_pure (by simp)

theorem exits_tryMmc (response : MsdResponse) : ExitsWithError (tryMmc env response) :=
  triple_last fun _ => triple_last fun _ =>
    exits_orExit (exits_retryCommand _ _ _ _) fun _ =>
      exits_orExit (exits_retryCommand _ _ _ _) fun _ => triple_last fun _ => exits_pure (by simp)

theorem exits_initV1 (response : MsdResponse) : ExitsWithError (initV1 env response) := by
  have htry : ExitsWithError (trySdV1 env response) := by
    refine exits_orExit (exits_readOcrCmd response) fun (isSd, response) => ?_
    dsimp only
    split
    · exact exits_pure (by simp)
    · split
      · exact exits_pure (by simp)
      · exact triple_last fun r => exits_pure (by simp)
  refine exits_orExit htry fun (isSdV1X, response) => ?_
  dsimp only
  split
  · exact exits_pure (by simp)
  · exact exits_tryMmc response

theorem exits_acmd41V2 (response : MsdResponse) : ExitsWithError (acmd41V2 env response) := by
  have hagain : ∀ response, (pure (acmd41Again response) : MsdProc _).Triple (fun _ => True)
      fun r _ => r ≠ .inr (.inl .eok) := by
    intro response
    refine Proc.triple_pure fun _ _ => ?_
    unfold acmd41Again
    split <;> simp
  refine triple_last fun tickStart => exits_loop (fun response => ?_) response
  refine triple_last fun _ => triple_last fun late => ?_
  split
  · exact triple_last fun _ => Proc.triple_pure fun _ _ => by simp
  · refine triple_last fun (result, response) => ?_
    dsimp only
    split
    · exact triple_last fun _ => hagain response
    · split
      · exact triple_last fun _ => Proc.triple_pure fun _ _ => by simp
      · refine triple_last fun (result, response) => ?_
        dsimp only
        split
        · exact triple_last fun _ => Proc.triple_pure fun _ _ => by simp
        · split
          · exact triple_last fun _ => hagain response
          · exact hagain response

theorem exits_initV2 (response : MsdResponse) : ExitsWithError (initV2 env response) := by
  refine exits_orExit (exits_readOcrCmd response) fun (isSd, response) => ?_
  dsimp only
  split
  · exact exits_pure (by simp)
  · split
    · exact exits_pure (by simp)
    · refine exits_orExit (exits_acmd41V2 response) fun response => triple_last fun _ => ?_
      refine exits_orExit (exits_readOcrCmd response) fun (isSd, response) => ?_
      dsimp only
      split
      · exact exits_pure (by simp)
      · split
        · exact triple_last fun _ => exits_pure (by simp)
        · exact exits_pure (by simp)

theorem exits_mustAccept (cmd : UInt8) (arg : BitVec 32) (crc : UInt8) (response : MsdResponse) :
    ExitsWithError (mustAccept env cmd arg crc response) := by
  refine triple_last fun _ => triple_last fun (result, response) => ?_
  dsimp only
  split
  · exact exits_pure (by simp)
  · exact exits_pure (by simp)

/-- What a successful initialisation leaves, and what it exits with otherwise. -/
def Initialised (r : Part Unit) (s : MsdState) : Prop :=
  r ≠ .inl .eok ∧ (r = .inr () → CsdStored s)

theorem initialised_error {e : MsdErr} (s : MsdState) (he : e ≠ .eok) : Initialised (.inl e) s :=
  ⟨fun h => he (Sum.inl.inj h), fun h => by contradiction⟩

theorem readCsd_stored (response : MsdResponse) :
    (readCsd env response).Triple (fun s => s.bytesPerSector = sectorSize) Initialised := by
  intro s r s' hs h
  rw [readCsd, Proc.returns_bind_of (a := ()) (returns_msdTakeCs.mpr rfl), Proc.returns_bind] at h
  obtain ⟨⟨result, response'⟩, t, hcmd, h⟩ := h
  obtain ⟨seg, n, rfl⟩ := (does_sendCmd ..).keeps _ _ _ hcmd
  dsimp only at h
  split at h
  · next hne =>
    obtain ⟨_, _, -, h⟩ := Proc.returns_bind.mp h
    obtain ⟨rfl, -⟩ := Proc.returns_pure.mp h
    exact initialised_error _ hne
  · split at h
    · obtain ⟨_, _, -, h⟩ := Proc.returns_bind.mp h
      obtain ⟨rfl, -⟩ := Proc.returns_pure.mp h
      exact initialised_error _ (by simp)
    · obtain ⟨⟨result, csd⟩, u, hblock, h⟩ := Proc.returns_bind.mp h
      dsimp only at h
      rw [Proc.returns_bind_of (a := ()) (returns_msdReleaseCs.mpr rfl)] at h
      split at h
      · next hne =>
        obtain ⟨rfl, -⟩ := Proc.returns_pure.mp h
        exact initialised_error _ hne
      · next heq =>
        obtain rfl : result = .eok := not_not.mp heq
        obtain ⟨hlen, hcsd, htype, hbytes⟩ := readBlock_csdOf hblock
        rw [Proc.returns_bind_of (Proc.returns_read.mpr ⟨rfl, rfl⟩),
          Proc.returns_bind_of (Proc.returns_read.mpr ⟨rfl, rfl⟩)] at h
        cases hanalysis : analyzeCsd u.cardType u.bytesPerSector csd with
        | none =>
          simp only [hanalysis] at h
          obtain ⟨rfl, -⟩ := Proc.returns_pure.mp h
          exact initialised_error _ (by simp)
        | some found =>
          simp only [hanalysis] at h
          rw [Proc.returns_bind_of (a := ()) (Proc.returns_modify.mpr rfl)] at h
          obtain ⟨rfl, rfl⟩ := Proc.returns_pure.mp h
          refine ⟨by simp, fun _ => ⟨hcsd ▸ hlen, found.1, ?_⟩⟩
          rw [hbytes.trans hs] at hanalysis
          exact (congrArg (analyzeCsd u.cardType sectorSize) hcsd).trans hanalysis

theorem setUpCard_stored (response : MsdResponse) :
    (setUpCard env response).Triple (fun _ => True) Initialised := by
  refine triple_last fun _ => ?_
  refine triple_orExit (exits_mustAccept _ _ _ _) (fun response => ?_) fun _ s => initialised_error s
  refine triple_orExit (exits_mustAccept _ _ _ _) (fun response => ?_) fun _ s => initialised_error s
  refine (Proc.triple_modify (Q := fun _ s => s.bytesPerSector = sectorSize)
    fun s _ => rfl).bind fun _ => ?_
  refine (readCsd_stored response).bind fun r => ?_
  cases r with
  | inl e => exact Proc.triple_pure fun s hs => hs
  | inr _ =>
    refine Proc.triple_read.bind fun maxClock => ?_
    intro s r s' hs h
    rw [Proc.returns_bind_of (a := ()) (returns_configureSpi.mpr rfl)] at h
    obtain ⟨rfl, rfl⟩ := Proc.returns_pure.mp h
    exact hs.1

theorem initCard_stored (response : MsdResponse) :
    (initCard env response).Triple (fun _ => True) Initialised := by
  refine triple_orExit (exits_cmd8 response) (fun response => ?_) fun _ s => initialised_error s
  refine triple_last fun cardType => ?_
  split
  · exact triple_orExit (exits_initV1 response) setUpCard_stored fun _ s => initialised_error s
  · split
    · exact triple_orExit (exits_initV2 response) setUpCard_stored fun _ s => initialised_error s
    · exact Proc.triple_pure fun s _ => initialised_error s (by simp)

/-- A successful initialisation stores the count of the last register. -/
theorem rtMsdInit_stored {response : MsdResponse}
    (h : (rtMsdInit env true response).Returns s .eok s') : CsdStored s' := by
  by_cases hbus : BusTaken env s
  · obtain ⟨r, t, hbody, hr, rfl⟩ := (rtMsdInit_taken hbus).mp h
    have hinit : (orExit (wakeCard env response) (initCard env)).Triple (fun _ => True)
        Initialised := by
      refine triple_orExit ?_ initCard_stored fun _ s => initialised_error s
      exact triple_last fun _ => triple_last fun _ => exits_retryCommand _ _ _ _
    obtain ⟨hne, hstored⟩ := hinit _ _ _ trivial hbody
    cases r with
    | inl e => exact absurd (congrArg Sum.inl hr.symm) hne
    | inr _ => exact hstored rfl
  · have hcontra := (h.unique (rtMsdInit_refused hbus)).1
    contradiction

end RtThread.Msd

namespace RtThread
open Procedures Msd

/-- The stored count is the one that the register specifies exactly for registers of version 1
that specify less than `2 ^ 32` bytes. -/
theorem capacity_exact_iff (env : MsdEnv) (response : MsdResponse) (s s' : MsdState)
    (h : (rtMsdInit env true response).Returns s .eok s') (hsd : s'.cardType ≠ .mmc)
    (hkind : csdStructure (csdOf s') = 0 ∧ 9 ≤ readBlLen (csdOf s') ∧ readBlLen (csdOf s') ≤ 11 ∨
      csdStructure (csdOf s') = 1) :
    s'.sectorCount.toNat = csdSectors (csdOf s') ↔ csdStructure (csdOf s') = 0 ∧
      ¬(readBlLen (csdOf s') = 11 ∧ cSize (csdOf s') = 4095 ∧ cSizeMult (csdOf s') = 7) := by
  obtain ⟨hlen, maxClock, hanalysis⟩ := rtMsdInit_stored h
  exact analyzeCsd_sectors_iff hlen hsd hanalysis hkind

/-- The answers to a command of a card that is ready. -/
def answered (response : List UInt8) : List UInt8 := List.replicate 9 0xFF ++ response

/-- A version 2 card with a register, and the first byte of its conditions. -/
def cardWith (ocr : UInt8) (csd : List UInt8) : MsdEnv :=
  let script := List.replicate 100 0xFF ++ answered [0x01] ++
    answered [0x01, 0x00, 0x00, 0x01, 0xAA] ++ answered [0x00, 0x00, 0xFF, 0x80, 0x00] ++
    answered [0x01] ++ answered [0x00] ++ answered [0x00, ocr, 0xFF, 0x80, 0x00] ++
    answered [0x00] ++ answered [0x00] ++ answered [0x00] ++ [0xFE] ++ csd ++ [0x00, 0x00]
  ⟨fun k => script.getD k 0xFF, fun _ => 0, true, true⟩

def unknownCard : MsdState :=
  ⟨[], 0, false, 0, false, ⟨4, 8, 0, 400000⟩, .unknown, 0, 0, 0, 0, false⟩

/-- A standard card of 1 GB. -/
def csdStandard : List UInt8 :=
  [0x00, 0x26, 0x00, 0x32, 0x5F, 0x5A, 0x83, 0xC9, 0x3E, 0xFB, 0xCF, 0xFF, 0x92, 0x80, 0x40, 0xDF]

/-- A high capacity card of 4 GB. -/
def csdHigh : List UInt8 :=
  [0x40, 0x0E, 0x00, 0x32, 0x5B, 0x59, 0x00, 0x00, 0x1D, 0x69, 0x7F, 0x80, 0x0A, 0x40, 0x40, 0x8B]

theorem capacity_exact_standard : ∃ s', (rtMsdInit (cardWith 0x80 csdStandard) true
    (Vector.replicate 5 0)).Returns unknownCard .eok s' ∧
      s'.sectorCount.toNat = csdSectors (csdOf s') := by
  obtain ⟨⟨result, s'⟩, hr, hfound⟩ := Option.map_eq_some_iff.mp
    (show ((rtMsdInit (cardWith 0x80 csdStandard) true (Vector.replicate 5 0)).run 3
      unknownCard).map (fun r => (r.1, r.2.cardType, csdOf r.2)) =
        some (.eok, .sdV2X, csdStandard) by decide +kernel)
  obtain ⟨rfl, hrest⟩ := Prod.mk.inj hfound
  obtain ⟨htype, hcsd⟩ := Prod.mk.inj hrest
  dsimp only at htype hcsd
  refine ⟨s', ⟨3, hr⟩, (capacity_exact_iff (cardWith 0x80 csdStandard) _ unknownCard s' ⟨3, hr⟩
    (by rw [htype]; decide) (by rw [hcsd]; decide +kernel)).mpr ?_⟩
  rw [hcsd]
  decide +kernel

/-- A high capacity card has twice as many sectors as the driver says. -/
theorem half_of_high_capacity : ∃ s', (rtMsdInit (cardWith 0xC0 csdHigh) true
    (Vector.replicate 5 0)).Returns unknownCard .eok s' ∧ csdStructure (csdOf s') = 1 ∧
      s'.sectorCount.toNat = 3855360 ∧ csdSectors (csdOf s') = 7710720 := by
  obtain ⟨⟨result, s'⟩, hr, hfound⟩ := Option.map_eq_some_iff.mp
    (show ((rtMsdInit (cardWith 0xC0 csdHigh) true (Vector.replicate 5 0)).run 3
      unknownCard).map (fun r => (r.1, r.2.sectorCount, csdOf r.2)) =
        some (.eok, 3855360, csdHigh) by decide +kernel)
  obtain ⟨rfl, hrest⟩ := Prod.mk.inj hfound
  obtain ⟨hcount, hcsd⟩ := Prod.mk.inj hrest
  dsimp only at hcount hcsd
  refine ⟨s', ⟨3, hr⟩, ?_, ?_, ?_⟩
  · rw [hcsd]
    decide +kernel
  · rw [hcount]
    rfl
  · rw [hcsd]
    decide +kernel

end RtThread
