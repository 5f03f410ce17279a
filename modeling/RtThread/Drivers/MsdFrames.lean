import RtThread.Drivers.MsdTalks
import RtThread.Library.CrcDivision
import Mathlib

/-!
# Command frames of SD cards

`crc7` divides a message by `X ^ 7 + X ^ 3 + 1`. The bits of its register above the seventh
are never looked at, and the shift of `_send_cmd` drops them.
-/
namespace RtThread.Msd
open Procedures Polynomial CrcDivision

/-- The low `n` bits, the highest first. -/
def bitsOf (n w : ℕ) : List (ZMod 2) :=
  (List.range n).reverse.map fun i => if w.testBit i then 1 else 0

/-- The bits of a buffer in the order of transmission. -/
def bufferBits (buf : List UInt8) : List (ZMod 2) := buf.flatMap fun ch => bitsOf 8 ch.toNat

/-- `x ^ 7 + x ^ 3 + 1`. -/
noncomputable def generator : (ZMod 2)[X] := X ^ 7 + X ^ 3 + 1

theorem generator_monic : generator.Monic := by
  unfold generator
  monicity!

theorem generator_degree : generator.degree = 7 := by
  unfold generator
  compute_degree!

/-- The seven cells of the register. -/
noncomputable def crcValue (crc : UInt8) : (ZMod 2)[X] := message (bitsOf 7 crc.toNat)

/-- One step of `crc7` by the bit that it takes in. -/
def crcStep (crc : UInt8) (b : ZMod 2) : UInt8 := crc7Bit crc (if b = 0 then 0 else 0x80)

theorem bitsOf_crcStep : ∀ n < 256, ∀ b : ZMod 2,
    let bit (i : ℕ) : ZMod 2 := if n.testBit i then 1 else 0
    bitsOf 7 (crcStep (UInt8.ofNat n) b).toNat =
      [bit 5, bit 4, bit 3, bit 2 + (bit 6 + b), bit 1, bit 0, bit 6 + b] := by
  decide +kernel

theorem shift_divides (c₆ c₅ c₄ c₃ c₂ c₁ c₀ b : ZMod 2) :
    generator ∣ message [c₆, c₅, c₄, c₃, c₂, c₁, c₀] * X + C b * X ^ 7 -
      message [c₅, c₄, c₃, c₂ + (c₆ + b), c₁, c₀, c₆ + b] := by
  have htwo : (2 : (ZMod 2)[X]) = 0 := by
    rw [show (2 : (ZMod 2)[X]) = C 2 from rfl, show (2 : ZMod 2) = 0 from rfl, C_0]
  refine ⟨C (c₆ + b), ?_⟩
  simp only [message_cons, message_nil, List.length_cons, List.length_nil, C_add, generator]
  linear_combination (-(C c₆ + C b) * (X ^ 3 + 1)) * htwo

theorem crcStep_divides (crc : UInt8) (b : ZMod 2) :
    generator ∣ crcValue crc * X + C b * X ^ 7 - crcValue (crcStep crc b) := by
  have hbits := bitsOf_crcStep crc.toNat crc.toNat_lt b
  rw [UInt8.ofNat_toNat] at hbits
  rw [crcValue, crcValue, hbits]
  exact shift_divides _ _ _ _ _ _ _ b

theorem crcValue_degree (crc : UInt8) : (crcValue crc).degree < generator.degree := by
  rw [generator_degree]
  exact degree_message_lt (bitsOf 7 crc.toNat)

/-- A step looks at the highest bit of the data. -/
theorem crc7Bit_congr {ch ch' : UInt8} (h : ch &&& 0x80 ≠ 0 ↔ ch' &&& 0x80 ≠ 0) (crc : UInt8) :
    crc7Bit crc ch = crc7Bit crc ch' := by
  exact if_congr (by rw [propext h]) rfl rfl

theorem high_shift : ∀ j < 8, ∀ n < 256, (UInt8.ofNat n <<< UInt8.ofNat j &&& 0x80 ≠ 0 ↔
    (if (if n.testBit (7 - j) then (1 : ZMod 2) else 0) = 0 then (0 : UInt8) else 0x80) &&&
      0x80 ≠ 0) := by
  decide +kernel

/-- The eight steps for a byte take in its bits. -/
theorem crc7_byte (crc ch : UInt8) :
    (List.range 8).foldl (fun crc j => crc7Bit crc (ch <<< UInt8.ofNat j)) crc =
      (bitsOf 8 ch.toNat).foldl crcStep crc := by
  rw [show bitsOf 8 ch.toNat = (List.range 8).map fun j =>
    if ch.toNat.testBit (7 - j) then (1 : ZMod 2) else 0 from rfl, List.foldl_map]
  refine List.foldl_ext _ _ _ fun crc j hj => crc7Bit_congr ?_ crc
  have hshift := high_shift j (List.mem_range.mp hj) ch.toNat ch.toNat_lt
  rwa [UInt8.ofNat_toNat] at hshift

theorem crc7_eq (buf : List UInt8) : crc7 buf = (bufferBits buf).foldl crcStep 0 := by
  rw [bufferBits, List.foldl_flatMap]
  exact List.foldl_ext _ _ _ fun crc ch _ => crc7_byte crc ch

/-- `crc7` computes the remainder. -/
theorem crcValue_crc7 (buf : List UInt8) :
    crcValue (crc7 buf) = (message (bufferBits buf) * X ^ 7) %ₘ generator := by
  rw [crc7_eq]
  have hzero : crcValue 0 = 0 := by simp [crcValue, bitsOf, message_cons]
  exact (modByMonic_run generator_monic crcStep_divides crcValue_degree hzero _).symm

/-! ## The frame -/

/-- A command frame: start and transmission bits, the index, the argument, the checksum and
the end bit. -/
def Framed (cmd arg : ℕ) (six : List UInt8) : Prop :=
  ∃ crc : List (ZMod 2), crc.length = 7 ∧
    bufferBits six = ([0, 1] ++ bitsOf 6 cmd ++ bitsOf 32 arg) ++ crc ++ [1] ∧
    message crc = (message ([0, 1] ++ bitsOf 6 cmd ++ bitsOf 32 arg) * X ^ 7) %ₘ generator

theorem bitsOf_cmd : ∀ n < 64, bitsOf 8 (UInt8.ofNat n ||| 0x40).toNat = [0, 1] ++ bitsOf 6 n := by
  decide +kernel

/-- The shift and the end bit. -/
theorem bitsOf_crc : ∀ n < 256, bitsOf 8 ((UInt8.ofNat n <<< 1) ||| 0x01).toNat =
    bitsOf 7 n ++ [1] := by
  decide +kernel

theorem argByte_testBit (arg : BitVec 32) (shift i : ℕ) (hi : i < 8) :
    (argByte arg shift).toNat.testBit i = arg.toNat.testBit (shift + i) := by
  have hlt : (arg >>> shift).toNat % 256 < UInt8.size := Nat.mod_lt _ (by decide)
  rw [argByte, UInt8.toNat_ofNat_of_lt' hlt, show 256 = 2 ^ 8 from rfl, Nat.testBit_mod_two_pow,
    BitVec.toNat_ushiftRight, Nat.testBit_shiftRight]
  simp [hi]

theorem bitsOf_arg (arg : BitVec 32) :
    bufferBits [argByte arg 24, argByte arg 16, argByte arg 8, argByte arg 0] =
      bitsOf 32 arg.toNat := by
  have hbyte : ∀ shift, bitsOf 8 (argByte arg shift).toNat =
      (List.range 8).reverse.map fun i => if arg.toNat.testBit (shift + i) then 1 else 0 := by
    intro shift
    refine List.map_congr_left fun i hi => ?_
    rw [argByte_testBit arg shift i (by simpa using hi)]
  rw [bufferBits, List.flatMap_cons, List.flatMap_cons, List.flatMap_cons, List.flatMap_cons,
    hbyte, hbyte, hbyte, hbyte]
  rfl

/-- The six bytes between the dummy bytes of `cmd_buffer`. -/
theorem cmdBuffer_framed (cmd : UInt8) (arg : BitVec 32) (hcmd : cmd < 64) :
    ∃ six, cmdBuffer cmd arg 0 = dummy :: six ++ [dummy] ∧ six.length = 6 ∧
      Framed cmd.toNat arg.toNat six := by
  let frame := [cmd ||| 0x40, argByte arg 24, argByte arg 16, argByte arg 8, argByte arg 0]
  have hframe : bufferBits frame = [0, 1] ++ bitsOf 6 cmd.toNat ++ bitsOf 32 arg.toNat := by
    have hindex := bitsOf_cmd cmd.toNat (UInt8.lt_iff_toNat_lt.mp hcmd)
    rw [UInt8.ofNat_toNat] at hindex
    rw [← bitsOf_arg, ← hindex]
    rfl
  have hcrc := bitsOf_crc (crc7 frame).toNat (crc7 frame).toNat_lt
  rw [UInt8.ofNat_toNat] at hcrc
  refine ⟨frame ++ [(crc7 frame <<< 1) ||| 0x01], rfl, rfl, bitsOf 7 (crc7 frame).toNat,
    by simp [bitsOf], ?_, ?_⟩
  · rw [← hframe, bufferBits, List.flatMap_append, List.flatMap_singleton, hcrc, List.append_assoc]
    rfl
  · rw [← hframe]
    exact crcValue_crc7 frame

/-! ## What is sent -/

variable {env : MsdEnv} {s s' : MsdState}

/-- The bytes sent so far. -/
def sent (s : MsdState) : List UInt8 := s.log.map Prod.fst

theorem sent_exchanged (env : MsdEnv) (s : MsdState) (bytes : List UInt8) :
    sent (exchanged env s bytes) = sent s ++ bytes := by
  rw [sent, exchanged, List.map_append, List.map_fst_zip (by simp)]
  rfl

/-- Only dummy bytes were sent. -/
def Idles (s s' : MsdState) : Prop := ∃ n, sent s' = sent s ++ List.replicate n dummy

theorem idles_refl (s : MsdState) : Idles s s := ⟨0, by simp⟩

theorem idles_trans (s t u : MsdState) (h : Idles s t) (h' : Idles t u) : Idles s u := by
  obtain ⟨m, hm⟩ := h
  obtain ⟨n, hn⟩ := h'
  exact ⟨m + n, by rw [hn, hm, List.append_assoc, List.replicate_append_replicate]⟩

theorem waitReady_idles : (waitReady env).Keeps Idles := by
  have hx : (xfer env ⟨some [dummy], true, 1, false, false⟩).Keeps Idles := by
    intro s recv s' h
    obtain ⟨-, rfl⟩ := returns_xfer.mp h
    exact ⟨1, sent_exchanged env s _⟩
  have htick : (rtTickGet env).Keeps Idles := by
    intro s t s' h
    obtain ⟨-, rfl⟩ := returns_rtTickGet.mp h
    exact idles_refl s
  have hover : ∀ start long, (rtTickTimeout env start long).Keeps Idles := by
    intro start long s late s' h
    obtain ⟨-, rfl⟩ := returns_rtTickTimeout.mp h
    exact idles_refl s
  have hpure : ∀ r : Unit ⊕ MsdErr, (pure r : MsdProc (Unit ⊕ MsdErr)).Keeps Idles :=
    fun r => (Proc.ends_pure idles_refl r).keeps
  rw [waitReady, waitByte_eq]
  refine htick.bind idles_trans fun start => Proc.Keeps.loop idles_trans idles_refl (fun _ => ?_) ()
  refine hx.bind idles_trans fun recv => ?_
  split
  · exact hpure _
  · refine (hover start _).bind idles_trans fun late => ?_
    cases late with
    | false => exact hpure _
    | true => exact hpure _

/-- `_send_cmd` waits, and then sends the buffer. -/
theorem sendCmd_sent {cmd : UInt8} {arg : BitVec 32} {crc : UInt8} {type : ResponseType}
    {response : MsdResponse} {r : MsdErr × MsdResponse}
    (h : (sendCmd env cmd arg crc type response).Returns s r s') :
    ∃ n rest, sent s' = sent s ++ List.replicate n dummy ++ cmdBuffer cmd arg crc ++ rest := by
  rw [sendCmd, Proc.returns_bind] at h
  obtain ⟨_, t, hready, h⟩ := h
  obtain ⟨n, hn⟩ := waitReady_idles s _ t hready
  rw [Proc.returns_bind] at h
  obtain ⟨_, u, hx, h⟩ := h
  obtain ⟨-, rfl⟩ := returns_xfer.mp hx
  rw [Proc.returns_bind] at h
  obtain ⟨⟨came, response'⟩, v, hr, h⟩ := h
  have hawait := (does_awaitResponse (A := True) cardNcrMax response).keeps _ _ _ hr
  have hxfer : ∀ n, (xfer env ⟨none, true, n, false, false⟩).Keeps Talks :=
    fun n => (does_xfer (A := True) none true n).keeps
  have hpure : ∀ r, (pure r : MsdProc (MsdErr × MsdResponse)).Keeps Talks :=
    fun r => (Proc.ends_pure talks_refl r).keeps
  have hrest : Talks v s' := by
    cases came with
    | false => exact hpure _ _ _ _ h
    | true =>
      cases type with
      | r1 => exact hpure _ _ _ _ h
      | r1b => exact (does_waitByte ..).keeps.bind talks_trans (fun _ => hpure _) _ _ _ h
      | r2 => exact (hxfer 1).bind talks_trans (fun _ => hpure _) _ _ _ h
      | r3 => exact (hxfer 4).bind talks_trans (fun _ => hpure _) _ _ _ h
      | r7 => exact (hxfer 4).bind talks_trans (fun _ => hpure _) _ _ _ h
      | unknown => exact hpure _ _ _ _ h
      | r4 => exact hpure _ _ _ _ h
      | r5 => exact hpure _ _ _ _ h
  obtain ⟨seg, k, rfl⟩ := talks_trans _ _ _ hawait hrest
  refine ⟨n, seg.map Prod.fst, ?_⟩
  have hbuffer : sentBytes (some (cmdBuffer cmd arg crc)) 8 = cmdBuffer cmd arg crc :=
    List.take_of_length_le (Nat.le_of_eq rfl)
  rw [← hn, ← hbuffer, ← sent_exchanged env t]
  exact List.map_append

end RtThread.Msd

namespace RtThread
open Procedures Polynomial CrcDivision Msd

/-- Commands without a checksum are sent in frames with their checksum, and `crc7` is the
remainder of the buffer behind seven zeros. -/
theorem frames_checked :
    (∀ (env : MsdEnv) (s s' : MsdState) (cmd : UInt8) (arg : BitVec 32) (type : ResponseType)
      (response : MsdResponse) (r : MsdErr × MsdResponse), cmd < 64 →
      (sendCmd env cmd arg 0 type response).Returns s r s' →
      ∃ n six rest, sent s' = sent s ++ List.replicate n dummy ++ (dummy :: six) ++ rest ∧
        six.length = 6 ∧ Framed cmd.toNat arg.toNat six) ∧
    ∀ buf : List UInt8, buf.length ≤ 255 →
      message (bitsOf 7 ((crc7 buf).toNat % 128)) =
        (message (bufferBits buf) * X ^ 7) %ₘ (X ^ 7 + X ^ 3 + 1) := by
  refine ⟨fun env s s' cmd arg type response r hcmd h => ?_, fun buf _ => ?_⟩
  · obtain ⟨n, rest, hsent⟩ := sendCmd_sent h
    obtain ⟨six, hbuffer, hlength, hframed⟩ := cmdBuffer_framed cmd arg hcmd
    refine ⟨n, six, dummy :: rest, ?_, hlength, hframed⟩
    rw [hsent, hbuffer]
    simp
  · rw [show message (bitsOf 7 ((crc7 buf).toNat % 128)) = crcValue (crc7 buf) from ?_]
    · exact crcValue_crc7 buf
    · refine congrArg message (List.map_congr_left fun i hi => ?_)
      rw [show 128 = 2 ^ 7 from rfl, Nat.testBit_mod_two_pow]
      have hlt : i < 7 := by simpa using hi
      simp [hlt]

/-- A card that is ready, and answers a command with no error. -/
def readyCard : MsdEnv := ⟨fun k => if k ≤ 8 then dummy else responseNoError, id, true, true⟩

theorem frames_checked_go_idle :
    (∃ s s' r, (sendCmd readyCard goIdleState 0 0 .r1 (Vector.replicate 5 0)).Returns s r s' ∧
      ∃ n six rest, sent s' = sent s ++ List.replicate n dummy ++ (dummy :: six) ++ rest ∧
        six.length = 6 ∧ Framed 0 0 six) ∧
    message (bitsOf 7 0x4A) =
      (message (bufferBits [0x40, 0, 0, 0, 0]) * X ^ 7) %ₘ (X ^ 7 + X ^ 3 + 1) := by
  let s : MsdState :=
    ⟨[], 0, true, 0, true, ⟨4, 8, 0, 400000⟩, .unknown, 512, 512, 0, 400000, false⟩
  obtain ⟨r, hr⟩ := Option.isSome_iff_exists.mp
    (show ((sendCmd readyCard goIdleState 0 0 .r1 (Vector.replicate 5 0)).run 2 s).isSome = true
      by decide +kernel)
  have hcrc : (crc7 [0x40, 0, 0, 0, 0]).toNat % 128 = 0x4A := by decide +kernel
  refine ⟨⟨s, r.2, r.1, ⟨2, hr⟩, frames_checked.1 readyCard s r.2 goIdleState 0 .r1 _ r.1
    (by decide) ⟨2, hr⟩⟩, ?_⟩
  rw [← hcrc]
  exact frames_checked.2 [0x40, 0, 0, 0, 0] (by decide)

end RtThread
