import RtThread.Drivers.MsdBus

/-!
# The counts that the SD card driver returns

A read is honest when the sectors it counts are blocks that the card sent behind their start
tokens, after it accepted the command; a write when the sectors it counts were sent behind
start tokens and acknowledged. The four functions are honest exactly when the bus could
be had, or nothing was asked for: without the bus they return the size they were given.
-/
namespace RtThread.Msd
open Procedures

variable {env : MsdEnv} {s s' t : MsdState}

/-! ## What was exchanged -/

/-- The bytes exchanged, beside readings of the clock. -/
def Adds (seg : List (UInt8 × UInt8)) (s s' : MsdState) : Prop :=
  ∃ n, s' = { s with log := s.log ++ seg, readings := s.readings + n }

theorem Adds.log {seg} (h : Adds seg s s') : s'.log = s.log ++ seg := by
  obtain ⟨n, rfl⟩ := h
  rfl

theorem Adds.trans {a b} (h : Adds a s t) (h' : Adds b t s') : Adds (a ++ b) s s' := by
  obtain ⟨m, rfl⟩ := h
  obtain ⟨n, rfl⟩ := h'
  exact ⟨m + n, by simp [Nat.add_assoc]⟩

theorem Talks.adds (h : Talks s s') : ∃ seg, Adds seg s s' := h

theorem adds_exchanged (s : MsdState) (sent : List UInt8) :
    Adds (sent.zip (answers env s sent.length)) s (exchanged env s sent) := ⟨0, rfl⟩

/-- Exchanged bytes are known by what was sent and what was received. -/
theorem zip_sent (s : MsdState) (sent : List UInt8) :
    (sent.zip (answers env s sent.length)).map Prod.fst = sent := List.map_fst_zip (by simp)

theorem zip_received (s : MsdState) (sent : List UInt8) :
    (sent.zip (answers env s sent.length)).map Prod.snd = answers env s sent.length :=
  List.map_snd_zip (by simp)

/-- The card received a command and answered with a response that reports no error. -/
def Accepted (cmd : UInt8) (arg : BitVec 32) (seg : List (UInt8 × UInt8)) : Prop :=
  ∃ before command busy, seg = before ++ command ++ (busy ++ [(dummy, responseNoError)]) ∧
    command.map Prod.fst = cmdBuffer cmd arg 0 ∧ ∀ x ∈ busy, x.1 = dummy ∧ x.2 &&& 0x80 ≠ 0

theorem Accepted.behind {cmd : UInt8} {arg : BitVec 32} {seg : List (UInt8 × UInt8)}
    (h : Accepted cmd arg seg) (earlier : List (UInt8 × UInt8)) :
    Accepted cmd arg (earlier ++ seg) := by
  obtain ⟨before, command, busy, rfl, hc, hb⟩ := h
  exact ⟨earlier ++ before, command, busy, by simp only [List.append_assoc], hc, hb⟩

theorem awaitResponse_came {n : ℕ} {response response' : MsdResponse}
    (h : (awaitResponse env n response).Returns s (true, response') s') :
    ∃ busy, Adds (busy ++ [(dummy, response0 response')]) s s' ∧
      ∀ x ∈ busy, x.1 = dummy ∧ x.2 &&& 0x80 ≠ 0 := by
  induction n generalizing response s with
  | zero => simp [awaitResponse] at h
  | succ n ih =>
    rw [awaitResponse, Proc.returns_bind] at h
    obtain ⟨recv, t, hx, h⟩ := h
    obtain ⟨rfl, rfl⟩ := returns_xfer.mp hx
    have hadds : Adds [(dummy, env.card s.log.length)] s
        (exchanged env s (sentBytes (some [dummy]) 1)) := ⟨0, rfl⟩
    rw [show (answers env s (sentBytes (some [dummy]) 1).length).headD 0 =
      env.card s.log.length from rfl] at h
    simp only [Vector.getElem_set_self] at h
    split at h
    · obtain ⟨he, rfl⟩ := Proc.returns_pure.mp h
      obtain ⟨-, rfl⟩ := Prod.mk.inj he
      exact ⟨[], by rw [response0, Vector.getElem_set_self]; exact hadds, by simp⟩
    · next hbusy =>
      obtain ⟨busy, hseg, hall⟩ := ih h
      refine ⟨(dummy, env.card s.log.length) :: busy, hadds.trans hseg, ?_⟩
      rintro x (_ | ⟨_, hx⟩)
      · exact ⟨rfl, hbusy⟩
      · exact hall x hx

theorem sendCmd_accepted {cmd : UInt8} {arg : BitVec 32} {response response' : MsdResponse}
    {result : MsdErr} (h : (sendCmd env cmd arg 0x00 .r1 response).Returns s (result, response') s')
    (hok : ¬(result ≠ .eok ∨ response0 response' ≠ responseNoError)) :
    ∃ seg, Adds seg s s' ∧ Accepted cmd arg seg := by
  obtain ⟨rfl, haccept⟩ : result = .eok ∧ response0 response' = responseNoError := by
    simpa only [not_or, not_not] using hok
  rw [sendCmd, Proc.returns_bind] at h
  obtain ⟨_, t, hready, h⟩ := h
  obtain ⟨before, hbefore⟩ := ((does_waitReady).keeps _ _ _ hready).adds
  rw [Proc.returns_bind] at h
  obtain ⟨_, u, hx, h⟩ := h
  obtain ⟨-, rfl⟩ := returns_xfer.mp hx
  rw [Proc.returns_bind] at h
  obtain ⟨⟨came, r⟩, v, hr, h⟩ := h
  cases came with
  | false => simp at h
  | true =>
    obtain ⟨he, rfl⟩ := Proc.returns_pure.mp h
    obtain ⟨-, rfl⟩ := Prod.mk.inj he
    obtain ⟨busy, hbusy, hall⟩ := awaitResponse_came hr
    rw [haccept] at hbusy
    exact ⟨_, (hbefore.trans (adds_exchanged t _)).trans hbusy, before, _, busy, rfl,
      zip_sent t _, hall⟩

/-! ## Reads -/

/-- Blocks behind their start tokens, each with a checksum. -/
inductive Blocks (blockSize : ℕ) : List UInt8 → List (List UInt8) → Prop
  | none (rest : List UInt8) : Blocks blockSize rest []
  | block {gap block crc rest : List UInt8} {blocks : List (List UInt8)} :
    tokenReadStart ∉ gap → block.length = blockSize → crc.length = 2 →
    Blocks blockSize rest blocks →
    Blocks blockSize (gap ++ tokenReadStart :: (block ++ (crc ++ rest))) (block :: blocks)

/-- What is honest of a read that returns `n` and has stored sectors. -/
structure HonestRead (s : MsdState) (cmd : UInt8) (arg blockSize : BitVec 32) (size : ℕ)
    (r : ℕ × List (List UInt8)) (s' : MsdState) : Prop where
  le : r.1 ≤ size
  blocks : r.1 ≠ 0 → ∃ opening data blocks, s'.log = s.log ++ (opening ++ data) ∧
    Accepted cmd arg opening ∧ Blocks blockSize.toNat (data.map Prod.snd) blocks ∧
    blocks.length = r.1 ∧ blocks <+: r.2
  deselected : s'.selected = false
  released : s'.hold = s.hold

theorem sentBytes_none_length (n : BitVec 32) : (sentBytes none n).length = n.toNat := by
  simp [sentBytes]

theorem readBlock_eok {blockSize : BitVec 32} {block : List UInt8}
    (h : (readBlock env blockSize).Returns s (.eok, block) s') :
    ∃ seg gap crc, Adds seg s s' ∧ seg.map Prod.snd = gap ++ tokenReadStart :: (block ++ crc) ∧
      tokenReadStart ∉ gap ∧ block.length = blockSize.toNat ∧ crc.length = 2 := by
  rw [readBlock, Proc.returns_bind] at h
  obtain ⟨result, t, hw, h⟩ := h
  split at h
  · next hne => simp [Ne.symm hne] at h
  · next heq =>
    obtain rfl : result = .eok := not_not.mp heq
    obtain ⟨wait, hwait⟩ := ((does_waitToken _).keeps _ _ _ hw).adds
    obtain ⟨gap, hgap, hnot⟩ := waitByte_eok rfl hw
    have hrecv : wait.map Prod.snd = gap ++ [tokenReadStart] := by
      rw [received, hwait.log, List.map_append] at hgap
      exact List.append_cancel_left hgap
    rw [Proc.returns_bind] at h
    obtain ⟨_, u, hx, h⟩ := h
    obtain ⟨rfl, rfl⟩ := returns_xfer.mp hx
    rw [Proc.returns_bind] at h
    obtain ⟨_, v, hx', h⟩ := h
    obtain ⟨rfl, rfl⟩ := returns_xfer.mp hx'
    obtain ⟨he, rfl⟩ := Proc.returns_pure.mp h
    obtain ⟨-, rfl⟩ := Prod.mk.inj he
    refine ⟨_, gap,
      answers env (exchanged env t (sentBytes none blockSize)) (sentBytes none 2).length,
      (hwait.trans (adds_exchanged t _)).trans (adds_exchanged _ _), ?_, hnot, ?_, ?_⟩
    · rw [List.map_append, List.map_append, hrecv, zip_received, zip_received]
      simp only [List.append_assoc, List.cons_append, List.nil_append]
    · rw [answers_length, sentBytes_none_length]
    · rw [answers_length, sentBytes_none_length]
      rfl

theorem Talks.noBlocks (h : Talks s t) (blockSize : ℕ) : ∃ seg, Adds seg s t ∧
    Blocks blockSize (seg.map Prod.snd) [] := h.adds.imp fun _ h => ⟨h, .none _⟩

theorem readSectors_blocks {blockSize : BitVec 32} {i left n : ℕ} {blocks : List (List UInt8)}
    (h : (readSectors env blockSize i left).Returns s (n, blocks) s') :
    n = i + blocks.length ∧ blocks.length ≤ left ∧
      ∃ seg, Adds seg s s' ∧ Blocks blockSize.toNat (seg.map Prod.snd) blocks := by
  induction left generalizing i n blocks s with
  | zero =>
    obtain ⟨he, rfl⟩ := Proc.returns_pure.mp h
    obtain ⟨rfl, rfl⟩ := Prod.mk.inj he
    exact ⟨rfl, Nat.le_refl 0, (talks_refl _).noBlocks _⟩
  | succ left ih =>
    rw [readSectors, Proc.returns_bind] at h
    obtain ⟨⟨result, block⟩, t, hb, h⟩ := h
    dsimp only at h
    split at h
    · obtain ⟨he, rfl⟩ := Proc.returns_pure.mp h
      obtain ⟨rfl, rfl⟩ := Prod.mk.inj he
      exact ⟨rfl, Nat.zero_le _, ((does_readBlock blockSize).keeps _ _ _ hb).noBlocks _⟩
    · next heq =>
      obtain rfl : result = .eok := not_not.mp heq
      rw [Proc.returns_bind] at h
      obtain ⟨⟨m, rest⟩, u, hr, h⟩ := h
      obtain ⟨he, rfl⟩ := Proc.returns_pure.mp h
      obtain ⟨rfl, rfl⟩ := Prod.mk.inj he
      obtain ⟨seg, gap, crc, hseg, hrecv, hnot, hlen, hcrc⟩ := readBlock_eok hb
      obtain ⟨hn, hle, seg', hseg', hblocks⟩ := ih hr
      refine ⟨by simp only [List.length_cons]; omega, by simpa using hle, seg ++ seg',
        hseg.trans hseg', ?_⟩
      have hall := Blocks.block hnot hlen hcrc hblocks
      rw [List.map_append, hrecv]
      simpa only [List.append_assoc, List.cons_append] using hall

theorem Blocks.append {blockSize : ℕ} {bytes : List UInt8} {blocks : List (List UInt8)}
    (h : Blocks blockSize bytes blocks) (more : List UInt8) :
    Blocks blockSize (bytes ++ more) blocks := by
  induction h with
  | none rest => exact .none _
  | block hgap hblock hcrc _ ih =>
    have hall := Blocks.block hgap hblock hcrc ih
    simpa only [List.append_assoc, List.cons_append] using hall

theorem does_readSectors (blockSize : BitVec 32) (i left : ℕ) :
    (readSectors env blockSize i left).Does env.Advances Talks := by
  induction left generalizing i with
  | zero => exact Proc.does_pure talks_refl _
  | succ left ih =>
    refine (does_readBlock blockSize).bind talks_trans fun (result, block) => ?_
    dsimp only
    split
    · exact Proc.does_pure talks_refl _
    · exact (ih _).bind talks_trans fun _ => Proc.does_pure talks_refl _

/-- The command that a read of so many sectors sends. -/
def readCmd (size : ℕ) : UInt8 := if size = 1 then readSingleBlock else readMultipleBlock

theorem does_readFrom (response : MsdResponse) (arg : BitVec 32) (size : ℕ) :
    (readFrom env response arg size).Does env.Advances Exchanges := by
  refine (Proc.does_read exchanges_refl _).bind exchanges_trans fun blockSize => ?_
  split
  · refine does_msdTakeCs.bind exchanges_trans fun _ =>
      (does_exchanges (does_sendCmd ..)).bind exchanges_trans fun (result, response) => ?_
    dsimp only
    split
    · exact Proc.does_pure exchanges_refl _
    · refine (does_exchanges (does_readBlock _)).bind exchanges_trans fun (result, block) => ?_
      dsimp only
      split <;> exact Proc.does_pure exchanges_refl _
  · split
    · refine does_msdTakeCs.bind exchanges_trans fun _ =>
        (does_exchanges (does_sendCmd ..)).bind exchanges_trans fun (result, response) => ?_
      dsimp only
      split
      · exact Proc.does_pure exchanges_refl _
      · exact (does_exchanges (does_readSectors ..)).bind exchanges_trans fun r =>
          (does_exchanges (does_sendCmd ..)).bind exchanges_trans fun _ =>
            Proc.does_pure exchanges_refl _
    · exact Proc.does_pure exchanges_refl _

theorem readFrom_counts {response : MsdResponse} {arg : BitVec 32} {size n : ℕ}
    {stored : List (List UInt8)} (h : (readFrom env response arg size).Returns s (n, stored) s') :
    n ≤ size ∧ (n ≠ 0 → ∃ opening data, s'.log = s.log ++ (opening ++ data) ∧
      Accepted (readCmd size) arg opening ∧
      Blocks s.bytesPerSector.toNat (data.map Prod.snd) stored ∧ stored.length = n) := by
  have hfail : ∀ {t}, (pure (0, []) : MsdProc (ℕ × List (List UInt8))).Returns t (n, stored) s' →
      n ≤ size ∧ n = 0 := by
    intro t h
    obtain ⟨he, -⟩ := Proc.returns_pure.mp h
    obtain ⟨rfl, -⟩ := Prod.mk.inj he
    exact ⟨Nat.zero_le _, rfl⟩
  rw [readFrom, Proc.returns_bind_of (Proc.returns_read.mpr ⟨rfl, rfl⟩)] at h
  split at h
  · next hone =>
    rw [Proc.returns_bind_of (a := ()) (returns_msdTakeCs.mpr rfl), Proc.returns_bind] at h
    obtain ⟨⟨result, response⟩, t, hcmd, h⟩ := h
    dsimp only at h
    split at h
    · exact (hfail h).imp_right fun h0 hn => absurd h0 hn
    · next hok =>
      obtain ⟨opening, hopen, hacc⟩ := sendCmd_accepted hcmd hok
      rw [Proc.returns_bind] at h
      obtain ⟨⟨result, block⟩, u, hb, h⟩ := h
      dsimp only at h
      split at h
      · exact (hfail h).imp_right fun h0 hn => absurd h0 hn
      · next heq =>
        obtain rfl : result = .eok := not_not.mp heq
        obtain ⟨he, rfl⟩ := Proc.returns_pure.mp h
        obtain ⟨rfl, rfl⟩ := Prod.mk.inj he
        obtain ⟨seg, gap, crc, hseg, hrecv, hnot, hlen, hcrc⟩ := readBlock_eok hb
        refine ⟨Nat.le_refl _, fun _ => ⟨opening, seg, (hopen.trans hseg).log, ?_, ?_, hone.symm⟩⟩
        · rw [readCmd, if_pos hone]
          exact hacc
        · have hall := Blocks.block hnot hlen hcrc (Blocks.none [])
          rw [hrecv]
          simpa only [List.append_nil] using hall
  · next hone =>
    split at h
    · rw [Proc.returns_bind_of (a := ()) (returns_msdTakeCs.mpr rfl), Proc.returns_bind] at h
      obtain ⟨⟨result, response⟩, t, hcmd, h⟩ := h
      dsimp only at h
      split at h
      · exact (hfail h).imp_right fun h0 hn => absurd h0 hn
      · next hok =>
        obtain ⟨opening, hopen, hacc⟩ := sendCmd_accepted hcmd hok
        rw [Proc.returns_bind] at h
        obtain ⟨⟨m, blocks⟩, u, hb, h⟩ := h
        rw [Proc.returns_bind] at h
        obtain ⟨_, v, hstop, h⟩ := h
        obtain ⟨he, rfl⟩ := Proc.returns_pure.mp h
        obtain ⟨rfl, rfl⟩ := Prod.mk.inj he
        obtain ⟨hn, hle, seg, hseg, hblocks⟩ := readSectors_blocks hb
        obtain ⟨stop, hstop⟩ := ((does_sendCmd ..).keeps _ _ _ hstop).adds
        refine ⟨by omega, fun _ => ⟨opening, seg ++ stop, ?_, ?_, ?_, by omega⟩⟩
        · rw [((hopen.trans hseg).trans hstop).log, List.append_assoc opening]
        · rw [readCmd, if_neg hone]
          exact hacc
        · rw [List.map_append]
          exact hblocks.append _
    · obtain ⟨he, rfl⟩ := Proc.returns_pure.mp h
      obtain ⟨rfl, rfl⟩ := Prod.mk.inj he
      exact ⟨Nat.le_refl _, fun hn => by omega⟩

/-! ## Writes -/

/-- Blocks sent behind start tokens, each acknowledged and followed by a wait until the card is
no longer busy. -/
inductive Acknowledged (token : UInt8) : List (UInt8 × UInt8) → List (List UInt8) → Prop
  | none (rest : List (UInt8 × UInt8)) : Acknowledged token rest []
  | block (data : List (UInt8 × UInt8)) {start response wait rest : List (UInt8 × UInt8)}
    {busy : List UInt8} {blocks : List (List UInt8)} :
    start.map Prod.fst = List.replicate 15 dummy ++ [token] → response.length = 3 →
    (response.map Prod.snd).getD 2 0 &&& dataResponseMask = dataOk →
    wait.map Prod.snd = busy ++ [dummy] → dummy ∉ busy → Acknowledged token rest blocks →
    Acknowledged token (start ++ (data ++ (response ++ (wait ++ rest))))
      (data.map Prod.fst :: blocks)

theorem Acknowledged.append {token : UInt8} {seg : List (UInt8 × UInt8)}
    {blocks : List (List UInt8)} (h : Acknowledged token seg blocks) (more : List (UInt8 × UInt8)) :
    Acknowledged token (seg ++ more) blocks := by
  induction h with
  | none rest => exact .none _
  | block data hstart hlen hack hwait hbusy _ ih =>
    have hall := Acknowledged.block data hstart hlen hack hwait hbusy ih
    simpa only [List.append_assoc] using hall

/-- What is honest of a write of the sectors of a buffer that returns `n`. -/
structure HonestWrite (s : MsdState) (cmd : UInt8) (token : UInt8) (arg blockSize : BitVec 32)
    (buffer : ℕ → UInt8) (size n : ℕ) (s' : MsdState) : Prop where
  le : n ≤ size
  blocks : n ≠ 0 → ∃ opening data, s'.log = s.log ++ (opening ++ data) ∧
    Accepted cmd arg opening ∧
    Acknowledged token data ((List.range n).map (sector buffer blockSize))
  deselected : s'.selected = false
  released : s'.hold = s.hold

theorem sentBytes_some {bytes : List UInt8} {n : BitVec 32} (h : bytes.length = n.toNat) :
    sentBytes (some bytes) n = bytes := List.take_of_length_le h.le

theorem writeBlock_eok {block : List UInt8} {blockSize : BitVec 32} {token : UInt8}
    (hlen : block.length = blockSize.toNat)
    (h : (writeBlock env block blockSize token).Returns s .eok s') :
    ∃ start data response wait busy, Adds (start ++ (data ++ (response ++ wait))) s s' ∧
      start.map Prod.fst = List.replicate 15 dummy ++ [token] ∧ data.map Prod.fst = block ∧
      response.length = 3 ∧ (response.map Prod.snd).getD 2 0 &&& dataResponseMask = dataOk ∧
      wait.map Prod.snd = busy ++ [dummy] ∧ dummy ∉ busy := by
  rw [writeBlock, Proc.returns_bind] at h
  obtain ⟨_, t, hx, h⟩ := h
  obtain ⟨-, rfl⟩ := returns_xfer.mp hx
  rw [Proc.returns_bind] at h
  obtain ⟨_, t, hx, h⟩ := h
  obtain ⟨-, rfl⟩ := returns_xfer.mp hx
  rw [Proc.returns_bind] at h
  obtain ⟨recv, t, hx, h⟩ := h
  obtain ⟨rfl, rfl⟩ := returns_xfer.mp hx
  split at h
  · simp at h
  · next hack =>
    obtain ⟨wait, hwait⟩ := ((does_waitReady).keeps _ _ _ h).adds
    obtain ⟨busy, hbusy, hnot⟩ := waitByte_eok rfl h
    rw [sentBytes_some hlen] at hack hwait hbusy
    have hadds := (adds_exchanged s
      (sentBytes (some (List.replicate 15 dummy ++ [token])) 16)).trans
        ((adds_exchanged _ block).trans ((adds_exchanged _
          (sentBytes (some (List.replicate 15 dummy ++ [token])) 3)).trans hwait))
    refine ⟨_, _, _, wait, busy, hadds, ?_, zip_sent _ _, ?_, ?_, ?_, hnot⟩
    · rw [zip_sent]
      rfl
    · simp [sentBytes]
    · rw [zip_received]
      exact not_not.mp hack
    · rw [received, hwait.log, List.map_append] at hbusy
      exact List.append_cancel_left hbusy

theorem sector_length (buffer : ℕ → UInt8) (blockSize : BitVec 32) (i : ℕ) :
    (sector buffer blockSize i).length = blockSize.toNat := by simp [sector]

theorem writeSectors_blocks {buffer : ℕ → UInt8} {blockSize : BitVec 32} {i left n : ℕ}
    (h : (writeSectors env buffer blockSize i left).Returns s n s') :
    ∃ k, n = i + k ∧ k ≤ left ∧ ∃ seg, Adds seg s s' ∧ Acknowledged tokenWriteMultipleStart seg
      ((List.range' i k).map (sector buffer blockSize)) := by
  induction left generalizing i n s with
  | zero =>
    obtain ⟨rfl, rfl⟩ := Proc.returns_pure.mp h
    obtain ⟨seg, hseg⟩ := (talks_refl s').adds
    exact ⟨0, rfl, Nat.le_refl 0, seg, hseg, .none _⟩
  | succ left ih =>
    rw [writeSectors, Proc.returns_bind] at h
    obtain ⟨result, t, hb, h⟩ := h
    split at h
    · obtain ⟨rfl, rfl⟩ := Proc.returns_pure.mp h
      obtain ⟨seg, hseg⟩ := ((does_writeBlock _ blockSize _).keeps _ _ _ hb).adds
      exact ⟨0, rfl, Nat.zero_le _, seg, hseg, .none _⟩
    · next heq =>
      obtain rfl : result = .eok := not_not.mp heq
      obtain ⟨k, rfl, hk, seg, hseg, hblocks⟩ := ih h
      obtain ⟨start, data, response, wait, busy, hadds, hstart, hdata, hlen, hack, hwait, hbusy⟩ :=
        writeBlock_eok (sector_length buffer blockSize i) hb
      refine ⟨k + 1, by omega, by omega, _, hadds.trans hseg, ?_⟩
      have hall := Acknowledged.block data hstart hlen hack hwait hbusy hblocks
      rw [List.range'_succ, List.map_cons, ← hdata]
      simpa only [List.append_assoc] using hall

theorem does_writeSectors (buffer : ℕ → UInt8) (blockSize : BitVec 32) (i left : ℕ) :
    (writeSectors env buffer blockSize i left).Does env.Advances Talks := by
  induction left generalizing i with
  | zero => exact Proc.does_pure talks_refl _
  | succ left ih =>
    refine (does_writeBlock _ blockSize _).bind talks_trans fun result => ?_
    split
    · exact Proc.does_pure talks_refl _
    · exact ih _

/-- The command that a write of so many sectors sends. -/
def writeCmd (size : ℕ) : UInt8 := if size = 1 then writeBlockCmd else writeMultipleBlock

def writeToken (size : ℕ) : UInt8 :=
  if size = 1 then tokenWriteSingleStart else tokenWriteMultipleStart

theorem does_preErase (response : MsdResponse) (size : ℕ) :
    (preErase env response size).Does env.Advances Talks := by
  refine (does_sendCmd ..).bind talks_trans fun (result, response) => ?_
  dsimp only
  split
  · exact Proc.does_pure talks_refl _
  · refine (does_sendCmd ..).bind talks_trans fun (result, response) => ?_
    dsimp only
    split <;> exact Proc.does_pure talks_refl _

theorem does_writeFrom (response : MsdResponse) (erases : Bool) (arg : BitVec 32)
    (buffer : ℕ → UInt8) (size : ℕ) :
    (writeFrom env response erases arg buffer size).Does env.Advances Exchanges := by
  refine (Proc.does_read exchanges_refl _).bind exchanges_trans fun blockSize => ?_
  split
  · refine does_msdTakeCs.bind exchanges_trans fun _ =>
      (does_exchanges (does_sendCmd ..)).bind exchanges_trans fun (result, response) => ?_
    dsimp only
    split
    · exact Proc.does_pure exchanges_refl _
    · refine (does_exchanges (does_writeBlock ..)).bind exchanges_trans fun result => ?_
      split <;> exact Proc.does_pure exchanges_refl _
  · split
    · refine does_msdTakeCs.bind exchanges_trans fun _ => ?_
      have herase : (if erases then preErase env response size else pure (true, response)).Does
          env.Advances Exchanges := by
        split
        · exact does_exchanges (does_preErase ..)
        · exact Proc.does_pure exchanges_refl _
      refine herase.bind exchanges_trans fun (accepted, response) => ?_
      dsimp only
      split
      · exact Proc.does_pure exchanges_refl _
      · refine (does_exchanges (does_sendCmd ..)).bind exchanges_trans fun (result, response) => ?_
        dsimp only
        split
        · exact Proc.does_pure exchanges_refl _
        · exact (does_exchanges (does_writeSectors ..)).bind exchanges_trans fun n =>
            (does_exchanges (does_xfer ..)).bind exchanges_trans fun _ =>
              (does_exchanges does_waitReady).bind exchanges_trans fun _ =>
                Proc.does_pure exchanges_refl _
    · exact Proc.does_pure exchanges_refl _

theorem writeFrom_counts {response : MsdResponse} {erases : Bool} {arg : BitVec 32}
    {buffer : ℕ → UInt8} {size n : ℕ}
    (h : (writeFrom env response erases arg buffer size).Returns s n s') :
    n ≤ size ∧ (n ≠ 0 → ∃ opening data, s'.log = s.log ++ (opening ++ data) ∧
      Accepted (writeCmd size) arg opening ∧ Acknowledged (writeToken size) data
        ((List.range n).map (sector buffer s.bytesPerSector))) := by
  have hfail : ∀ {t}, (pure 0 : MsdProc ℕ).Returns t n s' → n ≤ size ∧ n = 0 := by
    intro t h
    obtain ⟨rfl, -⟩ := Proc.returns_pure.mp h
    exact ⟨Nat.zero_le _, rfl⟩
  rw [writeFrom, Proc.returns_bind_of (Proc.returns_read.mpr ⟨rfl, rfl⟩)] at h
  split at h
  · next hone =>
    rw [Proc.returns_bind_of (a := ()) (returns_msdTakeCs.mpr rfl), Proc.returns_bind] at h
    obtain ⟨⟨result, response⟩, t, hcmd, h⟩ := h
    dsimp only at h
    split at h
    · exact (hfail h).imp_right fun h0 hn => absurd h0 hn
    · next hok =>
      obtain ⟨opening, hopen, hacc⟩ := sendCmd_accepted hcmd hok
      rw [Proc.returns_bind] at h
      obtain ⟨result, u, hb, h⟩ := h
      split at h
      · exact (hfail h).imp_right fun h0 hn => absurd h0 hn
      · next heq =>
        obtain rfl : result = .eok := not_not.mp heq
        obtain ⟨rfl, rfl⟩ := Proc.returns_pure.mp h
        obtain ⟨start, data, ack, wait, busy, hadds, hstart, hdata, hlen, hack, hwait, hbusy⟩ :=
          writeBlock_eok (sector_length buffer s.bytesPerSector 0) hb
        refine ⟨Nat.le_refl _, fun _ => ⟨opening, _, (hopen.trans hadds).log, ?_, ?_⟩⟩
        · rw [writeCmd, if_pos hone]
          exact hacc
        · have hall := Acknowledged.block data hstart hlen hack hwait hbusy (.none [])
          rw [writeToken, if_pos hone, hone, List.range_one, List.map_singleton, ← hdata]
          simpa only [List.append_nil] using hall
  · next hone =>
    split at h
    · rw [Proc.returns_bind_of (a := ()) (returns_msdTakeCs.mpr rfl), Proc.returns_bind] at h
      obtain ⟨⟨accepted, response⟩, t, herase, h⟩ := h
      have herased : ∃ seg, Adds seg { s with selected := true } t := by
        split at herase
        · exact ((does_preErase _ _).keeps _ _ _ herase).adds
        · obtain ⟨-, rfl⟩ := Proc.returns_pure.mp herase
          exact (talks_refl _).adds
      obtain ⟨before, hbefore⟩ := herased
      dsimp only at h
      split at h
      · exact (hfail h).imp_right fun h0 hn => absurd h0 hn
      · rw [Proc.returns_bind] at h
        obtain ⟨⟨result, response⟩, u, hcmd, h⟩ := h
        dsimp only at h
        split at h
        · exact (hfail h).imp_right fun h0 hn => absurd h0 hn
        · next hok =>
          obtain ⟨opening, hopen, hacc⟩ := sendCmd_accepted hcmd hok
          rw [Proc.returns_bind] at h
          obtain ⟨m, v, hb, h⟩ := h
          rw [Proc.returns_bind] at h
          obtain ⟨_, w, hx, h⟩ := h
          obtain ⟨-, rfl⟩ := returns_xfer.mp hx
          rw [Proc.returns_bind] at h
          obtain ⟨_, w, hready, h⟩ := h
          obtain ⟨rfl, rfl⟩ := Proc.returns_pure.mp h
          obtain ⟨k, rfl, hk, seg, hseg, hblocks⟩ := writeSectors_blocks hb
          obtain ⟨rest, hrest⟩ := (does_waitReady.keeps _ _ _ hready).adds
          obtain ⟨stop, hstop⟩ : ∃ stop, Adds stop v s' := ⟨_, (adds_exchanged v _).trans hrest⟩
          refine ⟨by omega, fun _ => ⟨before ++ opening, seg ++ stop, ?_, ?_, ?_⟩⟩
          · rw [(((hbefore.trans hopen).trans hseg).trans hstop).log, List.append_assoc _ seg]
          · rw [writeCmd, if_neg hone]
            exact hacc.behind before
          · rw [writeToken, if_neg hone, Nat.zero_add, List.range_eq_range']
            exact hblocks.append _
    · obtain ⟨rfl, rfl⟩ := Proc.returns_pure.mp h
      exact ⟨Nat.le_refl _, fun hn => by omega⟩

/-! ## The four functions -/

/-- The call returns when the clock goes on, and whatever it returns is as described. -/
def Delivers {α : Type} (env : MsdEnv) (p : MsdProc α) (s : MsdState) (Q : α → MsdState → Prop) :
    Prop := (env.Advances → ∃ r s', p.Returns s r s') ∧ ∀ r s', p.Returns s r s' → Q r s'

theorem Exchanges.released (h : Exchanges (prepared s) t) : (finished t).hold = s.hold := by
  obtain ⟨seg, n, b, rfl⟩ := h
  rfl

/-- The transfer between taking and releasing the bus is honest, so all depends on the bus. -/
theorem framed_delivers_iff {α : Type} {refused : α} {body : MsdProc α} {size : ℕ}
    {Q : α → MsdState → Prop} (hdoes : body.Does env.Advances Exchanges)
    (htaken : ∀ r t, Exchanges (prepared s) t → body.Returns (prepared s) r t → Q r (finished t))
    (hrefused : Q refused { s with selected := false } ↔ size = 0) :
    Delivers env (framed env refused body) s Q ↔ BusTaken env s ∨ size = 0 := by
  by_cases hbus : BusTaken env s
  · refine iff_of_true ⟨fun hadv => ?_, fun r s' h => ?_⟩ (.inl hbus)
    · obtain ⟨r, t, ht, -⟩ := hdoes.ends hadv (prepared s)
      exact ⟨r, finished t, (framed_taken hbus).mpr ⟨t, ht, rfl⟩⟩
    · obtain ⟨t, ht, rfl⟩ := (framed_taken hbus).mp h
      exact htaken r t (hdoes.keeps _ _ _ ht) ht
  · have hreturns : (framed env refused body).Returns s refused _ := held_refused hbus
    rw [or_iff_right hbus, ← hrefused]
    constructor
    · exact fun h => h.2 _ _ hreturns
    · refine fun hQ => ⟨fun _ => ⟨_, _, hreturns⟩, fun r s' h => ?_⟩
      obtain ⟨rfl, rfl⟩ := hreturns.unique h
      exact hQ

theorem blocks_of_nil {blockSize : ℕ} {blocks : List (List UInt8)}
    (h : Blocks blockSize [] blocks) : blocks = [] := by
  generalize hb : ([] : List UInt8) = bytes at h
  cases h with
  | none => rfl
  | block => simp at hb

theorem acknowledged_of_nil {token : UInt8} {blocks : List (List UInt8)}
    (h : Acknowledged token [] blocks) : blocks = [] := by
  generalize hb : ([] : List (UInt8 × UInt8)) = seg at h
  cases h with
  | none => rfl
  | block data hstart hlen =>
    simp only [List.nil_eq, List.append_eq_nil_iff] at hb
    simp [hb.2.2.1] at hlen

/-- Nothing was exchanged, so only the count 0 is honest. -/
theorem honestRead_refused {cmd : UInt8} {arg blockSize : BitVec 32} {size : ℕ} :
    HonestRead s cmd arg blockSize size (size, []) { s with selected := false } ↔ size = 0 := by
  constructor
  · intro h
    by_contra hne
    obtain ⟨opening, data, blocks, hlog, -, hblocks, hlen, -⟩ := h.blocks hne
    have hnil := List.self_eq_append_right.mp hlog
    rw [(List.append_eq_nil_iff.mp hnil).2] at hblocks
    rw [blocks_of_nil hblocks] at hlen
    exact hne hlen.symm
  · rintro rfl
    exact ⟨Nat.le_refl 0, fun h => absurd rfl h, rfl, rfl⟩

theorem honestWrite_refused {cmd token : UInt8} {arg blockSize : BitVec 32} {buffer : ℕ → UInt8}
    {size : ℕ} : HonestWrite s cmd token arg blockSize buffer size size
      { s with selected := false } ↔ size = 0 := by
  constructor
  · intro h
    by_contra hne
    obtain ⟨opening, data, hlog, -, hblocks⟩ := h.blocks hne
    have hnil := List.self_eq_append_right.mp hlog
    rw [(List.append_eq_nil_iff.mp hnil).2] at hblocks
    have hempty := acknowledged_of_nil hblocks
    simp only [List.map_eq_nil_iff, List.range_eq_nil] at hempty
    exact hne hempty
  · rintro rfl
    exact ⟨Nat.le_refl 0, fun h => absurd rfl h, rfl, rfl⟩

theorem msdRead_delivers_iff (response : MsdResponse) (arg : MsdState → BitVec 32)
    (harg : arg (prepared s) = arg s) (size : ℕ) :
    Delivers env (msdRead env response arg size) s
      (HonestRead s (readCmd size) (arg s) s.bytesPerSector size) ↔ BusTaken env s ∨ size = 0 := by
  refine framed_delivers_iff ((Proc.does_read exchanges_refl arg).bind exchanges_trans fun a =>
    does_readFrom response a size) ?_ honestRead_refused
  rintro ⟨n, stored⟩ t hex ht
  rw [Proc.returns_bind_of (Proc.returns_read.mpr ⟨rfl, rfl⟩)] at ht
  obtain ⟨hle, hblocks⟩ := readFrom_counts ht
  rw [harg] at hblocks
  refine ⟨hle, fun hn => ?_, rfl, hex.released⟩
  obtain ⟨opening, data, hlog, hacc, hb, hlen⟩ := hblocks hn
  exact ⟨opening, data, stored, hlog, hacc, hb, hlen, List.prefix_refl _⟩

theorem msdWrite_delivers_iff (response : MsdResponse) (erases : MsdState → Bool)
    (arg : MsdState → BitVec 32) (harg : arg (prepared s) = arg s) (buffer : ℕ → UInt8)
    (size : ℕ) : Delivers env (msdWrite env response erases arg buffer size) s
      (HonestWrite s (writeCmd size) (writeToken size) (arg s) s.bytesPerSector buffer size) ↔
        BusTaken env s ∨ size = 0 := by
  refine framed_delivers_iff ((Proc.does_read exchanges_refl erases).bind exchanges_trans fun e =>
    (Proc.does_read exchanges_refl arg).bind exchanges_trans fun a =>
      does_writeFrom response e a buffer size) ?_ honestWrite_refused
  intro n t hex ht
  rw [Proc.returns_bind_of (Proc.returns_read.mpr ⟨rfl, rfl⟩),
    Proc.returns_bind_of (Proc.returns_read.mpr ⟨rfl, rfl⟩)] at ht
  obtain ⟨hle, hblocks⟩ := writeFrom_counts ht
  rw [harg] at hblocks
  exact ⟨hle, hblocks, rfl, hex.released⟩

/-- Each of the four functions returns an honest count and leaves the bus, exactly when it could
take the bus or was asked for no sector. -/
theorem counts_honest_iff (env : MsdEnv) (response : MsdResponse) (s : MsdState) (pos : BitVec 32)
    (buffer : ℕ → UInt8) (size : ℕ) :
    (Delivers env (rtMsdRead env response pos size) s
      (HonestRead s (readCmd size) (pos * s.bytesPerSector) s.bytesPerSector size) ↔
        BusTaken env s ∨ size = 0) ∧
    (Delivers env (rtMsdSdhcRead env response pos size) s
      (HonestRead s (readCmd size) pos s.bytesPerSector size) ↔ BusTaken env s ∨ size = 0) ∧
    (Delivers env (rtMsdWrite env response pos buffer size) s
      (HonestWrite s (writeCmd size) (writeToken size) (pos * s.bytesPerSector) s.bytesPerSector
        buffer size) ↔ BusTaken env s ∨ size = 0) ∧
    (Delivers env (rtMsdSdhcWrite env response pos buffer size) s
      (HonestWrite s (writeCmd size) (writeToken size) pos s.bytesPerSector buffer size) ↔
        BusTaken env s ∨ size = 0) :=
  ⟨msdRead_delivers_iff response (fun s => pos * s.bytesPerSector) rfl size,
    msdRead_delivers_iff response (fun _ => pos) rfl size,
    msdWrite_delivers_iff response (fun s => s.cardType ≠ .mmc) (fun s => pos * s.bytesPerSector)
      rfl buffer size,
    msdWrite_delivers_iff response (fun _ => true) (fun _ => pos) rfl buffer size⟩

/-- A card of 512-byte sectors on a bus that cannot be configured. -/
def unconfigurable : MsdEnv := ⟨fun _ => 0xFF, id, true, false⟩

def idleCard : MsdState :=
  { log := [], readings := 0, selected := false, hold := 0, isOwner := false,
    config := ⟨4, 8, 0, 400000⟩, cardType := .sdV2X, bytesPerSector := 512, blockSize := 512,
    sectorCount := 4096, maxClock := 18000000, sdhc := false }

/-- A read of one sector is counted although the bus was never configured. -/
theorem unread_sector_counted :
    ¬Delivers unconfigurable (rtMsdRead unconfigurable (Vector.replicate 5 0) 0 1) idleCard
      (HonestRead idleCard (readCmd 1) 0 512 1) := by
  intro h
  have hreturns : (rtMsdRead unconfigurable (Vector.replicate 5 0) 0 1).Returns idleCard (1, [])
      { idleCard with selected := false } :=
    held_refused (by simp [BusTaken, unconfigurable, idleCard])
  exact absurd (honestRead_refused.mp (h.2 _ _ hreturns)) Nat.one_ne_zero

end RtThread.Msd
