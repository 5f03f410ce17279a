import RtThread.Filesystems.DfsElm
import Mathlib.Tactic.Ring

/-!
# Directory streams

`readdir`, `telldir` and `seekdir` of DFS over a directory of a FAT volume. The buffer of a
stream holds one record, so that every entry is a fill of its own. FatFs reads the entries
in order and `f_seekdir` makes it go on with the entry of a number.
-/
namespace RtThread

/-- An entry of a directory, as `f_readdir` reports it. -/
structure ElmEntry where
  name : List UInt8
  isDir : Bool
  deriving DecidableEq, Repr

/-- A directory; FatFs counts its entries in sixteen bits. -/
structure ElmDirectory where
  entries : List ElmEntry
  few : entries.length ≤ 65536

/-- `d_type`. -/
inductive DirentType where
  | dir
  | reg
  deriving DecidableEq, Repr

/-- `struct dirent`. -/
structure Dirent where
  dType : DirentType
  dNamlen : ℕ
  dReclen : ℕ
  dName : List UInt8
  deriving DecidableEq, Repr

/-- `sizeof(struct dirent)`. -/
def sizeofDirent : ℕ := 260

/-- The record that the driver makes of an entry. -/
def dirent (e : ElmEntry) : Dirent :=
  ⟨if e.isDir then .dir else .reg, e.name.length % 256, sizeofDirent, e.name⟩

/-- A stream with its descriptor. -/
structure DirStream where
  /-- The records in the buffer; it is zero behind them. -/
  buf : List Dirent
  num : ℕ
  cur : ℕ
  /-- `pos` of the descriptor. -/
  pos : ℤ
  /-- The number of the entry that `f_readdir` reports next. -/
  index : ℕ
  deriving DecidableEq, Repr

/-- A stream that has just been opened. -/
def openedStream : DirStream := ⟨[], 0, 0, 0, 0⟩

/-- The record at an offset of the buffer. -/
def recordAt (buf : List Dirent) (cur : ℕ) : Option Dirent :=
  if cur % sizeofDirent = 0 then buf[cur / sizeofDirent]? else none

/-- `d_reclen` of the record at an offset of the buffer. -/
def reclenAt (buf : List Dirent) (cur : ℕ) : ℕ :=
  (recordAt buf cur).elim 0 Dirent.dReclen

/-- The loop of `dfs_elm_getdents`, with room for so many records. -/
def getdentsLoop (entries : List ElmEntry) : ℕ → ℕ → List Dirent × ℕ
  | 0, index => ([], index)
  | room + 1, index =>
    match entries[index]? with
    | none => ([], index)
    | some e =>
      let (rest, index) := getdentsLoop entries room (index + 1)
      (dirent e :: rest, index)

section Calls

variable (dir : ElmDirectory)

def dfsElmGetdents (s : DirStream) (count : ℕ) : ℤ × DirStream :=
  let room := count / sizeofDirent
  if room * sizeofDirent = 0 then (-dfsStatusEinval, s)
  else
    match getdentsLoop dir.entries room s.index with
    | ([], index) => (elmResultToDfs .ok, { s with index := index })
    | (records, index) =>
      ((records.length * sizeofDirent : ℕ),
        { s with
          buf := records ++ s.buf.drop records.length
          pos := s.pos + (records.length * sizeofDirent : ℕ)
          index := index })

def readdir (s : DirStream) : Option Dirent × DirStream :=
  let s := if s.num ≠ 0 then { s with cur := s.cur + reclenAt s.buf s.cur } else s
  if s.num = 0 ∨ s.num ≤ s.cur then
    let (result, s) := dfsElmGetdents dir s (512 - 1)
    if result ≤ 0 then (none, s)
    else
      let s := { s with num := result.toNat, cur := 0 }
      (recordAt s.buf s.cur, s)
  else (recordAt s.buf s.cur, s)

def telldir (s : DirStream) : ℤ := s.pos - s.num + s.cur

/-- `f_seekdir`. -/
def fSeekdir (s : DirStream) (offset : ℕ) : FResult × DirStream :=
  if offset ≤ dir.entries.length then (.ok, { s with index := offset })
  else (.intErr, { s with index := dir.entries.length })

/-- `dfs_elm_lseek` of a directory. -/
def dfsElmLseekDir (s : DirStream) (offset : ℤ) : ℤ × DirStream :=
  match fSeekdir dir s ((offset % 2 ^ 32).toNat / sizeofDirent) with
  | (.ok, s) => (offset, { s with pos := offset })
  | (result, s) => (elmResultToDfs result, s)

/-- `seekdir`, with `dfs_file_lseek`. -/
def seekdir (s : DirStream) (offset : ℤ) : DirStream :=
  let (result, s) := dfsElmLseekDir dir s offset
  if result ≥ 0 then { s with pos := result, num := 0, cur := 0 } else s

/-- The stream after so many calls of `readdir`. -/
def streamAfter : ℕ → DirStream
  | 0 => openedStream
  | k + 1 => (readdir dir (streamAfter k)).2

/-- The pair of calls does not change what the next `readdir` returns. -/
def RoundTrip (s : DirStream) : Prop :=
  (readdir dir (seekdir dir s (telldir s))).1 = (readdir dir s).1

end Calls

variable {dir : ElmDirectory}

/-! ## One call -/

/-- A buffer has room for one record. -/
theorem getdents_one (s : DirStream) :
    dfsElmGetdents dir s (512 - 1) =
      match dir.entries[s.index]? with
      | none => (0, s)
      | some e => (sizeofDirent, { s with
          buf := dirent e :: s.buf.drop 1, pos := s.pos + sizeofDirent, index := s.index + 1 }) := by
  cases he : dir.entries[s.index]? with
  | none => simp [dfsElmGetdents, getdentsLoop, sizeofDirent, he, elmResultToDfs]
  | some e => simp [dfsElmGetdents, getdentsLoop, sizeofDirent, he]

/-- A stream whose buffer is used up, or that has not read anything. -/
theorem readdir_fill {s : DirStream} (h : s.num = 0 ∨ s.num ≤ s.cur + reclenAt s.buf s.cur) :
    (readdir dir s).1 = dir.entries[s.index]?.map dirent ∧
      ∀ e, dir.entries[s.index]? = some e → (readdir dir s).2 =
        ⟨dirent e :: s.buf.drop 1, sizeofDirent, 0, s.pos + sizeofDirent, s.index + 1⟩ := by
  rw [readdir]
  by_cases hnum : s.num = 0
  · simp only [hnum, ne_eq, not_true_eq_false, if_false, true_or, if_true, getdents_one]
    cases he : dir.entries[s.index]? with
    | none => simp
    | some e => simp [sizeofDirent, recordAt]
  · have hfull := h.resolve_left hnum
    simp only [ne_eq, hnum, not_false_eq_true, if_true, hfull, or_true, getdents_one]
    cases he : dir.entries[s.index]? with
    | none => simp
    | some e => simp [sizeofDirent, recordAt]

/-- At the end of the directory only the cursor moves on. -/
theorem readdir_end {s : DirStream} (hend : dir.entries[s.index]? = none)
    (hnum : s.num ≠ 0) (hfull : s.num ≤ s.cur + reclenAt s.buf s.cur) :
    (readdir dir s).2 = { s with cur := s.cur + reclenAt s.buf s.cur } := by
  rw [readdir]
  simp only [ne_eq, hnum, not_false_eq_true, if_true, hfull, or_true, getdents_one, hend,
    le_refl]

theorem seekdir_entry (s : DirStream) {j : ℕ} (hj : j ≤ dir.entries.length) :
    seekdir dir s (sizeofDirent * j : ℕ) = { s with
      num := 0, cur := 0, pos := (sizeofDirent * j : ℕ), index := j } := by
  have hfew := dir.few
  have htarget : (((sizeofDirent * j : ℕ) : ℤ) % 2 ^ 32).toNat / sizeofDirent = j := by
    unfold sizeofDirent
    omega
  have hpos : (0 : ℤ) ≤ (sizeofDirent * j : ℕ) := Int.natCast_nonneg _
  rw [seekdir, dfsElmLseekDir, htarget, fSeekdir, if_pos hj]
  simp only [ge_iff_le, hpos, if_true]

/-! ## The streams that readdir reaches -/

/-- The stream that has just delivered the entry of a number. -/
def deliveredStream (e : ElmEntry) (k : ℕ) : DirStream :=
  ⟨[dirent e], sizeofDirent, 0, (sizeofDirent * (k + 1) : ℕ), k + 1⟩

/-- The stream that has come to the end of a directory with a last entry. -/
def endedStream (e : ElmEntry) (k : ℕ) : DirStream :=
  { deliveredStream e k with cur := sizeofDirent }

theorem reclenAt_delivered (e : ElmEntry) (k : ℕ) :
    reclenAt (deliveredStream e k).buf (deliveredStream e k).cur = sizeofDirent := by
  simp [reclenAt, recordAt, deliveredStream, dirent]

theorem reclenAt_ended (e : ElmEntry) (k : ℕ) :
    reclenAt (endedStream e k).buf (endedStream e k).cur = 0 := by
  simp [reclenAt, recordAt, endedStream, deliveredStream, sizeofDirent]

theorem streamAfter_entry {k : ℕ} {e : ElmEntry} (he : dir.entries[k]? = some e) :
    streamAfter dir (k + 1) = deliveredStream e k := by
  induction k generalizing e with
  | zero => exact (readdir_fill (.inl rfl)).2 e he
  | succ k ih =>
    have hk : k < dir.entries.length :=
      Nat.lt_of_succ_lt (List.getElem?_eq_some_iff.mp he).1
    have hprev := ih (List.getElem?_eq_getElem hk)
    rw [streamAfter, hprev, (readdir_fill (.inr ?_)).2 e he]
    · simp only [deliveredStream, List.drop_succ_cons, List.drop_zero, DirStream.mk.injEq,
        and_true, true_and]
      push_cast
      ring
    · rw [reclenAt_delivered]
      exact Nat.le_add_left ..

theorem streamAfter_empty (hempty : dir.entries = []) (k : ℕ) :
    streamAfter dir k = openedStream := by
  induction k with
  | zero => rfl
  | succ k ih =>
    have hnone : dir.entries[openedStream.index]? = none := by simp [hempty]
    rw [streamAfter, ih, readdir]
    simp only [show openedStream.num = 0 from rfl, ne_eq, not_true_eq_false, if_false, true_or,
      if_true, getdents_one, hnone, le_refl]

theorem streamAfter_end {k : ℕ} {e : ElmEntry} (he : dir.entries[k]? = some e)
    (hlast : dir.entries.length = k + 1) (j : ℕ) :
    streamAfter dir (k + 2 + j) = endedStream e k := by
  have hnone : dir.entries[k + 1]? = none := List.getElem?_eq_none (Nat.le_of_eq hlast)
  induction j with
  | zero =>
    rw [Nat.add_zero, streamAfter, streamAfter_entry he, readdir_end hnone (Nat.succ_ne_zero _)]
    · rw [reclenAt_delivered]
      rfl
    · rw [reclenAt_delivered]
      exact Nat.le_add_left ..
  | succ j ih =>
    rw [← Nat.add_assoc, streamAfter, ih, readdir_end hnone (Nat.succ_ne_zero _)]
    · rw [reclenAt_ended]
      rfl
    · exact Nat.le_add_right ..

/-! ## The round trip -/

/-- After a seek the next `readdir` returns the entry of the number. -/
theorem readdir_after_seek (s : DirStream) {j : ℕ} (hj : j ≤ dir.entries.length) :
    (readdir dir (seekdir dir s (sizeofDirent * j : ℕ))).1 = dir.entries[j]?.map dirent := by
  rw [seekdir_entry s hj]
  exact (readdir_fill (.inl rfl)).1

theorem roundTrip_opened : RoundTrip dir openedStream := by
  have hseek := @readdir_after_seek dir openedStream 0 (Nat.zero_le _)
  have hread := (@readdir_fill dir openedStream (.inl rfl)).1
  exact hseek.trans hread.symm

theorem roundTrip_delivered_iff {k : ℕ} {e : ElmEntry} (he : dir.entries[k]? = some e) :
    RoundTrip dir (deliveredStream e k) ↔ dir.entries[k + 1]?.map dirent = some (dirent e) := by
  have htell : telldir (deliveredStream e k) = (sizeofDirent * k : ℕ) := by
    simp only [telldir, deliveredStream]
    push_cast
    ring
  have hk := (List.getElem?_eq_some_iff.mp he).1
  have hread := (@readdir_fill dir (deliveredStream e k)
    (.inr (by rw [reclenAt_delivered]; exact Nat.le_add_left ..))).1
  rw [RoundTrip, htell, readdir_after_seek _ (Nat.le_of_lt hk), he, hread]
  exact eq_comm

theorem roundTrip_ended {k : ℕ} (e : ElmEntry) (hlast : dir.entries.length = k + 1) :
    RoundTrip dir (endedStream e k) := by
  have htell : telldir (endedStream e k) = (sizeofDirent * (k + 1) : ℕ) := by
    simp only [telldir, endedStream, deliveredStream]
    ring
  have hread := (@readdir_fill dir (endedStream e k) (.inr (Nat.le_add_right ..))).1
  rw [RoundTrip, htell, readdir_after_seek _ (Nat.le_of_eq hlast.symm), hread]
  rfl

/-- The same record twice in a row. -/
def Repeats (dir : ElmDirectory) (k : ℕ) : Prop :=
  ∃ e e', dir.entries[k]? = some e ∧ dir.entries[k + 1]? = some e' ∧ dirent e' = dirent e

theorem stream_round_trip_iff (dir : ElmDirectory) (k : ℕ) :
    RoundTrip dir (streamAfter dir k) ↔
      k = 0 ∨ dir.entries.length < k ∨ Repeats dir (k - 1) := by
  rcases k with _ | k
  · exact iff_of_true roundTrip_opened (.inl rfl)
  rw [Nat.add_sub_cancel]
  rcases Nat.lt_or_ge k dir.entries.length with hk | hk
  · have he := List.getElem?_eq_getElem hk
    rw [streamAfter_entry he, roundTrip_delivered_iff he, Option.map_eq_some_iff]
    constructor
    · rintro ⟨e', he', heq⟩
      exact .inr (.inr ⟨_, e', he, he', heq⟩)
    · rintro (h | h | ⟨e, e', h, h', heq⟩)
      · exact absurd h (Nat.succ_ne_zero k)
      · omega
      · obtain rfl := Option.some.inj (he.symm.trans h)
        exact ⟨e', h', heq⟩
  · refine iff_of_true ?_ (.inr (.inl (by omega)))
    rcases Nat.eq_zero_or_pos dir.entries.length with hzero | hpos
    · rw [streamAfter_empty (List.eq_nil_of_length_eq_zero hzero)]
      exact roundTrip_opened
    · obtain ⟨last, hlast⟩ : ∃ last, dir.entries.length = last + 1 :=
        ⟨dir.entries.length - 1, by omega⟩
      have he : dir.entries[last]? = some dir.entries[last] := List.getElem?_eq_getElem _
      have hstream := streamAfter_end he hlast (k - last - 1)
      rw [show last + 2 + (k - last - 1) = k + 1 by omega] at hstream
      rw [hstream]
      exact roundTrip_ended _ hlast

/-- A directory of two entries. -/
def twoEntries : ElmDirectory := ⟨[⟨[0x61], false⟩, ⟨[0x62], false⟩], by decide⟩

theorem seekdir_repeats_entry : ¬RoundTrip twoEntries (streamAfter twoEntries 1) := by
  rw [streamAfter_entry (e := ⟨[0x61], false⟩) rfl, roundTrip_delivered_iff rfl]
  decide

end RtThread
