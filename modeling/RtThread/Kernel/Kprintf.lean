import RtThread.Kernel.VsnprintfBounds
import RtThread.Kernel.Device

/-!
# Console output

`rt_kprintf` with a console device or without. The buffer lies at an address of its own; the
formatter is told of one byte less than it has, and the length is cut to one byte less as
well, which is one more than the formatter leaves of a longer text.
-/
namespace RtThread
open BoundedOutput ByteMemory

namespace Vsnprintf

def rtConsolebufSize : ℕ := 128

def rtDeviceFlagStream : BitVec 16 := 0x040

/-- What the console gets. -/
inductive ConsoleOutput where
  /-- `rt_hw_console_output` with the address of the string. -/
  | hw (str : ℕ)
  /-- `rt_device_write` under these flags of the device. -/
  | write (openFlag : BitVec 16) (pos buffer size : ℕ)
  deriving DecidableEq, Repr

/-- The bytes that a write hands over. -/
def ConsoleOutput.bytes (m : Memory) : ConsoleOutput → List UInt8
  | .hw _ => []
  | .write _ _ buffer size => (List.range size).map fun i => m (buffer + i)

/-- The length of the output, as `rt_kprintf` adjusts it. -/
def adjustedLength (length : ℕ) : ℕ :=
  if length > rtConsolebufSize - 1 then rtConsolebufSize - 1 else length

/-- `rt_kprintf` with the `open_flag` of the console device, where there is one: the memory,
what the console gets and the flag afterwards. -/
def rtKprintf (strings : BitVec 32 → List UInt8) (m : Memory) (rtLogBuf : ℕ)
    (consoleDevice : Option (BitVec 16)) (fmt : List UInt8) (args : Args) :
    Memory × ConsoleOutput × Option (BitVec 16) :=
  let (length, m) := rtVsnprintf strings m rtLogBuf (rtConsolebufSize - 1) fmt args
  let length := adjustedLength length
  match consoleDevice with
  | none => (m, .hw rtLogBuf, none)
  | some oldFlag =>
    (m, .write (oldFlag ||| rtDeviceFlagStream) 0 rtLogBuf length, some oldFlag)

/-- The console device gets these bytes. -/
def Hands (strings : BitVec 32 → List UInt8) (m : Memory) (rtLogBuf : ℕ) (flag : BitVec 16)
    (fmt : List UInt8) (args : Args) (bytes : List UInt8) : Prop :=
  let (m', output, _) := rtKprintf strings m rtLogBuf (some flag) fmt args
  output.bytes m' = bytes

variable {strings : BitVec 32 → List UInt8} {m : Memory} {rtLogBuf : ℕ} {fmt : List UInt8}
  {args : Args}

theorem bytes_of_holds {m : Memory} {a : ℕ} {s : List UInt8} (h : Holds m a s) :
    (List.range s.length).map (fun i => m (a + i)) = s := by
  refine List.ext_getElem (by simp) fun i hi hi' => ?_
  rw [List.getElem_map, List.getElem_range]
  exact holds_getElem h hi'

/-- The call of the formatter. -/
theorem hands_iff (flag : BitVec 16) (bytes : List UInt8) :
    Hands strings m rtLogBuf flag fmt args bytes ↔
      (List.range (adjustedLength (rtVsnprintf strings m rtLogBuf 127 fmt args).1)).map
        (fun i => (rtVsnprintf strings m rtLogBuf 127 fmt args).2 (rtLogBuf + i)) = bytes :=
  Iff.rfl

/-- A text that fits the formatter is handed over. -/
theorem hands_short (h : (formatText strings fmt args).length ≤ 126) (flag : BitVec 16) :
    Hands strings m rtLogBuf flag fmt args (formatText strings fmt args) := by
  obtain ⟨m', hcall, hstring, -⟩ := rtVsnprintf_of_fits (by decide : 1 ≤ 127)
    (not_padsBeyond_of_large (show 0 + (formatText strings fmt args).length < 127 by omega))
    m rtLogBuf
  have hlength : adjustedLength (formatText strings fmt args).length =
      (formatText strings fmt args).length := if_neg (Nat.not_lt.mpr (Nat.le_succ_of_le h))
  rw [List.take_of_length_le h] at hstring
  rw [hands_iff, hcall, hlength]
  exact bytes_of_holds hstring

/-- A longer text comes with the zero that ends its first 126 characters. -/
theorem adjustedLength_long (h : 126 < (formatText strings fmt args).length) :
    adjustedLength (rtVsnprintf strings m rtLogBuf 127 fmt args).1 = 127 := by
  have hstr := @printFormat_length (rtLogBuf + 127 - 1) strings ⟨m, rtLogBuf⟩ fmt args
  have hlen : 127 ≤ (rtVsnprintf strings m rtLogBuf 127 fmt args).1 := by
    rw [rtVsnprintf]
    simp only [if_neg (show ¬127 = 0 by decide)] at hstr ⊢
    omega
  unfold adjustedLength rtConsolebufSize
  split_ifs <;> omega

theorem hands_text_iff (strings : BitVec 32 → List UInt8) (m : Memory) (rtLogBuf : ℕ)
    (flag : BitVec 16) (fmt : List UInt8) (args : Args) :
    Hands strings m rtLogBuf flag fmt args
        ((formatText strings fmt args).take
          (min (formatText strings fmt args).length (rtConsolebufSize - 2))) ↔
      (formatText strings fmt args).length ≤ rtConsolebufSize - 2 := by
  change _ ↔ (formatText strings fmt args).length ≤ 126
  constructor
  · intro h
    by_contra hlong
    have hlength := congrArg List.length ((hands_iff flag _).mp h)
    rw [adjustedLength_long (Nat.lt_of_not_le hlong), List.length_map, List.length_range,
      List.length_take, rtConsolebufSize] at hlength
    omega
  · intro hshort
    rw [List.take_of_length_le (by rw [rtConsolebufSize]; omega)]
    exact hands_short hshort flag

/-- A format of 127 letters: the console gets 127 bytes. -/
theorem hands_terminator :
    ¬∀ (strings : BitVec 32 → List UInt8) (m : Memory) (rtLogBuf : ℕ) (flag : BitVec 16)
      (fmt : List UInt8) (args : Args), Hands strings m rtLogBuf flag fmt args
        ((formatText strings fmt args).take
          (min (formatText strings fmt args).length (rtConsolebufSize - 2))) := by
  intro h
  have hletters : ∀ k : ℕ, formatText (fun _ => []) (List.replicate k 0x61) (Stream'.const 0) =
      List.replicate k 0x61 := by
    intro k
    induction k with
    | zero => exact formatText_nil _
    | succ k ih => rw [List.replicate_succ, formatText_char (by decide), ih]
  have hlength := congrArg List.length ((hands_iff 0 _).mp
    (h (fun _ => []) (fun _ => 0) 0x20000000 0 (List.replicate 127 0x61) (Stream'.const 0)))
  rw [adjustedLength_long (by rw [hletters, List.length_replicate]; omega), hletters,
    List.length_map, List.length_range, List.length_take, List.length_replicate,
    rtConsolebufSize] at hlength
  exact absurd hlength (by decide)

end Vsnprintf
end RtThread
