import RtThread.Kernel.Kservice

/-!
# The prompt of the shell

`finsh_get_prompt` over the memory around its static buffer. Between two calls the
memory outside the buffer is anything, and the working directory may change.
-/
namespace RtThread
open ByteMemory

namespace FinshPrompt

def rtConsolebufSize : ℕ := 128

/-- `_MSH_PROMPT` and `_PROMPT`. -/
def modeName (mshIsUsed : Bool) : List UInt8 :=
  if mshIsUsed then [0x6D, 0x73, 0x68, 0x20] else [0x66, 0x69, 0x6E, 0x73, 0x68, 0x20]

/-- `getcwd`, with the working directory at the time. -/
def getcwd (m : Memory) (buf : ℕ) (workingDirectory : List UInt8) (size : ℕ) : Memory :=
  rtStrncpy m buf workingDirectory size

/-- `finsh_get_prompt`, with its buffer at `finshPrompt`. -/
def finshGetPrompt (finshPrompt : ℕ) (mshIsUsed : Bool) (workingDirectory : List UInt8)
    (m : Memory) : Option Memory :=
  let m := strcpy m finshPrompt (modeName mshIsUsed)
  (rtStrlen m finshPrompt).bind fun len =>
    let m := getcwd m (finshPrompt + len) workingDirectory (rtConsolebufSize - len)
    strcat m finshPrompt [0x3E]

/-- An address of the static buffer. -/
def InBuffer (finshPrompt a : ℕ) : Prop :=
  finshPrompt ≤ a ∧ a < finshPrompt + (rtConsolebufSize + 1)

/-- A call returns the mode name, a prefix of the working directory and `>`, and writes
nothing but the buffer. -/
def PromptRight (finshPrompt : ℕ) (mshIsUsed : Bool) (workingDirectory : List UInt8)
    (m : Memory) : Prop :=
  ∃ m' p, finshGetPrompt finshPrompt mshIsUsed workingDirectory m = some m' ∧
    p <+: workingDirectory ∧ CString m' finshPrompt (modeName mshIsUsed ++ p ++ [0x3E]) ∧
    ∀ a, ¬InBuffer finshPrompt a → m' a = m a

/-- Every call of a session is right, whatever the memory outside the buffer is at each. -/
def AlwaysRight (finshPrompt : ℕ) : Memory → List (Bool × List UInt8) → Prop
  | _, [] => True
  | m, (mshIsUsed, workingDirectory) :: calls =>
    ∀ m₁ : Memory, (∀ a, InBuffer finshPrompt a → m₁ a = m a) →
      PromptRight finshPrompt mshIsUsed workingDirectory m₁ ∧
        ∀ m', finshGetPrompt finshPrompt mshIsUsed workingDirectory m₁ = some m' →
          AlwaysRight finshPrompt m' calls

/-- The mode name, the directory and `>` with its zero fit in the buffer. -/
def Fits (call : Bool × List UInt8) : Prop :=
  (modeName call.1).length + call.2.length < rtConsolebufSize

variable {m m' : Memory} {base : ℕ} {msh : Bool} {cwd : List UInt8}

theorem modeName_nonzero (msh : Bool) : Nonzero (modeName msh) := by
  cases msh <;> decide +kernel

theorem modeName_length (msh : Bool) : (modeName msh).length ≤ 6 := by cases msh <;> decide

/-- The memory in which `>` is put behind the string. -/
def copied (base : ℕ) (msh : Bool) (cwd : List UInt8) (m : Memory) : Memory :=
  rtStrncpy (strcpy m base (modeName msh)) (base + (modeName msh).length) cwd
    (rtConsolebufSize - (modeName msh).length)

theorem finshGetPrompt_eq (base : ℕ) (msh : Bool) (cwd : List UInt8) (m : Memory) :
    finshGetPrompt base msh cwd m = strcat (copied base msh cwd m) base [0x3E] := by
  have hlen := modeName_length msh
  rw [finshGetPrompt]
  simp only []
  rw [rtStrlen_eq strcpy_cString (modeName_nonzero msh) (by omega), Option.bind_some]
  rfl

theorem copied_holds : Holds (copied base msh cwd m) base
    (modeName msh ++ cwd.take (rtConsolebufSize - (modeName msh).length)) := by
  refine holds_append.mpr ⟨?_, rtStrncpy_holds⟩
  exact strcpy_cString.1.congr fun i _ hi => rtStrncpy_outside (.inl hi)

theorem copied_outside {i : ℕ} (h : i < base ∨ base + rtConsolebufSize ≤ i) :
    copied base msh cwd m i = m i := by
  have hlen := modeName_length msh
  simp only [rtConsolebufSize] at h
  rw [copied, rtStrncpy_outside (by simp only [rtConsolebufSize]; omega),
    strcpy_outside (by omega)]

/-- The directory is copied whole, or up to the end of the buffer. -/
theorem finshGetPrompt_string (hcwd : Nonzero cwd) {p : List UInt8}
    (hp : p = cwd.take (rtConsolebufSize - (modeName msh).length))
    (hend : copied base msh cwd m (base + (modeName msh ++ p).length) = 0) :
    finshGetPrompt base msh cwd m = some (strcpy (copied base msh cwd m)
      (base + (modeName msh ++ p).length) [0x3E]) := by
  have hmode := modeName_length msh
  have hlen : (modeName msh ++ p).length ≤ 134 := by
    simp only [hp, List.length_append, List.length_take, rtConsolebufSize]
    omega
  have hnonzero : Nonzero (modeName msh ++ p) := by
    intro c hc
    rcases List.mem_append.mp hc with hc | hc
    · exact modeName_nonzero msh c hc
    · exact hcwd c (List.mem_of_mem_take (hp ▸ hc))
  rw [finshGetPrompt_eq, strcat, rtStrlen_eq ⟨hp ▸ copied_holds, hend⟩ hnonzero (by omega)]
  rfl

/-- A directory that fits is copied whole, and the last byte of the buffer is zero again. -/
theorem finshGetPrompt_fits (hcwd : Nonzero cwd) (hfits : Fits (msh, cwd))
    (hlast : m (base + rtConsolebufSize) = 0) :
    ∃ m', finshGetPrompt base msh cwd m = some m' ∧
      CString m' base (modeName msh ++ cwd ++ [0x3E]) ∧
      (∀ a, ¬InBuffer base a → m' a = m a) ∧ m' (base + rtConsolebufSize) = 0 := by
  simp only [Fits, rtConsolebufSize] at hfits hlast ⊢
  have hlen : (modeName msh ++ cwd).length = (modeName msh).length + cwd.length :=
    List.length_append
  have htake : cwd = cwd.take (rtConsolebufSize - (modeName msh).length) :=
    (List.take_of_length_le (by simp only [rtConsolebufSize]; omega)).symm
  have hpad : copied base msh cwd m (base + (modeName msh ++ cwd).length) = 0 :=
    rtStrncpy_pad (by omega) (by simp only [rtConsolebufSize]; omega)
  refine ⟨_, finshGetPrompt_string hcwd htake hpad, ⟨?_, ?_⟩, fun a ha => ?_, ?_⟩
  · refine holds_append.mpr ⟨?_, strcpy_cString.1⟩
    rw [htake]
    exact copied_holds.congr fun i _ hi => by rw [← htake] at hi ⊢; exact strcpy_outside (.inl hi)
  · have hend := (@strcpy_cString (copied base msh cwd m)
      (base + (modeName msh ++ cwd).length) [0x3E]).2
    rwa [Nat.add_assoc, ← List.length_append] at hend
  · simp only [InBuffer, rtConsolebufSize] at ha
    rw [strcpy_outside (by simp only [List.length_singleton]; omega),
      copied_outside (by simp only [rtConsolebufSize]; omega)]
  · by_cases hfull : (modeName msh ++ cwd).length = 127
    · have hend := (@strcpy_cString (copied base msh cwd m)
        (base + (modeName msh ++ cwd).length) [0x3E]).2
      rwa [hfull] at hend ⊢
    · rw [strcpy_outside (.inr (by simp only [List.length_singleton]; omega)),
        copied_outside (.inr (by simp only [rtConsolebufSize]; omega)), hlast]

/-- A directory that does not fit makes the zero behind `>` fall behind the buffer. -/
theorem finshGetPrompt_overflow (hcwd : Nonzero cwd) (hfits : ¬Fits (msh, cwd))
    (hlast : m (base + rtConsolebufSize) = 0) :
    ∃ m', finshGetPrompt base msh cwd m = some m' ∧ m' (base + (rtConsolebufSize + 1)) = 0 := by
  simp only [Fits, rtConsolebufSize] at hfits hlast ⊢
  have hmode := modeName_length msh
  have hlen : (modeName msh ++ cwd.take (rtConsolebufSize - (modeName msh).length)).length =
      128 := by
    rw [List.length_append, List.length_take, rtConsolebufSize]
    omega
  refine ⟨_, finshGetPrompt_string hcwd rfl ?_, ?_⟩
  · rw [hlen, copied_outside (.inr (by simp only [rtConsolebufSize]; omega)), hlast]
  · rw [hlen]
    exact strcpy_cString.2

theorem promptRight_iff (hcwd : Nonzero cwd) (hlast : m (base + rtConsolebufSize) = 0) :
    (∀ m₁ : Memory, (∀ a, InBuffer base a → m₁ a = m a) → PromptRight base msh cwd m₁) ↔
      Fits (msh, cwd) := by
  have hin : InBuffer base (base + rtConsolebufSize) :=
    ⟨Nat.le_add_right .., Nat.lt_succ_self _⟩
  constructor
  · intro hright
    by_contra hfits
    set m₁ := Function.update m (base + (rtConsolebufSize + 1)) 1 with hm₁
    have hsame : ∀ a, InBuffer base a → m₁ a = m a := fun a ha =>
      Function.update_of_ne (by have := ha.2; omega) ..
    obtain ⟨m', p, hcall, -, -, houtside⟩ := hright m₁ hsame
    obtain ⟨m'', hcall', hzero⟩ := finshGetPrompt_overflow hcwd hfits
      ((hsame _ hin).trans hlast)
    obtain rfl := Option.some.inj (hcall.symm.trans hcall')
    rw [houtside _ (fun ha => absurd ha.2 (Nat.lt_irrefl _)), hm₁, Function.update_self] at hzero
    exact absurd hzero (by decide)
  · intro hfits m₁ hsame
    obtain ⟨m', hcall, hstring, houtside, -⟩ := finshGetPrompt_fits hcwd hfits
      ((hsame _ hin).trans hlast)
    exact ⟨m', cwd, hcall, List.prefix_rfl, hstring, houtside⟩

/-- The last byte of the buffer stays zero as long as the directories fit. -/
theorem alwaysRight_iff_fits {calls : List (Bool × List UInt8)}
    (hcalls : ∀ call ∈ calls, Nonzero call.2) (hlast : m (base + rtConsolebufSize) = 0) :
    AlwaysRight base m calls ↔ ∀ call ∈ calls, Fits call := by
  induction calls generalizing m with
  | nil => simp [AlwaysRight]
  | cons call calls ih =>
    obtain ⟨msh, cwd⟩ := call
    have hcwd : Nonzero cwd := hcalls (msh, cwd) List.mem_cons_self
    have hrest : ∀ call ∈ calls, Nonzero call.2 := fun c hc =>
      hcalls c (List.mem_cons_of_mem _ hc)
    have hin : InBuffer base (base + rtConsolebufSize) :=
      ⟨Nat.le_add_right .., Nat.lt_succ_self _⟩
    rw [AlwaysRight, List.forall_mem_cons]
    constructor
    · intro hright
      have hfits := (promptRight_iff hcwd hlast).mp fun m₁ hm₁ => (hright m₁ hm₁).1
      obtain ⟨m', hcall, -, -, hlast'⟩ := finshGetPrompt_fits hcwd hfits hlast
      exact ⟨hfits, (ih hrest hlast').mp ((hright m fun _ _ => rfl).2 m' hcall)⟩
    · rintro ⟨hfits, hall⟩ m₁ hm₁
      refine ⟨(promptRight_iff hcwd hlast).mpr hfits m₁ hm₁, fun m' hcall => ?_⟩
      obtain ⟨m'', hcall', -, -, hlast'⟩ := finshGetPrompt_fits hcwd hfits
        ((hm₁ _ hin).trans hlast)
      obtain rfl := Option.some.inj (hcall.symm.trans hcall')
      exact (ih hrest hlast').mpr hall

/-- A session starts with the buffer cleared. -/
theorem prompts_right_iff {calls : List (Bool × List UInt8)}
    (hcalls : ∀ call ∈ calls, Nonzero call.2) (hclear : ∀ a, InBuffer base a → m a = 0) :
    AlwaysRight base m calls ↔ ∀ call ∈ calls, Fits call :=
  alwaysRight_iff_fits hcalls (hclear _ ⟨Nat.le_add_right .., Nat.lt_succ_self _⟩)

theorem prompts_right_iff_sample :
    AlwaysRight 0 (fun _ => 0) [(true, [0x2F]), (true, [0x2F, 0x61])] ↔
      ∀ call ∈ [(true, [0x2F]), (true, [0x2F, 0x61])], Fits call :=
  prompts_right_iff (by decide +kernel) fun _ _ => rfl

/-- A directory of 124 characters. -/
def deepDirectory : List UInt8 := 0x2F :: List.replicate 123 0x61

theorem deepDirectory_nonzero : Nonzero deepDirectory := by
  intro c hc
  rcases List.mem_cons.mp hc with rfl | hc
  · decide
  · rw [List.eq_of_mem_replicate hc]
    decide

theorem deep_directory_overflows : ¬AlwaysRight 0 (fun _ => 0) [(true, deepDirectory)] := by
  rw [alwaysRight_iff_fits (fun call hcall => List.mem_singleton.mp hcall ▸ deepDirectory_nonzero)
    rfl]
  intro hfits
  have hfits := hfits _ List.mem_cons_self
  simp [Fits, deepDirectory, modeName, rtConsolebufSize] at hfits

end FinshPrompt
end RtThread
