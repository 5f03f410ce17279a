import RtThread.Finsh.FinshParse
import RtThread.Finsh.FinshTokenRest
import RtThread.Finsh.FinshHeapRuns

/-!
# The parser returns

The tokens that are left are counted by the characters of the text, and one more for a token
that will be replayed, unless it is the end. Reading a token and replaying it does not raise this
number. An expression takes at least one token, whatever it is, and reads one more that it gives
back; all procedures come back to casts and assignments behind a token only.
-/
namespace RtThread.FinshParser
open Procedures FinshToken

/-- What the parser keeps on a closed line. -/
structure Ready (s : FinshParser) : Prop where
  onLine : OnLine s.lexer.token
  length : s.lexer.token.string.length = finshStringMax
  closed : EndsClosed (text s.lexer.token)
  heap : ∃ bs, FinshHeap.HeapInv s.heap bs

/-- The tokens that are left once the last one is replayed. -/
def peek (s : FinshParser) : ℕ :=
  if text s.lexer.token = [] ∧ s.lexer.token.currentToken = .eof then 0
  else (text s.lexer.token).length + 1

/-- The tokens that are left. -/
def left (s : FinshParser) : ℕ :=
  if s.lexer.token.replay then peek s else (text s.lexer.token).length

theorem left_le_peek (s : FinshParser) : left s ≤ peek s := by
  unfold left peek
  split
  · exact le_refl _
  · split
    · next h => rw [h.1, List.length_nil]
    · exact Nat.le_succ _

/-- At most so many tokens are left. -/
def Holds (n : ℕ) (s : FinshParser) : Prop := Ready s ∧ left s ≤ n

/-- Replayed or not, the last token leaves at most so many tokens. -/
def Peeks (n : ℕ) (s : FinshParser) : Prop := Ready s ∧ peek s ≤ n

/-- A token was read, of the so many that were left. -/
structure Read (n : ℕ) (token : FinshTokenType) (s : FinshParser) : Prop where
  ready : Ready s
  replay : s.lexer.token.replay = false
  current : s.lexer.token.currentToken = token
  peek : peek s ≤ n

/-- The last token will be replayed. -/
structure Back (n : ℕ) (s : FinshParser) : Prop where
  ready : Ready s
  replay : s.lexer.token.replay = true
  peek : peek s ≤ n

variable {n m : ℕ} {s t : FinshParser} {token : FinshTokenType}

theorem Back.peeks (h : Back n s) : Peeks n s := ⟨h.ready, h.peek⟩

theorem Read.peeks (h : Read n token s) : Peeks n s := ⟨h.ready, h.peek⟩

theorem Peeks.holds (h : Peeks n s) : Holds n s := ⟨h.1, (left_le_peek s).trans h.2⟩

theorem Read.pos (h : Read n token s) (htoken : token ≠ .eof) : 0 < n := by
  have hpeek := h.peek
  rw [FinshParser.peek, h.current, if_neg fun hend => htoken hend.2] at hpeek
  omega

/-- The token that was read has been taken. -/
theorem Read.taken (h : Read n token s) : Holds (n - 1) s := by
  have hpeek := h.peek
  refine ⟨h.ready, ?_⟩
  rw [left, if_neg (by simp [h.replay])]
  rw [FinshParser.peek] at hpeek
  split at hpeek
  · next hend =>
    rw [hend.1]
    exact Nat.zero_le _
  · omega

theorem Back.mono (h : Back n s) (hnm : n ≤ m) : Back m s := ⟨h.ready, h.replay, h.peek.trans hnm⟩

theorem Holds.mono (h : Holds n s) (hnm : n ≤ m) : Holds m s := ⟨h.1, h.2.trans hnm⟩

theorem Read.mono (h : Read n token s) (hnm : n ≤ m) : Read m token s :=
  ⟨h.ready, h.replay, h.current, h.peek.trans hnm⟩

/-! ## Tokens -/

theorem returns_lex {α : Type} {p : LexProc α} {a : α} :
    (lex p).Returns s a t ↔ ∃ l, p.Returns s.lexer a l ∧ t = { s with lexer := l } :=
  Proc.returns_within

theorem total_lex {α : Type} {p : LexProc α} {P : FinshParser → Prop} {Q : α → FinshParser → Prop}
    (h : ∀ s, P s → ∃ a l, p.Returns s.lexer a l ∧ Q a { s with lexer := l }) :
    Proc.Total P (lex p) Q := by
  intro s hs
  obtain ⟨a, l, hl, hq⟩ := h s hs
  exact ⟨a, _, returns_lex.mpr ⟨l, hl, rfl⟩, hq⟩

theorem total_nextToken : Proc.Total (Holds n) nextToken (Read n) := by
  refine total_lex fun s hs => ?_
  obtain ⟨hready, hleft⟩ := hs
  cases hreplay : s.lexer.token.replay with
  | true =>
    refine ⟨s.lexer.token.currentToken,
      { s.lexer with token := { s.lexer.token with replay := false } }, ?_,
      ⟨hready.onLine, hready.length, hready.closed, hready.heap⟩, rfl, rfl, ?_⟩
    · unfold finshTokenToken
      rw [Proc.returns_bind_of (Proc.returns_read.mpr ⟨rfl, rfl⟩), hreplay, if_pos rfl,
        Proc.returns_bind_of (a := ()) (Proc.returns_modify.mpr rfl)]
      exact Proc.returns_read.mpr ⟨rfl, rfl⟩
    · rw [left, if_pos hreplay] at hleft
      exact hleft
  | false =>
    obtain ⟨l, hl, hreads, hmoved⟩ := tokenRun_returns ⟨hready.onLine, rfl⟩ hready.length
    rw [textAfter_eq _ hready.closed] at hreads
    have hfixed := (scanToken (text s.lexer.token)).fixed
    rw [left, if_neg (by simp [hreplay])] at hleft
    have hcurrent : l.token.currentToken =
        ((scanToken (text s.lexer.token)).step s.lexer).token.currentToken := by
      obtain ⟨e, p, rfl⟩ := hmoved
      rfl
    refine ⟨l.token.currentToken, l, ?_, ⟨hreads.onLine, ?_, ?_, hready.heap⟩, ?_, rfl, ?_⟩
    · unfold finshTokenToken
      rw [Proc.returns_bind_of (Proc.returns_read.mpr ⟨rfl, rfl⟩), hreplay, if_neg (by decide),
        Proc.returns_bind_of hl]
      exact Proc.returns_read.mpr ⟨rfl, rfl⟩
    · rw [hmoved.string, hfixed.length]
      exact hready.length
    · rw [hreads.text]
      rcases scanToken_cases (text s.lexer.token) with ⟨-, hsuffix⟩ | ⟨hnil, -⟩
      · exact hready.closed.suffix hsuffix
      · rw [hnil]
        exact fun ch hch => absurd hch (by simp)
    · obtain ⟨e, p, rfl⟩ := hmoved
      exact (hfixed.replay _).trans hreplay
    · show (if text l.token = [] ∧ l.token.currentToken = .eof then 0
        else (text l.token).length + 1) ≤ n
      rw [hreads.text]
      rcases scanToken_cases (text s.lexer.token) with ⟨hlt, -⟩ | ⟨hnil, heof⟩
      · split <;> omega
      · rw [if_pos ⟨hnil, hcurrent.trans (heof _)⟩]
        exact Nat.zero_le n

/-- A token that was given back is read again. -/
theorem total_nextToken_back : Proc.Total
    (fun s => Back n s ∧ s.lexer.token.currentToken = token) nextToken
    fun a s => a = token ∧ Read n token s := by
  rintro s ⟨hs, rfl⟩
  obtain ⟨a, t, ht, hread⟩ := total_nextToken s hs.peeks.holds
  have htoken : finshTokenToken.Returns s.lexer s.lexer.token.currentToken
      { s.lexer with token := { s.lexer.token with replay := false } } := by
    unfold finshTokenToken
    rw [Proc.returns_bind_of (Proc.returns_read.mpr ⟨rfl, rfl⟩), hs.replay, if_pos rfl,
      Proc.returns_bind_of (a := ()) (Proc.returns_modify.mpr rfl)]
    exact Proc.returns_read.mpr ⟨rfl, rfl⟩
  obtain ⟨rfl, -⟩ := ht.unique (returns_lex.mpr ⟨_, htoken, rfl⟩)
  exact ⟨_, t, ht, rfl, hread⟩

/-- The last token is given back. -/
theorem total_replay : Proc.Total (Peeks n) replay fun _ => Back n :=
  total_lex fun _ hs => ⟨(), _, Proc.returns_modify.mpr rfl,
    ⟨hs.1.onLine, hs.1.length, hs.1.closed, hs.1.heap⟩, rfl, hs.2⟩

theorem total_replay_read : Proc.Total (Read n token) replay
    fun _ s => Back n s ∧ s.lexer.token.currentToken = token :=
  total_lex fun _ hs => ⟨(), _, Proc.returns_modify.mpr rfl,
    ⟨⟨hs.ready.onLine, hs.ready.length, hs.ready.closed, hs.ready.heap⟩, rfl, hs.peek⟩, hs.current⟩

/-! ## Procedures that read no token -/

/-- A step that leaves the token structure alone. -/
def Quiet {α : Type} (p : ParseProc α) : Prop :=
  ∀ s, Ready s → ∃ a t, p.Returns s a t ∧ Ready t ∧ t.lexer.token = s.lexer.token

section QuietRules

variable {α β : Type} {p : ParseProc α}

theorem quiet_pure (a : α) : Quiet (pure a) :=
  fun s hs => ⟨a, s, Proc.returns_pure.mpr ⟨rfl, rfl⟩, hs, rfl⟩

theorem quiet_read (f : FinshParser → α) : Quiet (Proc.read f) :=
  fun s hs => ⟨f s, s, Proc.returns_read.mpr ⟨rfl, rfl⟩, hs, rfl⟩

theorem Quiet.bind {k : α → ParseProc β} (hp : Quiet p) (hk : ∀ a, Quiet (k a)) :
    Quiet (p >>= k) := by
  intro s hs
  obtain ⟨a, t, ht, hready, htoken⟩ := hp s hs
  obtain ⟨b, u, hu, hready', htoken'⟩ := hk a t hready
  exact ⟨b, u, Proc.returns_bind.mpr ⟨a, t, ht, hu⟩, hready', htoken'.trans htoken⟩

theorem Quiet.holds (hp : Quiet p) : Proc.Total (Holds n) p fun _ => Holds n := by
  intro s hs
  obtain ⟨a, t, ht, hready, htoken⟩ := hp s hs.1
  refine ⟨a, t, ht, hready, ?_⟩
  rw [left, peek, htoken]
  exact hs.2

theorem Quiet.back (hp : Quiet p) : Proc.Total (Back n) p fun _ => Back n := by
  intro s hs
  obtain ⟨a, t, ht, hready, htoken⟩ := hp s hs.ready
  refine ⟨a, t, ht, hready, by rw [htoken]; exact hs.replay, ?_⟩
  rw [peek, htoken]
  exact hs.peek

theorem Quiet.read (hp : Quiet p) : Proc.Total (Read n token) p fun _ => Read n token := by
  intro s hs
  obtain ⟨a, t, ht, hready, htoken⟩ := hp s hs.ready
  refine ⟨a, t, ht, hready, by rw [htoken]; exact hs.replay, by rw [htoken]; exact hs.current, ?_⟩
  rw [peek, htoken]
  exact hs.peek

/-- A change that keeps the token structure and the heap. -/
theorem quiet_modify {f : FinshParser → FinshParser}
    (h : ∀ s, (f s).lexer.token = s.lexer.token ∧ (f s).heap = s.heap) :
    Quiet (Proc.modify f) := by
  intro s hs
  obtain ⟨htoken, hheap⟩ := h s
  refine ⟨(), f s, Proc.returns_modify.mpr rfl, ⟨?_, ?_, ?_, ?_⟩, htoken⟩
  · rw [htoken]
    exact hs.onLine
  · rw [htoken]
    exact hs.length
  · rw [htoken]
    exact hs.closed
  · rw [hheap]
    exact hs.heap

end QuietRules

theorem quiet_errorSet (error : FinshError) : Quiet (errorSet error) := by
  intro s hs
  have hset : (finshErrorSet error).Returns s.lexer () { s.lexer with errno := error } :=
    Proc.returns_modify.mpr rfl
  exact ⟨(), _, returns_lex.mpr ⟨_, hset, rfl⟩, ⟨hs.onLine, hs.length, hs.closed, hs.heap⟩, rfl⟩

theorem quiet_setNode (i : Fin finshNodeMax) (f : FinshNode → FinshNode) : Quiet (setNode i f) :=
  quiet_modify fun _ => ⟨rfl, rfl⟩

theorem quiet_setSibling (node sibling : NodeRef) : Quiet (setSibling node sibling) := by
  cases node with
  | none => exact quiet_modify fun _ => ⟨rfl, rfl⟩
  | some i => exact quiet_setNode i fun n => { n with sibling := sibling }

theorem quiet_declare (name : List UInt8) (type : FinshType) : Quiet (declare name type) := by
  refine (quiet_read _).bind fun vars => ?_
  cases finshVarInsert vars name type with
  | none => exact quiet_errorSet _
  | some vars => exact quiet_modify fun _ => ⟨rfl, rfl⟩

theorem quiet_allocate (type : FinshNodeType) : Quiet (finshNodeAllocate type) := by
  refine (quiet_read _).bind fun free => ?_
  cases free with
  | none => exact quiet_pure _
  | some i => exact (quiet_setNode i _).bind fun _ => quiet_pure _

theorem quiet_newValue (type : FinshNodeType) (value : BitVec 32) : Quiet (newValue type value) := by
  refine (quiet_allocate type).bind fun node => ?_
  cases node with
  | none => exact (quiet_errorSet _).bind fun _ => quiet_pure _
  | some i => exact (quiet_setNode i _).bind fun _ => quiet_pure _

theorem quiet_newChar (c : UInt8) : Quiet (finshNodeNewChar c) := by
  refine (quiet_allocate _).bind fun node => ?_
  cases node with
  | none => exact (quiet_errorSet _).bind fun _ => quiet_pure _
  | some i => exact (quiet_setNode i _).bind fun _ => quiet_pure _

theorem quiet_newId (symbols : FinshSymbols) (id : List UInt8) :
    Quiet (finshNodeNewId symbols id) := by
  refine (quiet_read _).bind fun vars => ?_
  cases lookup symbols vars id with
  | none => exact (quiet_errorSet _).bind fun _ => quiet_pure _
  | some r =>
    obtain ⟨idtype, symbol⟩ := r
    refine (quiet_allocate _).bind fun node => ?_
    cases node with
    | none => exact (quiet_errorSet _).bind fun _ => quiet_pure _
    | some i => exact (quiet_setNode i _).bind fun _ => quiet_pure _

theorem quiet_makeSysNode (type : FinshNodeType) (node1 node2 : NodeRef) :
    Quiet (makeSysNode type node1 node2) := by
  refine (quiet_allocate type).bind fun node => ?_
  cases node1 with
  | none => exact (quiet_errorSet _).bind fun _ => quiet_pure _
  | some i =>
    cases node with
    | none => exact (quiet_errorSet _).bind fun _ => quiet_pure _
    | some j =>
      exact (quiet_setNode j _).bind fun _ => (quiet_setNode i _).bind fun _ => quiet_pure _

/-- The bytes of a string in an allocated block leave the lists of the heap alone. -/
theorem heapInv_writeBytes {bs : List Tiling.Span} {x : Tiling.Span} (hx : x ∈ bs) (cs : List UInt8) :
    ∀ {h : FinshHeap} {a : ℕ}, FinshHeap.HeapInv h bs → FinshHeap.finshBlockGetData x.lo ≤ a →
      a + cs.length < x.hi → FinshHeap.HeapInv { h with mem := writeBytes h.mem a cs } bs := by
  induction cs with
  | nil => exact fun v hlo hhi => v.store hx hlo hhi 0
  | cons c cs ih =>
    intro h a v hlo hhi
    rw [List.length_cons] at hhi
    exact ih (v.store hx hlo (by omega) c) (by omega) (by omega)

theorem quiet_newString {string : List UInt8} (hlen : string.length < 2 ^ 30) :
    Quiet (finshNodeNewString string) := by
  refine (quiet_allocate _).bind fun node => ?_
  cases node with
  | none => exact (quiet_errorSet _).bind fun _ => quiet_pure _
  | some i =>
    intro s hs
    obtain ⟨bs, v⟩ := hs.heap
    obtain ⟨h, ptr, halloc, -, bs', v', hout⟩ :=
      v.allocate s.vars (show string.length + 1 < 2 ^ 31 by omega)
    let t : FinshParser := { s with heap := h }
    have ht : (heapAllocate (string.length + 1)).Returns s ptr t := by
      refine Proc.returns_attempt.mpr ?_
      rw [halloc]
      rfl
    have hready : Ready t := ⟨hs.onLine, hs.length, hs.closed, bs', v'⟩
    obtain ⟨_, u, hu, hready', htoken⟩ :=
      quiet_setNode i (fun n => { n with value := BitVec.ofNat 32 ptr }) t hready
    have hheap : u.heap = h := by
      rw [Proc.returns_modify.mp hu]
    refine ⟨some i, _, Proc.returns_bind.mpr ⟨ptr, t, ht, Proc.returns_bind.mpr ⟨(), u, hu,
      Proc.returns_bind.mpr ⟨(), _, Proc.returns_modify.mpr rfl,
        Proc.returns_pure.mpr ⟨rfl, rfl⟩⟩⟩⟩, ?_, ?_⟩
    · split
      · exact ⟨hready'.onLine, hready'.length, hready'.closed, hready'.heap⟩
      · next hne =>
        obtain ⟨x, hx, -, rfl, hroom⟩ := hout hne
        refine ⟨hready'.onLine, hready'.length, hready'.closed, bs', ?_⟩
        show FinshHeap.HeapInv { u.heap with mem := writeBytes u.heap.mem _ string } bs'
        rw [hheap]
        exact heapInv_writeBytes hx string v' (le_refl _) (by omega)
    · split <;> exact htoken

/-! ## Types and names -/

/-- The next token, and what is done with it. -/
theorem total_next {α : Type} {f : FinshTokenType → ParseProc α} {Q : α → FinshParser → Prop}
    (h : ∀ token, Proc.Total (Read n token) (f token) Q) :
    Proc.Total (Holds n) (nextToken >>= f) Q := total_nextToken.bind h

/-- The last token is given back, and the procedure goes on. -/
theorem total_giveBack {α : Type} {f : Unit → ParseProc α} {Q : α → FinshParser → Prop}
    (h : Proc.Total (Back n) (f ()) Q) : Proc.Total (Read n token) (replay >>= f) Q :=
  (total_replay.pre fun _ h => h.peeks).bind fun _ => h

theorem total_errorSet {error : FinshError} :
    Proc.Total (Peeks n) (errorSet error) fun _ => Peeks n := by
  intro s hs
  obtain ⟨_, t, ht, hready, htoken⟩ := quiet_errorSet error s hs.1
  refine ⟨(), t, ht, hready, ?_⟩
  rw [peek, htoken]
  exact hs.2

theorem total_checkToken {token type : FinshTokenType} :
    Proc.Total (Peeks n) (checkToken token type) fun _ => Holds n := by
  unfold checkToken
  split
  · exact total_errorSet.bind fun _ => total_replay.post fun _ _ h => h.peeks.holds
  · exact Proc.total_pure fun _ h => h.holds

theorem total_matchToken (type : FinshTokenType) :
    Proc.Total (Holds n) (matchToken type) fun _ => Holds n :=
  total_next fun _ => total_checkToken.pre fun _ h => h.peeks

theorem total_procPointer (type : FinshType) :
    Proc.Total (Holds n) (procPointer type) fun _ => Holds n := by
  refine total_next fun token => ?_
  split
  · exact Proc.total_pure fun _ h => h.peeks.holds
  · exact total_giveBack (Proc.total_pure fun _ h => h.peeks.holds)

theorem total_unknownType : Proc.Total (Peeks n) unknownType fun _ => Holds n := by
  refine total_replay.bind fun _ => ?_
  refine (quiet_errorSet _).back.bind fun _ => ?_
  exact Proc.total_pure fun _ h => h.peeks.holds

theorem total_procType : Proc.Total (Holds n) procType fun _ => Holds n := by
  refine total_next fun token => ?_
  split
  · exact (total_procPointer _).pre fun _ h => h.peeks.holds
  · split
    · refine (total_next fun token' => ?_).pre fun _ h => h.peeks.holds
      split
      · split
        · exact (total_procPointer _).pre fun _ h => h.peeks.holds
        · exact total_unknownType.pre fun _ h => h.peeks
      · refine total_giveBack ((quiet_errorSet _).back.bind fun _ => ?_)
        exact (total_procPointer _).pre fun _ h => h.peeks.holds
    · exact total_unknownType.pre fun _ h => h.peeks

theorem total_procIdentifier : Proc.Total (Holds n) procIdentifier fun _ => Holds n :=
  (total_matchToken _).bind fun _ => (quiet_read _).holds

theorem total_procDeclarator (type : FinshType) :
    Proc.Total (Holds n) (procDeclarator type) fun _ => Holds n :=
  total_procIdentifier.bind fun id => (quiet_declare id type).holds.bind fun _ =>
    (quiet_pure id).holds

/-! ## Expressions -/

/-- A procedure takes a token and ends with a replay. -/
def Expr (n : ℕ) (p : ParseProc NodeRef) : Prop :=
  ∀ m ≤ n, Proc.Total (Holds m) p fun _ => Back (m - 1)

/-- It does so behind a token. -/
def Enters (n : ℕ) (p : ParseProc NodeRef) : Prop :=
  ∀ m < n, Proc.Total (Holds m) p fun _ => Back (m - 1)

variable {p : ParseProc NodeRef}

theorem Enters.mono (h : Enters n p) (hmn : m ≤ n) : Enters m p :=
  fun _ hk => h _ (lt_of_lt_of_le hk hmn)

/-- Behind a token that is not the end. -/
theorem Enters.behind (h : Enters n p) (hm : m ≤ n) (htoken : token ≠ .eof) :
    Proc.Total (Read m token) p fun _ => Back (m - 1) := by
  intro s hs
  have hpos := hs.pos htoken
  obtain ⟨a, t, ht, hback⟩ := h (m - 1) (by omega) s hs.taken
  exact ⟨a, t, ht, hback.mono (Nat.sub_le _ _)⟩

/-- A round over a token ends the loop or takes the token and reads another one. -/
def Rounds {ι α : Type} (n : ℕ) (next : ι → FinshTokenType) (Q : α → FinshParser → Prop)
    (r : ι ⊕ α) (s : FinshParser) : Prop :=
  r.elim (fun j => 0 < n ∧ Read (n - 1) (next j) s) fun a => Q a s

theorem total_tokens {ι α : Type} {body : ι → ParseProc (ι ⊕ α)} {Q : α → FinshParser → Prop}
    (next : ι → FinshTokenType)
    (hbody : ∀ i, ∀ m ≤ n, Proc.Total (Read m (next i)) (body i) (Rounds m next Q)) (i : ι) :
    Proc.Total (Read n (next i)) (Proc.loop body i) Q := by
  refine Proc.total_loop (I := fun j => Read n (next j)) (fun _ s => peek s) ?_ i
  intro j k s hs
  obtain ⟨hread, rfl⟩ := hs
  obtain ⟨r, t, ht, hr⟩ := hbody j (peek s) hread.peek s
    ⟨hread.ready, hread.replay, hread.current, le_refl _⟩
  refine ⟨r, t, ht, ?_⟩
  cases r with
  | inr a => exact hr
  | inl i =>
    obtain ⟨hpos, hread'⟩ := hr
    have hpeek := hread'.peek
    have hle := hread.peek
    refine ⟨hread'.mono (by omega), ?_⟩
    show peek t < peek s
    omega

/-- The next token for the next round. -/
theorem total_nextRound {ι α : Type} {next : ι → FinshTokenType} {Q : α → FinshParser → Prop}
    {f : FinshTokenType → ι} (hf : ∀ token, next (f token) = token) (hpos : 0 < n) :
    Proc.Total (Holds (n - 1)) (nextToken >>= fun token => pure (.inl (f token)))
      (Rounds n next Q) :=
  total_next fun token => Proc.total_pure fun _ h => ⟨hpos, (hf token).symm ▸ h⟩

/-- What is done behind a token that is not the end. -/
theorem total_behind {α : Type} {q : ParseProc α} {Q : α → FinshParser → Prop}
    (htoken : token ≠ .eof) (h : 0 < n → Proc.Total (Holds (n - 1)) q Q) :
    Proc.Total (Read n token) q Q := fun s hs => h (hs.pos htoken) s hs.taken

theorem total_procBinary {operator : FinshTokenType → Option FinshNodeType}
    (hp : Expr n p) (heof : operator .eof = none) : Expr n (procBinary p operator) := by
  intro m hm
  refine (hp m hm).bind fun left => ?_
  refine (total_next fun token => ?_).pre fun _ h => h.peeks.holds
  refine Proc.Total.bind (Q := fun _ => Peeks (m - 1))
    (total_tokens Prod.snd ?_ (left, token)) fun left' =>
      total_replay.bind fun _ => (quiet_pure left').back
  rintro ⟨node, token'⟩ k hk
  cases hop : operator token' with
  | none => exact Proc.total_pure fun _ h => (h.mono hk).peeks
  | some type =>
    refine total_behind (by rintro rfl; rw [heof] at hop; cases hop) fun hpos => ?_
    refine ((hp (k - 1) (by omega)).post fun _ _ h => (h.mono (Nat.sub_le _ _))).bind fun right => ?_
    cases right with
    | none =>
      refine (quiet_errorSet _).back.bind fun _ => ?_
      exact (total_nextRound (fun _ => rfl) hpos).pre fun _ h => h.peeks.holds
    | some j =>
      refine (quiet_makeSysNode _ _ _).back.bind fun left'' => ?_
      exact (total_nextRound (fun _ => rfl) hpos).pre fun _ h => h.peeks.holds

section Levels

variable {symbols : FinshSymbols} {procCastExpr procAssignExpr : ParseProc NodeRef}

theorem total_inclusiveOr (hc : Expr n procCastExpr) : Expr n (procInclusiveOrExpr procCastExpr) := by
  have hmul : Expr n (procMultiplicativeExpr procCastExpr) := total_procBinary hc rfl
  have hadd : Expr n (procAdditiveExpr procCastExpr) := total_procBinary hmul rfl
  have hshift : Expr n (procShiftExpr procCastExpr) := total_procBinary hadd rfl
  have hand : Expr n (procAndExpr procCastExpr) := total_procBinary hshift rfl
  have hxor : Expr n (procExclusiveOrExpr procCastExpr) := total_procBinary hand rfl
  exact total_procBinary hxor rfl

theorem total_procPrimaryExpr (ha : Enters n procAssignExpr) :
    Proc.Total (Holds n) (procPrimaryExpr symbols procAssignExpr) fun _ => Holds (n - 1) := by
  refine total_next fun token => ?_
  have hquiet : ∀ {q : ParseProc NodeRef}, Quiet q →
      Proc.Total (Read n token) q fun _ => Holds (n - 1) :=
    fun hq => hq.read.post fun _ _ h => h.taken
  split
  · refine Proc.Total.bind (Q := fun _ s => Back n s ∧ s.lexer.token.currentToken = .identifier)
      total_replay_read fun _ => ?_
    refine Proc.Total.bind (Q := fun _ => Holds (n - 1)) ?_ fun id => (quiet_newId symbols id).holds
    refine Proc.Total.bind (Q := fun _ => Holds (n - 1)) ?_ fun _ => (quiet_read _).holds
    refine total_nextToken_back.bind fun token' => ?_
    rintro s ⟨rfl, hs⟩
    exact ⟨(), s, by rw [checkToken, if_neg (by decide)]; exact Proc.returns_pure.mpr ⟨rfl, rfl⟩,
      hs.taken⟩
  · refine ((ha.behind (le_refl n) (by decide)).post fun _ _ h => h.peeks.holds).bind fun expr => ?_
    exact (total_matchToken _).bind fun _ => (quiet_pure expr).holds
  · exact hquiet ((quiet_read _).bind fun _ => quiet_newValue _ _)
  · exact hquiet ((quiet_read _).bind fun _ => quiet_newValue _ _)
  · exact hquiet ((quiet_read _).bind fun _ => quiet_newChar _)
  · refine Proc.Total.bind (Q := fun a s => Read n .valueString s ∧ a.length < 2 ^ 30)
      (Proc.total_read fun s h => ⟨h, ?_⟩) fun string => ?_
    · refine lt_of_le_of_lt (List.takeWhile_sublist _).length_le ?_
      rw [h.ready.length]
      decide
    · rintro s ⟨hs, hlen⟩
      exact hquiet (quiet_newString hlen) s hs
  · exact hquiet (quiet_newValue _ _)
  · exact hquiet ((quiet_errorSet _).bind fun _ => quiet_pure none)

theorem total_procParamList (ha : Enters n procAssignExpr) (hm : m < n) :
    Proc.Total (Holds m) (procParamList procAssignExpr) fun _ => Back m := by
  refine ((ha m hm).post fun _ _ h => h.mono (Nat.sub_le _ _)).bind fun assign => ?_
  cases assign with
  | none => exact (quiet_pure none).back
  | some first =>
    refine (total_next fun token => ?_).pre fun _ h => h.peeks.holds
    refine Proc.Total.bind (Q := fun _ => Peeks m)
      (total_tokens Prod.snd ?_ (some first, token)) fun _ =>
        total_replay.bind fun _ => (quiet_pure (some first)).back
    rintro ⟨node, token'⟩ k hk
    unfold paramRound
    split
    · next hcomma =>
      obtain rfl : token' = .comma := hcomma
      have hend : FinshTokenType.comma ≠ .eof := by decide
      refine total_behind hend fun hpos => ?_
      refine ((ha (k - 1) (by omega)).post fun _ _ h => h.mono (Nat.sub_le _ _)).bind fun next => ?_
      refine (quiet_setSibling node next).back.bind fun _ => ?_
      cases next with
      | none =>
        refine (quiet_errorSet _).back.bind fun _ => ?_
        exact (total_nextRound (fun _ => rfl) hpos).pre fun _ h => h.peeks.holds
      | some j => exact (total_nextRound (fun _ => rfl) hpos).pre fun _ h => h.peeks.holds
    · exact Proc.total_pure fun _ h => (h.mono hk).peeks

theorem total_procParams (ha : Enters n procAssignExpr) (hm : m < n) :
    Proc.Total (Holds m) (procParams procAssignExpr) fun _ => Holds m := by
  refine total_next fun token => ?_
  split
  · refine total_giveBack ?_
    refine ((total_procParamList ha hm).weaken (fun _ h => h.peeks.holds)
      fun _ _ h => h.peeks.holds).bind fun params => ?_
    exact (total_matchToken _).bind fun _ => (quiet_pure params).holds
  · exact Proc.total_pure fun _ h => h.peeks.holds

theorem total_procPostfixExpr (ha : Enters n procAssignExpr) :
    Proc.Total (Holds n) (procPostfixExpr symbols procAssignExpr) fun _ => Back (n - 1) := by
  refine (total_procPrimaryExpr ha).bind fun node => ?_
  refine total_next fun token => ?_
  refine Proc.Total.bind (Q := fun _ => Peeks (n - 1))
    (total_tokens Prod.snd ?_ (node, token)) fun node =>
      total_replay.bind fun _ => (quiet_pure node).back
  rintro ⟨node, token⟩ k hk
  unfold postfixRound
  dsimp only
  split
  · exact total_behind (by decide) fun hpos =>
      (quiet_makeSysNode _ _ _).holds.bind fun _ => total_nextRound (fun _ => rfl) hpos
  · exact total_behind (by decide) fun hpos =>
      (quiet_makeSysNode _ _ _).holds.bind fun _ => total_nextRound (fun _ => rfl) hpos
  · exact total_behind (by decide) fun hpos =>
      (total_procParams ha (show k - 1 < n by omega)).bind fun _ =>
        (quiet_makeSysNode _ _ _).holds.bind fun _ => total_nextRound (fun _ => rfl) hpos
  · exact Proc.total_pure fun _ h => (h.mono hk).peeks

theorem total_procUnaryExpr (hc : Enters n procCastExpr) (ha : Enters n procAssignExpr) :
    Proc.Total (Holds n) (procUnaryExpr symbols procCastExpr procAssignExpr)
      fun _ => Back (n - 1) := by
  refine total_next fun token => ?_
  have hcast : ∀ {q : NodeRef → ParseProc NodeRef}, token ≠ .eof → (∀ cast, Quiet (q cast)) →
      Proc.Total (Read n token) (procCastExpr >>= q) fun _ => Back (n - 1) :=
    fun htoken hq => (hc.behind (le_refl n) htoken).bind fun cast => (hq cast).back
  split
  · exact hc.behind (le_refl n) (by decide)
  · exact hcast (by decide) fun cast => quiet_makeSysNode _ _ _
  · exact hcast (by decide) fun cast => (quiet_newValue _ _).bind fun _ => quiet_makeSysNode _ _ _
  · exact hcast (by decide) fun cast => quiet_makeSysNode _ _ _
  · exact hcast (by decide) fun cast => quiet_makeSysNode _ _ _
  · exact hcast (by decide) fun cast => quiet_makeSysNode _ _ _
  · exact hcast (by decide) fun cast => quiet_makeSysNode _ _ _
  · exact total_giveBack ((total_procPostfixExpr ha).pre fun _ h => h.peeks.holds)

variable (symbols) in
theorem total_castBody (hc : Enters n procCastExpr) (ha : Enters n procAssignExpr) :
    Expr n (castBody symbols procCastExpr procAssignExpr) := by
  intro m hm
  refine total_next fun token => ?_
  split
  · next hparen =>
    obtain rfl : token = .leftParen := hparen
    refine total_behind (by decide) fun hpos => ?_
    refine total_procType.bind fun type => (total_matchToken _).bind fun _ => ?_
    refine ((hc (m - 1) (by omega)).post fun _ _ h => h.mono (Nat.sub_le _ _)).bind fun cast => ?_
    cases cast with
    | some i => exact (quiet_setNode i _).back.bind fun _ => (quiet_pure _).back
    | none =>
      refine (total_replay.pre fun _ h => h.peeks).bind fun _ => ?_
      exact (total_procUnaryExpr (hc.mono (by omega)) (ha.mono (by omega))).weaken
        (fun _ h => h.peeks.holds) fun _ _ h => h.mono (Nat.sub_le _ _)
  · exact total_giveBack ((total_procUnaryExpr (hc.mono hm) (ha.mono hm)).pre
      fun _ h => h.peeks.holds)

theorem total_assignBody (hc : Expr n procCastExpr) (ha : Enters n procAssignExpr) :
    Expr n (assignBody procCastExpr procAssignExpr) := by
  intro m hm
  refine (total_inclusiveOr hc m hm).bind fun left => ?_
  refine (total_next fun token => ?_).pre fun _ h => h.peeks.holds
  split
  · next hassign =>
    obtain rfl : token = .assign := hassign
    refine ((ha.behind (show m - 1 ≤ n by omega) (by decide)).post
      fun _ _ h => h.mono (Nat.sub_le _ _)).bind fun assign => ?_
    exact (quiet_makeSysNode _ _ _).back
  · exact total_giveBack (quiet_pure left).back

end Levels

/-- Below its depth, each expression is read. -/
theorem total_exprProcs (symbols : FinshSymbols) (depth : ℕ) :
    Enters depth (exprProcs symbols depth).1 ∧ Enters depth (exprProcs symbols depth).2 := by
  induction depth with
  | zero => exact ⟨fun m hm => absurd hm m.not_lt_zero, fun m hm => absurd hm m.not_lt_zero⟩
  | succ depth ih =>
    obtain ⟨hc, ha⟩ := ih
    have hcast := total_castBody symbols hc ha
    exact ⟨fun m hm => hcast m (by omega), fun m hm => total_assignBody hcast ha m (by omega)⟩

/-! ## Statements -/

section Statements

variable {symbols : FinshSymbols} {depth : ℕ}

variable (symbols) in
theorem total_procExprStatement (hn : n < depth) :
    Proc.Total (Holds n) (procExprStatement symbols depth) fun _ => Holds (n - 1) := by
  refine total_next fun token => ?_
  split
  · refine total_giveBack ?_
    refine (((total_exprProcs symbols depth).2 n hn).weaken (fun _ h => h.peeks.holds)
      fun _ _ h => h.peeks.holds).bind fun expr => ?_
    exact (total_matchToken _).bind fun _ => (quiet_pure expr).holds
  · exact Proc.total_pure fun _ h => h.taken

/-- The state between the declarators: a comma has just been read. -/
def Declared (n : ℕ) (r : DeclState) (s : FinshParser) : Prop :=
  Peeks n s ∧ (r.token = .comma → Read n .comma s)

theorem Read.declared (h : Read n token s) (node last : NodeRef) :
    Declared n ⟨node, last, token⟩ s := by
  refine ⟨h.peeks, fun htoken => ?_⟩
  obtain rfl : token = .comma := htoken
  exact h

theorem Declared.mono {r : DeclState} (h : Declared n r s) (hnm : n ≤ m) : Declared m r s :=
  ⟨⟨h.1.1, h.1.2.trans hnm⟩, fun htoken => (h.2 htoken).mono hnm⟩

theorem total_procInitialiser (id : List UInt8) {r : DeclState} (hr : r.token = .assign)
    (hn : n < depth) :
    Proc.Total (Holds n) (procInitialiser symbols depth id r) (Declared n) := by
  refine (((total_exprProcs symbols depth).2 n hn).post
    fun _ _ h => h.mono (Nat.sub_le _ _)).bind fun assign => ?_
  cases assign with
  | none =>
    refine Proc.total_pure fun _ h => ⟨h.peeks, fun htoken => ?_⟩
    rw [hr] at htoken
    cases htoken
  | some i =>
    refine (quiet_newId symbols id).back.bind fun idnode => ?_
    refine (quiet_makeSysNode _ _ _).back.bind fun new => ?_
    split
    · refine (quiet_setSibling _ _).back.bind fun _ => ?_
      refine (total_next fun _ => ?_).pre fun _ h => h.peeks.holds
      exact Proc.total_pure fun _ h => h.declared _ _
    · refine (total_next fun _ => ?_).pre fun _ h => h.peeks.holds
      exact Proc.total_pure fun _ h => h.declared _ _

theorem total_procNextDeclarator (type : FinshType) (r : DeclState) (hn : n < depth) :
    Proc.Total (Holds n) (procNextDeclarator symbols depth type r) (Declared n) := by
  refine (total_procDeclarator type).bind fun id => total_next fun token => ?_
  dsimp only
  split
  · next hassign =>
    exact (total_procInitialiser id hassign hn).pre fun _ h => h.peeks.holds
  · exact Proc.total_pure fun _ h => h.declared _ _

theorem total_procDeclarators (type : FinshType) (r : DeclState) (hn : n < depth) :
    Proc.Total (Declared n r) (procDeclarators symbols depth type r) fun _ => Holds n := by
  refine Proc.Total.bind (Q := fun _ => Peeks n) ?_ fun r =>
    total_checkToken.bind fun _ => (quiet_pure r.node).holds
  refine Proc.total_loop (I := Declared n) (fun _ s => peek s) ?_ r
  intro r k s hs
  obtain ⟨hdeclared, rfl⟩ := hs
  unfold declRound
  split
  · next hcomma =>
    have hread := hdeclared.2 hcomma
    have hread' : Read (peek s) .comma s :=
      ⟨hread.ready, hread.replay, hread.current, le_refl _⟩
    have hpos := hread'.pos (by decide)
    have hpeek := hread.peek
    obtain ⟨r', t, ht, hdeclared'⟩ :=
      total_procNextDeclarator type r (show peek s - 1 < depth by omega) s hread'.taken
    refine ⟨.inl r', t, Proc.returns_bind.mpr ⟨r', t, ht, Proc.returns_pure.mpr ⟨rfl, rfl⟩⟩,
      hdeclared'.mono (by omega), ?_⟩
    have hlt := hdeclared'.1.2
    show peek t < peek s
    omega
  · exact ⟨.inr r, s, Proc.returns_pure.mpr ⟨rfl, rfl⟩, hdeclared.1⟩

variable (symbols) in
theorem total_procVariableDecl (hn : n < depth) :
    Proc.Total (Holds n) (procVariableDecl symbols depth) fun _ => Holds (n - 1) := by
  refine total_procType.bind fun type => (total_procDeclarator type).bind fun id => ?_
  refine total_next fun token => ?_
  refine Proc.Total.pre (P := Holds (n - 1)) ?_ fun _ h => h.taken
  have hn' : n - 1 < depth := by omega
  split
  · exact (total_procNextDeclarator type _ hn').bind fun r => total_procDeclarators type r hn'
  · exact (total_procInitialiser id rfl hn').bind fun r => total_procDeclarators type r hn'
  · exact (quiet_pure none).holds
  · exact (quiet_errorSet _).holds.bind fun _ => (quiet_pure none).holds

theorem total_addStatement (node : NodeRef) {p : ParseProc NodeRef}
    (hp : Proc.Total (Holds n) p fun _ => Holds (n - 1)) :
    Proc.Total (Holds n) (addStatement node p) fun _ => Holds (n - 1) := by
  refine (quiet_read _).holds.bind fun root => ?_
  cases root with
  | some i =>
    refine hp.bind fun next => (quiet_setSibling node next).holds.bind fun _ => ?_
    exact (quiet_pure _).holds
  | none =>
    refine hp.bind fun next => ?_
    have hroot : Quiet (Proc.modify fun s : FinshParser => { s with root := next }) :=
      quiet_modify fun _ => ⟨rfl, rfl⟩
    exact hroot.holds.bind fun _ => (quiet_pure _).holds

theorem total_procStatement (node : NodeRef) (hn : n < depth) :
    Proc.Total (Read n token) (procStatement symbols depth node token) fun _ => Holds (n - 1) := by
  have hexpr := total_addStatement node (total_procExprStatement symbols hn)
  have hdecl := total_addStatement node (total_procVariableDecl symbols hn)
  refine total_giveBack (Proc.Total.pre (P := Holds n) ?_ fun _ h => h.peeks.holds)
  split
  · exact hexpr.bind fun _ => (quiet_pure _).holds
  · split
    · exact hdecl.bind fun _ => (quiet_pure _).holds
    · refine hexpr.bind fun r => ?_
      split
      · exact (quiet_pure _).holds
      · exact total_next fun _ => Proc.total_pure fun _ h => h.peeks.holds

/-- The loop over the statements. -/
theorem total_parserLoop (node : NodeRef) (hn : n < depth) :
    Proc.Total (Read n token) (Proc.loop (parserRound symbols depth) (node, token))
      fun _ _ => True := by
  refine total_tokens Prod.snd ?_ (node, token)
  rintro ⟨node, token⟩ k hk
  unfold parserRound
  split
  · next htoken =>
    intro s hs
    have hpos := hs.pos htoken.1
    refine ((total_procStatement node (show k < depth by omega)).bind fun node => ?_) s hs
    refine (quiet_read _).holds.bind fun root => ?_
    split
    · exact Proc.total_pure fun _ _ => trivial
    · exact total_nextRound (fun _ => rfl) hpos
  · exact Proc.total_pure fun _ _ => trivial

end Statements

/-! ## Lines -/

variable {line : List UInt8} {bs : List Tiling.Span}

/-- The state in which the first token is read. -/
def onLine (line : List UInt8) (s : FinshParser) : FinshParser :=
  { s with lexer := { s.lexer with token := finshTokenInit line } }

theorem holds_onLine (hnewline : chr '\n' ∉ line) (hend : line.getLast? = some (chr ';'))
    (hheap : FinshHeap.HeapInv s.heap bs) : Holds line.length (onLine line s) := by
  have htext : text (finshTokenInit line) = line := by
    show line.takeWhile (· ≠ chr '\n') = line
    refine List.takeWhile_eq_self_iff.mpr fun ch hch => ?_
    exact decide_eq_true fun h => hnewline (h ▸ hch)
  refine ⟨⟨⟨Nat.zero_le _, fun _ => rfl⟩, List.length_replicate, ?_, bs, hheap⟩, ?_⟩
  · show EndsClosed (text (finshTokenInit line))
    rw [htext, EndsClosed, hend]
    exact fun ch hch => (Option.mem_some.mp hch).symm
  · show (text (finshTokenInit line)).length ≤ line.length
    rw [htext]

/-- A declaration, and a statement with a parenthesis too many. -/
def sampleLine : List UInt8 := "int a;a=((1);".toList.map chr

end RtThread.FinshParser
