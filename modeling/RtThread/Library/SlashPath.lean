import Mathlib.Data.List.Basic
import Mathlib.Data.List.Infix
import Mathlib.Tactic.Common

/-!
# Paths with slashes

A text is read as the components between its slashes. Entering the components one by one, from
the root on, gives the stack of names that the text stands for, unless it climbs above the root.
-/
namespace SlashPath

/-- A component that can be entered from above. -/
structure IsName (c : List Char) : Prop where
  ne_nil : c ≠ []
  no_slash : '/' ∉ c
  ne_dot : c ≠ ['.']
  ne_dotdot : c ≠ ['.', '.']

instance (c : List Char) : Decidable (IsName c) :=
  decidable_of_iff (c ≠ [] ∧ '/' ∉ c ∧ c ≠ ['.'] ∧ c ≠ ['.', '.'])
    ⟨fun ⟨h₁, h₂, h₃, h₄⟩ => ⟨h₁, h₂, h₃, h₄⟩, fun ⟨h₁, h₂, h₃, h₄⟩ => ⟨h₁, h₂, h₃, h₄⟩⟩

def components (s : List Char) : List (List Char) := (s.splitOn '/').filter (· ≠ [])

/-- The absolute path of a stack of names, the root's first. -/
def path (names : List (List Char)) : List Char := '/' :: ['/'].intercalate names

/-- Every name followed by a slash. -/
def joined (names : List (List Char)) : List Char := names.flatMap (· ++ ['/'])

/-- It begins with a slash, no component is empty, `.` or `..`, and only the root ends with a
slash. -/
def Normal (s : List Char) : Prop :=
  s = ['/'] ∨ ∃ r, s = '/' :: r ∧ ∀ c ∈ r.splitOn '/', c ≠ [] ∧ c ≠ ['.'] ∧ c ≠ ['.', '.']

variable {s t name : List Char} {names stack : List (List Char)}

/-! ## Components -/

@[simp] theorem components_nil : components [] = [] := rfl

theorem components_append_slash (s t : List Char) :
    components (s ++ '/' :: t) = components s ++ components t := by
  rw [components, List.splitOn_append_cons_self, List.filter_append]
  rfl

@[simp] theorem components_slash (t : List Char) : components ('/' :: t) = components t :=
  components_append_slash [] t

theorem components_name (hno : '/' ∉ name) (hne : name ≠ []) : components name = [name] := by
  rw [components, List.splitOn_eq_singleton hno, List.filter_singleton]
  simp [hne]

theorem components_name_slash (hno : '/' ∉ name) (hne : name ≠ []) (t : List Char) :
    components (name ++ '/' :: t) = name :: components t := by
  rw [components_append_slash, components_name hno hne, List.singleton_append]

theorem components_replicate_slash (k : ℕ) (t : List Char) :
    components (List.replicate k '/' ++ t) = components t := by
  induction k with
  | zero => rfl
  | succ k ih => rw [List.replicate_succ, List.cons_append, components_slash, ih]

/-- The pieces consist of the other characters of the text. -/
theorem chars_of_mem_splitOn {c : List Char} (h : c ∈ s.splitOn '/') :
    ∀ x ∈ c, x ∈ s ∧ x ≠ '/' := by
  induction s generalizing c with
  | nil =>
    rw [List.splitOn_nil, List.mem_singleton] at h
    rw [h]
    exact fun x hx => absurd hx List.not_mem_nil
  | cons y s ih =>
    have hcons : ∀ {d : List Char}, d ∈ s.splitOn '/' → ∀ x ∈ d, x ∈ y :: s ∧ x ≠ '/' :=
      fun hd x hx => ⟨List.mem_cons_of_mem y (ih hd x hx).1, (ih hd x hx).2⟩
    rw [List.splitOn_cons_eq_if_modifyHead] at h
    split at h
    · rcases List.mem_cons.mp h with rfl | h
      · exact fun x hx => absurd hx List.not_mem_nil
      · exact hcons h
    · next hy =>
      cases hs : s.splitOn '/' with
      | nil => exact absurd hs (List.splitOn_ne_nil _ _)
      | cons d ds =>
        rw [hs] at h hcons
        rcases List.mem_cons.mp h with rfl | h
        · intro x hx
          rcases List.mem_cons.mp hx with rfl | hx
          · exact ⟨List.mem_cons_self, by simpa using hy⟩
          · exact hcons List.mem_cons_self x hx
        · exact hcons (List.mem_cons_of_mem d h)

theorem no_slash_of_mem_splitOn {c : List Char} (h : c ∈ s.splitOn '/') : '/' ∉ c :=
  fun hm => (chars_of_mem_splitOn h '/' hm).2 rfl

theorem mem_of_mem_components {c : List Char} (h : c ∈ components s) {x : Char} (hx : x ∈ c) :
    x ∈ s :=
  (chars_of_mem_splitOn (List.mem_of_mem_filter h) x hx).1

/-- A component that is neither `.` nor `..` is a name. -/
theorem isName_of_mem_components {c : List Char} (h : c ∈ components s) (hdot : c ≠ ['.'])
    (hdotdot : c ≠ ['.', '.']) : IsName c := by
  obtain ⟨hmem, hne⟩ := List.mem_filter.mp h
  exact ⟨by simpa using hne, no_slash_of_mem_splitOn hmem, hdot, hdotdot⟩

theorem exists_slashes (s : List Char) :
    ∃ k t, s = List.replicate k '/' ++ t ∧ t.head? ≠ some '/' := by
  induction s with
  | nil => exact ⟨0, [], rfl, by simp⟩
  | cons x s ih =>
    by_cases hx : x = '/'
    · obtain ⟨k, t, ht, hhead⟩ := ih
      exact ⟨k + 1, t, by rw [hx, ht, List.replicate_succ, List.cons_append], hhead⟩
    · exact ⟨0, x :: s, rfl, by simpa using hx⟩

/-- A text that does not begin with a slash begins with a name, which ends the text or is
followed by slashes. -/
theorem exists_name (hne : s ≠ []) (hhead : s.head? ≠ some '/') :
    ∃ name, name ≠ [] ∧ '/' ∉ name ∧ (s = name ∨
      ∃ k t, s = name ++ '/' :: (List.replicate k '/' ++ t) ∧ t.head? ≠ some '/') := by
  induction s with
  | nil => exact absurd rfl hne
  | cons x s ih =>
    have hx : '/' ≠ x := fun he => hhead (by rw [← he]; rfl)
    rcases s with _ | ⟨y, s⟩
    · exact ⟨[x], by simp, by simpa using hx, .inl rfl⟩
    · by_cases hy : y = '/'
      · obtain ⟨k, t, ht, hhead'⟩ := exists_slashes s
        exact ⟨[x], by simp, by simpa using hx, .inr ⟨k, t, by simp [hy, ht], hhead'⟩⟩
      · obtain ⟨name, -, hno, hrest⟩ := ih (by simp) (by simpa using hy)
        refine ⟨x :: name, by simp, by simp [hx, hno], ?_⟩
        obtain rfl | ⟨k, t, ht, hhead'⟩ := hrest
        · exact .inl rfl
        · exact .inr ⟨k, t, by rw [ht, List.cons_append], hhead'⟩

/-! ## Normal texts are the paths of names -/

@[simp] theorem path_nil : path [] = ['/'] := rfl

@[simp] theorem joined_nil : joined [] = [] := rfl

theorem joined_concat (names : List (List Char)) (c : List Char) :
    joined (names ++ [c]) = joined names ++ (c ++ ['/']) := by
  simp [joined]

theorem path_concat (names : List (List Char)) (c : List Char) :
    path (names ++ [c]) = '/' :: (joined names ++ c) := by
  have hjoin : ['/'].intercalate (names ++ [c]) = joined names ++ c := by
    induction names with
    | nil => simp [joined]
    | cons d names ih =>
      rw [List.cons_append, List.intercalate_cons_of_ne_nil (by simp), ih]
      simp [joined]
  rw [path, hjoin]

theorem splitOn_path (h : ∀ c ∈ names, IsName c) (hne : names ≠ []) :
    (['/'].intercalate names).splitOn '/' = names :=
  List.splitOn_intercalate '/' (fun c hc => (h c hc).no_slash) hne

theorem components_path (h : ∀ c ∈ names, IsName c) : components (path names) = names := by
  rw [path, components_slash]
  rcases eq_or_ne names [] with rfl | hne
  · rfl
  · rw [components, splitOn_path h hne, List.filter_eq_self]
    exact fun c hc => by simpa using (h c hc).ne_nil

theorem normal_iff : Normal s ↔ ∃ names, (∀ c ∈ names, IsName c) ∧ s = path names := by
  constructor
  · rintro (rfl | ⟨r, rfl, hr⟩)
    · exact ⟨[], by simp, rfl⟩
    · refine ⟨r.splitOn '/', fun c hc => ?_, ?_⟩
      · obtain ⟨hne, hdot, hdotdot⟩ := hr c hc
        exact ⟨hne, no_slash_of_mem_splitOn hc, hdot, hdotdot⟩
      · rw [path, List.intercalate_splitOn]
  · rintro ⟨names, h, rfl⟩
    rcases eq_or_ne names [] with rfl | hne
    · exact .inl rfl
    · refine .inr ⟨_, rfl, fun c hc => ?_⟩
      rw [splitOn_path h hne] at hc
      exact ⟨(h c hc).ne_nil, (h c hc).ne_dot, (h c hc).ne_dotdot⟩

theorem Normal.eq_path (h : Normal s) :
    s = path (components s) ∧ ∀ c ∈ components s, IsName c := by
  obtain ⟨names, hnames, rfl⟩ := normal_iff.mp h
  rw [components_path hnames]
  exact ⟨rfl, hnames⟩

theorem normal_path (h : ∀ c ∈ names, IsName c) : Normal (path names) :=
  normal_iff.mpr ⟨names, h, rfl⟩

/-! ## Entering components -/

/-- One component, entered from a stack of names; `none` climbs above the root. -/
def enter (stack : List (List Char)) (c : List Char) : Option (List (List Char)) :=
  if c = ['.'] then some stack
  else if c = ['.', '.'] then if stack = [] then none else some stack.dropLast
  else some (stack ++ [c])

def resolve (stack : List (List Char)) : List (List Char) → Option (List (List Char))
  | [] => some stack
  | c :: cs => (enter stack c).bind fun stack => resolve stack cs

/-- What a component adds to the depth. -/
def climb (c : List Char) : ℤ :=
  if c = ['.'] then 0 else if c = ['.', '.'] then -1 else 1

/-- The lowest depth on the way, from depth `d` on. -/
def lowest (d : ℤ) : List (List Char) → ℤ
  | [] => d
  | c :: cs => min d (lowest (d + climb c) cs)

theorem lowest_le (d : ℤ) (cs : List (List Char)) : lowest d cs ≤ d := by
  cases cs with
  | nil => exact Int.le_refl d
  | cons c cs => exact Int.min_le_left _ _

@[simp] theorem lowest_dot (d : ℤ) (cs : List (List Char)) :
    lowest d (['.'] :: cs) = lowest d cs := by
  have hle := lowest_le d cs
  simp only [lowest, climb, if_true, Int.add_zero]
  omega

@[simp] theorem lowest_dotdot (d : ℤ) (cs : List (List Char)) :
    lowest d (['.', '.'] :: cs) = lowest (d - 1) cs := by
  have hle := lowest_le (d + -1) cs
  have hclimb : climb ['.', '.'] = -1 := rfl
  rw [lowest, hclimb, Int.sub_eq_add_neg]
  omega

theorem lowest_name {c : List Char} (hdot : c ≠ ['.']) (hdotdot : c ≠ ['.', '.']) (d : ℤ)
    (cs : List (List Char)) : lowest d (c :: cs) = min d (lowest (d + 1) cs) := by
  rw [lowest, climb, if_neg hdot, if_neg hdotdot]

theorem length_dropLast_of_ne_nil (h : stack ≠ []) :
    ((stack.dropLast.length : ℕ) : ℤ) = stack.length - 1 := by
  have := List.length_pos_of_ne_nil h
  rw [List.length_dropLast]
  omega

/-- Resolving fails exactly when the way leads above the root. -/
theorem resolve_eq_none_iff (stack cs : List (List Char)) :
    resolve stack cs = none ↔ lowest stack.length cs < 0 := by
  induction cs generalizing stack with
  | nil => simp [resolve, lowest]
  | cons c cs ih =>
    by_cases hdot : c = ['.']
    · subst hdot
      rw [lowest_dot, ← ih stack]
      rfl
    · by_cases hdotdot : c = ['.', '.']
      · subst hdotdot
        rw [lowest_dotdot]
        by_cases hstack : stack = []
        · subst hstack
          have hle := lowest_le (([] : List (List Char)).length - 1) cs
          rw [List.length_nil] at hle ⊢
          exact iff_of_true rfl (by omega)
        · rw [← length_dropLast_of_ne_nil hstack, ← ih stack.dropLast, resolve, enter,
            if_neg (by decide), if_pos rfl, if_neg hstack, Option.bind_some]
      · have hlen : ((stack ++ [c]).length : ℤ) = stack.length + 1 := by simp
        rw [lowest_name hdot hdotdot, resolve, enter, if_neg hdot, if_neg hdotdot,
          Option.bind_some, ih, hlen]
        omega

theorem resolve_names (h : ∀ c ∈ names, IsName c) :
    resolve stack names = some (stack ++ names) := by
  induction names generalizing stack with
  | nil => rw [resolve, List.append_nil]
  | cons c names ih =>
    have hc := h c List.mem_cons_self
    rw [resolve, enter, if_neg hc.ne_dot, if_neg hc.ne_dotdot, Option.bind_some,
      ih fun d hd => h d (List.mem_cons_of_mem _ hd), List.append_assoc, List.singleton_append]

theorem lowest_names (h : ∀ c ∈ names, IsName c) (d : ℤ) : lowest d names = d := by
  induction names generalizing d with
  | nil => rfl
  | cons c names ih =>
    have hc := h c List.mem_cons_self
    rw [lowest_name hc.ne_dot hc.ne_dotdot, ih fun d hd => h d (List.mem_cons_of_mem _ hd)]
    omega

/-! ## Prefixes -/

theorem path_eq_flatMap (hne : names ≠ []) : path names = names.flatMap ('/' :: ·) := by
  induction names with
  | nil => exact absurd rfl hne
  | cons c names ih =>
    rcases eq_or_ne names [] with rfl | hnames
    · simp [path]
    · rw [path, List.intercalate_cons_of_ne_nil hnames, List.flatMap_cons, ← ih hnames, path]
      simp

/-- A longer stack has the path of a shorter one, followed by the path of the rest. -/
theorem path_append {names' : List (List Char)} (hne : names ≠ []) (hne' : names' ≠ []) :
    path (names ++ names') = path names ++ path names' := by
  rw [path_eq_flatMap (List.append_ne_nil_of_left_ne_nil hne _), path_eq_flatMap hne,
    path_eq_flatMap hne', List.flatMap_append]

theorem one_lt_length_path (h : ∀ c ∈ names, IsName c) (hne : names ≠ []) :
    1 < (path names).length := by
  obtain ⟨c, rest, rfl⟩ := List.exists_cons_of_ne_nil hne
  have hc := List.length_pos_of_ne_nil (h c List.mem_cons_self).ne_nil
  rw [path_eq_flatMap hne, List.flatMap_cons, List.length_append, List.length_cons]
  omega

theorem length_path_lt {names' : List (List Char)} (h : ∀ c ∈ names', IsName c)
    (hbegins : names <+: names') (hne : names ≠ names') :
    (path names).length < (path names').length := by
  obtain ⟨rest, rfl⟩ := hbegins
  have hrest : rest ≠ [] := fun he => hne (by simp [he])
  have hpos := one_lt_length_path (fun c hc => h c (List.mem_append_right names hc)) hrest
  rcases eq_or_ne names [] with rfl | hnames
  · exact hpos
  · rw [path_append hnames hrest, List.length_append]
    omega

theorem path_injective {names' : List (List Char)} (h : ∀ c ∈ names, IsName c)
    (h' : ∀ c ∈ names', IsName c) (he : path names = path names') : names = names' := by
  rw [← components_path h, he, components_path h']

/-- A prefix of the stack is a prefix of the text that ends at a slash, at the end or at the
root. -/
theorem prefix_iff {names' : List (List Char)} (h : ∀ c ∈ names, IsName c)
    (h' : ∀ c ∈ names', IsName c) :
    names <+: names' ↔ path names <+: path names' ∧
      (1 < (path names).length → ∀ c, (path names')[(path names).length]? = some c → c = '/') := by
  constructor
  · rintro ⟨rest, rfl⟩
    rcases eq_or_ne rest [] with rfl | hrest
    · rw [List.append_nil]
      refine ⟨List.prefix_refl _, fun _ c hc => ?_⟩
      rw [List.getElem?_eq_none (Nat.le_refl _)] at hc
      contradiction
    · rcases eq_or_ne names [] with rfl | hne
      · exact ⟨⟨_, rfl⟩, fun hlen => absurd hlen (by simp)⟩
      · rw [path_append hne hrest]
        refine ⟨List.prefix_append _ _, fun _ c hc => ?_⟩
        rw [List.getElem?_append_right (Nat.le_refl _), Nat.sub_self] at hc
        exact (Option.some.inj hc).symm
  · rintro ⟨⟨t, ht⟩, hnext⟩
    rcases eq_or_ne names [] with rfl | hne
    · exact List.nil_prefix
    · rcases t with _ | ⟨c, t⟩
      · rw [List.append_nil] at ht
        rw [path_injective h h' ht]
      · have hc : c = '/' := by
          refine hnext (one_lt_length_path h hne) c ?_
          rw [← ht, List.getElem?_append_right (Nat.le_refl _), Nat.sub_self]
          rfl
        rw [hc] at ht
        have hcomp := components_append_slash (path names) t
        rw [ht, components_path h, components_path h'] at hcomp
        exact ⟨components t, hcomp.symm⟩

end SlashPath
