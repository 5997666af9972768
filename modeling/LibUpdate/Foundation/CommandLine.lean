import LibUpdate.Foundation.Bytes

/-!
# `Foundation.CommandLine` — Windows command lines

A Windows program gets its arguments as one text and splits it itself, by the documented rules of the C
runtime (`Dialect.msvc`) or of `CommandLineToArgvW` (`Dialect.shell`). `splitCommandLine` is these rules.
Blanks outside of quotes end an argument. A run of backslashes stands for itself unless a quote follows: then
each pair of them is one backslash, and one that is left over makes the quote a literal one. The program name
has rules of its own, in which a backslash is never special.

`argText` is the text that means an argument, and `splitCommandLine_cmdlineText` reads a line of such texts
back.
-/

namespace LibUpdate

/-- The two documented ways to read a command line. -/
inductive Dialect where
  | msvc
  | shell
  deriving DecidableEq, Repr

/-- Outside of quotes, inside, or behind a quote that ends a quoted part unless a second one follows. -/
inductive QuoteMode where
  | outside
  | inside
  | behind
  deriving DecidableEq, Repr

/-- The mode behind a quote. The C runtime reads a pair of quotes in a quoted part as one literal quote. -/
def QuoteMode.quote (d : Dialect) : QuoteMode → QuoteMode
  | .outside => .inside
  | .inside => if d = .msvc then .behind else .outside
  | .behind => .inside

/-- The mode behind any other byte. -/
def QuoteMode.other : QuoteMode → QuoteMode
  | .inside => .inside
  | .outside => .outside
  | .behind => .outside

def isBlank (c : UInt8) : Bool := c == ch ' ' || c == ch '\t'

def backslashes (n : Nat) : Bytes := List.replicate n (ch '\\')

/-- The argument that has been read, if one has been begun, with the backslashes behind it. -/
def endArg (arg : Option Bytes) (slashes : Nat) : List Bytes :=
  (arg.map (· ++ backslashes slashes)).toList

/-- Splits what follows the program name. `arg` is what has been read of an argument, `none` between two of
    them, and `slashes` is the length of the run of backslashes behind that. -/
def splitArgs (d : Dialect) (arg : Option Bytes) (mode : QuoteMode) (slashes : Nat) : Bytes → List Bytes
  | [] => endArg arg slashes
  | c :: s =>
      let read := arg.getD []
      if c = ch '\\' then splitArgs d (some read) mode.other (slashes + 1) s
      else if c = ch '"' then
        let read := read ++ backslashes (slashes / 2)
        if slashes % 2 = 1 then splitArgs d (some (read ++ [c])) mode.other 0 s
        else splitArgs d (some (if mode = .behind then read ++ [c] else read)) (mode.quote d) 0 s
      else if isBlank c && mode ≠ .inside then endArg arg slashes ++ splitArgs d none .outside 0 s
      else splitArgs d (some (read ++ backslashes slashes ++ [c])) mode.other 0 s

/-- The program name of the C runtime: quotes only protect blanks. -/
def msvcName (inQuotes : Bool) : Bytes → Bytes × Bytes
  | [] => ([], [])
  | c :: s =>
      if c = ch '"' then msvcName (!inQuotes) s
      else if isBlank c && !inQuotes then ([], c :: s)
      else (c :: (msvcName inQuotes s).1, (msvcName inQuotes s).2)

/-- The program name of `CommandLineToArgvW`: up to the second quote, or up to a blank. -/
def shellName : Bytes → Bytes × Bytes
  | [] => ([], [])
  | c :: s =>
      if c = ch '"' then (s.takeWhile (· != ch '"'), (s.dropWhile (· != ch '"')).drop 1)
      else ((c :: s).takeWhile (!isBlank ·), (c :: s).dropWhile (!isBlank ·))

def programName : Dialect → Bytes → Bytes × Bytes
  | .msvc, s => msvcName false s
  | .shell, s => shellName s

/-- The argument vector of a command line. -/
def splitCommandLine (d : Dialect) (s : Bytes) : List Bytes :=
  (programName d s).1 :: splitArgs d none .outside 0 (programName d s).2

/-! ## Writing an argument -/

/-- A byte that makes quotes around an argument necessary: the blanks, the other white space that some
    readers take for blanks, and the quote. -/
def needsQuotes (c : UInt8) : Bool :=
  c == ch ' ' || c == ch '\t' || c == ch '\n' || c == ch '\r' || c == 0x0b || c == ch '"'

/-- The text between the quotes around an argument, where `slashes` backslashes are still to be written. -/
def quotedBody (slashes : Nat) : Bytes → Bytes
  | [] => backslashes (slashes * 2)
  | c :: s =>
      if c = ch '\\' then quotedBody (slashes + 1) s
      else if c = ch '"' then backslashes (slashes * 2 + 1) ++ c :: quotedBody 0 s
      else backslashes slashes ++ c :: quotedBody 0 s

/-- The text that means an argument. -/
def argText (arg : Bytes) : Bytes :=
  if arg = [] || arg.any needsQuotes then ch '"' :: quotedBody 0 arg ++ [ch '"'] else arg

/-- The arguments behind the program name, with a blank before each. -/
def argsText (args : List Bytes) : Bytes := args.flatMap fun arg => ch ' ' :: argText arg

/-- The command line of an argument vector. -/
def cmdlineText (name : Bytes) (args : List Bytes) : Bytes := argText name ++ argsText args

/-! ## Reading it back -/

section

variable {d : Dialect} {a rest : Bytes}

theorem backslashes_zero : backslashes 0 = [] := rfl

theorem backslashes_succ (n : Nat) : backslashes (n + 1) = ch '\\' :: backslashes n := List.replicate_succ

theorem backslashes_snoc (n : Nat) : backslashes n ++ [ch '\\'] = backslashes (n + 1) :=
  List.replicate_succ'.symm

/-- A run of backslashes is counted. -/
theorem splitArgs_backslashes {mode : QuoteMode} (hmode : mode.other = mode) (n k : Nat) :
    splitArgs d (some a) mode n (backslashes k ++ rest) = splitArgs d (some a) mode (n + k) rest := by
  induction k generalizing n with
  | zero => rfl
  | succ k ih =>
      rw [backslashes_succ, List.cons_append, splitArgs, if_pos rfl, hmode]
      exact (ih (n + 1)).trans (by rw [Nat.add_assoc, Nat.add_comm 1])

/-- Backslashes and then a byte that is neither a backslash nor a quote stand for themselves. -/
theorem splitArgs_plain {mode : QuoteMode} (n : Nat) {c : UInt8} (hslash : c ≠ ch '\\') (hquote : c ≠ ch '"')
    (hblank : mode = .inside ∨ isBlank c = false) :
    splitArgs d (some a) mode n (c :: rest) = splitArgs d (some (a ++ backslashes n ++ [c])) mode.other 0 rest := by
  have hgo : ¬ (isBlank c && decide (mode ≠ .inside)) = true := by
    rcases hblank with rfl | hblank
    · simp
    · simp [hblank]
  rw [splitArgs, if_neg hslash, if_neg hquote, if_neg hgo]
  rfl

/-- The text between the quotes and the closing quote: what is read is the argument. -/
theorem splitArgs_quotedBody (n : Nat) (s : Bytes) :
    splitArgs d (some a) .inside 0 (quotedBody n s ++ ch '"' :: rest)
      = splitArgs d (some (a ++ backslashes n ++ s)) (QuoteMode.inside.quote d) 0 rest := by
  induction s generalizing n a with
  | nil =>
      rw [quotedBody, splitArgs_backslashes rfl, splitArgs, if_neg (by decide), if_pos rfl]
      simp
  | cons c s ih =>
      rw [quotedBody]
      split
      · next hslash =>
        rw [ih, hslash, ← backslashes_snoc]
        simp
      next hslash =>
      split
      · next hquote =>
        subst hquote
        rw [List.append_assoc, splitArgs_backslashes rfl, List.cons_append, splitArgs, if_neg hslash, if_pos rfl]
        have hodd : (0 + (n * 2 + 1)) % 2 = 1 := by omega
        have hhalf : (0 + (n * 2 + 1)) / 2 = n := by omega
        dsimp only
        rw [if_pos hodd, hhalf, QuoteMode.other, ih]
        simp [backslashes_zero]
      · next hquote =>
        rw [List.append_assoc, splitArgs_backslashes rfl, List.cons_append,
          splitArgs_plain _ hslash hquote (Or.inl rfl), QuoteMode.other, ih]
        simp [backslashes_zero]

/-- What may follow an argument: nothing, or a blank and the other arguments. -/
def Follows (rest : Bytes) : Prop := rest = [] ∨ ∃ more, rest = ch ' ' :: more

theorem splitArgs_follows (hrest : Follows rest) {mode : QuoteMode} (hmode : mode ≠ .inside) (n : Nat) :
    splitArgs d (some a) mode n rest = (a ++ backslashes n) :: splitArgs d none .outside 0 rest := by
  rcases hrest with rfl | ⟨more, rfl⟩
  · rfl
  · have hgo : (isBlank (ch ' ') && decide (mode ≠ .inside)) = true := by simp [hmode]; decide
    have hnone : splitArgs d none .outside 0 (ch ' ' :: more) = splitArgs d none .outside 0 more := by
      rw [splitArgs, if_neg (by decide), if_neg (by decide), if_pos (by decide)]
      rfl
    rw [hnone, splitArgs, if_neg (by decide), if_neg (by decide), if_pos hgo]
    rfl

theorem isBlank_of_not_needsQuotes {c : UInt8} (h : needsQuotes c = false) : isBlank c = false ∧ c ≠ ch '"' := by
  simp only [needsQuotes, Bool.or_eq_false_iff, beq_eq_false_iff_ne] at h
  obtain ⟨⟨⟨⟨⟨hspace, htab⟩, _⟩, _⟩, _⟩, hquote⟩ := h
  exact ⟨by simp [isBlank, hspace, htab], hquote⟩

/-- An argument that is written without quotes. -/
theorem splitArgs_bare (hrest : Follows rest) {s : Bytes} (hs : ∀ c ∈ s, needsQuotes c = false) (n : Nat) :
    splitArgs d (some a) .outside n (s ++ rest)
      = (a ++ backslashes n ++ s) :: splitArgs d none .outside 0 rest := by
  induction s generalizing n a with
  | nil => rw [List.nil_append, splitArgs_follows hrest (by simp), List.append_nil]
  | cons c s ih =>
      obtain ⟨hblank, hquote⟩ := isBlank_of_not_needsQuotes (hs c List.mem_cons_self)
      have htail : ∀ c ∈ s, needsQuotes c = false := fun c hc => hs c (List.mem_cons_of_mem _ hc)
      rw [List.cons_append]
      by_cases hslash : c = ch '\\'
      · rw [splitArgs, if_pos hslash]
        refine (ih htail (n + 1)).trans ?_
        rw [← backslashes_snoc, hslash]
        simp
      · rw [splitArgs_plain _ hslash hquote (Or.inr hblank), QuoteMode.other, ih htail]
        simp [backslashes_zero]

/-- The first byte of an argument begins it. -/
theorem splitArgs_begin {c : UInt8} (hc : isBlank c = false) :
    splitArgs d none .outside 0 (c :: rest) = splitArgs d (some []) .outside 0 (c :: rest) := by
  rw [splitArgs, splitArgs]
  simp [hc]

/-- **Whatever an argument is made of, its text is read back as the argument.** -/
theorem splitArgs_argText (hrest : Follows rest) (arg : Bytes) :
    splitArgs d none .outside 0 (argText arg ++ rest) = arg :: splitArgs d none .outside 0 rest := by
  unfold argText
  split
  · rw [List.append_assoc, List.cons_append, splitArgs_begin (by decide), splitArgs, if_neg (by decide), if_pos rfl]
    refine (splitArgs_quotedBody 0 arg).trans ?_
    have hmode : QuoteMode.inside.quote d ≠ .inside := by cases d <;> decide
    refine (splitArgs_follows hrest hmode 0).trans ?_
    simp [backslashes_zero]
  · next hbare =>
    simp only [Bool.or_eq_true, decide_eq_true_eq, List.any_eq_true, not_or, not_exists, not_and,
      Bool.not_eq_true] at hbare
    obtain ⟨hne, hbare⟩ := hbare
    cases arg with
    | nil => exact absurd rfl hne
    | cons c s =>
        have hc := (isBlank_of_not_needsQuotes (hbare c List.mem_cons_self)).1
        rw [List.cons_append, splitArgs_begin hc, ← List.cons_append, splitArgs_bare hrest hbare]
        simp [backslashes_zero]

theorem follows_argsText (args : List Bytes) : Follows (argsText args) := by
  cases args with
  | nil => exact Or.inl rfl
  | cons arg args => exact Or.inr ⟨_, rfl⟩

/-- The arguments behind the program name. -/
theorem splitArgs_argsText (args : List Bytes) : splitArgs d none .outside 0 (argsText args) = args := by
  induction args with
  | nil => rfl
  | cons arg args ih =>
      have hcons : argsText (arg :: args) = ch ' ' :: (argText arg ++ argsText args) := rfl
      rw [hcons, splitArgs, if_neg (by decide), if_neg (by decide), if_pos (by decide)]
      show splitArgs d none .outside 0 (argText arg ++ argsText args) = _
      rw [splitArgs_argText (follows_argsText args), ih]

/-! ## The program name -/

/-- Backslashes are doubled only before a quote, and a name has none. -/
theorem quotedBody_name {s : Bytes} (hquote : ch '"' ∉ s) (n : Nat)
    (hlast : (backslashes n ++ s).getLast? ≠ some (ch '\\')) : quotedBody n s = backslashes n ++ s := by
  induction s generalizing n with
  | nil =>
      cases n with
      | zero => rfl
      | succ n => simp [← backslashes_snoc] at hlast
  | cons c s ih =>
      rw [List.mem_cons, not_or] at hquote
      rw [quotedBody]
      split
      · next hslash =>
        have hmove : backslashes (n + 1) ++ s = backslashes n ++ c :: s := by
          rw [← backslashes_snoc, hslash]
          simp
        rw [ih hquote.2 (n + 1) (by rwa [hmove]), hmove]
      · rw [if_neg (Ne.symm hquote.1), ih hquote.2 0 ?_, backslashes_zero, List.nil_append]
        rw [backslashes_zero, List.nil_append]
        cases s with
        | nil => simp
        | cons e s => simpa using hlast

theorem msvcName_span {inQuotes : Bool} {s : Bytes} (hquote : ch '"' ∉ s)
    (hblank : inQuotes = true ∨ ∀ c ∈ s, isBlank c = false) :
    msvcName inQuotes (s ++ rest) = (s ++ (msvcName inQuotes rest).1, (msvcName inQuotes rest).2) := by
  induction s with
  | nil => rfl
  | cons c s ih =>
      rw [List.mem_cons, not_or] at hquote
      have hgo : ¬ (isBlank c && !inQuotes) = true := by
        rcases hblank with rfl | hblank
        · simp
        · simp [hblank c List.mem_cons_self]
      have htail : inQuotes = true ∨ ∀ c ∈ s, isBlank c = false :=
        hblank.imp id fun h c hc => h c (List.mem_cons_of_mem _ hc)
      rw [List.cons_append, msvcName, if_neg (Ne.symm hquote.1), if_neg hgo, ih hquote.2 htail]
      rfl

theorem msvcName_follows (hrest : Follows rest) : msvcName false rest = ([], rest) := by
  rcases hrest with rfl | ⟨more, rfl⟩
  · rfl
  · rw [msvcName, if_neg (by decide), if_pos (by decide)]

/-- A name with no quote in it, and no backslash at its end, is written in quotes or as it is. -/
theorem argText_name {name : Bytes} (hquote : ch '"' ∉ name) (hlast : name.getLast? ≠ some (ch '\\')) :
    argText name = ch '"' :: (name ++ [ch '"'])
      ∨ argText name = name ∧ name ≠ [] ∧ ∀ c ∈ name, isBlank c = false := by
  unfold argText
  split
  · left
    rw [quotedBody_name hquote 0 hlast, backslashes_zero, List.nil_append, List.cons_append]
  · next hbare =>
    right
    simp only [Bool.or_eq_true, decide_eq_true_eq, List.any_eq_true, not_or, not_exists, not_and,
      Bool.not_eq_true] at hbare
    obtain ⟨hne, hbare⟩ := hbare
    exact ⟨rfl, hne, fun c hc => (isBlank_of_not_needsQuotes (hbare c hc)).1⟩

theorem msvcName_argText (hrest : Follows rest) {name : Bytes} (hquote : ch '"' ∉ name)
    (hlast : name.getLast? ≠ some (ch '\\')) : msvcName false (argText name ++ rest) = (name, rest) := by
  rcases argText_name hquote hlast with htext | ⟨htext, _, hblank⟩
  · have happ : argText name ++ rest = ch '"' :: (name ++ ch '"' :: rest) := by simp [htext]
    rw [happ, msvcName, if_pos rfl, Bool.not_false, msvcName_span hquote (Or.inl rfl), msvcName, if_pos rfl]
    simp [msvcName_follows hrest]
  · rw [htext, msvcName_span hquote (Or.inr hblank), msvcName_follows hrest]
    simp

theorem shellName_argText (hrest : Follows rest) {name : Bytes} (hquote : ch '"' ∉ name)
    (hlast : name.getLast? ≠ some (ch '\\')) : shellName (argText name ++ rest) = (name, rest) := by
  rcases argText_name hquote hlast with htext | ⟨htext, hne, hblank⟩
  · have hname : ∀ c ∈ name, (c != ch '"') = true := fun c hc => bne_iff_ne.mpr fun heq => hquote (heq ▸ hc)
    have happ : argText name ++ rest = ch '"' :: (name ++ ch '"' :: rest) := by simp [htext]
    have hdrop : (name ++ ch '"' :: rest).dropWhile (· != ch '"') = ch '"' :: rest := dropWhile_span hname (by simp)
    have htake : (name ++ ch '"' :: rest).takeWhile (· != ch '"') = name := takeWhile_span hname (by simp)
    rw [happ, shellName, if_pos rfl, hdrop, htake]
    rfl
  · have hstop : ∀ c ∈ rest.head?, (!isBlank c) = false := by
      rcases hrest with rfl | ⟨more, rfl⟩
      · simp
      · intro c hc
        cases hc
        decide
    have hgo : ∀ c ∈ name, (!isBlank c) = true := fun c hc => by rw [hblank c hc]; rfl
    have hdrop := dropWhile_span hgo hstop
    have htake := takeWhile_span hgo hstop
    rw [htext]
    cases name with
    | nil => exact absurd rfl hne
    | cons c s =>
        rw [List.mem_cons, not_or] at hquote
        rw [List.cons_append] at hdrop htake ⊢
        rw [shellName, if_neg (Ne.symm hquote.1), hdrop, htake]

/-- A name that may be written as an argument is read back as the program name. -/
theorem programName_argText (d : Dialect) (hrest : Follows rest) {name : Bytes} (hquote : ch '"' ∉ name)
    (hlast : name.getLast? ≠ some (ch '\\')) : programName d (argText name ++ rest) = (name, rest) := by
  cases d with
  | msvc => exact msvcName_argText hrest hquote hlast
  | shell => exact shellName_argText hrest hquote hlast

/-- **A command line is read back as the argument vector**, by both ways to read it. -/
theorem splitCommandLine_cmdlineText (d : Dialect) {name : Bytes} (hquote : ch '"' ∉ name)
    (hlast : name.getLast? ≠ some (ch '\\')) (args : List Bytes) :
    splitCommandLine d (cmdlineText name args) = name :: args := by
  rw [splitCommandLine, cmdlineText, programName_argText d (follows_argsText args) hquote hlast,
    splitArgs_argsText]

end

end LibUpdate
