import LibUpdate.Foundation.CommandLine

/-!
# `Platform.WinCmdline` — the command line of a Windows process (`platform_process.c`)

`win_build_cmdline` makes one text of an argument vector. It goes over the arguments twice: the first time
`win_one_arg_cmdline_len` adds up the size, the second time `win_append_one_arg` writes into a buffer of that
size. Both follow the rules of `Foundation.CommandLine`, each in a loop of its own, and every byte that is
written is tested against the size. `buf` is what has been written, so `*pos` is its length.

The sizes are natural numbers: a sum that passes the limit is refused before it could wrap.
-/

namespace LibUpdate

inductive PlatformErr where
  | invalidArg
  | noMem
  | limit
  deriving DecidableEq, Repr

def winArgNeedsQuotes (arg : Bytes) : Bool :=
  if arg = [] then true
  else
    arg.any fun c =>
      c == ch ' ' || c == ch '\t' || c == ch '\n' || c == ch '\r' || c == 0x0b || c == ch '"'

/-! ## The size -/

/-- The loop of `win_one_arg_cmdline_len`, and what is behind it. -/
def winLenLoop (n slashes : Nat) : Bytes → Nat
  | [] => n + slashes * 2
  | c :: p =>
      -- backslashes are counted until it is known what follows them
      if c = ch '\\' then winLenLoop n (slashes + 1) p
      -- in front of a quote they are doubled, and one more escapes it
      else if c = ch '"' then winLenLoop (n + (slashes * 2 + 1) + 1) 0 p
      else winLenLoop (n + slashes + 1) 0 p

def winOneArgCmdlineLen (arg : Bytes) : Nat :=
  if winArgNeedsQuotes arg = false then arg.length else winLenLoop 2 0 arg

/-- The limit of `win_build_cmdline`. -/
def cmdlineMax : Nat := 1000000

/-- The sizing loop of `win_build_cmdline`. -/
def winTotalLoop (j total : Nat) : List Bytes → Except PlatformErr Nat
  | [] => .ok total
  | arg :: argv =>
      -- the blank between two arguments
      let total := if j > 0 then total + 1 else total
      let total := total + winOneArgCmdlineLen arg
      if total > cmdlineMax then .error .limit else winTotalLoop (j + 1) total argv

/-! ## The text -/

/-- One byte, if it and the NUL fit. -/
def winPut (cap : Nat) (buf : Bytes) (c : UInt8) : Except PlatformErr Bytes :=
  if buf.length + 1 ≥ cap then .error .limit else .ok (buf ++ [c])

/-- The loop over an argument that needs no quotes. -/
def winPutAll (cap : Nat) (buf : Bytes) : Bytes → Except PlatformErr Bytes
  | [] => .ok buf
  | c :: p => do
      let buf ← winPut cap buf c
      winPutAll cap buf p

/-- The loops that write `k` backslashes. -/
def winPutSlashes (cap : Nat) (buf : Bytes) : Nat → Except PlatformErr Bytes
  | 0 => .ok buf
  | k + 1 => do
      let buf ← winPut cap buf (ch '\\')
      winPutSlashes cap buf k

/-- The loop over an argument in quotes, and what is behind it. -/
def winAppendQuoted (cap slashes : Nat) (buf : Bytes) : Bytes → Except PlatformErr Bytes
  | [] => do
      let buf ← winPutSlashes cap buf (slashes * 2)
      winPut cap buf (ch '"')
  | c :: p =>
      if c = ch '\\' then winAppendQuoted cap (slashes + 1) buf p
      else if c = ch '"' then do
        let buf ← winPutSlashes cap buf (slashes * 2 + 1)
        let buf ← winPut cap buf (ch '"')
        winAppendQuoted cap 0 buf p
      else do
        let buf ← winPutSlashes cap buf slashes
        let buf ← winPut cap buf c
        winAppendQuoted cap 0 buf p

def winAppendOneArg (cap : Nat) (buf arg : Bytes) : Except PlatformErr Bytes :=
  if winArgNeedsQuotes arg = false then winPutAll cap buf arg
  else do
    let buf ← winPut cap buf (ch '"')
    winAppendQuoted cap 0 buf arg

/-- The writing loop of `win_build_cmdline`. -/
def winWriteLoop (total j : Nat) (buf : Bytes) : List Bytes → Except PlatformErr Bytes
  | [] => .ok buf
  | arg :: argv => do
      let buf ← if j > 0 then winPut total buf (ch ' ') else .ok buf
      let buf ← winAppendOneArg total buf arg
      winWriteLoop total (j + 1) buf argv

/-- `win_build_cmdline`; `argv` is the vector up to its NULL. -/
def winBuildCmdline (alloc : Nat → Bool) (argv : List Bytes) : Except PlatformErr Bytes :=
  if argv = [] then .error .invalidArg
  else do
    -- one byte for the NUL
    let total ← winTotalLoop 0 1 argv
    if alloc total then
      let buf ← winWriteLoop total 0 [] argv
      if buf.length + 1 > total then .error .limit else .ok buf
    else .error .noMem

/-! ## The size is that of the text -/

theorem winArgNeedsQuotes_eq (arg : Bytes) :
    winArgNeedsQuotes arg = (decide (arg = []) || arg.any needsQuotes) := by
  unfold winArgNeedsQuotes
  split
  · next h => simp [h]
  · next h =>
    simp only [h, decide_false, Bool.false_or]
    rfl

theorem length_backslashes (n : Nat) : (backslashes n).length = n := List.length_replicate

theorem winLenLoop_eq (n slashes : Nat) (p : Bytes) :
    winLenLoop n slashes p = n + (quotedBody slashes p).length := by
  induction p generalizing n slashes with
  | nil => rw [winLenLoop, quotedBody, length_backslashes]
  | cons c p ih =>
      rw [winLenLoop, quotedBody]
      split
      · exact ih n (slashes + 1)
      split
      · rw [ih, List.length_append, List.length_cons, length_backslashes]
        omega
      · rw [ih, List.length_append, List.length_cons, length_backslashes]
        omega

/-- The sizing pass reserves the length of the text. -/
theorem winOneArgCmdlineLen_eq (arg : Bytes) : winOneArgCmdlineLen arg = (argText arg).length := by
  unfold winOneArgCmdlineLen argText
  rw [winArgNeedsQuotes_eq]
  cases hquotes : (decide (arg = []) || arg.any needsQuotes) with
  | false => simp
  | true =>
      simp only [Bool.true_eq_false, if_false, if_true, winLenLoop_eq, List.length_append, List.length_cons,
        List.length_nil]
      omega

theorem winTotalLoop_argsText (j : Nat) {total : Nat} (htotal : total ≤ cmdlineMax) (args : List Bytes) :
    winTotalLoop (j + 1) total args
      = if total + (argsText args).length ≤ cmdlineMax then .ok (total + (argsText args).length)
        else .error .limit := by
  induction args generalizing j total with
  | nil => exact (if_pos htotal).symm
  | cons arg args ih =>
      have hlen : (argsText (arg :: args)).length = 1 + (argText arg).length + (argsText args).length := by
        simp only [argsText, List.flatMap_cons, List.length_append, List.length_cons]
        omega
      have hsum : total + (1 + (argText arg).length + (argsText args).length)
          = total + 1 + (argText arg).length + (argsText args).length := by omega
      rw [winTotalLoop, winOneArgCmdlineLen_eq, hlen, hsum, if_pos (Nat.succ_pos j)]
      split
      · rw [if_neg (by omega)]
      · exact ih (j + 1) (by omega)

/-! ## What is written is the text -/

section

variable {cap : Nat} {buf : Bytes}

theorem winPutAll_append (v w : Bytes) :
    winPutAll cap buf (v ++ w) = winPutAll cap buf v >>= fun buf => winPutAll cap buf w := by
  induction v generalizing buf with
  | nil => rfl
  | cons c v ih =>
      rw [List.cons_append, winPutAll, winPutAll]
      cases winPut cap buf c with
      | error e => rfl
      | ok buf => exact ih

theorem winPutAll_singleton (c : UInt8) : winPutAll cap buf [c] = winPut cap buf c := by
  rw [winPutAll]
  cases winPut cap buf c with
  | error e => rfl
  | ok buf => rfl

theorem winPutSlashes_eq (k : Nat) : winPutSlashes cap buf k = winPutAll cap buf (backslashes k) := by
  induction k generalizing buf with
  | zero => rfl
  | succ k ih =>
      rw [winPutSlashes, backslashes_succ, winPutAll]
      cases winPut cap buf (ch '\\') with
      | error e => rfl
      | ok buf => exact ih

theorem winAppendQuoted_eq (slashes : Nat) (p : Bytes) :
    winAppendQuoted cap slashes buf p = winPutAll cap buf (quotedBody slashes p ++ [ch '"']) := by
  induction p generalizing slashes buf with
  | nil => simp only [winAppendQuoted, quotedBody, winPutAll_append, winPutSlashes_eq, winPutAll_singleton]
  | cons c p ih =>
      rw [winAppendQuoted, quotedBody]
      split
      · exact ih (slashes + 1)
      split
      · next hquote =>
        rw [hquote, List.append_assoc, winPutAll_append, winPutSlashes_eq]
        simp only [ih]
        rfl
      · rw [List.append_assoc, winPutAll_append, winPutSlashes_eq]
        simp only [ih]
        rfl

theorem winAppendOneArg_eq (arg : Bytes) : winAppendOneArg cap buf arg = winPutAll cap buf (argText arg) := by
  unfold winAppendOneArg argText
  rw [winArgNeedsQuotes_eq]
  cases hquotes : (decide (arg = []) || arg.any needsQuotes) with
  | false => rfl
  | true =>
      simp only [Bool.true_eq_false, if_false, if_true, winAppendQuoted_eq]
      rfl

theorem winWriteLoop_argsText (total j : Nat) (args : List Bytes) :
    winWriteLoop total (j + 1) buf args = winPutAll total buf (argsText args) := by
  induction args generalizing j buf with
  | nil => rfl
  | cons arg args ih =>
      have hcons : argsText (arg :: args) = [ch ' '] ++ (argText arg ++ argsText args) := rfl
      rw [winWriteLoop, if_pos (Nat.succ_pos j), hcons, winPutAll_append, winPutAll_singleton]
      simp only [winAppendOneArg_eq, ih, winPutAll_append]

theorem winPutAll_fits {w : Bytes} (h : buf.length + w.length < cap) : winPutAll cap buf w = .ok (buf ++ w) := by
  induction w generalizing buf with
  | nil => rw [List.append_nil, winPutAll]
  | cons c w ih =>
      rw [List.length_cons] at h
      have hput : winPut cap buf c = .ok (buf ++ [c]) := if_neg (by omega)
      rw [winPutAll, hput]
      refine (ih ?_).trans ?_
      · rw [List.length_append, List.length_singleton]
        omega
      · rw [List.append_assoc, List.singleton_append]

/-- What has been written when the whole text was. -/
theorem winPutAll_ok {w buf' : Bytes} (h : winPutAll cap buf w = .ok buf') : buf' = buf ++ w := by
  induction w generalizing buf with
  | nil =>
      cases h
      exact (List.append_nil _).symm
  | cons c w ih =>
      rw [winPutAll] at h
      cases hput : winPut cap buf c with
      | error e =>
          rw [hput] at h
          cases h
      | ok b =>
          rw [hput] at h
          have hb : b = buf ++ [c] := by
            unfold winPut at hput
            split at hput
            · cases hput
            · exact (Except.ok.inj hput).symm
          rw [ih h, hb, List.append_assoc, List.singleton_append]

end

/-- The size of a command line with the NUL behind it. -/
def renderedSize (name : Bytes) (args : List Bytes) : Nat := (cmdlineText name args).length + 1

theorem winTotalLoop_eq (name : Bytes) (args : List Bytes) :
    winTotalLoop 0 1 (name :: args)
      = if renderedSize name args ≤ cmdlineMax then .ok (renderedSize name args) else .error .limit := by
  have hsize : renderedSize name args = 1 + (argText name).length + (argsText args).length := by
    rw [renderedSize, cmdlineText, List.length_append]
    omega
  rw [winTotalLoop, winOneArgCmdlineLen_eq, hsize, if_neg (Nat.lt_irrefl 0)]
  split
  · rw [if_neg (by omega)]
  · exact winTotalLoop_argsText 0 (by omega) args

/-- The buffer has room for the whole text. -/
theorem winWriteLoop_eq (name : Bytes) (args : List Bytes) :
    winWriteLoop (renderedSize name args) 0 [] (name :: args) = .ok (cmdlineText name args) := by
  have hall : winWriteLoop (renderedSize name args) 0 [] (name :: args)
      = winPutAll (renderedSize name args) [] (cmdlineText name args) := by
    rw [winWriteLoop, if_neg (Nat.lt_irrefl 0), cmdlineText, winPutAll_append]
    simp only [winAppendOneArg_eq, winWriteLoop_argsText]
    rfl
  have hfits : ([] : Bytes).length + (cmdlineText name args).length < renderedSize name args := by
    rw [List.length_nil, Nat.zero_add]
    exact Nat.lt_succ_self _
  rw [hall, winPutAll_fits hfits, List.nil_append]

/-- `win_build_cmdline` as a function of the argument vector. -/
theorem winBuildCmdline_eq (alloc : Nat → Bool) (name : Bytes) (args : List Bytes) :
    winBuildCmdline alloc (name :: args)
      = if renderedSize name args ≤ cmdlineMax then
          if alloc (renderedSize name args) then .ok (cmdlineText name args) else .error .noMem
        else .error .limit := by
  have hend : ¬ (cmdlineText name args).length + 1 > renderedSize name args := Nat.lt_irrefl _
  rw [winBuildCmdline, if_neg (List.cons_ne_nil name args), winTotalLoop_eq]
  by_cases hsize : renderedSize name args ≤ cmdlineMax
  · rw [if_pos hsize, if_pos hsize]
    show (if alloc (renderedSize name args) = true then
      winWriteLoop (renderedSize name args) 0 [] (name :: args) >>= fun buf =>
        if buf.length + 1 > renderedSize name args then .error .limit else .ok buf
      else .error .noMem) = _
    rw [winWriteLoop_eq]
    by_cases halloc : alloc (renderedSize name args) = true
    · rw [if_pos halloc, if_pos halloc]
      exact if_neg hend
    · rw [if_neg halloc, if_neg halloc]
  · rw [if_neg hsize, if_neg hsize]
    rfl

/-- **A command line is read back as the argument vector it was built from.** The arguments may be any
    strings; the program name has no quote and does not end in a backslash. Up to the limit the call
    succeeds: it writes exactly as many bytes as the sizing pass counts, for each argument and for the whole
    line. The documented rules, read either way, split the line into the argument vector. -/
theorem winBuildCmdline_roundTrip (name : Bytes) (args : List Bytes) (hquote : ch '"' ∉ name)
    (hlast : name.getLast? ≠ some (ch '\\')) (hsize : renderedSize name args ≤ cmdlineMax) :
    (∃ cmdline, winBuildCmdline memory (name :: args) = .ok cmdline
        ∧ winTotalLoop 0 1 (name :: args) = .ok (cmdline.length + 1)
        ∧ ∀ d, splitCommandLine d cmdline = name :: args)
      ∧ ∀ cap buf buf' arg, winAppendOneArg cap buf arg = .ok buf' →
          buf'.length = buf.length + winOneArgCmdlineLen arg := by
  refine ⟨⟨cmdlineText name args, ?_, ?_, ?_⟩, ?_⟩
  · rw [winBuildCmdline_eq, if_pos hsize]
    rfl
  · rw [winTotalLoop_eq, if_pos hsize, renderedSize]
  · intro d
    exact splitCommandLine_cmdlineText d hquote hlast args
  · intro cap buf buf' arg h
    rw [winAppendOneArg_eq] at h
    rw [winPutAll_ok h, List.length_append, winOneArgCmdlineLen_eq]

/-- A blank, an empty argument, a quote behind a backslash, and a backslash at the end of quotes. -/
theorem winBuildCmdline_roundTrip_sample :
    ∃ cmdline, winBuildCmdline memory [ascii "C:\\a b\\x.exe", [], ascii "\\\"", ascii "c d\\"] = .ok cmdline
      ∧ splitCommandLine .msvc cmdline = [ascii "C:\\a b\\x.exe", [], ascii "\\\"", ascii "c d\\"] := by
  obtain ⟨⟨cmdline, hbuild, _, hsplit⟩, _⟩ := winBuildCmdline_roundTrip (ascii "C:\\a b\\x.exe")
    [[], ascii "\\\"", ascii "c d\\"] (by decide +kernel) (by decide +kernel) (by decide +kernel)
  exact ⟨cmdline, hbuild, hsplit .msvc⟩

end LibUpdate
