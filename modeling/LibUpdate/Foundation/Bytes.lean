/-!
# `Foundation.Bytes` — byte strings and the C string primitives

A `char *` is the list of the bytes from the pointer to the terminating NUL (a C string) or to an
`end` pointer (a span). Moving the pointer forward is taking a suffix of the list, so a cursor that a
C function returns is the list of the bytes that remain.

Only what `<ctype.h>` and `<string.h>` give in the C locale is here; nothing names the library under
verification.
-/

namespace LibUpdate

abbrev Bytes := List UInt8

/-- The code of an ASCII character. -/
def ch (c : Char) : UInt8 := UInt8.ofNat c.toNat

/-- A fact about every byte can be evaluated. -/
theorem forall_byte {P : UInt8 → Prop} (h : ∀ n < 256, P (UInt8.ofNat n)) (c : UInt8) : P c := by
  have hc := h c.toNat (UInt8.toNat_lt c)
  rwa [UInt8.ofNat_toNat] at hc

/-- The bytes of an ASCII string literal. -/
def ascii (s : String) : Bytes := s.toList.map ch

/-- `isspace` in the C locale: space, `\t`, `\n`, `\v`, `\f`, `\r`. -/
def isspace (c : UInt8) : Bool := c == ch ' ' || (9 ≤ c && c ≤ 13)

/-- `tolower` in the C locale. -/
def tolower (c : UInt8) : UInt8 := if ch 'A' ≤ c ∧ c ≤ ch 'Z' then c - ch 'A' + ch 'a' else c

/-- `atoi`: the decimal digits after white space and a sign, as `strtol` reads them, cut to 32 bits. -/
def atoi (s : Bytes) : Int :=
  let s := s.dropWhile isspace
  let neg := s.head? == some (ch '-')
  let digits := if neg || s.head? == some (ch '+') then s.tail else s
  let n : Int := (digits.takeWhile fun c => ch '0' ≤ c && c ≤ ch '9').foldl
    (fun n c => n * 10 + ((c - ch '0').toNat : Int)) 0
  let v := if neg then -n else n
  (max (-0x8000000000000000) (min v 0x7fffffffffffffff)).bmod 0x100000000

def crlf : Bytes := [ch '\r', ch '\n']

/-- `malloc` and `realloc` give what is asked for. -/
def memory : Nat → Bool := fun _ => true

/-- `strstr`: the suffix at the first occurrence of `needle`, if there is one. -/
def strstr (needle : Bytes) : Bytes → Option Bytes
  | [] => if needle = [] then some [] else none
  | c :: cs => if needle.isPrefixOf (c :: cs) then some (c :: cs) else strstr needle cs

/-- What a reader of a `char *` sees of `s`: the bytes before the first NUL. -/
def cstr (s : Bytes) : Bytes := s.takeWhile (· != 0)

/-- `snprintf(out, cap, ...)` of a text, with the caller's test for truncation: `none` when the text
    and its NUL do not fit. -/
def snprintf (cap : Nat) (text : Bytes) : Option Bytes :=
  if text.length ≥ cap then none else some text

theorem snprintf_eq_some {cap : Nat} {text out : Bytes} :
    snprintf cap text = some out ↔ text.length < cap ∧ out = text := by
  unfold snprintf
  split
  · next h => exact ⟨fun hc => absurd hc (by simp), fun hc => absurd hc.1 (by omega)⟩
  · next h => exact ⟨fun hc => ⟨by omega, (Option.some.inj hc).symm⟩, fun hc => by rw [hc.2]⟩

/-- `memcpy(dst + off, src, n)` for the bytes that lie in the array `dst`. -/
def memcpyAt {size : Nat} (dst : Vector UInt8 size) (off : Nat) (src : Bytes) : Vector UInt8 size :=
  Vector.ofFn fun i => if off ≤ i.val ∧ i.val < off + src.length then src.getD (i.val - off) 0 else dst[i]

/-- What is copied into an array stands behind what was there. -/
theorem take_memcpyAt {size : Nat} (dst : Vector UInt8 size) (off : Nat) (src : Bytes)
    (h : off + src.length ≤ size) :
    (memcpyAt dst off src).toList.take (off + src.length) = dst.toList.take off ++ src := by
  have hlen : (dst.toList.take off).length = off := by
    rw [List.length_take, Vector.length_toList]
    omega
  have hall : ((memcpyAt dst off src).toList.take (off + src.length)).length = off + src.length := by
    rw [List.length_take, Vector.length_toList]
    omega
  apply List.ext_getElem
  · rw [hall, List.length_append, hlen]
  · intro i hi _
    rw [hall] at hi
    have hcopy : (memcpyAt dst off src)[i]
        = if off ≤ i ∧ i < off + src.length then src.getD (i - off) 0 else dst[i] := by
      simp only [memcpyAt, Vector.getElem_ofFn]
      rfl
    rw [List.getElem_take, Vector.getElem_toList, hcopy, List.getElem_append]
    by_cases hold : i < off
    · have hout : ¬ (off ≤ i ∧ i < off + src.length) := by omega
      simp [hout, hlen, hold]
    · have hin : off ≤ i ∧ i < off + src.length := by omega
      have hsrc : i - off < src.length := by omega
      simp [hin, hlen, hold, List.getD_eq_getElem?_getD, hsrc]

/-! ## Spans

`takeWhile` and `dropWhile` are the scans of a C function: up to the first byte that fails a test. -/

theorem forall_takeWhile (p : UInt8 → Bool) (s : Bytes) : ∀ c ∈ s.takeWhile p, p c = true :=
  List.all_eq_true.mp List.all_takeWhile

theorem head?_dropWhile (p : UInt8 → Bool) (s : Bytes) : ∀ c ∈ (s.dropWhile p).head?, p c = false := by
  intro c hc
  have h := List.head?_dropWhile_not p s
  rw [Option.mem_def.mp hc] at h
  simpa using h

/-- Where the test holds in `v` and fails at what follows, the scan stops behind `v`. -/
theorem dropWhile_span {p : UInt8 → Bool} {v rest : Bytes} (hv : ∀ c ∈ v, p c = true)
    (hrest : ∀ c ∈ rest.head?, p c = false) : (v ++ rest).dropWhile p = rest := by
  rw [List.dropWhile_append_of_pos hv]
  cases rest with
  | nil => rfl
  | cons c rest => rw [List.dropWhile_cons_of_neg (by simp [hrest c rfl])]

theorem takeWhile_span {p : UInt8 → Bool} {v rest : Bytes} (hv : ∀ c ∈ v, p c = true)
    (hrest : ∀ c ∈ rest.head?, p c = false) : (v ++ rest).takeWhile p = v := by
  rw [List.takeWhile_append_of_pos hv]
  cases rest with
  | nil => exact List.append_nil v
  | cons c rest => rw [List.takeWhile_cons_of_neg (by simp [hrest c rfl]), List.append_nil]

/-- A scan that takes nothing stops at the first byte. -/
theorem dropWhile_eq_self {p : UInt8 → Bool} {c : UInt8} {s : Bytes} (h : p c = false) :
    (c :: s).dropWhile p = c :: s :=
  List.dropWhile_cons_of_neg (by simp [h])

theorem head_of_dropWhile_eq_self {p : UInt8 → Bool} {c : UInt8} {s : Bytes}
    (h : (c :: s).dropWhile p = c :: s) : p c = false :=
  head?_dropWhile p (c :: s) c (by rw [h]; rfl)

/-! ## C strings -/

theorem cstr_cons {c : UInt8} (hc : c ≠ 0) (s : Bytes) : cstr (c :: s) = c :: cstr s :=
  List.takeWhile_cons_of_pos (by simpa using hc)

/-- A reader sees all of a text without NUL. -/
theorem cstr_eq_self {s : Bytes} (h : (0 : UInt8) ∉ s) : cstr s = s := by
  induction s with
  | nil => rfl
  | cons c s ih =>
      rw [List.mem_cons, not_or] at h
      rw [cstr_cons (Ne.symm h.1), ih h.2]

theorem nul_not_mem_cstr (s : Bytes) : (0 : UInt8) ∉ cstr s := by
  intro h
  have := forall_takeWhile (· != 0) s 0 h
  simp at this

/-! ## `strstr` -/

theorem strstr_cons {needle : Bytes} {c : UInt8} {cs : Bytes} :
    strstr needle (c :: cs)
      = if needle.isPrefixOf (c :: cs) then some (c :: cs) else strstr needle cs := rfl

/-- The needle itself is found at once. -/
theorem strstr_prefix {needle rest : Bytes} : strstr needle (needle ++ rest) = some (needle ++ rest) := by
  cases hn : needle ++ rest with
  | nil =>
      obtain ⟨h, _⟩ := List.append_eq_nil_iff.mp hn
      simp [strstr, h]
  | cons c cs =>
      have hp : needle.isPrefixOf (c :: cs) = true := by
        rw [List.isPrefixOf_iff_prefix, ← hn]
        exact List.prefix_append needle rest
      rw [strstr_cons, if_pos hp]

/-- A byte at which the needle does not start is stepped over. -/
theorem strstr_skip {needle : Bytes} {c : UInt8} {cs : Bytes} (h : ¬ needle <+: c :: cs) :
    strstr needle (c :: cs) = strstr needle cs := by
  rw [strstr_cons, if_neg]
  rwa [List.isPrefixOf_iff_prefix]

/-- What is found is the first occurrence: no prefix that ends before it holds the needle. -/
theorem strstr_eq_some {needle s e : Bytes} (h : strstr needle s = some e) :
    ∃ pre, s = pre ++ e ∧ needle <+: e
      ∧ ∀ p, p <+: s → p.length < pre.length + needle.length → ¬ needle <:+: p := by
  induction s with
  | nil =>
      unfold strstr at h
      split at h
      · next hn =>
        cases h
        exact ⟨[], rfl, by simp [hn], fun p _ hlt => absurd hlt (by simp [hn])⟩
      · cases h
  | cons c cs ih =>
      by_cases hp : needle <+: c :: cs
      · rw [strstr_cons, if_pos (List.isPrefixOf_iff_prefix.mpr hp)] at h
        cases h
        refine ⟨[], rfl, hp, ?_⟩
        intro p _ hlt hin
        exact absurd hin.length_le (by simpa using hlt)
      · rw [strstr_skip hp] at h
        obtain ⟨pre, rfl, hpre, hfirst⟩ := ih h
        refine ⟨c :: pre, rfl, hpre, ?_⟩
        intro p hps hlt hin
        cases p with
        | nil => exact hp ((List.eq_nil_of_infix_nil hin) ▸ List.nil_prefix)
        | cons d p =>
            rcases List.infix_cons_iff.mp hin with hhead | htail
            · exact hp (hhead.trans hps)
            · rw [List.length_cons, List.length_cons] at hlt
              exact hfirst p (List.cons_prefix_cons.mp hps).2 (by omega) htail

theorem strstr_length {needle s e : Bytes} (h : strstr needle s = some e) :
    needle.length ≤ e.length ∧ e.length ≤ s.length := by
  obtain ⟨pre, rfl, hpre, _⟩ := strstr_eq_some h
  exact ⟨hpre.length_le, by rw [List.length_append]; omega⟩

/-- The needle is found where nothing that ends earlier holds it. -/
theorem strstr_first {needle pre e : Bytes} (hpre : needle <+: e)
    (hfirst : ∀ p, p <+: pre ++ e → p.length < pre.length + needle.length → ¬ needle <:+: p) :
    strstr needle (pre ++ e) = some e := by
  induction pre with
  | nil =>
      obtain ⟨rest, rfl⟩ := hpre
      exact strstr_prefix
  | cons c pre ih =>
      have hmiss : ¬ needle <+: c :: (pre ++ e) := fun hp =>
        hfirst needle hp (by rw [List.length_cons]; omega) (List.infix_refl _)
      rw [List.cons_append, strstr_skip hmiss]
      refine ih fun p hp hlt hin => ?_
      exact hfirst (c :: p) (List.cons_prefix_cons.mpr ⟨rfl, hp⟩)
        (by rw [List.length_cons, List.length_cons]; omega) (List.infix_cons hin)

theorem strstr_none_iff {needle s : Bytes} : strstr needle s = none ↔ ¬ needle <:+: s := by
  constructor
  · intro h hin
    obtain ⟨pre, post, rfl⟩ := hin
    induction pre with
    | nil =>
        rw [List.nil_append, strstr_prefix] at h
        cases h
    | cons c pre ih =>
        by_cases hp : needle <+: c :: (pre ++ needle ++ post)
        · rw [List.cons_append, List.cons_append, strstr_cons, if_pos (List.isPrefixOf_iff_prefix.mpr hp)] at h
          cases h
        · rw [List.cons_append, List.cons_append, strstr_skip hp] at h
          exact ih h
  · intro h
    cases hs : strstr needle s with
    | none => rfl
    | some e =>
        obtain ⟨pre, rfl, hpre, _⟩ := strstr_eq_some hs
        exact absurd (hpre.isInfix.trans (List.suffix_append pre e).isInfix) h

/-- What is found in the front of a text is found in the text. -/
theorem strstr_append {needle s e : Bytes} (h : strstr needle s = some e) (t : Bytes) :
    strstr needle (s ++ t) = some (e ++ t) := by
  obtain ⟨pre, rfl, hpre, hfirst⟩ := strstr_eq_some h
  rw [List.append_assoc]
  refine strstr_first (hpre.trans (List.prefix_append e t)) fun p hp hlt => hfirst p ?_ hlt
  refine List.prefix_of_prefix_length_le hp ?_ ?_
  · rw [← List.append_assoc]
    exact List.prefix_append _ _
  · have := hpre.length_le
    rw [List.length_append]
    omega

/-! ## Lines -/

/-- A byte behind which no line ends. -/
theorem not_crlf_suffix_concat {x : Bytes} {c : UInt8} (hc : c ≠ ch '\n') : ¬ crlf <:+ x ++ [c] := by
  rintro ⟨y, hy⟩
  have hlast := congrArg List.getLast? hy
  rw [List.getLast?_append, List.getLast?_append] at hlast
  exact hc (Option.some.inj hlast).symm

/-- A line ends at the CRLF behind it. -/
theorem strstr_crlf {x : Bytes} (rest : Bytes) (hx : ¬ crlf <:+: x) :
    strstr crlf (x ++ (crlf ++ rest)) = some (crlf ++ rest) := by
  refine strstr_first (List.prefix_append _ _) fun p hp hlt hin => ?_
  have hp' : p <+: x ++ [ch '\r'] := by
    refine List.prefix_of_prefix_length_le hp ⟨ch '\n' :: rest, by simp [crlf]⟩ ?_
    rw [List.length_append, List.length_singleton]
    have : crlf.length = 2 := rfl
    omega
  have hin' := hin.trans hp'.isInfix
  rw [List.infix_concat_iff] at hin'
  exact hin'.elim (not_crlf_suffix_concat (by decide)) hx

end LibUpdate
