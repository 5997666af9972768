import LibUpdate.Foundation.Bytes

/-!
# `Foundation.Segments` — path resolution by segments

A path is split at its separators, and the segments are walked from the root: an empty segment and `.`
stay, `..` goes up, every other segment goes down. `resolvePath` does that for any test of what a separator
is, so it is the walk of a file system as well as the lexical reading of a path check.

A suffix without `..` only goes down (`resolvePath_join`): what is joined to a directory stays below it.
-/

namespace LibUpdate

def dot : Bytes := ascii "."
def dotdot : Bytes := ascii ".."

/-- One segment further. -/
def resolveStep (dir : List Bytes) (seg : Bytes) : List Bytes :=
  if seg = [] || seg = dot then dir
  else if seg = dotdot then dir.dropLast
  else dir ++ [seg]

/-- Where a path leads, from the root. -/
def resolvePath (sep : UInt8 → Bool) (p : Bytes) : List Bytes := (p.splitOnP sep).foldl resolveStep []

/-- The segments that go down. -/
def names (sep : UInt8 → Bool) (p : Bytes) : List Bytes :=
  (p.splitOnP sep).filter fun seg => seg ≠ [] && seg ≠ dot

/-- No segment is `..`. -/
def NoDotDot (sep : UInt8 → Bool) (p : Bytes) : Prop := dotdot ∉ p.splitOnP sep

instance (sep : UInt8 → Bool) (p : Bytes) : Decidable (NoDotDot sep p) :=
  inferInstanceAs (Decidable (_ ∉ _))

variable {sep fine : UInt8 → Bool} {c : UInt8} {p q base : Bytes}

theorem foldl_resolveStep {segs : List Bytes} (h : dotdot ∉ segs) (dir : List Bytes) :
    segs.foldl resolveStep dir = dir ++ segs.filter fun seg => seg ≠ [] && seg ≠ dot := by
  induction segs generalizing dir with
  | nil => exact (List.append_nil dir).symm
  | cons seg segs ih =>
      rw [List.mem_cons, not_or] at h
      rw [List.foldl_cons, ih h.2]
      unfold resolveStep
      by_cases hstay : seg = [] ∨ seg = dot
      · rw [if_pos (by simpa using hstay), List.filter_cons_of_neg (by simpa [← not_or] using hstay)]
      · rw [if_neg (by simpa using hstay), if_neg (Ne.symm h.1), List.append_assoc,
          List.filter_cons_of_pos (by simpa [← not_or] using hstay), List.singleton_append]

/-- **What is joined to a directory stays below it.** -/
theorem resolvePath_join (hc : sep c = true) (hq : NoDotDot sep q) :
    resolvePath sep (base ++ c :: q) = resolvePath sep base ++ names sep q := by
  unfold resolvePath
  rw [List.splitOnP_append_cons base q hc, List.foldl_append, foldl_resolveStep hq]
  rfl

/-! ## Paths without `..` -/

theorem noDotDot_join_iff (hc : sep c = true) :
    NoDotDot sep (p ++ c :: q) ↔ NoDotDot sep p ∧ NoDotDot sep q := by
  unfold NoDotDot
  rw [List.splitOnP_append_cons p q hc, List.mem_append, not_or]

/-- The bytes behind the last separator. -/
theorem exists_last_sep (sep : UInt8 → Bool) (p : Bytes) :
    (∀ c ∈ p, sep c = false)
      ∨ ∃ a c b, p = a ++ c :: b ∧ sep c = true ∧ ∀ d ∈ b, sep d = false := by
  induction p with
  | nil => exact Or.inl (by simp)
  | cons d p ih =>
      rcases ih with h | ⟨a, c, b, rfl, hc, hb⟩
      · cases hd : sep d with
        | false => exact Or.inl (List.forall_mem_cons.mpr ⟨hd, h⟩)
        | true => exact Or.inr ⟨[], d, p, rfl, hd, h⟩
      · exact Or.inr ⟨d :: a, c, b, rfl, hc, hb⟩

/-- Induction on a path by its last segment. -/
theorem sep_induction (sep : UInt8 → Bool) {motive : Bytes → Prop}
    (leaf : ∀ b, (∀ c ∈ b, sep c = false) → motive b)
    (node : ∀ a c b, sep c = true → (∀ d ∈ b, sep d = false) → motive a → motive (a ++ c :: b)) (p : Bytes) :
    motive p := by
  induction hn : p.length using Nat.strongRecOn generalizing p with
  | ind n ih =>
      rcases exists_last_sep sep p with h | ⟨a, c, b, rfl, hc, hb⟩
      · exact leaf p h
      · refine node a c b hc hb (ih a.length ?_ a rfl)
        rw [← hn, List.length_append, List.length_cons]
        omega

theorem splitOnP_last (hc : sep c = true) (hq : ∀ d ∈ q, sep d = false) :
    (p ++ c :: q).splitOnP sep = p.splitOnP sep ++ [q] := by
  rw [List.splitOnP_append_cons p q hc, List.splitOnP_eq_singleton hq]

/-- No segment holds a separator. -/
theorem splitOnP_no_sep (p : Bytes) : ∀ seg ∈ p.splitOnP sep, ∀ c ∈ seg, sep c = false := by
  induction p using sep_induction sep with
  | leaf b hb =>
      rw [List.splitOnP_eq_singleton hb]
      exact List.forall_mem_singleton.mpr hb
  | node a c b hc hb ih =>
      rw [splitOnP_last hc hb, List.forall_mem_append]
      exact ⟨ih, List.forall_mem_singleton.mpr hb⟩

/-- What is appended without a separator lengthens the last segment. -/
theorem noDotDot_append {ext : Bytes} (hext : ∀ c ∈ ext, sep c = false) (hlong : 2 < ext.length)
    (hp : NoDotDot sep p) : NoDotDot sep (p ++ ext) := by
  have hlast : ∀ b : Bytes, dotdot ≠ b ++ ext := by
    intro b heq
    have := congrArg List.length heq
    rw [List.length_append, show dotdot.length = 2 from rfl] at this
    omega
  have hall : ∀ b : Bytes, (∀ c ∈ b, sep c = false) → ∀ c ∈ b ++ ext, sep c = false := by
    intro b hb c hc
    exact (List.mem_append.mp hc).elim (hb c) (hext c)
  rcases exists_last_sep sep p with h | ⟨a, c, b, rfl, hc, hb⟩
  · rw [NoDotDot, List.splitOnP_eq_singleton (hall p h), List.mem_singleton]
    exact hlast p
  · rw [NoDotDot, splitOnP_last hc hb, List.mem_append, not_or] at hp
    rw [NoDotDot, List.append_assoc, List.cons_append, splitOnP_last hc (hall b hb), List.mem_append, not_or,
      List.mem_singleton]
    exact ⟨hp.1, hlast b⟩

/-- The last segment of a path: what is appended without a separator lengthens it, and it is empty where the path
    ends with a separator. -/
theorem exists_last_segment (sep : UInt8 → Bool) (p : Bytes) :
    ∃ first seg, p.splitOnP sep = first ++ [seg]
      ∧ (∀ ext : Bytes, (∀ c ∈ ext, sep c = false) → (p ++ ext).splitOnP sep = first ++ [seg ++ ext])
      ∧ (seg = [] ↔ p.getLast?.all sep = true) := by
  have hall : ∀ b ext : Bytes, (∀ c ∈ b, sep c = false) → (∀ c ∈ ext, sep c = false) →
      ∀ c ∈ b ++ ext, sep c = false := by
    intro b ext hb hext c hc
    exact (List.mem_append.mp hc).elim (hb c) (hext c)
  have hends : ∀ b : Bytes, b ≠ [] → (∀ c ∈ b, sep c = false) → b.getLast?.all sep = false := by
    intro b hne hb
    rw [List.getLast?_eq_some_getLast hne]
    exact hb _ (List.getLast_mem hne)
  rcases exists_last_sep sep p with h | ⟨a, c, b, rfl, hc, hb⟩
  · refine ⟨[], p, List.splitOnP_eq_singleton h, ?_, ?_⟩
    · intro ext hext
      exact List.splitOnP_eq_singleton (hall p ext h hext)
    · by_cases hp : p = []
      · simp [hp]
      · simp [hp, hends p hp h]
  · refine ⟨a.splitOnP sep, b, splitOnP_last hc hb, ?_, ?_⟩
    · intro ext hext
      rw [List.append_assoc, List.cons_append]
      exact splitOnP_last hc (hall b ext hb hext)
    · by_cases hempty : b = []
      · simp [hempty, hc]
      · have hlast : (a ++ c :: b).getLast? = b.getLast? := by
          rw [List.getLast?_append, List.getLast?_cons_of_ne_nil hempty, List.getLast?_eq_some_getLast hempty]
          rfl
        simp [hempty, hlast, hends b hempty hb]

/-- A long name goes down. -/
theorem resolveStep_long {ext : Bytes} (hlong : 2 < ext.length) (dir : List Bytes) (seg : Bytes) :
    resolveStep dir (seg ++ ext) = dir ++ [seg ++ ext] := by
  have hne : ∀ short : Bytes, short.length ≤ 2 → seg ++ ext ≠ short := by
    rintro short hshort rfl
    rw [List.length_append] at hshort
    omega
  have hstay : ¬ (seg ++ ext = [] ∨ seg ++ ext = dot) := not_or.mpr ⟨hne [] (by decide), hne dot (by decide)⟩
  rw [resolveStep, if_neg (by simpa using hstay), if_neg (hne dotdot (by decide))]

/-- **What is appended without a separator names something beside**: it lies in the directory in which the last
    segment is looked up, under the longer name. -/
theorem resolvePath_append {ext : Bytes} (hext : ∀ c ∈ ext, sep c = false) (hlong : 2 < ext.length) (p : Bytes) :
    ∃ dir seg, resolvePath sep p = resolveStep dir seg ∧ resolvePath sep (p ++ ext) = dir ++ [seg ++ ext] := by
  obtain ⟨first, seg, hp, happend, _⟩ := exists_last_segment sep p
  refine ⟨first.foldl resolveStep [], seg, ?_, ?_⟩
  · rw [resolvePath, hp, List.foldl_append]
    rfl
  · rw [resolvePath, happend ext hext, List.foldl_append]
    exact resolveStep_long hlong _ seg

/-- **What is appended without a separator lies inside** only where the path ends with a separator. -/
theorem resolvePath_prefix_append_iff {ext : Bytes} (hext : ∀ c ∈ ext, sep c = false) (hlong : 2 < ext.length)
    (hplain : ∀ seg ∈ p.splitOnP sep, seg ≠ dot ∧ seg ≠ dotdot) :
    resolvePath sep p <+: resolvePath sep (p ++ ext) ↔ p.getLast?.all sep = true := by
  obtain ⟨first, seg, hp, happend, hseg⟩ := exists_last_segment sep p
  obtain ⟨hdot, hdotdot⟩ := hplain seg (by rw [hp]; simp)
  have hdown : resolvePath sep (p ++ ext) = first.foldl resolveStep [] ++ [seg ++ ext] := by
    rw [resolvePath, happend ext hext, List.foldl_append]
    exact resolveStep_long hlong _ seg
  rw [← hseg, hdown, resolvePath, hp, List.foldl_append, List.foldl_cons, List.foldl_nil]
  by_cases hempty : seg = []
  · subst hempty
    exact iff_of_true (List.prefix_append _ _) rfl
  · refine iff_of_false ?_ hempty
    rw [resolveStep, if_neg (by simp [hempty, hdot]), if_neg hdotdot]
    intro hin
    have heq := hin.eq_of_length (by simp)
    have hsame : seg = seg ++ ext := (List.cons.inj (List.append_cancel_left heq)).1
    have hlen := congrArg List.length hsame
    rw [List.length_append] at hlen
    omega
/-- What is beside a path is not above it. -/
theorem resolvePath_append_not_prefix {ext : Bytes} (hext : ∀ c ∈ ext, sep c = false) (hlong : 2 < ext.length)
    (p : Bytes) : ¬ resolvePath sep (p ++ ext) <+: resolvePath sep p := by
  obtain ⟨dir, seg, hp, hbeside⟩ := resolvePath_append hext hlong p
  rw [hp, hbeside]
  intro h
  have hlen := h.length_le
  rw [List.length_append, List.length_singleton] at hlen
  unfold resolveStep at h hlen
  split at h
  · next hstay =>
    rw [if_pos hstay] at hlen
    omega
  next hstay =>
  rw [if_neg hstay] at hlen
  split at h
  · next hup =>
    rw [if_pos hup, List.length_dropLast] at hlen
    omega
  next hup =>
  -- the same place under a longer name
  have heq := h.eq_of_length (by rw [List.length_append, List.length_append, List.length_singleton,
    List.length_singleton])
  have hsame : seg ++ ext = seg := (List.cons.inj (List.append_cancel_left heq)).1
  have := congrArg List.length hsame
  rw [List.length_append] at this
  omega

/-- A word that is no segment is none either when the path is split at fewer separators. -/
theorem not_mem_splitOnP_coarsen {w : Bytes} (hsep : ∀ c, sep c = true → fine c = true)
    (hw : ∀ c ∈ w, fine c = false) (hp : w ∉ p.splitOnP fine) : w ∉ p.splitOnP sep := by
  have hleaf : ∀ b : Bytes, w ∉ b.splitOnP fine → w ≠ b := by
    rintro b hb rfl
    rw [List.splitOnP_eq_singleton hw] at hb
    simp at hb
  induction p using sep_induction sep with
  | leaf b hb =>
      rw [List.splitOnP_eq_singleton hb, List.mem_singleton]
      exact hleaf b hp
  | node a c b hc hb ih =>
      rw [List.splitOnP_append_cons a b (hsep c hc), List.mem_append, not_or] at hp
      rw [splitOnP_last hc hb, List.mem_append, not_or, List.mem_singleton]
      exact ⟨ih hp.1, hleaf b hp.2⟩

/-- A path without `..` has none either when it is split at fewer separators. -/
theorem NoDotDot.coarsen (hsep : ∀ c, sep c = true → fine c = true) (hdot : fine (ch '.') = false)
    (hp : NoDotDot fine p) : NoDotDot sep p :=
  not_mem_splitOnP_coarsen hsep (by simp [dotdot, ascii, hdot]) hp

end LibUpdate
