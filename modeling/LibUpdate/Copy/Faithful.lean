import LibUpdate.Copy.Walk

/-!
# `Copy.Faithful` — what a copy that succeeds leaves at the destination

Path by path: where the source, with its files under the names that they get, has a file, a file is there, and
the trace says whether it holds what the source does (`CopiedAt`); elsewhere the content is as it was. The entries
of a directory come to different names, so that what one of them leaves is not touched by the next (`NamesCopied`),
and a directory is put together from its entries (`TreeCopied`).

`update_copy_tree` does not look at what `fclose` answers, so that its copy is faithful where all was stored.
-/

namespace LibUpdate

namespace Copy

/-- The content that is found at a path of the source, with its files under the names that they get. -/
def copyOf (overlay : Bool) (s : Volume) (S q : List Bytes) : Option Bytes :=
  (s.1.relabelled (leafOf overlay) S q).map FileNode.data

/-- At a place of the destination: the content `v` of the source, or what was there. -/
def CopiedAt (v old new : Option Bytes) (stored : Option Bool) : Prop :=
  match v with
  | none => new = old ∧ stored = none
  | some data => ∃ part, new = some part ∧ stored = some (part == data)

/-- Nothing has come to a path: its content is as it was, and no file was closed there. A copy leaves everything so
    that is not among what it copies. -/
def UntouchedAt (s t : Volume) (tr : List (List Bytes × Bool)) (q : List Bytes) : Prop :=
  dataAt t.1 q = dataAt s.1 q ∧ lastClose tr q = none

/-- The entries under these names are copied. It is the invariant of the loop over `readdir`, with the names done so
    far. -/
structure NamesCopied (overlay : Bool) (S D : List Bytes) (s₀ : Volume) (names : List Bytes) (s t : Volume)
    (tr : List (List Bytes × Bool)) : Prop where
  inside : ∀ x ∈ names, ∀ r, CopiedAt (copyOf overlay s₀ S (s₀.1.target (leafOf overlay) S x :: r))
    (dataAt s.1 (D ++ s₀.1.target (leafOf overlay) S x :: r)) (dataAt t.1 (D ++ s₀.1.target (leafOf overlay) S x :: r))
    (lastClose tr (D ++ s₀.1.target (leafOf overlay) S x :: r))
  outside : ∀ q, (∀ x ∈ names, ¬ D ++ [s₀.1.target (leafOf overlay) S x] <+: q) → UntouchedAt s t tr q

/-- The tree is copied: each file is at its place in the destination with its content, and nothing else has come
    there. -/
structure TreeCopied (overlay : Bool) (S D : List Bytes) (s₀ s t : Volume) (tr : List (List Bytes × Bool)) :
    Prop where
  source : s₀.1.isDir S = true
  inside : ∀ q, CopiedAt (copyOf overlay s₀ S q) (dataAt s.1 (D ++ q)) (dataAt t.1 (D ++ q)) (lastClose tr (D ++ q))
  outside : ∀ q, ¬ D <+: q → UntouchedAt s t tr q

variable {newMode : Nat} {A : Event Op Outcome Volume → Prop} {overlay : Bool} {src dst x y : Bytes}
  {S D q : List Bytes} {s₀ s t u : Volume} {tr tr' : List (List Bytes × Bool)} {names : List Bytes}

/-- What is found at a path is a file of the source whose name comes to the last name of the path. -/
theorem copyOf_isSome (h : (copyOf overlay s S q).isSome) :
    ∃ way x, q = way ++ [leafOf overlay x] ∧ (s.1.get (S ++ (way ++ [x]))).isSome := by
  rw [copyOf, Option.isSome_map] at h
  obtain ⟨f, hf⟩ := Option.isSome_iff_exists.mp h
  obtain ⟨way, x, heq, hx⟩ := FileTree.relabelled_eq_some hf
  rw [List.append_assoc] at hx
  exact ⟨way, x, heq, FileTree.isSome_of_fileAt hx⟩

/-! ## Putting copies together -/

theorem UntouchedAt.trans (h : UntouchedAt s t tr q) (h' : UntouchedAt t u tr' q) :
    UntouchedAt s u (tr ++ tr') q :=
  ⟨h'.1.trans h.1, by rw [lastClose_append, h'.2, h.2]; rfl⟩

/-- What is untouched before is as it was. -/
theorem CopiedAt.after {v : Option Bytes} (h : UntouchedAt s t tr q)
    (h' : CopiedAt v (dataAt t.1 q) (dataAt u.1 q) (lastClose tr' q)) :
    CopiedAt v (dataAt s.1 q) (dataAt u.1 q) (lastClose (tr ++ tr') q) := by
  rw [lastClose_append, h.2, Option.or_none, ← h.1]
  exact h'

/-- What is untouched afterwards stays. -/
theorem CopiedAt.before {v : Option Bytes} (h : CopiedAt v (dataAt s.1 q) (dataAt t.1 q) (lastClose tr q))
    (h' : UntouchedAt t u tr' q) : CopiedAt v (dataAt s.1 q) (dataAt u.1 q) (lastClose (tr ++ tr') q) := by
  rw [lastClose_append, h'.2, Option.none_or, h'.1]
  exact h

theorem entry_prefix_iff {r : List Bytes} : D ++ [x] <+: D ++ y :: r ↔ x = y := by
  rw [List.prefix_append_right_inj, List.cons_prefix_cons]
  exact and_iff_left (List.nil_prefix)

theorem NamesCopied.nil (overlay : Bool) (S D : List Bytes) (s₀ s : Volume) :
    NamesCopied overlay S D s₀ [] s s [] := by
  refine ⟨?_, fun _ _ => ⟨rfl, rfl⟩⟩
  intro x hx
  cases hx

/-- **One entry after the other**: they come to different names. -/
theorem NamesCopied.cons (h : NamesCopied overlay S D s₀ [x] s t tr)
    (h' : NamesCopied overlay S D s₀ names t u tr')
    (hne : ∀ y ∈ names, s₀.1.target (leafOf overlay) S x ≠ s₀.1.target (leafOf overlay) S y) :
    NamesCopied overlay S D s₀ (x :: names) s u (tr ++ tr') := by
  constructor
  · intro y hy r
    rcases List.mem_cons.mp hy with rfl | hy
    · apply (h.inside y List.mem_cons_self r).before
      apply h'.outside
      intro z hz hprefix
      exact hne z hz (entry_prefix_iff.mp hprefix).symm
    · apply CopiedAt.after _ (h'.inside y hy r)
      apply h.outside
      intro z hz hprefix
      rw [List.mem_singleton.mp hz] at hprefix
      exact hne y hy (entry_prefix_iff.mp hprefix)
  · intro q hq
    obtain ⟨hx, hnames⟩ := List.forall_mem_cons.mp hq
    exact (h.outside q (List.forall_mem_singleton.mpr hx)).trans (h'.outside q hnames)

/-- A directory that is copied is an entry that is copied. -/
theorem TreeCopied.entry (hdistinct : s₀.1.DistinctIn (leafOf overlay) S)
    (h : TreeCopied overlay (S ++ [x]) (D ++ [x]) s₀ s t tr) : NamesCopied overlay S D s₀ [x] s t tr := by
  have htarget : s₀.1.target (leafOf overlay) S x = x := FileTree.target_of_isDir h.source
  constructor
  · intro y hy r
    obtain rfl := List.mem_singleton.mp hy
    have hinside := h.inside r
    rw [htarget, copyOf, FileTree.relabelled_dir hdistinct h.source]
    rwa [List.append_assoc] at hinside
  · intro q hq
    have hbelow := List.forall_mem_singleton.mp hq
    rw [htarget] at hbelow
    exact h.outside q hbelow

/-- A file that is copied is an entry that is copied. -/
theorem FileEnds.entry (hdistinct : s₀.1.DistinctIn (leafOf overlay) S) (hkept : Kept S s₀ s)
    (h : FileEnds (S ++ [x]) (D ++ [leafOf overlay x]) s true tr t) : NamesCopied overlay S D s₀ [x] s t tr := by
  obtain ⟨data, part, hsource, hpart, rfl⟩ := h.copied rfl
  rw [dataAt_congr (hkept _ (List.prefix_append _ _))] at hsource
  obtain ⟨f, hf, rfl⟩ := Option.map_eq_some_iff.mp hsource
  have htarget : s₀.1.target (leafOf overlay) S x = leafOf overlay x :=
    FileTree.target_of_file (FileTree.isDir_of_fileAt hf)
  have hother : ∀ q, q ≠ D ++ [leafOf overlay x] → UntouchedAt s t [(D ++ [leafOf overlay x], part == f.data)] q :=
    fun q hq => ⟨dataAt_congr (h.same q hq), lastClose_singleton_ne hq _⟩
  constructor
  · intro y hy r
    obtain rfl := List.mem_singleton.mp hy
    rw [htarget, copyOf, FileTree.relabelled_file s₀.2.tree hdistinct hf]
    cases r with
    | nil => exact ⟨part, hpart, lastClose_singleton _ _⟩
    | cons z r =>
        apply hother
        intro heq
        have hlen := congrArg List.length heq
        simp at hlen
  · intro q hq
    apply hother
    rintro rfl
    apply hq x List.mem_cons_self
    exact htarget ▸ List.prefix_refl _

/-- **A directory from its entries.** -/
theorem NamesCopied.tree (hdir : s₀.1.isDir S = true)
    (hall : ∀ x, (s₀.1.get (S ++ [x])).isSome → x ∈ names) (h : NamesCopied overlay S D s₀ names s t tr) :
    TreeCopied overlay S D s₀ s t tr := by
  refine ⟨hdir, ?_, ?_⟩
  · intro q
    cases q with
    | nil =>
        apply h.outside
        intro x _ hprefix
        have hlen := hprefix.length_le
        rw [List.length_append, List.length_append, List.length_singleton, List.length_nil] at hlen
        omega
    | cons y r =>
        by_cases hy : ∃ x ∈ names, s₀.1.target (leafOf overlay) S x = y
        · obtain ⟨x, hx, rfl⟩ := hy
          exact h.inside x hx r
        · have hnone : copyOf overlay s₀ S (y :: r) = none := by
            rw [copyOf, FileTree.relabelled_eq_none s₀.2.tree]
            · rfl
            · intro x hx htarget
              exact hy ⟨x, hall x hx, htarget⟩
          rw [hnone]
          apply h.outside
          intro x hx hprefix
          exact hy ⟨x, hx, entry_prefix_iff.mp hprefix⟩
  · intro q hq
    apply h.outside
    intro x _ hprefix
    exact hq (below_of_entry hprefix)

/-- What was made before it is no content. -/
theorem TreeCopied.after_made (hgrown : Grown s.1 t.1) (h : TreeCopied overlay S D s₀ t u tr) :
    TreeCopied overlay S D s₀ s u tr := by
  have hsame : ∀ q, dataAt t.1 q = dataAt s.1 q := hgrown.dataAt_eq
  refine ⟨h.source, ?_, ?_⟩
  · intro q
    rw [← hsame]
    exact h.inside q
  · intro q hq
    rw [UntouchedAt, ← hsame]
    exact h.outside q hq

/-! ## The walk -/

/-- **The tree is copied**, where a walk succeeds and the entries of each directory come to different names. -/
theorem copyTreeAt_copied (depth : Nat) (src dst : Bytes) (hapart : Apart src dst)
    (hdistinct : s₀.1.Distinct (leafOf overlay) (fsPath src)) (s : Volume) (hkept : Kept (fsPath src) s₀ s) :
    Copies newMode A (copyTreeAt overlay false depth src dst)
      (fun ok tr t => ok = true → TreeCopied overlay (fsPath src) (fsPath dst) s₀ s t tr) s := by
  have hrule : Copies newMode A (copyTreeAt overlay false depth src dst) (fun ok tr t => ok = true →
      s₀.1.Distinct (leafOf overlay) (fsPath src) → TreeCopied overlay (fsPath src) (fsPath dst) s₀ s t tr) s := by
    apply copyTreeAt_rule s₀
      (fun S D s tr t => s₀.1.Distinct (leafOf overlay) S → TreeCopied overlay S D s₀ s t tr)
      (fun S D xs s tr t => s₀.1.Distinct (leafOf overlay) S → NamesCopied overlay S D s₀ xs s t tr)
      _ _ _ _ _ depth src dst hapart s hkept
    · intro S D x s tr t hkept hends hdistinct
      exact hends.entry hdistinct.here hkept
    · intro S D x s tr t htree hdistinct
      exact (htree (hdistinct.below x)).entry hdistinct.here
    · intro S D s _
      exact .nil _ _ _ _ _
    · intro S D x xs s t u tr tr' hnotin hsome hx hxs hdistinct
      apply (hx hdistinct).cons (hxs hdistinct)
      intro y hy heq
      -- two entries with one name are one
      have hsame := hdistinct.here x y (hsome x List.mem_cons_self) (hsome y (List.mem_cons_of_mem x hy)) heq
      exact hnotin (hsame ▸ hy)
    · intro S D xs s t tr u hgrown hdir hall hxs hdistinct
      exact ((hxs hdistinct).tree hdir hall).after_made hgrown
  apply hrule.mono
  intro ok tr t h hok
  exact h hok hdistinct

/-- The passes over a tree: what each of them keeps, and what one that succeeds shows, whatever was shown before. -/
theorem copyPasses_copies {soft : Bool} {inv : Volume → Prop} {Q : List (List Bytes × Bool) → Volume → Prop}
    (hmore : ∀ tr tr' t, Q tr' t → Q (tr ++ tr') t)
    (hpass : ∀ s, inv s → Copies newMode A (copyTreePosix overlay soft src dst)
      (fun ok tr t => inv t ∧ (ok = true → Q tr t)) s) (n : Nat) (s : Volume) (hs : inv s) :
    Copies newMode A (copyPasses overlay soft src dst n) (fun status tr t => inv t ∧ (status = .ok → Q tr t)) s := by
  induction n generalizing s with
  | zero => exact ⟨hs, fun hok => by cases hok⟩
  | succ n ih =>
      apply (hpass s hs).seq
      rintro copied tr t ⟨ht, hq⟩
      cases copied with
      | true =>
          refine ⟨ht, fun _ => ?_⟩
          rw [List.append_nil]
          exact hq rfl
      | false => exact (ih t ht).mono fun _ _ u hu => ⟨hu.1, fun hok => hmore _ _ u (hu.2 hok)⟩

/-- The functions over `copy_tree_posix` have the passes of one. -/
theorem copyTreeWith_copies {soft : Bool} {inv : Volume → Prop} {Q : List (List Bytes × Bool) → Volume → Prop}
    (hmore : ∀ tr tr' t, Q tr' t → Q (tr ++ tr') t)
    (hpass : ∀ s, inv s → Copies newMode A (copyTreePosix overlay soft src dst)
      (fun ok tr t => inv t ∧ (ok = true → Q tr t)) s) (s : Volume) (hs : inv s) :
    Copies newMode A (copyTreeWith overlay soft src dst) (fun status tr t => inv t ∧ (status = .ok → Q tr t)) s := by
  unfold copyTreeWith
  split
  · exact ⟨hs, fun hok => by cases hok⟩
  · exact copyPasses_copies hmore hpass 8 s hs

/-- A source that lies apart is kept, and the last pass has copied the tree. -/
theorem copyTreeWith_copied (hapart : Apart src dst) (hdistinct : s.1.Distinct (leafOf overlay) (fsPath src)) :
    Copies newMode A (copyTreeWith overlay false src dst) (fun status tr t => Kept (fsPath src) s t
      ∧ (status = .ok → ∃ s' tr₁ tr₂, tr = tr₁ ++ tr₂
        ∧ TreeCopied overlay (fsPath src) (fsPath dst) s s' t tr₂)) s := by
  apply copyTreeWith_copies _ _ s (.refl _ s)
  · rintro tr tr' t ⟨s', tr₁, tr₂, rfl, hcopied⟩
    exact ⟨s', tr ++ tr₁, tr₂, (List.append_assoc _ _ _).symm, hcopied⟩
  · intro s' hs'
    apply ((copyTreeAt_copied pathMax src dst hapart hdistinct s' hs').both
      (copyTreeAt_within pathMax src dst hapart s')).mono
    rintro ok tr t ⟨hcopied, hwithin⟩
    exact ⟨hs'.trans (hwithin.kept hapart), fun hok => ⟨s', [], tr, rfl, hcopied hok⟩⟩

end Copy

open Copy (Apart Outcome device closed lastClose)

/-! ## `update_copy_tree` -/

/-- Under their own names the files are found where they are. -/
theorem copyOf_own_names {s : Volume} {S q : List Bytes} (hS : s.1.isDir S = true) :
    Copy.copyOf false s S q = dataAt s.1 (S ++ q) := by
  have hid : Copy.leafOf false = id := rfl
  rw [Copy.copyOf, hid]
  cases q with
  | nil =>
      rw [List.append_nil, dataAt, FileTree.fileAt_eq_none_of_isDir s.2.tree hS]
      rfl
  | cons y r => rw [FileTree.relabelled_id, dataAt]

/-- What `update_copy_tree` leaves, whatever fails. -/
theorem updateCopyTree_copied {newMode : Nat} {src dst : Bytes} {s : Volume} (hapart : Apart src dst) :
    Copy.Copies newMode (fun _ => True) (updateCopyTree src dst) (fun status tr t => Copy.Kept (fsPath src) s t
      ∧ (status = .ok → ∃ s' tr₁ tr₂, tr = tr₁ ++ tr₂
        ∧ Copy.TreeCopied false (fsPath src) (fsPath dst) s s' t tr₂)) s :=
  Copy.copyTreeWith_copied hapart (FileTree.distinct_id s.1 (fsPath src))

/-- The last `fclose` of a file at this path that was written to its end has stored all of it. -/
def StoredLast {α : Type} (r : Run Copy.Op Outcome Volume α) (p : List Bytes) : Prop :=
  lastClose (r.trace closed) p = some true

/-- **A reported copy is a faithful copy exactly where all was stored.** Let the destination lie apart from the source.
    Whatever was there before and whatever fails, if `update_copy_tree` returns `UPDATE_OK`, then the files of the
    source are at the destination with their bytes if and only if of each of them the last `fclose` has stored what
    was written: its answer is not looked at. So they are where no flush fails. -/
theorem updateCopyTree_faithful_iff (newMode : Nat) (src dst : Bytes) (s : Volume) (es : List Outcome)
    (hapart : Apart src dst)
    (hok : ((device newMode).run (updateCopyTree src dst) es s).result = some .ok) :
    ((∀ q data, dataAt s.1 (fsPath src ++ q) = some data →
        dataAt ((device newMode).run (updateCopyTree src dst) es s).final.1 (fsPath dst ++ q) = some data)
      ↔ ∀ q data, dataAt s.1 (fsPath src ++ q) = some data →
          StoredLast ((device newMode).run (updateCopyTree src dst) es s) (fsPath dst ++ q))
    ∧ ((∀ e ∈ es, ∀ path written, e (.fclose path written) = none) →
        ∀ q data, dataAt s.1 (fsPath src ++ q) = some data →
          dataAt ((device newMode).run (updateCopyTree src dst) es s).final.1 (fsPath dst ++ q) = some data) := by
  obtain ⟨_, hends⟩ := (updateCopyTree_copied hapart).sound (fun _ _ => trivial) hok
  obtain ⟨s', tr₁, tr₂, htrace, hcopied⟩ := hends rfl
  have hstored : ∀ q data, dataAt s.1 (fsPath src ++ q) = some data →
      ∃ part, dataAt ((device newMode).run (updateCopyTree src dst) es s).final.1 (fsPath dst ++ q) = some part
        ∧ lastClose (((device newMode).run (updateCopyTree src dst) es s).trace closed) (fsPath dst ++ q)
          = some (part == data) := by
    intro q data hdata
    have hinside := hcopied.inside q
    rw [copyOf_own_names hcopied.source, hdata] at hinside
    obtain ⟨part, hpart, hlast⟩ := hinside
    refine ⟨part, hpart, ?_⟩
    rw [htrace, Copy.lastClose_append, hlast, Option.some_or]
  refine ⟨forall₂_congr fun q data => imp_congr_right fun hdata => ?_, ?_⟩
  · obtain ⟨part, hpart, hlast⟩ := hstored q data hdata
    rw [hpart, StoredLast, hlast]
    constructor
    · intro h
      rw [Option.some.inj h, beq_self_eq_true]
    · intro h
      rw [eq_of_beq (Option.some.inj h)]
  · intro hflushed q data hdata
    obtain ⟨part, hpart, hlast⟩ := hstored q data hdata
    obtain ⟨ev, hev, hmem⟩ := List.mem_flatMap.mp (Copy.mem_of_lastClose hlast)
    have hbeq := Copy.closed_stored ev (hflushed _ ((device newMode).outcome_mem hev)) _ hmem
    rw [hpart, eq_of_beq hbeq]

/-! ### Two disks -/

/-- Nothing fails; the names come as they are stored. -/
def nothingFailing : Outcome
  | .fs _ => okOutcome
  | .opendir _ => some ([], none)
  | .stat _ | .fopenRead _ | .fopenWrite _ | .remove _ => true
  | .fread _ _ | .fclose _ _ => none
  | .fwrite _ _ => (true, [])

/-- The disk is full: what is written stays in the buffers, and the flush has no room for it. -/
def diskFull : Outcome
  | .fs _ => okOutcome
  | .opendir _ => some ([], none)
  | .stat _ | .fopenRead _ | .fopenWrite _ | .remove _ => true
  | .fread _ _ => none
  | .fclose _ _ => some []
  | .fwrite _ _ => (true, [])

/-- A file system with the directory `/s`, and in it the program `/s/a`. -/
def sampleVolume : Volume :=
  (Volume.empty.put (ascii "/s") .dir (by decide +kernel)).put (ascii "/s/a") (.file ⟨ascii "#!", 0o755⟩)
    (by decide +kernel)

theorem sample_apart : Apart (ascii "/s") (ascii "/d") := by
  refine ⟨?_, ?_⟩
  · decide +kernel
  · decide +kernel

theorem updateCopyTree_faithful_sample :
    dataAt ((device 0o644).run (updateCopyTree (ascii "/s") (ascii "/d")) (List.replicate 20 nothingFailing)
      sampleVolume).final.1 (fsPath (ascii "/d") ++ [ascii "a"]) = some (ascii "#!") := by
  refine (updateCopyTree_faithful_iff 0o644 (ascii "/s") (ascii "/d") sampleVolume _ sample_apart
    (by decide +kernel)).2 ?_ [ascii "a"] (ascii "#!") (by decide +kernel)
  intro e he path written
  rw [List.eq_of_mem_replicate he]
  rfl

/-- The flush of the only file fails, and the copy is reported to be complete; the program is empty. -/
theorem updateCopyTree_reports_lost_data :
    Apart (ascii "/s") (ascii "/d")
      ∧ ((device 0o644).run (updateCopyTree (ascii "/s") (ascii "/d")) (List.replicate 20 diskFull) sampleVolume).result
          = some .ok
      ∧ dataAt sampleVolume.1 (fsPath (ascii "/s") ++ [ascii "a"]) = some (ascii "#!")
      ∧ dataAt ((device 0o644).run (updateCopyTree (ascii "/s") (ascii "/d")) (List.replicate 20 diskFull)
          sampleVolume).final.1 (fsPath (ascii "/d") ++ [ascii "a"]) = some [] := by
  refine ⟨sample_apart, ?_, ?_, ?_⟩
  · decide +kernel
  · decide +kernel
  · decide +kernel

end LibUpdate
