import LibUpdate.Copy.Steps

/-!
# `Copy.Walk` — walking a tree, and what a walk leaves alone

`copyEntry_copies`, `copyEntries_copies` and `copyTreeAt_copies` say what there is to show of a walk: of an entry
that is a directory and of one that is a file, of the next entry, of the directory that is entered. The first use
is the frame of a walk (`Within`): it changes nothing but what is at the destination and below it, and makes
directories on the way there. A source that lies apart stays as it is, and what a walk that succeeds leaves is shown
by induction on the source (`copyTreeAt_rule`).
-/

namespace LibUpdate

namespace Copy

variable {newMode : Nat} {A : Event Op Outcome Volume → Prop} {overlay soft : Bool} {src dst x y : Bytes}
  {s t u : Volume}

/-! ## Listings -/

/-- What `readdir` gives of a directory, without `.` and `..`: each name that is there once, in any order. What is
    proved of a walk holds in every such order. -/
structure Listing (t : Fs) (dir names : List Bytes) (failed : Bool) : Prop where
  isDir : t.isDir dir = true
  nodup : names.Nodup
  sound : ∀ x ∈ names, FileName x ∧ (t.get (dir ++ [x])).isSome
  complete : failed = false → ∀ x, (t.get (dir ++ [x])).isSome → x ∈ names

theorem isEntry_of_fileName (hx : FileName x) : isEntry x = true := by
  rw [isEntry, Bool.and_eq_true, bne_iff_ne, bne_iff_ne]
  exact ⟨hx.2.1, hx.2.2.1⟩

theorem fileName_of_child {t : Fs} (ht : Posix t) {dir : List Bytes} (hx : (t.get (dir ++ [x])).isSome) :
    FileName x := by
  obtain ⟨n, hn⟩ := Option.isSome_iff_exists.mp hx
  exact ht.names _ n hn x (List.mem_append_right _ List.mem_cons_self)

/-- Whatever the order, the names are those in the directory. -/
theorem enumerate_perm (order names : List Bytes) (hnames : ∀ x ∈ names, isEntry x = true) :
    ((enumerate order names).filter isEntry).Perm names := by
  unfold enumerate
  split
  · next hperm => exact List.isPerm_iff.mp hperm
  · rw [List.filter_eq_self.mpr hnames]

theorem stepOpendir_listing {t : Fs} (ht : Posix t) {path : Bytes} {e : Option (List Bytes × Option Nat)}
    {names : List Bytes} {failed : Bool} (h : stepOpendir path e t = some (names, failed)) :
    Listing t (fsPath path) (names.filter isEntry) failed := by
  have hchild : ∀ x ∈ t.children (fsPath path), FileName x ∧ (t.get (fsPath path ++ [x])).isSome := by
    intro x hx
    have hget := FileTree.mem_children.mp hx
    exact ⟨fileName_of_child ht hget, hget⟩
  have hperm (order : List Bytes) := enumerate_perm order (t.children (fsPath path))
    fun x hx => isEntry_of_fileName (hchild x hx).1
  have hnodup (order : List Bytes) := (hperm order).nodup_iff.mpr (FileTree.nodup_children t (fsPath path))
  unfold stepOpendir at h
  split at h
  · cases h
  next order failsAfter =>
  split at h
  · next hdir =>
    cases failsAfter with
    | none =>
        cases h
        refine ⟨hdir, hnodup order, fun x hx => hchild x ((hperm order).mem_iff.mp hx), ?_⟩
        intro _ x hx
        exact (hperm order).mem_iff.mpr (FileTree.mem_children.mpr hx)
    | some n =>
        cases h
        -- `readdir` has failed before the end
        have hsub := (List.take_sublist n (enumerate order (t.children (fsPath path)))).filter isEntry
        refine ⟨hdir, (hnodup order).sublist hsub, ?_, fun hfailed => by cases hfailed⟩
        intro x hx
        exact hchild x ((hperm order).mem_iff.mp (hsub.subset hx))
  · cases h

/-- The loop passes over `.` and `..`. -/
theorem copyEntries_filter (copyDir : Bytes → Bytes → CopyProg Bool) (names : List Bytes) :
    copyEntries copyDir overlay soft src dst names
      = copyEntries copyDir overlay soft src dst (names.filter isEntry) := by
  induction names with
  | nil => rfl
  | cons x names ih =>
      by_cases hx : isEntry x = true
      · rw [List.filter_cons_of_pos hx, copyEntries, copyEntries, if_pos hx, if_pos hx, ih]
      · rw [List.filter_cons_of_neg hx, copyEntries, if_neg hx, ih]

/-! ## What there is to show of a walk -/

/-- The name that a file gets. -/
def leafOf (overlay : Bool) (x : Bytes) : Bytes := if overlay then stagedName x else x

theorem fileName_leafOf (hx : FileName x) : FileName (leafOf overlay x) := by
  unfold leafOf stagedName
  split
  · split
    · decide +kernel
    · split
      · decide +kernel
      · exact hx
  · exact hx

theorem joinPath2_eq {path : Bytes} (h : joinPath2 src x = some path) : path = joinName src x := by
  have hjoin := (snprintf_eq_some.mp h).2
  rw [hjoin, List.append_assoc]
  rfl

/-- Where an entry is copied to. -/
theorem overlayPath_eq {path : Bytes} (h : (stageOverlayDstLeaf x overlay).bind (joinPath2 dst) = some path) :
    path = joinName dst (leafOf overlay x) := by
  obtain ⟨leaf, hleaf, hjoin⟩ := Option.bind_eq_some_iff.mp h
  rw [joinPath2_eq hjoin, (snprintf_eq_some.mp hleaf).2]
  rfl

variable {R : Bool → List (List Bytes × Bool) → Volume → Prop}

/-- Of an entry, the directory and the file are to be shown. -/
theorem copyEntry_copies {copyDir : Bytes → Bytes → CopyProg Bool} (hstuck : R false [] s)
    (hdir : s.1.isDir (fsPath (joinName src x)) = true →
      Copies newMode A (copyDir (joinName src x) (joinName dst x)) R s)
    (hfile : Copies newMode A (copyFileRetries (joinName src x) (joinName dst (leafOf overlay x)))
      (fun copied tr t => R (copied || soft) tr t) s) :
    Copies newMode A (copyEntry copyDir overlay soft src dst x) R s := by
  unfold copyEntry
  cases hsrc : joinPath2 src x with
  | none => exact hstuck
  | some srcPath =>
      obtain rfl := joinPath2_eq hsrc
      apply look_copies (fun _ => rfl) (fun _ _ => rfl)
      intro e _
      split
      · next hisDir =>
        cases hdst : joinPath2 dst x with
        | none => exact hstuck
        | some dstPath =>
            obtain rfl := joinPath2_eq hdst
            exact hdir (Bool.and_eq_true_iff.mp hisDir).2
      · cases hdst : (stageOverlayDstLeaf x overlay).bind (joinPath2 dst) with
        | none => exact hstuck
        | some dstPath =>
            obtain rfl := overlayPath_eq hdst
            apply hfile.seq
            intro copied tr t hr
            show R (copied || soft) (tr ++ []) t
            rwa [List.append_nil]

/-- Of the loop, the next entry is to be shown: how it ends the loop, and where it is done, what it adds to the rest of
    it. `I` holds as long as there are names left. -/
theorem copyEntries_copies {copyDir : Bytes → Bytes → CopyProg Bool} {I : List Bytes → Volume → Prop}
    {R : List Bytes → Bool → List (List Bytes × Bool) → Volume → Volume → Prop} (hnil : ∀ t, R [] true [] t t)
    (hcons : ∀ x xs t, FileName x → I (x :: xs) t → Copies newMode A (copyEntry copyDir overlay soft src dst x)
      (fun done tr u => (done = false → R (x :: xs) false tr t u)
        ∧ (done = true → I xs u ∧ ∀ ok tr' v, R xs ok tr' u v → R (x :: xs) ok (tr ++ tr') t v)) t)
    (names : List Bytes) (hnames : ∀ x ∈ names, FileName x) (t : Volume) (ht : I names t) :
    Copies newMode A (copyEntries copyDir overlay soft src dst names) (fun ok tr u => R names ok tr t u) t := by
  induction names generalizing t with
  | nil => exact hnil t
  | cons x names ih =>
      obtain ⟨hx, hnames⟩ := List.forall_mem_cons.mp hnames
      rw [copyEntries, if_pos (isEntry_of_fileName hx)]
      apply (hcons x names t hx ht).seq
      rintro done tr u ⟨hfailed, hdone⟩
      cases done with
      | false =>
          show R (x :: names) false (tr ++ []) t u
          rw [List.append_nil]
          exact hfailed rfl
      | true =>
          obtain ⟨hu, hadd⟩ := hdone rfl
          exact (ih hnames u hu).mono fun ok tr' v hv => hadd ok tr' v hv

/-- Of a directory, the loop over its entries is to be shown. -/
theorem copyTreeAt_copies {depth : Nat}
    (hstuck : ∀ t made, MadeWay (wayTo dst) s.1 made t.1 → R false [] t)
    (hloop : ∀ (t : Volume) names failed, MadeWay (wayTo dst) s.1 true t.1 → Listing t.1 (fsPath src) names failed →
      Copies newMode A (copyEntries (copyTreeAt overlay soft depth) overlay soft src dst names)
        (fun done tr u => R (done && !failed) tr u) t) :
    Copies newMode A (copyTreeAt overlay soft (depth + 1) src dst) R s := by
  apply (fs_copies (c := anyContract) (fun _ _ _ _ => trivial) (createDirectoryRecursive_madeWay dst s.1)).seq
  rintro made tr t ⟨rfl, hmade⟩
  cases made with
  | false => exact hstuck t false hmade
  | true =>
      apply look_copies (fun _ => rfl) (fun _ _ => rfl)
      intro e _
      cases hopen : (stepTree newMode (.opendir src) (e (.opendir src)) t.1).1 with
      | none => exact hstuck t true hmade
      | some listing =>
          obtain ⟨names, failed⟩ := listing
          show Copies newMode A (copyEntries _ overlay soft src dst names >>= _) _ t
          rw [copyEntries_filter]
          apply (hloop t _ failed hmade (stepOpendir_listing t.2 hopen)).seq
          intro done tr u hr
          show R (done && !failed) (tr ++ []) u
          rwa [List.append_nil]

/-! ## The frame of a walk -/

/-- From `s` to `t` nothing but what is at the destination and below it, and directories on the way there. -/
def Within (dst : Bytes) (s t : Volume) : Prop :=
  ∀ q, ¬ fsPath dst <+: q → t.1.get q = s.1.get q
    ∨ (q ∈ (wayTo dst).map fsPath ∧ s.1.isDir q = false ∧ s.1.get q = none ∧ t.1.get q = some .dir)

theorem Within.refl (dst : Bytes) (s : Volume) : Within dst s s := fun _ _ => Or.inl rfl

theorem Within.trans (h : Within dst s t) (h' : Within dst t u) : Within dst s u := by
  intro q hq
  rcases h' q hq with heq | ⟨hway, hdir, hnone, hmade⟩
  · rw [heq]
    exact h q hq
  · rcases h q hq with heq | ⟨_, _, _, hmade'⟩
    · exact Or.inr ⟨hway, (isDir_congr heq).symm.trans hdir, heq.symm.trans hnone, hmade⟩
    · rw [hmade'] at hnone
      cases hnone

theorem within_of_madeWay {made : Bool} (h : MadeWay (wayTo dst) s.1 made t.1) : Within dst s t :=
  fun q _ => h.1 q

/-- What is below the destination's entry is below the destination. -/
theorem below_of_entry {D q : List Bytes} (h : D ++ [y] <+: q) : D <+: q := (List.prefix_append D [y]).trans h

theorem within_of_sameBut (hy : FileName y) (h : SameBut (fsPath (joinName dst y)) s t) : Within dst s t := by
  intro q hq
  refine Or.inl (h q ?_)
  rintro rfl
  rw [fsPath_joinName dst hy] at hq
  exact hq (List.prefix_append _ _)

/-- The way to an entry is the way to the directory, and the entry. -/
theorem wayTo_joinName (hy : FileName y) : ∀ d ∈ wayTo (joinName dst y), d ∈ wayTo dst ∨ d = joinName dst y := by
  intro d hd
  rw [wayTo, parentDirs_join hy.2.2.2] at hd
  rcases List.mem_append.mp hd with hd | hd
  · rcases List.mem_append.mp hd with hd | hd
    · exact Or.inl (List.mem_append_left _ hd)
    · split at hd
      · exact Or.inl (List.mem_append_right _ hd)
      · cases hd
  · exact Or.inr (List.mem_singleton.mp hd)

theorem within_of_entry (hy : FileName y) (h : Within (joinName dst y) s t) : Within dst s t := by
  intro q hq
  have hbelow : ¬ fsPath (joinName dst y) <+: q := by
    rw [fsPath_joinName dst hy]
    exact fun hprefix => hq (below_of_entry hprefix)
  refine (h q hbelow).imp_right ?_
  rintro ⟨hway, hrest⟩
  refine ⟨?_, hrest⟩
  obtain ⟨d, hd, rfl⟩ := List.mem_map.mp hway
  rcases wayTo_joinName hy d hd with hd | rfl
  · exact List.mem_map_of_mem hd
  · exact absurd (List.prefix_refl _) hbelow

theorem copyEntry_within {copyDir : Bytes → Bytes → CopyProg Bool} (hx : FileName x)
    (hne : fsPath (joinName src x) ≠ fsPath (joinName dst (leafOf overlay x)))
    (hdir : Copies newMode A (copyDir (joinName src x) (joinName dst x))
      (fun _ _ t => Within (joinName dst x) s t) s) :
    Copies newMode A (copyEntry copyDir overlay soft src dst x) (fun _ _ t => Within dst s t) s := by
  apply copyEntry_copies (.refl dst s)
  · intro _
    exact hdir.mono fun _ _ t h => within_of_entry hx h
  · apply (copyFileRetries_ends hne s).mono
    intro _ _ t h
    exact within_of_sameBut (fileName_leafOf hx) h.same

/-! ### Source and destination -/

/-- The way to the destination does not lead into the source, and the destination is not above it. -/
structure Apart (src dst : Bytes) : Prop where
  way : ∀ d ∈ wayTo dst, ¬ fsPath src <+: fsPath d
  above : ¬ fsPath dst <+: fsPath src

theorem Apart.here (h : Apart src dst) : ¬ fsPath src <+: fsPath dst :=
  h.way dst (List.mem_append_right _ List.mem_cons_self)

theorem prefix_entry {D q : List Bytes} (h : q <+: D ++ [y]) : q <+: D ∨ q = D ++ [y] := by
  rcases List.prefix_concat_iff.mp h with h | h
  · exact Or.inr h
  · exact Or.inl h

/-- An entry of the source is no entry of the destination. -/
theorem Apart.entry_ne (h : Apart src dst) (hx : FileName x) (hy : FileName y) :
    fsPath (joinName src x) ≠ fsPath (joinName dst y) := by
  rw [fsPath_joinName src hx, fsPath_joinName dst hy]
  intro heq
  have hsame := (List.append_inj' heq rfl).1
  exact h.here (hsame ▸ List.prefix_refl _)

theorem Apart.below (h : Apart src dst) (hx : FileName x) (hy : FileName y) :
    Apart (joinName src x) (joinName dst y) := by
  have hne := h.entry_ne hx hy
  rw [fsPath_joinName src hx, fsPath_joinName dst hy] at hne
  constructor
  · intro d hd
    rw [fsPath_joinName src hx]
    rcases wayTo_joinName hy d hd with hd | rfl
    · exact fun hprefix => h.way d hd (below_of_entry hprefix)
    · rw [fsPath_joinName dst hy]
      intro hprefix
      rcases prefix_entry hprefix with hbelow | heq
      · exact h.here (below_of_entry hbelow)
      · exact hne heq
  · rw [fsPath_joinName src hx, fsPath_joinName dst hy]
    intro hprefix
    rcases prefix_entry hprefix with hbelow | heq
    · exact h.above (below_of_entry hbelow)
    · exact hne heq.symm

/-- From `s` to `t` nothing of the source. -/
def Kept (S : List Bytes) (s t : Volume) : Prop := ∀ q, S <+: q → t.1.get q = s.1.get q

theorem Kept.refl (S : List Bytes) (s : Volume) : Kept S s s := fun _ _ => rfl

theorem Kept.trans {S : List Bytes} (h : Kept S s t) (h' : Kept S t u) : Kept S s u :=
  fun q hq => (h' q hq).trans (h q hq)

theorem Kept.below {S : List Bytes} (h : Kept S s t) (x : Bytes) : Kept (S ++ [x]) s t :=
  fun q hq => h q (below_of_entry hq)

/-- **What lies apart from the destination is kept.** -/
theorem Within.kept (h : Within dst s t) (hapart : Apart src dst) : Kept (fsPath src) s t := by
  intro q hq
  have hbelow : ¬ fsPath dst <+: q := by
    intro hdst
    rcases List.prefix_or_prefix_of_prefix hq hdst with hprefix | hprefix
    · exact hapart.here hprefix
    · exact hapart.above hprefix
  rcases h q hbelow with heq | ⟨hway, _⟩
  · exact heq
  · obtain ⟨d, hd, rfl⟩ := List.mem_map.mp hway
    exact absurd hq (hapart.way d hd)

/-- **The frame of a walk**, whatever fails. -/
theorem copyTreeAt_within (depth : Nat) (src dst : Bytes) (hapart : Apart src dst) (s : Volume) :
    Copies newMode A (copyTreeAt overlay soft depth src dst) (fun _ _ t => Within dst s t) s := by
  induction depth generalizing src dst s with
  | zero => exact .refl dst s
  | succ depth ih =>
      have hloop : ∀ (names : List Bytes), (∀ x ∈ names, FileName x) → ∀ t, Copies newMode A
          (copyEntries (copyTreeAt overlay soft depth) overlay soft src dst names) (fun _ _ u => Within dst t u) t := by
        intro names hnames t
        apply copyEntries_copies (I := fun _ _ => True) (R := fun _ _ _ t u => Within dst t u) (fun t => .refl dst t)
          _ names hnames t trivial
        intro x xs t hx _
        apply (copyEntry_within hx (hapart.entry_ne hx (fileName_leafOf hx)) (ih _ _ (hapart.below hx hx) t)).mono
        intro done tr u hu
        exact ⟨fun _ => hu, fun _ => ⟨trivial, fun _ _ v hv => hu.trans hv⟩⟩
      apply copyTreeAt_copies
      · intro t made hmade
        exact within_of_madeWay hmade
      · intro t names failed hmade hlisting
        apply (hloop names (fun x hx => (hlisting.sound x hx).1) t).mono
        intro _ _ u hu
        exact (within_of_madeWay hmade).trans hu

/-! ## A walk that succeeds -/

/-- Entries of the source that are left; the source is as it was in `s₀`. -/
structure Remaining (S : List Bytes) (s₀ : Volume) (names : List Bytes) (t : Volume) : Prop where
  nodup : names.Nodup
  sound : ∀ x ∈ names, (s₀.1.get (S ++ [x])).isSome
  kept : Kept S s₀ t

theorem Remaining.rest {S names : List Bytes} {s₀ : Volume} (h : Remaining S s₀ (x :: names) t) (hkept : Kept S t u) :
    Remaining S s₀ names u :=
  ⟨(List.nodup_cons.mp h.nodup).2, fun y hy => h.sound y (List.mem_cons_of_mem x hy), h.kept.trans hkept⟩

/-- What `readdir` gives of the source is left in the beginning. -/
theorem Listing.remaining {S names : List Bytes} {failed : Bool} {s₀ : Volume} (h : Listing t.1 S names failed)
    (ht : Kept S s₀ t) : Remaining S s₀ names t := by
  refine ⟨h.nodup, ?_, ht⟩
  intro x hx
  rw [← ht _ (List.prefix_append S [x])]
  exact (h.sound x hx).2

/-- An entry: of a file, what its copy leaves is to be such an entry, and of a directory, what its walk leaves. -/
theorem copyEntry_rule {depth : Nat} {entry : List (List Bytes × Bool) → Volume → Prop} (hx : FileName x)
    (hapart : Apart src dst)
    (hfile : ∀ tr u, FileEnds (fsPath src ++ [x]) (fsPath dst ++ [leafOf overlay x]) t true tr u → entry tr u)
    (hdir : Copies newMode A (copyTreeAt overlay false depth (joinName src x) (joinName dst x))
      (fun ok tr u => ok = true → entry tr u) t) :
    Copies newMode A (copyEntry (copyTreeAt overlay false depth) overlay false src dst x)
      (fun ok tr u => (ok = true → entry tr u) ∧ Within dst t u) t := by
  have hne : fsPath (joinName src x) ≠ fsPath (joinName dst (leafOf overlay x)) :=
    hapart.entry_ne hx (fileName_leafOf hx)
  have hwithin : Copies newMode A (copyEntry (copyTreeAt overlay false depth) overlay false src dst x)
      (fun _ _ u => Within dst t u) t :=
    copyEntry_within hx hne (copyTreeAt_within depth _ _ (hapart.below hx hx) t)
  apply Leaves.both _ hwithin
  apply copyEntry_copies
  · intro hok
    cases hok
  · exact fun _ => hdir
  · apply (copyFileRetries_ends hne t).mono
    intro copied tr u hu hok
    rw [Bool.or_false] at hok
    rw [fsPath_joinName src hx, fsPath_joinName dst (fileName_leafOf hx), hok] at hu
    exact hfile tr u hu

/-- The loop: the entries that are left, one after the other. The source is kept, since the walk of an entry changes
    nothing but what lies apart from it. -/
theorem copyEntries_rule {copyDir : Bytes → Bytes → CopyProg Bool} {s₀ : Volume}
    {E : List Bytes → Volume → List (List Bytes × Bool) → Volume → Prop} (hapart : Apart src dst)
    (hentry : ∀ x, FileName x → ∀ t, Kept (fsPath src) s₀ t → Copies newMode A
      (copyEntry copyDir overlay false src dst x)
      (fun ok tr u => (ok = true → E [x] t tr u) ∧ Within dst t u) t)
    (hnil : ∀ t, E [] t [] t)
    (hcons : ∀ x xs s t u tr tr', x ∉ xs → (∀ y ∈ x :: xs, (s₀.1.get (fsPath src ++ [y])).isSome) →
      E [x] s tr t → E xs t tr' u → E (x :: xs) s (tr ++ tr') u)
    {xs : List Bytes} (hxs : ∀ x ∈ xs, FileName x) (ht : Remaining (fsPath src) s₀ xs t) :
    Copies newMode A (copyEntries copyDir overlay false src dst xs)
      (fun done tr u => done = true → E xs t tr u) t := by
  apply copyEntries_copies (I := Remaining (fsPath src) s₀) (R := fun xs ok tr t u => ok = true → E xs t tr u)
    (fun t _ => hnil t) _ xs hxs t ht
  intro x xs t hx ht
  apply (hentry x hx t ht.kept).mono
  rintro done tr u ⟨hcopied, hwithin⟩
  refine ⟨fun _ hok => (by cases hok), fun hdone => ⟨ht.rest (hwithin.kept hapart), ?_⟩⟩
  intro ok tr' v hv hok
  exact hcons x xs t u v tr tr' (List.nodup_cons.mp ht.nodup).1 ht.sound (hcopied hdone) (hv hok)

/-- **The induction on a walk that succeeds.** Let `tree` be what is to hold of a source and a destination after a copy,
    and `entries` of some entries of the source. It is enough that a file that was copied is such an entry, and a
    directory, that entries are put one after the other, and that all of them make the tree. The source stays as it
    is in `s₀`. -/
theorem copyTreeAt_rule (s₀ : Volume)
    (tree : List Bytes → List Bytes → Volume → List (List Bytes × Bool) → Volume → Prop)
    (entries : List Bytes → List Bytes → List Bytes → Volume → List (List Bytes × Bool) → Volume → Prop)
    (hfile : ∀ S D x s tr t, Kept S s₀ s → FileEnds (S ++ [x]) (D ++ [leafOf overlay x]) s true tr t →
      entries S D [x] s tr t)
    (hdir : ∀ S D x s tr t, tree (S ++ [x]) (D ++ [x]) s tr t → entries S D [x] s tr t)
    (hnil : ∀ S D s, entries S D [] s [] s)
    (hcons : ∀ S D x xs s t u tr tr', x ∉ xs → (∀ y ∈ x :: xs, (s₀.1.get (S ++ [y])).isSome) →
      entries S D [x] s tr t → entries S D xs t tr' u → entries S D (x :: xs) s (tr ++ tr') u)
    (htree : ∀ S D xs (s t : Volume) tr u, Grown s.1 t.1 → s₀.1.isDir S = true →
      (∀ x, (s₀.1.get (S ++ [x])).isSome → x ∈ xs) → entries S D xs t tr u → tree S D s tr u)
    (depth : Nat) (src dst : Bytes) (hapart : Apart src dst) (s : Volume) (hkept : Kept (fsPath src) s₀ s) :
    Copies newMode A (copyTreeAt overlay false depth src dst)
      (fun ok tr t => ok = true → tree (fsPath src) (fsPath dst) s tr t) s := by
  induction depth generalizing src dst s with
  | zero => exact fun hok => by cases hok
  | succ depth ih =>
      have hentry : ∀ x, FileName x → ∀ t, Kept (fsPath src) s₀ t → Copies newMode A
          (copyEntry (copyTreeAt overlay false depth) overlay false src dst x)
          (fun ok tr u => (ok = true → entries (fsPath src) (fsPath dst) [x] t tr u) ∧ Within dst t u) t := by
        intro x hx t ht
        apply copyEntry_rule hx hapart
        · intro tr u hu
          exact hfile _ _ _ _ _ _ ht hu
        · apply (ih _ _ (hapart.below hx hx) t (by rw [fsPath_joinName src hx]; exact ht.below x)).mono
          intro ok tr u hu hok
          have htree := hu hok
          rw [fsPath_joinName src hx, fsPath_joinName dst hx] at htree
          exact hdir _ _ _ _ _ _ htree
      apply copyTreeAt_copies
      · intro t made _ hok
        cases hok
      · intro t xs failed hmade hlisting
        have ht : Kept (fsPath src) s₀ t := hkept.trans ((within_of_madeWay hmade).kept hapart)
        have hsource : ∀ q, fsPath src <+: q → t.1.get q = s₀.1.get q := ht
        apply (copyEntries_rule (E := entries (fsPath src) (fsPath dst)) hapart hentry (hnil _ _) (hcons _ _)
          (fun x hx => (hlisting.sound x hx).1) (hlisting.remaining ht)).mono
        intro done tr u hu hok
        rw [Bool.and_eq_true, Bool.not_eq_true'] at hok
        have hdir : s₀.1.isDir (fsPath src) = true := by
          rw [← isDir_congr (hsource _ (List.prefix_refl _))]
          exact hlisting.isDir
        apply htree _ _ _ _ _ _ _ hmade.1.grown hdir _ (hu hok.1)
        intro x hx
        rw [← hsource _ (List.prefix_append _ _)] at hx
        exact hlisting.complete hok.2 x hx

end Copy

end LibUpdate
