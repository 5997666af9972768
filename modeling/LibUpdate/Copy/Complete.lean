import LibUpdate.Copy.Faithful

/-!
# `Copy.Complete` — where nothing fails, a copy succeeds

No operation is made to fail, but an operation may still find something in its way. Source and destination fit where
no file is to be put over a directory and no directory over a file (`FitsAt`); the paths that are made are to be
short enough for the buffers (`Short`). Each entry then succeeds and leaves the places of the others as they are, so
that the rest still fits.
-/

namespace LibUpdate

namespace Copy

/-! ## Nothing fails -/

/-- The environment does not let this operation fail. -/
def fineTurn : (o : Op) → Turn o → Prop
  | .fs _, e => e.ok = true
  | .opendir _, e => ∃ order, e = some (order, none)
  | .stat _, ok => ok = true
  | .fopenRead _, ok => ok = true
  | .fopenWrite _, ok => ok = true
  | .fread _ _, failed => failed = none
  | .fwrite _ _, e => e.1 = true
  | .fclose _ _, failed => failed = none
  | .remove _, ok => ok = true

/-- The environment lets no operation fail, and gives the names of a directory in any order. -/
def Outcome.Fine (e : Outcome) : Prop := ∀ o, fineTurn o (e o)

/-- The event is none that was made to fail. -/
def fine (ev : Event Op Outcome Volume) : Prop := Outcome.Fine ev.outcome

/-- Where nothing fails, all that is closed was stored. -/
theorem closed_of_fine (ev : Event Op Outcome Volume) (h : fine ev) : ∀ x ∈ closed ev, x.2 = true := by
  apply closed_stored
  intro path written
  exact h (.fclose path written)

variable {newMode : Nat} {overlay soft : Bool} {src dst x y : Bytes} {S D q : List Bytes} {s₀ s t u : Volume}

/-! ## One file -/

theorem copyBlocks_fine (hne : fsPath src ≠ fsPath dst) (blocks : List Bytes) (s : Volume)
    (hsrc : (s.1.fileAt (fsPath src)).isSome) :
    Copies newMode fine (copyBlocks src dst blocks) (fun ok _ _ => ok = true) s := by
  have hread : ∀ (s : Volume) block (e : Outcome), (s.1.fileAt (fsPath src)).isSome → e.Fine →
      (stepTree newMode (.fread src block) (e (.fread src block)) s.1).1 = none := by
    intro s block e hsrc he
    have hturn : e (.fread src block) = none := he (.fread src block)
    show stepFread src _ s.1 = none
    rw [stepFread, if_pos hsrc, hturn]
  induction blocks generalizing s with
  | nil =>
      apply look_copies (fun _ => rfl) (fun _ _ => rfl)
      intro e he
      show (Option.isNone _) = true
      rw [hread s [] e hsrc he]
      rfl
  | cons block blocks ih =>
      apply look_copies (fun _ => rfl) (fun _ _ => rfl)
      intro e he
      rw [hread s block e hsrc he]
      apply ask_copies (fun _ => rfl)
      intro e' t he' ht
      have hwritten : (stepTree newMode (.fwrite dst block) (e' (.fwrite dst block)) s.1).1 = true :=
        he' (.fwrite dst block)
      rw [if_pos hwritten]
      apply ih t
      rw [ht, show (stepTree newMode (.fwrite dst block) (e' (.fwrite dst block)) s.1).2.fileAt (fsPath src)
        = s.1.fileAt (fsPath src) from fileAt_congr (storeFile_frame _ hne)]
      exact hsrc

/-- **A file is copied at the first attempt**, where it can be put. -/
theorem copyFileRetries_fine (hne : fsPath src ≠ fsPath dst) (hsrc : (s.1.fileAt (fsPath src)).isSome)
    (hopen : canOpen s.1 (fsPath dst) = true) :
    Copies newMode fine (copyFileRetries src dst) (fun ok _ _ => ok = true) s := by
  have honce : Copies newMode fine (copyFileOnce src dst) (fun ok _ _ => ok = true) s := by
    apply look_copies (fun _ => rfl) (fun _ _ => rfl)
    intro e he
    obtain ⟨f, hf⟩ := Option.isSome_iff_exists.mp hsrc
    have hturn : e (.fopenRead src) = true := he (.fopenRead src)
    have hread : (stepTree newMode (.fopenRead src) (e (.fopenRead src)) s.1).1 = some f.data := by
      show stepFopenRead src _ s.1 = _
      rw [stepFopenRead, if_pos hturn, hf]
    rw [hread]
    apply ask_copies (fun _ => rfl)
    intro e₁ s₁ he₁ hs₁
    have hturn₁ : e₁ (.fopenWrite dst) = true := he₁ (.fopenWrite dst)
    have hopened : (stepTree newMode (.fopenWrite dst) (e₁ (.fopenWrite dst)) s.1).1 = true := by
      show (stepFopenWrite newMode dst _ s.1).1 = true
      rw [stepFopenWrite, hturn₁, hopen]
      rfl
    rw [if_pos hopened]
    have hsrc₁ : (s₁.1.fileAt (fsPath src)).isSome := by
      rw [hs₁, show (stepTree newMode (.fopenWrite dst) (e₁ (.fopenWrite dst)) s.1).2.fileAt (fsPath src)
        = s.1.fileAt (fsPath src) from fileAt_congr (stepFopenWrite_frame hne)]
      exact hsrc
    apply (copyBlocks_fine hne (fileBlocks f.data) s₁ hsrc₁).seq
    rintro copied tr s₂ rfl
    intro e₃ _
    rfl
  apply honce.seq
  rintro copied tr t rfl
  rfl

/-! ## Source and destination -/

/-- The path of what is found below a directory. -/
def joined (dir : Bytes) (q : List Bytes) : Bytes := q.foldl joinName dir

/-- The paths that are made fit into the buffers: those of the source as it is read, and those of the directories
    and files that are written. -/
structure Short (overlay : Bool) (src dst : Bytes) (s : Volume) : Prop where
  source : ∀ q, (s.1.get (fsPath src ++ q)).isSome → (joined src q).length < pathMax
  dirs : ∀ q, s.1.isDir (fsPath src ++ q) = true → (joined dst q).length < pathMax
  files : ∀ q, (copyOf overlay s (fsPath src) q).isSome → (joined dst q).length < pathMax

/-- At this path the source fits to the destination: a file is put over no directory, a directory over no file. -/
structure FitsAt (overlay : Bool) (S D : List Bytes) (s₀ s : Volume) (q : List Bytes) : Prop where
  file : (copyOf overlay s₀ S q).isSome → s.1.isDir (D ++ q) = false
  dir : s₀.1.isDir (S ++ q) = true → s.1.fileAt (D ++ q) = none

/-- The way to the directory does not lead through one below it, as that of `/d/x/../../d` does. -/
def Straight (dst : Bytes) : Prop := ∀ d ∈ wayTo dst, fsPath dst <+: fsPath d → fsPath d = fsPath dst

/-- All of the way to the destination is there, so that `mkdir -p` finds what it wants to make. -/
def Ready (dst : Bytes) (s : Volume) : Prop := ∀ d ∈ wayTo dst, s.1.isDir (fsPath d) = true

/-- From `s` to `t` no directories but those of the source have come to the destination. -/
def DirsFrom (S D : List Bytes) (s₀ s t : Volume) : Prop :=
  ∀ q, t.1.isDir (D ++ q) = true → s.1.isDir (D ++ q) = true ∨ s₀.1.isDir (S ++ q) = true

theorem mem_wayTo_self (dst : Bytes) : dst ∈ wayTo dst := List.mem_append_right _ List.mem_cons_self

/-- Without `..` the way leads through the directories above. -/
theorem wayTo_noDotDot (h : NoDotDot isPathSep dst) : ∀ d ∈ wayTo dst, fsPath d <+: fsPath dst := by
  intro d hd
  rcases List.mem_append.mp hd with hd | hd
  · obtain ⟨rest, rfl⟩ := mem_parentDirs hd
    rw [fsPath, fsPath, resolvePath_join rfl ((noDotDot_join_iff rfl).mp h).2]
    exact List.prefix_append _ _
  · obtain rfl := List.mem_singleton.mp hd
    exact List.prefix_refl _

theorem straight_of_noDotDot (h : NoDotDot isPathSep dst) : Straight dst :=
  fun d hd hbelow => (wayTo_noDotDot h d hd).eq_of_length_le hbelow.length_le

/-- Without `..`, roots that are not above each other lie apart. -/
theorem apart_of_noDotDot (h : NoDotDot isPathSep dst) (hsrc : ¬ fsPath src <+: fsPath dst)
    (hdst : ¬ fsPath dst <+: fsPath src) : Apart src dst :=
  ⟨fun d hd hbelow => hsrc (hbelow.trans (wayTo_noDotDot h d hd)), hdst⟩

/-- Nothing on the way is below the destination. -/
theorem Straight.not_below (h : Straight dst) {d : Bytes} (hd : d ∈ wayTo dst) : ¬ fsPath dst ++ [x] <+: fsPath d := by
  intro hbelow
  have hsame : fsPath d = fsPath dst := h d hd (below_of_entry hbelow)
  have hlen := hbelow.length_le
  rw [hsame, List.length_append, List.length_singleton] at hlen
  omega

theorem Straight.below (h : Straight dst) (hx : FileName x) : Straight (joinName dst x) := by
  intro d hd hbelow
  rcases wayTo_joinName hx d hd with hd | rfl
  · rw [fsPath_joinName dst hx] at hbelow
    exact absurd hbelow (h.not_below hd)
  · rfl

/-! ## One entry -/

theorem joinPath2_some {a b : Bytes} (h : (joinName a b).length < pathMax) : joinPath2 a b = some (joinName a b) := by
  apply snprintf_eq_some.mpr
  rw [List.append_assoc]
  exact ⟨h, rfl⟩

theorem overlayPath_some (h : (joinName dst (leafOf overlay x)).length < pathMax) :
    (stageOverlayDstLeaf x overlay).bind (joinPath2 dst) = some (joinName dst (leafOf overlay x)) := by
  have hleaf : stageOverlayDstLeaf x overlay = some (leafOf overlay x) := by
    refine snprintf_eq_some.mpr ⟨?_, rfl⟩
    rw [joinName, List.length_append, List.length_cons] at h
    show (leafOf overlay x).length < pathMax
    omega
  rw [hleaf, Option.bind_some, joinPath2_some h]

/-- Of an entry whose paths are short, the directory or the file is to be shown. -/
theorem copyEntry_fine {copyDir : Bytes → Bytes → CopyProg Bool} {R : Bool → List (List Bytes × Bool) → Volume → Prop}
    (hsrc : (joinName src x).length < pathMax)
    (hdir : s.1.isDir (fsPath (joinName src x)) = true → (joinName dst x).length < pathMax
      ∧ Copies newMode fine (copyDir (joinName src x) (joinName dst x)) R s)
    (hfile : s.1.isDir (fsPath (joinName src x)) = false → (joinName dst (leafOf overlay x)).length < pathMax
      ∧ Copies newMode fine (copyFileRetries (joinName src x) (joinName dst (leafOf overlay x)))
          (fun copied tr t => R (copied || soft) tr t) s) :
    Copies newMode fine (copyEntry copyDir overlay soft src dst x) R s := by
  unfold copyEntry
  rw [joinPath2_some hsrc]
  apply look_copies (fun _ => rfl) (fun _ _ => rfl)
  intro e he
  have hturn : e (.stat (joinName src x)) = true := he (.stat (joinName src x))
  show Copies newMode fine (if (e (.stat (joinName src x)) && _) = true then _ else _) _ _
  rw [hturn, Bool.true_and]
  cases hisDir : s.1.isDir (fsPath (joinName src x)) with
  | true =>
      obtain ⟨hdst, hcopy⟩ := hdir hisDir
      rw [if_pos rfl, joinPath2_some hdst]
      exact hcopy
  | false =>
      obtain ⟨hdst, hcopy⟩ := hfile hisDir
      rw [if_neg Bool.false_ne_true, overlayPath_some hdst]
      apply hcopy.seq
      intro copied tr t hr
      show R (copied || soft) (tr ++ []) t
      rwa [List.append_nil]

/-- From `s` to `t` nothing but what is at an entry of the destination and below it, and directories on the way. -/
def WithinEntry (dst z : Bytes) (s t : Volume) : Prop :=
  ∀ q, ¬ fsPath dst ++ [z] <+: q → t.1.get q = s.1.get q ∨ (q ∈ (wayTo dst).map fsPath ∧ s.1.isDir q = false)

theorem withinEntry_of_within (hx : FileName x) (h : Within (joinName dst x) s t) : WithinEntry dst x s t := by
  intro q hq
  rw [← fsPath_joinName dst hx] at hq
  refine (h q hq).imp_right ?_
  rintro ⟨hway, hdir, _⟩
  refine ⟨?_, hdir⟩
  obtain ⟨d, hd, rfl⟩ := List.mem_map.mp hway
  rcases wayTo_joinName hx d hd with hd | rfl
  · exact List.mem_map_of_mem hd
  · exact absurd (List.prefix_refl _) hq

theorem withinEntry_of_sameBut {z : Bytes} (h : SameBut (fsPath dst ++ [z]) s t) : WithinEntry dst z s t := by
  intro q hq
  refine Or.inl (h q ?_)
  rintro rfl
  exact hq (List.prefix_refl _)

/-- Where the way is there, nothing else is changed. -/
theorem WithinEntry.frame {z : Bytes} (h : WithinEntry dst z s t) (hready : Ready dst s)
    (hq : ¬ fsPath dst ++ [z] <+: q) : t.1.get q = s.1.get q := by
  rcases h q hq with heq | ⟨hway, hdir⟩
  · exact heq
  · obtain ⟨d, hd, rfl⟩ := List.mem_map.mp hway
    rw [hready d hd] at hdir
    cases hdir

theorem WithinEntry.ready {z : Bytes} (h : WithinEntry dst z s t) (hstraight : Straight dst) (hready : Ready dst s) :
    Ready dst t := by
  intro d hd
  rw [isDir_congr (h.frame hready (hstraight.not_below hd))]
  exact hready d hd

/-- Other entries fit as before. -/
theorem FitsAt.frame {z : Bytes} {r : List Bytes} (h : FitsAt overlay S (fsPath dst) s₀ s (y :: r))
    (hentry : WithinEntry dst z s t) (hready : Ready dst s) (hne : z ≠ y) :
    FitsAt overlay S (fsPath dst) s₀ t (y :: r) := by
  have hsame : t.1.get (fsPath dst ++ y :: r) = s.1.get (fsPath dst ++ y :: r) :=
    hentry.frame hready fun hprefix => hne (entry_prefix_iff.mp hprefix)
  constructor
  · rw [isDir_congr hsame]
    exact h.file
  · rw [fileAt_congr hsame]
    exact h.dir

/-- How an entry ends. -/
structure EntryEnds (S : List Bytes) (dst z : Bytes) (s₀ s : Volume) (ok : Bool) (t : Volume) : Prop where
  ok : ok = true
  within : WithinEntry dst z s t
  dirs : DirsFrom S (fsPath dst) s₀ s t

theorem length_joinName (a b : Bytes) : (joinName a b).length = a.length + b.length + 1 := by
  rw [joinName, List.length_append, List.length_cons]
  omega

/-- A directory of the source: the walk goes on. -/
theorem EntryEnds.of_dir (hx : FileName x) (hready : Ready dst s) (hwithin : Within (joinName dst x) s t)
    (hdirs : DirsFrom (S ++ [x]) (fsPath dst ++ [x]) s₀ s t) : EntryEnds S dst x s₀ s true t := by
  have hentry := withinEntry_of_within hx hwithin
  refine ⟨rfl, hentry, ?_⟩
  intro q hq
  by_cases hbelow : fsPath dst ++ [x] <+: fsPath dst ++ q
  · obtain ⟨r, hr⟩ := hbelow
    obtain rfl : x :: r = q := by
      rw [List.append_assoc] at hr
      exact List.append_cancel_left hr
    have hmade := hdirs r
    rw [List.append_assoc, List.append_assoc] at hmade
    exact hmade hq
  · rw [isDir_congr (hentry.frame hready hbelow)] at hq
    exact Or.inl hq

/-- A file of the source: it is copied. -/
theorem EntryEnds.of_file {tr : List (List Bytes × Bool)} {z : Bytes}
    (h : FileEnds (S ++ [x]) (fsPath dst ++ [z]) s true tr t) : EntryEnds S dst z s₀ s true t := by
  refine ⟨rfl, withinEntry_of_sameBut h.same, ?_⟩
  intro q hq
  by_cases hplace : fsPath dst ++ q = fsPath dst ++ [z]
  · -- a file is there
    obtain ⟨_, part, _, hpart, _⟩ := h.copied rfl
    obtain ⟨f, hf, _⟩ := Option.map_eq_some_iff.mp hpart
    rw [hplace, FileTree.isDir_of_fileAt hf] at hq
    cases hq
  · rw [isDir_congr (h.same _ hplace)] at hq
    exact Or.inl hq

/-- **An entry is copied**, where it fits. -/
theorem copyEntry_ends {copyDir : Bytes → Bytes → CopyProg Bool} (hx : FileName x) (hapart : Apart src dst)
    (hdistinct : s₀.1.DistinctIn (leafOf overlay) (fsPath src)) (hkept : Kept (fsPath src) s₀ s)
    (hsome : (s₀.1.get (fsPath src ++ [x])).isSome) (hready : Ready dst s)
    (hfits : ∀ r, FitsAt overlay (fsPath src) (fsPath dst) s₀ s (s₀.1.target (leafOf overlay) (fsPath src) x :: r))
    (hshort : Short overlay src dst s₀)
    (hdir : s₀.1.isDir (fsPath src ++ [x]) = true → Copies newMode fine (copyDir (joinName src x) (joinName dst x))
      (fun ok _ t => ok = true ∧ Within (joinName dst x) s t
        ∧ DirsFrom (fsPath src ++ [x]) (fsPath dst ++ [x]) s₀ s t) s) :
    Copies newMode fine (copyEntry copyDir overlay false src dst x)
      (fun ok _ t => EntryEnds (fsPath src) dst (s₀.1.target (leafOf overlay) (fsPath src) x) s₀ s ok t) s := by
  have hsource : s.1.get (fsPath src ++ [x]) = s₀.1.get (fsPath src ++ [x]) := hkept _ (List.prefix_append _ _)
  apply copyEntry_fine (hshort.source [x] hsome)
  · intro hisDir
    rw [fsPath_joinName src hx, isDir_congr hsource] at hisDir
    refine ⟨hshort.dirs [x] hisDir, (hdir hisDir).mono ?_⟩
    rintro ok tr t ⟨rfl, hwithin, hdirs⟩
    rw [FileTree.target_of_isDir hisDir]
    exact .of_dir hx hready hwithin hdirs
  · intro hfile
    rw [fsPath_joinName src hx, isDir_congr hsource] at hfile
    obtain ⟨f, hf⟩ : ∃ f, s₀.1.fileAt (fsPath src ++ [x]) = some f := by
      rcases FileTree.file_or_dir hsome with hf | hdir
      · exact hf
      · rw [hfile] at hdir
        cases hdir
    have hcopy : (copyOf overlay s₀ (fsPath src) [leafOf overlay x]).isSome := by
      rw [copyOf, FileTree.relabelled_file s₀.2.tree hdistinct hf]
      rfl
    have htarget : s₀.1.target (leafOf overlay) (fsPath src) x = leafOf overlay x := FileTree.target_of_file hfile
    rw [htarget] at hfits ⊢
    have hne := hapart.entry_ne (y := leafOf overlay x) hx (fileName_leafOf hx)
    have hsrc : (s.1.fileAt (fsPath (joinName src x))).isSome := by
      rw [fsPath_joinName src hx, fileAt_congr hsource, hf]
      rfl
    have hopen : canOpen s.1 (fsPath (joinName dst (leafOf overlay x))) = true := by
      rw [fsPath_joinName dst (fileName_leafOf hx), canOpen_iff, List.dropLast_concat]
      exact ⟨(hfits []).file hcopy, hready dst (mem_wayTo_self dst)⟩
    refine ⟨hshort.files _ hcopy, ?_⟩
    apply ((copyFileRetries_fine hne hsrc hopen).both (copyFileRetries_ends hne s)).mono
    rintro copied tr t ⟨rfl, hends⟩
    rw [fsPath_joinName src hx, fsPath_joinName dst (fileName_leafOf hx)] at hends
    exact .of_file hends

/-! ## The walk -/

/-- The way that is made leads to no entry of the destination. -/
theorem madeWay_entry (hstraight : Straight dst) (h : MadeWay (wayTo dst) s.1 true t.1) (y : Bytes) (r : List Bytes) :
    t.1.get (fsPath dst ++ y :: r) = s.1.get (fsPath dst ++ y :: r) := by
  rcases h.1 (fsPath dst ++ y :: r) with heq | ⟨hway, _⟩
  · exact heq
  · obtain ⟨d, hd, heq⟩ := List.mem_map.mp hway
    exact absurd (heq ▸ entry_prefix_iff.mpr rfl) (hstraight.not_below (x := y) hd)

theorem dirsFrom_of_madeWay (hstraight : Straight dst) (hdir : s₀.1.isDir S = true)
    (h : MadeWay (wayTo dst) s.1 true t.1) : DirsFrom S (fsPath dst) s₀ s t := by
  intro q hq
  cases q with
  | nil => exact Or.inr (by rwa [List.append_nil])
  | cons y r =>
      rw [isDir_congr (madeWay_entry hstraight h y r)] at hq
      exact Or.inl hq

theorem FitsAt.made {r : List Bytes} (hstraight : Straight dst) (h : MadeWay (wayTo dst) s.1 true t.1)
    (hfits : FitsAt overlay S (fsPath dst) s₀ s (y :: r)) : FitsAt overlay S (fsPath dst) s₀ t (y :: r) := by
  have hsame := madeWay_entry hstraight h y r
  constructor
  · rw [isDir_congr hsame]
    exact hfits.file
  · rw [fileAt_congr hsame]
    exact hfits.dir

theorem DirsFrom.trans (h : DirsFrom S D s₀ s t) (h' : DirsFrom S D s₀ t u) : DirsFrom S D s₀ s u := by
  intro q hq
  rcases h' q hq with hq | hq
  · exact h q hq
  · exact Or.inr hq

/-- What fits, fits below an entry that is a directory. -/
theorem FitsAt.below {r : List Bytes} (hdistinct : s₀.1.DistinctIn (leafOf overlay) S)
    (hdir : s₀.1.isDir (S ++ [x]) = true) (h : FitsAt overlay S D s₀ s (x :: r)) :
    FitsAt overlay (S ++ [x]) (D ++ [x]) s₀ s r := by
  have hcopy : copyOf overlay s₀ S (x :: r) = copyOf overlay s₀ (S ++ [x]) r := by
    rw [copyOf, FileTree.relabelled_dir hdistinct hdir, copyOf]
  constructor
  · intro hr
    rw [List.append_assoc]
    exact h.file (hcopy ▸ hr)
  · intro hr
    rw [List.append_assoc] at hr ⊢
    exact h.dir hr

theorem Short.below (hx : FileName x) (hdistinct : s₀.1.DistinctIn (leafOf overlay) (fsPath src))
    (hdir : s₀.1.isDir (fsPath src ++ [x]) = true) (h : Short overlay src dst s₀) :
    Short overlay (joinName src x) (joinName dst x) s₀ := by
  constructor
  · intro q hq
    rw [fsPath_joinName src hx, List.append_assoc] at hq
    exact h.source (x :: q) hq
  · intro q hq
    rw [fsPath_joinName src hx, List.append_assoc] at hq
    exact h.dirs (x :: q) hq
  · intro q hq
    rw [fsPath_joinName src hx, copyOf, ← FileTree.relabelled_dir hdistinct hdir] at hq
    exact h.files (x :: q) hq

/-- Source and destination of a copy that nothing stands in the way of. -/
structure Clear (overlay : Bool) (src dst : Bytes) (s₀ s : Volume) : Prop where
  apart : Apart src dst
  straight : Straight dst
  distinct : s₀.1.Distinct (leafOf overlay) (fsPath src)
  kept : Kept (fsPath src) s₀ s
  source : s₀.1.isDir (fsPath src) = true
  fits : ∀ q, FitsAt overlay (fsPath src) (fsPath dst) s₀ s q
  short : Short overlay src dst s₀

theorem Clear.below (h : Clear overlay src dst s₀ s) (hx : FileName x) (hkept : Kept (fsPath src) s₀ t)
    (hdir : s₀.1.isDir (fsPath src ++ [x]) = true)
    (hfits : ∀ r, FitsAt overlay (fsPath src) (fsPath dst) s₀ t (x :: r)) :
    Clear overlay (joinName src x) (joinName dst x) s₀ t := by
  refine ⟨h.apart.below hx hx, h.straight.below hx, ?_, ?_, ?_, ?_, h.short.below hx h.distinct.here hdir⟩
  · rw [fsPath_joinName src hx]
    exact h.distinct.below x
  · rw [fsPath_joinName src hx]
    exact hkept.below x
  · rwa [fsPath_joinName src hx]
  · intro r
    rw [fsPath_joinName src hx, fsPath_joinName dst hx]
    exact (hfits r).below h.distinct.here hdir

theorem Clear.dst_ne_nil (h : Clear overlay src dst s₀ s) : dst ≠ [] := by
  rintro rfl
  exact h.apart.above List.nil_prefix

theorem Clear.src_length (h : Clear overlay src dst s₀ s) : src.length < pathMax := by
  apply h.short.source []
  rw [List.append_nil]
  rcases FileTree.isDir_iff.mp h.source with hroot | hdir
  · exact absurd (hroot ▸ List.nil_prefix) h.apart.here
  · rw [hdir]
    rfl

/-- The way to a directory is made, where no file is on it. -/
theorem mkdir_fine (hne : dst ≠ []) (hlen : dst.length < pathMax)
    (hfree : ∀ d ∈ wayTo dst, s.1.fileAt (fsPath d) = none) :
    Copies newMode fine (Copy.fs (createDirectoryRecursive dst))
      (fun made tr t => made = true ∧ tr = [] ∧ MadeWay (wayTo dst) s.1 true t.1) s := by
  have hmkdir : Safe (fsDevice newMode) (nothingFails.both anyContract)
      (fun made t => (made = true ∧ WayMade dst s.1 t) ∧ MadeWay (wayTo dst) s.1 made t)
      (createDirectoryRecursive dst) s.1 :=
    (createDirectoryRecursive_made s.2 hne hlen hfree).both (createDirectoryRecursive_madeWay dst s.1)
  have hassumes : ∀ o e (t : Volume), fine ⟨.fs o, e, t⟩ →
      (nothingFails.both anyContract).assumes ⟨o, e (.fs o), t.1⟩ := by
    intro o e t he
    have hturn : fineTurn (.fs o) (e (.fs o)) := he (.fs o)
    exact ⟨hturn, trivial⟩
  apply (fs_copies hassumes hmkdir).mono
  rintro made tr t ⟨htr, ⟨rfl, _⟩, hmade⟩
  exact ⟨rfl, htr, hmade⟩

/-- The directory that is entered is there: its way is made, and `readdir` gives all of its names. -/
theorem copyTreeAt_enters {depth : Nat} {R : Bool → List (List Bytes × Bool) → Volume → Prop}
    (hclear : Clear overlay src dst s₀ s) (hfree : ∀ d ∈ wayTo dst, s.1.fileAt (fsPath d) = none)
    (hloop : ∀ (t : Volume) names, MadeWay (wayTo dst) s.1 true t.1 → Listing t.1 (fsPath src) names false →
      Copies newMode fine (copyEntries (copyTreeAt overlay soft depth) overlay soft src dst names) R t) :
    Copies newMode fine (copyTreeAt overlay soft (depth + 1) src dst) R s := by
  have hdst : dst.length < pathMax := hclear.short.dirs [] (by rw [List.append_nil]; exact hclear.source)
  apply (mkdir_fine hclear.dst_ne_nil hdst hfree).seq
  rintro made tr t ⟨rfl, rfl, hmade⟩
  apply look_copies (fun _ => rfl) (fun _ _ => rfl)
  intro e he
  have hturn : ∃ order, e (.opendir src) = some (order, none) := he (.opendir src)
  obtain ⟨order, hturn⟩ := hturn
  have hdir : t.1.isDir (fsPath src) = true := by
    apply hmade.1.grown.isDir
    rw [isDir_congr (hclear.kept _ (List.prefix_refl _))]
    exact hclear.source
  have hopen : (stepTree newMode (.opendir src) (e (.opendir src)) t.1).1
      = some (enumerate order (t.1.children (fsPath src)), false) := by
    show stepOpendir src _ t.1 = _
    rw [hturn, stepOpendir, if_pos hdir]
  rw [hopen]
  show Copies newMode fine (copyEntries _ overlay soft src dst _ >>= _) _ t
  rw [copyEntries_filter]
  apply (hloop t _ hmade (stepOpendir_listing t.2 hopen)).seq
  intro done tr u hr
  show R (done && !false) (tr ++ []) u
  rwa [Bool.not_false, Bool.and_true, List.append_nil]

/-- The entries that are left fit to the destination, of which the way is there. -/
structure Fitting (overlay : Bool) (src dst : Bytes) (s₀ : Volume) (names : List Bytes) (t : Volume) : Prop extends
    Remaining (fsPath src) s₀ names t where
  ready : Ready dst t
  fits : ∀ x ∈ names, ∀ r, FitsAt overlay (fsPath src) (fsPath dst) s₀ t
    (s₀.1.target (leafOf overlay) (fsPath src) x :: r)

/-- An entry that is copied leaves the places of the others as they are. -/
theorem Fitting.rest {names : List Bytes} (h : Fitting overlay src dst s₀ (x :: names) t)
    (hclear : Clear overlay src dst s₀ s)
    (hentry : WithinEntry dst (s₀.1.target (leafOf overlay) (fsPath src) x) t u) (hwithin : Within dst t u) :
    Fitting overlay src dst s₀ names u := by
  refine ⟨h.toRemaining.rest (hwithin.kept hclear.apart), hentry.ready hclear.straight h.ready, ?_⟩
  intro y hy r
  apply (h.fits y (List.mem_cons_of_mem x hy) r).frame hentry h.ready
  -- two entries with one name are one
  intro heq
  have hsame := hclear.distinct.here x y (h.sound x List.mem_cons_self) (h.sound y (List.mem_cons_of_mem x hy)) heq
  exact (List.nodup_cons.mp h.nodup).1 (hsame ▸ hy)

/-- **Where nothing fails and nothing stands in its way, a copy succeeds**, and no directories but those of the source
    come to the destination. -/
theorem copyTreeAt_complete (depth : Nat) (src dst : Bytes) (s : Volume) (hclear : Clear overlay src dst s₀ s)
    (hfree : ∀ d ∈ wayTo dst, s.1.fileAt (fsPath d) = none) (hdepth : pathMax ≤ depth + src.length) :
    Copies newMode fine (copyTreeAt overlay false depth src dst)
      (fun ok _ t => ok = true ∧ DirsFrom (fsPath src) (fsPath dst) s₀ s t) s := by
  induction depth generalizing src dst s with
  | zero =>
      have := hclear.src_length
      omega
  | succ depth ih =>
      have hloop : ∀ names : List Bytes, (∀ x ∈ names, FileName x) → ∀ t, Fitting overlay src dst s₀ names t →
          Copies newMode fine (copyEntries (copyTreeAt overlay false depth) overlay false src dst names)
            (fun done _ u => done = true ∧ DirsFrom (fsPath src) (fsPath dst) s₀ t u) t := by
        intro names hnames t ht
        apply copyEntries_copies (I := Fitting overlay src dst s₀)
          (R := fun _ ok _ t u => ok = true ∧ DirsFrom (fsPath src) (fsPath dst) s₀ t u)
          (fun t => ⟨rfl, fun _ hq => Or.inl hq⟩) _ names hnames t ht
        intro x names t hx ht
        have hsome := ht.sound x List.mem_cons_self
        have hfit := ht.fits x List.mem_cons_self
        have hentry : Copies newMode fine (copyEntry (copyTreeAt overlay false depth) overlay false src dst x)
            (fun ok _ u => EntryEnds (fsPath src) dst (s₀.1.target (leafOf overlay) (fsPath src) x) s₀ t ok u)
            t := by
          apply copyEntry_ends hx hclear.apart hclear.distinct.here ht.kept hsome ht.ready hfit hclear.short
          intro hdir
          rw [FileTree.target_of_isDir hdir] at hfit
          have hbelow := hclear.below hx ht.kept hdir hfit
          have hfree' : ∀ d ∈ wayTo (joinName dst x), t.1.fileAt (fsPath d) = none := by
            intro d hd
            rcases wayTo_joinName hx d hd with hd | rfl
            · exact FileTree.fileAt_eq_none_of_isDir t.2.tree (ht.ready d hd)
            · rw [fsPath_joinName dst hx]
              exact (hfit []).dir hdir
          have hdepth' : pathMax ≤ depth + (joinName src x).length := by
            rw [length_joinName]
            omega
          apply ((ih _ _ t hbelow hfree' hdepth').both (copyTreeAt_within depth _ _ hbelow.apart t)).mono
          rintro ok tr u ⟨⟨rfl, hdirs⟩, hwithin⟩
          rw [fsPath_joinName src hx, fsPath_joinName dst hx] at hdirs
          exact ⟨rfl, hwithin, hdirs⟩
        have hwithin : Copies newMode fine (copyEntry (copyTreeAt overlay false depth) overlay false src dst x)
            (fun _ _ u => Within dst t u) t :=
          copyEntry_within hx (hclear.apart.entry_ne hx (fileName_leafOf hx))
            (copyTreeAt_within depth _ _ (hclear.apart.below hx hx) t)
        apply (hentry.both hwithin).mono
        rintro done tr u ⟨⟨rfl, hwithinEntry, hdirs⟩, hwithin⟩
        refine ⟨fun hdone => (by cases hdone), fun _ => ⟨ht.rest hclear hwithinEntry hwithin, ?_⟩⟩
        rintro ok tr' v ⟨rfl, hdirs'⟩
        exact ⟨rfl, hdirs.trans hdirs'⟩
      apply copyTreeAt_enters hclear hfree
      intro t names hmade hlisting
      have ht : Kept (fsPath src) s₀ t := hclear.kept.trans ((within_of_madeWay hmade).kept hclear.apart)
      have hnames : Fitting overlay src dst s₀ names t :=
        ⟨hlisting.remaining ht, hmade.2 rfl, fun x _ r => (hclear.fits _).made hclear.straight hmade⟩
      apply (hloop names (fun x hx => (hlisting.sound x hx).1) t hnames).mono
      rintro done tr u ⟨rfl, hdirs⟩
      exact ⟨rfl, (dirsFrom_of_madeWay hclear.straight hclear.source hmade).trans hdirs⟩

end Copy

end LibUpdate
