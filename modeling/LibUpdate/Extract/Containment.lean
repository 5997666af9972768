import LibUpdate.Extract.Paths

/-!
# `Extract.Containment` — extraction stays inside its destination

Whatever the archive says and wherever an operation fails, all paths that an extraction works on lie inside
the destination, and outside of it nothing changes. The one exception is `mkdir -p` of the destination itself,
which makes the directories that are missing on the way to it.
-/

namespace LibUpdate

variable {newMode : Nat} {dest : Bytes} {t s : Fs} {α β : Type}

/-- Outside the destination the file system is as in `t`, but that missing directories on the way to the
    destination may have been made. -/
def OutsideKept (dest : Bytes) (t s : Fs) : Prop :=
  ∀ q, ¬ fsPath dest <+: q →
    s.get q = t.get q ∨ (q <+: fsPath dest ∧ q ≠ [] ∧ t.get q = none ∧ s.get q = some .dir)

/-- The paths of an operation of an extraction to `dest` lead to the destination or below it; only `mkdir` may be
    called on the way to it. -/
def OpInside (dest : Bytes) (o : FsOp) : Prop :=
  (∀ p ∈ o.paths, Inside dest p) ∨ ∃ p, o = .mkdir p ∧ Inside p dest

/-- An operation that the entry loop or `mkdir -p` may perform: its paths are joined to the destination, or it makes
    a directory on the way. All operations of `update_extract` are of this kind. -/
def OpOk (dest : Bytes) (o : FsOp) : Prop :=
  (∀ p ∈ o.paths, Joined dest p) ∨ ∃ p, o = .mkdir p ∧ Ancestor dest p

theorem OpOk.inside (hdest : NoDotDot isAnySep dest) {o : FsOp} (h : OpOk dest o) : OpInside dest o := by
  rcases h with h | ⟨p, rfl, hp⟩
  · exact Or.inl fun p hp => (h p hp).inside
  · exact Or.inr ⟨p, rfl, hp.inside hdest⟩

theorem OutsideKept.refl (dest : Bytes) (t : Fs) : OutsideKept dest t t := fun _ _ => Or.inl rfl

/-- Files outside the destination are unchanged. -/
theorem OutsideKept.fileAt_eq (h : OutsideKept dest t s) {q : List Bytes} (hq : ¬ fsPath dest <+: q) :
    s.fileAt q = t.fileAt q := by
  unfold FileTree.fileAt
  rcases h q hq with heq | ⟨_, _, hnone, hdir⟩
  · rw [heq]
  · rw [hnone, hdir]

/-- Where the destination is there already, nothing outside it is made. -/
theorem OutsideKept.get_eq (h : OutsideKept dest t s) (ht : t.WellFormed)
    (hdest : t.isDir (fsPath dest) = true) {q : List Bytes} (hq : ¬ fsPath dest <+: q) :
    s.get q = t.get q := by
  rcases h q hq with heq | ⟨hbelow, hne, hnone, _⟩
  · exact heq
  · -- what lies on the way to a directory is there
    rcases FileTree.isDir_iff.mp (ht.isDir_of_prefix hbelow hdest) with hroot | hdir
    · exact absurd hroot hne
    · rw [hnone] at hdir
      cases hdir

/-- An operation keeps what is outside. -/
theorem OutsideKept.step (hdest : NoDotDot isAnySep dest) {o : FsOp} {e : FsOutcome} (ho : OpOk dest o)
    (h : OutsideKept dest t s) : OutsideKept dest t ((fsDevice newMode).step o e s).2 := by
  intro q hq
  rcases ho with ho | ⟨p, rfl, hp⟩
  · -- the paths of the operation lie inside, and so does what is below them
    rw [step_frame fun p hp hbelow => hq ((ho p hp).fsPath_below.trans hbelow)]
    exact h q hq
  · rw [show ((fsDevice newMode).step (.mkdir p) e s).2 = (stepMkdir p e s).2 from rfl]
    rcases stepMkdir_cases p e s with ⟨heq, _⟩ | ⟨heq, hnone, hnew, _⟩ | heq
    · rw [heq]
      exact h q hq
    · rw [heq, FileTree.get_set]
      split
      · next hself =>
        subst hself
        rcases h _ hq with hold | ⟨_, _, _, hdir⟩
        · exact Or.inr ⟨hp.fsPath_below hdest, FileTree.ne_nil_of_isDir_eq_false hnew, hold.symm.trans hnone, rfl⟩
        · rw [hnone] at hdir
          cases hdir
      · exact h q hq
    · rw [heq]
      exact h q hq

/-! ## The programs -/

/-- Every operation lies inside the destination, and nothing outside changes. -/
def insideContract (dest : Bytes) (t : Fs) : Contract FsOp FsOutcome Fs where
  assumes _ := True
  ensures ev := OpInside dest ev.op
  invariant := OutsideKept dest t

/-- The program keeps the contract from every state that it may start in. -/
def KeepsInside (newMode : Nat) (dest : Bytes) (t : Fs) (p : FsProg α) : Prop :=
  ∀ s, OutsideKept dest t s →
    Safe (fsDevice newMode) (insideContract dest t) (fun _ s' => OutsideKept dest t s') p s

namespace KeepsInside

theorem ret (a : α) : KeepsInside newMode dest t (pure a : FsProg α) := fun _ hs => hs

theorem bind {p : FsProg α} {f : α → FsProg β} (hp : KeepsInside newMode dest t p)
    (hf : ∀ a, KeepsInside newMode dest t (f a)) : KeepsInside newMode dest t (p >>= f) :=
  fun s hs => Safe.bind ((hp s hs).mono fun a s' hs' => hf a s' hs')

theorem perform (hdest : NoDotDot isAnySep dest) {o : FsOp} (ho : OpOk dest o) :
    KeepsInside newMode dest t (Prog.perform o : FsProg Bool) :=
  fun _ hs _ _ => ⟨ho.inside hdest, hs.step hdest ho, hs.step hdest ho⟩

/-- A branch on an answer. -/
theorem ite {b : Bool} {p q : FsProg α} (hp : KeepsInside newMode dest t p)
    (hq : KeepsInside newMode dest t q) : KeepsInside newMode dest t (if b then p else q) := by
  cases b with
  | true => exact hp
  | false => exact hq

end KeepsInside

theorem mkdirAll_inside (hdest : NoDotDot isAnySep dest) {dirs : List Bytes} (h : ∀ d ∈ dirs, DirOk dest d) :
    KeepsInside newMode dest t (mkdirAll dirs) := by
  induction dirs with
  | nil => exact .ret true
  | cons d dirs ih =>
      have hd : OpOk dest (.mkdir d) := by
        rcases h d List.mem_cons_self with hjoined | hanc
        · exact Or.inl (by simpa [FsOp.paths] using hjoined)
        · exact Or.inr ⟨d, rfl, hanc⟩
      exact (KeepsInside.perform hdest hd).bind fun made =>
        (ih fun d' hd' => h d' (List.mem_cons_of_mem _ hd')).ite (.ret false)

theorem createDirectoryRecursive_inside (hdest : NoDotDot isAnySep dest) {path : Bytes} (h : DirOk dest path) :
    KeepsInside newMode dest t (createDirectoryRecursive path) := by
  unfold createDirectoryRecursive
  split; · exact .ret false
  split; · exact .ret false
  apply mkdirAll_inside hdest
  intro d hd
  rcases List.mem_append.mp hd with hd | hd
  · obtain ⟨rest, hpath⟩ := mem_parentDirs hd
    rw [hpath] at h
    exact h.cut
  · rwa [List.mem_singleton.mp hd]

theorem chmodEntry_inside (hdest : NoDotDot isAnySep dest) {e : Entry} {path : Bytes} (h : Joined dest path) :
    KeepsInside newMode dest t (chmodEntry e path) := by
  unfold chmodEntry
  split
  · exact (KeepsInside.perform hdest (Or.inl (by simpa [FsOp.paths] using h))).bind fun _ => .ret ()
  · exact .ret ()

theorem remove_inside (hdest : NoDotDot isAnySep dest) {path : Bytes} (h : Joined dest path) :
    KeepsInside newMode dest t (Prog.perform (.remove path) : FsProg Bool) :=
  .perform hdest (Or.inl (by simpa [FsOp.paths] using h))

theorem dropTmp_inside (hdest : NoDotDot isAnySep dest) {path : Bytes} (h : Joined dest path) :
    KeepsInside newMode dest t (dropTmp path) :=
  (remove_inside hdest h).bind fun _ => .ret false

theorem writeEntry_inside (hdest : NoDotDot isAnySep dest) {e : Entry} {fullPath tmpPath : Bytes}
    (hfull : Joined dest fullPath) (htmp : Joined dest tmpPath) :
    KeepsInside newMode dest t (writeEntry e fullPath tmpPath) := by
  have hwrite : OpOk dest (.extractTo e.data tmpPath) := Or.inl (by simpa [FsOp.paths] using htmp)
  have hmove : OpOk dest (.move tmpPath fullPath) := Or.inl (by simp [FsOp.paths, htmp, hfull])
  refine (KeepsInside.perform hdest hwrite).bind fun written => .ite ?_ (dropTmp_inside hdest htmp)
  refine (chmodEntry_inside hdest htmp).bind fun _ => ?_
  exact (KeepsInside.perform hdest hmove).bind fun moved => .ite (.ret true) (dropTmp_inside hdest htmp)

theorem ensureParentDirs_inside (hdest : NoDotDot isAnySep dest) {path : Bytes} (h : Joined dest path) :
    KeepsInside newMode dest t (ensureParentDirs path) := by
  unfold ensureParentDirs
  split; · exact .ret false
  split
  · exact .ret true
  · next parent hparent =>
    obtain ⟨rest, hpath⟩ := beforeLastSlash_eq hparent
    split; · exact .ret true
    apply createDirectoryRecursive_inside hdest
    have hdir : DirOk dest path := Or.inl h
    rw [hpath] at hdir
    exact hdir.cut

theorem extractEntry_inside (hdest : NoDotDot isAnySep dest) (e : Entry) :
    KeepsInside newMode dest t (extractEntry dest e) := by
  unfold extractEntry
  split; · exact .ret false
  next fullPath hpath =>
  obtain ⟨rfl, hsafe⟩ := entryPath_eq hpath
  split
  · refine (createDirectoryRecursive_inside hdest (Or.inl hsafe.strip_joined)).bind fun made => ?_
    exact .ite ((chmodEntry_inside hdest hsafe.strip_joined).bind fun _ => .ret true) (.ret false)
  · unfold extractFile
    split; · exact .ret false
    next tmpPath htmp =>
    rw [snprintf_eq_some] at htmp
    have htmp : Joined dest tmpPath := htmp.2 ▸ hsafe.tmp_joined
    refine (remove_inside hdest htmp).bind fun _ => ?_
    refine (ensureParentDirs_inside hdest hsafe.joined).bind fun parents => ?_
    exact .ite (writeEntry_inside hdest hsafe.joined htmp) (.ret false)

theorem extractEntries_inside (hdest : NoDotDot isAnySep dest) (entries : List Entry) :
    KeepsInside newMode dest t (extractEntries dest entries) := by
  induction entries with
  | nil => exact .ret _
  | cons e es ih => exact (extractEntry_inside hdest e).bind fun extracted => ih.ite (.ret _)

/-- A destination that `update_extract` goes on with has no `..`. -/
theorem extractDest_noDotDot {cwd : Option Bytes} {zipPath destDir : Bytes}
    (h : extractDest cwd zipPath destDir = some dest) : NoDotDot isAnySep dest := by
  unfold extractDest at h
  split at h; · cases h
  split at h; · cases h
  split at h
  · next zipAbs destAbs _ _ =>
    split at h
    · cases h
    · next hvalid =>
      cases h
      simp only [Bool.or_eq_true, decide_eq_true_eq, not_or, Decidable.not_not] at hvalid
      have hok := (updateValidatePath_eq_ok.mp hvalid.2).1
      intro hmem
      exact (hok.segments dotdot hmem).2 rfl
  · cases h

/-- The whole of `update_extract`, once a destination is accepted. -/
theorem updateExtract_inside {cwd : Option Bytes} {zipPath destDir : Bytes}
    (hdest : extractDest cwd zipPath destDir = some dest) (archive : Option (List Entry)) :
    KeepsInside newMode dest t (updateExtract cwd archive zipPath destDir) := by
  -- the accepted destination has no `..`, so paths joined to it stay below it
  have hdown : NoDotDot isAnySep dest := extractDest_noDotDot hdest
  unfold updateExtract
  rw [hdest]
  refine (createDirectoryRecursive_inside hdown (Or.inl (Or.inl rfl))).bind fun made => .ite ?_ (.ret _)
  cases archive with
  | none => exact .ret _
  | some entries => exact extractEntries_inside hdown entries

/-- **Extraction stays inside its destination.** In every run, whatever the archive reports, whichever
    operations fail and wherever the run is cut off: nothing is done unless a destination is accepted; all paths
    of all operations lead to the destination or below it, read with both separators, but for `mkdir` on the way
    to the destination; and in every state that is passed, outside the destination nothing has changed but that
    missing directories on the way to it may have been made. No file there has changed, and where the destination
    was there before, nothing at all has. -/
theorem extract_contained (newMode : Nat) (cwd : Option Bytes) (archive : Option (List Entry))
    (zipPath destDir : Bytes) (t : Fs) (es : List FsOutcome) :
    ∀ ev ∈ ((fsDevice newMode).run (updateExtract cwd archive zipPath destDir) es t).events,
      ∃ dest, extractDest cwd zipPath destDir = some dest ∧ OpInside dest ev.op
        ∧ OutsideKept dest t ((fsDevice newMode).after ev)
        ∧ (∀ q, ¬ fsPath dest <+: q → ((fsDevice newMode).after ev).fileAt q = t.fileAt q)
        ∧ (t.WellFormed → t.isDir (fsPath dest) = true →
            ∀ q, ¬ fsPath dest <+: q → ((fsDevice newMode).after ev).get q = t.get q) := by
  intro ev hev
  cases hdest : extractDest cwd zipPath destDir with
  | none =>
      unfold updateExtract at hev
      rw [hdest, Prog.pure_eq, Device.run_ret] at hev
      cases hev
  | some dest =>
      obtain ⟨hinside, hkept⟩ :=
        ((updateExtract_inside hdest archive t (.refl dest t)).run_sound fun _ _ => trivial).1 ev hev
      refine ⟨dest, rfl, hinside, hkept, ?_, ?_⟩
      · intro q hq
        exact hkept.fileAt_eq hq
      · intro ht hisDir q hq
        exact hkept.get_eq ht hisDir hq

/-- An archive with a directory and a file in it. -/
def sampleEntries : List Entry :=
  [⟨true, 0, ascii "d/", true, 0, []⟩, ⟨true, 0, ascii "d/f", false, 0o755, ascii "1"⟩]

/-- The extraction of a file to `/a` moves it to its place there. -/
theorem extract_contained_sample :
    ∃ ev ∈ ((fsDevice 384).run (updateExtract none (some sampleEntries) (ascii "/z.zip") (ascii "/a"))
        (List.replicate 12 okOutcome) []).events,
      ev.op = .move (ascii "/a/d/f.extracting") (ascii "/a/d/f")
        ∧ ∃ dest, extractDest none (ascii "/z.zip") (ascii "/a") = some dest
          ∧ OpInside dest ev.op ∧ OutsideKept dest [] ((fsDevice 384).after ev) := by
  have hmoved : ∃ ev ∈ ((fsDevice 384).run (updateExtract none (some sampleEntries) (ascii "/z.zip") (ascii "/a"))
      (List.replicate 12 okOutcome) []).events, ev.op = .move (ascii "/a/d/f.extracting") (ascii "/a/d/f") := by
    decide +kernel
  obtain ⟨ev, hev, hop⟩ := hmoved
  obtain ⟨dest, hdest, hinside, hkept, _, _⟩ := extract_contained 384 none (some sampleEntries) _ _ [] _ ev hev
  exact ⟨ev, hev, hop, dest, hdest, hinside, hkept⟩

/-- The first step of an extraction to `/a/b` where there is nothing yet makes `/a`, which is outside. -/
theorem extract_makes_ancestor :
    extractDest none (ascii "/z.zip") (ascii "/a/b") = some (ascii "/a/b") ∧ ¬ Inside (ascii "/a/b") (ascii "/a")
      ∧ ∃ ev ∈ ((fsDevice 384).run (updateExtract none (some []) (ascii "/z.zip") (ascii "/a/b"))
          [okOutcome, okOutcome] []).events,
        ev.op = .mkdir (ascii "/a") ∧ ev.before.get [ascii "a"] = none
          ∧ ((fsDevice 384).after ev).get [ascii "a"] = some .dir := by
  refine ⟨by decide +kernel, ?_, by decide +kernel⟩
  unfold Inside
  decide +kernel

end LibUpdate
