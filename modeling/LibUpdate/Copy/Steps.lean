import LibUpdate.Copy.Model

/-!
# `Copy.Steps` — what an operation and the copying of a file do

The trace of a copy says of each file that was written to its end, in order, whether `fclose` has stored all of it
(`closed`). Copying a file changes nothing but what is at the destination; where it succeeds, a file is there, and
the trace says whether it holds what the source does (`FileEnds`).
-/

namespace LibUpdate

namespace Copy

/-! ## The trace -/

/-- Of a file that was written to its end, whether all of it was stored. -/
def closedOf : (o : Op) → Turn o → List (List Bytes × Bool)
  | .fclose path (some written), failed => [(fsPath path, failed.getD written == written)]
  | _, _ => []

/-- What is shown of an event. -/
def closed (ev : Event Op Outcome Volume) : List (List Bytes × Bool) := closedOf ev.op (ev.outcome ev.op)

/-- Whether the file that was last written at a path was stored. -/
def lastClose (tr : List (List Bytes × Bool)) (p : List Bytes) : Option Bool := tr.reverse.lookup p

theorem lastClose_append (tr tr' : List (List Bytes × Bool)) (p : List Bytes) :
    lastClose (tr ++ tr') p = (lastClose tr' p).or (lastClose tr p) := by
  rw [lastClose, List.reverse_append, List.lookup_append]
  rfl

theorem lastClose_singleton (p : List Bytes) (b : Bool) : lastClose [(p, b)] p = some b := by
  simp [lastClose]

theorem lastClose_singleton_ne {p q : List Bytes} (h : q ≠ p) (b : Bool) : lastClose [(p, b)] q = none := by
  have hne : (q == p) = false := beq_eq_false_iff_ne.mpr h
  rw [lastClose, List.reverse_singleton, List.lookup_cons, hne]
  rfl

/-- What was last shown was shown. -/
theorem mem_of_lastClose {tr : List (List Bytes × Bool)} {p : List Bytes} {b : Bool} (h : lastClose tr p = some b) :
    (p, b) ∈ tr := by
  obtain ⟨l₁, l₂, hsplit, _⟩ := List.lookup_eq_some_iff.mp h
  rw [← List.mem_reverse, hsplit]
  exact List.mem_append_right _ List.mem_cons_self

/-- Where no flush fails, all that is closed was stored. -/
theorem closed_stored (ev : Event Op Outcome Volume) (h : ∀ path written, ev.outcome (.fclose path written) = none) :
    ∀ x ∈ closed ev, x.2 = true := by
  obtain ⟨o, e, s⟩ := ev
  intro x hx
  cases o with
  | fclose path written =>
      cases written with
      | none => cases hx
      | some data =>
          have hstored : e (.fclose path (some data)) = none := h path (some data)
          obtain rfl := List.mem_singleton.mp hx
          show (Option.getD (e (.fclose path (some data)) : Option Bytes) data == data) = true
          rw [hstored]
          exact beq_self_eq_true data
  | _ => cases hx

/-! ## One operation -/

section

variable {newMode : Nat} {A : Event Op Outcome Volume → Prop} {α : Type} {s t u : Volume}

/-- From `s`, where events are as `A` says and the program returns, `Q` holds of the value, the trace and the end. -/
abbrev Copies (newMode : Nat) (A : Event Op Outcome Volume → Prop) (p : CopyProg α)
    (Q : α → List (List Bytes × Bool) → Volume → Prop) (s : Volume) : Prop :=
  Leaves (device newMode) A closed p Q s

variable {Q : α → List (List Bytes × Bool) → Volume → Prop}

/-- An operation that shows nothing. -/
theorem ask_copies {o : Op} {f : Res o → CopyProg α} (hview : ∀ e, closedOf o e = [])
    (h : ∀ e (t : Volume), A ⟨o, e, s⟩ → t.1 = (stepTree newMode o (e o) s.1).2 →
      Copies newMode A (f (stepTree newMode o (e o) s.1).1) Q t) : Copies newMode A (ask o >>= f) Q s := by
  intro e he
  have hnext := h e ((device newMode).step o e s).2 he rfl
  apply hnext.mono
  intro a tr t hq
  rwa [show closed ⟨o, e, s⟩ = [] from hview _]

/-- An operation that looks. -/
theorem look_copies {o : Op} {f : Res o → CopyProg α} (hview : ∀ e, closedOf o e = [])
    (hkeep : ∀ e t, (stepTree newMode o e t).2 = t)
    (h : ∀ e, A ⟨o, e, s⟩ → Copies newMode A (f (stepTree newMode o (e o) s.1).1) Q s) :
    Copies newMode A (ask o >>= f) Q s := by
  apply ask_copies hview
  intro e t he ht
  obtain rfl : t = s := Subtype.ext (ht.trans (hkeep _ _))
  exact h e he

/-- A program under `platform_fs.c` shows nothing. -/
theorem fs_copies {c : Contract FsOp FsOutcome Fs} {p : FsProg α} {R : α → Fs → Prop}
    (hassumes : ∀ o e (s : Volume), A ⟨.fs o, e, s⟩ → c.assumes ⟨o, e (.fs o), s.1⟩)
    (h : Safe (fsDevice newMode) c R p s.1) :
    Copies newMode A (Copy.fs p) (fun a tr t => tr = [] ∧ R a t.1) s := by
  apply Leaves.embed (fun o e => e (.fs o)) Subtype.val _ hassumes _ h
  · intro o e t
    rfl
  · intro o e t
    rfl

/-! ### Nothing but what is at a path -/

/-- From `s` to `t` nothing but what is at `p`. -/
def SameBut (p : List Bytes) (s t : Volume) : Prop := ∀ q, q ≠ p → t.1.get q = s.1.get q

theorem SameBut.refl (p : List Bytes) (s : Volume) : SameBut p s s := fun _ _ => rfl

theorem SameBut.trans {p : List Bytes} (h : SameBut p s t) (h' : SameBut p t u) : SameBut p s u :=
  fun q hq => (h' q hq).trans (h q hq)

theorem SameBut.fileAt_eq {p q : List Bytes} (h : SameBut p s t) (hq : q ≠ p) : t.1.fileAt q = s.1.fileAt q :=
  fileAt_congr (h q hq)

theorem stepRemoveOne_frame {path : Bytes} {ok : Bool} {t : Fs} {q : List Bytes} (h : q ≠ fsPath path) :
    (stepRemoveOne path ok t).2.get q = t.get q := by
  unfold stepRemoveOne
  split
  · rw [FileTree.get_prune, if_neg (by simpa using h)]
  · rfl

theorem stepFopenWrite_frame {path : Bytes} {ok : Bool} {t : Fs} {q : List Bytes} (h : q ≠ fsPath path) :
    (stepFopenWrite newMode path ok t).2.get q = t.get q := by
  unfold stepFopenWrite
  split
  · exact writeFile_frame h
  · rfl

/-- A file that was opened is there. -/
theorem stepFopenWrite_opened {path : Bytes} {ok : Bool} {t : Fs}
    (h : (stepFopenWrite newMode path ok t).1 = true) :
    ((stepFopenWrite newMode path ok t).2.fileAt (fsPath path)).isSome := by
  unfold stepFopenWrite at h ⊢
  split at h
  · next hopen =>
    rw [if_pos hopen, writeFile, fileAt_set]
    rfl
  · cases h

/-- A file that was closed holds what was stored of it. -/
theorem stepFclose_stored {path written : Bytes} {failed : Option Bytes} {t : Fs}
    (h : (t.fileAt (fsPath path)).isSome) :
    dataAt (stepFclose path (some written) failed t).2 (fsPath path) = some (failed.getD written) := by
  obtain ⟨f, hf⟩ := Option.isSome_iff_exists.mp h
  cases failed with
  | none => exact congrArg (Option.map FileNode.data) (storeFile_fileAt hf written)
  | some part => exact congrArg (Option.map FileNode.data) (storeFile_fileAt hf part)

theorem storeFile_isSome {t : Fs} {p : List Bytes} (h : (t.fileAt p).isSome) (data : Bytes) :
    ((storeFile t p data).fileAt p).isSome := by
  obtain ⟨f, hf⟩ := Option.isSome_iff_exists.mp h
  rw [storeFile_fileAt hf]
  rfl

/-! ## One file -/

/-- How the loop over the blocks ends: the file is still open, and where the loop comes to the end, a file was
    read. -/
structure BlocksEnd (src dst : List Bytes) (s : Volume) (ok : Bool) (t : Volume) : Prop where
  same : SameBut dst s t
  opened : (s.1.fileAt dst).isSome → (t.1.fileAt dst).isSome
  read : ok = true → (s.1.fileAt src).isSome

theorem copyBlocks_ends {src dst : Bytes} (hne : fsPath src ≠ fsPath dst) (blocks : List Bytes) (s : Volume) :
    Copies newMode A (copyBlocks src dst blocks)
      (fun ok tr t => tr = [] ∧ BlocksEnd (fsPath src) (fsPath dst) s ok t) s := by
  -- what one `fwrite` leaves
  have hwrite : ∀ (s : Volume) block (e : Outcome) (t : Volume),
      t.1 = (stepTree newMode (.fwrite dst block) (e (.fwrite dst block)) s.1).2 →
      SameBut (fsPath dst) s t ∧ ((s.1.fileAt (fsPath dst)).isSome → (t.1.fileAt (fsPath dst)).isSome) := by
    intro s block e t ht
    constructor
    · intro q hq
      rw [ht]
      exact storeFile_frame _ hq
    · intro hopen
      rw [ht]
      exact storeFile_isSome hopen _
  induction blocks generalizing s with
  | nil =>
      apply look_copies (fun _ => rfl) (fun _ _ => rfl)
      intro e _
      refine ⟨rfl, .refl _ s, id, ?_⟩
      intro hok
      show (s.1.fileAt (fsPath src)).isSome
      change (stepFread src _ s.1).isNone = true at hok
      unfold stepFread at hok
      split at hok
      · next hfile => exact hfile
      · cases hok
  | cons block blocks ih =>
      apply look_copies (fun _ => rfl) (fun _ _ => rfl)
      intro e _
      cases hread : (stepTree newMode (.fread src block) (e (.fread src block)) s.1).1 with
      | none =>
          apply ask_copies (fun _ => rfl)
          intro e' t _ ht
          obtain ⟨hsame, hopen⟩ := hwrite s block e' t ht
          split
          · apply (ih t).mono
            rintro ok tr u ⟨rfl, hu⟩
            refine ⟨rfl, hsame.trans hu.same, fun h => hu.opened (hopen h), fun hok => ?_⟩
            rw [← hsame.fileAt_eq hne]
            exact hu.read hok
          · exact ⟨rfl, hsame, hopen, fun hok => by cases hok⟩
      | some n =>
          cases n with
          | zero => exact ⟨rfl, .refl _ s, id, fun hok => by cases hok⟩
          | succ n =>
              apply ask_copies (fun _ => rfl)
              intro e' t _ ht
              obtain ⟨hsame, hopen⟩ := hwrite s _ e' t ht
              exact ⟨rfl, hsame, hopen, fun hok => by cases hok⟩

/-- How copying a file ends: nothing but what is at the destination is changed, and where it succeeds, a file is
    there, of which the trace says whether it holds what the source does. -/
structure FileEnds (src dst : List Bytes) (s : Volume) (ok : Bool) (tr : List (List Bytes × Bool)) (t : Volume) :
    Prop where
  same : SameBut dst s t
  failed : ok = false → tr = []
  copied : ok = true → ∃ data part, dataAt s.1 src = some data ∧ dataAt t.1 dst = some part
    ∧ tr = [(dst, part == data)]

theorem FileEnds.of_failed {src dst : List Bytes} (h : SameBut dst s t) : FileEnds src dst s false [] t :=
  ⟨h, fun _ => rfl, fun hok => by cases hok⟩

/-- What is read is a file, or there is nothing to read. -/
theorem stepFopenRead_content {src content : Bytes} {ok : Bool} {t : Fs}
    (h : stepFopenRead src ok t = some content) (hfile : (t.fileAt (fsPath src)).isSome) :
    dataAt t (fsPath src) = some content := by
  obtain ⟨f, hf⟩ := Option.isSome_iff_exists.mp hfile
  unfold stepFopenRead at h
  rw [hf] at h
  split at h
  · rw [dataAt, hf]
    exact h
  · cases h

/-- **`copy_file_once`.** -/
theorem copyFileOnce_ends {src dst : Bytes} (hne : fsPath src ≠ fsPath dst) (s : Volume) :
    Copies newMode A (copyFileOnce src dst) (FileEnds (fsPath src) (fsPath dst) s) s := by
  apply look_copies (fun _ => rfl) (fun _ _ => rfl)
  intro e _
  cases hread : (stepTree newMode (.fopenRead src) (e (.fopenRead src)) s.1).1 with
  | none => exact .of_failed (.refl _ s)
  | some content =>
      apply ask_copies (fun _ => rfl)
      intro e₁ s₁ _ hs₁
      have hsame₁ : SameBut (fsPath dst) s s₁ := by
        intro q hq
        rw [hs₁]
        exact stepFopenWrite_frame hq
      split
      · next hopened =>
        have hopen₁ : (s₁.1.fileAt (fsPath dst)).isSome := by
          rw [hs₁]
          exact stepFopenWrite_opened hopened
        apply (copyBlocks_ends hne (fileBlocks content) s₁).seq
        rintro copied tr s₂ ⟨rfl, h₂⟩
        have hsame₂ : SameBut (fsPath dst) s s₂ := hsame₁.trans h₂.same
        cases copied with
        | true =>
            have hdata : dataAt s.1 (fsPath src) = some content := by
              apply stepFopenRead_content hread
              rw [← hsame₁.fileAt_eq hne]
              exact h₂.read rfl
            intro e₃ _
            refine ⟨?_, ?_, fun _ => ⟨content, _, hdata, stepFclose_stored (h₂.opened hopen₁), ?_⟩⟩
            · apply hsame₂.trans
              intro q hq
              exact stepFclose_frame hq
            · intro hok
              cases hok
            · rw [List.append_nil, List.nil_append, fileBlocks, flatten_cutBlocks]
              rfl
        | false =>
            apply ask_copies (fun _ => rfl)
            intro e₃ s₃ _ hs₃
            apply ask_copies (fun _ => rfl)
            intro e₄ s₄ _ hs₄
            apply FileEnds.of_failed
            apply hsame₂.trans
            intro q hq
            rw [hs₄, ← show s₃.1.get q = s₂.1.get q by rw [hs₃]; exact stepFclose_frame hq]
            exact stepRemoveOne_frame hq
      · exact .of_failed hsame₁

theorem copyFileAttempts_ends {src dst : Bytes} (hne : fsPath src ≠ fsPath dst) (n : Nat) (s : Volume) :
    Copies newMode A (copyFileAttempts src dst n) (FileEnds (fsPath src) (fsPath dst) s) s := by
  induction n generalizing s with
  | zero => exact .of_failed (.refl _ s)
  | succ n ih =>
      apply (copyFileOnce_ends hne s).seq
      intro copied tr s₁ hends
      cases copied with
      | true =>
          show FileEnds _ _ s true (tr ++ []) s₁
          rwa [List.append_nil]
      | false =>
          obtain rfl := hends.failed rfl
          apply ask_copies (fun _ => rfl)
          intro e s₂ _ hs₂
          have hsame : SameBut (fsPath dst) s s₂ := by
            apply hends.same.trans
            intro q hq
            rw [hs₂]
            exact stepRemoveOne_frame hq
          apply (ih s₂).mono
          intro ok tr t ht
          refine ⟨hsame.trans ht.same, ht.failed, fun hok => ?_⟩
          have hsrc : dataAt s₂.1 (fsPath src) = dataAt s.1 (fsPath src) := dataAt_congr (hsame _ hne)
          rw [← hsrc]
          exact ht.copied hok

/-- **`copy_file_retries`**, whatever fails. -/
theorem copyFileRetries_ends {src dst : Bytes} (hne : fsPath src ≠ fsPath dst) (s : Volume) :
    Copies newMode A (copyFileRetries src dst) (FileEnds (fsPath src) (fsPath dst) s) s :=
  copyFileAttempts_ends hne 8 s

end

end Copy

end LibUpdate
