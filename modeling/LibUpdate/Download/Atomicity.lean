import LibUpdate.Download.Steps

/-!
# `Download.Atomicity` — what a download leaves at its destination

`update_download` succeeds with the complete body at the destination. It fails with the destination as it was,
or, where the pinned digest did not match, with nothing there; and in no state in between does the destination
hold anything but what it held before or the complete body.
-/

namespace LibUpdate

namespace Download

section

variable {α : Type} {A : Event Op Outcome State → Prop} {dest : Bytes} {g : Option (Node FileNode)} {s t : State}

/-! ## The check of the pin -/

theorem dupStr_keeps (x : Bytes) : (dupStr x).Keeps libDevice := .op (fun _ _ => rfl) fun _ => .ret

theorem dupOrNull_keeps (x : Option Bytes) : (dupOrNull x).Keeps libDevice := by
  cases x with
  | none => exact .ret
  | some x => exact dupStr_keeps x

/-- A copy is the string, where there is one. -/
theorem dupOrNull_ends {A' : Event LibOp LibOutcome LibState → Prop} (x : Option Bytes) (s : LibState) :
    Ends A' (dupOrNull x) (fun r _ _ => ∀ y, r = some y → x = some y) s := by
  cases x with
  | none =>
      intro y hy
      cases hy
  | some x =>
      apply (dupStr_ends x s).mono
      rintro r tr t ⟨_, _, hcopy⟩ y hy
      rw [hcopy y hy]

theorem updateVerify_keeps (fuel : Nat) (file written : Bytes) : (updateVerify fuel file written).Keeps libDevice := by
  unfold updateVerify
  split
  · exact .ret
  split
  · exact .ret
  apply Prog.Keeps.perform (fun _ _ => rfl)
  intro contents
  split
  · exact .ret
  split
  · exact .ret
  split
  · exact .ret
  split
  · exact .ret
  · exact .ret

/-- The bytes do not have the written digest. -/
def LacksDigest (content written : Bytes) : Prop :=
  ∀ m : Fips180.Message, m.bytes = content → parseSha256Hex written ≠ some m.digest

/-- Different from the digest that is expected, the hash says what the bytes were not. -/
theorem lacksDigest_of_unequal {fuel : Nat} {data written expectBin : Bytes} {ctx : Sha256.Sha256Ctx}
    (hparse : parseSha256Hex written = some expectBin) (hhash : hashBlocks fuel data = some ctx)
    (hne : sha256DigestEqualsCt (Sha256.sha256Final ctx (.replicate 32 0)) expectBin ≠ 0) :
    LacksDigest data written := by
  intro m hm hwritten
  have hfinal : Sha256.sha256Final ctx (.replicate 32 0) = m.digest :=
    Sha256.sha256Final_of_updates hhash (by rw [hm, flatten_freadBlocks]) _
  have hlen : m.digest.length = expectBin.length := by
    rw [Sha256.length_digest, length_parseSha256Hex hparse]
  rw [hfinal] at hne
  rw [hparse] at hwritten
  exact hne ((sha256DigestEqualsCt_eq_zero hlen).mpr (Option.some.inj hwritten).symm)

/-- Reading the destination back does not fail. -/
def ReadsBack (A : Event Op Outcome State → Prop) (dest : Bytes) : Prop :=
  ∀ e s, A ⟨.lib (.readFile dest), e, s⟩ → e (.lib (.readFile dest)) = .complete

/-- Removing the destination does not fail. Then a file that lacks the pinned digest is gone when the call returns.
    -/
def RemovesDest (A : Event Op Outcome State → Prop) (dest : Bytes) : Prop :=
  ∀ e s, A ⟨.lib (.removePath dest), e, s⟩ → (e (.lib (.removePath dest))).ok = true

/-- A file that is read to its end is refused only where it lacks the digest. -/
theorem updateVerify_refuses {A' : Event LibOp LibOutcome LibState → Prop} (fuel : Nat) {file written body : Bytes}
    (hfile : file ≠ []) (hwritten : written ≠ []) {s : LibState} (hdata : dataAt s.fs (fsPath file) = some body)
    (hread : ∀ e s, A' ⟨.readFile file, e, s⟩ → e (.readFile file) = .complete) :
    Ends A' (updateVerify fuel file written)
      (fun r _ _ => ∀ st, r = some st → st ≠ .ok → LacksDigest body written) s := by
  unfold updateVerify
  rw [if_neg (by simp [hfile, hwritten])]
  cases hparse : parseSha256Hex written with
  | none =>
      intro _ _ _ m _ hm
      rw [hparse] at hm
      cases hm
  | some expectBin =>
      apply Leaves.perform
      rintro e contents t he ⟨⟩
      have hcontents : stepReadFile file (e (.readFile file)) s.fs = some (body, false) := by
        unfold stepReadFile
        rw [hdata, hread e s he]
      simp only [hcontents]
      cases hhash : hashBlocks fuel body with
      | none =>
          intro _ h
          cases h
      | some ctx =>
          simp only [Bool.false_eq_true, if_false]
          split
          · next hne =>
            intro _ _ _
            exact lacksDigest_of_unequal hparse hhash hne
          · intro st h hst
            exact absurd (Option.some.inj h).symm hst

/-- Removing a file takes it away, or leaves it where that fails. -/
theorem stepRemove_file {path data : Bytes} {t : Fs} (e : FsOutcome) (h : dataAt t (fsPath path) = some data) :
    (stepRemove path e t).2.get (fsPath path) = if e.ok then none else t.get (fsPath path) := by
  have hsome : ¬ (t.get (fsPath path)).isNone = true := by
    intro hnone
    rw [dataAt, FileTree.fileAt, Option.isNone_iff_eq_none.mp hnone] at h
    cases h
  unfold stepRemove
  rw [if_neg hsome]
  cases e.ok with
  | true =>
      show (t.removeUnder (fsPath path)).get (fsPath path) = none
      rw [FileTree.get_removeUnder, if_pos (List.prefix_refl _)]
  | false =>
      show (t.prune (partlyGone (fsPath path) e.removed)).get (fsPath path) = t.get (fsPath path)
      rw [FileTree.get_prune, if_neg]
      intro hgone
      -- what goes is strictly below
      obtain ⟨n, _, hn⟩ := List.any_eq_true.mp hgone
      simp only [Bool.and_eq_true, decide_eq_true_eq] at hn
      omega

/-- How a download fails: the destination is as it was, or a body that was delivered was refused. -/
def Fails (A : Event Op Outcome State → Prop) (dest : Bytes) (g : Option (Node FileNode)) (pin : Option Bytes)
    (t : State) : Prop :=
  Untouched dest g t ∨ holdsText pin = true ∧ (RemovesDest A dest → Withdrawn dest t)
    ∧ (ReadsBack A dest → ∀ c body, t.conn = some c → delivered c = some body → LacksDigest body (pin.getD []))

/-- How a download ends: what it says of the destination for each status. The theorem about runs is read off it. -/
def DownloadEnds (A : Event Op Outcome State → Prop) (dest : Bytes) (g : Option (Node FileNode))
    (pin : Option Bytes) (r : Option UpdateStatus) (t : State) : Prop :=
  (r = some .ok → Holds dest t) ∧ (r = some .error → Fails A dest g pin t)

theorem DownloadEnds.failed {pin : Option Bytes} (h : Untouched dest g t) :
    DownloadEnds A dest g pin (some .error) t := ⟨fun h => (by cases h), fun _ => Or.inl h⟩

/-- A body that was refused is removed. -/
theorem removeRefused_safe {pin : Option Bytes} (hs : Holds dest s) (hpin : holdsText pin = true)
    (hlacks : ReadsBack A dest →
      ∀ c body, s.conn = some c → delivered c = some body → LacksDigest body (pin.getD [])) :
    Safe device (destContract A dest g) (DownloadEnds A dest g pin)
      (do let _ ← lib (LibUpdate.ask (.removePath dest)); pure (some .error)) s := by
  obtain ⟨c, body, hconn, hbody, hdata⟩ := id hs
  intro e he
  have hnode : (device.step (.lib (.removePath dest)) e s).2.fs.get (fsPath dest)
      = if (e (.lib (.removePath dest))).ok then none else s.fs.get (fsPath dest) := stepRemove_file _ hdata
  have hgone : (e (.lib (.removePath dest))).ok = true →
      Withdrawn dest (device.step (.lib (.removePath dest)) e s).2 := by
    intro hok
    rw [if_pos hok] at hnode
    exact ⟨c, body, hconn, hbody, hnode⟩
  have hleft : ¬ (e (.lib (.removePath dest))).ok = true →
      Holds dest (device.step (.lib (.removePath dest)) e s).2 := by
    intro hok
    rw [if_neg hok] at hnode
    exact ⟨c, body, hconn, hbody, (dataAt_congr hnode).trans hdata⟩
  refine ⟨trivial, ?_, fun h => (by cases h), fun _ => Or.inr ⟨hpin, fun hrm => hgone (hrm e s he), hlacks⟩⟩
  by_cases hok : (e (.lib (.removePath dest))).ok = true
  · exact Or.inr (Or.inr (hgone hok))
  · exact Or.inr (Or.inl (hleft hok))

/-- **The check of the pin** keeps a body that it accepts and removes one that it refuses. -/
theorem checkPin_safe (fuel : Nat) {expectCopy pin : Option Bytes} (hcopy : ∀ y, expectCopy = some y → pin = some y)
    (hdest : dest ≠ []) (hs : Holds dest s) :
    Safe device (destContract A dest g) (DownloadEnds A dest g pin) (checkPin fuel dest expectCopy) s := by
  unfold checkPin
  split
  case isFalse => exact ⟨fun _ => hs, fun h => by cases h⟩
  next hpin =>
  obtain ⟨c, body, hconn, hbody, hdata⟩ := id hs
  obtain ⟨written, hwritten, hne⟩ : ∃ y, expectCopy = some y ∧ y ≠ [] := by
    cases expectCopy with
    | none => cases hpin
    | some y => exact ⟨y, rfl, by simpa [holdsText] using hpin⟩
  obtain rfl := hcopy written hwritten
  rw [hwritten, Option.getD_some]
  -- what refusing the body says about it, where it was read
  have hverify : Ends (libAssumes A) (updateVerify fuel dest written)
      (fun r _ _ => ReadsBack A dest → ∀ st, r = some st → st ≠ .ok → LacksDigest body written) s.lib := by
    by_cases hread : ReadsBack A dest
    · apply (updateVerify_refuses fuel hdest hne hdata _).mono
      · intro r _ _ h _
        exact h
      · rintro e' _ ⟨e, t, rfl, he⟩
        exact hread e t he
    · exact (updateVerify_ends fuel dest written s.lib).mono fun _ _ _ _ h => absurd h hread
  apply Safe.bind
  apply (lib_keeps (fun _ => trivial) (updateVerify_keeps fuel dest written) hverify
    (Q := fun r => ReadsBack A dest → ∀ st, r = some st → st ≠ .ok → LacksDigest body written)
    (fun _ _ h => h) (Or.inr (Or.inl hs))).mono
  rintro verified t ⟨rfl, hlacks⟩
  split
  · exact ⟨fun h => (by cases h), fun h => by cases h⟩
  · exact ⟨fun _ => hs, fun h => by cases h⟩
  · next _ st hst =>
    rw [hwritten] at hpin
    apply removeRefused_safe hs hpin
    intro hread c' body' hc' hbody'
    obtain rfl : c = c' := Option.some.inj (hconn.symm.trans hc')
    obtain rfl : body = body' := Option.some.inj (hbody.symm.trans hbody')
    exact hlacks hread st rfl hst

/-! ## The download -/

/-- **`update_download`** ends as it should from every state. -/
theorem updateDownload_safe (fuel : Nat) (url dest : Bytes) (hs : Untouched dest g s) :
    Safe device (destContract A dest g) (DownloadEnds A dest g s.lib.session.ctx.expectedSha256)
      (updateDownload fuel url dest) s := by
  unfold updateDownload
  split
  · exact .failed hs
  apply Safe.perform
  rintro e ctx t _ ⟨⟩
  refine ⟨trivial, hs.shown, ?_⟩
  split
  · exact .failed hs
  next hvalid =>
  have hdest : dest ≠ [] := by
    rintro rfl
    simp at hvalid
  apply Safe.bind
  apply (lib_keeps (fun _ => trivial) (dupStr_keeps url) (dupStr_ends url _)
    (Q := fun r => ∀ y, r = some y → y = url) (fun _ _ h => h.2.2) hs.shown).mono
  rintro urlCopy s ⟨rfl, hurl⟩
  apply Safe.bind
  apply (lib_keeps (fun _ => trivial) (dupOrNull_keeps _) (dupOrNull_ends _ _)
    (Q := fun r => ∀ y, r = some y → s.lib.session.ctx.expectedSha256 = some y) (fun _ _ h => h) hs.shown).mono
  rintro expectCopy s ⟨rfl, hcopy⟩
  cases urlCopy with
  | none => exact .failed hs
  | some url' =>
      apply Safe.bind
      apply (updateHttpStreamDownload_safe url' hs).mono
      intro done t hends
      cases done with
      | false => exact .failed hends
      | true => exact checkPin_safe fuel hcopy hdest hends

end

/-- A run of `update_download`. -/
abbrev runOf (fuel : Nat) (url dest : Bytes) (es : List Outcome) (s : State) :
    Run Op Outcome State (Option UpdateStatus) := device.run (updateDownload fuel url dest) es s

/-- If it removes the destination, the event does so. -/
def RemovalOk (dest : Bytes) (ev : Event Op Outcome State) : Prop :=
  ev.op = .lib (.removePath dest) → (ev.outcome (.lib (.removePath dest))).ok = true

/-- If it reads the destination, the event reads it to its end. -/
def ReadOk (dest : Bytes) (ev : Event Op Outcome State) : Prop :=
  ev.op = .lib (.readFile dest) → ev.outcome (.lib (.readFile dest)) = .complete

/-- **Downloads are atomic.** Whatever the server sends and whichever operation fails: a download that succeeds
    leaves the complete body at the destination. One that fails leaves it as it was, or removes a complete body
    that the check of the pin refused, because it lacks the digest or could not be read back. In between, the
    destination is as it was, or holds the complete body, or has lost it again. -/
theorem updateDownload_atomic (fuel : Nat) (url dest : Bytes) (s : State) (es : List Outcome)
    (hremove : ∀ ev ∈ (runOf fuel url dest es s).events, RemovalOk dest ev) :
    ((runOf fuel url dest es s).result = some (some .ok) → Holds dest (runOf fuel url dest es s).final)
      ∧ ((runOf fuel url dest es s).result = some (some .error) →
        (runOf fuel url dest es s).final.fs.get (fsPath dest) = s.fs.get (fsPath dest)
          ∨ ∃ pin, s.lib.session.ctx.expectedSha256 = some pin ∧ pin ≠ []
            ∧ Withdrawn dest (runOf fuel url dest es s).final
            ∧ ((∀ ev ∈ (runOf fuel url dest es s).events, ReadOk dest ev) →
              ∀ c body, (runOf fuel url dest es s).final.conn = some c → delivered c = some body →
                LacksDigest body pin))
      ∧ ∀ ev ∈ (runOf fuel url dest es s).events,
        (device.after ev).fs.get (fsPath dest) = s.fs.get (fsPath dest) ∨ Holds dest (device.after ev)
          ∨ Withdrawn dest (device.after ev) := by
  have hstart : Untouched dest (s.fs.get (fsPath dest)) s := rfl
  obtain ⟨hevents, hends⟩ :=
    (updateDownload_safe (A := RemovalOk dest) fuel url dest hstart).run_sound hremove
  refine ⟨fun hr => (hends _ hr).1 rfl, ?_, fun ev hev => (hevents ev hev).2⟩
  intro hr
  rcases (hends _ hr).2 rfl with hsame | ⟨hpin, hwithdrawn, _⟩
  · exact Or.inl hsame
  by_cases hsame : (runOf fuel url dest es s).final.fs.get (fsPath dest) = s.fs.get (fsPath dest)
  · exact Or.inl hsame
  obtain ⟨pin, hctx, hne⟩ : ∃ pin, s.lib.session.ctx.expectedSha256 = some pin ∧ pin ≠ [] := by
    cases hctx : s.lib.session.ctx.expectedSha256 with
    | none =>
        rw [hctx] at hpin
        cases hpin
    | some pin =>
        rw [hctx] at hpin
        exact ⟨pin, rfl, by simpa [holdsText] using hpin⟩
  refine Or.inr ⟨pin, hctx, hne, hwithdrawn fun e t h => h rfl, ?_⟩
  -- why the body was refused, in runs in which it was read back
  intro hread
  have hboth := ((updateDownload_safe (A := fun ev => RemovalOk dest ev ∧ ReadOk dest ev) fuel url dest
    hstart).run_sound (fun ev hev => ⟨hremove ev hev, hread ev hev⟩)).2 _ hr
  rcases hboth.2 rfl with h | ⟨_, _, hlacks⟩
  · exact absurd h hsame
  · rw [hctx] at hlacks
    exact hlacks fun e t h => h.2 rfl

/-- Every operation turns out well, and this arrives on the connection. -/
def smooth (c : Conn) : Outcome
  | .lib (.locked _) => []
  | .lib (.malloc _) => true
  | .lib .manifestMemory => ⟨fun _ => true, fun _ => true⟩
  | .lib (.fetch _) => none
  | .lib .getenvTmpdir => none
  | .lib .time => 0
  | .lib .getpid => 0
  | .lib (.createDirectory _) => []
  | .lib (.streamDownload _ _) => .failed none
  | .lib (.readFile _) => .complete
  | .lib (.removePath _) => okOutcome
  | .lib (.verifySignature _ _) => 0
  | .lib .getcwd => none
  | .lib .readlinkExe => none
  | .lib .pipe => false
  | .lib (.fork _ _ _) => .none
  | .locked => ()
  | .connect _ => true
  | .send _ => some c
  | .headerMemory => memory
  | .fopen _ => true
  | .fwrites _ => (fun _ _ => false, [])
  | .fclose _ _ => none
  | .move _ _ => okOutcome

/-- A response that the transport takes: the first number of its first line is 200, and its body is `x`. -/
def pageConn : Conn := ⟨[⟨ascii "HTTP/200 OK\r\n\r\nx", by decide +kernel⟩], false⟩

/-- The library is initialised with this pin, in an empty file system. -/
def startState (pin : Option Bytes) : State :=
  ⟨⟨⟨{ UpdateContext.zero with initialized := true, expectedSha256 := pin }, 1⟩, []⟩, none⟩

/-- A download without a pin, in which every operation turns out well. -/
theorem updateDownload_atomic_smooth :
    (∀ ev ∈ (runOf 0 (ascii "http://h/") (ascii "/d") (List.replicate 12 (smooth pageConn)) (startState none)).events,
        RemovalOk (ascii "/d") ev)
      ∧ Holds (ascii "/d")
        (runOf 0 (ascii "http://h/") (ascii "/d") (List.replicate 12 (smooth pageConn)) (startState none)).final := by
  have hremove : ∀ ev ∈ (runOf 0 (ascii "http://h/") (ascii "/d") (List.replicate 12 (smooth pageConn))
      (startState none)).events, RemovalOk (ascii "/d") ev := by
    intro ev hev _
    rw [List.eq_of_mem_replicate (device.outcome_mem hev)]
    rfl
  exact ⟨hremove, (updateDownload_atomic _ _ _ _ _ hremove).1 (by decide +kernel)⟩

end Download

end LibUpdate
