import LibUpdate.Download.Atomicity

/-!
# `Download.Pin` — when a download is checked against the pinned digest

`update_download` copies the pinned digest while it holds the lock. A copy that cannot be allocated is the same
null pointer as no pin at all, so the body is then not checked. This is the only way past the check: where no
allocation fails, a download that succeeds has the pinned digest.
-/

namespace LibUpdate

namespace Download

section

variable {A : Event Op Outcome State → Prop} {s t : State}

/-- If it allocates memory, the event does so. -/
def MallocOk (ev : Event Op Outcome State) : Prop :=
  ∀ n, ev.op = .lib (.malloc n) → ev.outcome (.lib (.malloc n)) = true

/-- Events as `A` assumes, and nothing shown but of the end. -/
def assuming (A : Event Op Outcome State → Prop) : Contract Op Outcome State := ⟨A, fun _ => True, fun _ => True⟩

/-- Where memory is given, the pin is copied. -/
theorem dupPin_ends (pin : Bytes) (s : LibState) :
    Ends (libAssumes MallocOk) (dupOrNull (some pin)) (fun r _ _ => r = some pin) s := by
  show Ends (libAssumes MallocOk) (dupStr pin) _ s
  apply Leaves.perform
  rintro e given t ⟨e', s', he, hmalloc⟩ ⟨⟩
  have hgiven : e (.malloc (pin.length + 1)) = true := by
    have he : e = fun o => e' (.lib o) := he
    rw [he]
    exact hmalloc _ rfl
  show (if e (.malloc (pin.length + 1)) then some pin else none) = some pin
  rw [if_pos hgiven]

/-- **A pin that was copied is checked**: the download succeeds only where the file has the digest. -/
theorem checkPin_checks (fuel : Nat) (dest : Bytes) {pin : Bytes} (hne : pin ≠ []) :
    Safe device (assuming A) (fun r t => r = some .ok → ∃ content, dataAt t.fs (fsPath dest) = some content
      ∧ HasDigest content pin) (checkPin fuel dest (some pin)) s := by
  have hpin : holdsText (some pin) = true := by simpa [holdsText] using hne
  unfold checkPin
  rw [if_pos hpin]
  apply Safe.bind
  apply (lib_keeps (c := assuming A) (fun _ => trivial) (updateVerify_keeps fuel dest pin)
    (updateVerify_ends fuel dest pin s.lib)
    (Q := fun r => r = some .ok → ∃ content, dataAt s.fs (fsPath dest) = some content ∧ HasDigest content pin)
    ?_ trivial).mono
  · rintro verified t ⟨rfl, hok⟩
    split
    · intro h
      cases h
    · intro _
      exact hok rfl
    · intro e _
      refine ⟨trivial, trivial, ?_⟩
      intro h
      cases h
  · rintro r tr ⟨_, _, hok⟩ hr
    obtain ⟨content, _, hdata, hdigest⟩ := hok hr
    exact ⟨content, hdata, hdigest⟩

/-- Where no allocation fails, a download that succeeds has the pinned digest. -/
theorem updateDownload_checks (fuel : Nat) (url dest : Bytes) {pin : Bytes}
    (hpin : s.lib.session.ctx.expectedSha256 = some pin) (hne : pin ≠ []) :
    Safe device (assuming MallocOk) (fun r t => r = some .ok → ∃ content, dataAt t.fs (fsPath dest) = some content
      ∧ HasDigest content pin) (updateDownload fuel url dest) s := by
  have hfail : ∀ t : State, some UpdateStatus.error = some .ok →
      ∃ content, dataAt t.fs (fsPath dest) = some content ∧ HasDigest content pin := by
    intro _ h
    cases h
  unfold updateDownload
  split
  · exact hfail s
  apply Safe.perform
  rintro e ctx t _ ⟨⟩
  refine ⟨trivial, trivial, ?_⟩
  split
  · exact hfail s
  apply Safe.bind
  apply (lib_keeps (c := assuming MallocOk) (fun _ => trivial) (dupStr_keeps url) (dupStr_ends url _)
    (Q := fun _ => True) (fun _ _ _ => trivial) trivial).mono
  rintro urlCopy s ⟨rfl, _⟩
  rw [hpin]
  apply Safe.bind
  apply (lib_keeps (c := assuming MallocOk) (fun _ => trivial) (dupOrNull_keeps _) (dupPin_ends pin _)
    (Q := fun r => r = some pin) (fun _ _ h => h) trivial).mono
  rintro expectCopy s ⟨rfl, rfl⟩
  cases urlCopy with
  | none => exact hfail s
  | some url' =>
      apply Safe.bind
      have hstart : Untouched dest (s.fs.get (fsPath dest)) s := rfl
      have hstream : Safe device (assuming MallocOk) (StreamEnds dest (s.fs.get (fsPath dest)))
          (updateHttpStreamDownload url' dest) s :=
        (updateHttpStreamDownload_safe (A := MallocOk) url' hstart).weaken (fun _ h => h) (fun _ h => h)
          fun _ _ => trivial
      apply hstream.mono
      intro done t _
      cases done with
      | false => exact hfail t
      | true => exact checkPin_checks fuel dest hne

end

/-- **A download that succeeds has the pinned digest exactly where none of its allocations failed, or the body
    that was delivered has the digest anyway.** -/
theorem updateDownload_pin_iff (fuel : Nat) (url dest : Bytes) (s : State) (es : List Outcome) {pin : Bytes}
    (hpin : s.lib.session.ctx.expectedSha256 = some pin) (hne : pin ≠ [])
    (hok : (runOf fuel url dest es s).result = some (some .ok)) :
    (∃ content, dataAt (runOf fuel url dest es s).final.fs (fsPath dest) = some content ∧ HasDigest content pin)
      ↔ (∀ ev ∈ (runOf fuel url dest es s).events, MallocOk ev)
        ∨ ∃ c body, (runOf fuel url dest es s).final.conn = some c ∧ delivered c = some body
          ∧ HasDigest body pin := by
  have hstart : Untouched dest (s.fs.get (fsPath dest)) s := rfl
  obtain ⟨c, body, hconn, hbody, hdata⟩ :=
    (((updateDownload_safe (A := fun _ => True) fuel url dest hstart).run_sound (fun _ _ => trivial)).2 _ hok).1 rfl
  constructor
  · rintro ⟨content, hcontent, hdigest⟩
    obtain rfl : body = content := Option.some.inj (hdata.symm.trans hcontent)
    exact Or.inr ⟨c, body, hconn, hbody, hdigest⟩
  · rintro (hmalloc | ⟨c', body', hconn', hbody', hdigest⟩)
    · exact ((updateDownload_checks fuel url dest hpin hne).run_sound hmalloc).2 _ hok rfl
    · obtain rfl : c = c' := Option.some.inj (hconn.symm.trans hconn')
      obtain rfl : body = body' := Option.some.inj (hbody.symm.trans hbody')
      exact ⟨body, hdata, hdigest⟩

/-- A pin of 64 zeros. -/
def zeroPin : Bytes := List.replicate 64 (ch '0')

/-- Every operation turns out well but the allocation of 65 bytes, which the copy of the pin needs. -/
def leaky : Outcome
  | .lib (.malloc n) => decide (n ≠ 65)
  | o => smooth pageConn o

theorem leaky_succeeds :
    (runOf 0 (ascii "http://h/") (ascii "/d") (List.replicate 12 leaky) (startState (some zeroPin))).result
      = some (some .ok) := by
  decide +kernel

/-- `x` has another digest than zero. -/
theorem lacksDigest_x : LacksDigest (ascii "x") zeroPin := by
  have hparse : parseSha256Hex zeroPin = some (.replicate 32 0) := by decide +kernel
  have hhash : (hashBlocks 100 (ascii "x")).map
      (fun ctx => sha256DigestEqualsCt (Sha256.sha256Final ctx (.replicate 32 0)) (.replicate 32 0)) = some 1 := by
    decide +kernel
  obtain ⟨ctx, hctx, hone⟩ := Option.map_eq_some_iff.mp hhash
  apply lacksDigest_of_unequal hparse hctx
  rw [hone]
  decide

theorem updateDownload_pin_iff_leaky :
    (∃ content, dataAt (runOf 0 (ascii "http://h/") (ascii "/d") (List.replicate 12 leaky)
          (startState (some zeroPin))).final.fs (fsPath (ascii "/d")) = some content ∧ HasDigest content zeroPin)
      ↔ (∀ ev ∈ (runOf 0 (ascii "http://h/") (ascii "/d") (List.replicate 12 leaky)
            (startState (some zeroPin))).events, MallocOk ev)
        ∨ ∃ c body, (runOf 0 (ascii "http://h/") (ascii "/d") (List.replicate 12 leaky)
            (startState (some zeroPin))).final.conn = some c ∧ delivered c = some body
          ∧ HasDigest body zeroPin :=
  updateDownload_pin_iff _ _ _ _ _ rfl (by decide +kernel) leaky_succeeds

/-- A download with a pin succeeds with a file that has another digest. -/
theorem updateDownload_unchecked :
    ¬ ∀ (fuel : Nat) (url dest : Bytes) (s : State) (es : List Outcome) (pin : Bytes),
        s.lib.session.ctx.expectedSha256 = some pin → pin ≠ [] →
        (runOf fuel url dest es s).result = some (some .ok) →
        ∃ content, dataAt (runOf fuel url dest es s).final.fs (fsPath dest) = some content
          ∧ HasDigest content pin := by
  intro h
  obtain ⟨content, hcontent, hdigest⟩ := h _ _ _ _ _ zeroPin rfl (by decide +kernel) leaky_succeeds
  have hfile : dataAt (runOf 0 (ascii "http://h/") (ascii "/d") (List.replicate 12 leaky)
      (startState (some zeroPin))).final.fs (fsPath (ascii "/d")) = some (ascii "x") := by
    decide +kernel
  obtain rfl : ascii "x" = content := Option.some.inj (hfile.symm.trans hcontent)
  have hm : (⟨ascii "x", by decide +kernel⟩ : Fips180.Message).bytes = ascii "x" := rfl
  exact lacksDigest_x _ hm (hdigest _ hm)

end Download

end LibUpdate
