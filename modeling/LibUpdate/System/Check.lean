import LibUpdate.Download.Response
import LibUpdate.Html.Document
import LibUpdate.Perform.Gate

/-!
# `System.Check` — what an application learns from `update_check`

A check fetches a manifest, reads its members, compares the versions and cleans the description. Each of these
has its own module; here they are put together along the runs of `update_check`, and from the bytes that a server
sends up to the record that the application is given.
-/

namespace LibUpdate

/-! ## Descriptions -/

/-- Escaped text is an allowed document without tags. -/
theorem allowedDoc_escaped (s : Bytes) : AllowedDoc (escaped s) := .of_atom (Or.inl (escapedText_escaped s))

/-- **Whatever a manifest says, its description is an allowed document**: balanced allowed tags, links with safe
    targets, and escaped text between them. -/
theorem ManifestRead.description_allowed {body : Bytes} {out : UpdateInfo} (h : ManifestRead body out) {d : Bytes}
    (hd : out.description = some d) : AllowedDoc d := by
  obtain ⟨v, _, hhtml, hplain⟩ := h.description d hd
  by_cases hwants : WantsHtml body
  · obtain ⟨fuel, hrun⟩ := hhtml hwants
    exact sanitize_allowed hrun
  · rw [hplain hwants]
    exact allowedDoc_escaped v

/-! ## The record -/

/-- What a check that came to a manifest tells the application. The versions are compared as they are read, with 32 bits
    of each number. -/
structure Told (version body : Bytes) (status : UpdateStatus) (out : UpdateInfo) : Prop where
  read : ManifestRead body out
  is_version : (parseSemver3 (cstr out.version.toList)).isSome
  available : status = .available ↔ NewerAsRead (cstr out.version.toList) version
  otherwise : status = .available ∨ status = .notAvailable
  description : ∀ d, out.description = some d → AllowedDoc d

/-- Where the numbers of both versions fit in 32 bits, an update is available exactly if its version is strictly
    newer. -/
theorem Told.strictly {version body : Bytes} {status : UpdateStatus} {out : UpdateInfo}
    (h : Told version body status out) (hremote : SmallVersion (cstr out.version.toList))
    (hlocal : SmallVersion version) :
    status = .available ↔ StrictlyNewer (cstr out.version.toList) version :=
  h.available.trans (newerAsRead_iff_strictlyNewer hremote hlocal)

/-- `judgeVersion` ends with an error exactly where the manifest has no version, and then nothing is left. -/
theorem judgeVersion_told {version body : Bytes} {out : UpdateInfo} (h : ManifestRead body out) :
    judgeVersion version out = (.error, .zero)
      ∨ Told version body (judgeVersion version out).1 (judgeVersion version out).2 := by
  unfold judgeVersion
  dsimp only
  cases hparse : parseSemver3 (cstr out.version.toList) with
  | none =>
      left
      have hminus : remoteVersionIsNewer (cstr out.version.toList) version = -1 := by
        rw [remoteVersionIsNewer, hparse]
      rw [hminus]
      rfl
  | some r =>
      right
      have hsome : (parseSemver3 (cstr out.version.toList)).isSome := by rw [hparse]; rfl
      have hnewer : remoteVersionIsNewer (cstr out.version.toList) version = 1
          ↔ NewerAsRead (cstr out.version.toList) version := remoteVersionIsNewer_eq_one
      rcases remoteVersionIsNewer_cases (cstr out.version.toList) version with hone | hzero | hminus
      · rw [hone]
        exact ⟨h, hsome, by simpa using hnewer.mp hone, Or.inl rfl, fun d hd => h.description_allowed hd⟩
      · rw [hzero] at hnewer ⊢
        have hnot : ¬ NewerAsRead (cstr out.version.toList) version := fun hyes => by simpa using hnewer.mpr hyes
        exact ⟨h, hsome, by simpa using hnot, Or.inr rfl, fun d hd => h.description_allowed hd⟩
      · -- a version that was read is compared
        rw [remoteVersionIsNewer, hparse] at hminus
        grind

/-! ## Runs -/

section

variable {A : Event LibOp LibOutcome LibState → Prop}

/-- How a check ends that came to fetch the manifest: with an error and an empty record, or with what a manifest says
    that was fetched. It is carried from the parser through the comparison to the return. -/
def CheckEnd (version : Bytes) (fetched : Bytes → Prop) (x : UpdateStatus × UpdateInfo) : Prop :=
  x = (.error, .zero) ∨ ∃ body, fetched body ∧ Told version (cstr body) x.1 x.2

/-- The body is one that `update_http_fetch` can give for this URL while the run meets its assumptions `A`. The theorems
    about servers get from here to what the server has sent. -/
def Fetched (A : Event LibOp LibOutcome LibState → Prop) (url body : Bytes) : Prop :=
  ∃ e s, A ⟨.fetch url, e, s⟩ ∧ e (.fetch url) = some body

/-- `update_remote_check` fetches one body, if it comes that far, and tells what it says. -/
theorem updateRemoteCheck_tells (fuel : Nat) (version url : Bytes) (s : LibState) :
    Ends A (updateRemoteCheck fuel version url)
      (fun r tr t => t = s ∧ ∀ x, r = some x →
        CheckEnd version (fun body => tr = [.fetched url body] ∧ Fetched A url body) x) s := by
  unfold updateRemoteCheck
  split
  · refine ⟨rfl, ?_⟩
    rintro x ⟨⟩
    exact Or.inl rfl
  apply Leaves.perform
  rintro e fetched t hA ⟨⟩
  cases hbody : e (.fetch url) with
  | none =>
      refine ⟨rfl, ?_⟩
      rintro x ⟨⟩
      exact Or.inl rfl
  | some body =>
      have hshow : actsOf ⟨.fetch url, e, s⟩ = [.fetched url body] := by
        simp only [actsOf, hbody]
        rfl
      apply Leaves.perform
      rintro e' alloc t _ ⟨⟩
      rw [hshow]
      split
      · exact ⟨rfl, fun x hx => by cases hx⟩
      next rc out hparse =>
      -- nothing is left of a manifest that was not read
      have hall : AllOrNothing (cstr body) (rc, out) :=
        updateManifestParse_allOrNothing (nul_not_mem_cstr body) hparse
      split
      · next hrc =>
        refine ⟨rfl, ?_⟩
        rintro x ⟨⟩
        rcases hall with ⟨hzero, _⟩ | ⟨_, hout⟩
        · exact absurd hzero hrc
        · exact Or.inl (by rw [show out = .zero from hout])
      · next hrc =>
        refine ⟨rfl, ?_⟩
        rintro x ⟨⟩
        rcases hall with ⟨_, hread⟩ | ⟨hminus, _⟩
        · rcases judgeVersion_told hread with herror | htold
          · exact Or.inl herror
          · exact Or.inr ⟨body, ⟨rfl, e, s, hA, hbody⟩, htold⟩
        · have hminus : rc = -1 := hminus
          rw [hminus] at hrc
          exact absurd (by decide) hrc

/-- What the trace of a run of `update_check` shows that fetched this body: the library was initialised, and the body
    was asked for at the URL of the context that the first locked section read. -/
def CheckShows (A : Event LibOp LibOutcome LibState → Prop) (s : LibState) (tr : List Act) (body : Bytes) : Prop :=
  ∃ calls url, tr = [.locked .updateCheck calls (runCalls calls s.session), .fetched url body]
    ∧ (runCalls calls s.session).ctx.initialized = true ∧ (runCalls calls s.session).ctx.updateUrl = some url
    ∧ Fetched A url body

/-- A check that fails: nothing is left in the record, or the library is not initialised, and the record is as it was
    given. -/
def CheckFails (given : UpdateInfo) (tr : List Act) (x : UpdateStatus × UpdateInfo) : Prop :=
  x = (.error, .zero)
    ∨ x = (.error, given)
      ∧ ∃ calls session, tr = [.locked .updateCheck calls session] ∧ session.ctx.initialized = false

theorem CheckFails.status {given : UpdateInfo} {tr : List Act} {x : UpdateStatus × UpdateInfo}
    (h : CheckFails given tr x) : x.1 = .error := by
  rcases h with rfl | ⟨rfl, _⟩
  · rfl
  · rfl

/-- **`update_check`** asks the URL of the context, as it is when the section is entered. -/
theorem updateCheck_tells (fuel : Nat) (version : Bytes) (given : UpdateInfo) (s : LibState) :
    Ends A (updateCheck fuel version given)
      (fun r tr _ => ∀ x, r = some x →
        CheckFails given tr x ∨ ∃ body, CheckShows A s tr body ∧ Told version (cstr body) x.1 x.2) s := by
  have hnothing : ∀ (tr : List Act) x, (some (.error, .zero) : Option (UpdateStatus × UpdateInfo)) = some x →
      CheckFails given tr x ∨ ∃ body, CheckShows A s tr body ∧ Told version (cstr body) x.1 x.2 := by
    rintro tr x ⟨⟩
    exact Or.inl (Or.inl rfl)
  apply Leaves.perform
  rintro e ctx t _ ⟨⟩
  split
  case isFalse hinit =>
    rintro x ⟨⟩
    exact Or.inl (Or.inr ⟨rfl, _, _, rfl, by simpa using hinit⟩)
  next hinit =>
  split
  · exact hnothing _
  next url hurl =>
  apply (dupStr_ends url _).seq
  rintro copy tr t ⟨rfl, rfl, hcopy⟩
  split
  · exact hnothing _
  next url' =>
  cases hcopy url' rfl
  apply (updateRemoteCheck_tells fuel version url _).mono
  rintro r tr t ⟨_, htold⟩ x hx
  rcases htold x hx with herror | ⟨body, ⟨htr, hfetched⟩, hread⟩
  · exact Or.inl (Or.inl herror)
  · refine Or.inr ⟨body, ⟨e (.locked .updateCheck), url, ?_, hinit, hurl, hfetched⟩, hread⟩
    rw [htr]
    rfl

end

/-- **A check is all or nothing.** In every run of `update_check` that returns, in any environment: after an error
    the record is empty, or the library was not initialised and has left it alone; otherwise the record is that of
    the manifest that was fetched from the URL of the context, an update is available exactly where its version is
    newer as it is read, which is strictly newer where the numbers fit in 32 bits, and its description is an allowed
    document. -/
theorem updateCheck_exact (fuel : Nat) (version : Bytes) (given : UpdateInfo) (es : List LibOutcome) (s : LibState)
    {status : UpdateStatus} {out : UpdateInfo}
    (hresult : (libDevice.run (updateCheck fuel version given) es s).result = some (some (status, out))) :
    CheckFails given ((libDevice.run (updateCheck fuel version given) es s).trace actsOf) (status, out)
      ∨ ∃ calls url body, (libDevice.run (updateCheck fuel version given) es s).trace actsOf
          = [.locked .updateCheck calls (runCalls calls s.session), .fetched url body]
        ∧ (runCalls calls s.session).ctx.initialized = true ∧ (runCalls calls s.session).ctx.updateUrl = some url
        ∧ Told version (cstr body) status out
        ∧ (SmallVersion (cstr out.version.toList) → SmallVersion version →
          (status = .available ↔ StrictlyNewer (cstr out.version.toList) version)) := by
  have htold := (updateCheck_tells (A := fun _ => True) fuel version given s).sound (fun _ _ => trivial) hresult _ rfl
  rcases htold with herror | ⟨body, ⟨calls, url, htrace, hinit, hurl, _⟩, hread⟩
  · exact Or.inl herror
  · exact Or.inr ⟨calls, url, body, htrace, hinit, hurl, hread, hread.strictly⟩

/-- The library is initialised, and the manifest of `Perform.Gate` is fetched. -/
theorem updateCheck_exact_abc :
    ∃ out, (libDevice.run (updateCheck 8 (ascii "1.9") .zero) (.replicate 8 abcOutcome) pinnedState).result
        = some (some (.available, out))
      ∧ ∃ calls url body, Told (ascii "1.9") (cstr body) .available out
        ∧ (libDevice.run (updateCheck 8 (ascii "1.9") .zero) (.replicate 8 abcOutcome) pinnedState).trace actsOf
          = [.locked .updateCheck calls (runCalls calls pinnedState.session), .fetched url body] := by
  have havailable : ((libDevice.run (updateCheck 8 (ascii "1.9") .zero) (.replicate 8 abcOutcome) pinnedState).result.bind
      fun r => r.map Prod.fst) = some .available := by decide +kernel
  obtain ⟨r, hresult, hr⟩ := Option.bind_eq_some_iff.mp havailable
  obtain ⟨⟨_, out⟩, rfl, rfl⟩ := Option.map_eq_some_iff.mp hr
  refine ⟨out, hresult, ?_⟩
  rcases updateCheck_exact 8 (ascii "1.9") .zero (.replicate 8 abcOutcome) pinnedState hresult with
    herror | ⟨calls, url, body, htrace, _, _, htold, _⟩
  · cases herror.status
  · exact ⟨calls, url, body, htold, htrace⟩

/-! ## From the server to the application -/

/-- The server sends one response: whatever the URL, and whatever fails on the way, what `update_http_fetch` gives
    is what it makes of this response. -/
def Serves (es : List LibOutcome) (response : Bytes) (failing : Bool) : Prop :=
  ∀ e ∈ es, ∀ url, ∃ (alloc : Nat → Bool) (net : Net),
    e (.fetch url) = (updateHttpFetch alloc net url).map MemBuf.d
      ∧ ∀ u req c, net u req = some c → c.bytes = response ∧ c.failing = failing

/-- A fetch that gives a body has it from a connection. -/
theorem updateHttpFetch_some {alloc : Nat → Bool} {net : Net} {url : Bytes} {buf : MemBuf}
    (h : updateHttpFetch alloc net url = some buf) :
    ∃ u req c, net u req = some c ∧ fetchResponse alloc c = some buf := by
  unfold updateHttpFetch at h
  split at h
  · cases h
  next u _ =>
  split at h
  · cases h
  next req _ =>
  split at h
  · cases h
  next c hnet => exact ⟨u, req, c, hnet, h⟩

/-- What was fetched from the server is what its response delivers, and is within the limit. -/
theorem Serves.delivered {es : List LibOutcome} {response : Bytes} {failing : Bool}
    (hserves : Serves es response failing) {e : LibOutcome} (he : e ∈ es) {url body : Bytes}
    (hbody : e (.fetch url) = some body) :
    ∃ c : Conn, c.bytes = response ∧ c.failing = failing ∧ LibUpdate.delivered c = some body
      ∧ body.length ≤ updateHttpFetchMax := by
  obtain ⟨alloc, net, hfetch, hnet⟩ := hserves e he url
  rw [hbody] at hfetch
  obtain ⟨buf, hbuf, rfl⟩ := Option.map_eq_some_iff.mp hfetch.symm
  obtain ⟨u, req, c, hconn, hrun⟩ := updateHttpFetch_some hbuf
  obtain ⟨hbytes, hfail⟩ := hnet u req c hconn
  have hboth := fetchResponse_delivered c
  rw [fetchResponse_memory hrun] at hboth
  obtain ⟨hdelivered, hle⟩ := Option.filter_eq_some_iff.mp hboth.symm
  exact ⟨c, hbytes, hfail, hdelivered, by simpa using hle⟩

/-- The manifest of `Perform.Gate` behind a header section that says how long it is. -/
def manifestHead : Bytes := ascii "HTTP 200 OK\r\nContent-Length: 125\r\n\r\n"

def manifestConn : Conn := ⟨[⟨manifestHead ++ abcManifest, by decide +kernel⟩], false⟩

/-- Everything succeeds, and the manifest comes from that response. -/
def servedOutcome : LibOutcome
  | .fetch url => (updateHttpFetch memory (fun _ _ => some manifestConn) url).map MemBuf.d
  | o => abcOutcome o

end LibUpdate
