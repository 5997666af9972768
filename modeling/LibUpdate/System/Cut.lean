import LibUpdate.Json.Cut
import LibUpdate.System.Check

/-!
# `System.Cut` — a check whose connection ends early

A response whose header section gives no length ends with the connection, so a connection that ends early looks like
a shorter body. The manifest has no end mark that is looked for either: it is accepted where the three members that
it must have came through. Here a check is followed from a response that ends anywhere to the record that the
application is given.
-/

namespace LibUpdate

/-! ## Bodies -/

/-- The place of a cut. -/
theorem cut_cases {p a b : Bytes} (h : p <+: a ++ b) : (p <+: a ∧ p ≠ a) ∨ ∃ q, q <+: b ∧ p = a ++ q := by
  by_cases hshort : p <+: a ∧ p ≠ a
  · exact Or.inl hshort
  · obtain ⟨q, rfl⟩ : a <+: p := by
      rcases List.prefix_or_prefix_of_prefix h (List.prefix_append a b) with hle | hge
      · by_cases hsame : p = a
        · exact ⟨[], by rw [List.append_nil, hsame]⟩
        · exact absurd ⟨hle, hsame⟩ hshort
      · exact hge
    exact Or.inr ⟨q, (List.prefix_append_right_inj a).mp h, rfl⟩

/-- A framing that marks the end of the body shows a cut; without a mark the cut is a shorter body. -/
theorem Framing.Complete.cut {f : Framing} {s sent body : Bytes} (h : f.Complete s body) (hsent : sent <+: s) :
    f.CutShort sent ∨ (f ≠ .untilClose ∧ f.Complete sent body) ∨ (f = .untilClose ∧ sent <+: body) := by
  cases h with
  | chunked b more =>
      rw [← List.append_assoc] at hsent
      rcases cut_cases hsent with ⟨⟨missing, hmissing⟩, hne⟩ | ⟨more', _, rfl⟩
      · refine Or.inl (.chunked hmissing ?_)
        rintro rfl
        rw [List.append_nil] at hmissing
        exact hne hmissing
      · refine Or.inr (Or.inl ⟨by decide, ?_⟩)
        rw [List.append_assoc]
        exact .chunked b more'
  | counted more =>
      rcases cut_cases hsent with ⟨hle, hne⟩ | ⟨more', _, rfl⟩
      · refine Or.inl (.counted ?_)
        by_cases hlen : sent.length < body.length
        · exact hlen
        · exact absurd (hle.eq_of_length_le (Nat.not_lt.mp hlen)) hne
      · exact Or.inr (Or.inl ⟨by simp, .counted body more'⟩)
  | untilClose => exact Or.inr (Or.inr ⟨rfl, hsent⟩)

/-- **A reader takes a front of the body** of a stream that ends early, or nothing. -/
theorem Framing.Complete.read_front {f : Framing} {s sent body got : Bytes} (h : f.Complete s body)
    (hsent : sent <+: s) {failing : Bool} (hgot : f.read Stream.source ⟨sent, failing⟩ = some got) :
    got <+: body := by
  rcases h.cut hsent with hshort | ⟨hmarked, hwhole⟩ | ⟨rfl, hfront⟩
  · rw [hshort.read failing] at hgot
    cases hgot
  · rw [hwhole.read fun hclose => absurd hclose hmarked] at hgot
    obtain rfl := Option.some.inj hgot
    exact List.prefix_refl _
  · rw [Framing.read, readBodyUntilClose_stream] at hgot
    split at hgot
    · cases hgot
    · rw [← Option.some.inj hgot]
      exact hfront

theorem Decided.front {h s sent : Bytes} (hdec : Decided h s) (hsent : sent <+: s) : Decided h sent :=
  ⟨hdec.1.imp_right fun hno hnamed => hno (hnamed.mono hsent),
    hdec.2.imp_right (Or.imp_right fun hno hnamed => hno (hnamed.mono hsent))⟩

/-- **What is delivered of a response that ends early** is a front of its body. -/
theorem delivered_front {h s body got : Bytes} (hhead : AcceptedHead h) (hdec : Decided h s)
    (hbody : (framingOf h).Complete s body) {c : Conn} (hc : c.bytes <+: h ++ s) (hgot : delivered c = some got) :
    got <+: body := by
  rcases cut_cases hc with ⟨hshort, hne⟩ | ⟨sent, hsent, hsplit⟩
  · rw [delivered_short hhead.head hshort hne] at hgot
    cases hgot
  · rw [delivered_decided hhead (hdec.front hsent) hsplit] at hgot
    exact hbody.read_front hsent hgot

/-! ## Manifests -/

/-- What a front of a manifest is read as: the members that a manifest must have are those of the whole manifest, and
    so is the text of a description. That the description is HTML, and that there is one, may be lost. -/
structure ReadInPart (body : Bytes) (out : UpdateInfo) : Prop where
  version : HoldsValue body (ascii "version") out.version
  download_url : HoldsValue body (ascii "download_url") out.downloadUrl
  checksum : HoldsValue body (ascii "checksum") out.checksum
  html : cstr out.descriptionFormat.toList = ascii "html" → WantsHtml body
  description : ∀ d, out.description = some d → AllowedDoc d
    ∧ ∃ v, jsonStringValue body (ascii "description") = some v
      ∧ ((∃ fuel, updateHtmlSanitizeAlloc memory htmlDescMaxOut fuel v = some (some d)) ∨ d = escaped v)

theorem HoldsValue.mono {cap : Nat} {front body key : Bytes} {field : Vector UInt8 cap}
    (h : HoldsValue front key field) (hfront : front <+: body) : HoldsValue body key field := by
  obtain ⟨v, hvalue, hlen, hfield⟩ := h
  exact ⟨v, jsonStringValue_front hvalue hfront, hlen, hfield⟩

theorem WantsHtml.mono {front body : Bytes} (h : WantsHtml front) (hfront : front <+: body) : WantsHtml body := by
  obtain ⟨v, hvalue, hhtml⟩ := h
  exact ⟨v, jsonStringValue_front hvalue hfront, hhtml⟩

/-- What is read of a front of a manifest, of the manifest. -/
theorem ManifestRead.in_part {front body : Bytes} {out : UpdateInfo} (h : ManifestRead front out)
    (hfront : front <+: body) : ReadInPart body out := by
  refine ⟨h.version.mono hfront, h.download_url.mono hfront, h.checksum.mono hfront, ?_, ?_⟩
  · intro hformat
    by_cases hwants : WantsHtml front
    · exact hwants.mono hfront
    · have hplain := h.plaintext hwants
      rw [hformat] at hplain
      exact absurd hplain (by decide)
  · intro d hd
    obtain ⟨v, hvalue, hhtml, hplain⟩ := h.description d hd
    refine ⟨h.description_allowed hd, v, jsonStringValue_front hvalue hfront, ?_⟩
    by_cases hwants : WantsHtml front
    · exact Or.inl (hhtml hwants)
    · exact Or.inr (hplain hwants)

/-! ## Runs -/

/-- **A connection that ends early invents nothing.** A server whose response may end anywhere, in any framing: in
    every run of `update_check` that returns, the check fails, or every member that the application is given is a
    whole member of the manifest that was to be sent, and an update is available exactly where the version of that
    manifest is newer as it is read, which is strictly newer where the numbers fit in 32 bits. -/
theorem updateCheck_cut_connection (fuel : Nat) (version : Bytes) (given : UpdateInfo) (es : List LibOutcome)
    (s : LibState) {response h wire body : Bytes} {failing : Bool} (hserves : Serves es response failing)
    (hhead : AcceptedHead h) (hdec : Decided h wire) (hbody : (framingOf h).Complete wire body)
    (hresponse : response <+: h ++ wire) {x : UpdateStatus × UpdateInfo}
    (hresult : (libDevice.run (updateCheck fuel version given) es s).result = some (some x)) :
    CheckFails given ((libDevice.run (updateCheck fuel version given) es s).trace actsOf) x
      ∨ ReadInPart (cstr body) x.2 ∧ (x.1 = .available ∨ x.1 = .notAvailable)
        ∧ ∃ v, jsonStringValue (cstr body) (ascii "version") = some v
          ∧ (x.1 = .available ↔ NewerAsRead v version)
          ∧ (SmallVersion v → SmallVersion version → (x.1 = .available ↔ StrictlyNewer v version)) := by
  have htold := (updateCheck_tells (A := fun ev => ev.outcome ∈ es) fuel version given s).sound
    (fun ev hev => libDevice.outcome_mem hev) hresult x rfl
  rcases htold with herror | ⟨got, ⟨_, url, _, _, _, e, t, he, hfetched⟩, hread⟩
  · exact Or.inl herror
  · obtain ⟨c, hbytes, _, hdelivered, _⟩ := hserves.delivered he hfetched
    have hfront : cstr got <+: cstr body := cstr_prefix (delivered_front hhead hdec hbody (hbytes ▸ hresponse) hdelivered)
    have hpart := hread.read.in_part hfront
    obtain ⟨v, hvalue, _, hfield⟩ := hpart.version
    have havailable := hread.available
    have hstrictly := hread.strictly
    rw [hfield] at havailable hstrictly
    exact Or.inr ⟨hpart, hread.otherwise, v, hvalue, havailable, hstrictly⟩

/-- The manifest of `Perform.Gate` without its brace. -/
def openManifest : Bytes := abcManifest.dropLast

/-- That manifest with a description. -/
def describedManifest : Bytes := openManifest ++ ascii ",\"description\":\"Fixes\"\x7d"

/-- A header section that does not say where the body ends. -/
def openHead : Bytes := ascii "HTTP 200 OK\r\n\r\n"

def openConn : Conn := ⟨[⟨openHead ++ openManifest, by decide +kernel⟩], false⟩

/-- Everything succeeds, and the connection ends before the description. -/
def cutOutcome : LibOutcome
  | .fetch url => (updateHttpFetch memory (fun _ _ => some openConn) url).map MemBuf.d
  | o => abcOutcome o

/-- The application learns of the update, and of no description. -/
theorem updateCheck_cut_connection_sample :
    ∃ out, (libDevice.run (updateCheck 8 (ascii "1.9") .zero) (.replicate 8 cutOutcome) pinnedState).result
        = some (some (.available, out))
      ∧ out.description = none ∧ ReadInPart (cstr describedManifest) out := by
  have hserves : Serves (.replicate 8 cutOutcome) (openHead ++ openManifest) false := by
    intro e he url
    rw [List.eq_of_mem_replicate he]
    refine ⟨memory, fun _ _ => some openConn, rfl, ?_⟩
    rintro u req c ⟨⟩
    exact ⟨List.append_nil _, rfl⟩
  have havailable : ((libDevice.run (updateCheck 8 (ascii "1.9") .zero) (.replicate 8 cutOutcome) pinnedState).result.bind
      fun r => r.map fun x => (x.1, x.2.description)) = some (.available, none) := by decide +kernel
  have hhead : AcceptedHead openHead := ⟨by decide +kernel, by decide +kernel, by decide +kernel, by decide +kernel⟩
  have hframing : framingOf openHead = .untilClose := by decide +kernel
  have hcomplete : (framingOf openHead).Complete describedManifest describedManifest := by
    rw [hframing]
    exact .untilClose describedManifest
  have hfront : openHead ++ openManifest <+: openHead ++ describedManifest :=
    (List.prefix_append_right_inj openHead).mpr (List.prefix_append openManifest _)
  obtain ⟨r, hresult, hr⟩ := Option.bind_eq_some_iff.mp havailable
  obtain ⟨⟨status, out⟩, rfl, hx⟩ := Option.map_eq_some_iff.mp hr
  obtain ⟨rfl, hnone⟩ := Prod.mk.inj hx
  refine ⟨out, hresult, hnone, ?_⟩
  rcases updateCheck_cut_connection 8 (ascii "1.9") .zero (.replicate 8 cutOutcome) pinnedState hserves hhead
    (by decide +kernel) hcomplete hfront hresult with herror | hread
  · cases herror.status
  · exact hread.1

end LibUpdate
