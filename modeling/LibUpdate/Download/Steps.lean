import LibUpdate.Download.Model
import LibUpdate.Perform.Steps

/-!
# `Download.Steps` — what the transport leaves at the destination

Everything up to the rename happens at the temporary file, which is not above the destination, so the
destination keeps what it held; the rename puts the whole body there at once. `A` are the assumptions on the
events: the transport needs none.
-/

namespace LibUpdate

namespace Download

section

variable {α : Type} {A : Event Op Outcome State → Prop} {dest : Bytes} {g : Option (Node FileNode)} {s t : State}

/-! ## What the destination may hold -/

/-- The destination is as it was before the call. It holds up to the rename, wherever the run is cut off. -/
def Untouched (dest : Bytes) (g : Option (Node FileNode)) (t : State) : Prop := t.fs.get (fsPath dest) = g

/-- The destination holds the complete body that the transport delivered. The rename brings it about, and nothing
    before the check of the pin changes it. -/
def Holds (dest : Bytes) (t : State) : Prop :=
  ∃ c body, t.conn = some c ∧ delivered c = some body ∧ dataAt t.fs (fsPath dest) = some body

/-- A complete body was delivered, and is gone from the destination: so the removal behind the check of the pin
    leaves it. -/
def Withdrawn (dest : Bytes) (t : State) : Prop :=
  ∃ c body, t.conn = some c ∧ delivered c = some body ∧ t.fs.get (fsPath dest) = none

/-- In every state the destination is as it was, holds the complete body, or has lost it again. -/
def destContract (A : Event Op Outcome State → Prop) (dest : Bytes) (g : Option (Node FileNode)) :
    Contract Op Outcome State where
  assumes := A
  ensures _ := True
  invariant t := Untouched dest g t ∨ Holds dest t ∨ Withdrawn dest t

/-! ## Programs of `update_perform` -/

/-- What the assumptions say of the operations of `update_perform`. -/
def libAssumes (A : Event Op Outcome State → Prop) : Event LibOp LibOutcome LibState → Prop :=
  fun ev => ∃ e s, (ev.outcome = fun o => e (.lib o)) ∧ A ⟨.lib ev.op, e, s⟩

/-- What a program of `update_perform` that keeps the state leaves, it leaves here. -/
theorem lib_keeps {p : LibProg α} {Q : α → Prop} {R : α → List Act → LibState → Prop}
    {c : Contract Op Outcome State} (hens : ∀ ev, c.ensures ev) (hp : p.Keeps libDevice)
    (h : Ends (libAssumes c.assumes) p R s.lib)
    (hQ : ∀ a tr, R a tr s.lib → Q a) (hinv : c.invariant s) :
    Safe device c (fun a t => t = s ∧ Q a) (lib p) s := by
  have hsame : ∀ t : State, t.conn = s.conn → t.lib = s.lib → t = s := by
    rintro ⟨lib, conn⟩ rfl rfl
    rfl
  have hsafe : Safe device c (fun a t => (t.lib = s.lib ∧ ∃ tr, R a tr s.lib) ∧ t.conn = s.conn) (lib p) s := by
    refine Safe.embed (fun e o => e (.lib o)) State.lib State.conn ?_ ?_ ?_ ?_ ?_ rfl (h.safe hp)
    · intro o e t
      rfl
    · intro o e t
      rfl
    · intro o e t he
      exact ⟨e, t, rfl, he⟩
    · intro o e t _ _
      exact hens _
    · intro t hconn hlib
      rwa [hsame t hconn hlib]
  apply hsafe.mono
  rintro a t ⟨⟨hlib, tr, hr⟩, hconn⟩
  exact ⟨hsame t hconn hlib, hQ a tr hr⟩

/-! ## The temporary file -/

/-- The temporary file is not above the destination. -/
theorem tmp_not_above (dest : Bytes) : ¬ fsPath (dest ++ downloadSuffix) <+: fsPath dest :=
  resolvePath_append_not_prefix (by decide +kernel) (by decide +kernel) dest

theorem dest_ne_tmp (dest : Bytes) : fsPath dest ≠ fsPath (dest ++ downloadSuffix) := by
  intro h
  exact tmp_not_above dest (h ▸ List.prefix_refl _)

theorem stepFopen_frame {path : Bytes} {ok : Bool} {t : Fs} {q : List Bytes} (h : q ≠ fsPath path) :
    (stepFopen path ok t).2.get q = t.get q := by
  unfold stepFopen
  split
  · exact writeFile_frame h
  · rfl

/-- A file that was opened is there. -/
theorem stepFopen_opened {path : Bytes} {ok : Bool} {t u : Fs} (h : stepFopen path ok t = (true, u)) :
    ∃ f, u.fileAt (fsPath path) = some f := by
  unfold stepFopen at h
  split at h
  · cases h
    exact ⟨_, fileAt_set _ _ _⟩
  · cases h

/-- A file that was closed without an error holds what was written. -/
theorem stepFclose_closed {path data : Bytes} {failed : Option Bytes} {t u : Fs} {f : FileNode}
    (hf : t.fileAt (fsPath path) = some f) (h : stepFclose path (some data) failed t = (true, u)) :
    u.fileAt (fsPath path) = some { f with data } := by
  unfold stepFclose at h
  split at h
  · cases h
  · next heq =>
    cases heq
    cases h
    exact storeFile_fileAt hf _
  · next heq => cases heq

/-- A file that is renamed is at its new place. -/
theorem stepRename_moved {src dst : Bytes} {e : FsOutcome} {t u : Fs} {f : FileNode}
    (hf : t.fileAt (fsPath src) = some f) (h : stepRename src dst e t = (true, u)) :
    u.fileAt (fsPath dst) = some f := by
  obtain ⟨f', hf', _, rfl⟩ := stepRename_ok h
  rw [hf] at hf'
  cases hf'
  exact fileAt_set _ _ _

/-- A rename that fails changes nothing. -/
theorem stepRename_failed {src dst : Bytes} {e : FsOutcome} {t u : Fs} (h : stepRename src dst e t = (false, u)) :
    u = t := by
  unfold stepRename at h
  split at h
  · cases h
    rfl
  split at h
  · cases h
  · cases h
    rfl

/-! ## The body -/

theorem responseHead_memory {alloc : Nat → Bool} {c : Conn} {x : Bytes × IoSrc} (h : responseHead alloc c = some x) :
    responseHead memory c = some x := by
  unfold responseHead at h ⊢
  split at h
  · cases h
  next buf c' hread =>
  rw [readHttpHeaders_memory hread]
  exact h

/-- What a reader writes although writes may fail, it writes where none fails. -/
theorem readFramedFile_more {fails : Bytes → Bytes → Bool} {headers body : Bytes} {src : IoSrc}
    (h : readFramedFile fails headers src = some body) :
    readFramedFile (fun _ _ => false) headers src = some body := by
  have hmap : ∀ {r r' : Option (Bytes × IoSrc)}, (∀ x, r = some x → r' = some x) → r.map Prod.fst = some body →
      r'.map Prod.fst = some body := by
    intro r r' hr hbody
    obtain ⟨x, hx, rfl⟩ := Option.map_eq_some_iff.mp hbody
    rw [hr x hx]
    rfl
  unfold readFramedFile at h ⊢
  split at h
  · next hchunked =>
    rw [if_pos hchunked]
    exact hmap (fun x hx => readBodyChunked_more fwrite_more hx) h
  next hchunked =>
  rw [if_neg hchunked]
  split at h
  · exact hmap (fun x hx => readBlocks_more fwrite_more hx) h
  · exact hmap (fun x hx => readBodyUntilClose_more fwrite_more hx) h

/-- **What is written is what the transport delivers.** -/
theorem delivered_of_read {alloc : Nat → Bool} {fails : Bytes → Bytes → Bool} {c : Conn} {headers body : Bytes}
    {src : IoSrc} (hhead : responseHead alloc c = some (headers, src))
    (hbody : readFramedFile fails headers src = some body) : delivered c = some body := by
  rw [delivered, responseHead_memory hhead]
  exact readFramedFile_more hbody

/-! ## The transport -/

/-- How the transport ends: with the body at the destination, or with the destination as it was. -/
def StreamEnds (dest : Bytes) (g : Option (Node FileNode)) (done : Bool) (t : State) : Prop :=
  if done then Holds dest t else Untouched dest g t

theorem Untouched.shown (h : Untouched dest g t) : (destContract A dest g).invariant t := Or.inl h

theorem StreamEnds.shown {done : Bool} (h : StreamEnds dest g done t) : (destContract A dest g).invariant t := by
  cases done with
  | true => exact Or.inr (Or.inl h)
  | false => exact Or.inl h

/-- The destination stays as it was where the file system at it does. -/
theorem Untouched.frame (hs : Untouched dest g s) (h : t.fs.get (fsPath dest) = s.fs.get (fsPath dest)) :
    Untouched dest g t := h.trans hs

/-- A step that leaves what is at the destination. -/
theorem Untouched.step {r : α} {x : α × Fs} (hs : Untouched dest g s) (hx : x = (r, t.fs))
    (h : x.2.get (fsPath dest) = s.fs.get (fsPath dest)) : Untouched dest g t := by
  apply hs.frame
  rw [← h, hx]

/-- A step on the file system is one, and keeps the connection. -/
theorem withFs_step {r : α} {x : α × Fs} (h : s.withFs x = (r, t)) : x = (r, t.fs) ∧ t.conn = s.conn := by
  obtain ⟨rfl, rfl⟩ := Prod.mk.inj h
  exact ⟨rfl, rfl⟩

/-- From the closed file on: the rename. -/
theorem moveBody_safe {c : Conn} {body : Bytes} {f : FileNode} (hconn : s.conn = some c)
    (hbody : delivered c = some body) (hf : s.fs.fileAt (fsPath (dest ++ downloadSuffix)) = some f)
    (hdata : f.data = body) (hs : Untouched dest g s) :
    Safe device (destContract A dest g) (StreamEnds dest g)
      (Download.ask (.move (dest ++ downloadSuffix) dest)) s := by
  apply Safe.perform (f := Prog.ret)
  intro e moved t _ hmove
  obtain ⟨hstep, hconn'⟩ := withFs_step hmove
  have hends : StreamEnds dest g moved t := by
    cases hm : moved with
    | true =>
        rw [hm] at hstep
        refine ⟨c, body, hconn'.trans hconn, hbody, ?_⟩
        rw [dataAt, stepRename_moved hf hstep, Option.map_some, hdata]
    | false =>
        rw [hm] at hstep
        show t.fs.get (fsPath dest) = g
        rw [stepRename_failed hstep]
        exact hs
  exact ⟨trivial, hends.shown, hends⟩

/-- **Once the file is open, the body goes to it, and from there to the destination.** -/
theorem receiveBody_safe {c : Conn} {headers : Bytes} {src : IoSrc} (hconn : s.conn = some c)
    (hbody : ∀ fails body, readFramedFile fails headers src = some body → delivered c = some body)
    (hs : Untouched dest g s) :
    Safe device (destContract A dest g) (StreamEnds dest g)
      (receiveBody dest (dest ++ downloadSuffix) headers src) s := by
  apply Safe.perform
  intro e opened s₁ _ hopen
  obtain ⟨hopen, hconn₁⟩ := withFs_step hopen
  have hs₁ : Untouched dest g s₁ := hs.step hopen (stepFopen_frame (dest_ne_tmp dest))
  refine ⟨trivial, hs₁.shown, ?_⟩
  cases hopened : opened with
  | false => exact hs₁
  | true =>
  rw [hopened] at hopen
  obtain ⟨f, hf⟩ := stepFopen_opened hopen
  apply Safe.perform
  intro e' fails s₂ _ hwrites
  obtain ⟨hwrites, hconn₂⟩ := withFs_step hwrites
  have hs₂ : Untouched dest g s₂ := hs₁.step hwrites (storeFile_frame _ (dest_ne_tmp dest))
  refine ⟨trivial, hs₂.shown, ?_⟩
  cases hread : readFramedFile fails headers src with
  | none =>
      -- the stream is closed, whatever that says
      apply Safe.perform
      intro e'' closed s₃ _ hclose
      obtain ⟨hclose, _⟩ := withFs_step hclose
      have hs₃ : Untouched dest g s₃ := hs₂.step hclose (stepFclose_frame (dest_ne_tmp dest))
      exact ⟨trivial, hs₃.shown, hs₃⟩
  | some body =>
      have hf₂ : ∃ f, s₂.fs.fileAt (fsPath (dest ++ downloadSuffix)) = some f := by
        rw [← (Prod.mk.inj hwrites).2]
        exact ⟨_, storeFile_fileAt hf _⟩
      obtain ⟨f₂, hf₂⟩ := hf₂
      apply Safe.perform
      intro e'' closed s₃ _ hclose
      obtain ⟨hclose, hconn₃⟩ := withFs_step hclose
      have hs₃ : Untouched dest g s₃ := hs₂.step hclose (stepFclose_frame (dest_ne_tmp dest))
      refine ⟨trivial, hs₃.shown, ?_⟩
      cases hclosed : closed with
      | false => exact hs₃
      | true =>
          rw [hclosed] at hclose
          have hall : s₃.conn = some c := by rw [hconn₃, hconn₂, hconn₁, hconn]
          exact moveBody_safe hall (hbody fails body hread) (stepFclose_closed hf₂ hclose) rfl hs₃

/-- From the request on. -/
theorem requestBody_safe (req : Bytes) (hs : Untouched dest g s) :
    Safe device (destContract A dest g) (StreamEnds dest g) (requestBody dest (dest ++ downloadSuffix) req) s := by
  apply Safe.perform
  rintro e sent s₁ _ ⟨⟩
  have hs₁ : Untouched dest g { s with conn := e (.send req) } := hs
  refine ⟨trivial, hs₁.shown, ?_⟩
  cases hsent : e (.send req) with
  | none =>
      rw [hsent] at hs₁
      exact hs₁
  | some c =>
      rw [hsent] at hs₁
      apply Safe.perform
      rintro e' alloc s₂ _ ⟨⟩
      refine ⟨trivial, hs₁.shown, ?_⟩
      cases hhead : responseHead (e' .headerMemory) c with
      | none => exact hs₁
      | some x =>
          apply receiveBody_safe rfl _ hs₁
          intro fails body hread
          exact delivered_of_read hhead hread

theorem streamToTemp_safe (url : Bytes) (hs : Untouched dest g s) :
    Safe device (destContract A dest g) (StreamEnds dest g)
      (streamToTemp url dest (dest ++ downloadSuffix)) s := by
  unfold streamToTemp
  cases parseHttpUrl url 512 4096 with
  | none => exact hs
  | some u =>
      apply Safe.perform
      rintro e connected s₁ _ ⟨⟩
      refine ⟨trivial, hs.shown, ?_⟩
      cases hc : e (.connect u) with
      | false => exact hs
      | true =>
          cases snprintf 8192 (downloadRequest u) with
          | none => exact hs
          | some req => exact requestBody_safe req hs

/-- `malloc` keeps the state. -/
theorem malloc_keeps (n : Nat) : (LibUpdate.ask (.malloc n)).Keeps libDevice :=
  .op (fun _ _ => rfl) fun _ => .ret

theorem httpTempPathFor_safe (dest : Bytes) {c : Contract Op Outcome State} (hens : ∀ ev, c.ensures ev)
    (hinv : c.invariant s) :
    Safe device c (fun r t => t = s ∧ ∀ tmp, r = some tmp → tmp = dest ++ downloadSuffix) (httpTempPathFor dest) s := by
  apply Safe.bind
  have hmalloc : Ends (libAssumes c.assumes) (LibUpdate.ask (.malloc (dest.length + 10))) (fun _ _ _ => True) s.lib :=
    fun _ _ => trivial
  apply (lib_keeps hens (malloc_keeps _) hmalloc (Q := fun _ => True)
    (fun _ _ _ => trivial) hinv).mono
  rintro given t ⟨rfl, _⟩
  refine ⟨rfl, ?_⟩
  intro tmp htmp
  cases given with
  | true => exact (Option.some.inj htmp).symm
  | false => cases htmp

/-- Removing the temporary file leaves the destination as it was. -/
theorem removeTmp_safe (hs : Untouched dest g s) :
    Safe device (destContract A dest g) (StreamEnds dest g)
      (do let _ ← lib (LibUpdate.ask (.removePath (dest ++ downloadSuffix))); pure false) s := by
  intro e _
  have hs' : Untouched dest g (device.step (.lib (.removePath (dest ++ downloadSuffix))) e s).2 :=
    hs.frame (stepRemove_frame (tmp_not_above dest))
  exact ⟨trivial, hs'.shown, hs'⟩

/-- **`update_http_stream_download`** puts the complete body at the destination, or leaves it as it was. -/
theorem updateHttpStreamDownload_safe (url : Bytes) (hs : Untouched dest g s) :
    Safe device (destContract A dest g) (StreamEnds dest g) (updateHttpStreamDownload url dest) s := by
  unfold updateHttpStreamDownload
  split
  · exact hs
  apply Safe.bind
  apply (httpTempPathFor_safe dest (fun _ => trivial) hs.shown).mono
  rintro r t ⟨rfl, htmp⟩
  cases r with
  | none => exact hs
  | some tmp =>
      obtain rfl := htmp tmp rfl
      apply Safe.bind
      apply (streamToTemp_safe url hs).mono
      intro done u hends
      cases done with
      | true => exact hends
      | false => exact removeTmp_safe hends

end

end Download

end LibUpdate
