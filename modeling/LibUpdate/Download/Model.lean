import LibUpdate.Http.Headers
import LibUpdate.Perform.Model

/-!
# `Download.Model` — `update_download` and the transport under it (`update.c`, `http_transport_socket.c`)

The transport writes the body to a temporary file beside the destination and renames it when the file is
closed. Its operations are the network and the calls on the stream; those that it shares with `update_perform`
are operations of that model. A write goes through the buffer of the stream: what of it has come to the file
before `fclose` is up to the environment, and so is what is left where the flush fails.

`update_download` comes to one locked section, before anything else of the state is looked at, so the calls of
other threads lie before it starts.
-/

namespace LibUpdate

namespace Download

inductive Op where
  /-- An operation of `update_perform`. -/
  | lib (o : LibOp)
  /-- The section between `ctx_lock` and `ctx_unlock`. -/
  | locked
  /-- `getaddrinfo` and `conn_connect`. -/
  | connect (u : HttpUrl)
  /-- `conn_send`; the response then arrives on the connection. -/
  | send (req : Bytes)
  /-- The `realloc` calls of `read_http_headers`. -/
  | headerMemory
  /-- `fopen` with `"wb"`. -/
  | fopen (path : Bytes)
  /-- The `fwrite` calls of the body readers on the stream of this file. -/
  | fwrites (path : Bytes)
  /-- `fclose`, with what was written where all of the body was. -/
  | fclose (path : Bytes) (written : Option Bytes)
  /-- `platform_fs_move_path`. -/
  | move (src dst : Bytes)

/-- What each operation answers. -/
abbrev Res : Op → Type
  | .lib o => LibRes o
  | .locked => UpdateContext
  | .connect _ => Bool
  | .send _ => Option Conn
  | .headerMemory => Nat → Bool
  | .fopen _ => Bool
  | .fwrites _ => Bytes → Bytes → Bool
  | .fclose _ _ => Bool
  | .move _ _ => Bool

/-- How the environment lets an operation turn out. -/
abbrev Turn : Op → Type
  | .lib o => LibTurn o
  | .locked => Unit
  | .connect _ => Bool
  | .send _ => Option Conn
  | .headerMemory => Nat → Bool
  | .fopen _ => Bool
  -- which writes fail, and what of them is in the file meanwhile
  | .fwrites _ => (Bytes → Bytes → Bool) × Bytes
  -- where the flush fails, what it has stored
  | .fclose _ _ => Option Bytes
  | .move _ _ => FsOutcome

abbrev Outcome := (o : Op) → Turn o

/-- The context and the file system, and the connection on which the response arrives. -/
structure State where
  lib : LibState
  conn : Option Conn

def State.fs (s : State) : Fs := s.lib.fs

def stepFopen (path : Bytes) (ok : Bool) (t : Fs) : Bool × Fs :=
  if ok && canOpen t (fsPath path) then (true, writeFile defaultMode t (fsPath path) []) else (false, t)

def State.withFs {α : Type} (s : State) (r : α × Fs) : α × State := (r.1, { s with lib := { s.lib with fs := r.2 } })

def device : Device Op Res Outcome State where
  step o e s :=
    match o with
    | .lib o =>
        let r := libDevice.step o (fun o => e (.lib o)) s.lib
        (r.1, { s with lib := r.2 })
    | .locked => (s.lib.session.ctx, s)
    | .connect u => (e (.connect u), s)
    | .send req => (e (.send req), { s with conn := e (.send req) })
    | .headerMemory => (e .headerMemory, s)
    | .fopen path => s.withFs (stepFopen path (e (.fopen path)) s.fs)
    | .fwrites path =>
        s.withFs ((e (.fwrites path)).1, storeFile s.fs (fsPath path) (e (.fwrites path)).2)
    | .fclose path written => s.withFs (stepFclose path written (e (.fclose path written)) s.fs)
    | .move src dst => s.withFs (stepRename src dst (e (.move src dst)) s.fs)

end Download

abbrev DownloadProg := Prog Download.Op Download.Res

namespace Download

/-- A program of `update_perform`. -/
def lib {α : Type} (p : LibProg α) : DownloadProg α := p.embed Op.lib fun _ r => r

/-- Performs one operation. -/
abbrev ask (o : Op) : DownloadProg (Res o) := Prog.perform o

end Download

open Download (lib)

/-! ## `update_http_stream_download` -/

/-- `http_temp_path_for`. -/
def httpTempPathFor (dest : Bytes) : DownloadProg (Option Bytes) := do
  let given ← lib (ask (.malloc (dest.length + 10)))
  pure (if given then some (dest ++ downloadSuffix) else none)

/-- The headers of a response and where its body comes from; `none` where the headers cannot be read or the
    status is not 200. -/
def responseHead (alloc : Nat → Bool) (c : Conn) : Option (Bytes × IoSrc) :=
  match readHttpHeaders alloc .empty c with
  | none => none
  | some (buf, c) =>
      if parseStatus200 (cstr buf.d) then
        match strstr (crlf ++ crlf) (cstr buf.d) with
        | none => none
        | some bodySep =>
            let bodyPos := (cstr buf.d).length - bodySep.length + 4
            some (cstr buf.d, ⟨buf.d.drop bodyPos, c⟩)
      else none

/-- Writes the body to the file, by the framing that the headers ask for: what was written; `none` is -1. -/
def readFramedFile (fails : Bytes → Bytes → Bool) (headers : Bytes) (src : IoSrc) : Option Bytes :=
  if isChunkedEncoding headers then (readBodyChunkedSrc fails src).map Prod.fst
  else
    match parseContentLength headers with
    | some contentLen => (readBodyKnownSrc fails contentLen src).map Prod.fst
    | none => (readBodyUntilCloseSrc fails src).map Prod.fst

/-- From the opened file on: the body, and the rename. -/
def receiveBody (dest tmpPath headers : Bytes) (src : IoSrc) : DownloadProg Bool := do
  let opened ← Download.ask (.fopen tmpPath)
  if opened then
    let fails ← Download.ask (.fwrites tmpPath)
    match readFramedFile fails headers src with
    | none =>
        let _ ← Download.ask (.fclose tmpPath none)
        pure false
    | some body =>
        let closed ← Download.ask (.fclose tmpPath (some body))
        if closed then Download.ask (.move tmpPath dest) else pure false
  else pure false

/-- From the request on. -/
def requestBody (dest tmpPath req : Bytes) : DownloadProg Bool := do
  let sent ← Download.ask (.send req)
  match sent with
  | none => pure false
  | some c =>
      let alloc ← Download.ask .headerMemory
      match responseHead alloc c with
      | none => pure false
      | some (headers, src) => receiveBody dest tmpPath headers src

/-- `update_http_stream_download` up to `cleanup`: whether `rc` is 0. -/
def streamToTemp (url dest tmpPath : Bytes) : DownloadProg Bool :=
  match parseHttpUrl url 512 4096 with
  | none => pure false
  | some u => do
      let connected ← Download.ask (.connect u)
      if connected then
        match snprintf 8192 (downloadRequest u) with
        | none => pure false
        | some req => requestBody dest tmpPath req
      else pure false

/-- `update_http_stream_download`: whether it returns 0. -/
def updateHttpStreamDownload (url dest : Bytes) : DownloadProg Bool :=
  if dest = [] then pure false
  else do
    let tmpPath ← httpTempPathFor dest
    match tmpPath with
    | none => pure false
    | some tmpPath =>
        let done ← streamToTemp url dest tmpPath
        if done then pure true
        else
          let _ ← lib (ask (.removePath tmpPath))
          pure false

/-! ## `update_download` -/

/-- `dup_str`, which gives `NULL` for `NULL`. -/
def dupOrNull (s : Option Bytes) : LibProg (Option Bytes) :=
  match s with
  | none => pure none
  | some s => dupStr s

/-- Compares the file with the copy of the pin, where there is one that is not empty. -/
def checkPin (fuel : Nat) (dest : Bytes) (expectCopy : Option Bytes) : DownloadProg (Option UpdateStatus) :=
  if holdsText expectCopy then do
    let verified ← lib (updateVerify fuel dest (expectCopy.getD []))
    match verified with
    | none => pure none
    | some .ok => pure (some .ok)
    | some _ =>
        let _ ← lib (ask (.removePath dest))
        pure (some .error)
  else pure (some .ok)

/-- `update_download`; `none` where it has not come back. -/
def updateDownload (fuel : Nat) (url dest : Bytes) : DownloadProg (Option UpdateStatus) :=
  if url = [] then pure (some .error)
  else do
    let ctx ← Download.ask .locked
    if !ctx.initialized || dest = [] || updateValidatePath dest true ≠ .ok then pure (some .error)
    else
      let urlCopy ← lib (dupStr url)
      let expectCopy ← lib (dupOrNull ctx.expectedSha256)
      match urlCopy with
      | none => pure (some .error)
      | some urlCopy =>
          let done ← updateHttpStreamDownload urlCopy dest
          if done then checkPin fuel dest expectCopy else pure (some .error)

/-! ## The body of a response -/

/-- **The body that the transport delivers** for what arrives on a connection, where nothing on this side
    fails; `none` where there is no complete body. -/
def delivered (c : Conn) : Option Bytes :=
  (responseHead memory c).bind fun x => readFramedFile (fun _ _ => false) x.1 x.2

end LibUpdate
