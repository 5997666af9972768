import LibUpdate.Foundation.Trace
import LibUpdate.Perform.Context
import LibUpdate.Platform.Fs
import LibUpdate.Platform.Spawn.Outcome
import LibUpdate.Remote.Manifest

/-!
# `Perform.Device` — what `update_perform` asks of its surroundings

The operations are the calls that leave the pure code: the locked sections, memory, the network, the file system,
the verifier and the process. An outcome says how each of them turns out. The other threads run before a locked
section: between two sections nothing of the context is read or written, so where exactly they run there makes no
difference, and the memory that a section asks for is asked for behind it.

`Act` is what the trace of a run shows.
-/

namespace LibUpdate

/-- The sections between `ctx_lock` and `ctx_unlock` that a run of `update_perform` comes to, by their function. -/
inductive CtxSection where
  | updateCheck
  | updatePerform
  | signatureCb
  | updateApplySpawn
  deriving DecidableEq, Repr

inductive LibOp where
  | locked (sec : CtxSection)
  /-- `malloc` and `strdup`. -/
  | malloc (size : Nat)
  /-- The buffers of `update_manifest_parse`. -/
  | manifestMemory
  /-- `update_http_fetch`. -/
  | fetch (url : Bytes)
  /-- `getenv("TMPDIR")`. -/
  | getenvTmpdir
  /-- `time(NULL)`. -/
  | time
  /-- `getpid`. -/
  | getpid
  /-- `platform_fs_create_directory_recursive`. -/
  | createDirectory (path : Bytes)
  /-- `update_http_stream_download`. -/
  | streamDownload (url path : Bytes)
  /-- `fopen` for reading, and `fread` up to the end or an error. -/
  | readFile (path : Bytes)
  /-- `platform_fs_remove_path`. -/
  | removePath (path : Bytes)
  /-- The call of the signature verifier. -/
  | verifySignature (v : Verifier) (path : Bytes)
  | getcwd
  /-- `readlink("/proc/self/exe")`. -/
  | readlinkExe
  | pipe
  /-- `fork`, with `chdir(cwd)` and `execv(path, argv)` in the child, and what the parent reads from the pipe: a run
      of `Platform.Spawn`. -/
  | fork (path : Bytes) (argv : List Bytes) (cwd : Bytes)
  deriving DecidableEq, Repr

/-- What each operation answers. -/
abbrev LibRes : LibOp → Type
  | .locked _ => UpdateContext
  | .malloc _ => Bool
  | .manifestMemory => ManifestAlloc
  | .fetch _ => Option Bytes
  | .getenvTmpdir => Option Bytes
  | .time => UInt64
  | .getpid => UInt32
  | .createDirectory _ => Bool
  | .streamDownload _ _ => Bool
  | .readFile _ => Option (Bytes × Bool)
  | .removePath _ => Bool
  | .verifySignature _ _ => Int
  | .getcwd => Option Bytes
  | .readlinkExe => Option Bytes
  | .pipe => Bool
  | .fork _ _ _ => Child

abbrev LibProg := Prog LibOp LibRes

/-- Performs one operation. -/
abbrev ask (o : LibOp) : LibProg (LibRes o) := Prog.perform o

/-- How a download turns out. -/
inductive DownloadOutcome where
  /-- The whole body arrives and is written, as this file. -/
  | complete (file : FileNode)
  /-- It fails; the temporary file may be left. -/
  | failed (left : Option FileNode)

/-- How reading a file turns out. -/
inductive ReadOutcome where
  | complete
  /-- `fopen` fails. -/
  | unopened
  /-- An error after so many bytes. -/
  | error (read : Nat)

/-- How the environment lets an operation turn out: where it acts on the state, how it does so; elsewhere its
    answer. -/
abbrev LibTurn : LibOp → Type
  | .locked _ => List ApiCall
  | .createDirectory _ => List FsOutcome
  | .streamDownload _ _ => DownloadOutcome
  | .readFile _ => ReadOutcome
  | .removePath _ => FsOutcome
  | o => LibRes o

abbrev LibOutcome := (o : LibOp) → LibTurn o

/-- The context with its initialisations, and the file system. -/
structure LibState where
  session : Session
  fs : Fs

/-- The permission bits of a directory entry that a nested run may make. -/
def defaultMode : Nat := 0o644

/-- `platform_fs_create_directory_recursive`; what its outcomes do not reach fails. -/
def stepCreateDirectory (path : Bytes) (es : List FsOutcome) (t : Fs) : Bool × Fs :=
  let r := (fsDevice defaultMode).run (createDirectoryRecursive path) es t
  (r.result.getD false, r.final)

/-- The suffix of `http_temp_path_for`. -/
def downloadSuffix : Bytes := ascii ".download"

/-- `update_http_stream_download`: a whole body is written beside the file and put in its place. -/
def stepStreamDownload (path : Bytes) (e : DownloadOutcome) (t : Fs) : Bool × Fs :=
  match e with
  | .complete file =>
      if canOpen t (fsPath path) then (true, t.set (fsPath path) (.file file)) else (false, t)
  | .failed none => (false, t)
  | .failed (some file) =>
      if canOpen t (fsPath (path ++ downloadSuffix)) then
        (false, t.set (fsPath (path ++ downloadSuffix)) (.file file))
      else (false, t)

/-- The bytes that are read, and `ferror`; `none` where `fopen` fails. -/
def stepReadFile (path : Bytes) (e : ReadOutcome) (t : Fs) : Option (Bytes × Bool) :=
  match dataAt t (fsPath path), e with
  | none, _ => none
  | some _, .unopened => none
  | some data, .error n => some (data.take n, true)
  | some data, .complete => some (data, false)

def libDevice : Device LibOp LibRes LibOutcome LibState where
  step o e s :=
    match o with
    | .locked sec =>
        let session := runCalls (e (.locked sec)) s.session
        (session.ctx, { s with session })
    | .malloc n => (e (.malloc n), s)
    | .manifestMemory => (e .manifestMemory, s)
    | .fetch url => (e (.fetch url), s)
    | .getenvTmpdir => (e .getenvTmpdir, s)
    | .time => (e .time, s)
    | .getpid => (e .getpid, s)
    | .createDirectory path =>
        let r := stepCreateDirectory path (e (.createDirectory path)) s.fs
        (r.1, { s with fs := r.2 })
    | .streamDownload url path =>
        let r := stepStreamDownload path (e (.streamDownload url path)) s.fs
        (r.1, { s with fs := r.2 })
    | .readFile path => (stepReadFile path (e (.readFile path)) s.fs, s)
    | .removePath path =>
        let r := stepRemove path (e (.removePath path)) s.fs
        (r.1, { s with fs := r.2 })
    | .verifySignature v path => (e (.verifySignature v path), s)
    | .getcwd => (e .getcwd, s)
    | .readlinkExe => (e .readlinkExe, s)
    | .pipe => (e .pipe, s)
    | .fork path argv cwd => (e (.fork path argv cwd), s)

/-! ## Traces -/

/-- What a run does, in order. -/
inductive Act where
  /-- A section reads the context; these calls of other threads came before it. -/
  | locked (sec : CtxSection) (calls : List ApiCall) (session : Session)
  | fetched (url body : Bytes)
  | created (dir : Bytes)
  | downloaded (url path content : Bytes)
  /-- A file is read to its end. -/
  | read (path content : Bytes)
  | verified (v : Verifier) (path : Bytes) (answer : Int)
  /-- A child is made for the program, and this becomes of it. -/
  | forked (path : Bytes) (argv : List Bytes) (cwd : Bytes) (child : Child)

/-- What an operation shows. -/
def actsOf (ev : Event LibOp LibOutcome LibState) : List Act :=
  match ev.op with
  | .locked sec =>
      [.locked sec (ev.outcome (.locked sec)) (runCalls (ev.outcome (.locked sec)) ev.before.session)]
  | .fetch url => ((ev.outcome (.fetch url)).map (Act.fetched url)).toList
  | .createDirectory path =>
      if (stepCreateDirectory path (ev.outcome (.createDirectory path)) ev.before.fs).1 then [.created path]
      else []
  | .streamDownload url path =>
      match ev.outcome (.streamDownload url path) with
      | .complete file => if canOpen ev.before.fs (fsPath path) then [.downloaded url path file.data] else []
      | .failed _ => []
  | .readFile path =>
      match stepReadFile path (ev.outcome (.readFile path)) ev.before.fs with
      | some (content, false) => [.read path content]
      | _ => []
  | .verifySignature v path => [.verified v path (ev.outcome (.verifySignature v path))]
  | .fork path argv cwd =>
      if ev.outcome (.fork path argv cwd) = .none then []
      else [.forked path argv cwd (ev.outcome (.fork path argv cwd))]
  | _ => []

end LibUpdate
