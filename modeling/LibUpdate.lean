import LibUpdate.Foundation.Bytes
import LibUpdate.Foundation.Numeral
import LibUpdate.Foundation.Loop
import LibUpdate.Foundation.Nesting
import LibUpdate.Foundation.Segments
import LibUpdate.Foundation.FileTree
import LibUpdate.Foundation.Prog
import LibUpdate.Foundation.CrashLogic
import LibUpdate.Foundation.Refinement
import LibUpdate.Foundation.Blocks
import LibUpdate.Foundation.Reader
import LibUpdate.Foundation.Quoted
import LibUpdate.Foundation.Trace
import LibUpdate.Foundation.Subtree
import LibUpdate.Foundation.Graft
import LibUpdate.Foundation.CommandLine
import LibUpdate.Path
import LibUpdate.Path.Absolute
import LibUpdate.Path.Windows
import LibUpdate.JsonMini
import LibUpdate.Sha256.Standard
import LibUpdate.Sha256.Model
import LibUpdate.Sha256.Streaming
import LibUpdate.Json.Grammar
import LibUpdate.Json.Decode
import LibUpdate.Json.Lookup
import LibUpdate.Json.Extract
import LibUpdate.Json.Agree
import LibUpdate.Json.Object
import LibUpdate.Json.Cut
import LibUpdate.Html.Buf
import LibUpdate.Html.Sanitize
import LibUpdate.Html.Pass
import LibUpdate.Html.Room
import LibUpdate.Html.Memory
import LibUpdate.Html.Termination
import LibUpdate.Html.Grammar
import LibUpdate.Html.Allocation
import LibUpdate.Html.Escape
import LibUpdate.Html.Run
import LibUpdate.Html.Tags
import LibUpdate.Html.Document
import LibUpdate.Html.Again
import LibUpdate.Html.Visible
import LibUpdate.Platform.Fs
import LibUpdate.Platform.Volume
import LibUpdate.Platform.WinCmdline
import LibUpdate.Extract.Model
import LibUpdate.Extract.Paths
import LibUpdate.Extract.Containment
import LibUpdate.Extract.Complete
import LibUpdate.Copy.Model
import LibUpdate.Copy.Termination
import LibUpdate.Copy.Steps
import LibUpdate.Copy.Walk
import LibUpdate.Copy.Faithful
import LibUpdate.Copy.Complete
import LibUpdate.Copy.Merge
import LibUpdate.Copy.Modes
import LibUpdate.Updater.State
import LibUpdate.Updater.StateBuffer
import LibUpdate.Updater.StateRoundTrip
import LibUpdate.Updater.Torn
import LibUpdate.Updater.Main
import LibUpdate.Updater.History
import LibUpdate.Updater.KeptCopy
import LibUpdate.Updater.Recovery
import LibUpdate.Updater.Overlay
import LibUpdate.Updater.Atomicity
import LibUpdate.Updater.Beside
import LibUpdate.Updater.Crashes
import LibUpdate.Extract.Exact
import LibUpdate.Extract.Undisturbed
import LibUpdate.System.Model
import LibUpdate.System.Remove
import LibUpdate.System.Updater
import LibUpdate.System.View
import LibUpdate.System.Simulation
import LibUpdate.System.Crash
import LibUpdate.System.Recovery
import LibUpdate.Http.Source
import LibUpdate.Http.Body
import LibUpdate.Http.Chunked
import LibUpdate.Http.Encoding
import LibUpdate.Http.Headers
import LibUpdate.Http.Framing
import LibUpdate.Http.Fields
import LibUpdate.Http.Twins
import LibUpdate.Http.Request
import LibUpdate.Remote.Manifest
import LibUpdate.Remote.Version
import LibUpdate.Remote.Order
import LibUpdate.Remote.Format
import LibUpdate.Perform.Context
import LibUpdate.Perform.Device
import LibUpdate.Perform.Digest
import LibUpdate.Perform.Model
import LibUpdate.Download.Model
import LibUpdate.Perform.Steps
import LibUpdate.Download.Steps
import LibUpdate.Download.Atomicity
import LibUpdate.Download.Pin
import LibUpdate.Perform.Runs
import LibUpdate.Perform.Gate
import LibUpdate.Perform.Process
import LibUpdate.Perform.Configuration
import LibUpdate.Perform.Invariant
import LibUpdate.Perform.Verify
import LibUpdate.Perform.Workdir
import LibUpdate.Foundation.Machine
import LibUpdate.Platform.Spawn.Verdict
import LibUpdate.Platform.Spawn.Outcome
import LibUpdate.Download.Response
import LibUpdate.System.Handover
import LibUpdate.System.Check
import LibUpdate.System.Cut
