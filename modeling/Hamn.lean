import Hamn.Lib.Crash
import Hamn.Lib.Result
import Hamn.Lib.Bytes
import Hamn.Lib.Utf8
import Hamn.Lib.Posix
import Hamn.Lib.PathTree
import Hamn.Lib.RecentList
import Hamn.Lib.SerdeJson
import Hamn.Image.Qcow2
import Hamn.Image.Qcow2Extract
import Hamn.Image.Qcow2Wrap
import Hamn.Guest.Json
import Hamn.Guest.JsonGrammar
import Hamn.Guest.JsonUtf8
import Hamn.Guest.JsonCodec
import Hamn.Guest.JsonLex
import Hamn.Guest.JsonMembers
import Hamn.Guest.JsonParse
import Hamn.Guest.JsonWrite
import Hamn.Guest.JsonFloat
import Hamn.Guest.JsonDump
import Hamn.Guest.JsonDigits
import Hamn.Guest.PackageInventory
import Hamn.Guest.Digest
import Hamn.Install.Files
import Hamn.Install.Journal
import Hamn.Install.Generation
import Hamn.Install.Update
import Hamn.Install.Frame
import Hamn.Install.Atomic
import Hamn.Install.AtomicUpdate
import Hamn.Install.AtomicRun
import Hamn.Lib.Reader
import Hamn.Agent.PicoHttp
import Hamn.Agent.Conn
import Hamn.Agent.Framing
import Hamn.Guest.JsonUnique
import Hamn.Guest.DockerDaemon
import Hamn.Host.DaemonJson
import Hamn.Host.Profile
import Hamn.Host.Apply
import Hamn.Host.ApplyReport
import Hamn.Lib.Steps
import Hamn.Lib.Locks
import Hamn.Install.Locks
import Hamn.Host.Admission
import Hamn.Host.RemoteCommand
import Hamn.Host.RemoteMutation
import Hamn.Host.Operation
import Hamn.Host.ImageFetch
import Hamn.Host.Purge
import Hamn.Host.Uninstall
import Hamn.Image.RawCache
import Hamn.Host.Reset
import Hamn.Host.Workspace
import Hamn.Install.Partial
import Hamn.Install.Headers
import Hamn.Install.Acquire
import Hamn.Install.AcquireRun
import Hamn.Install.Archive
import Hamn.Install.UpdateCheck
import Hamn.Install.CanonicalJson
import Hamn.Lib.RingBuffer
import Hamn.Host.MountInotify
import Hamn.Host.UdpProxy
import Hamn.Host.UdpIsolation
import Hamn.Lib.Assoc
import Hamn.Guest.DockerMerge
import Hamn.Tui.Row
import Hamn.Tui.Request
import Hamn.Tui.Words
import Hamn.Tui.ClusterKinds
import Hamn.Tui.TerminalInput
import Hamn.Tui.ToggleAll
import Hamn.Tui.Confirmation
import Hamn.Tui.Preferences
import Hamn.Tui.State
import Hamn.Tui.Flags
import Hamn.Guest.JsonBuild
import Hamn.Guest.ImageUtil
import Hamn.Guest.SizeGate
import Hamn.Release.Syntax
import Hamn.Tui.KindWords
import Hamn.Tui.Native
import Hamn.Tui.Action
import Hamn.Tui.Screen
import Hamn.Tui.Owner
import Hamn.Host.ChunkedBody
import Hamn.Lib.Shell
import Hamn.Lib.Split
import Hamn.Lib.Sha2
import Hamn.Lib.Search
import Hamn.Host.Console
import Hamn.Host.LogRedaction
import Hamn.Guest.EvidencePublish
import Hamn.Host.DockerObserver
import Hamn.Host.DockerSnapshot
import Hamn.Host.GuestFilesystem
import Hamn.Lib.Scanf
import Hamn.Lib.Quoting
