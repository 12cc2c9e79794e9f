import Minilog.Lib.Bytes
import Minilog.Lib.Checked
import Minilog.Lib.Utf8
import Minilog.Lib.Lines
import Minilog.Lib.Paging
import Minilog.Lib.Effect
import Minilog.Lib.Slots
import Minilog.Lib.ObjectText
import Minilog.Lib.Form
import Minilog.Lib.Transition
import Minilog.Cli.Follow
import Minilog.Cli.Config
import Minilog.Cli.FollowSize
import Minilog.Cli.Escapes
import Minilog.Cli.Session
import Minilog.Server.EndToEnd
import Minilog.Parser.Classify
import Minilog.Output.Escape
import Minilog.Output.Sanitize
import Minilog.Output.History
import Minilog.Output.Retention
import Minilog.Output.Archive
import Minilog.Output.LogFile
import Minilog.Output.KeepAll
import Minilog.Output.Faults
import Minilog.Output.Gaps
import Minilog.Output.Lifecycle
import Minilog.Output.Outages
import Minilog.Send.RoundTrip
import Minilog.Send.Format
import Minilog.Server.Flood
import Minilog.Server.Ownership
import Minilog.Server.Facilities
import Minilog.Server.Size
import Minilog.Server.Forwarder
import Minilog.Server.Listening
import Minilog.Server.Admission
import Minilog.Viewer.Backward
import Minilog.Viewer.Depth
import Minilog.Viewer.Agreement
import Minilog.Viewer.FieldScan
import Minilog.Viewer.Chips
import Minilog.Viewer.Scan
import Minilog.Viewer.Search
import Minilog.Viewer.LineEnds
import Minilog.Viewer.LongLines
import Minilog.Viewer.Fits
import Minilog.Viewer.LiveLog
import Minilog.Viewer.Handlers
import Minilog.Viewer.Tab
import Minilog.Viewer.LiveTail
import Minilog.Viewer.ClearScreen
import Minilog.Viewer.Accesses
import Minilog.Viewer.Races
import Minilog.Viewer.Screen
import Minilog.Viewer.Browser
import Minilog.Server.Ini
import Minilog.Viewer.Config
import Minilog.Lib.ConfigItems
import Minilog.Server.Backoff
import Minilog.Lib.Python
import Minilog.Lib.PythonJson
import Minilog.Cli.Render
import Minilog.Lib.Confined
import Minilog.Output.Locality
import Minilog.Server.Sinks
import Minilog.Lib.JsonObject
import Minilog.Lib.PythonText
import Minilog.Cli.ServerLines
import Minilog.Server.Returning
