import Smolmux.CursorReader
import Smolmux.Base64Buffers
import Smolmux.WriteStream
import Smolmux.ClientLines
import Smolmux.Broker.ExpectLimits
import Smolmux.AnomalyPrefilter
import Smolmux.EmbeddedNul
import Smolmux.AnomalyIncidents
import Smolmux.Broker.Authentication
import Smolmux.Broker.EventBatch
import Smolmux.Broker.Drain
import Smolmux.Broker.Rollback
import Smolmux.Broker.Replies
import Smolmux.Broker.SeatGate
import Smolmux.Broker.LinkWatch
import Smolmux.Links.Gdb
import Smolmux.Mcp.MiParse
import Smolmux.HistoryContent
import Smolmux.Broker.ExpectLedger
import Smolmux.JsonNesting
import Smolmux.Links.SerialTcp
import Smolmux.Sinks.WsFrames
import Smolmux.Sinks.WsRequest
import Smolmux.AutoresponderRate
import Smolmux.Broker.BootAnnouncements
import Smolmux.SockUtil
import Smolmux.Cli.WithPort
import Smolmux.TextLog
import Smolmux.Mcp.GdbTokens
import Smolmux.Mcp.OutputBuffer
import Smolmux.Mcp.GdbProfile
import Smolmux.Watcher
import Smolmux.Monitor
