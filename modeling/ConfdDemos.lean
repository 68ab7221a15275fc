import ConfdDemos.Foundation.Machine
import ConfdDemos.Foundation.Overlay
import ConfdDemos.Foundation.Entrywise
import ConfdDemos.Aasync.NodeList
import ConfdDemos.Aasync.Daemon
import ConfdDemos.Aasync.Guard
import ConfdDemos.Aasync.Replication
import ConfdDemos.Aasync.Cluster
import ConfdDemos.Aasync.Holding
import ConfdDemos.Aasync.Serving
import ConfdDemos.Aasync.Agreement
import ConfdDemos.SyncNc.TwoPhase
import ConfdDemos.Gnmi.Reader
import ConfdDemos.Gnmi.ApiStream
import ConfdDemos.Gnmi.DemoStream
import ConfdDemos.Gnmi.Convergence
import ConfdDemos.Gnmi.Path
import ConfdDemos.Gnmi.Transaction
import ConfdDemos.Gnmi.Structured
import ConfdDemos.Gnmi.SetRequest
import ConfdDemos.Foundation.Delimited
import ConfdDemos.Gnmi.RoundTrip
import ConfdDemos.Gnmi.Addressing
import ConfdDemos.Aasync.Membership
import ConfdDemos.Aasync.LocalMember
import ConfdDemos.Aasync.Sockets
import ConfdDemos.Gnmi.Generator
import ConfdDemos.Gnmi.Lifecycle
import ConfdDemos.Gnmi.Poll
import ConfdDemos.CdbOper.ListIteration
import ConfdDemos.Postgres.Servers
import ConfdDemos.Gnmi.Keypath
import ConfdDemos.Gnmi.Stripping
import ConfdDemos.Gnmi.Rewriting
import ConfdDemos.PasswdPolicy.Roles
import ConfdDemos.Postgres.Transaction
import ConfdDemos.Foundation.Quoted
import ConfdDemos.TlsRelay.Relay
import ConfdDemos.Webui.TreeKeys
import ConfdDemos.Webui.Keypaths
import ConfdDemos.Webui.Removal
import ConfdDemos.Webui.ListCounter
import ConfdDemos.AnnStmt.Extraction
import ConfdDemos.AnnStmt.Conservation
import ConfdDemos.Gnmi.ExternalChange
import ConfdDemos.Gnmi.DemoShutdown
import ConfdDemos.Webui.TypeChain
import ConfdDemos.Webui.CaseSwitch
import ConfdDemos.Foundation.Dict
import ConfdDemos.Gnmi.DemoDb
import ConfdDemos.Gnmi.DemoSelection
import ConfdDemos.Gnmi.DemoWrites
import ConfdDemos.Foundation.Xml
import ConfdDemos.SyncNc.EditConfig
import ConfdDemos.AnnStmt.Paths
import ConfdDemos.Ann2Ann.Conversion
import ConfdDemos.Ann2Ann.Targets
import ConfdDemos.CdbOper.Choices
import ConfdDemos.Foundation.Decimal
import ConfdDemos.Gnmi.RouteProvider
import ConfdDemos.PasswdPolicy.HomeDirectories
import ConfdDemos.Webui.ModelTree
import ConfdDemos.YangPush.RouteStore
import ConfdDemos.Foundation.Chain
import ConfdDemos.Symlink.Traversals
import ConfdDemos.CmdPath.Masking
import ConfdDemos.CdbOper.ObjectTemplates
import ConfdDemos.DpPerformance.ResultBuffer
import ConfdDemos.Foundation.Comprehension
import ConfdDemos.Gnmi.ScriptedChanges
import ConfdDemos.Symlink.Groupings
import ConfdDemos.Symlink.Links
import ConfdDemos.Aasync.Barrier
import ConfdDemos.CmdPath.Tagging
import ConfdDemos.ConfdCmd.Script
import ConfdDemos.Foundation.Arrivals
import ConfdDemos.NetconfConsole.Chunks
import ConfdDemos.NetconfConsole.Console
import ConfdDemos.NetconfConsole.Sending
import ConfdDemos.Webui.Commits
import ConfdDemos.CmdPath.Dump
