import Pksh.Accepting
import Pksh.ArgBlocks
import Pksh.ArgCursor
import Pksh.Argv
import Pksh.BatchLoop
import Pksh.Bounds
import Pksh.Clients
import Pksh.CommandLine
import Pksh.Completion
import Pksh.Config
import Pksh.CopyRight
import Pksh.DevNames
import Pksh.DirEntries
import Pksh.Browsing
import Pksh.DumpReg
import Pksh.Dumps
import Pksh.Eeexec
import Pksh.Fetching
import Pksh.FileServer
import Pksh.Forwarding
import Pksh.GsexecSize
import Pksh.Isolation
import Pksh.Launching
import Pksh.Leftovers
import Pksh.Listing
import Pksh.LogBounds
import Pksh.LogFiles
import Pksh.LogLines
import Pksh.NapCarried
import Pksh.NapExec
import Pksh.NapHandle
import Pksh.NapIdle
import Pksh.NapServed
import Pksh.OpenFlags
import Pksh.Outgoing
import Pksh.Printing
import Pksh.Quicklink.Delivery
import Pksh.RawRuns
import Pksh.Reading
import Pksh.Registered
import Pksh.Resync
import Pksh.Retrying
import Pksh.RoundTrip
import Pksh.Seams
import Pksh.Sending
import Pksh.Sessions
import Pksh.SlotSearch
import Pksh.Sockets
import Pksh.Stale
import Pksh.ViewMem
import Pksh.Words
import Pksh.Writing
import Pksh.Figures
