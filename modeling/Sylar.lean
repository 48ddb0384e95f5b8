import Sylar.Filtering
import Sylar.Lib.Arena
import Sylar.Lib.FileStream
import Sylar.Lib.Locks
import Sylar.Lib.LockWords
import Sylar.Lib.NodeGraph
import Sylar.Lib.Outcome
import Sylar.Lib.SortedBy
import Sylar.Lib.Transition
import Sylar.Lib.Unordered
import Sylar.Lib.Yaml
import Sylar.Model
import Sylar.Parse
import Sylar.Reach
import Sylar.World
import Sylar.Configured
import Sylar.Dump
import Sylar.Rendering
import Sylar.Config
import Sylar.Keys
import Sylar.Reload
import Sylar.Meaning
import Sylar.Listener
import Sylar.Codec
import Sylar.Usable
import Sylar.Grammar
import Sylar.Scalars
import Sylar.Registry
import Sylar.Threads
import Sylar.Lifetime
import Sylar.Handshake
import Sylar.Flatten
import Sylar.OneLogger
import Sylar.Locking
import Sylar.FileLog
import Sylar.Lib.Lines
import Sylar.Scanning
import Sylar.Placement
import Sylar.Backtrace
import Sylar.ConfigLocking
import Sylar.Alone
import Sylar.SharedRegistry
import Sylar.Snapshot
import Sylar.SharedLogging
import Sylar.Joining
import Sylar.Statements
import Sylar.Output
import Sylar.Guards
import Sylar.History
import Sylar.Deployment
import Sylar.Lib.Protection
import Sylar.Protected
