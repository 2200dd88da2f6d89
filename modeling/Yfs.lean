import Yfs.Lib.Reachable
import Yfs.Lib.Prog
import Yfs.Lib.Pool
import Yfs.Lib.Ordered
import Yfs.Lib.Monitor
import Yfs.Lib.Codec
import Yfs.Rpc.Handle
import Yfs.Rpc.Refcount
import Yfs.Rpc.Fifo
import Yfs.Rpc.Marshall
import Yfs.Rpc.Stubs
import Yfs.Lock.Protocol
import Yfs.Lock.System
import Yfs.Lock.Invariant
import Yfs.Lock.Preservation
import Yfs.Lock.Safety
import Yfs.Lock.Dispatch
import Yfs.Lock.Fifo
import Yfs.Lock.Steps
import Yfs.Lock.Token
import Yfs.Lock.Front
import Yfs.Lock.Calls
import Yfs.Lock.Answers
import Yfs.Lock.Spurious
import Yfs.Lock.Attended
import Yfs.Lock.Progress
import Yfs.Lock.Cluster
import Yfs.Lock.Plain
import Yfs.Lock.Overtaking
import Yfs.Extent.Client
import Yfs.Extent.Failure
import Yfs.Extent.Server
import Yfs.Extent.Slice
import Yfs.Extent.Coherence
import Yfs.Extent.Calls
import Yfs.Extent.Callbacks
import Yfs.Extent.Removal
import Yfs.Extent.Times
import Yfs.Extent.Reading
import Yfs.Extent.Wire
import Yfs.Fs.Directory
import Yfs.Fs.Ops
import Yfs.Fs.Locks
import Yfs.Fs.Store
import Yfs.Fs.Service
import Yfs.Fs.Clients
import Yfs.Fs.Namespace
import Yfs.Fs.History
import Yfs.Fs.Serial
import Yfs.Fs.Progress
import Yfs.Fs.Stack
import Yfs.Fs.Types
import Yfs.Fs.Tree
import Yfs.Storage.Blocks
import Yfs.Storage.Inodes
import Yfs.Storage.Frame
import Yfs.Storage.Files
import Yfs.Storage.Write
import Yfs.Storage.System
import Yfs.Storage.Space
import Yfs.Storage.Bitmap
import Yfs.Storage.Layer
import Yfs.Storage.Times
import Yfs.Storage.Concurrent
import Yfs.Storage.Requests
import Yfs.Storage.Release
import Yfs.Storage.Again
import Yfs.Fs.Session
import Yfs.Fs.Alone
import Yfs.Fs.ByteArray
import Yfs.Fs.Unlink
import Yfs.Fs.Readdir
import Yfs.Fs.Contracts
import Yfs.Fs.Fuse
import Yfs.Fs.Mounted
import Yfs.Fs.Kernel
import Yfs.Storage.Cycle
