import MiniLabs.Kvdb.FailedPut
import MiniLabs.Kvdb.ReadFailure
import MiniLabs.Lib.LinkRing
import MiniLabs.Malloc.Capacity
import MiniLabs.Malloc.Canonical
import MiniLabs.Gpt.Causal
import MiniLabs.Gpt.InBounds
import MiniLabs.Httpd.Order
import MiniLabs.Httpd.LogEntry
import MiniLabs.Httpd.Pieces
import MiniLabs.Httpd.Requested
import MiniLabs.Httpd.CgiStatus
import MiniLabs.Pstree.Canonical
import MiniLabs.Sperf.Profile
import MiniLabs.Maze.Saving
import MiniLabs.Fsrecov.Safe
import MiniLabs.Fsrecov.Stale
import MiniLabs.Kvdb.Corruption
import MiniLabs.Gpt.Slots
import MiniLabs.Gpt.Slices
import MiniLabs.Sperf.Lines
import MiniLabs.Sperf.Resolve
import MiniLabs.Httpd.ReadPipe
import MiniLabs.Pstree.StatusFile
import MiniLabs.Gpt.Generate
import MiniLabs.Kvdb.Concurrent
import MiniLabs.Malloc.SpinLock
import MiniLabs.Crepl.Session
import MiniLabs.Maze.Reached
import MiniLabs.Sperf.Trace
