import DiskHash.Lib.TopBits
import DiskHash.Lib.Machine
import DiskHash.Lib.Concurrent
import DiskHash.Lib.Sweep
import DiskHash.Lib.Operations
import DiskHash.Lib.RwLock
import DiskHash.Lib.Dictionary
import DiskHash.Lib.Chain
import DiskHash.Lib.Lines
import DiskHash.Base64
import DiskHash.Table
import DiskHash.HashMap
import DiskHash.Wrapped
import DiskHash.Split
import DiskHash.Mapping
import DiskHash.Chains
import DiskHash.Compaction
import DiskHash.Reopen
import DiskHash.Insertion
import DiskHash.Interleaving
import DiskHash.Failure
import DiskHash.Keys
import DiskHash.Reading
import DiskHash.Listing
import DiskHash.Service
import DiskHash.Client
import DiskHash.Reread
import DiskHash.Space
import DiskHash.ReadOnly
import DiskHash.Persistence
import DiskHash.Restart
