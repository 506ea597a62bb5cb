import Turbovec.Lib.Slice
import Turbovec.Lib.LittleEndian
import Turbovec.Lib.Grid
import Turbovec.Lib.Bits
import Turbovec.Pack.Codes
import Turbovec.Pack.Native
import Turbovec.Pack.Blocked
import Turbovec.Pack.Lanes
import Turbovec.Pack.Planes
import Turbovec.Pack.Regions
import Turbovec.Pack.PlanesSeq
import Turbovec.Pack.Units
import Turbovec.Pack.Layouts
import Turbovec.Pack.PlanesLayouts
import Turbovec.Pack.PlanesOwned
import Turbovec.F32
import Turbovec.IoV7.Crc
import Turbovec.IoV7.Format
import Turbovec.IoV7.Parse
import Turbovec.IoV7.Load
import Turbovec.IoV7.Accepted
import Turbovec.IoV7.Decode
import Turbovec.IoV7.RoundTrip
import Turbovec.IoV7.InPlace
import Turbovec.IoV7.Declared
import Turbovec.IoV7.HeaderCodec
import Turbovec.IoV7.CursorState
import Turbovec.IoV7.Plan
import Turbovec.Index.State
import Turbovec.Index.Cache
import Turbovec.Index.CacheRows
import Turbovec.Index.Mutate
import Turbovec.Index.IdMap
import Turbovec.Index.IdMapCalls
import Turbovec.Index.IdMapRuns
import Turbovec.Index.Open
import Turbovec.Index.Rows
import Turbovec.Index.Stores
import Turbovec.Index.Derived
import Turbovec.Scan.Heap
import Turbovec.Scan.Blocks
import Turbovec.Scan.Range
import Turbovec.Scan.Dispatch
import Turbovec.Scan.Tiles
import Turbovec.Scan.Exact
import Turbovec.Scan.Shortlist
import Turbovec.Scan.Stream
import Turbovec.Lib.Wrapped
import Turbovec.Scan.Dot
import Turbovec.Scan.Rescore
import Turbovec.Scan.LowPlanes
import Turbovec.Scan.Avx2
import Turbovec.Encode.Quantize
import Turbovec.Encode.Refit
import Turbovec.Index.Runs
import Turbovec.Index.Search
import Turbovec.Mapped
import Turbovec.Lib.Panic
import Turbovec.Lib.SlotMap
import Turbovec.IoV7.Checked
import Turbovec.IoV7.Total
import Turbovec.Index.Clean
import Turbovec.Index.Captures
import Turbovec.Index.Written
import Turbovec.Index.StoredRows
import Turbovec.Index.Parts
import Turbovec.Index.Content
import Turbovec.Index.Reloaded
import Turbovec.Index.Addable
import Turbovec.Index.Failed
import Turbovec.Lib.Writes
import Turbovec.IoV7.Sync
import Turbovec.IoV7.Torn
import Turbovec.Index.Synced
import Turbovec.Python.Persist
import Turbovec.Python.Reader
import Turbovec.Lib.Passes
import Turbovec.Rotation.Hadamard
import Turbovec.Rotation.Schedules
import Turbovec.Rotation.Rotate
import Turbovec.Rotation.Paths
import Turbovec.Rotation.Isometry
import Turbovec.Scan.PoolMap
import Turbovec.Io.Temps
import Turbovec.Lib.Select
import Turbovec.Lib.Rounded
import Turbovec.Encode.Calibrate
import Turbovec.Scan.Windows
import Turbovec.Scan.Tables
import Turbovec.Encode.Rows
import Turbovec.Lib.Multimap
import Turbovec.Python.Agno
import Turbovec.Python.SideIndexes
import Turbovec.Python.SavedPairs
import Turbovec.Index.Kernels
import Turbovec.Python.Sliced
import Turbovec.Python.SlicedSearch
import Turbovec.Lib.Crc
import Turbovec.IoV7.CrcPaths
import Turbovec.Lib.Worklist
import Turbovec.Lib.JsonText
import Turbovec.Lib.Json
import Turbovec.Python.JsonFaithful
import Turbovec.Python.SavedPayload
