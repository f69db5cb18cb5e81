import LedgerArchive.Common.TwoReaders
import LedgerArchive.Common.TxTree
import LedgerArchive.Import.Chain
import LedgerArchive.Import.Ledgers
import LedgerArchive.Nudb.Keyfile
import LedgerArchive.Nudb.Writer
import LedgerArchive.Nudb.RoundTrip
import LedgerArchive.Lib.Xxh64
import LedgerArchive.Nudb.Diff
import LedgerArchive.Nudb.Telescope
import LedgerArchive.Lib.Steps
import LedgerArchive.Nudb.Finish
import LedgerArchive.Import.Main
import LedgerArchive.Import.Servable
import LedgerArchive.Common.Written
import LedgerArchive.Common.Layouts
import LedgerArchive.Import.Range
import LedgerArchive.Import.Bounds
import LedgerArchive.Import.Termination
import LedgerArchive.Lib.SortBy
import LedgerArchive.Nudb.Transactions
import LedgerArchive.Import.Order
import LedgerArchive.Common.MetaDecode
import LedgerArchive.Common.StObject
import LedgerArchive.Common.Affected
import LedgerArchive.Index.Build
import LedgerArchive.Index.Exact
import LedgerArchive.Export.Main
import LedgerArchive.Lib.Search
import LedgerArchive.Nudb.Search
import LedgerArchive.Lib.Within
import LedgerArchive.Nudb.Answers
import LedgerArchive.Export.Batches
import LedgerArchive.Export.Deterministic
import LedgerArchive.Nudb.Codecs
import LedgerArchive.Nudb.Compressed
import LedgerArchive.Lib.Positions
import LedgerArchive.Import.Complete
import LedgerArchive.Lib.Checked
import LedgerArchive.Import.Headers
import LedgerArchive.Nudb.Damaged
import LedgerArchive.Common.Truncated
import LedgerArchive.Common.TxFields
import LedgerArchive.Export.Overflow
import LedgerArchive.Lib.Tiling
import LedgerArchive.Export.Tiling
import LedgerArchive.Import.NewRoot
import LedgerArchive.Index.Paging
import LedgerArchive.Lib.Digits
import LedgerArchive.Common.Address
import LedgerArchive.Common.TxTypes
import LedgerArchive.Import.TxDb
import LedgerArchive.Index.TwoWriters
import LedgerArchive.Import.Overlap
import LedgerArchive.Export.Source
import LedgerArchive.Import.Accepted
import LedgerArchive.Import.LedgerDb
import LedgerArchive.Import.Replica
import LedgerArchive.Import.Reexport
import LedgerArchive.Lib.Alike
import LedgerArchive.Import.VerifyOnly
import LedgerArchive.Difftest.Compare
import LedgerArchive.Difftest.OwnOutput
import LedgerArchive.Import.Publish
import LedgerArchive.Lib.Log
import LedgerArchive.Nudb.ScanDat
import LedgerArchive.Nudb.Adaptive
import LedgerArchive.Index.Cli
import LedgerArchive.Inspect.Scan
import LedgerArchive.Inspect.Agrees
import LedgerArchive.Export.Resume
import LedgerArchive.Lib.Directory
import LedgerArchive.Export.Publish
import LedgerArchive.Export.Restart
import LedgerArchive.Index.Publish
