import PulsearcDb.VersionSet.ManifestNumbers
import PulsearcDb.WriteBatchCodec
import PulsearcDb.DbImpl.EqualKeys
import PulsearcDb.DbImpl.Threads
import PulsearcDb.DbImpl.TableFiles
import PulsearcDb.DbImpl.StickyErrors
import PulsearcDb.DbImpl.Reopen
import PulsearcDb.DbIterCursor
import PulsearcDb.Block.BlockSafety
import PulsearcDb.Table.IndexKeys
import PulsearcDb.Table.TableFilters
import PulsearcDb.CursorDecoders
import PulsearcDb.Table.BlockCache
import PulsearcDb.LruShard
import PulsearcDb.LengthPrefixes
import PulsearcDb.DbImpl.ApproximateSizes
import PulsearcDb.DbImpl.LevelIterator
import PulsearcDb.DbImpl.Draining
import PulsearcDb.DbImpl.ReplayedBatches
