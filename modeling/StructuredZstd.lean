import StructuredZstd.Fse.RoundTrip
import StructuredZstd.Fse.TableRuns
import StructuredZstd.Fse.HeaderRoundTrip
import StructuredZstd.Decoding.SequencePaths
import StructuredZstd.Decoding.TreelessRuns
import StructuredZstd.Decoding.StreamProgress
import StructuredZstd.Decoding.DirectDecode
import StructuredZstd.Decoding.InlineEqualsPlain
import StructuredZstd.Decoding.BlockRollback
import StructuredZstd.Decoding.FourStreams
import StructuredZstd.Encoding.FrameHeader
import StructuredZstd.Ring.ReserveRuns
import StructuredZstd.Ring.Branchless
import StructuredZstd.Decoding.DeliveryRuns
import StructuredZstd.Encoding.BlockLoopRuns
import StructuredZstd.BitIo.WriterRuns
import StructuredZstd.BitIo.ReverseReads
import StructuredZstd.Fse.NormalizeChecked
import StructuredZstd.Decoding.DictionaryViews
import StructuredZstd.Encoding.DictionaryBudget
import StructuredZstd.Encoding.MatchTableRuns
import StructuredZstd.Encoding.TableSelectionSpec
import StructuredZstd.Encoding.OffsetCodes
import StructuredZstd.Encoding.ReplayBlocks
import StructuredZstd.Encoding.RebuiltSource
import StructuredZstd.Encoding.LiteralsSize
import StructuredZstd.Huff0.BuildGuards
import StructuredZstd.Huff0.UnrolledStream
import StructuredZstd.Encoding.LdmCandidates
import StructuredZstd.Legacy.SequenceTables
import StructuredZstd.Encoding.FastHashTable
import StructuredZstd.Encoding.FastHashTableSpec
import StructuredZstd.Encoding.FastTableRuns
import StructuredZstd.BitIo.BitReader
import StructuredZstd.Encoding.LiteralRuns
import StructuredZstd.Fse.AdmittedTables
import StructuredZstd.Huff0.LeafOrder
import StructuredZstd.Encoding.SeenContentRuns
import StructuredZstd.Encoding.DictionarySlices
import StructuredZstd.Encoding.HuffmanCoding
import StructuredZstd.Encoding.SectionRuns
import StructuredZstd.Encoding.SequenceCodes
