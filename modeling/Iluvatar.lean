import Iluvatar.Library.Loop
import Iluvatar.Compress.Decompressor
import Iluvatar.Compress.Contract
import Iluvatar.Stream.Index
import Iluvatar.Stream.Reader
import Iluvatar.Library.Segment
import Iluvatar.Stream.ReaderServe
import Iluvatar.Stream.ReaderStep
import Iluvatar.Stream.ReaderRuns
import Iluvatar.Stream.Indexer
import Iluvatar.Stream.IndexerTable
import Iluvatar.Stream.IndexerRuns
import Iluvatar.Stream.IndexerMoves
import Iluvatar.Stream.Thinning
import Iluvatar.Stream.ThinningRuns
import Iluvatar.Stream.ThinningSpread
import Iluvatar.Stream.IndexerResumed
import Iluvatar.Archive.Parser
import Iluvatar.Engine.IndexingEngine
import Iluvatar.Engine.HandedOut
import Iluvatar.Engine.ReadEngine
import Iluvatar.Library.Feeding
import Iluvatar.Compress.Stage
import Iluvatar.Compress.Chain
import Iluvatar.Compress.ChainStanding
import Iluvatar.Compress.ChainRuns
import Iluvatar.Compress.ChainCheckpoint
import Iluvatar.Compress.Bzip2
import Iluvatar.Compress.Bzip2Header
import Iluvatar.Library.Ring
import Iluvatar.Compress.Gzip
import Iluvatar.Compress.GzipHeader
import Iluvatar.Compress.GzipStanding
import Iluvatar.Compress.GzipRuns
import Iluvatar.Compress.GzipCheckpoint
import Iluvatar.Lzma.Decoder
import Iluvatar.Lzma.History
import Iluvatar.Lzma.Symbol
import Iluvatar.Lzma.SymbolGood
import Iluvatar.Lzma.SymbolMachine
import Iluvatar.Lzma.Follows
import Iluvatar.Lzma.Resume
import Iluvatar.Library.Fallible
import Iluvatar.Lzma.Fast
import Iluvatar.Lzma.Decode
import Iluvatar.Library.Buffer
import Iluvatar.Lzma.Window
import Iluvatar.Lzma.WindowCopy
import Iluvatar.Lzma.WindowView
import Iluvatar.Lzma.Refinement
import Iluvatar.Archive.Text
import Iluvatar.Archive.Cpio
import Iluvatar.Archive.CpioFormat
import Iluvatar.Archive.CpioRuns
import Iluvatar.Archive.Detection
import Iluvatar.Engine.Delivery
import Iluvatar.Engine.CpioMembers
import Iluvatar.Archive.Tar
import Iluvatar.Archive.Ar
import Iluvatar.Engine.Reading
import Iluvatar.Engine.Pieces
import Iluvatar.Archive.TarPieces
import Iluvatar.Archive.ArPieces
import Iluvatar.Archive.CpioPieces
import Iluvatar.Engine.Cuts
import Iluvatar.Engine.Driving
import Iluvatar.Archive.CpioLedger
import Iluvatar.Archive.CpioReports
import Iluvatar.Library.FiniteState
import Iluvatar.Library.Repetition
import Iluvatar.Zstd.Bits
import Iluvatar.Zstd.Fse
import Iluvatar.Zstd.FseCounts
import Iluvatar.Zstd.FseSpread
import Iluvatar.Zstd.FseTable
import Iluvatar.Zstd.Sequences
import Iluvatar.Zstd.Copying
import Iluvatar.Zstd.Execution
import Iluvatar.Zstd.BackwardBits
import Iluvatar.Zstd.Decoding
import Iluvatar.Zstd.Block
import Iluvatar.Lzma.WindowRefinement
import Iluvatar.Lzma.Slow
import Iluvatar.Lzma.FastAgrees
import Iluvatar.Lzma.Decompressor
import Iluvatar.Lzma.Distances
import Iluvatar.Lzma.Lzma2
import Iluvatar.Lzma.Lzma2Machine
import Iluvatar.Lzma.Lzma2Decode
import Iluvatar.Lzma.Lzma2Calls
import Iluvatar.Lzma.Lzma2Decompressor
import Iluvatar.Lzma.Lzma2Ledger
import Iluvatar.Lzma.Lzma2Totals
import Iluvatar.Library.Scanner
import Iluvatar.Compress.Filter
import Iluvatar.Compress.FilterWords
import Iluvatar.Compress.FilterX86
import Iluvatar.Compress.FilterX86Runs
import Iluvatar.Compress.FilterStage
import Iluvatar.Compress.FilterRuns
import Iluvatar.Compress.FilterX86Inverse
import Iluvatar.Compress.FilterBundle
import Iluvatar.Compress.FilterInverse
import Iluvatar.Compress.FilterRiscV
import Iluvatar.Library.RangeCoding
import Iluvatar.Library.Owing
import Iluvatar.Compress.Bcj2
import Iluvatar.Compress.Bcj2Coder
import Iluvatar.Compress.Bcj2Runs
import Iluvatar.Zstd.Weights
import Iluvatar.Zstd.WeightsEnd
import Iluvatar.Library.PrefixCode
import Iluvatar.Zstd.Huffman
import Iluvatar.Zstd.HuffmanFill
import Iluvatar.Zstd.HuffmanCanonical
import Iluvatar.Zstd.HuffmanStreams
import Iluvatar.Zstd.HuffmanPlain
import Iluvatar.Zstd.HuffmanRounds
import Iluvatar.Zstd.HuffmanBulk
import Iluvatar.Zstd.BackwardReader
import Iluvatar.Compress.RangeCoders
import Iluvatar.Engine.Feedings
import Iluvatar.Archive.PaxRecords
import Iluvatar.Archive.TarRuns
import Iluvatar.Archive.TarEnds
import Iluvatar.Compress.Aes
import Iluvatar.Compress.AesRuns
import Iluvatar.Library.Occurrences
import Iluvatar.Compress.Bzip2Magic
import Iluvatar.Compress.GzipFormat
import Iluvatar.Compress.GzipHandover
import Iluvatar.Archive.ArFormat
import Iluvatar.Archive.ArRuns
import Iluvatar.Archive.ArRoundTrip
import Iluvatar.Engine.Lookup
import Iluvatar.Library.File
import Iluvatar.Library.Cursor
import Iluvatar.Sync.Reader
import Iluvatar.Sync.FullRange
import Iluvatar.Sync.Serving
import Iluvatar.Sync.Ranges
import Iluvatar.Sync.Entries
import Iluvatar.Library.Polled
import Iluvatar.Tokio.Reader
import Iluvatar.Tokio.Polls
import Iluvatar.Library.Ends
import Iluvatar.Engine.Ends
import Iluvatar.Engine.Advancing
import Iluvatar.Sync.Indexing
import Iluvatar.Sync.Builds
import Iluvatar.Engine.LookupRuns
import Iluvatar.Engine.ArMembers
import Iluvatar.Sync.ReadsBack
import Iluvatar.Sync.Streams
