import ZlibNg.Bits.Stream
import ZlibNg.Bits.Reverse
import ZlibNg.Bits.Program
import ZlibNg.Bits.Wide
import ZlibNg.Inflate.Tree
import ZlibNg.Inflate.TreeSort
import ZlibNg.Inflate.TreeFill
import ZlibNg.Inflate.TreeLoop
import ZlibNg.Inflate.TreeTable
import ZlibNg.Inflate.Enough
import ZlibNg.Inflate.Lookup
import ZlibNg.Inflate.Fixed
import ZlibNg.Checksum.Update
import ZlibNg.Bits.Lanes
import ZlibNg.Checksum.Adler32
import ZlibNg.Checksum.SwarSpec
import ZlibNg.Checksum.Adler32Spec
import ZlibNg.Inflate.State
import ZlibNg.Inflate.Cases
import ZlibNg.Inflate.Fast
import ZlibNg.Inflate.Inflate
import ZlibNg.Inflate.Init
import ZlibNg.Inflate.CaseSpec
import ZlibNg.Inflate.CodeSpec
import ZlibNg.Inflate.Canonical
import ZlibNg.Inflate.Live
import ZlibNg.Inflate.Symbol
import ZlibNg.Inflate.Window
import ZlibNg.Inflate.WindowUpdate
import ZlibNg.Inflate.FastSpec
import ZlibNg.Inflate.SymbolRun
import ZlibNg.Inflate.Progress
import ZlibNg.Inflate.SlowSpec
import ZlibNg.Inflate.FastSlow
import ZlibNg.Inflate.Decoder
import ZlibNg.Inflate.Account
import ZlibNg.Inflate.AccountSteps
import ZlibNg.Inflate.Session
import ZlibNg.Inflate.Return
import ZlibNg.Inflate.Invariant
import ZlibNg.Inflate.Calls
import ZlibNg.Inflate.Counters
import ZlibNg.Inflate.CheckValue
import ZlibNg.Inflate.History
import ZlibNg.Gzip.Header
import ZlibNg.Deflate.Header
import ZlibNg.Deflate.HeaderBytes
import ZlibNg.Inflate.HeaderRead
import ZlibNg.Inflate.HeaderCalls
import ZlibNg.Gzip.RoundTrip
import ZlibNg.Deflate.Window
import ZlibNg.Deflate.Stored
import ZlibNg.Deflate.WindowSpec
import ZlibNg.Deflate.StoredSpec
import ZlibNg.Deflate.Dictionary
import ZlibNg.Trees.Optimal
import ZlibNg.Trees.Build
import ZlibNg.Trees.Radix
import ZlibNg.Trees.Merge
import ZlibNg.Trees.Bitlen
import ZlibNg.Trees.Huffman
import ZlibNg.Deflate.WindowRoom
import ZlibNg.Bits.Pieces
import ZlibNg.Bits.FirstDiff
import ZlibNg.Deflate.LongestMatch
import ZlibNg.Deflate.MatchSpec
import ZlibNg.Deflate.ChainBudget
import ZlibNg.Trees.Emit
import ZlibNg.Trees.EmitSpec
import ZlibNg.Trees.Codes
import ZlibNg.Trees.CodesSpec
import ZlibNg.Trees.Cost
import ZlibNg.Trees.Counters
import ZlibNg.Trees.RunLength
import ZlibNg.Trees.Block
import ZlibNg.Trees.BlockSpec
import ZlibNg.Trees.Counts
import ZlibNg.Trees.HeaderSpec
import ZlibNg.Deflate.StoredCalls
import ZlibNg.Checksum.AdlerCombine
import ZlibNg.Checksum.CrcCombine
import ZlibNg.Deflate.SlideRun
import ZlibNg.GzFile.Seek
import ZlibNg.Deflate.StepInsert
import ZlibNg.Deflate.Medium
import ZlibNg.Deflate.Fizzle
import ZlibNg.Deflate.MediumRun
import ZlibNg.GzFile.UngetRun
import ZlibNg.Inflate.Sync
import ZlibNg.Inflate.Accumulator
import ZlibNg.Trees.Segment
import ZlibNg.Trees.Queues
import ZlibNg.Trees.SymBytes
import ZlibNg.Trees.LiteralRun
import ZlibNg.Trees.FixedCodes
import ZlibNg.Trees.BlockRead
import ZlibNg.Inflate.Machine
import ZlibNg.Inflate.Simulation
import ZlibNg.Trees.BlockCall
import ZlibNg.Inflate.Schedule
import ZlibNg.Trees.BlockSeq
import ZlibNg.Deflate.StoredRead
import ZlibNg.Deflate.TallyCalls
