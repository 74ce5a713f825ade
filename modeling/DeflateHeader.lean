import DeflateHeader.Main
import DeflateHeader.Proofs.AlphabetAnswers
import DeflateHeader.Proofs.BitReading
import DeflateHeader.Proofs.BitStrings
import DeflateHeader.Proofs.BitWriting
import DeflateHeader.Proofs.BitwiseParser
import DeflateHeader.Proofs.CanonicalCode
import DeflateHeader.Proofs.CheckedArithmetic
import DeflateHeader.Proofs.CheckedBits
import DeflateHeader.Proofs.CheckedCodes
import DeflateHeader.Proofs.CheckedHeaders
import DeflateHeader.Proofs.CheckedTokens
import DeflateHeader.Proofs.CodeSpace
import DeflateHeader.Proofs.CodecBuilds
import DeflateHeader.Proofs.CodecPairs
import DeflateHeader.Proofs.CoherentCodecs
import DeflateHeader.Proofs.CommandRuns
import DeflateHeader.Proofs.FileTrees
import DeflateHeader.Proofs.Header
import DeflateHeader.Proofs.HeaderFailures
import DeflateHeader.Proofs.HeaderPairs
import DeflateHeader.Proofs.HeaderReading
import DeflateHeader.Proofs.HeaderWriting
import DeflateHeader.Proofs.HistoryIndependence
import DeflateHeader.Proofs.Lockstep
import DeflateHeader.Proofs.Lookup
import DeflateHeader.Proofs.MoreInput
import DeflateHeader.Proofs.Outcomes
import DeflateHeader.Proofs.PackedLengths
import DeflateHeader.Proofs.PuffGrammar
import DeflateHeader.Proofs.ReachableCodecs
import DeflateHeader.Proofs.RoundTrip
import DeflateHeader.Proofs.SizeLimits
import DeflateHeader.Proofs.StreamPairs
import DeflateHeader.Proofs.Streams
import DeflateHeader.Proofs.SymbolCodes
import DeflateHeader.Proofs.SymbolInverse
import DeflateHeader.Proofs.TokenLengths
import DeflateHeader.Proofs.TokenReading
import DeflateHeader.Proofs.TokenRuns
import DeflateHeader.Proofs.TokenWriting
import DeflateHeader.Proofs.AcceptedLengths
import DeflateHeader.Proofs.PrefixCode
import DeflateHeader.Proofs.SlotStorage
import DeflateHeader.Proofs.ExactTables
import DeflateHeader.Proofs.FilledSlots
import DeflateHeader.Proofs.TokenInverse
import DeflateHeader.Proofs.TokenFailures
import DeflateHeader.Proofs.TokenPasses
import DeflateHeader.Proofs.ReaderPosition
import DeflateHeader.Proofs.SelfDelimiting
import DeflateHeader.Proofs.OutputSizes
import DeflateHeader.Proofs.FittingFields
import DeflateHeader.Proofs.BoundedWriting
import DeflateHeader.Proofs.WriterRecord
import DeflateHeader.Proofs.ContainerHeaders
import DeflateHeader.Proofs.FailedBuilds
import DeflateHeader.Proofs.ReportingFlags
import DeflateHeader.Proofs.SlotClaims
