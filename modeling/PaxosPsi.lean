import PaxosPsi.CheckCompleteness
import PaxosPsi.CheckSoundness
import PaxosPsi.CodeFiles
import PaxosPsi.ConstructorSizes
import PaxosPsi.CorrectionPrivacy
import PaxosPsi.DictionaryPasses
import PaxosPsi.DistinctBlocks
import PaxosPsi.EncodingRuns
import PaxosPsi.FalseMatches
import PaxosPsi.HasherStream
import PaxosPsi.InFlightRuns
import PaxosPsi.InitGuards
import PaxosPsi.KeyStreams
import PaxosPsi.MaliciousGate
import PaxosPsi.Masking
import PaxosPsi.Matching
import PaxosPsi.MatrixTranspose
import PaxosPsi.SelfChecks
import PaxosPsi.Transpose
import PaxosPsi.UncountedCorrections
import PaxosPsi.WrongValues
