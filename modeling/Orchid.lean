import Orchid.Loader.Chains
import Orchid.Loader.LineEnds
import Orchid.Loader.LoadSig
import Orchid.Loader.RoundTrip
import Orchid.Loader.Runs
import Orchid.Loader.TableWalk
import Orchid.Searcher.IdWord
import Orchid.Searcher.Record
import Orchid.Searcher.HeaderContext
import Orchid.Searcher.HeaderLine
import Orchid.Searcher.Genuine
import Orchid.Searcher.PatternCheck
import Orchid.Searcher.DfaSearch
import Orchid.PacketBounds
import Orchid.PacketProcess
import Orchid.PatternBuffer
import Orchid.Classification
import Orchid.RegexParse.Correct
import Orchid.RegexParse.Minimise
