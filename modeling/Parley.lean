import Parley.Lexer
import Parley.Parser
import Parley.Fault
import Parley.Rehearsal
import Parley.Json.Printer
import Parley.Json.Reader
import Parley.Proofs.WellPlaced
import Parley.Proofs.NextContent
import Parley.Proofs.EarlyMenu
import Parley.Proofs.Retold
import Parley.Proofs.Numerals
import Parley.Proofs.StringPieces
import Parley.Proofs.Grammar
import Parley.Proofs.Passes
import Parley.Proofs.Emission
import Parley.Proofs.Vocabulary
import Parley.Proofs.Written
import Parley.Proofs.Relocation
import Parley.Proofs.Scanning
import Parley.Proofs.Printing
import Parley.Proofs.RoundTrip
import Parley.Proofs.Setting
import Parley.Proofs.Joining
import Parley.Proofs.Lockstep
import Parley.Proofs.Tracking
import Parley.Proofs.Concatenation
import Parley.Proofs.Upkeep
import Parley.Proofs.Chores
import Parley.Proofs.Queries
import Parley.Proofs.Tidiness
import Parley.Proofs.Midstep
import Parley.Proofs.TidySteps
import Parley.Proofs.TidyCalls
import Parley.Proofs.Ended
import Parley.Proofs.Notices
import Parley.Proofs.Closings
import Parley.Proofs.ClosingCalls
import Parley.Proofs.Finality
import Parley.Proofs.Discretion
import Parley.Proofs.Offers
import Parley.Proofs.AnnouncedMenus
import Parley.Proofs.BlockStructure
import Parley.Proofs.Laid
import Parley.Proofs.ParsedBlocks
import Parley.Proofs.Spelling
import Parley.Proofs.SpelledLines
import Parley.Proofs.SpelledBlocks
import Parley.Proofs.EscapedProse
import Parley.Proofs.ProseLines
import Parley.Proofs.Limits
import Parley.Proofs.Visits
import Parley.Proofs.Bracketing
import Parley.Proofs.Loading
import Parley.Proofs.OneShots
import Parley.Proofs.Deliveries
import Parley.Proofs.Elision
import Parley.Proofs.KeyedConditions
import Parley.Proofs.RawText
import Parley.Proofs.BusyFlags
import Parley.Proofs.Retries
import Parley.Proofs.LenientText
import Parley.Proofs.LayoutNoise
import Parley.Proofs.OneNamespace
import Parley.Proofs.Reindentation
import Parley.Proofs.Offsets
import Parley.Proofs.TokenPlaces
import Parley.Proofs.Ranks
import Parley.Proofs.Typing
import Parley.Proofs.Accesses
import Parley.Proofs.CheckedCalls
import Parley.Proofs.Updates
import Parley.Proofs.PlainNumbers
import Parley.Proofs.FiniteScans
import Parley.Proofs.Laps
import Parley.Proofs.Seniority
