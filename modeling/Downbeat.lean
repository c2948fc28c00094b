import Downbeat.Document.Settings
import Downbeat.Document.Entry
import Downbeat.Main
import Downbeat.Rehearsal.Desk
import Downbeat.Rehearsal.Folder
import Downbeat.Proofs.Beat.Order
import Downbeat.Proofs.Beat.Nearest
import Downbeat.Proofs.Beat.Addition
import Downbeat.Proofs.Beat.Horizon
import Downbeat.Proofs.Beat.Exact
import Downbeat.Proofs.Beat.Whole
import Downbeat.Proofs.Beat.Quotient
import Downbeat.Proofs.Script.Join
import Downbeat.Proofs.Script.Lookahead
import Downbeat.Proofs.Script.Expansion
import Downbeat.Proofs.Script.Commitment
import Downbeat.Proofs.Script.Conservation
import Downbeat.Proofs.Script.Course
import Downbeat.Proofs.Script.Steady
import Downbeat.Proofs.Script.Nesting
import Downbeat.Proofs.Script.Walk
import Downbeat.Proofs.Timeline.Settling
import Downbeat.Proofs.Timeline.Patience
import Downbeat.Proofs.Timeline.Granularity
import Downbeat.Proofs.Timeline.Lifecycle
import Downbeat.Proofs.Timeline.Separation
import Downbeat.Proofs.Timeline.Bound
import Downbeat.Proofs.Timeline.Punctual
import Downbeat.Proofs.Timeline.Account
import Downbeat.Proofs.Timeline.Descent
import Downbeat.Proofs.Playback.Ending
import Downbeat.Proofs.Encounter.Score
import Downbeat.Proofs.Encounter.Finale
import Downbeat.Proofs.Decimal.Shortest
import Downbeat.Proofs.Decimal.Size
import Downbeat.Proofs.Json.Layout
import Downbeat.Proofs.Json.Members
import Downbeat.Proofs.Json.Numeral
import Downbeat.Proofs.Json.Double
import Downbeat.Proofs.Json.Faithful
import Downbeat.Proofs.Document.Reload
import Downbeat.Proofs.Document.CueLog
import Downbeat.Proofs.Script.Pause
import Downbeat.Proofs.Script.Tidy
import Downbeat.Proofs.Timeline.Round
import Downbeat.Proofs.Timeline.Failure
import Downbeat.Proofs.Timeline.Succession
import Downbeat.Proofs.Beat.Halfway
import Downbeat.Proofs.Timeline.Arrival
import Downbeat.Proofs.Beat.Upward
import Downbeat.Proofs.Beat.Slip
import Downbeat.Proofs.Script.Relocation
import Downbeat.Proofs.Timeline.Quiescence
import Downbeat.Proofs.Script.Position
import Downbeat.Proofs.Script.Resting
import Downbeat.Proofs.Script.Immediate
import Downbeat.Proofs.Timeline.Procession
import Downbeat.Proofs.Script.Authoring
import Downbeat.Proofs.Beat.Grid
import Downbeat.Proofs.Encounter.Pace
import Downbeat.Proofs.Script.Onward
import Downbeat.Proofs.Timeline.Ledger
import Downbeat.Proofs.Encounter.Count
import Downbeat.Proofs.Document.Overlay
import Downbeat.Proofs.Json.Alone
import Downbeat.Proofs.Json.WellFormed
import Downbeat.Proofs.Json.Object
import Downbeat.Proofs.Beat.WholePart
import Downbeat.Proofs.Chance.Shares
import Downbeat.Proofs.Encounter.Quarters
