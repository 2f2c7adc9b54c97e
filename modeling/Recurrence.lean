import Recurrence.Main
import Recurrence.Proofs.Calendar.DayNumbers
import Recurrence.Proofs.Duration
import Recurrence.Proofs.Expansion.Generators
import Recurrence.Proofs.Expansion.LastYear
import Recurrence.Proofs.Expansion.Occurrences
import Recurrence.Proofs.Expansion.OwnField
import Recurrence.Proofs.Expansion.Periods
import Recurrence.Proofs.Expansion.Thresholds
import Recurrence.Proofs.Expansion.WeekYears
import Recurrence.Proofs.Legacy.Modern
import Recurrence.Proofs.Legacy.Rules
import Recurrence.Proofs.Moment.Encoding
import Recurrence.Proofs.Period
import Recurrence.Proofs.Rule.Reading
import Recurrence.Proofs.Rule.Texts
import Recurrence.Proofs.Set.DateTexts
import Recurrence.Proofs.Set.Members
import Recurrence.Proofs.Set.Printed
import Recurrence.Proofs.Source.Conversion
import Recurrence.Proofs.Source.Ends
import Recurrence.Proofs.Source.Loops
import Recurrence.Proofs.Source.PassedYears
import Recurrence.Proofs.Source.Rising
import Recurrence.Proofs.Source.Rule
import Recurrence.Proofs.Source.Tree
import Recurrence.Proofs.Source.UtcBound
import Recurrence.Proofs.Source.WallClock
import Recurrence.Proofs.Text.Rewriting
import Recurrence.Proofs.Zone.Inverse
