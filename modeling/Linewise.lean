import Linewise.Main
import Linewise.Proofs.Program.Invalid
import Linewise.Proofs.Program.Interpreted
import Linewise.Proofs.Listing.Executed
import Linewise.Proofs.Program.Built
import Linewise.Proofs.Listing.Grammar
import Linewise.Proofs.Listing.Lines
import Linewise.Proofs.Listing.Reading
import Linewise.Proofs.Listing.Acceptance
import Linewise.Proofs.Listing.RoundTrip
import Linewise.Proofs.Strategy.Agreement
import Linewise.Proofs.Strategy.Failure
import Linewise.Proofs.Decimal
import Linewise.Proofs.Strategy.Canonical
import Linewise.Proofs.Assembly.Reading
import Linewise.Proofs.Assembly.Lines
import Linewise.Proofs.Assembly.Lowering
import Linewise.Proofs.Assembly.Running
import Linewise.Proofs.Program.Accepted
import Linewise.Proofs.Program.DeadEmits
import Linewise.Proofs.Strategy.Series
import Linewise.Proofs.Files.Persist
import Linewise.Proofs.Source.Starts
import Linewise.Proofs.Tool.Agreement
import Linewise.Proofs.Program.Pulled
import Linewise.Proofs.Files.Spelling
import Linewise.Proofs.Files.Destination
import Linewise.Proofs.Files.Atomic
import Linewise.Proofs.Files.Joined
import Linewise.Proofs.Settings.ProjectRoot
import Linewise.Proofs.Settings.NoConfig
import Linewise.Proofs.Source.Statements
import Linewise.Proofs.Source.Located
import Linewise.Proofs.Listing.Faults
import Linewise.Proofs.Source.Breaks
import Linewise.Proofs.Tool.Listings
import Linewise.Proofs.Listing.Printed
import Linewise.Proofs.Tool.FaultLines
import Linewise.Proofs.Listing.Comments
import Linewise.Proofs.Tool.Comments
import Linewise.Proofs.Strategy.Conclusions
import Linewise.Proofs.Tool.Presentation
import Linewise.Proofs.Assembly.Header
import Linewise.Proofs.Assembly.Portions
import Linewise.Proofs.Assembly.Closed
import Linewise.Proofs.Program.Accounts
import Linewise.Proofs.Source.Partition
import Linewise.Proofs.Source.Surroundings
import Linewise.Proofs.Settings.Assignments
import Linewise.Proofs.Settings.Layering
import Linewise.Proofs.Source.Agreement
import Linewise.Proofs.Source.Apart
import Linewise.Proofs.Source.Carets
import Linewise.Proofs.Display.Layout
import Linewise.Proofs.Tool.Contexts
import Linewise.Proofs.Listing.Reports
import Linewise.Proofs.Source.Columns
import Linewise.Proofs.Tool.ExitCodes
import Linewise.Proofs.Numerals
import Linewise.Proofs.Trimmed
import Linewise.Proofs.Settings.Scalars
import Linewise.Proofs.Settings.Grammar
import Linewise.Proofs.Settings.Uncommented
import Linewise.Proofs.Settings.Integers
import Linewise.Proofs.Settings.Strings
import Linewise.Proofs.Settings.CutOff
import Linewise.Proofs.Settings.Relaid
import Linewise.Proofs.Settings.Normalized
import Linewise.Proofs.Files.Levels
import Linewise.Proofs.Files.Ordinary
import Linewise.Proofs.Settings.Nearest
import Linewise.Proofs.CommandLine.Interleaved
import Linewise.Proofs.CommandLine.Contexts
import Linewise.Proofs.CommandLine.Consistent
import Linewise.Proofs.Display.Messages
import Linewise.Proofs.Assembly.Unbuffered
import Linewise.Proofs.Dump.Tables
