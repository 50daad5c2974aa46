import LinearRegex.Log
import LinearRegex.Proofs.Bracket.Widened
import LinearRegex.Proofs.CaseFold
import LinearRegex.Proofs.CharSet.Edits
import LinearRegex.Proofs.Engine.Discovery
import LinearRegex.Proofs.Engine.Reuse
import LinearRegex.Proofs.Pattern.AlikeTrails
import LinearRegex.Proofs.Pattern.Checked.Descent
import LinearRegex.Proofs.Pattern.Folded
import LinearRegex.Proofs.Pattern.Grouping
import LinearRegex.Proofs.Pattern.LeadingFlags
import LinearRegex.Proofs.Pattern.Numbering
import LinearRegex.Proofs.Pattern.Shape
import LinearRegex.Proofs.Prefilter.Transparent
import LinearRegex.Proofs.Program.Unrolling
import LinearRegex.Proofs.Regex.CaseInsensitive
import LinearRegex.Proofs.Regex.Flags
import LinearRegex.Proofs.Regex.GroupNames
import LinearRegex.Proofs.Regex.Quote
import LinearRegex.Proofs.Regex.Suffix
import LinearRegex.Proofs.Replace.Doubled
import LinearRegex.Proofs.Prefilter.Emptiness
import LinearRegex.Proofs.Pattern.Caseless
import LinearRegex.Proofs.Prefilter.FirstBytes
import LinearRegex.Proofs.Pattern.Walk
import LinearRegex.Proofs.Prefilter.Searches
