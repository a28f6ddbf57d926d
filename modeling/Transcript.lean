import Transcript.Command
import Transcript.Arguments
import Transcript.Json.Settings
import Transcript.Main
import Transcript.Compile.Workspace
import Transcript.Proofs.Compile.Spacing
import Transcript.Proofs.Regex.Reading
import Transcript.Proofs.Regex.Search
import Transcript.Proofs.Regex.Language
import Transcript.Proofs.Compile.Groups
import Transcript.Proofs.Markup.Delimited
import Transcript.Proofs.Compile.Literal
import Transcript.Proofs.Markup.Tiling
import Transcript.Proofs.Match.Exact
import Transcript.Proofs.Compile.Layout
import Transcript.Proofs.Match.Echo
import Transcript.Proofs.Regex.Extend
import Transcript.Proofs.Match.Fits
import Transcript.Proofs.Match.Trailing
import Transcript.Proofs.Match.Orderly
import Transcript.Proofs.Match.Captures
import Transcript.Proofs.Match.Partial
import Transcript.Proofs.Markup.Ending
import Transcript.Proofs.Match.Relaxed
import Transcript.Proofs.Compile.Window
import Transcript.Proofs.Compile.Cues
import Transcript.Proofs.Text.Words
import Transcript.Proofs.Markup.Sections
import Transcript.Proofs.Compile.Respacing
import Transcript.Proofs.Compile.Widening
import Transcript.Proofs.Match.Words
import Transcript.Proofs.Markup.Naming
import Transcript.Proofs.Compile.Progress
import Transcript.Proofs.Compile.Refusal
import Transcript.Proofs.Match.Refill
import Transcript.Proofs.Match.Recognition
import Transcript.Proofs.Compile.Agreement
import Transcript.Proofs.Compile.Workspace
import Transcript.Proofs.Regex.Within
import Transcript.Proofs.Compile.Safety
import Transcript.Proofs.Compile.Session
import Transcript.Proofs.Markup.Placement
import Transcript.Proofs.Text.Lines
import Transcript.Proofs.Compile.Shortfall
import Transcript.Proofs.Match.Source
import Transcript.Proofs.Match.Decomposition
import Transcript.Proofs.Compile.History
import Transcript.Proofs.Match.Trimmed
import Transcript.Proofs.Markup.Cutting
import Transcript.Proofs.Compile.Rebuilding
import Transcript.Proofs.Match.Difference
import Transcript.Proofs.Compile.Offsets
import Transcript.Proofs.Regex.Leftmost
import Transcript.Proofs.Markup.Sources
import Transcript.Proofs.Markup.Finding
import Transcript.Proofs.Markup.Markers
import Transcript.Proofs.Match.OwnGroup
import Transcript.Proofs.Json.Reading
import Transcript.Proofs.Json.Written
import Transcript.Proofs.Json.Settings
import Transcript.Proofs.Command.Arguments
