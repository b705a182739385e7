import StyleFold.Session
import StyleFold.Pattern.Outcomes
import StyleFold.Main
import StyleFold.Proofs.Reader.Agreement
import StyleFold.Proofs.Shorthand.Sides
import StyleFold.Proofs.Pattern.Tame
import StyleFold.Proofs.Reader.CleanValue
import StyleFold.Proofs.Reader.Reread
import StyleFold.Proofs.Shorthand.Background
import StyleFold.Proofs.Shorthand.Font
import StyleFold.Proofs.Lexeme.Flat
import StyleFold.Proofs.Lexeme.Identifier
import StyleFold.Proofs.Reader.Grammar
import StyleFold.Proofs.Shorthand.Longhands
import StyleFold.Proofs.Pattern.Style
import StyleFold.Proofs.Shorthand.Background.Scan
import StyleFold.Proofs.Shorthand.Background.Parts
import StyleFold.Proofs.Shorthand.Background.Calls
import StyleFold.Proofs.Shorthand.Background.Views
import StyleFold.Proofs.Shorthand.Background.Segments
import StyleFold.Proofs.Shorthand.Background.Slots
import StyleFold.Proofs.Shorthand.Background.Collapsed
import StyleFold.Proofs.Pattern.Complete
import StyleFold.Proofs.Pattern.Widen
import StyleFold.Proofs.Shorthand.Font.Slots
import StyleFold.Proofs.Shorthand.Font.Replay
import StyleFold.Proofs.Shorthand.Font.Collapsed
import StyleFold.Proofs.Declaration.Policies
import StyleFold.Proofs.Shorthand.Lookup
import StyleFold.Proofs.Reader.Segments
import StyleFold.Proofs.Token.Escape
import StyleFold.Proofs.Token.Cut
import StyleFold.Proofs.Value.Atomic
import StyleFold.Proofs.Shorthand.Collapsible
import StyleFold.Proofs.Shorthand.Registry
import StyleFold.Proofs.Shorthand.Ownership
import StyleFold.Proofs.Declaration.Priority
import StyleFold.Proofs.Shorthand.Priority
import StyleFold.Proofs.Reader.Stable
import StyleFold.Proofs.Value.Kind
import StyleFold.Proofs.Shorthand.Border
import StyleFold.Proofs.Shorthand.Font.Clear
import StyleFold.Proofs.Shorthand.Font.Composed
import StyleFold.Proofs.Shorthand.Sides.Collapsed
import StyleFold.Proofs.Shorthand.Sides.Complete
import StyleFold.Proofs.Shorthand.Sides.Shortest
import StyleFold.Proofs.Value.Spread
import StyleFold.Proofs.Shorthand.Border.Reordered
import StyleFold.Proofs.Shorthand.Background.Arguments
import StyleFold.Proofs.Shorthand.Background.Pieces
import StyleFold.Proofs.Shorthand.Background.Keywords
import StyleFold.Proofs.Value.Gaps
import StyleFold.Proofs.Value.Outline
import StyleFold.Proofs.CommandLine
import StyleFold.Proofs.Session
