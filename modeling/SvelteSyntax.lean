import SvelteSyntax.Lint.Directory
import SvelteSyntax.Parse.Json
import SvelteSyntax.Proofs.Component.Injected
import SvelteSyntax.Proofs.Lint.Relay
import SvelteSyntax.Proofs.Markup.Closed
import SvelteSyntax.Proofs.Markup.Noted.Template
import SvelteSyntax.Proofs.Markup.Print.RoundTrip
import SvelteSyntax.Proofs.Program.Decoration
import SvelteSyntax.Proofs.Program.Patterns
import SvelteSyntax.Proofs.Scoping.Agreement
import SvelteSyntax.Proofs.Scoping.Placement
import SvelteSyntax.Proofs.Scoping.Reactive
import SvelteSyntax.Proofs.Scoping.Reapply
import SvelteSyntax.Proofs.Scoping.Used
import SvelteSyntax.Proofs.Script.Relocation
import SvelteSyntax.Proofs.Script.Spacing
import SvelteSyntax.Proofs.Text.Lines
