import RToJulia.Cases
import RToJulia.Command.Run
import RToJulia.Main
import RToJulia.Translate
import RToJulia.Tree.Traversal
import RToJulia.Web.Server
import RToJulia.Proofs.Files.Batch
import RToJulia.Proofs.Grammar.Freedom
import RToJulia.Proofs.Grammar.Locality
import RToJulia.Proofs.Grammar.Unambiguous
import RToJulia.Proofs.Julia.Packages
import RToJulia.Proofs.Options.Override
import RToJulia.Proofs.Token.LineNumbers
import RToJulia.Proofs.Token.NumeralRules
import RToJulia.Proofs.Token.Respacing
import RToJulia.Proofs.Translate.Backticks
import RToJulia.Proofs.Translate.BlankLines
import RToJulia.Proofs.Translate.Declarations
import RToJulia.Proofs.Translate.Indentation
import RToJulia.Proofs.Translate.Lines
import RToJulia.Proofs.Translate.Quotes
import RToJulia.Proofs.Translate.Rebinding
import RToJulia.Proofs.Translate.RoundTrip
import RToJulia.Proofs.Translate.Shown
import RToJulia.Proofs.Translate.Strings
import RToJulia.Proofs.Translate.Totality
import RToJulia.Proofs.Tree.Traversal
