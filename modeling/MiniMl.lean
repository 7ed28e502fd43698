import MiniMl.CommandLine.Directory
import MiniMl.Main
import MiniMl.Proofs.Parser.Extension
import MiniMl.Proofs.Parser.Layout
import MiniMl.Proofs.Parser.LetStatements
import MiniMl.Proofs.Parser.Precedence
import MiniMl.Proofs.Scope.Balance
import MiniMl.Proofs.Scope.Namespaces
import MiniMl.Proofs.Token.Continuations
import MiniMl.Proofs.Token.Locations
import MiniMl.Proofs.Token.PlainCursor
import MiniMl.Proofs.Typing.Operators
import MiniMl.Proofs.Token.Displacement
import MiniMl.Proofs.Token.Runs
import MiniMl.Proofs.Token.Progress
import MiniMl.Proofs.Source.Reader
import MiniMl.Proofs.Token.Faults
import MiniMl.Proofs.Token.Lines
import MiniMl.Proofs.Token.WrittenOut
import MiniMl.Proofs.Parser.Calls
import MiniMl.Proofs.Parser.Carets
import MiniMl.Proofs.Parser.Termination
import MiniMl.Proofs.Token.Comments
import MiniMl.Proofs.Parser.Strings
import MiniMl.Proofs.Parser.Integers
import MiniMl.Proofs.Parser.Readable
import MiniMl.Proofs.Token.Loops
import MiniMl.Proofs.Token.Scanner
