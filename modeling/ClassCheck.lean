import ClassCheck.Checker.Event
import ClassCheck.Checker.Expr
import ClassCheck.Checker.Program
import ClassCheck.Checker.Stmt
import ClassCheck.Classes.Entry
import ClassCheck.Classes.Hierarchy
import ClassCheck.Classes.Table
import ClassCheck.CommandLine
import ClassCheck.Failure
import ClassCheck.Journal
import ClassCheck.Main
import ClassCheck.Number.Binary64
import ClassCheck.Number.Digits
import ClassCheck.Number.Shortest
import ClassCheck.Parser.Basic
import ClassCheck.Parser.Expr
import ClassCheck.Parser.Literal
import ClassCheck.Parser.Program
import ClassCheck.Parser.Stmt
import ClassCheck.Parser.Type
import ClassCheck.Scope
import ClassCheck.Span
import ClassCheck.Syntax.Constant
import ClassCheck.Syntax.Expr
import ClassCheck.Syntax.Outline
import ClassCheck.Syntax.Program
import ClassCheck.Syntax.Stmt
import ClassCheck.Syntax.Type
import ClassCheck.Text.Hidden
import ClassCheck.Text.Outline
import ClassCheck.Text.Position
import ClassCheck.Text.Quoted
import ClassCheck.Token.Basic
import ClassCheck.Token.Lexeme
import ClassCheck.Token.Scanner
import ClassCheck.Types.Basic
import ClassCheck.Types.Rules
import ClassCheck.Verdict
import ClassCheck.Violation
import ClassCheck.Proofs.EarlyStop
import ClassCheck.Proofs.Hierarchy
import ClassCheck.Proofs.TypeRules
import ClassCheck.Proofs.Typing
import ClassCheck.Proofs.TypeSources
import ClassCheck.Proofs.NamedClasses
import ClassCheck.Proofs.ExprTyping
import ClassCheck.Proofs.Statics
import ClassCheck.Proofs.StmtStatics
import ClassCheck.Proofs.Annotations
import ClassCheck.Proofs.ProgramStatics
import ClassCheck.Proofs.ParsedPrograms
import ClassCheck.Proofs.TableFaults
import ClassCheck.Proofs.Blame
import ClassCheck.Proofs.Poisoning
import ClassCheck.Proofs.Independence
import ClassCheck.Proofs.NewClass
import ClassCheck.Proofs.Occurrences
import ClassCheck.Proofs.Breaches
import ClassCheck.Proofs.ConstantWrites
import ClassCheck.Proofs.LoopDepth
import ClassCheck.Proofs.ScopeEffects
import ClassCheck.Proofs.Ancestry
import ClassCheck.Proofs.LayoutParsing
import ClassCheck.Proofs.LayoutChecking
import ClassCheck.Proofs.Layout
import ClassCheck.Proofs.Parsing
import ClassCheck.Proofs.Lexemes
import ClassCheck.Proofs.Rounding
import ClassCheck.Proofs.DecimalTexts
import ClassCheck.Proofs.Rendering
import ClassCheck.Proofs.ReadBack
import ClassCheck.Proofs.Slices
import ClassCheck.Proofs.Lossless
import ClassCheck.Proofs.Lookahead
import ClassCheck.Proofs.Nodes
import ClassCheck.Proofs.Placement
import ClassCheck.Proofs.Excerpts
import ClassCheck.Proofs.Diagnostics
import ClassCheck.Proofs.OneLine
import ClassCheck.Proofs.Compatibility
import ClassCheck.Proofs.Places
import ClassCheck.Proofs.Redeclaration
import ClassCheck.Proofs.Wording
import ClassCheck.Proofs.Parentheses
import ClassCheck.Proofs.Constants
import ClassCheck.Proofs.ScopeStack
import ClassCheck.Proofs.ScopeTrace
import ClassCheck.Proofs.References
import ClassCheck.Proofs.Patterns
import ClassCheck.Proofs.MatchLengths
import ClassCheck.Proofs.LongestMatch
import ClassCheck.Proofs.Respacing
import ClassCheck.Proofs.StringLiterals
import ClassCheck.Proofs.ExactSpans
import ClassCheck.Proofs.UpToEof
import ClassCheck.Proofs.BlockComments
import ClassCheck.Proofs.TypeTexts
