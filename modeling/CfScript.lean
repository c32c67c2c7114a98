import CfScript.Ast.Attribute
import CfScript.Ast.Basic
import CfScript.Ast.Element
import CfScript.Ast.Equality
import CfScript.Ast.Operator
import CfScript.Ast.Property
import CfScript.Build.Error
import CfScript.Build.Expression
import CfScript.Build.Reading
import CfScript.Build.Root
import CfScript.Build.Script
import CfScript.Build.Statement
import CfScript.Build.Validation
import CfScript.Command.Arguments
import CfScript.Command.Run
import CfScript.Diagnostic.Basic
import CfScript.Diagnostic.Code
import CfScript.Diagnostic.Json
import CfScript.Diagnostic.Log
import CfScript.Diagnostic.Report
import CfScript.Files.Access
import CfScript.Files.Path
import CfScript.Files.Snapshot
import CfScript.Fixture.Basic
import CfScript.Fixture.Check
import CfScript.Fixture.Run
import CfScript.Grammar.Delimiters
import CfScript.Grammar.Fault
import CfScript.Grammar.Production
import CfScript.Grammar.Rules
import CfScript.Layout.Format
import CfScript.Layout.Printer
import CfScript.Layout.Steps
import CfScript.Layout.Strength
import CfScript.Layout.Style
import CfScript.Layout.Text
import CfScript.Main
import CfScript.Parser.Basic
import CfScript.Parser.Engine
import CfScript.Parser.Retry
import CfScript.Parser.Runs
import CfScript.Proofs.Account
import CfScript.Proofs.AccountedBuild
import CfScript.Proofs.Actions
import CfScript.Proofs.Additions
import CfScript.Proofs.Agreement
import CfScript.Proofs.Blame
import CfScript.Proofs.BracePairs
import CfScript.Proofs.Built
import CfScript.Proofs.BuiltExpressions
import CfScript.Proofs.BuiltLists
import CfScript.Proofs.BuiltStatements
import CfScript.Proofs.Careful
import CfScript.Proofs.CleanRuns
import CfScript.Proofs.Conduct
import CfScript.Proofs.Contents
import CfScript.Proofs.Contract
import CfScript.Proofs.Coverage
import CfScript.Proofs.DottedHead
import CfScript.Proofs.Drawn
import CfScript.Proofs.FastLookahead
import CfScript.Proofs.Findings
import CfScript.Proofs.FixtureRuns
import CfScript.Proofs.FixtureText
import CfScript.Proofs.Form
import CfScript.Proofs.GrammarContract
import CfScript.Proofs.GrammarMarks
import CfScript.Proofs.GrammarSeam
import CfScript.Proofs.GrammarYield
import CfScript.Proofs.JoinedScripts
import CfScript.Proofs.JoinedTokens
import CfScript.Proofs.Kept
import CfScript.Proofs.LetterCase
import CfScript.Proofs.Lexemes
import CfScript.Proofs.LikeBuilds
import CfScript.Proofs.LikeOutcomes
import CfScript.Proofs.LikePrograms
import CfScript.Proofs.LikeRuns
import CfScript.Proofs.LikeSources
import CfScript.Proofs.LikeStatements
import CfScript.Proofs.Likeness
import CfScript.Proofs.Machine
import CfScript.Proofs.MadeMaps
import CfScript.Proofs.Marks
import CfScript.Proofs.Misreading
import CfScript.Proofs.Moved
import CfScript.Proofs.NestedBuild
import CfScript.Proofs.Nesting
import CfScript.Proofs.Nodes
import CfScript.Proofs.Outcome
import CfScript.Proofs.Outline
import CfScript.Proofs.Parens
import CfScript.Proofs.Passage
import CfScript.Proofs.Places
import CfScript.Proofs.PlainText
import CfScript.Proofs.QuietBuild
import CfScript.Proofs.QuotedStrings
import CfScript.Proofs.Reads
import CfScript.Proofs.ReadsForms
import CfScript.Proofs.Recovery
import CfScript.Proofs.Reformat
import CfScript.Proofs.Respaced
import CfScript.Proofs.Restarts
import CfScript.Proofs.Restated
import CfScript.Proofs.Roundtrip
import CfScript.Proofs.Sameness
import CfScript.Proofs.Seam
import CfScript.Proofs.Seats
import CfScript.Proofs.SourceAccount
import CfScript.Proofs.SourceBuild
import CfScript.Proofs.SourceStream
import CfScript.Proofs.Steady
import CfScript.Proofs.Strengths
import CfScript.Proofs.Tiling
import CfScript.Proofs.Totality
import CfScript.Proofs.TreeSpans
import CfScript.Proofs.Validated
import CfScript.Proofs.WholeTree
import CfScript.Proofs.Yield
import CfScript.Source.LineIndex
import CfScript.Source.Span
import CfScript.Text.Blank
import CfScript.Text.Bytes
import CfScript.Text.Fold
import CfScript.Text.JsonText
import CfScript.Text.Lines
import CfScript.Text.Quoted
import CfScript.Text.Search
import CfScript.Token.Basic
import CfScript.Token.Kind
import CfScript.Token.Lexer
import CfScript.Token.Scan
import CfScript.Token.Stream
import CfScript.Tree.Basic
import CfScript.Tree.Rule
import CfScript.Proofs.Attempts
import CfScript.Proofs.ControlText
import CfScript.Proofs.ReadsStatements
import CfScript.Proofs.Unwrapped
import CfScript.Proofs.RestatedStatements
import CfScript.Proofs.ElseOwners
import CfScript.Proofs.Dictionary
import CfScript.Proofs.OrderedAttributes
import CfScript.Proofs.PropertyEdits
import CfScript.Proofs.PrintedLines
import CfScript.Proofs.NestedSpans
import CfScript.Proofs.Groups
import CfScript.Proofs.SkippedStatements
import CfScript.Proofs.LineNumbers
