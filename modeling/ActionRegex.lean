import ActionRegex.Ascending
import ActionRegex.ByteSet
import ActionRegex.CommandLine.Argument
import ActionRegex.CommandLine.Command
import ActionRegex.CommandLine.Request
import ActionRegex.Compiler
import ActionRegex.Config
import ActionRegex.DepthFirst
import ActionRegex.Dfa.Basic
import ActionRegex.Dfa.Construction
import ActionRegex.Dfa.Numbering
import ActionRegex.Dfa.Stepper
import ActionRegex.Dfa.Table
import ActionRegex.Dfa.TransitionSet
import ActionRegex.FileSystem.Basic
import ActionRegex.FileSystem.Path
import ActionRegex.FileSystem.Tree
import ActionRegex.Lexer.Program
import ActionRegex.Lexer.Source
import ActionRegex.Macros
import ActionRegex.Main
import ActionRegex.Nfa.Basic
import ActionRegex.Nfa.OfTree
import ActionRegex.Note
import ActionRegex.Pattern.Error
import ActionRegex.Pattern.Expansion
import ActionRegex.Pattern.Item
import ActionRegex.Pattern.Lexing
import ActionRegex.Pattern.Lexing.Block
import ActionRegex.Pattern.Lexing.Bounds
import ActionRegex.Pattern.Lexing.Class
import ActionRegex.Pattern.Lexing.Escape
import ActionRegex.Pattern.Lexing.Quoted
import ActionRegex.Pattern.Parser
import ActionRegex.Pattern.Polish
import ActionRegex.Pattern.Postfix
import ActionRegex.Pattern.Repetition
import ActionRegex.Pattern.Token
import ActionRegex.Pattern.Tree
import ActionRegex.Proofs.Arrays
import ActionRegex.Proofs.Ascending
import ActionRegex.Proofs.ByteSet
import ActionRegex.Proofs.Compiler.ActionIndexes
import ActionRegex.Proofs.Compiler.Rules
import ActionRegex.Proofs.DepthFirst
import ActionRegex.Proofs.Dfa.Actions
import ActionRegex.Proofs.Dfa.Canonical
import ActionRegex.Proofs.Dfa.Compaction
import ActionRegex.Proofs.Dfa.Construction
import ActionRegex.Proofs.Dfa.Language
import ActionRegex.Proofs.Dfa.Numbering
import ActionRegex.Proofs.Dfa.Reachability
import ActionRegex.Proofs.Dfa.Stepping
import ActionRegex.Proofs.Dfa.Tables
import ActionRegex.Proofs.Dfa.TransitionSets
import ActionRegex.Proofs.Dfa.Walks
import ActionRegex.Proofs.Lexer.Reader
import ActionRegex.Proofs.Lexer.Reading.Conditions
import ActionRegex.Proofs.Lexer.Reading.Files
import ActionRegex.Proofs.Lexer.Simulation
import ActionRegex.Proofs.Lexer.Switch
import ActionRegex.Proofs.Nfa.Finishing
import ActionRegex.Proofs.Nfa.Moves
import ActionRegex.Proofs.Nfa.OfTree
import ActionRegex.Proofs.Nfa.Runs
import ActionRegex.Proofs.Nfa.Shape
import ActionRegex.Proofs.Nfa.Steps
import ActionRegex.Proofs.Nfa.Tables
import ActionRegex.Proofs.Pattern.Acceptance
import ActionRegex.Proofs.Pattern.Blocks
import ActionRegex.Proofs.Pattern.Checked.Escapes
import ActionRegex.Proofs.Pattern.Checked.Items
import ActionRegex.Proofs.Pattern.Checked.Parsing
import ActionRegex.Proofs.Pattern.Checked.Tokens
import ActionRegex.Proofs.Pattern.Classes
import ActionRegex.Proofs.Pattern.Contexts
import ActionRegex.Proofs.Pattern.FaultSpans
import ActionRegex.Proofs.Pattern.Faults
import ActionRegex.Proofs.Pattern.Fragments
import ActionRegex.Proofs.Pattern.Grammar
import ActionRegex.Proofs.Pattern.Images
import ActionRegex.Proofs.Pattern.Levels
import ActionRegex.Proofs.Pattern.Lexing
import ActionRegex.Proofs.Pattern.Parsing
import ActionRegex.Proofs.Pattern.Postfix
import ActionRegex.Proofs.Pattern.Recursion
import ActionRegex.Proofs.Pattern.References
import ActionRegex.Proofs.Pattern.Registered
import ActionRegex.Proofs.Pattern.Renumbering
import ActionRegex.Proofs.Pattern.Repeated
import ActionRegex.Proofs.Pattern.RepeatedFaults
import ActionRegex.Proofs.Pattern.RepetitionSizes
import ActionRegex.Proofs.Pattern.RepetitionTexts
import ActionRegex.Proofs.Pattern.Repetitions
import ActionRegex.Proofs.Pattern.Scanning
import ActionRegex.Proofs.Pattern.Sentences
import ActionRegex.Proofs.Pattern.Spacing
import ActionRegex.Proofs.Pattern.SpelledOut
import ActionRegex.Proofs.Pattern.Streams
import ActionRegex.Proofs.Pattern.TokenFaults
import ActionRegex.Proofs.Pattern.TokenProperties
import ActionRegex.Proofs.Pattern.Within.Alternation
import ActionRegex.Proofs.Pattern.Within.Cutting
import ActionRegex.Proofs.Pattern.Within.Expansion
import ActionRegex.Proofs.Pattern.Within.Groups
import ActionRegex.Proofs.Pattern.Within.Lexing
import ActionRegex.Proofs.Pattern.Within.Postfix
import ActionRegex.Proofs.Pattern.Within.Rules
import ActionRegex.Proofs.Pattern.Within.Streams
import ActionRegex.Proofs.RuleFile.BraceScan
import ActionRegex.Proofs.RuleFile.Layout
import ActionRegex.Proofs.RuleFile.Reading
import ActionRegex.Proofs.SymbolDfa.Folding.Invariant
import ActionRegex.Proofs.SymbolDfa.Folding.Live
import ActionRegex.Proofs.SymbolDfa.Folding.Loops
import ActionRegex.Proofs.SymbolDfa.Folding.Moments
import ActionRegex.Proofs.SymbolDfa.Folding.Steps
import ActionRegex.Proofs.SymbolDfa.Folding.Unions
import ActionRegex.Proofs.SymbolDfa.Paths
import ActionRegex.Proofs.SymbolDfa.Powerset
import ActionRegex.Proofs.SymbolDfa.Subset
import ActionRegex.Proofs.SymbolDfa.Worklist
import ActionRegex.Proofs.Text.Boundaries
import ActionRegex.Proofs.Text.Lines
import ActionRegex.Proofs.Words
import ActionRegex.Registry
import ActionRegex.Report.Canvas
import ActionRegex.Report.Excerpt
import ActionRegex.Report.Layout
import ActionRegex.Report.Marking
import ActionRegex.Report.Style
import ActionRegex.Report.Window
import ActionRegex.RuleFile.Basic
import ActionRegex.RuleFile.BraceScan
import ActionRegex.RuleFile.Reader
import ActionRegex.Span
import ActionRegex.Symbol
import ActionRegex.SymbolDfa.Basic
import ActionRegex.SymbolDfa.Folding
import ActionRegex.SymbolDfa.Subset
import ActionRegex.Text.Ascii
import ActionRegex.Text.Blank
import ActionRegex.Text.Bytes
import ActionRegex.Toml.Literal
import ActionRegex.Toml.Statement
import ActionRegex.Toml.Token
import ActionRegex.Toml.Value
