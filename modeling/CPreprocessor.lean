import CPreprocessor.CommandLine.Directory
import CPreprocessor.Main
import CPreprocessor.Proofs.Condition.Arithmetic
import CPreprocessor.Proofs.Condition.CharacterConstant
import CPreprocessor.Proofs.Condition.IntegerConstant
import CPreprocessor.Proofs.Condition.Parsing
import CPreprocessor.Proofs.Condition.PrintedValue
import CPreprocessor.Proofs.Directive.BalancedText
import CPreprocessor.Proofs.Directive.Conditional
import CPreprocessor.Proofs.Directive.TableAtFailure
import CPreprocessor.Proofs.Lexer.Classification
import CPreprocessor.Proofs.Lexer.Position
import CPreprocessor.Proofs.Lexer.Tiling
import CPreprocessor.Proofs.Lexer.TolerantScan
import CPreprocessor.Proofs.Lexer.Unsplicing
import CPreprocessor.Proofs.Macro.ArgumentList
import CPreprocessor.Proofs.Macro.Composition
import CPreprocessor.Proofs.Macro.DefinedOperand
import CPreprocessor.Proofs.Macro.Depth
import CPreprocessor.Proofs.Macro.LineEnds
import CPreprocessor.Proofs.Macro.Placemarker
import CPreprocessor.Proofs.Macro.References
import CPreprocessor.Proofs.Macro.Spacing
import CPreprocessor.Proofs.Macro.StringOperand
import CPreprocessor.Proofs.Macro.WrittenOperands
import CPreprocessor.Proofs.Preprocessor.Composition
import CPreprocessor.Proofs.Preprocessor.KeptLine
import CPreprocessor.Proofs.Preprocessor.Location
import CPreprocessor.Proofs.Preprocessor.Predefinition
import CPreprocessor.Proofs.Preprocessor.ReachableTable
import CPreprocessor.Proofs.Preprocessor.SkippedText
import CPreprocessor.Proofs.Preprocessor.TextOutput
import CPreprocessor.Proofs.Printer.RoundTrip
import CPreprocessor.Proofs.Source.Cursor
import CPreprocessor.Proofs.TokenStream.Calls
