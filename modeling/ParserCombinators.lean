import ParserCombinators.Description.Form
import ParserCombinators.Description.Meaning
import ParserCombinators.Grammars.Json
import ParserCombinators.Parser.Fuel
import ParserCombinators.Proofs.Columns
import ParserCombinators.Proofs.Documents
import ParserCombinators.Proofs.Episodes
import ParserCombinators.Proofs.Erasure
import ParserCombinators.Proofs.Evaluation
import ParserCombinators.Proofs.Independence
import ParserCombinators.Proofs.Keywords
import ParserCombinators.Proofs.Literals
import ParserCombinators.Proofs.Numerals
import ParserCombinators.Proofs.Overflows
import ParserCombinators.Proofs.ParsingExpressions
import ParserCombinators.Proofs.Places
import ParserCombinators.Proofs.Relocation
import ParserCombinators.Proofs.Repetition
import ParserCombinators.Proofs.Safety
import ParserCombinators.Proofs.Scoping
import ParserCombinators.Proofs.Termination
import ParserCombinators.Proofs.Yields
import ParserCombinators.Script.Cursors
import ParserCombinators.Script.Outcomes
import ParserCombinators.Script.Session
import ParserCombinators.Proofs.LongestRuns
import ParserCombinators.Proofs.Sequences
import ParserCombinators.Proofs.SeparatedLists
import ParserCombinators.Proofs.TimeFormats
import ParserCombinators.Proofs.TimeArrays
