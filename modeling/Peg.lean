import Peg.Declaration.Compile
import Peg.Failure.Furthest
import Peg.Declaration.Queries
import Peg.Proofs.Matching.Queries
import Peg.Proofs.Matching.Combinators
import Peg.Proofs.Matching.Repetitions
import Peg.Proofs.Matching.Lossless
import Peg.Proofs.Matching.Depth
import Peg.Proofs.Lexing.Segmentation
import Peg.Proofs.Matching.Yields
import Peg.Proofs.Matching.Reading
import Peg.Proofs.Lexing.Lexemes
import Peg.Proofs.Pattern.Lexemes
import Peg.Proofs.Matching.Marks
import Peg.Proofs.Lexing.Parsing
import Peg.Proofs.Pattern.Printing
import Peg.Proofs.Pattern.Soundness
import Peg.Proofs.Matching.Lists
import Peg.Proofs.Declaration.WellFormed
import Peg.Proofs.Pattern.Completeness
import Peg.Proofs.Declaration.Lexemes
import Peg.Proofs.Declaration.Layout
import Peg.Proofs.Declaration.Completeness
import Peg.Proofs.Declaration.Meaning
import Peg.Proofs.Matching.Derivations
import Peg.Proofs.Matching.LeftRecursion
import Peg.Proofs.Matching.Agreement
import Peg.Proofs.Declaration.Termination
import Peg.Proofs.Matching.Failures
import Peg.Proofs.Matching.Replay
import Peg.Proofs.Lexing.Dispatch
import Peg.Proofs.Matching.Transport
import Peg.Proofs.Declaration.Kinds
import Peg.Proofs.Matching.Remaining
import Peg.Proofs.Matching.Grounds
import Peg.Proofs.Pattern.Queries
import Peg.Proofs.Pattern.Scanning
import Peg.Proofs.Declaration.Quoting
import Peg.Proofs.Lexing.Ambiguity
import Peg.Proofs.Declaration.Words
import Peg.Proofs.Declaration.Soundness
import Peg.Proofs.Declaration.Queries
import Peg.Proofs.Declaration.Loading
import Peg.Proofs.Declaration.Faults
import Peg.Proofs.Declaration.Ambiguity
import Peg.Proofs.Matching.RepetitionLaws
import Peg.Proofs.Lexing.Runs
import Peg.Proofs.Lexing.Boundary
import Peg.Proofs.Declaration.Interleaving
import Peg.Proofs.Failure.Furthest
import Peg.Proofs.Failure.Trail
import Peg.Proofs.ParseTree.Narrowing
import Peg.Proofs.Matching.Operators
import Peg.Proofs.Matching.Labels
import Peg.Proofs.Matching.Reachability
import Peg.Proofs.Pattern.Escaping
import Peg.Proofs.Grammar.Indexing
