import LoxLexer.Main
import LoxLexer.Proofs.Cutting
import LoxLexer.Proofs.Grammar
import LoxLexer.Proofs.Reports
import LoxLexer.Proofs.Yield
import LoxLexer.Proofs.Reading
import LoxLexer.Proofs.Segmentation
import LoxLexer.Proofs.Resumption
import LoxLexer.Proofs.Lines
import LoxLexer.Proofs.Printing
import LoxLexer.Proofs.Concatenation
import LoxLexer.Proofs.Comments
import LoxLexer.Proofs.Stability
import LoxLexer.Proofs.Blanking
import LoxLexer.Proofs.Progress
import LoxLexer.Proofs.Loops
import LoxLexer.Proofs.Conduct
import LoxLexer.Proofs.Binary64.Value
import LoxLexer.Proofs.Binary64.Rounding
import LoxLexer.Proofs.Literals
import LoxLexer.Proofs.Delimited
import LoxLexer.Proofs.Binary64.Interval
import LoxLexer.Proofs.Binary64.Written
import LoxLexer.Proofs.Binary64.Coarsest
import LoxLexer.Proofs.Binary64.Whole
import LoxLexer.Proofs.Binary64.Plain
import LoxLexer.Proofs.Binary64.Spelling
import LoxLexer.Proofs.Rescanning
import LoxLexer.Proofs.LogReading
import LoxLexer.Proofs.TableReading
import LoxLexer.Proofs.Columns
import LoxLexer.Proofs.Chains
import LoxLexer.Proofs.LineEnds
import LoxLexer.Proofs.Encoding
import LoxLexer.Proofs.Switches
import LoxLexer.Proofs.Listing
import LoxLexer.Proofs.FileReading
