import SqlScript.Dialect
import SqlScript.Proofs.Apart
import SqlScript.Proofs.BareAlias
import SqlScript.Proofs.BlockEnd
import SqlScript.Proofs.BlockScript
import SqlScript.Proofs.CaptureBalance
import SqlScript.Proofs.ColumnAliases
import SqlScript.Proofs.Constrained
import SqlScript.Proofs.Declarations
import SqlScript.Proofs.Enumeration
import SqlScript.Proofs.Grammars
import SqlScript.Proofs.GroupPositions
import SqlScript.Proofs.LetterCase
import SqlScript.Proofs.ListEntries
import SqlScript.Proofs.ListSplice
import SqlScript.Proofs.LongNames
import SqlScript.Proofs.OpaqueLiteral
import SqlScript.Proofs.Outermost
import SqlScript.Proofs.References
import SqlScript.Proofs.Remainder
import SqlScript.Proofs.Resolve
import SqlScript.Proofs.Resplit
import SqlScript.Proofs.Summands
import SqlScript.Proofs.TableEncoding
import SqlScript.Proofs.UnquotedNumbers
