import AlterTable.Main
import AlterTable.Migration
import AlterTable.Proofs.Grammar.Production
import AlterTable.Proofs.Grammar.Rules
import AlterTable.Proofs.Grammar.Lookahead
import AlterTable.Proofs.Grammar.Reading
import AlterTable.Proofs.Grammar.Lexing
import AlterTable.Proofs.Grammar.Word
import AlterTable.Proofs.Grammar.Literal
import AlterTable.Proofs.Grammar.Columns
import AlterTable.Proofs.Grammar.Clauses
import AlterTable.Proofs.Grammar.Exactness
import AlterTable.Proofs.Draft.Lexeme
import AlterTable.Proofs.Draft.Syntax
import AlterTable.Proofs.Draft.Alteration
import AlterTable.Proofs.Draft.Derivation
import AlterTable.Proofs.Draft.Tree
import AlterTable.Proofs.Node.Lookup
import AlterTable.Proofs.Draft.Reading
import AlterTable.Proofs.Draft.Facts
import AlterTable.Proofs.Statement.Gathering
import AlterTable.Proofs.Draft.RoundTrip
import AlterTable.Proofs.Layout.Reordering
import AlterTable.Proofs.Statement.Completeness
import AlterTable.Proofs.Node.Offsets
import AlterTable.Proofs.Statement.WrittenOrder
import AlterTable.Proofs.Layout.Stepwise
import AlterTable.Proofs.Grammar.Parts
import AlterTable.Proofs.Statement.Redefinition
import AlterTable.Proofs.Statement.Survival
import AlterTable.Proofs.Grammar.Written
import AlterTable.Proofs.Node.Outermost
import AlterTable.Proofs.Grammar.Positions
import AlterTable.Proofs.Statement.PrimaryKey
import AlterTable.Proofs.Migration.DistinctNames
import AlterTable.Proofs.Statement.Clausewise
import AlterTable.Proofs.Statement.ReadingOrder
import AlterTable.Proofs.Node.MapStart
import AlterTable.Proofs.Statement.Orderly
import AlterTable.Proofs.Statement.Omission
import AlterTable.Proofs.Layout.Conservation
import AlterTable.Proofs.Node.Nesting
import AlterTable.Proofs.Grammar.Relocation
import AlterTable.Proofs.Grammar.Naming
import AlterTable.Proofs.Text
import AlterTable.Proofs.Grammar.Occurrences
import AlterTable.Proofs.Statement.Joining
import AlterTable.Proofs.Statement.NamePlaces
import AlterTable.Proofs.Statement.Identifiers
import AlterTable.Proofs.Grammar.Recognition
import AlterTable.Proofs.Grammar.Disjointness
import AlterTable.Proofs.Statement.KeyParts
import AlterTable.Proofs.Statement.TableName
import AlterTable.Proofs.Node.Levels
import AlterTable.Proofs.Statement.Growth
import AlterTable.Proofs.Layout.Undisturbed
import AlterTable.Proofs.Statement.OldNames
import AlterTable.Proofs.Grammar.StringEnds
import AlterTable.Proofs.Layout.Sorting
import AlterTable.Proofs.Grammar.ErrorTraces
import AlterTable.Proofs.Statement.Surroundings
import AlterTable.Proofs.Layout.Shifting
import AlterTable.Proofs.CommandLine.Arguments
import AlterTable.Proofs.Grammar.TypeText
import AlterTable.Proofs.CommandLine.ColumnList
