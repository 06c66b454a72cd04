import AlterTable.Dialect

/-!
# Migrations

A migration takes a layout through statements one after the other. Each statement that can be
read makes the layout for the next one; a statement that cannot leaves the layout alone, and
the migration goes on.
-/

namespace AlterTable

namespace Migration

/-- What one statement of a migration did. -/
structure Step where
  /-- The moves that the statement made, or why it was not read. -/
  result : Except Error (List Move)
  /-- The layout after the step. -/
  layout : Layout

/-- One statement applied to a layout. -/
def step (dialect : Dialect) (l : Layout) (text : String) : Step :=
  match dialect.read text (some l) with
  | .ok s => { result := .ok s.moves, layout := s.layout.getD l }
  | .error e => { result := .error e, layout := l }

/-- The steps of a migration, one for each statement. -/
def run (dialect : Dialect) (l : Layout) : List String → List Step
  | [] => []
  | text :: texts =>
    let first := step dialect l text
    first :: run dialect first.layout texts

end Migration

end AlterTable
