import EveDB.Model.TableCodec

/-!
# The catalog

The table definitions of a database and the gate every change of them passes
(`validateTableChange`), whether it is staged by a transaction or read from the log. A change
is a whole definition: a new table under the next identifier, a new name, or one more schema
behind the ones the table has.
-/

namespace EveDB

/-- The tables of a database, by their identifiers. -/
abbrev Catalog := BTreeMap Table

namespace Catalog

/-- The largest identifier in use, or zero. -/
def lastId (catalog : Catalog) : ℕ := catalog.maxKey?.getD 0

/-- Checks that a schema may follow another one. -/
def checkEvolution (old latest : Schema) : Result Unit :=
  if old.fields.any fun field => ¬ latest.fields.any fun new =>
      new.id = field.id ∧ new.dataType = field.dataType ∧ new.nullable = field.nullable then
    .error (.invalid "existing field IDs, types and nullability must be preserved")
  else if latest.fields.any fun field =>
      ¬ old.fields.any (fun old => old.id = field.id) ∧ ¬ field.nullable then
    .error (.invalid "new fields must be nullable")
  else .ok ()

/-- Checks a table definition against the tables there are. -/
def validateTableChange (catalog : Catalog) (table : Table) : Result Unit := do
  validateName table.name
  if catalog.toList.any fun (_, old) => old.id ≠ table.id ∧ old.name = table.name then
    .error (.alreadyExists table.name)
  else
    -- a table without a schema has no latest one
    match table.schema with
    | none => .error (.invalid "table needs a schema")
    | some latest => do
      table.schemas.forM Schema.validate
      match catalog[table.id]? with
      | some old =>
        if table.schemas = old.schemas then return ()
        else
          -- every table of the catalog has a schema
          match old.schema with
          | none => .error (.invalid "invalid schema evolution")
          | some previous =>
            if table.schemas.length ≠ old.schemas.length + 1 ∨
                ¬ old.schemas.isPrefixOf table.schemas ∨
                latest.version ≠ previous.version + 1 then
              .error (.invalid "invalid schema evolution")
            else checkEvolution previous latest
      | none =>
        if table.id ≠ catalog.lastId + 1 ∨ table.schemas.length ≠ 1 ∨ latest.version ≠ 1 then
          .error (.invalid "new table requires the next ID and schema version one")
        else return ()

/-- Applies a table definition that passes the gate. -/
def change (catalog : Catalog) (table : Table) : Result Catalog := do
  catalog.validateTableChange table
  return catalog.insert table.id table

/-- The table under an identifier. -/
def table (catalog : Catalog) (id : ℕ) : Result Table :=
  match catalog[id]? with
  | some table => .ok table
  | none => .error (.notFound ("table " ++ toString id))

/-- The definition of a new table. -/
def createTable (catalog : Catalog) (name : String) (schema : Schema) : Result Table :=
  match checkedAdd catalog.lastId 1 with
  | none => .error (.invalid "table IDs exhausted")
  | some id => .ok { id, name, schemas := [schema] }

/-- The definition of a table under a new name. -/
def renameTable (catalog : Catalog) (id : ℕ) (name : String) : Result Table := do
  let table ← catalog.table id
  return { table with name }

/-- The definition of a table with one more schema. -/
def alterTable (catalog : Catalog) (id : ℕ) (fields : List Field) : Result Table := do
  let table ← catalog.table id
  match checkedAdd (table.schema.elim 0 Schema.version) 1 with
  | none => .error (.invalid "schema versions exhausted")
  | some version => return { table with schemas := table.schemas ++ [{ version, fields }] }

/-- **The catalogs that accepted changes lead to.** -/
inductive Reachable : Catalog → Prop
  | empty : Reachable ∅
  | change {catalog catalog' : Catalog} {table : Table} :
      Reachable catalog → catalog.change table = .ok catalog' → Reachable catalog'

end Catalog

end EveDB
