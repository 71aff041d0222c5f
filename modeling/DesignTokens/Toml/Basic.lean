import DesignTokens.KeyedList

/-!
# TOML documents

A TOML document is a table: values under keys. Its statements build it up step by step, and which
table may still grow depends on how it came to be. A table under construction therefore remembers
whether a header defined it, dotted keys defined it, or it only stands on the way to another table.

`Table.assign` and `Table.openHeader` refuse a statement that defines something a second time.
-/

namespace DesignTokens.Toml

/-- A TOML value. Of a date or a time only the text is kept. -/
inductive Value where
  | string (s : String)
  | integer (n : Int)
  | float (x : Float)
  | boolean (b : Bool)
  | moment (text : String)
  | array (items : List Value)
  | table (entries : List (String × Value))

/-- How a table came to be. -/
inductive Origin where
  /-- A header goes through it. -/
  | passed
  /-- Dotted keys define it. -/
  | dotted
  /-- A header defines it. -/
  | header
  deriving DecidableEq, Repr

/-- An entry of a table under construction. -/
inductive Entry where
  | value (v : Value)
  | table (origin : Origin) (entries : List (String × Entry))
  /-- The tables of a repeated header, the newest one first. -/
  | tables (newest : List (String × Entry)) (older : List (List (String × Entry)))

/-- A table under construction. -/
abbrev Table := KeyedList Entry

/-- The key of a statement that defines something a second time, or goes through a value. -/
structure Conflict where
  key : String
  deriving DecidableEq, Repr

namespace Table

/-- The table with a value under dotted keys; `isOpen` says whether the table itself takes keys. -/
def assignIn (isOpen : Bool) (table : Table) (keys : List String) (value : Value) :
    Except Conflict Table :=
  match keys with
  | [] => .ok table
  | [key] =>
    if isOpen && !KeyedList.contains table key then .ok (KeyedList.insert table key (.value value))
    else .error ⟨key⟩
  | key :: keys =>
    match KeyedList.get? table key with
    | none => do
      let inner ← assignIn true [] keys value
      pure (KeyedList.insert table key (.table .dotted inner))
    | some (.table .header _) => .error ⟨key⟩
    | some (.table origin inner) => do
      let inner ← assignIn (origin == .dotted) inner keys value
      pure (KeyedList.insert table key (.table origin inner))
    | some (.tables newest older) => do
      let newest ← assignIn false newest keys value
      pure (KeyedList.insert table key (.tables newest older))
    | some (.value _) => .error ⟨key⟩

/-- The table with a value under dotted keys. -/
def assign (table : Table) (keys : List String) (value : Value) : Except Conflict Table :=
  assignIn true table keys value

/-- The table with the table at a path changed. A table on the way that does not exist yet is
created, and a repeated header stands for its newest table. -/
def change (table : Table) (path : List String) (f : Table → Except Conflict Table) :
    Except Conflict Table :=
  match path with
  | [] => f table
  | key :: path =>
    match KeyedList.get? table key with
    | none => do
      let inner ← change [] path f
      pure (KeyedList.insert table key (.table .passed inner))
    | some (.table origin inner) => do
      let inner ← change inner path f
      pure (KeyedList.insert table key (.table origin inner))
    | some (.tables newest older) => do
      let newest ← change newest path f
      pure (KeyedList.insert table key (.tables newest older))
    | some (.value _) => .error ⟨key⟩

/-- The table with a header for one of its keys. -/
def openKey (table : Table) (key : String) : Except Conflict Table :=
  match KeyedList.get? table key with
  | none => .ok (KeyedList.insert table key (.table .header []))
  | some (.table .passed inner) => .ok (KeyedList.insert table key (.table .header inner))
  | some _ => .error ⟨key⟩

/-- The table with one more repeated header for one of its keys. -/
def repeatKey (table : Table) (key : String) : Except Conflict Table :=
  match KeyedList.get? table key with
  | none => .ok (KeyedList.insert table key (.tables [] []))
  | some (.tables newest older) => .ok (KeyedList.insert table key (.tables [] (newest :: older)))
  | some _ => .error ⟨key⟩

/-- The table with a header for a path. -/
def openHeader (table : Table) (path : List String) (repeated : Bool) : Except Conflict Table :=
  match path.getLast? with
  | none => .ok table
  | some key => change table path.dropLast fun inner =>
      if repeated then repeatKey inner key else openKey inner key

end Table

mutual

/-- The value of an entry. -/
def Entry.toValue : Entry → Value
  | .value v => v
  | .table _ entries => .table (toValues entries)
  | .tables newest older => .array ((.table (toValues newest) :: tableValues older).reverse)

/-- The values of the entries of a table. -/
def toValues : List (String × Entry) → List (String × Value)
  | [] => []
  | (key, entry) :: entries => (key, entry.toValue) :: toValues entries

/-- The values of some tables. -/
def tableValues : List (List (String × Entry)) → List Value
  | [] => []
  | table :: tables => .table (toValues table) :: tableValues tables

end

/-- A statement of a document. -/
inductive Statement where
  /-- A value under dotted keys. -/
  | assign (keys : List String) (value : Value)
  /-- The header of the table at a path. -/
  | header (path : List String) (repeated : Bool)

/-- The table that some statements build, the first of which concern the table at `path`. -/
def build (table : Table) (path : List String) : List Statement → Except Conflict Table
  | [] => .ok table
  | .assign keys value :: rest => do
    let table ← table.change path fun inner => inner.assign keys value
    build table path rest
  | .header path repeated :: rest => do
    let table ← table.openHeader path repeated
    build table path rest

end DesignTokens.Toml
