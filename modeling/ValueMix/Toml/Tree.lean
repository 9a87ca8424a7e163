import ValueMix.Toml.Value

/-!
# Assembling a document

A document is a list of statements: headers that open a table, and entries of
the table that is open. A `Tree` is a table under assembly. It remembers how the
tables in it came about, because that decides which later statements may add to
them:

* a table may have only one header, which may come after headers of tables
  inside it;
* tables made by dotted keys get no header, and dotted keys do not reach into
  tables that have one;
* values, among them whole inline tables, are closed.

An array of tables stands for its last element wherever a path goes through it.
-/

namespace ValueMix.Toml

/-- How a table came about. -/
inductive Origin where
  /-- It has a header of its own, or needs none. -/
  | header
  /-- The header of a table inside it names it. -/
  | passage
  /-- A dotted key names it. -/
  | dotted
  deriving DecidableEq

/-- What stands under a key of a table under assembly. -/
inductive Node where
  | value (v : Value)
  | table (origin : Origin) (entries : List (String × Node))
  /-- An array of tables: the earlier elements and the last one. -/
  | tables (earlier : List (List (String × Node))) (last : List (String × Node))

/-- A table under assembly. -/
abbrev Tree := List (String × Node)

/-! ## Values of finished trees -/

mutual

/-- The value of a finished node. -/
def Node.toValue : Node → Value
  | .value v => v
  | .table _ entries => .table (Tree.toEntries entries)
  | .tables earlier last =>
      .array (Tree.toTables earlier ++ [.table (Tree.toEntries last)])

/-- The entries of a finished table. -/
def Tree.toEntries : Tree → List (String × Value)
  | [] => []
  | (key, node) :: rest => (key, node.toValue) :: Tree.toEntries rest

/-- The elements of an array of finished tables. -/
def Tree.toTables : List Tree → List Value
  | [] => []
  | entries :: rest => .table (Tree.toEntries entries) :: Tree.toTables rest

end

namespace Tree

/-! ## Access to one place -/

/-- Changes what stands under a key, if the change is allowed there. -/
def alter (key : String) (change : Option Node → Option Node) :
    Tree → Option Tree
  | [] => (change none).map fun node => [(key, node)]
  | (k, node) :: rest =>
      if k = key then
        (change (some node)).map fun changed => (k, changed) :: rest
      else (alter key change rest).map fun changed => (k, node) :: changed

/-- Changes the table at the end of a path. Missing tables are made on the way,
of the given origin. The change also gets the origin of the table that it
changes; `here` is the origin of the table that the path begins in. -/
def within (origin : Origin) (change : Origin → Tree → Option Tree) :
    (path : List String) → (here : Origin) → Tree → Option Tree
  | [], here, tree => change here tree
  | key :: path, _, tree =>
      tree.alter key fun
        | none => (within origin change path origin []).map (.table origin)
        | some (.value _) => none
        | some (.table found entries) =>
            if origin = .dotted ∧ found = .header then none
            else (within origin change path found entries).map (.table found)
        | some (.tables earlier last) =>
            (within origin change path .header last).map (.tables earlier)

/-! ## Statements -/

/-- Opens the table of a header. -/
def openTable (key : String) (tree : Tree) : Option Tree :=
  tree.alter key fun
    | none => some (.table .header [])
    | some (.table .passage entries) => some (.table .header entries)
    | some _ => none

/-- Opens the next element of an array of tables. -/
def openElement (key : String) (tree : Tree) : Option Tree :=
  tree.alter key fun
    | none => some (.tables [] [])
    | some (.tables earlier last) => some (.tables (earlier ++ [last]) [])
    | some _ => none

/-- Sets the value of a new key. -/
def setNew (key : String) (v : Value) (tree : Tree) : Option Tree :=
  tree.alter key fun
    | none => some (.value v)
    | some _ => none

/-- Sets the value of a dotted key, given as its parts. -/
def setDotted (path : List String) (v : Value) (tree : Tree) : Option Tree := do
  let key ← path.getLast?
  let way := path.dropLast
  let change (here : Origin) (tree : Tree) : Option Tree :=
    if !way.isEmpty && here ≠ .dotted then none else tree.setNew key v
  within .dotted change way .header tree

/-- The table that some dotted keys make. -/
def ofPairs? (pairs : List (List String × Value)) : Option Tree :=
  pairs.foldlM (fun tree (path, v) => tree.setDotted path v) []

end Tree

/-- A line of a document that says something. -/
inductive Statement where
  /-- The header of a table. -/
  | table (path : List String)
  /-- The header of an element of an array of tables. -/
  | element (path : List String)
  /-- An entry of the open table. -/
  | entry (path : List String) (v : Value)

namespace Tree

/-- Carries out a statement. The state is the path of the open table and the
whole tree. -/
def perform : List String × Tree → Statement → Option (List String × Tree)
  | (_, tree), .table path => do
      let key ← path.getLast?
      let tree ←
        within .passage (fun _ => openTable key) path.dropLast .header tree
      some (path, tree)
  | (_, tree), .element path => do
      let key ← path.getLast?
      let tree ←
        within .passage (fun _ => openElement key) path.dropLast .header tree
      some (path, tree)
  | (current, tree), .entry path v => do
      let tree ←
        within .passage (fun _ => setDotted path v) current .header tree
      some (current, tree)

/-- The tree that statements make. -/
def ofStatements? (statements : List Statement) : Option Tree :=
  (statements.foldlM perform ([], [])).map Prod.snd

end Tree

end ValueMix.Toml
