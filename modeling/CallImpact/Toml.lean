/-!
# TOML trees

The tree of a TOML document, and the ways a document adds to it.  A table
remembers how it came to be, because that decides what may still be added:

* a table in braces is closed;
* a table with a header of its own takes further tables from later headers;
* a table implied by the header of a table inside it may still get a header;
* a table made by a dotted key takes further dotted keys.
-/

namespace CallImpact

/-- How a table came to be. -/
inductive TableOrigin where
  | braces
  | header
  | implied
  | dotted
deriving DecidableEq

/-- A dotted key may pass through a table: through one that a dotted key made,
and, unless the table is to hold the value itself, through an implied one. -/
def TableOrigin.openToDotted (last : Bool) : TableOrigin → Bool
  | .dotted => true
  | .implied => !last
  | _ => false

/-- The tree of a TOML document.  The values of floats and of dates and times
are not kept. -/
inductive Toml where
  | string (text : String)
  | integer (value : Int)
  | float
  | boolean (value : Bool)
  | dateTime
  | array (items : List Toml)
  | table (origin : TableOrigin) (members : List (String × Toml))
  /-- Tables that repeat a header, the last one first. -/
  | tables (items : List (List (String × Toml)))

namespace Toml

/-- The members of a table; keys do not repeat. -/
abbrev Members : Type :=
  List (String × Toml)

/-- Changes the value of a key, or gives it one. -/
def alter (key : String) (change : Option Toml → Option Toml) : Members → Option Members
  | [] => (change none).map fun value => [(key, value)]
  | (k, value) :: rest =>
    if k = key then (change (some value)).map fun value => (k, value) :: rest
    else (alter key change rest).map fun rest => (k, value) :: rest

def addNew (key : String) (value : Toml) : Members → Option Members :=
  alter key fun
    | none => some value
    | some _ => none

/-- Changes the table that a dotted key leads to, making tables on the way. -/
def atDotted (change : Members → Option Members) : List String → Members → Option Members
  | [], members => change members
  | key :: path, members =>
    alter key (fun
      | none => (atDotted change path []).map (.table .dotted)
      | some (.table origin inner) =>
        if origin.openToDotted path.isEmpty then
          (atDotted change path inner).map (.table origin)
        else none
      | some (.tables (last :: earlier)) =>
        if path.isEmpty then none
        else (atDotted change path last).map fun last => .tables (last :: earlier)
      | some _ => none) members

/-- Changes the table that a header leads to, making tables on the way.  Of
tables that repeat a header the last one is meant. -/
def atHeader (change : Members → Option Members) : List String → Members → Option Members
  | [], members => change members
  | key :: path, members =>
    alter key (fun
      | none => (atHeader change path []).map (.table .implied)
      | some (.table origin inner) =>
        if origin = .braces then none else (atHeader change path inner).map (.table origin)
      | some (.tables (last :: earlier)) =>
        (atHeader change path last).map fun last => .tables (last :: earlier)
      | some _ => none) members

def define (path : List String) (key : String) (value : Toml) : Members → Option Members :=
  atDotted (addNew key value) path

def openTable (path : List String) (key : String) : Members → Option Members :=
  atHeader
    (alter key fun
      | none => some (.table .header [])
      | some (.table .implied inner) => some (.table .header inner)
      | some _ => none)
    path

/-- Opens one more table of a repeated header. -/
def openNext (path : List String) (key : String) : Members → Option Members :=
  atHeader
    (alter key fun
      | none => some (.tables [[]])
      | some (.tables items) => some (.tables ([] :: items))
      | some _ => none)
    path

/-- The table of keys and values in braces. -/
def ofPairs? (pairs : List (List String × String × Toml)) : Option Toml :=
  (pairs.foldlM (fun members (path, key, value) => define path key value members) []).map
    (.table .braces)

/-- One line of meaning in a document. -/
inductive Statement where
  | pair (path : List String) (key : String) (value : Toml)
  | header (path : List String) (key : String)
  | repeatedHeader (path : List String) (key : String)

/-- The root table so far, and the path to the table that pairs go to. -/
structure Outline where
  root : Members := []
  current : List String := []

/-- Adds a statement to a document. -/
def Outline.add (o : Outline) : Statement → Option Outline
  | .pair path key value =>
    (atHeader (define path key value) o.current o.root).map fun root => { o with root }
  | .header path key => (openTable path key o.root).map fun root => ⟨root, path ++ [key]⟩
  | .repeatedHeader path key =>
    (openNext path key o.root).map fun root => ⟨root, path ++ [key]⟩

/-- The root table of a document. -/
def ofStatements? (statements : List Statement) : Option Members :=
  (statements.foldlM Outline.add {}).map Outline.root

end Toml
end CallImpact
