import SentinelWrap.Toml.Value
/-!
Tables while a document is read. A table remembers how it came to be, since no table may be defined
twice.
-/
namespace SentinelWrap.Toml

inductive Origin
  /-- By a header of its own. -/
  | header
  /-- On the way to the table of another header. -/
  | path
  /-- By a dotted key. -/
  | dotted
deriving DecidableEq, Repr

inductive Item
  | value (value : Value)
  | table (origin : Origin) (entries : List (String × Item))
  /-- Tables under one name; new keys go to the last of them. -/
  | tables (earlier : List (List (String × Item))) (last : List (String × Item))

abbrev Entries := List (String × Item)

namespace Entries

def find? (key : String) : Entries → Option Item
  | [] => none
  | (k, item) :: rest => if k = key then some item else find? key rest

/-- Replaces the item of a key, or adds it at the end. -/
def set (key : String) (item : Item) : Entries → Entries
  | [] => [(key, item)]
  | (k, old) :: rest => if k = key then (k, item) :: rest else (k, old) :: set key item rest

/-- Changes the table that a header names. -/
def descend (change : Entries → Option Entries) : List String → Entries → Option Entries
  | [], entries => change entries
  | key :: keys, entries => do
    let item ← match find? key entries with
      | none => (descend change keys []).map (.table .path)
      | some (.table origin below) => (descend change keys below).map (.table origin)
      | some (.tables earlier last) => (descend change keys last).map (.tables earlier)
      | some (.value _) => none
    return set key item entries

/-- The header of a table: it may be known only from the way to other tables. -/
def openTable (key : String) (entries : Entries) : Option Entries :=
  match find? key entries with
  | none => some (set key (.table .header []) entries)
  | some (.table .path below) => some (set key (.table .header below) entries)
  | some _ => none

/-- The header of one more table under a name. -/
def addTable (key : String) (entries : Entries) : Option Entries :=
  match find? key entries with
  | none => some (set key (.tables [] []) entries)
  | some (.tables earlier last) => some (set key (.tables (earlier ++ [last]) []) entries)
  | some _ => none

/-- Applies a change to the table around the last of the keys. -/
def atHeader (change : String → Entries → Option Entries) (keys : List String)
    (entries : Entries) : Option Entries := do
  let key ← keys.getLast?
  descend (change key) keys.dropLast entries

/-- Gives a new key a value. The key must be new, and after dots its table must be one that dotted
keys made; `isOpen` tells whether the table at hand is. -/
def assign (value : Value) (isOpen : Bool) : List String → Entries → Option Entries
  | [], _ => none
  | [key], entries =>
    if isOpen && (find? key entries).isNone then some (set key (.value value) entries) else none
  | key :: keys, entries => do
    let item ← match find? key entries with
      | none => (assign value true keys []).map (.table .dotted)
      | some (.table .dotted below) => (assign value true keys below).map (.table .dotted)
      | some (.table .path below) => (assign value false keys below).map (.table .path)
      | some (.tables earlier last) => (assign value false keys last).map (.tables earlier)
      | some (.table .header _) | some (.value _) => none
    return set key item entries

mutual

def itemValue : Item → Value
  | .value value => value
  | .table _ entries => .table (values entries)
  | .tables earlier last => .array (tableValues earlier ++ [.table (values last)])

def values : List (String × Item) → List (String × Value)
  | [] => []
  | (key, item) :: rest => (key, itemValue item) :: values rest

def tableValues : List (List (String × Item)) → List Value
  | [] => []
  | entries :: rest => .table (values entries) :: tableValues rest

end

end Entries
end SentinelWrap.Toml
