import Straightline.Toml.Value

/-!
# Which keys are taken

A document may define every key once. The registry records, by full path, what each key has been
used for, and refuses an expression that defines something twice or uses a value as a table.

Tables that exist only because a longer key passes through them may be defined by a header later,
except that tables made by a dotted key are closed once the next header begins.
-/

set_option autoImplicit false

namespace Straightline.Toml

/-- What a path has been used for. -/
inductive Role where
  | value
  | table
  | arrayTable
deriving DecidableEq, Repr

/-- One path that is taken. -/
structure Taken where
  path : Key
  role : Role
  /-- The table has been defined and may not be defined again. -/
  defined : Bool
  /-- The table was made by a dotted key. -/
  dotted : Bool
deriving DecidableEq, Repr

/-- The paths taken so far, and the table that keys currently go to. -/
structure Registry where
  taken : List Taken := []
  current : Key := []
deriving DecidableEq, Repr

namespace Registry

/-- The entry of a path. -/
def find? (r : Registry) (path : Key) : Option Taken := r.taken.find? (·.path = path)

/-- Takes a path. -/
def take (r : Registry) (t : Taken) : Registry := { r with taken := t :: r.taken }

/-- Changes the entry of a path. -/
def modify (r : Registry) (path : Key) (f : Taken → Taken) : Registry :=
  { r with taken := r.taken.map fun t => if t.path = path then f t else t }

/-- Walks down a dotted key below `path` to its last part, which must be new. -/
def addKey (r : Registry) (path : Key) : Key → Option Registry
  | [] => some r
  | [last] =>
    let path := path ++ [last]
    match r.find? path with
    | some _ => none
    | none => some (r.take ⟨path, .value, false, true⟩)
  | part :: rest =>
    let path := path ++ [part]
    match r.find? path with
    | none => (r.take ⟨path, .table, false, true⟩).addKey path rest
    | some t => if t.role = .table && !t.defined then r.addKey path rest else none

/-- Walks down to the table that holds the last part of a header's key. -/
def enter (r : Registry) (path : Key) : Key → Option Registry
  | [] => some r
  | part :: rest =>
    let path := path ++ [part]
    match r.find? path with
    | none => (r.take ⟨path, .table, false, false⟩).enter path rest
    | some t => if t.role = .value then none else r.enter path rest

/-- Closes the tables that dotted keys made below the current one. -/
def closeDotted (r : Registry) : Registry :=
  { r with taken := r.taken.map fun t =>
      if t.dotted && r.current.isPrefixOf t.path && t.path ≠ r.current
      then { t with defined := true, dotted := false } else t }

/-- Begins a table. -/
def beginTable (r : Registry) (key : Key) : Option Registry := do
  let r ← r.closeDotted.enter [] key.dropLast
  match r.find? key with
  | some t =>
    if t.role = .table && !t.defined then
      some { r.modify key (fun t => { t with defined := true }) with current := key }
    else none
  | none => some { r.take ⟨key, .table, true, false⟩ with current := key }

/-- Begins the next table of an array, in which every key is free again. -/
def beginArrayTable (r : Registry) (key : Key) : Option Registry := do
  let r ← r.closeDotted.enter [] key.dropLast
  match r.find? key with
  | some t =>
    if t.role = .arrayTable then
      some { taken := r.taken.filter fun t => !(key.isPrefixOf t.path && t.path ≠ key)
             current := key }
    else none
  | none => some { r.take ⟨key, .arrayTable, true, false⟩ with current := key }

end Registry

mutual

/-- Whether the keys inside a value are distinct, for every inline table in it. -/
def Value.keysDistinct : Value → Bool
  | .array items => itemsDistinct items
  | .table entries => entriesDistinct {} entries
  | _ => true

/-- The same for the items of an array. -/
def itemsDistinct : List Value → Bool
  | [] => true
  | v :: vs => v.keysDistinct && itemsDistinct vs

/-- The same for the entries of an inline table, some keys of which are taken already. -/
def entriesDistinct (r : Registry) : List (Key × Value) → Bool
  | [] => true
  | (k, v) :: rest =>
    match r.addKey [] k with
    | none => false
    | some r => v.keysDistinct && entriesDistinct r rest

end

/-- Registers an expression, if nothing it defines is taken. -/
def Registry.register (r : Registry) : Expression → Option Registry
  | .keyValue k v => if v.keysDistinct then r.addKey r.current k else none
  | .table k => r.beginTable k
  | .arrayTable k => r.beginArrayTable k

end Straightline.Toml
