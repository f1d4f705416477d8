import CiteMarkup.Text.Basic
/-!
# Dictionaries in order of insertion

A dictionary is a list of keys with values, each key once.  A key that is put again keeps
its place and takes the new value.
-/

namespace CiteMarkup

/-- Keys with values, in the order in which the keys came in. -/
abbrev Dictionary (α : Type) := List (Text × α)

namespace Dictionary
variable {α : Type}

/-- The value of a key. -/
def get? (d : Dictionary α) (key : Text) : Option α := List.lookup key d

/-- The key is in the dictionary. -/
def has (d : Dictionary α) (key : Text) : Bool := d.any (·.1 == key)

/-- The dictionary with a value for a key. -/
def put (d : Dictionary α) (key : Text) (value : α) : Dictionary α :=
  if d.has key then d.map fun e => if e.1 == key then (key, value) else e
  else d ++ [(key, value)]

/-- The dictionary with a value for a key, unless it has one. -/
def putNew (d : Dictionary α) (key : Text) (value : α) : Dictionary α :=
  if d.has key then d else d ++ [(key, value)]

/-- The dictionary of a list of pairs, put in one after the other. -/
def ofPairs (pairs : List (Text × α)) : Dictionary α :=
  pairs.foldl (fun d (k, v) => put d k v) []

/-- The dictionary with all of another put in. -/
def update (d : Dictionary α) (pairs : List (Text × α)) : Dictionary α :=
  pairs.foldl (fun d (k, v) => put d k v) d

end Dictionary
end CiteMarkup
