import CiteMarkup.Reference.Model
import CiteMarkup.Dictionary
/-!
# What a reader learns about the references of a page

Two views of the model: the list of references with their bodies and the number of their
occurrences, and the dictionary from identities and names to bodies.
-/

namespace CiteMarkup

/-- A reference as a reader sees it.  `body` is trimmed, and empty if the page gives none;
definitions in output lists count as uses. -/
structure Reference where
  id : Text
  name : Option Text
  group : Option Text
  body : Text
  uses : Nat
  deriving DecidableEq, Repr

namespace Reference

/-- The reference that a record describes. -/
def ofRecord (r : Record) : Reference :=
  ⟨r.key, r.name, r.group, Text.trim (r.content?.getD []), r.occurrences.length⟩

/-- The references of a page in the order of their first occurrence. -/
def catalogue (t : Text) (listNames : List Text) : List Reference :=
  (sortByStart (fun r : Record => r.firstStart?.getD 0) (Model.ofText t listNames).records).map
    ofRecord

/-- The dictionary with the body of a record under its identity, and under its bare name
unless that stands for another reference already. -/
def addBody (d : Dictionary Text) (r : Record) : Dictionary Text :=
  match r.content? with
  | none => d
  | some body =>
    let named := match r.name with
      | some n => d.putNew n body
      | none => d
    named.put r.key body

/-- The bodies of a page by identity and by bare name.  Without any list names the usual
ones are taken. -/
def bodies (t : Text) (listNames : List Text) : Dictionary Text :=
  let names := if listNames.isEmpty then defaultListNames else listNames
  (Model.ofText t names).records.foldl addBody []

end Reference
end CiteMarkup
