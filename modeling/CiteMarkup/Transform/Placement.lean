import CiteMarkup.Reference.Model
import CiteMarkup.Transform.Options
/-!
# Where bodies are to stand

Each reference that has not been merged away gets a location: its body stands in the text, or
in an output list.  The mode decides, as far as the body can stand there at all.
-/

namespace CiteMarkup

/-- The location that the mode asks for, given the number of uses. -/
def Mode.wish (mode : Mode) (r : Record) (uses : Nat) : Location :=
  match mode with
  | .keep => if r.listed.isEmpty then .inline else .listDefined
  | .allInline => .inline
  | .allListed => .listDefined
  | .threshold n => if n ≤ uses then .listDefined else .inline

/-- The location of a reference with the given uses, and what there is to say.  What has no
name cannot be cited, so its body stands where it is used.  A body that is to stand in the
text needs a tag there. -/
def locate (mode : Mode) (r : Record) (uses : List Occurrence) : Location × List Notice :=
  match r.name with
  | none => (if uses.isEmpty && !r.listed.isEmpty then .listDefined else .inline, [])
  | some name =>
    match mode.wish r uses.length with
    | .listDefined => (.listDefined, [])
    | .inline =>
      if r.content?.isSome && uses.all (·.isChained) then
        (.listDefined, [if uses.isEmpty then .unused name else .onlyChained name])
      else (.inline, [])

/-- A record with its location. -/
def Model.locateRecord (m : Model) (mode : Mode) (r : Record) : Record × List Notice :=
  if r.canonical = r.index then
    let (location, notices) := locate mode r (m.usesOf r)
    ({ r with location := location }, notices)
  else (r, [])

/-- The model with a location for each reference, and what there is to say. -/
def Model.place (m : Model) (mode : Mode) : Model × List Notice :=
  let results := m.records.map (m.locateRecord mode)
  ({ m with records := results.map (·.1) }, results.flatMap (·.2))

end CiteMarkup
