import CiteMarkup.Guarded.Fault
import CiteMarkup.Reference.Catalogue
import CiteMarkup.Transform.Placement
/-!
# Guarded reading and placing

The reading of a page into records, and what is looked up in them afterwards.  Records are
kept under their numbers here: filing an occurrence looks up the number of its identity and
then the record with that number, and following a merge looks up the record that is pointed
at.
-/

namespace CiteMarkup.Guarded

/-! ## 1. Reading -/

/-- The records under their numbers, and the numbers under the identities. -/
structure Filing where
  numbers : Dictionary Nat := []
  records : List Record := []

/-- File an occurrence under an identity; what has a number must have a record. -/
def Filing.file (f : Filing) (key : Text) (o : Occurrence) : Guarded Filing :=
  match f.numbers.get? key with
  | some i => do
    let r ← get (.noRecord i) f.records[i]?
    return { f with records := f.records.set i (r.add o) }
  | none =>
    let i := f.records.length
    return { numbers := f.numbers.put key i, records := f.records ++ [Record.opening i key o] }

/-- File occurrences in turn; `nameless` counts those without a name. -/
def recordsFrom : (nameless : Nat) → Filing → List Occurrence → Guarded (List Record)
  | _, f, [] => return f.records
  | n, f, o :: rest =>
    match o.name.bind Text.nonempty? with
    | some name => do
      let f ← f.file (← identity name o.group) o
      recordsFrom n f rest
    | none => do
      let f ← f.file (namelessIdentity n) o
      recordsFrom (n + 1) f rest

/-- The model of a page. -/
def model (t : Text) (listNames : List Text) : Guarded Model := do
  let p ← page t
  let tokens ← tokens p listNames
  let s := tokens.foldl p.note {}
  let records ← recordsFrom 0 {} (sortByStart Occurrence.start s.occurrences)
  return ⟨p, records, s.lists, s.chains⟩

/-! ## 2. What a reader learns -/

/-- The references of a page in the order of their first occurrence; each must have one. -/
def catalogue (t : Text) (listNames : List Text) : Guarded (List Reference) := do
  let m ← model t listNames
  let placed ← m.records.mapM fun r => do
    return (← get .noOccurrence r.firstStart?, r)
  return (sortByStart (·.1) placed).map fun (_, r) => Reference.ofRecord r

/-- The bodies of a page by identity and by bare name. -/
def bodies (t : Text) (listNames : List Text) : Guarded (Dictionary Text) := do
  let m ← model t (if listNames.isEmpty then defaultListNames else listNames)
  return m.records.foldl Reference.addBody []

/-! ## 3. Merges -/

/-- The record at the end of the merges that begin at `r`.  `seen` are the records on the way,
and `steps` is more than there can be. -/
def follow (m : Model) : (steps : Nat) → (seen : List Nat) → Record → Guarded Record
  | 0, _, _ => .error .endless
  | n + 1, seen, r =>
    if r.canonical ≠ r.index && !seen.contains r.canonical then do
      let s ← get (.noRecord r.canonical) (m.record? r.canonical)
      follow m n (r.index :: seen) s
    else return r

/-- The record that stands for the one with number `index`. -/
def find (m : Model) (index : Nat) : Guarded Record := do
  let r ← get (.noRecord index) (m.record? index)
  follow m (m.records.length + 1) [] r

/-- The records merged into `r`, and `r` itself. -/
def merged (m : Model) (r : Record) : Guarded (List Record) := do
  let found ← m.records.mapM fun s => do
    return (s, ← find m s.index)
  return (found.filter fun (_, c) => c.index = r.index).map (·.1)

/-- The uses of a record and of all records merged into it, in the order of the page. -/
def usesOf (m : Model) (r : Record) : Guarded (List Occurrence) := do
  let records ← merged m r
  return sortByStart Occurrence.start (records.flatMap (·.uses))

/-! ## 4. Placing -/

/-- A record with its location. -/
def locateRecord (m : Model) (mode : Mode) (r : Record) : Guarded (Record × List Notice) :=
  if r.canonical = r.index then do
    let (location, notices) := locate mode r (← usesOf m r)
    return ({ r with location := location }, notices)
  else return (r, [])

/-- The model with a location for each reference, and what there is to say. -/
def place (m : Model) (mode : Mode) : Guarded (Model × List Notice) := do
  let results ← m.records.mapM (locateRecord m mode)
  return ({ m with records := results.map (·.1) }, results.flatMap (·.2))

end CiteMarkup.Guarded
