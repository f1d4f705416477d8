import CiteMarkup.CommandLine.Program
/-!
# The program

Reads the page and the options file that the command line names, and writes what the
request comes to.
-/

open CiteMarkup

/-- The text of a file, or why it cannot be read. -/
def readText (path : Text) : IO (Except FileFault Text) := do
  try return .ok (← IO.FS.readFile (String.ofList path)).toList
  catch e =>
    match e with
    | .noFileOrDirectory .. => return .error (.missing path)
    | _ => return .error (.directory path)

/-- A message about a request that comes to nothing, and the exit code for it. -/
def refuse (message : Text) : IO UInt32 := do
  IO.eprintln ("error: " ++ String.ofList message)
  return 2

/-- The page that a request is about. -/
def readPage (q : Request) : IO (Except FileFault Text) :=
  match q.pagePath? with
  | some path => readText path
  | none => do return .ok (← (← IO.getStdin).readToEnd).toList

/-- The options file of a request; nothing is read if none is needed. -/
def readOptions (q : Request) : IO (Except FileFault Text) :=
  match q.neededOptions? with
  | some path => readText path
  | none => return .ok []

/-- Writes what a request has come to. -/
def deliver (q : Request) (o : Output) : IO UInt32 := do
  for (level, line) in o.log do
    if q.verbose || level = .warning then
      IO.eprintln (String.ofList (level.name ++ ": ".toList ++ line))
  IO.eprint (String.ofList o.summary)
  match o.file with
  | some path => IO.FS.writeFile (String.ofList path) (String.ofList o.text)
  | none => IO.print (String.ofList o.text)
  return 0

/-- The program. -/
def main (args : List String) : IO UInt32 := do
  match Request.ofWords (args.map (·.toList)) with
  | .error e => refuse e.text
  | .ok q =>
    if q.help then
      IO.println "Rename, deduplicate and relocate the references of a WikiText page"
      return 0
    match q.run (← readPage q) (← readOptions q) with
    | .error e => refuse e.text
    | .ok o => deliver q o
