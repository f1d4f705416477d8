import CiteMarkup.Template.Param
/-!
# Template invocations

An invocation begins with two braces and a name and ends where the pairs of braces balance.
Invocations of other templates are entered, so one that is wanted is found inside them.
-/

namespace CiteMarkup

/-! ## 1. Names -/

/-- The form in which template names are compared: underscores are spaces, runs of blanks
one space, and letters small. -/
def canonicalName (name : Text) : Text :=
  (Text.trim (Text.squash (fun c => isBlank c || c = '_') ' ' name)).lower

/-! ## 2. Invocations -/

/-- An invocation on a page.  `name` is as written, without the blanks around it;
`paramsStart` is the place just after the first bar, or of the closing braces if there is
no bar. -/
structure Template where
  span : Span
  name : Text
  paramText : Text
  paramsStart : Nat
  params : List Param
  deriving DecidableEq, Repr

namespace Template

/-- The name in the form in which names are compared. -/
def canonical (t : Template) : Text := canonicalName t.name

/-- The last parameter written with a key; `key` is in small letters. -/
def param? (t : Template) (key : Text) : Option Param := t.params.reverse.find? (·.hasKey key)

/-- The value of the last parameter with a key, unless it is empty. -/
def value? (t : Template) (key : Text) : Option Text :=
  (t.param? key).bind fun p => Text.nonempty? p.value

end Template

/-! ## 3. Finding them -/

/-- A character that a template name can hold. -/
def isNameChar (c : Char) : Bool := !(['{', '}', '|', '[', ']', '<', '>'].contains c)

/-- The number of characters up to and with the closing braces that balance a text, `open_`
pairs being open before it.  The pairs are read from left to right. -/
def balancedLength? : (open_ : Nat) → (inPair : Bool) → Text → Option Nat
  | _, _, [] => none
  | n, true, _ :: r => (balancedLength? n false r).map (· + 1)
  | n, false, c :: r =>
    if c = '{' && r.head? = some '{' then (balancedLength? (n + 1) true r).map (· + 1)
    else if c = '}' && r.head? = some '}' then
      if n ≤ 1 then some 2 else (balancedLength? (n - 1) true r).map (· + 1)
    else (balancedLength? n false r).map (· + 1)

/-- What the reading of a page notes of an invocation: how long its name is, and whether a
bar follows it. -/
structure Heading where
  nameLength : Nat
  hasBar : Bool

/-- The heading of the invocation that begins a text. -/
def heading? (t : Text) : Option Heading := do
  let r ← after? ['{', '{'] t
  let n := (r.takeWhile isNameChar).length
  match r.drop n with
  | '|' :: _ => some ⟨n, true⟩
  | '}' :: '}' :: _ => some ⟨n, false⟩
  | _ => none

/-- The name under a heading, in the form in which names are compared; what is veiled does
not belong to it. -/
def Heading.canonical (h : Heading) (t : Text) : Text :=
  canonicalName (((t.drop 2).take h.nameLength).filter (· ≠ veil))

/-- The rule that finds the invocations of the wanted templates.  After two braces that
begin nothing wanted, or nothing that ends, the reading goes on behind them. -/
def invocationRule (wanted : Text → Bool) (t : Text) : Verdict Heading :=
  if Text.startsWith t ['{', '{'] then
    match heading? t with
    | none => .jump 2
    | some h =>
      if wanted (h.canonical t) then
        match balancedLength? 0 false t with
        | some n => .found n h
        | none => .jump 2
      else .jump 2
  else .pass

/-- The invocation under a heading. -/
def Page.invocation (p : Page) (f : Found Heading) : Template :=
  let nameStart := f.span.start + 2
  let nameStop := nameStart + f.value.nameLength
  let start := if f.value.hasBar then nameStop + 1 else f.span.stop - 2
  let inner := p.slice start (f.span.stop - 2)
  { span := f.span
    name := Text.trim (p.raw.slice nameStart nameStop)
    paramText := inner.raw
    paramsStart := start
    params := inner.params }

/-- The invocations of the templates whose canonical name is wanted, in order. -/
def Page.templatesWhere (p : Page) (wanted : Text → Bool) : List Template :=
  (scan (fun _ => invocationRule wanted) p.seen).map p.invocation

/-- The name is one of `names`, all in the form in which names are compared. -/
def isNameOf (names : List Text) (canonical : Text) : Bool :=
  (names.map canonicalName).contains canonical

/-- The invocations of the templates with one of the names, in order. -/
def Page.templates (p : Page) (names : List Text) : List Template :=
  p.templatesWhere (isNameOf names)

end CiteMarkup
