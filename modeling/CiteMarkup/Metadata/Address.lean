import CiteMarkup.Metadata.HostAddress
import CiteMarkup.Text.Keyword
import CiteMarkup.Text.Scan
/-!
# Addresses and domains

The first address in a text, the host it names, and the part of the host that tells whose
it is.
-/

namespace CiteMarkup
namespace Address

/-! ## 1. Finding an address -/

/-- A character of an address in running markup. -/
def isAddressChar (c : Char) : Bool :=
  !(isBlank c || c = '|' || c = '<' || c = '>' || c = '"' || c = ']' || c = '}')

/-- What is left behind the scheme of an address. -/
def scheme? (t : Text) : Option Text :=
  (keyword? "https://".toList t) <|> (keyword? "http://".toList t)

/-- The address that begins a text. -/
def read? (t : Text) : Option Text := do
  let r ← scheme? t
  let body := r.takeWhile isAddressChar
  if body.isEmpty then none else some (t.take (t.length - r.length) ++ body)

/-- The first address in a text. -/
def find? : Text → Option Text
  | [] => none
  | c :: r => read? (c :: r) <|> find? r

/-! ## 2. The authority -/

/-- A character of a scheme. -/
def isSchemeChar (c : Char) : Bool :=
  isAsciiLetter c || isAsciiDigit c || c = '+' || c = '-' || c = '.'

/-- How an address is read.  Readers of addresses have become stricter; the default rules are
the latest ones. -/
structure Rules where
  /-- Control characters and spaces in front are dropped. -/
  dropsLeading : Bool := true
  /-- Brackets must hold a number. -/
  checksBrackets : Bool := true

/-- The rules of an early reader: nothing in front is dropped, and brackets hold anything. -/
def Rules.lenient : Rules := ⟨false, false⟩

/-- A control character or a space. -/
def isLeading (c : Char) : Bool := c.toNat ≤ 0x20

/-- The address as it is read: without tabs and line ends, and without what the rules drop in
front of it. -/
def prepared (rules : Rules) (t : Text) : Text :=
  (if rules.dropsLeading then t.dropWhile isLeading else t).filter fun c =>
    !(c = '\t' || c = '\r' || c = '\n')

/-- The address behind its scheme, if it has one: a letter, and then letters, digits and a
few signs up to the first colon. -/
def withoutScheme (t : Text) : Text :=
  match Text.splitFirst? ':' t with
  | some (scheme, rest) =>
    if scheme.head?.any isAsciiLetter && scheme.all isSchemeChar then rest else t
  | none => t

/-- What stands between two slashes and the path, the query or the fragment. -/
def authority (rules : Rules) (t : Text) : Text :=
  match withoutScheme (prepared rules t) with
  | '/' :: '/' :: r => r.takeWhile fun c => !(c = '/' || c = '?' || c = '#')
  | _ => []

/-- Characters whose plain form holds a slash, a question mark, a number sign, an at sign or
a colon.  They would make an address look as if its host ended elsewhere. -/
def disguises : List Nat :=
  [ 0x2047, 0x2048, 0x2049, 0x2100, 0x2101, 0x2105, 0x2106, 0x2A74, 0xFE13, 0xFE16, 0xFE55,
    0xFE56, 0xFE5F, 0xFE6B, 0xFF03, 0xFF0F, 0xFF1A, 0xFF1F, 0xFF20 ]

/-- What the first brackets hold. -/
def bracketed? (t : Text) : Option Text :=
  (Text.splitFirst? '[' t).map fun (_, r) => r.takeWhile (· ≠ ']')

/-- The authority is well formed: brackets come in both kinds or not at all, they hold a number
if the rules ask for it, and no character pretends to be a delimiter. -/
def isProper (rules : Rules) (t : Text) : Bool :=
  t.elem '[' == t.elem ']' &&
    (!rules.checksBrackets || (bracketed? t).all HostAddress.isValid) &&
    t.all fun c => !disguises.contains c.toNat

/-- The text behind the last `sep`, or all of it. -/
def behindLast (sep : Char) (t : Text) : Text := (t.reverse.takeWhile (· ≠ sep)).reverse

/-- The host of an authority: behind the user, and in brackets or before a colon. -/
def hostOf (authority : Text) : Text :=
  let t := behindLast '@' authority
  (bracketed? t).getD (t.takeWhile (· ≠ ':'))

/-- A host in small letters, up to the mark in front of a zone. -/
def lowerHost (host : Text) : Text :=
  Text.lower (host.takeWhile (· ≠ '%')) ++ host.dropWhile (· ≠ '%')

/-! ## 3. Domains -/

/-- The host of an address without `www.` in front; none if there is no host or the address
is not well formed. -/
def domain? (rules : Rules) (t : Text) : Option Text :=
  let a := authority rules t
  if isProper rules a then
    let host := lowerHost (hostOf a)
    Text.nonempty? ((after? "www.".toList host).getD host)
  else none

/-- Labels that are part of the public suffix in front of a country code. -/
def secondLevel : List Text :=
  ["co".toList, "com".toList, "net".toList, "org".toList, "gov".toList, "edu".toList,
    "ac".toList, "or".toList, "ne".toList, "go".toList, "gv".toList]

/-- The label that tells whose domain it is: the one in front of the public suffix.  The
labels come last first. -/
def ownLabel : (reversed : List Text) → Text
  | [] => []
  | [only] => only
  | top :: second :: third :: _ =>
    if top.length = 2 && secondLevel.contains second then third else second
  | [_, second] => second

/-- The label that tells whose the host of an address is. -/
def domainShort? (rules : Rules) (t : Text) : Option Text :=
  (domain? rules t).map fun d => ownLabel (Text.splitAll '.' d).reverse

end Address
end CiteMarkup
