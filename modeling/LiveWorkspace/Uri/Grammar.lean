/-
  LiveWorkspace/Uri/Grammar.lean
  ==============================
  **The generic grammar of URIs, as a decision on characters.**

  A URI is a scheme, an optional authority, a path, and an optional query and
  fragment.  The parts are cut apart at the first delimiter that can end them, so
  that the whole grammar reduces to a character class for each part; only the
  addresses in brackets need a count of their groups.
-/
import LiveWorkspace.Text.Hex

namespace LiveWorkspace.Uri

open Text (isHex)

/-! ### Character classes -/

def isAlpha (c : Char) : Bool := ('a' ≤ c ∧ c ≤ 'z') ∨ ('A' ≤ c ∧ c ≤ 'Z')

def isDigit (c : Char) : Bool := '0' ≤ c ∧ c ≤ '9'

def isUnreserved (c : Char) : Bool :=
  isAlpha c || isDigit c || ['-', '.', '_', '~'].contains c

def isSubDelim (c : Char) : Bool :=
  ['!', '$', '&', '\'', '(', ')', '*', '+', ',', ';', '='].contains c

def isPathChar (c : Char) : Bool :=
  isUnreserved c || isSubDelim c || [':', '@', '/'].contains c

def isQueryChar (c : Char) : Bool := isPathChar c || c == '?'

/-- Only characters of a class, and escapes of two hexadecimal digits. -/
def allOrEscaped (allowed : Char → Bool) : List Char → Bool
  | [] => true
  | '%' :: a :: b :: rest => isHex a && isHex b && allOrEscaped allowed rest
  | c :: rest => c != '%' && allowed c && allOrEscaped allowed rest

/-! ### The grammar -/

/-- What precedes the first `sep`, and what follows it if there is one. -/
def cutAt (sep : Char) (cs : List Char) : List Char × Option (List Char) :=
  (cs.takeWhile (· ≠ sep), match cs.dropWhile (· ≠ sep) with
    | [] => none
    | _ :: rest => some rest)

/-- The texts between the separators `sep`. -/
def splitAt (sep : Char) : List Char → List (List Char)
  | [] => [[]]
  | c :: rest =>
    if c = sep then [] :: splitAt sep rest
    else match splitAt sep rest with
      | [] => [[c]]
      | first :: more => (c :: first) :: more

def isScheme : List Char → Bool
  | [] => false
  | c :: rest => isAlpha c && rest.all fun d => isAlpha d || isDigit d || ['+', '-', '.'].contains d

/-- A decimal octet without a leading zero. -/
def isDecimalOctet (cs : List Char) : Bool :=
  !cs.isEmpty && cs.all isDigit && (cs.length == 1 || cs.head? != some '0') && cs.length ≤ 3
    && cs.foldl (fun n c => n * 10 + (c.toNat - '0'.toNat)) 0 ≤ 255

def isIPv4 (cs : List Char) : Bool :=
  let octets := splitAt '.' cs
  octets.length == 4 && octets.all isDecimalOctet

/-- The number of 16-bit groups in a run of groups between colons, of which the last
    one may be written as an IPv4 address when `tail` is set. -/
def groupCount? (tail : Bool) (cs : List Char) : Option Nat :=
  if cs.isEmpty then some 0
  else
    let groups := splitAt ':' cs
    let isGroup (g : List Char) := !g.isEmpty && g.length ≤ 4 && g.all isHex
    if groups.all isGroup then some groups.length
    else if tail && groups.dropLast.all isGroup && isIPv4 (groups.getLast?.getD []) then
      some (groups.length + 1)
    else none

/-- The texts on both sides of the first `::`. -/
def cutAtElision : List Char → Option (List Char × List Char)
  | ':' :: ':' :: rest => some ([], rest)
  | c :: rest => (cutAtElision rest).map fun (before, after) => (c :: before, after)
  | [] => none

def isIPv6 (cs : List Char) : Bool :=
  match cutAtElision cs with
  | none => groupCount? true cs == some 8
  | some (before, after) =>
    match groupCount? false before, groupCount? true after with
    | some m, some n => m + n ≤ 7
    | _, _ => false

def isIPvFuture : List Char → Bool
  | v :: rest =>
    let (version, address) := cutAt '.' rest
    (v == 'v' || v == 'V') && !version.isEmpty && version.all isHex
      && match address with
        | none => false
        | some a => !a.isEmpty && a.all fun c => isUnreserved c || isSubDelim c || c == ':'
  | [] => false

/-- What may stand behind the colon after a host, if there is a colon. -/
def areDigits : Option (List Char) → Bool
  | none => true
  | some digits => digits.all isDigit

/-- A host, and perhaps a colon with digits. -/
def isHostWithNumber (cs : List Char) : Bool :=
  match cs with
  | '[' :: rest =>
    let (address, after) := cutAt ']' rest
    (isIPv6 address || isIPvFuture address)
      && match after with
        | none => false
        | some [] => true
        | some (':' :: digits) => digits.all isDigit
        | some _ => false
  | _ =>
    let (host, number) := cutAt ':' cs
    allOrEscaped (fun c => isUnreserved c || isSubDelim c) host && areDigits number

/-- User information, if any, and a host. -/
def isAuthority (cs : List Char) : Bool :=
  match cutAt '@' cs with
  | (user, some host) =>
    allOrEscaped (fun c => isUnreserved c || isSubDelim c || c == ':') user && isHostWithNumber host
  | (_, none) => isHostWithNumber cs

/-- What stands between the scheme and the query. -/
def isHierPart : List Char → Bool
  | '/' :: '/' :: rest =>
    isAuthority (rest.takeWhile (· ≠ '/')) && allOrEscaped isPathChar (rest.dropWhile (· ≠ '/'))
  | path => allOrEscaped isPathChar path

/-- Whether the generic grammar derives a text. -/
def derives (text : String) : Bool :=
  let (front, fragment) := cutAt '#' text.toList
  let (front, query) := cutAt '?' front
  let (scheme, hier) := cutAt ':' front
  isScheme scheme
    && (match hier with
      | none => false
      | some h => isHierPart h)
    && (match query with
      | none => true
      | some q => allOrEscaped isQueryChar q)
    && (match fragment with
      | none => true
      | some f => allOrEscaped isQueryChar f)

end LiveWorkspace.Uri
