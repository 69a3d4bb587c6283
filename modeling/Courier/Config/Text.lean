import Courier.Config

/-!
The settings as a JSON text.

`parse` takes an object whose members are the settings by name, each at most once, or an array of the settings in
order; what is missing keeps its standard value. Members of other names are passed over, but have to be well formed;
inside them any escape of four hex digits will do. A number has to be whole, without sign, and below `2 ^ 64`. The
named settings are texts, or objects with that text as only key and null under it. Only blanks may stand around.

`render` writes all settings in order, without blanks.
-/

namespace Courier.Config

/-- what is left of a text -/
abbrev Chars := List Char

def isBlank (c : Char) : Bool :=
  c == ' ' || c == '\n' || c == '\t' || c == '\r'

/-- the text after its blanks -/
def skipBlanks (s : Chars) : Chars :=
  s.dropWhile isBlank

/-- the text after blanks and the given character -/
def expect (c : Char) (s : Chars) : Option Chars :=
  match skipBlanks s with
  | d :: rest => if d = c then some rest else none
  | [] => none

/-- the text after a given word -/
def expectWord : Chars → Chars → Option Chars
  | [], s => some s
  | c :: cs, d :: s => if c = d then expectWord cs s else none
  | _ :: _, [] => none

/-- the number that a hex digit is -/
def hexDigit (c : Char) : Option Nat :=
  if '0' ≤ c ∧ c ≤ '9' then some (c.toNat - '0'.toNat)
  else if 'a' ≤ c ∧ c ≤ 'f' then some (c.toNat - 'a'.toNat + 10)
  else if 'A' ≤ c ∧ c ≤ 'F' then some (c.toNat - 'A'.toNat + 10)
  else none

/-- the number of four hex digits, and what follows them -/
def hexUnit : Chars → Option (Nat × Chars)
  | a :: b :: c :: d :: rest => do
    let a ← hexDigit a
    let b ← hexDigit b
    let c ← hexDigit c
    let d ← hexDigit d
    return (4096 * a + 256 * b + 16 * c + d, rest)
  | _ => none

/-- the character that a short escape stands for -/
def shortEscape (c : Char) : Option Char :=
  match c with
  | '"' => some '"'
  | '\\' => some '\\'
  | '/' => some '/'
  | 'b' => some '\x08'
  | 'f' => some '\x0c'
  | 'n' => some '\n'
  | 'r' => some '\r'
  | 't' => some '\t'
  | _ => none

/-- the character of an escape by number, and what follows it; the halves of a pair have to stand together -/
def longEscape (s : Chars) : Option (Char × Chars) := do
  let (hi, rest) ← hexUnit s
  if 0xDC00 ≤ hi ∧ hi ≤ 0xDFFF then none
  else if 0xD800 ≤ hi ∧ hi ≤ 0xDBFF then
    match rest with
    | '\\' :: 'u' :: rest => do
      let (lo, rest) ← hexUnit rest
      if 0xDC00 ≤ lo ∧ lo ≤ 0xDFFF then
        return (Char.ofNat (0x10000 + (hi - 0xD800) * 0x400 + (lo - 0xDC00)), rest)
      else none
    | _ => none
  else return (Char.ofNat hi, rest)

/-- a text up to its closing quote, and what follows it; no more than `fuel` characters and escapes -/
def textBody : Nat → Chars → Option (Chars × Chars)
  | 0, _ => none
  | _ + 1, [] => none
  | fuel + 1, c :: rest =>
    if c = '"' then some ([], rest)
    else if c = '\\' then
      match rest with
      | 'u' :: rest => do
        let (d, rest) ← longEscape rest
        let (ds, rest) ← textBody fuel rest
        return (d :: ds, rest)
      | e :: rest => do
        let d ← shortEscape e
        let (ds, rest) ← textBody fuel rest
        return (d :: ds, rest)
      | [] => none
    else if c.toNat < 0x20 then none
    else do
      let (ds, rest) ← textBody fuel rest
      return (c :: ds, rest)

/-- a text with its quotes, and what follows it -/
def text (s : Chars) : Option (String × Chars) := do
  let rest ← expect '"' s
  let (cs, rest) ← textBody (rest.length + 1) rest
  return (String.ofList cs, rest)

/-- passes over a text up to its closing quote -/
def skipText : Nat → Chars → Option Chars
  | 0, _ => none
  | _ + 1, [] => none
  | fuel + 1, c :: rest =>
    if c = '"' then some rest
    else if c = '\\' then
      match rest with
      | 'u' :: rest => do
        let (_, rest) ← hexUnit rest
        skipText fuel rest
      | e :: rest => do
        let _ ← shortEscape e
        skipText fuel rest
      | [] => none
    else if c.toNat < 0x20 then none
    else skipText fuel rest

/-- passes over at least one digit -/
def skipDigits (s : Chars) : Option Chars :=
  match s with
  | c :: rest => if c.isDigit then some (rest.dropWhile Char.isDigit) else none
  | [] => none

/-- passes over the digits in front of a point: a zero stands alone -/
def skipWhole (s : Chars) : Option Chars :=
  match s with
  | '0' :: rest =>
    match rest with
    | c :: _ => if c.isDigit then none else some rest
    | [] => some rest
  | _ => skipDigits s

/-- passes over a point with its digits, if there is one -/
def skipFraction (s : Chars) : Option Chars :=
  match s with
  | '.' :: rest => skipDigits rest
  | _ => some s

/-- passes over an exponent, if there is one -/
def skipExponent (s : Chars) : Option Chars :=
  match s with
  | c :: rest =>
    if c = 'e' ∨ c = 'E' then
      match rest with
      | d :: more => if d = '+' ∨ d = '-' then skipDigits more else skipDigits rest
      | [] => none
    else some s
  | [] => some s

/-- passes over a number without its sign -/
def skipNumber (s : Chars) : Option Chars := do
  skipExponent (← skipFraction (← skipWhole s))

mutual

/-- passes over a value of any kind -/
def skipValue : Nat → Chars → Option Chars
  | 0, _ => none
  | fuel + 1, s =>
    match skipBlanks s with
    | [] => none
    | c :: rest =>
      if c = 'n' then expectWord ['u', 'l', 'l'] rest
      else if c = 't' then expectWord ['r', 'u', 'e'] rest
      else if c = 'f' then expectWord ['a', 'l', 's', 'e'] rest
      else if c = '"' then skipText (rest.length + 1) rest
      else if c = '-' then skipNumber rest
      else if c = '[' then
        match skipBlanks rest with
        | ']' :: rest => some rest
        | _ => skipItems fuel rest
      else if c = '\x7b' then
        match skipBlanks rest with
        | '\x7d' :: rest => some rest
        | _ => skipMembers fuel rest
      else skipNumber (c :: rest)

/-- passes over values up to the end of their array -/
def skipItems : Nat → Chars → Option Chars
  | 0, _ => none
  | fuel + 1, s => do
    let s ← skipValue fuel s
    match skipBlanks s with
    | ',' :: rest => skipItems fuel rest
    | ']' :: rest => some rest
    | _ => none

/-- passes over members up to the end of their object -/
def skipMembers : Nat → Chars → Option Chars
  | 0, _ => none
  | fuel + 1, s => do
    let s ← expect '"' s
    let s ← skipText (s.length + 1) s
    let s ← expect ':' s
    let s ← skipValue fuel s
    match skipBlanks s with
    | ',' :: rest => skipMembers fuel rest
    | '\x7d' :: rest => some rest
    | _ => none

end

/-- the number that digits spell -/
def digitsValue (ds : Chars) : Nat :=
  ds.foldl (fun n d => 10 * n + (d.toNat - '0'.toNat)) 0

/-- a size: a whole number below `2 ^ 64`, with no point and no exponent behind it -/
def size (s : Chars) : Option (Nat × Chars) := do
  let s := skipBlanks s
  let rest ← skipWhole s
  let n := digitsValue (s.takeWhile Char.isDigit)
  match rest with
  | c :: _ => if c = '.' ∨ c = 'e' ∨ c = 'E' then none
  | [] => pure ()
  if n ≤ maxSize then return (n, rest) else none

/-- one of some named settings: its name, or an object with null under its name -/
def choice {α : Type} (names : List (String × α)) (s : Chars) : Option (α × Chars) := do
  let named := fun t : String => (names.find? fun e => e.1 == t).map Prod.snd
  match skipBlanks s with
  | '\x7b' :: rest => do
    let (t, rest) ← text rest
    let a ← named t
    let rest ← expect ':' rest
    let rest ← expectWord ['n', 'u', 'l', 'l'] (skipBlanks rest)
    let rest ← expect '\x7d' rest
    return (a, rest)
  | _ => do
    let (t, rest) ← text s
    return (← named t, rest)

def orders : List (String × ByteOrder) :=
  [("little", .little), ("big", .big)]

def scopes : List (String × CacheScope) :=
  [("handler", .handler), ("thread", .thread)]

/-- the settings that a text has given so far -/
structure Given where
  byteOrder : Option ByteOrder
  initialBufferSize : Option Nat
  initialStateDepth : Option Nat
  maxCachedBuffer : Option Nat
  maxLength : Option Nat
  cacheScope : Option CacheScope

/-- no setting at all -/
def Given.none : Given :=
  ⟨.none, .none, .none, .none, .none, .none⟩

/-- the settings that a text has given, and standard ones for the others -/
def Given.toConfig (g : Given) : Config where
  byteOrder := g.byteOrder.getD standard.byteOrder
  initialBufferSize := g.initialBufferSize.getD standard.initialBufferSize
  initialStateDepth := g.initialStateDepth.getD standard.initialStateDepth
  maxCachedBuffer := g.maxCachedBuffer.getD standard.maxCachedBuffer
  maxLength := g.maxLength.getD standard.maxLength
  cacheScope := g.cacheScope.getD standard.cacheScope

/-- a setting that has not been given yet -/
def once {α : Type} (old : Option α) (r : Option (α × Chars)) : Option (Option α × Chars) :=
  if old.isSome then none else r.map fun (a, s) => (some a, s)

/-- the value of the member `name`; a setting that comes twice is refused -/
def member (g : Given) (name : String) (s : Chars) : Option (Given × Chars) :=
  match name with
  | "byte_order" => (once g.byteOrder (choice orders s)).map fun (v, s) => ({ g with byteOrder := v }, s)
  | "initial_buffer_size" =>
    (once g.initialBufferSize (size s)).map fun (v, s) => ({ g with initialBufferSize := v }, s)
  | "initial_state_depth" =>
    (once g.initialStateDepth (size s)).map fun (v, s) => ({ g with initialStateDepth := v }, s)
  | "max_cached_buffer" => (once g.maxCachedBuffer (size s)).map fun (v, s) => ({ g with maxCachedBuffer := v }, s)
  | "max_length" => (once g.maxLength (size s)).map fun (v, s) => ({ g with maxLength := v }, s)
  | "cache_scope" => (once g.cacheScope (choice scopes s)).map fun (v, s) => ({ g with cacheScope := v }, s)
  | _ => (skipValue (s.length + 1) s).map fun s => (g, s)

/-- members up to the end of the object -/
def members : Nat → Given → Chars → Option (Given × Chars)
  | 0, _, _ => none
  | fuel + 1, g, s => do
    let (name, s) ← text s
    let s ← expect ':' s
    let (g, s) ← member g name s
    match skipBlanks s with
    | ',' :: rest => members fuel g rest
    | '\x7d' :: rest => some (g, rest)
    | _ => none

/-- the names of the settings, in order -/
def names : List String :=
  ["byte_order", "initial_buffer_size", "initial_state_depth", "max_cached_buffer", "max_length", "cache_scope"]

/-- the settings of these names up to the end of the array -/
def elements : List String → Given → Chars → Option (Given × Chars)
  | [], _, _ => none
  | name :: more, g, s => do
    let (g, s) ← member g name s
    match skipBlanks s with
    | ',' :: rest => elements more g rest
    | ']' :: rest => some (g, rest)
    | _ => none

/-- the settings that a whole text gives -/
def given (s : Chars) : Option Given := do
  let (g, rest) ← match skipBlanks s with
    | '\x7b' :: rest =>
      match skipBlanks rest with
      | '\x7d' :: rest => some (Given.none, rest)
      | _ => members (rest.length + 1) .none rest
    | '[' :: rest =>
      match skipBlanks rest with
      | ']' :: rest => some (Given.none, rest)
      | _ => elements names .none rest
    | _ => none
  if (skipBlanks rest).isEmpty then some g else none

/-- the settings that a text gives, within their bounds -/
def parse (s : String) : Except WireError Config :=
  match given s.toList with
  | some g => .ok g.toConfig.normalize
  | none => .error .config

/-- how a byte order is called -/
def orderName : ByteOrder → String
  | .little => "little"
  | .big => "big"

/-- how a cache scope is called -/
def scopeName : CacheScope → String
  | .handler => "handler"
  | .thread => "thread"

/-- the settings as a text -/
def render (c : Config) : String :=
  "\x7b\"byte_order\":\"" ++ orderName c.byteOrder
    ++ "\",\"initial_buffer_size\":" ++ toString c.initialBufferSize
    ++ ",\"initial_state_depth\":" ++ toString c.initialStateDepth
    ++ ",\"max_cached_buffer\":" ++ toString c.maxCachedBuffer
    ++ ",\"max_length\":" ++ toString c.maxLength
    ++ ",\"cache_scope\":\"" ++ scopeName c.cacheScope ++ "\"\x7d"

end Courier.Config
