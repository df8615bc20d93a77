import TypedStack.Options

/-! Options as TOML text: one setting a line, each at most once, both of them booleans. Every
other thing that TOML can say (tables, dotted keys, values of another type, keys that name no
option) is not an options text. -/
namespace TypedStack.Options

inductive LoadError where
  | unreadable
  | malformed
  deriving DecidableEq, Repr

namespace Toml

def isBlank (c : Char) : Bool := c == ' ' || c == '\t'

/-- Characters a comment or a quoted key may hold as they are: no control character but tab. -/
def isPlain (c : Char) : Bool := c == '\t' || (0x20 ≤ c.toNat && c.toNat != 0x7f)

def isBareKey (c : Char) : Bool := c.isAlphanum || c == '-' || c == '_'

def skipBlanks (s : List Char) : List Char := s.dropWhile isBlank

def hexDigit? (c : Char) : Option Nat :=
  if '0' ≤ c ∧ c ≤ '9' then some (c.toNat - '0'.toNat)
  else if 'a' ≤ c ∧ c ≤ 'f' then some (c.toNat - 'a'.toNat + 10)
  else if 'A' ≤ c ∧ c ≤ 'F' then some (c.toNat - 'A'.toNat + 10)
  else none

def codePoint? (digits : List Char) : Option Char := do
  let ds ← digits.mapM hexDigit?
  let n := ds.foldl (fun n d => 16 * n + d) 0
  if n.isValidChar then some (Char.ofNat n) else none

def escape? : Char → Option Char
  | 'b' => some '\x08'
  | 't' => some '\t'
  | 'n' => some '\n'
  | 'f' => some '\x0c'
  | 'r' => some '\r'
  | '\x22' => some '\x22'
  | '\\' => some '\\'
  | _ => none

def quoted? : List Char → Option (List Char × List Char)
  | '\x22' :: rest => some ([], rest)
  | '\\' :: 'u' :: a :: b :: c :: d :: rest => do
    let ch ← codePoint? [a, b, c, d]
    let (key, rest) ← quoted? rest
    return (ch :: key, rest)
  | '\\' :: 'U' :: a :: b :: c :: d :: e :: f :: g :: h :: rest => do
    let ch ← codePoint? [a, b, c, d, e, f, g, h]
    let (key, rest) ← quoted? rest
    return (ch :: key, rest)
  | '\\' :: c :: rest => do
    let ch ← escape? c
    let (key, rest) ← quoted? rest
    return (ch :: key, rest)
  | c :: rest => do
    guard (isPlain c && c != '\\')
    let (key, rest) ← quoted? rest
    return (c :: key, rest)
  | [] => none

/-- The rest of a key in single quotes, which knows no escapes, and what follows it. -/
def verbatim? : List Char → Option (List Char × List Char)
  | '\x27' :: rest => some ([], rest)
  | c :: rest => do
    guard (isPlain c)
    let (key, rest) ← verbatim? rest
    return (c :: key, rest)
  | [] => none

def key? : List Char → Option (String × List Char)
  | '\x22' :: rest => (quoted? rest).map fun (key, rest) => (String.ofList key, rest)
  | '\x27' :: rest => (verbatim? rest).map fun (key, rest) => (String.ofList key, rest)
  | s =>
    let key := s.takeWhile isBareKey
    if key.isEmpty then none else some (String.ofList key, s.dropWhile isBareKey)

def value? : List Char → Option (Bool × List Char)
  | 't' :: 'r' :: 'u' :: 'e' :: rest => some (true, rest)
  | 'f' :: 'a' :: 'l' :: 's' :: 'e' :: rest => some (false, rest)
  | _ => none

/-- Nothing is left of a line but blanks and a comment. -/
def isRest (s : List Char) : Bool :=
  match skipBlanks s with
  | [] => true
  | '#' :: comment => comment.all isPlain
  | _ => false

/-- A line is a setting, or holds none. -/
def line? (s : List Char) : Option (Option (String × Bool)) :=
  if isRest s then some none
  else do
    let (key, s) ← key? (skipBlanks s)
    let '=' :: s := skipBlanks s | none
    let (value, s) ← value? (skipBlanks s)
    guard (isRest s)
    return some (key, value)

/-- A line ends with a line feed, a carriage return before it being part of the end. -/
def lines : List Char → List (List Char)
  | [] => [[]]
  | '\n' :: rest => [] :: lines rest
  | '\r' :: '\n' :: rest => [] :: lines rest
  | c :: rest =>
    match lines rest with
    | line :: more => (c :: line) :: more
    | [] => [[c]]

structure Settings where
  verifierCompat : Option Bool
  blobInitializers : Option Bool

def Settings.add? (s : Settings) : Option (String × Bool) → Option Settings
  | none => some s
  | some ("verifier_compat", b) =>
    if s.verifierCompat.isSome then none else some { s with verifierCompat := some b }
  | some ("supports_blob_initializers", b) =>
    if s.blobInitializers.isSome then none else some { s with blobInitializers := some b }
  | some _ => none

def settings? (text : String) : Option Settings := do
  let chars := match text.toList with
    | '\ufeff' :: rest => rest
    | chars => chars
  let found ← (lines chars).mapM line?
  found.foldlM Settings.add? ⟨none, none⟩

end Toml

def ofToml (text : String) : Except LoadError Options :=
  match Toml.settings? text with
  | some s => .ok ⟨s.verifierCompat.getD standard.verifierCompat,
      s.blobInitializers.getD standard.blobInitializers⟩
  | none => .error .malformed

def ofFile (contents : Option String) : Except LoadError Options :=
  match contents with
  | some text => ofToml text
  | none => .error .unreadable

def toml (o : Options) : String :=
  s!"verifier_compat = {o.verifierCompat}\nsupports_blob_initializers = {o.blobInitializers}\n"

end TypedStack.Options
