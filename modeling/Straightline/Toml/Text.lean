import Straightline.Numeral.Digits
import Straightline.Toml.Value

/-!
# Strings and keys of a document

The four kinds of strings, comments, line ends and keys. Every reader takes the rest of the document
and gives what it read with what is left, or nothing if the document is malformed there.
-/

set_option autoImplicit false

namespace Straightline.Toml

/-- What a reader gives: what it read and what is left. -/
abbrev Reading (α : Type) := Option (α × List Char)

/-- Drops the given character. -/
def expect (c : Char) : List Char → Option (List Char)
  | d :: rest => if d = c then some rest else none
  | [] => none

/-- Space and tab. -/
def isBlank (c : Char) : Bool := c = ' ' || c = '\t'

/-- Drops spaces and tabs. -/
def skipBlanks (cs : List Char) : List Char := cs.dropWhile isBlank

/-- Control characters may not appear in a document, except tabs and line ends. -/
def isAllowed (c : Char) : Bool := c = '\t' || (0x20 ≤ c.toNat && c.toNat ≠ 0x7f)

/-- A line end. -/
def newline : List Char → Option (List Char)
  | '\n' :: rest => some rest
  | '\r' :: '\n' :: rest => some rest
  | _ => none

/-- A comment, after its mark and up to the line end. -/
def comment : List Char → Option (List Char)
  | [] => some []
  | '\n' :: rest => some ('\n' :: rest)
  | '\r' :: '\n' :: rest => some ('\n' :: rest)
  | c :: rest => if isAllowed c then comment rest else none

/-- The character that a one-letter escape stands for. -/
def escape? (c : Char) : Option Char :=
  match c with
  | '"' => some '"'
  | '\\' => some '\\'
  | 'b' => some '\x08'
  | 'e' => some '\x1b'
  | 'f' => some '\x0c'
  | 'n' => some '\n'
  | 'r' => some '\r'
  | 't' => some '\t'
  | _ => none

/-- The character with a code point in hexadecimal. -/
def codePoint? (digits : List Char) : Option Char :=
  let n := Numeral.digitsValue 16 digits
  if digits.all (Numeral.isDigitIn 16) ∧ n.isValidChar then some (Char.ofNat n) else none

/-- An escape, after the backslash. -/
def readEscape : List Char → Reading Char
  | 'u' :: rest =>
    if rest.length < 4 then none else (codePoint? (rest.take 4)).map (·, rest.drop 4)
  | 'U' :: rest =>
    if rest.length < 8 then none else (codePoint? (rest.take 8)).map (·, rest.drop 8)
  | c :: rest => (escape? c).map (·, rest)
  | [] => none

/-- The inside of a basic string up to its closing quote. `done` is what has been read, backwards;
the first argument bounds the number of steps. -/
def basicBody : Nat → List Char → List Char → Reading String
  | 0, _, _ => none
  | _ + 1, _, [] => none
  | steps + 1, done, c :: rest =>
    if c = '"' then some (String.ofList done.reverse, rest)
    else if c = '\\' then
      match readEscape rest with
      | some (e, rest) => basicBody steps (e :: done) rest
      | none => none
    else if isAllowed c then basicBody steps (c :: done) rest
    else none

/-- A basic string, after its opening quote. -/
def basicString (cs : List Char) : Reading String := basicBody (cs.length + 1) [] cs

/-- The inside of a literal string up to its closing quote. -/
def literalBody : List Char → List Char → Reading String
  | _, [] => none
  | done, c :: rest =>
    if c = '\'' then some (String.ofList done.reverse, rest)
    else if isAllowed c then literalBody (c :: done) rest
    else none

/-- A literal string, after its opening quote. -/
def literalString (cs : List Char) : Reading String := literalBody [] cs

/-- The end of a string over several lines, if it is here: three quotes, after at most two more that
belong to the string. Gives how many belong to it. More quotes than that are an error. -/
def closing (quote : Char) (cs : List Char) : Option (Option (Nat × List Char)) :=
  let run := (cs.takeWhile (· = quote)).length
  if run < 3 then some none
  else if 5 < run then none
  else some (some (run - 3, cs.drop run))

/-- A line end directly after the opening quotes does not count. -/
def dropFirstNewline (cs : List Char) : List Char := (newline cs).getD cs

/-- Drops spaces, tabs and line ends. -/
def skipLines : List Char → List Char
  | [] => []
  | '\r' :: '\n' :: rest => skipLines rest
  | c :: rest => if isBlank c || c = '\n' then skipLines rest else c :: rest

/-- The inside of a string over several lines. In a basic one, escapes are resolved, and a backslash
at the end of a line drops everything up to the next visible character. The first half of a line
end is refused everywhere if the second is missing. -/
def longBody (quote : Char) (escapes : Bool) : Nat → List Char → List Char → Reading String
  | 0, _, _ => none
  | _ + 1, _, [] => none
  | steps + 1, done, c :: rest =>
    if c = quote then
      match closing quote (c :: rest) with
      | none => none
      | some (some (extra, rest)) =>
        some (String.ofList (done.reverse ++ List.replicate extra quote), rest)
      | some none => longBody quote escapes steps (c :: done) rest
    else if escapes && c = '\\' then
      if (newline (skipBlanks rest)).isSome then
        longBody quote escapes steps done (skipLines rest)
      else
        match readEscape rest with
        | some (e, rest) => longBody quote escapes steps (e :: done) rest
        | none => none
    else if c = '\r' then
      match rest with
      | '\n' :: rest => longBody quote escapes steps ('\n' :: '\r' :: done) rest
      | _ => none
    else if c = '\n' || isAllowed c then longBody quote escapes steps (c :: done) rest
    else none

/-- A string over several lines, after its opening quotes. -/
def longString (quote : Char) (escapes : Bool) (cs : List Char) : Reading String :=
  longBody quote escapes (cs.length + 1) [] (dropFirstNewline cs)

/-- Letters, digits, hyphen and underscore. -/
def isBareKeyChar (c : Char) : Bool :=
  Numeral.isDigit c || ('a' ≤ c && c ≤ 'z') || ('A' ≤ c && c ≤ 'Z') || c = '-' || c = '_'

/-- One part of a key. -/
def simpleKey : List Char → Reading String
  | [] => none
  | c :: rest =>
    if c = '\'' then literalString rest
    else if c = '"' then basicString rest
    else if isBareKeyChar c then
      some (String.ofList ((c :: rest).takeWhile isBareKeyChar),
        (c :: rest).dropWhile isBareKeyChar)
    else none

/-- A key of at most the given number of parts, with blanks after it skipped. -/
def keyParts : Nat → List Char → Reading Key
  | 0, _ => none
  | steps + 1, cs =>
    match simpleKey cs with
    | none => none
    | some (part, rest) =>
      match skipBlanks rest with
      | '.' :: rest =>
        match keyParts steps (skipBlanks rest) with
        | none => none
        | some (parts, rest) => some (part :: parts, rest)
      | rest => some ([part], rest)

/-- A key. -/
def key (cs : List Char) : Reading Key := keyParts (cs.length + 1) cs

end Straightline.Toml
