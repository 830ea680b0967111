import Straightline.Toml.Text

/-!
# Reading a document

A document is a sequence of expressions, one to a line: blank lines and comments, table headers, and
keys with their values. `parse` gives the expressions in order, up to the place where the document
is malformed if there is one: what stands before it still counts. Recursion is bounded by the length
of the document, because every step takes a character off it.
-/

set_option autoImplicit false

namespace Straightline.Toml

/-- Blanks, comments and line ends between the items of an array. -/
def skipFiller : Nat → List Char → Option (List Char)
  | 0, cs => some cs
  | steps + 1, cs =>
    match skipBlanks cs with
    | '#' :: rest =>
      match comment rest with
      | some rest => skipFiller steps rest
      | none => none
    | '\n' :: rest => skipFiller steps rest
    | '\r' :: '\n' :: rest => skipFiller steps rest
    | rest => some rest

/-- Whether the text begins with the given word. -/
def beginsWith (word : String) (cs : List Char) : Bool := word.toList.isPrefixOf cs

/-- A number without a base mark: everything that can be part of one, which also covers infinity and
not-a-number after a sign. `done` is what has been read, backwards. -/
def plainNumber (isFloat : Bool) : List Char → List Char → Reading Value
  | done, [] =>
    if done.isEmpty then none
    else some (if isFloat then .float done.reverse else .integer done.reverse, [])
  | done, c :: rest =>
    if Numeral.isDigit c || c = '+' || c = '-' || c = '_' then plainNumber isFloat (c :: done) rest
    else if c = '.' || c = 'e' || c = 'E' then plainNumber true (c :: done) rest
    else if c = 'i' || c = 'n' then
      if beginsWith "inf" (c :: rest) || beginsWith "nan" (c :: rest) then
        some (.float (done.reverse ++ (c :: rest).take 3), rest.drop 2)
      else none
    else if done.isEmpty then none
    else some (if isFloat then .float done.reverse else .integer done.reverse, c :: rest)

/-- A number with a base mark, or the digit zero by itself. -/
def markedNumber (mark : Char) (rest : List Char) : Value × List Char :=
  let base := if mark = 'x' then 16 else if mark = 'o' then 8 else if mark = 'b' then 2 else 0
  let isPlace (c : Char) : Bool := Numeral.isDigitIn base c || c = '_'
  if base = 0 then (.integer ['0'], mark :: rest)
  else (.integer ('0' :: mark :: rest.takeWhile isPlace), rest.dropWhile isPlace)

/-- An integer or a float. -/
def number (cs : List Char) : Reading Value :=
  match cs with
  | '0' :: mark :: c :: rest =>
    if mark = '.' || mark = 'e' || mark = 'E' then plainNumber false [] cs
    else some (markedNumber mark (c :: rest))
  | _ => plainNumber false [] cs

/-- The text of a date or a time: digits and marks, with at most one space, before a digit. The
character after that digit belongs to the text if it is of ASCII, whatever it is. -/
def momentText (seenSpace : Bool) : List Char → List Char → List Char × List Char
  | done, ' ' :: d :: c :: rest =>
    if seenSpace || !Numeral.isDigit d then (done.reverse, ' ' :: d :: c :: rest)
    else if c.toNat < 0x80 then momentText true (c :: d :: ' ' :: done) rest
    else (done.reverse ++ [' ', d], c :: rest)
  | done, c :: rest =>
    if Numeral.isDigit c || "-Tt:.+Zz".toList.contains c then momentText seenSpace (c :: done) rest
    else if c = ' ' && !seenSpace && rest.length = 1 && rest.all Numeral.isDigit then
      (done.reverse ++ c :: rest, [])
    else (done.reverse, c :: rest)
  | done, [] => (done.reverse, [])

/-- Whether a date or a time begins here: two digits and a colon, or four digits and a hyphen. -/
def beginsMoment (cs : List Char) : Bool :=
  match cs.takeWhile Numeral.isDigit, cs.dropWhile Numeral.isDigit with
  | [_, _], ':' :: _ => true
  | [_, _, _, _], '-' :: _ => true
  | _, _ => false

/-- A number, a date or a time. -/
def numberOrMoment (cs : List Char) : Reading Value :=
  match cs with
  | c :: rest =>
    if c = 'i' then if beginsWith "inf" cs then some (.float (cs.take 3), rest.drop 2) else none
    else if c = 'n' then
      if beginsWith "nan" cs then some (.float (cs.take 3), rest.drop 2) else none
    else if beginsMoment cs then
      let (token, rest) := momentText false [] cs
      some (.moment token, rest)
    else number cs
  | [] => none

mutual

/-- Any value. -/
def value : Nat → List Char → Reading Value
  | 0, _ => none
  | steps + 1, cs =>
    match cs with
    | [] => none
    | '"' :: '"' :: '"' :: rest => (longString '"' true rest).map fun (s, rest) => (.text s, rest)
    | '"' :: rest => (basicString rest).map fun (s, rest) => (.text s, rest)
    | '\'' :: '\'' :: '\'' :: rest =>
      (longString '\'' false rest).map fun (s, rest) => (.text s, rest)
    | '\'' :: rest => (literalString rest).map fun (s, rest) => (.text s, rest)
    | 't' :: rest => if beginsWith "rue" rest then some (.bool true, rest.drop 3) else none
    | 'f' :: rest => if beginsWith "alse" rest then some (.bool false, rest.drop 4) else none
    | '[' :: rest => (arrayItems steps true rest).map fun (vs, rest) => (.array vs, rest)
    | '\x7b' :: rest => (inlineEntries steps true rest).map fun (es, rest) => (.table es, rest)
    | _ => numberOrMoment cs

/-- The items of an array and its closing bracket. A comma may follow the last item. -/
def arrayItems : Nat → Bool → List Char → Reading (List Value)
  | 0, _, _ => none
  | steps + 1, first, cs =>
    match skipFiller cs.length cs with
    | none => none
    | some [] => none
    | some (c :: rest) =>
      if c = ']' then some ([], rest)
      else if c = ',' && first then none
      else if c ≠ ',' && !first then none
      else
        match if c = ',' then skipFiller rest.length rest else some (c :: rest) with
        | none => none
        | some (']' :: rest) => some ([], rest)
        | some rest =>
          match value steps rest with
          | none => none
          | some (v, rest) =>
            match arrayItems steps false rest with
            | none => none
            | some (vs, rest) => some (v :: vs, rest)

/-- The entries of an inline table and its closing brace, on one line. -/
def inlineEntries : Nat → Bool → List Char → Reading (List (Key × Value))
  | 0, _, _ => none
  | steps + 1, first, cs =>
    match skipBlanks cs with
    | [] => none
    | c :: rest =>
      if c = '\x7d' then some ([], rest)
      else
        match if first then some (c :: rest) else (expect ',' (c :: rest)).map skipBlanks with
        | none => none
        | some rest =>
          match keyValue steps rest with
          | none => none
          | some (e, rest) =>
            match inlineEntries steps false rest with
            | none => none
            | some (es, rest) => some (e :: es, rest)

/-- A key, an equals sign and a value. -/
def keyValue : Nat → List Char → Reading (Key × Value)
  | 0, _ => none
  | steps + 1, cs =>
    match key cs with
    | none => none
    | some (k, rest) =>
      match expect '=' (skipBlanks rest) with
      | none => none
      | some rest =>
        match value steps (skipBlanks rest) with
        | none => none
        | some (v, rest) => some ((k, v), rest)

end

/-- A table header: a key between single or double brackets. -/
def header (cs : List Char) : Reading Expression :=
  match cs with
  | '[' :: '[' :: rest =>
    match key (skipBlanks rest) with
    | none => none
    | some (k, rest) =>
      ((expect ']' (skipBlanks rest)).bind (expect ']')).map fun rest => (.arrayTable k, rest)
  | '[' :: rest =>
    match key (skipBlanks rest) with
    | none => none
    | some (k, rest) => (expect ']' (skipBlanks rest)).map fun rest => (.table k, rest)
  | _ => none

/-- What stands on one line up to its comment or end: nothing, a header, or a key and value. -/
def lineContent (cs : List Char) : Reading (Option Expression) :=
  match cs with
  | [] => some (none, [])
  | c :: rest =>
    if c = '#' || c = '\n' || c = '\r' then some (none, c :: rest)
    else if c = '[' then (header cs).map fun (e, rest) => (some e, rest)
    else (keyValue (2 * cs.length + 2) cs).map fun ((k, v), rest) => (some (.keyValue k v), rest)

/-- Blanks and a comment after the content of a line. -/
def lineComment (cs : List Char) : Option (List Char) :=
  match skipBlanks cs with
  | '#' :: rest => comment rest
  | rest => some rest

/-- A line with its comment, but without its line end. -/
def line (cs : List Char) : Reading (Option Expression) :=
  match lineContent (skipBlanks cs) with
  | none => none
  | some (content, rest) => (lineComment rest).map (content, ·)

/-- The document of at most the given number of lines. A line counts before its line end has been
looked at. -/
def documentOfLines : Nat → List Char → Document
  | 0, _ => { complete := false }
  | _ + 1, [] => {}
  | steps + 1, c :: rest =>
    match line (c :: rest) with
    | none => { complete := false }
    | some (content, []) => { expressions := content.toList }
    | some (content, rest) =>
      match newline rest with
      | none => { expressions := content.toList, complete := false }
      | some rest =>
        let d := documentOfLines steps rest
        { d with expressions := content.toList ++ d.expressions }

/-- Reads a document. -/
def parse (text : String) : Document := documentOfLines (text.toList.length + 1) text.toList

end Straightline.Toml
