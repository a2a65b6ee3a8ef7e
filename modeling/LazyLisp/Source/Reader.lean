import LazyLisp.Form
import LazyLisp.Source.CharLiteral
import LazyLisp.Source.Numeral

namespace LazyLisp.Source

inductive Mode where
  | normal
  | character
  | string
  | comment
  | keyword
  | qualifiedKeyword
  | number (n : Numeral)
  | decimal
  | radixNumber (n : Numeral)
deriving DecidableEq, Repr

inductive Bracket where
  | round | square | curly
deriving DecidableEq, Repr

def Bracket.closer : Bracket → Char
  | round => ')'
  | square => ']'
  | curly => '\x7d'

/-- A collection literal that is not closed yet, its latest item first, with the quote marks that wait
for the next item. -/
structure OpenForm where
  bracket : Bracket
  items : List Form
  quotes : Nat

def OpenForm.start (bracket : Bracket) : OpenForm := ⟨bracket, [], 0⟩

def OpenForm.close? (o : OpenForm) : Option Form :=
  match o.bracket with
  | .round => some (.list o.items.reverse)
  | .square => some (.vector o.items.reverse)
  | .curly => Form.mapOfItems? o.items.reverse

/-- The characters of the token under way come latest first, the open literals innermost first.
`quotes` are the quote marks outside all literals. -/
structure Reader where
  name : String
  cursor : Cursor
  mode : Mode
  token : List Char
  stack : List OpenForm
  quotes : Nat
  failed : Bool

inductive Step where
  | more (r : Reader)
  | form (f : Form) (r : Reader)
  | fault (reason : Reason) (r : Reader)

namespace Step

def reader? : Step → Option Reader
  | more r => some r
  | form _ r => some r
  | fault _ _ => none

@[simp] theorem reader?_more (r : Reader) : (more r).reader? = some r := rfl

@[simp] theorem reader?_form (f : Form) (r : Reader) : (form f r).reader? = some r := rfl

@[simp] theorem reader?_fault (reason : Reason) (r : Reader) : (fault reason r).reader? = none := rfl

end Step

def tokenForm (token : List Char) : Form :=
  if token = ['n', 'i', 'l'] then .atom .nil
  else if token = ['t', 'r', 'u', 'e'] then .atom (.bool true)
  else if token = ['f', 'a', 'l', 's', 'e'] then .atom (.bool false)
  else .symbol (String.ofList token)

def endsSymbol (c : Char) : Bool :=
  match c with
  | '(' | '[' | '\x7b' | ')' | ']' | '\x7d' | '\x27' | '\x60' | '^' | '@' | '&' | '~' | '\x22' | ';'
  | '\\' => true
  | _ => Text.isBlank c

namespace Reader

def start (text : String) (name : String) : Reader :=
  ⟨name, .start text.toList, .normal, [], [], 0, false⟩

def line (r : Reader) : Nat := r.cursor.line

def text (r : Reader) : String := String.ofList r.token.reverse

def push (r : Reader) (c : Char) : Reader := { r with token := c :: r.token }

def hold (r : Reader) (c : Char) : Reader := { r with cursor := r.cursor.hold c }

def cleared (r : Reader) : Reader := { r with mode := .normal, token := [] }

/-- Puts a form into the innermost open literal, or hands it out if none is open. The quote marks that
waited for it are applied. -/
def emit (r : Reader) (f : Form) : Step :=
  match r.stack with
  | o :: stack =>
    .more { r with stack := ⟨o.bracket, f.quotedTimes o.quotes :: o.items, 0⟩ :: stack }
  | [] => .form (f.quotedTimes r.quotes) { r with quotes := 0 }

def emitToken (r : Reader) : Step := r.cleared.emit (tokenForm r.token.reverse)

def emitString (r : Reader) : Step := r.cleared.emit (.atom (.str r.text))

def emitKeyword (r : Reader) : Step := r.cleared.emit (.atom (.keyword r.text))

def emitNumber (r : Reader) (n : Numeral) : Step :=
  if n.digits = 0 then .fault (.invalidNumber r.text) r
  else r.cleared.emit (.atom (.int n.value))

def quoteMark (r : Reader) : Reader :=
  match r.stack with
  | o :: stack => { r with stack := { o with quotes := o.quotes + 1 } :: stack }
  | [] => { r with quotes := r.quotes + 1 }

def openBracket (r : Reader) (b : Bracket) : Reader := { r with stack := .start b :: r.stack }

def closeBracket (r : Reader) (c : Char) : Step :=
  match r.stack with
  | [] => .fault (.unexpectedClose c) r
  | o :: stack =>
    if o.bracket.closer ≠ c then .fault (.mismatchedClose o.bracket.closer c) r
    else if o.quotes > 0 then .fault .quoteBeforeClose r
    else
      match o.close? with
      | some f => emit { r with stack := stack } f
      | none => .fault .oddMapEntries r

def pushDigit (r : Reader) (n : Numeral) (c : Char) (mode : Numeral → Mode) : Step :=
  match n.push c with
  | .ok n => .more { r.push c with mode := mode n }
  | .error .overflow => .fault (.numberTooLarge (r.push c).text) (r.push c)
  | .error .invalid => .fault (.invalidNumber (r.push c).text) (r.push c)

def inNumber (r : Reader) (n : Numeral) (c : Char) : Step :=
  if c.isDigit then r.pushDigit n c .number
  else if c = '.' then .more { r with mode := .decimal }
  else if c = 'r' ∨ c = 'R' then
    if n.magnitude < 2 ∨ 36 < n.magnitude then .fault (.invalidRadix n.magnitude) (r.push c)
    else .more { r.push c with mode := .radixNumber (n.inBase n.magnitude.toInt.toNat) }
  else if (c = 'x' ∨ c = 'X') ∧ n.digits = 1 ∧ n.value = 0 then
    .more { r.push c with mode := .radixNumber (n.inBase 16) }
  else if Text.isSeparator c then (r.hold c).emitNumber n
  else .fault (.invalidNumber (r.push c).text) (r.push c)

def inRadixNumber (r : Reader) (n : Numeral) (c : Char) : Step :=
  if c.isAlphanum then r.pushDigit n c .radixNumber
  else if Text.isSeparator c then (r.hold c).emitNumber n
  else .fault (.invalidNumber (r.push c).text) (r.push c)

def plain (r : Reader) (c : Char) : Step :=
  if Text.isBlank c then .more r
  else
    match c with
    | '(' => .more (r.openBracket .round)
    | '[' => .more (r.openBracket .square)
    | '\x7b' => .more (r.openBracket .curly)
    | ')' | ']' | '\x7d' => r.closeBracket c
    | '\x27' => .more r.quoteMark
    | '\x60' | '^' | '@' | '&' => r.emit (.symbol (String.singleton c))
    | '~' =>
      match r.cursor.take? with
      | some ('@', s) => emit { r with cursor := s } (.symbol "~@")
      | _ => r.emit (.symbol "~")
    | '\x22' => .more { r with mode := .string }
    | ';' => .more { r with mode := .comment }
    | '\\' => .more { r with mode := .character }
    | '-' =>
      if r.token = [] ∧ r.cursor.peek?.any Char.isDigit then
        .more { r.push c with mode := .number (.start true) }
      else .more (r.push c)
    | _ =>
      if r.token = [] ∧ c.isDigit then r.inNumber (.start false) c
      else if r.token = [] ∧ c = ':' then .more { r.push c with mode := .keyword }
      else .more (r.push c)

/-- A symbol under way ends before `c`. If that completes a form, `c` is handed back. -/
def inNormal (r : Reader) (c : Char) : Step :=
  if r.token ≠ [] ∧ endsSymbol c then
    match r.emitToken with
    | .more r => r.plain c
    | .form f r => .form f (r.hold c)
    | .fault reason r => .fault reason r
  else r.plain c

def inCharacter (r : Reader) (c : Char) : Step :=
  match r.cursor.takeCharLiteral c with
  | .ok (value, s) => emit { r with cursor := s, mode := .normal } (.atom (.char value))
  | .error (reason, s) => .fault reason { r with cursor := s }

def inString (r : Reader) (c : Char) : Step :=
  if c = '\x22' then r.emitString
  else if c = '\\' then
    match r.cursor.take? with
    | some (d, s) => .more ({ r with cursor := s }.push c |>.push d)
    | none => .fault .unterminatedString r
  else .more (r.push c)

/-- A comment ends with its line; a carriage return takes a line feed after it along. -/
def inComment (r : Reader) (c : Char) : Step :=
  if c = '\n' then .more { r with mode := .normal }
  else if c = '\x0d' then
    match r.cursor.take? with
    | some ('\n', s) => .more { r with cursor := s, mode := .normal }
    | _ => .more { r with mode := .normal }
  else .more r

def keywordComplete (r : Reader) : Bool := decide (r.token.length > 1 ∧ r.token ≠ [':', ':'])

def inKeyword (r : Reader) (c : Char) : Step :=
  if Text.isKeywordChar c ∨ (c = ':' ∧ r.token = [':']) then .more (r.push c)
  else if c = '/' ∧ r.keywordComplete then .more { r.push c with mode := .qualifiedKeyword }
  else if r.keywordComplete then (r.hold c).emitKeyword
  else .fault .invalidKeyword r

def nameComplete (r : Reader) : Bool := decide (r.token.head? ≠ some '/')

def inQualifiedKeyword (r : Reader) (c : Char) : Step :=
  if Text.isKeywordChar c then .more (r.push c)
  else if r.nameComplete then (r.hold c).emitKeyword
  else .fault .invalidKeyword r

def step (r : Reader) (c : Char) : Step :=
  match r.mode with
  | .normal => r.inNormal c
  | .character => r.inCharacter c
  | .string => r.inString c
  | .comment => r.inComment c
  | .keyword => r.inKeyword c
  | .qualifiedKeyword => r.inQualifiedKeyword c
  | .number n => r.inNumber n c
  | .decimal => .fault .decimalsNotImplemented r
  | .radixNumber n => r.inRadixNumber n c

def flush (r : Reader) : Step :=
  match r.mode with
  | .normal | .comment => if r.token = [] then .more r.cleared else r.emitToken
  | .character => .fault .unterminatedChar r
  | .string => .fault .unterminatedString r
  | .keyword => if r.keywordComplete then r.emitKeyword else .fault .invalidKeyword r
  | .qualifiedKeyword => if r.nameComplete then r.emitKeyword else .fault .invalidKeyword r
  | .number n | .radixNumber n => r.emitNumber n
  | .decimal => .fault .decimalsNotImplemented r

def complaint? (r : Reader) : Option Reason :=
  match r.stack with
  | o :: _ => some (.unterminatedCollection o.bracket.closer)
  | [] => if r.quotes > 0 then some .danglingQuote else none

def weight (r : Reader) : Nat :=
  3 * r.cursor.remaining + (if r.mode = .normal then 0 else 1) + (if r.token = [] then 0 else 1)

end Reader

end LazyLisp.Source
