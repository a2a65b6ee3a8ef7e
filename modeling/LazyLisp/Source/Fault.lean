namespace LazyLisp.Source

inductive Reason where
  | unexpectedClose (found : Char)
  | mismatchedClose (expected found : Char)
  | unterminatedString
  | unterminatedChar
  | unterminatedCollection (closer : Char)
  | danglingQuote
  | quoteBeforeClose
  | invalidKeyword
  | unsupportedCharacter
  | invalidUnicode
  | invalidOctal
  | invalidNumber (token : String)
  | invalidRadix (radix : Int64)
  | numberTooLarge (token : String)
  | decimalsNotImplemented
  | oddMapEntries
  | nothingToRead
deriving DecidableEq, Repr

namespace Reason

def message : Reason → String
  | unexpectedClose c => s!"unexpected '{c}', nothing to close"
  | mismatchedClose expected found => s!"expected '{expected}' but found '{found}'"
  | unterminatedString => "unterminated string"
  | unterminatedChar => "unterminated character"
  | unterminatedCollection c => s!"unbalanced, missing '{c}'"
  | danglingQuote => "quote with nothing to quote"
  | quoteBeforeClose => "unexpected quote"
  | invalidKeyword => "invalid keyword"
  | unsupportedCharacter => "unsupported character"
  | invalidUnicode => "invalid unicode character"
  | invalidOctal => "invalid octal character"
  | invalidNumber token => s!"invalid numeric format for '{token}'"
  | invalidRadix radix => s!"radix {radix.toInt} out of range [2, 36]"
  | numberTooLarge token => s!"number '{token}' out of range"
  | decimalsNotImplemented => "decimals not implemented"
  | oddMapEntries => "map literal must contain an even number of forms"
  | nothingToRead => "no form to read"

/-- Whether the text ended inside something that more text could complete. -/
def incomplete : Reason → Bool
  | unterminatedString | unterminatedChar | unterminatedCollection _ | danglingQuote => true
  | _ => false

end Reason

structure Fault where
  line : Nat
  name : String
  reason : Reason
deriving DecidableEq, Repr

namespace Fault

def message (f : Fault) : String := s!"({f.line}:{f.name}) reader error: {f.reason.message}"

def incomplete (f : Fault) : Bool := f.reason.incomplete

end Fault

end LazyLisp.Source
