import LazyLisp.Text.CharName
import LazyLisp.Text.Escape

namespace LazyLisp

/-- A string holds its body with the escapes as they were written, a keyword its text with the
leading colons, a symbol its whole name with the namespace if it has one. -/
inductive Atom where
  | nil
  | bool (b : Bool)
  | int (i : Int64)
  | str (body : String)
  | char (c : Char)
  | keyword (text : String)
  | symbol (name : String)
deriving DecidableEq, Repr

/-- Readable text can be read back; direct text gives strings and characters as themselves. -/
inductive Style where
  | readable | direct
deriving DecidableEq, Repr

namespace Text

def decimal : Int → List Char
  | .ofNat n => Nat.toDigits 10 n
  | .negSucc n => '-' :: Nat.toDigits 10 (n + 1)

end Text

namespace Atom

def boolText (b : Bool) : List Char :=
  if b then ['t', 'r', 'u', 'e'] else ['f', 'a', 'l', 's', 'e']

def charText (c : Char) : List Char :=
  match Text.CharName.ofChar? c with
  | some n => '\\' :: n.spelling
  | none => ['\\', c]

def text : Style → Atom → List Char
  | _, nil => ['n', 'i', 'l']
  | _, bool b => boolText b
  | _, int i => Text.decimal i.toInt
  | .readable, str body => '\x22' :: (body.toList ++ ['\x22'])
  | .direct, str body => Text.unescape body.toList
  | .readable, char c => charText c
  | .direct, char c => [c]
  | _, keyword k => k.toList
  | _, symbol s => s.toList

end Atom

/-- The namespace and the name of a symbol, divided at the first slash. A slash at either end
belongs to the name. -/
def splitSymbol (name : String) : Option String × String :=
  match name.toList.span (· != '/') with
  | (space@(_ :: _), _ :: rest@(_ :: _)) => (some (String.ofList space), String.ofList rest)
  | _ => (none, name)

def joinSymbol (space name : String) : String := space ++ "/" ++ name

end LazyLisp
