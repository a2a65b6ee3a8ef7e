namespace LazyLisp.Text

inductive CharName where
  | newline | space | tab | formfeed | backspace | carriageReturn
deriving DecidableEq, Repr

namespace CharName

def all : List CharName := [newline, space, tab, formfeed, backspace, carriageReturn]

def char : CharName → Char
  | newline => '\n'
  | space => ' '
  | tab => '\t'
  | formfeed => '\x0c'
  | backspace => '\x08'
  | carriageReturn => '\x0d'

def spelling : CharName → List Char
  | newline => ['n', 'e', 'w', 'l', 'i', 'n', 'e']
  | space => ['s', 'p', 'a', 'c', 'e']
  | tab => ['t', 'a', 'b']
  | formfeed => ['f', 'o', 'r', 'm', 'f', 'e', 'e', 'd']
  | backspace => ['b', 'a', 'c', 'k', 's', 'p', 'a', 'c', 'e']
  | carriageReturn => ['r', 'e', 't', 'u', 'r', 'n']

def ofChar? (c : Char) : Option CharName := all.find? fun n => n.char == c

def ofInitial? (c : Char) : Option CharName := all.find? fun n => n.spelling.head? == some c

theorem ofInitial?_of_head? {n : CharName} {c : Char} (h : n.spelling.head? = some c) :
    ofInitial? c = some n := by
  cases n <;> cases h <;> decide

end CharName

end LazyLisp.Text
