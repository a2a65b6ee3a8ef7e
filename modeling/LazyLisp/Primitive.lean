import LazyLisp.Arity

namespace LazyLisp

inductive Primitive where
  | count | seq | first | rest | next | cons | conj | take | reduce | findTruthy | identity
  | iterate | repetition | repeatedly | isRealized
  | list | vector | hashMap | assoc | get
  | str | prStr | println | prn | readString
  | isNil | isEmpty | negation
  | add | subtract | multiply | increment | decrement
  | less | lessEqual | greater | greaterEqual
  | loadFile
deriving DecidableEq, Repr

namespace Primitive

def name : Primitive → String
  | count => "count"
  | seq => "seq"
  | first => "first"
  | rest => "rest"
  | next => "next"
  | cons => "cons"
  | conj => "conj"
  | take => "take"
  | reduce => "reduce"
  | findTruthy => "some"
  | identity => "identity"
  | iterate => "iterate"
  | repetition => "repeat"
  | repeatedly => "repeatedly"
  | isRealized => "realized?"
  | list => "list"
  | vector => "vector"
  | hashMap => "hash-map"
  | assoc => "assoc"
  | get => "get"
  | str => "str"
  | prStr => "pr-str"
  | println => "println"
  | prn => "prn"
  | readString => "read-string"
  | isNil => "nil?"
  | isEmpty => "empty?"
  | negation => "not"
  | add => "+"
  | subtract => "-"
  | multiply => "*"
  | increment => "inc"
  | decrement => "dec"
  | less => "<"
  | lessEqual => "<="
  | greater => ">"
  | greaterEqual => ">="
  | loadFile => "load-file"

def arity : Primitive → Arity
  | count | seq | first | rest | next | identity | isRealized | readString | isNil | isEmpty
  | negation | increment | decrement | loadFile => .exactly 1
  | cons | take | findTruthy | iterate => .exactly 2
  | repetition | repeatedly => .between 1 2
  | reduce | get => .between 2 3
  | conj | subtract | less | lessEqual | greater | greaterEqual => .atLeast 1
  | assoc => .atLeast 3
  | list | vector | hashMap | str | prStr | println | prn | add | multiply => .atLeast 0

def core : List Primitive :=
  [count, seq, first, rest, next, cons, conj, take, reduce, findTruthy, identity, iterate, repetition,
    repeatedly, isRealized, list, vector, hashMap, assoc, get, str, prStr, println, prn, readString,
    isNil, isEmpty, negation]

def math : List Primitive :=
  [add, subtract, multiply, increment, decrement, less, lessEqual, greater, greaterEqual]

def outside : List Primitive := [loadFile]

end Primitive

end LazyLisp
