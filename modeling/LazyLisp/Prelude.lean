import LazyLisp.Form

namespace LazyLisp

namespace Prelude

def call (head : String) (args : List Form) : Form := .list (.symbol head :: args)

def names (parameters : List String) : Form := .vector (parameters.map .symbol)

def constant (a : Atom) : Form := .atom a

def second : Form :=
  call "defn" [.symbol "second", names ["coll"], call "first" [call "next" [.symbol "coll"]]]

def every : Form :=
  call "defn" [.symbol "every?", names ["pred", "coll"],
    call "if" [call "seq" [.symbol "coll"],
      call "if" [call "pred" [call "first" [.symbol "coll"]],
        call "every?" [.symbol "pred", call "rest" [.symbol "coll"]],
        constant (.bool false)],
      constant (.bool true)]]

def map : Form :=
  call "defn" [.symbol "map", names ["f", "coll"],
    call "lazy-seq" [
      call "when" [call "seq" [.symbol "coll"],
        call "cons" [call "f" [call "first" [.symbol "coll"]],
          call "map" [.symbol "f", call "rest" [.symbol "coll"]]]]]]

def filter : Form :=
  call "defn" [.symbol "filter", names ["pred", "coll"],
    call "lazy-seq" [
      call "when" [call "seq" [.symbol "coll"],
        call "let" [.vector [.symbol "x", call "first" [.symbol "coll"]],
          call "if" [call "pred" [.symbol "x"],
            call "cons" [.symbol "x",
              call "filter" [.symbol "pred", call "rest" [.symbol "coll"]]],
            call "filter" [.symbol "pred", call "rest" [.symbol "coll"]]]]]]]

def stepRange : Form :=
  call "defn" [.symbol "step-range", names ["start", "end", "step"],
    call "lazy-seq" [
      call "when" [
        call "or" [call "nil?" [.symbol "end"],
          call "if" [call "<" [constant (.int 0), .symbol "step"],
            call "<" [.symbol "start", .symbol "end"],
            call ">" [.symbol "start", .symbol "end"]]],
        call "cons" [.symbol "start",
          call "step-range" [call "+" [.symbol "start", .symbol "step"], .symbol "end",
            .symbol "step"]]]]]

def range : Form :=
  call "defn" [.symbol "range",
    constant (.str "(range), (range end), (range start end) or (range start end step)."),
    names ["&", "args"],
    call "let" [.vector [names ["a", "b", "step"], .symbol "args"],
      call "if" [call "nil?" [.symbol "a"],
        call "step-range" [constant (.int 0), constant .nil, constant (.int 1)],
        call "if" [call "nil?" [.symbol "b"],
          call "step-range" [constant (.int 0), .symbol "a", constant (.int 1)],
          call "step-range" [.symbol "a", .symbol "b",
            call "or" [.symbol "step", constant (.int 1)]]]]]]

def forms : List Form := [second, every, map, filter, stepRange, range]

end Prelude

end LazyLisp
