import LazyLisp.FileTable
import LazyLisp.Source.Fault
import LazyLisp.Value

namespace LazyLisp

inductive Expectation where
  | integer | sequence | symbol | string | vector | map | callable
deriving DecidableEq, Repr

def Expectation.text : Expectation → String
  | integer => "an integer"
  | sequence => "a sequence"
  | symbol => "a symbol"
  | string => "a string"
  | vector => "a vector"
  | map => "a map"
  | callable => "callable"

inductive Marker where
  | rest | whole
deriving DecidableEq, Repr

def Marker.text : Marker → String
  | rest => "&"
  | whole => ":as"

def Value.marker? : Value → Option Marker
  | .symbol name => if name = "&" then some .rest else none
  | .keyword text => if text = ":as" then some .whole else none
  | _ => none

inductive Failure where
  | unknownSymbol (symbol : String)
  | unknownNamespace (space symbol : String)
  | notCallable (form : Value)
  | missingArgument (name : String) (position : Nat)
  | noScope (name : String)
  | nameNotSymbol (form : Value)
  | bindingsNotVector (form : Value)
  | bindingsOddLength (length : Nat)
  | parametersNotVector (form : Value)
  | parameterMissing (marker : Marker)
  | notDestructurable (value : Value)
  | unexpectedPattern (pattern : Value)
  | targetMissing (marker : Marker)
  | unknownModule (space : String)
  | badRequirement (spec : Value)
  | assertionFailed (form : Value) (message : Option Value)
  | typeMismatch (expected : Expectation)
  | wrongArgumentCount (name : String) (expected : Arity) (got : Nat)
  | selfReference
  | environmentDropped
  | read (fault : Source.Fault)
  | file (error : FileError)

end LazyLisp
