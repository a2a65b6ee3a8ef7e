namespace LazyLisp

inductive SpecialForm where
  | conditional
  | guarded
  | quotation
  | definition
  | sequence
  | binding
  | function
  | functionDefinition
  | assertion
  | comment
  | namespaceChange
  | requirement
  | equal
  | notEqual
  | conjunction
  | disjunction
  | delay
deriving DecidableEq, Repr

namespace SpecialForm

def name : SpecialForm → String
  | conditional => "if"
  | guarded => "when"
  | quotation => "quote"
  | definition => "def"
  | sequence => "do"
  | binding => "let"
  | function => "fn"
  | functionDefinition => "defn"
  | assertion => "assert"
  | comment => "comment"
  | namespaceChange => "ns"
  | requirement => "require"
  | equal => "="
  | notEqual => "not="
  | conjunction => "and"
  | disjunction => "or"
  | delay => "lazy-seq"

def all : List SpecialForm :=
  [conditional, guarded, quotation, definition, sequence, binding, function, functionDefinition,
    assertion, comment, namespaceChange, requirement, equal, notEqual, conjunction, disjunction, delay]

theorem mem_all (s : SpecialForm) : s ∈ all := by
  cases s <;> simp [all]

end SpecialForm

end LazyLisp
