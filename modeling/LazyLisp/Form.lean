import LazyLisp.Atom

namespace LazyLisp

inductive Form where
  | atom (a : Atom)
  | list (items : List Form)
  | vector (items : List Form)
  | map (entries : List (Form × Form))
deriving Repr

namespace Form

@[match_pattern] abbrev symbol (name : String) : Form := .atom (.symbol name)

def quoted (f : Form) : Form := .list [symbol "quote", f]

def quotedTimes : Nat → Form → Form
  | 0, f => f
  | n + 1, f => quotedTimes n f.quoted

mutual

/-- Equality by content: a list equals a vector with equal elements, and a map equals a map with
equal values under equal keys whatever their order. -/
def same : Form → Form → Bool
  | .atom a, .atom b => decide (a = b)
  | .list xs, .list ys => sameItems xs ys
  | .list xs, .vector ys => sameItems xs ys
  | .vector xs, .list ys => sameItems xs ys
  | .vector xs, .vector ys => sameItems xs ys
  | .map xs, .map ys => xs.length == ys.length && sameEntries xs ys
  | _, _ => false

def sameItems : List Form → List Form → Bool
  | [], [] => true
  | x :: xs, y :: ys => same x y && sameItems xs ys
  | _, _ => false

def sameEntries : List (Form × Form) → List (Form × Form) → Bool
  | [], _ => true
  | (key, value) :: xs, ys =>
    (match ys.find? fun e => same key e.1 with
      | some e => same value e.2
      | none => false) && sameEntries xs ys

end

def putEntry (entries : List (Form × Form)) (key value : Form) : List (Form × Form) :=
  match entries with
  | [] => [(key, value)]
  | (k, v) :: rest =>
    if same k key then (k, value) :: rest else (k, v) :: putEntry rest key value

/-- The map that a literal with the given items denotes: keys and values in turn, the last value of a
key standing at its first place. An item left over has no value, so there is no such map. -/
def ofItemsOnto (entries : List (Form × Form)) : List Form → Option Form
  | [] => some (.map entries)
  | [_] => none
  | key :: value :: rest => ofItemsOnto (putEntry entries key value) rest

def mapOfItems? (items : List Form) : Option Form := ofItemsOnto [] items

theorem ofItemsOnto_eq_none_iff (entries : List (Form × Form)) (items : List Form) :
    ofItemsOnto entries items = none ↔ items.length % 2 = 1 := by
  fun_induction ofItemsOnto entries items with
  | case1 => simp
  | case2 => simp
  | case3 entries key value rest ih =>
    simp only [ih, List.length_cons]
    omega

mutual

def text (style : Style) : Form → List Char
  | .atom a => a.text style
  | .list xs => '(' :: ([' '].intercalate (itemTexts style xs) ++ [')'])
  | .vector xs => '[' :: ([' '].intercalate (itemTexts style xs) ++ [']'])
  | .map es => '\x7b' :: ([',', ' '].intercalate (entryTexts style es) ++ ['\x7d'])

def itemTexts (style : Style) : List Form → List (List Char)
  | [] => []
  | x :: xs => text style x :: itemTexts style xs

def entryTexts (style : Style) : List (Form × Form) → List (List Char)
  | [] => []
  | (k, v) :: es => (text style k ++ ' ' :: text style v) :: entryTexts style es

end

theorem itemTexts_eq_map (style : Style) (xs : List Form) :
    itemTexts style xs = xs.map (text style) := by
  induction xs with
  | nil => rfl
  | cons x xs ih => simp [itemTexts, ih]

def render (style : Style) (f : Form) : String := String.ofList (f.text style)

end Form

end LazyLisp
