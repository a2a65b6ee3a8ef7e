namespace LazyLisp

structure Bindings (α : Type) where
  entries : List (String × α)

namespace Bindings

variable {α : Type}

def empty : Bindings α := ⟨[]⟩

def lookup : List (String × α) → String → Option α
  | [], _ => none
  | (key, value) :: rest, name => if key = name then some value else lookup rest name

def get? (b : Bindings α) (name : String) : Option α := lookup b.entries name

def contains (b : Bindings α) (name : String) : Bool := (b.get? name).isSome

def place (name : String) (value : α) : List (String × α) → List (String × α)
  | [] => [(name, value)]
  | (key, old) :: rest =>
    if key = name then (key, value) :: rest else (key, old) :: place name value rest

/-- Binds a name, in its old place if it was bound before. -/
def insert (b : Bindings α) (name : String) (value : α) : Bindings α :=
  ⟨place name value b.entries⟩

def erase (b : Bindings α) (name : String) : Bindings α :=
  ⟨b.entries.filter fun e => e.1 != name⟩

def ofList (entries : List (String × α)) : Bindings α :=
  entries.foldl (fun b e => b.insert e.1 e.2) empty

theorem lookup_place (name : String) (value : α) (entries : List (String × α)) (other : String) :
    lookup (place name value entries) other =
      if name = other then some value else lookup entries other := by
  induction entries with
  | nil => simp [place, lookup]
  | cons e rest ih =>
    obtain ⟨key, old⟩ := e
    by_cases h : key = name
    · subst h
      by_cases ho : key = other <;> simp [place, lookup, ho]
    · by_cases ho : name = other
      · subst ho
        simp [place, lookup, h, ih]
      · simp [place, lookup, h, ho, ih]

@[simp] theorem get?_empty (name : String) : (empty : Bindings α).get? name = none := rfl

theorem get?_insert (b : Bindings α) (name : String) (value : α) (other : String) :
    (b.insert name value).get? other = if name = other then some value else b.get? other :=
  lookup_place name value b.entries other

@[simp] theorem get?_insert_self (b : Bindings α) (name : String) (value : α) :
    (b.insert name value).get? name = some value := by
  simp [get?_insert]

theorem get?_insert_of_ne (b : Bindings α) {name other : String} (h : name ≠ other) (value : α) :
    (b.insert name value).get? other = b.get? other := by
  simp [get?_insert, h]

theorem get?_erase (b : Bindings α) (name other : String) :
    (b.erase name).get? other = if name = other then none else b.get? other := by
  obtain ⟨entries⟩ := b
  simp only [get?, erase]
  induction entries with
  | nil => simp [lookup]
  | cons e rest ih =>
    obtain ⟨key, value⟩ := e
    by_cases hk : key = name
    · subst hk
      by_cases ho : key = other <;> simp_all [lookup]
    · by_cases ho : name = other
      · subst ho
        simp_all [lookup]
      · by_cases hk' : key = other <;> simp_all [lookup]

end Bindings

end LazyLisp
