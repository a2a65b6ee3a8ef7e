import LazyLisp.Bindings

/-!
The files that programs can load. A place is the list of names that leads to a file or a directory,
innermost first; many paths lead to one place. Following a path needs a directory at every step, also
where the path only passes through it.
-/

namespace LazyLisp

inductive FileError where
  | notFound | isDirectory | notText
deriving DecidableEq, Repr

def FileError.message : FileError → String
  | notFound => "No such file or directory (os error 2)"
  | isDirectory => "Is a directory (os error 21)"
  | notText => "stream did not contain valid UTF-8"

inductive FileEntry where
  | content (bytes : ByteArray)
  | directory
  | absent

/-- The names that lead to a place, innermost first, from the working directory or, if the outermost
name is empty, from the root. -/
abbrev Place := List String

namespace Place

/-- The directory around a place. Above the working directory it is written `..`, and the root is its
own. -/
def parent : Place → Place
  | [] => [".."]
  | [""] => [""]
  | ".." :: place => ".." :: ".." :: place
  | _ :: place => place

def step (place : Place) (part : String) : Place :=
  if part = "" ∨ part = "." then place
  else if part = ".." then parent place
  else part :: place

def along (route : List Place) (place : Place) : List String → List Place
  | [] => place :: route
  | part :: rest => along (place :: route) (step place part) rest

def start (path : String) : Place × List String :=
  match path.splitOn "/" with
  | "" :: rest => ([""], rest)
  | parts => ([], parts)

end Place

/-- `entries` are the files and directories at their places, and `noted` what was found out about
paths as they are written. -/
structure FileTable where
  entries : List (Place × FileEntry)
  noted : Bindings FileEntry

namespace FileTable

def empty : FileTable := ⟨[], .empty⟩

def addFile (t : FileTable) (path : String) (bytes : ByteArray) : FileTable :=
  let (place, parts) := Place.start path
  match Place.along [] place parts with
  | [] => t
  | last :: passed =>
    { t with entries :=
        (last, .content bytes) :: (passed.map fun p => (p, .directory)) ++ t.entries }

def note (t : FileTable) (path : String) (entry : FileEntry) : FileTable :=
  { t with noted := t.noted.insert path entry }

/-- What is at a place. The starting points and all that is above them are directories. -/
def entryAt? (t : FileTable) (place : Place) : Option FileEntry :=
  if place = [""] ∨ place.all (· == "..") then some .directory
  else (t.entries.find? fun e => e.1 == place).map (·.2)

def follow (t : FileTable) (place : Place) : List String → Option FileEntry
  | [] => t.entryAt? place
  | part :: rest =>
    match t.entryAt? place with
    | some .directory => follow t (place.step part) rest
    | _ => none

def find? (t : FileTable) (path : String) : Option FileEntry :=
  let (place, parts) := Place.start path
  (t.noted.get? path).or (t.follow place parts)

def read (t : FileTable) (path : String) : Except FileError String :=
  if path = "" then .error .notFound
  else
    match t.find? path with
    | some (.content bytes) =>
      match String.fromUTF8? bytes with
      | some text => .ok text
      | none => .error .notText
    | some .directory => .error .isDirectory
    | some .absent | none => .error .notFound

end FileTable

end LazyLisp
