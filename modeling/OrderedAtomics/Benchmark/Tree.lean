/-! Directory trees as values: files with their texts, and directories with their entries in the
order in which they are listed. -/

namespace OrderedAtomics.Benchmark

inductive Entry where
  | file (text : String)
  | directory (entries : List (String × Entry))

namespace Entry

def isDirectory : Entry → Bool
  | directory _ => true
  | file _ => false

def entries : Entry → List (String × Entry)
  | directory entries => entries
  | file _ => []

def text? : Entry → Option String
  | file text => some text
  | directory _ => none

end Entry

/-- The entry of a name. -/
def child? (entries : List (String × Entry)) (name : String) : Option Entry :=
  (entries.find? fun e => e.1 == name).map (·.2)

/-- The entries with one of them put in the place of the one of the same name, or at the end. -/
def setChild (entries : List (String × Entry)) (name : String) (entry : Entry) :
    List (String × Entry) :=
  match entries with
  | [] => [(name, entry)]
  | e :: rest => if e.1 = name then (name, entry) :: rest else e :: setChild rest name entry

/-- The directory itself and the one above it have no name of their own. -/
def isName (component : String) : Bool := component != "." && component != ".."

/-- The components of a relative path. A dot counts only at the front. -/
def pathOf? (text : String) : Option (List String) :=
  match text.splitOn "/" with
  | [] | "" :: _ => none
  | first :: rest => some (first :: rest.filter fun c => c != "" && c != ".")

namespace Entry

/-- The entry at the end of a path through directories, where `above` are the directories from the
one around this entry outwards. -/
def find? : Entry → List Entry → List String → Option Entry
  | entry, _, [] => some entry
  | .file _, _, _ :: _ => none
  | entry@(.directory entries), above, component :: rest =>
    if component = "." then find? entry above rest
    else if component = ".." then
      match above with
      | [] => none
      | outer :: above => find? outer above rest
    else
      match child? entries component with
      | some inner => find? inner (entry :: above) rest
      | none => none

/-- Makes a directory at a path of names, and those on the way to it; none if a file is in the
way. -/
def makeDirectory : Entry → List String → Option Entry
  | .file _, _ => none
  | entry, [] => some entry
  | .directory entries, name :: rest =>
    (makeDirectory ((child? entries name).getD (.directory [])) rest).map fun inner =>
      .directory (setChild entries name inner)

/-- Writes a file into the directory at a path of names; none if there is no such directory or
something else than a file has the name. -/
def writeFile : Entry → List String → String → String → Option Entry
  | .file _, _, _, _ => none
  | .directory entries, [], name, text =>
    match child? entries name with
    | some (.directory _) => none
    | _ => some (.directory (setChild entries name (.file text)))
  | .directory entries, outer :: rest, name, text =>
    match child? entries outer with
    | some inner =>
      (writeFile inner rest name text).map fun inner => .directory (setChild entries outer inner)
    | none => none

/-- Puts a file with the given text, or a directory without one, at a path of names, and makes the
directories on the way. What is in the way stays. -/
def place (root : Entry) (path : List String) (text : Option String) : Entry :=
  match text with
  | none => (root.makeDirectory path).getD root
  | some text =>
    match path.getLast? with
    | none => root
    | some name =>
      (((root.makeDirectory path.dropLast).bind fun root =>
        root.writeFile path.dropLast name text)).getD root

/-- A directory with the given files and directories. -/
def ofFiles (files : List (String × Option String)) : Entry :=
  files.foldl (fun root f => root.place ((pathOf? f.1).getD []) f.2) (.directory [])

mutual

/-- The files of an entry with their paths, and the directories without entries. -/
def files (path : String) : Entry → List (String × Option String)
  | .file text => [(path, some text)]
  | .directory [] => [(path, none)]
  | .directory (entry :: rest) => filesIn path (entry :: rest)

def filesIn (path : String) : List (String × Entry) → List (String × Option String)
  | [] => []
  | (name, entry) :: rest =>
    files (if path = "" then name else path ++ "/" ++ name) entry ++ filesIn path rest

end

end Entry

end OrderedAtomics.Benchmark
