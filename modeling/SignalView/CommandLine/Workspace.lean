import SignalView.CommandLine.Run

/-!
# Files in memory

A directory that exists only as a list of files. It is a host of the command, so that a run can be
carried out, and reasoned about, without a disk.
-/

namespace SignalView

/-- Files by their path, which is a list of components. A directory exists if a file lies in it. -/
structure Workspace where
  files : List (List Bytes × Bytes) := []
  deriving DecidableEq, Repr

namespace Workspace

def components (path : Bytes) : List Bytes := Bytes.splitAt (byte '/') path

/-- The top directory exists always. -/
def isDirectory (workspace : Workspace) (path : List Bytes) : Bool :=
  path.isEmpty || workspace.files.any fun (file, _) ↦ path.isPrefixOf file && path != file

/-- Where a walk from a directory ends. Every step needs a directory to start from, and none leads
out of the workspace. -/
def walk (workspace : Workspace) (place : List Bytes) : List Bytes → Option (List Bytes)
  | [] => some place
  | step :: rest =>
    if workspace.isDirectory place then
      if step.isEmpty || step == bytes "." then workspace.walk place rest
      else if step == bytes ".." then
        if place.isEmpty then none else workspace.walk place.dropLast rest
      else workspace.walk (place ++ [step]) rest
    else none

/-- The place that a path names. -/
def locate (workspace : Workspace) (path : Bytes) : Option (List Bytes) :=
  if path.head? == some (byte '/') then none else workspace.walk [] (components path)

/-- The content of a file. A directory can be opened, but holds nothing to read. -/
def read (workspace : Workspace) (path : Bytes) : Option Bytes := do
  let place ← workspace.locate path
  match workspace.files.lookup place with
  | some content => some content
  | none => if workspace.isDirectory place then some [] else none

def replaceFile (place : List Bytes) (content : Bytes) :
    List (List Bytes × Bytes) → List (List Bytes × Bytes)
  | [] => [(place, content)]
  | file :: rest =>
    if file.1 == place then (place, content) :: rest
    else file :: replaceFile place content rest

/-- The workspace with a file written, if the path can name a file. -/
def write? (workspace : Workspace) (path content : Bytes) : Option Workspace := do
  let place ← workspace.locate path
  if workspace.isDirectory place then none
  else some { files := replaceFile place content workspace.files }

def ofFiles (files : List (Bytes × Bytes)) : Workspace where
  files := files.map fun (name, content) ↦ (components name, content)

/-- The files that are not the same in an earlier workspace. -/
def changesSince (workspace earlier : Workspace) : List (Bytes × Bytes) :=
  (workspace.files.filter (!earlier.files.contains ·)).map fun (place, content) ↦
    (Bytes.join (bytes "/") place, content)

/-- A workspace as a host, on which compiling takes no time. -/
def host : Host (StateM Workspace) where
  read path := return (← get).read path
  write path content := do
    match (← get).write? path content with
    | some workspace => set workspace; return true
    | none => return false
  measure _ _ := pure {}

end Workspace

end SignalView
