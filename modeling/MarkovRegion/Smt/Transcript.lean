/-!
# Transcripts

A transcript is a file with everything that was sent to a solver.  What is written to it is
collected in a buffer, and reaches the file when the buffer is full or the transcript is closed.
Every transcript goes on where it stopped itself, also if the file has been emptied in between.
-/

namespace MarkovRegion.Smt

/-- The files of a directory. -/
structure Files where
  /-- The names with the contents. -/
  entries : List (String × String)

namespace Files

/-- No files. -/
def empty : Files := ⟨[]⟩

/-- The path without steps to the directory itself. -/
def localPath : List Char → List Char
  | '.' :: '/' :: rest => localPath rest
  | path => path

/-- The name of a file of this directory, unless the path leads to another one. -/
def nameOf? (path : String) : Option String :=
  let name := localPath path.toList
  if name.contains '/' then none else some (String.ofList name)

/-- The contents of a file. -/
def read? (files : Files) (path : String) : Option String :=
  (nameOf? path).bind fun name => files.entries.lookup name

/-- Set the contents of a file. -/
def write (files : Files) (name contents : String) : Files :=
  ⟨(name, contents) :: files.entries.filter fun e => e.1 != name⟩

/-- The text at a position of the contents of a file; what is missing before is filled up. -/
def overlay (files : Files) (name : String) (position : Nat) (text : String) : Files :=
  let old := ((files.entries.lookup name).getD "").toList
  let new := text.toList
  let front := old.take position
  files.write name (String.ofList
    (front ++ List.replicate (position - front.length) (Char.ofNat 0) ++ new
      ++ old.drop (position + new.length)))

end Files

/-- A file that is written through a buffer. -/
structure Transcript where
  /-- The name of the file. -/
  name : String
  /-- Where the buffer belongs in the file. -/
  position : Nat
  /-- What has not reached the file. -/
  buffer : String

namespace Transcript

/-- The number of bytes that a buffer holds. -/
def bufferSize : Nat := 8192

/-- Empty the file of a path and start a transcript in it, unless its directory does not exist. -/
def open? (path : String) (files : Files) : Option (Transcript × Files) :=
  (Files.nameOf? path).map fun name => ({ name, position := 0, buffer := "" }, files.write name "")

/-- Write to the file without the buffer. -/
def deliver (t : Transcript) (text : String) (files : Files) : Transcript × Files :=
  ({ t with position := t.position + text.length }, files.overlay t.name t.position text)

/-- Empty the buffer into the file. -/
def flush (t : Transcript) (files : Files) : Transcript × Files :=
  if t.buffer.isEmpty then (t, files) else ({ t with buffer := "" }).deliver t.buffer files

/-- Write a text.  A text that does not fit empties the buffer first, and one that is as large as
the buffer does not go through it. -/
def append (t : Transcript) (text : String) (files : Files) : Transcript × Files :=
  let (t, files) :=
    if bufferSize < t.buffer.utf8ByteSize + text.utf8ByteSize then t.flush files else (t, files)
  if bufferSize ≤ text.utf8ByteSize then t.deliver text files
  else ({ t with buffer := t.buffer ++ text }, files)

/-- Write texts one after the other. -/
def appendAll (t : Transcript) : List String → Files → Transcript × Files
  | [], files => (t, files)
  | text :: texts, files =>
    let (t, files) := t.append text files
    t.appendAll texts files

end Transcript

end MarkovRegion.Smt
