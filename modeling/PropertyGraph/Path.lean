/-
Paths of files: the names that lead to a file from the root on. A name is some bytes, not
all of which need be text.
-/
import PropertyGraph.Text.Utf8

namespace PropertyGraph

/-- A name of a file or a directory. -/
abbrev FileName := List UInt8

/-- A path from the root, which is the path without names. -/
abbrev Path := List FileName

namespace Path

/-- The most bytes a name has. -/
def longestName : Nat := 255

/-- The byte between names. -/
def slash : UInt8 := 0x2F

/-- The step that stays where it is. -/
def stay : FileName := Text.Utf8.encode "."

/-- The step that goes back. -/
def back : FileName := Text.Utf8.encode ".."

/-- The steps a path is written as. A slash at the start or the end, or two of them side by
side, make a step without bytes. -/
def steps (written : List UInt8) : List FileName := written.splitOn slash

/-- Where a written path starts: at the root or, if it is relative, at home. -/
def origin (home : Path) (written : List UInt8) : Path :=
  if written.head? == some slash then [] else home

/-- Whether a step is a name, which leads on. -/
def isName (step : FileName) : Bool := !(step.isEmpty || step == stay || step == back)

/-- Goes a step. -/
def go (p : Path) (step : FileName) : Path :=
  if isName step then p ++ [step] else if step == back then p.dropLast else p

/-- The number of bytes it takes to write a path. -/
def size (p : Path) : Nat := p.foldl (fun n name => n + 1 + name.length) 0

/-- The file beside a file that has its name with an ending. -/
def beside (p : Path) (ending : String) : Path :=
  p.dropLast ++ [p.getLast?.getD [] ++ Text.Utf8.encode ending]

end Path

end PropertyGraph
