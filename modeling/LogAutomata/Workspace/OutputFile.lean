/-!
# Output files

A file is asked for by a path from an output directory that holds nothing yet.
Its steps are gone through one by one, and a directory that is not there is made
on the way, also one that a later step leaves again.
-/

namespace LogAutomata

/-- Where a walk through directories has come to: the steps that lead there from
the output directory, the last one first. Above that directory stands `..`. -/
abbrev Location := List String

/-- An empty step and a single dot stay in place. -/
def Location.enter (place : Location) (step : String) : Location :=
  if step = "" ∨ step = "." then place
  else if step = ".." then
    match place with
    | [] => [".."]
    | last :: outer => if last = ".." then ".." :: place else outer
  else step :: place

def Location.onWay (place : Location) : List String → List Location
  | [] => [place]
  | step :: steps => place :: onWay (place.enter step) steps

structure OutputFile where
  steps : List String
  content : String

/-- In lower case. Of the characters beyond ASCII only the Kelvin sign, a capital
K, can stand in the name of a format. -/
def formatChar (c : Char) : Char := if c = '\u212a' then 'k' else c.toLower

namespace OutputFile

def named (filename format content : String) : OutputFile :=
  ⟨(filename ++ "." ++ format.map formatChar).splitOn "/", content⟩

def location (f : OutputFile) : Location := f.steps.foldl Location.enter []

def path (f : OutputFile) : String := "/".intercalate f.location.reverse

def entries (f : OutputFile) : List String :=
  (((Location.onWay [] f.steps).filterMap List.getLast?).filter (· ≠ "..")).eraseDups.mergeSort
    fun s t => !(t < s)

end OutputFile

end LogAutomata
