/-! # Indented lines

A listing is a sequence of lines, each with its depth of indentation. A blank line has none.
-/

namespace DexImage.Text

inductive Line where
  | blank
  | content (depth : Nat) (text : String)
deriving DecidableEq, Repr

abbrev Lines := List Line

namespace Lines

def line (text : String) : Lines := [.content 0 text]

def blank : Lines := [.blank]

/-- The lines one level deeper. -/
def indent (lines : Lines) : Lines :=
  lines.map fun
    | .blank => .blank
    | .content depth text => .content (depth + 1) text

/-- Each level of indentation is four spaces, and every line ends with a line feed. -/
def render (lines : Lines) : String :=
  String.join (lines.map fun
    | .blank => "\n"
    | .content depth text => String.ofList (List.replicate (4 * depth) ' ') ++ text ++ "\n")

end Lines
end DexImage.Text
