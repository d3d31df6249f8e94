/- Recovered source as text with its line breaks kept apart.

   Every emitter builds a list of pieces: characters to be written as they
   stand, and line breaks that carry the indentation of the line they open.
   Only `Text.render` knows the line ending, so nothing an emitter does can
   depend on it. -/
namespace ScriptLift

/-- The line ending of the written text. -/
inductive LineEnding where
  | crlf
  | lf
deriving DecidableEq, Inhabited

def LineEnding.text : LineEnding → String
  | .crlf => "\r\n"
  | .lf => "\n"

/-- Characters as they stand, or a line break and the tabs after it. -/
inductive Piece where
  | verbatim (s : String)
  | lineBreak (indent : Nat)
deriving DecidableEq

abbrev Text := List Piece

def tabs (indent : Nat) : String := String.ofList (List.replicate indent '\t')

namespace Piece

def render (ending : LineEnding) : Piece → String
  | .verbatim s => s
  | .lineBreak indent => ending.text ++ tabs indent

/-- The piece with every line indented `k` deeper. -/
def shift (k : Nat) : Piece → Piece
  | .verbatim s => .verbatim s
  | .lineBreak indent => .lineBreak (indent + k)

end Piece

namespace Text

/-- Characters as they stand. -/
def lit (s : String) : Text := [.verbatim s]

/-- A line break opening a line at `indent`. -/
def line (indent : Nat) : Text := [.lineBreak indent]

/-- A line at `indent` that starts with `s`. -/
def lineOf (indent : Nat) (s : String) : Text := [.lineBreak indent, .verbatim s]

def render (ending : LineEnding) : Text → String
  | [] => ""
  | p :: rest => p.render ending ++ render ending rest

@[simp] theorem render_append (ending : LineEnding) (a b : Text) :
    render ending (a ++ b) = render ending a ++ render ending b := by
  induction a with
  | nil => simp [render]
  | cons p rest ih => simp [render, ih, String.append_assoc]

/-- The text with every line indented `k` deeper. -/
def shift (k : Nat) (t : Text) : Text := t.map (Piece.shift k)

/-- Texts one after another with `separator` between them. -/
def join (separator : Text) : List Text → Text
  | [] => []
  | [t] => t
  | t :: rest => t ++ separator ++ join separator rest

end Text

end ScriptLift
