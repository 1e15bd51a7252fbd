/-!
# Transcripts

What a command says is a `Transcript`: pieces of text in the order in which they
are written, each for one of the two channels that a program writes to.
-/

namespace Folio

/-- Where a text is written. -/
inductive Channel where
  /-- For results. -/
  | output
  /-- For warnings and errors. -/
  | complaints
deriving DecidableEq

/-- A text that is written to a channel. -/
structure Utterance where
  channel : Channel
  text : String

/-- Texts in the order in which they are written. -/
abbrev Transcript := List Utterance

namespace Transcript

/-- One line of the results. -/
def say (line : String) : Transcript :=
  [⟨.output, line ++ "\n"⟩]

/-- A text among the complaints. -/
def complainText (text : String) : Transcript :=
  [⟨.complaints, text⟩]

/-- One line of the complaints. -/
def complain (line : String) : Transcript :=
  complainText (line ++ "\n")

/-- All that is written to a channel. -/
def textOn (t : Transcript) (channel : Channel) : String :=
  String.join ((t.filter fun u => u.channel = channel).map Utterance.text)

end Transcript

/-! ## Emphasis -/

/-- How a word is set off on a terminal. -/
inductive Emphasis where
  | red
  | green
  | yellow
  | bold
deriving DecidableEq

/-- The codes that begin and end an emphasis. -/
def Emphasis.codes : Emphasis → String × String
  | .red => ("31", "39")
  | .green => ("32", "39")
  | .yellow => ("33", "39")
  | .bold => ("1", "0")

/-- Sets off a text, if the terminal knows colors. -/
def Emphasis.apply (e : Emphasis) (colors : Bool) (text : String) : String :=
  if colors then "\x1b[" ++ e.codes.1 ++ "m" ++ text ++ "\x1b[" ++ e.codes.2 ++ "m" else text

end Folio
