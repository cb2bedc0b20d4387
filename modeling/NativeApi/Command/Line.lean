import NativeApi.Command.Keyword

/-!
# Lines

A line ends in any number of carriage returns and line feeds. A `#` starts a comment, and the
white space before it belongs to the comment; without a comment, white space at the end of a line
belongs to its last field. What is left is blank or a list of fields with a tab between two of
them, the first of which must be a keyword.
-/

namespace NativeApi

/-- A keyword and the fields after it. -/
structure Command where
  keyword : Keyword
  operands : List Text
  deriving DecidableEq, Repr

namespace Command

/-- All fields of a command, the keyword first. -/
def fields (c : Command) : List Text := c.keyword.text :: c.operands

end Command

/-- What a line of a definition file holds. -/
inductive Line
  | blank
  | unknown (word : Text)
  | command (c : Command)
  deriving DecidableEq, Repr

namespace Line

/-- A line without the comment and the white space before it, if there is a comment. -/
def withoutComment (line : Text) : Text :=
  if Text.hash ∈ line then Text.dropTrailing Text.isSpace (line.takeWhile (· != Text.hash))
  else line

/-- The part of a line that holds its fields; empty if the line holds none. -/
def content (raw : Text) : Text :=
  let line := withoutComment (Text.dropTrailing Text.isTerminator raw)
  if line.all Text.isSpace then [] else line

/-- Reads a list of fields. -/
def ofFields : List Text → Line
  | [] => .blank
  | word :: operands =>
    match Keyword.ofText? word with
    | none => .unknown word
    | some keyword => .command ⟨keyword, operands⟩

/-- Reads a line. -/
def ofText (raw : Text) : Line :=
  if content raw = [] then .blank else ofFields (Text.splitOn Text.tab (content raw))

end Line

end NativeApi
