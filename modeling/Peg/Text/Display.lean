import Peg.Text.Extender

/-!
How characters, texts and trees are shown in messages. Backslash, tab, return, newline
and the null character have short escapes, every character that is not printable
is written by its code point in lower-case hexadecimal, and a character that
would combine with what stands before it is written so as well. Trees are shown one
node a line, each line indented by two spaces for every level below the root.
-/

namespace Peg.Text

/-- An escape by code point, such as `\u{301}`. -/
def codePointEscape (c : Char) : List Char :=
  ['\\', 'u', '{'] ++ Nat.toDigits 16 c.toNat ++ ['}']

/-- What a character is written as, given whether it is a quote that has to be
escaped and whether it would combine with the character before it. -/
def escapeChar (quote combines : Bool) (c : Char) : List Char :=
  if c = '\x00' then ['\\', '0']
  else if c = '\t' then ['\\', 't']
  else if c = '\r' then ['\\', 'r']
  else if c = '\n' then ['\\', 'n']
  else if c = '\\' || quote then ['\\', c]
  else if combines || !isPrintable c then codePointEscape c
  else [c]

/-- A character between single quotes; a double quote needs no escape there. -/
def quoteChar (c : Char) : String :=
  String.ofList ('\'' :: escapeChar (c = '\'') (isExtender c) c ++ ['\''])

/-- A text between double quotes; a single quote needs no escape there. -/
def quoteText (s : String) : String :=
  String.ofList
    ('"' :: s.toList.flatMap (fun c => escapeChar (c = '"') (isExtender c) c) ++ ['"'])

/-- A text without quotes around it. Both quotes are escaped, and a combining
character is escaped only where it comes first and has nothing to combine with. -/
def escapeText (s : String) : String :=
  String.ofList (go true s.toList)
where
  go (first : Bool) : List Char → List Char
    | [] => []
    | c :: rest =>
        escapeChar (c = '"' || c = '\'') (first && isExtender c) c ++ go false rest

/-- The lines of a tree in document order, each with the depth of its node. -/
abbrev Indented := List (Nat × String)

def Indented.render (lines : Indented) : String :=
  "\n".intercalate
    (lines.map fun (depth, line) => String.ofList (List.replicate (2 * depth) ' ') ++ line)

end Peg.Text
