import Std.Data.ExtTreeMap
import RuleSteering.Text.Blank
import RuleSteering.Text.Escape
import RuleSteering.Text.Line

/-!
# Property maps and their text

A property map assigns texts to texts. It is written as one line `key=value` for each key, in
the order of the keys, with everything that would be misread hidden behind a backslash.

The reader is more liberal than the writer:

* blanks at the start of a line do not count;
* empty lines and lines that start with `#` or `!` are skipped;
* a key ends at the first unescaped `=`, `:` or blank, and the blanks around the separator belong
  to neither side;
* a line without a separator is a key with an empty value;
* a later line replaces an earlier one with the same key.
-/

namespace RuleSteering

open Text

/-- A map from keys to values, both plain texts. -/
abbrev Properties := Std.ExtTreeMap String String

namespace Properties

/-! ### Reading -/

/-- Remove one equals sign or colon from the start of a text. -/
def dropMark : List Char → List Char
  | '=' :: s => s
  | ':' :: s => s
  | s => s

/-- What follows a key that ends at a blank: more blanks, at most one mark, and blanks again. -/
def afterBlank (s : List Char) : List Char :=
  trimStart (dropMark (trimStart s))

/-- The key and the value of a line, both still escaped. -/
def splitEntry : List Char → List Char × List Char
  | [] => ([], [])
  | ['\\'] => (['\\'], [])
  | '\\' :: c :: s =>
    let (k, v) := splitEntry s
    ('\\' :: c :: k, v)
  | c :: s =>
    if c = '=' ∨ c = ':' then ([], trimStart s)
    else if isBlank c then ([], afterBlank s)
    else
      let (k, v) := splitEntry s
      (c :: k, v)

/-- Whether a line, without the blanks at its start, holds no entry. -/
def isSkipped : List Char → Bool
  | [] => true
  | c :: _ => c = '#' || c = '!'

/-- The entry of a line, if it holds one. -/
def entry? (line : List Char) : Option (String × String) :=
  let line := trimStart line
  if isSkipped line then none
  else
    let (k, v) := splitEntry line
    some (String.ofList (unescape k), String.ofList (unescape v))

/-- The entries of a text in the order of its lines. -/
def entries (text : List Char) : List (String × String) :=
  (lines text).filterMap entry?

/-- Read a text; of two lines with the same key the later one counts. -/
def parse (text : String) : Properties :=
  .ofList (entries text.toList)

@[simp] theorem entries_nil : entries [] = [] := rfl

@[simp] theorem splitEntry_nil : splitEntry [] = ([], []) := rfl

@[simp] theorem splitEntry_backslash : splitEntry ['\\'] = (['\\'], []) := rfl

@[simp] theorem splitEntry_escaped (c : Char) (s : List Char) :
    splitEntry ('\\' :: c :: s) = ('\\' :: c :: (splitEntry s).1, (splitEntry s).2) := by
  simp [splitEntry]

/-! ### Writing -/

/-- The line that holds one entry. -/
def renderEntry (entry : String × String) : List Char :=
  escapeKey entry.1.toList ++ '=' :: escapeValue entry.2.toList ++ ['\n']

/-- Write a map, one line for each key in ascending order. -/
def render (p : Properties) : String :=
  String.ofList (p.toList.flatMap renderEntry)

end Properties

end RuleSteering
