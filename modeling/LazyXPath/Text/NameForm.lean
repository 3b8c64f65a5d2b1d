import LazyXPath.Text.Alphabet

/-!
# White space and the forms of names

`collapse` is white space normalization: words separated by single blanks. The predicates describe
the texts of the string types that restrict their characters: names, names without a colon, name
tokens and language codes.
-/

namespace LazyXPath.Text

/-- White space: blank, tab, line feed, form feed and carriage return. -/
def isBlank (c : Char) : Bool := c == ' ' || c == '\t' || c == '\n' || c == '\x0c' || c == '\r'

/-- The words of a text, the last of them begun with `word` in reverse. -/
def wordsFrom (word : List Char) : List Char → List (List Char)
  | [] => if word.isEmpty then [] else [word.reverse]
  | c :: cs =>
    if isBlank c then if word.isEmpty then wordsFrom [] cs else word.reverse :: wordsFrom [] cs
    else wordsFrom (c :: word) cs

/-- The maximal runs of characters other than white space. -/
def words (cs : List Char) : List (List Char) := wordsFrom [] cs

/-- Words with single blanks between them. -/
def unwords : List (List Char) → List Char
  | [] => []
  | [w] => w
  | w :: ws => w ++ ' ' :: unwords ws

/-- The text with single blanks between its words and none around them. -/
def collapse (cs : List Char) : List Char := unwords (words cs)

/-- The text with a blank for each tab, line feed and carriage return. -/
def replaceBreaks (cs : List Char) : List Char :=
  cs.map fun c => if c == '\t' || c == '\n' || c == '\r' then ' ' else c

/-- The characters that a name starts with. -/
def isNameStart (c : Char) : Bool := isAlphabetic c || c == '_' || c == ':'

/-- The characters of a name. -/
def isNameChar (c : Char) : Bool :=
  isNameStart c || isNumber c || c == '-' || c == '.' || c == '\u00b7'

/-- A name. -/
def isName : List Char → Bool
  | [] => false
  | c :: cs => isNameStart c && cs.all isNameChar

/-- A name without a colon. -/
def isNcname (cs : List Char) : Bool := isName cs && !cs.contains ':'

/-- A name token: any sequence of the characters of names. -/
def isNmtoken (cs : List Char) : Bool := !cs.isEmpty && cs.all isNameChar

/-- The parts of a text between the occurrences of a character. -/
def splitOnChar (sep : Char) : List Char → List (List Char)
  | [] => [[]]
  | c :: cs =>
    if c = sep then [] :: splitOnChar sep cs
    else
      match splitOnChar sep cs with
      | [] => [[c]]
      | w :: ws => (c :: w) :: ws

/-- A subtag of a language code: one to eight characters of a class. -/
def isSubtag (p : Char → Bool) (cs : List Char) : Bool :=
  1 ≤ cs.length && cs.length ≤ 8 && cs.all p

/-- A language code: subtags separated by hyphens, the first of them of letters only. -/
def isLanguage (cs : List Char) : Bool :=
  match splitOnChar '-' cs with
  | [] => false
  | w :: ws => isSubtag Char.isAlpha w && ws.all (isSubtag Char.isAlphanum)

end LazyXPath.Text
