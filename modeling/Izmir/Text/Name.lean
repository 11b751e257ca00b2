/-!
# Names

A name is a letter or an underscore followed by letters, digits and underscores, all of
them ASCII.
-/

namespace Izmir.Text

def startsName (c : Char) : Bool :=
  c.isAlpha || c == '_'

def continuesName (c : Char) : Bool :=
  c.isAlphanum || c == '_'

def isName : List Char → Bool
  | [] => false
  | c :: cs => startsName c && cs.all continuesName

end Izmir.Text
