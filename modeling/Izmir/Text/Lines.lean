/-!
# Splitting text
-/

namespace Izmir.Text

/-- The pieces between the occurrences of a separator. There is always at least one. -/
def pieces (separator : Char) : List Char → List (List Char)
  | [] => [[]]
  | c :: cs =>
    if c = separator then [] :: pieces separator cs
    else
      match pieces separator cs with
      | [] => [[c]]
      | p :: ps => (c :: p) :: ps

/-- The lines of a text. A line feed at the very end closes the last line and opens no
other. -/
def lines {α : Type} [DecidableEq α] (feed : α) : List α → List (List α)
  | [] => []
  | c :: cs =>
    if c = feed then [] :: lines feed cs
    else
      match lines feed cs with
      | [] => [[c]]
      | l :: ls => (c :: l) :: ls

end Izmir.Text
