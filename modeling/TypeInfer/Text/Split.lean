/-
Cutting text at a separator, and the lines of a text. A text is a list of
characters here; offsets elsewhere count the bytes of its UTF-8 form, which
`utf8Length` measures.
-/

namespace TypeInfer.Text

/-- Bytes that the UTF-8 form of `cs` takes. -/
def utf8Length : List Char → Nat
  | [] => 0
  | c :: cs => c.utf8Size + utf8Length cs

/-- The stretches between the separators, one more than there are separators. -/
def splitOn (sep : Char) : List Char → List (List Char)
  | [] => [[]]
  | c :: cs =>
    match splitOn sep cs with
    | [] => [[c]]
    | piece :: pieces => if c = sep then [] :: piece :: pieces else (c :: piece) :: pieces

theorem splitOn_ne_nil (sep : Char) (cs : List Char) : splitOn sep cs ≠ [] := by
  cases cs with
  | nil => simp [splitOn]
  | cons c cs =>
    rw [splitOn]
    split
    · simp
    · split <;> simp

/-- A line feed ends a line; a carriage return right before it belongs to the
line end. -/
def dropCarriageReturn (line : List Char) : List Char :=
  if line.getLast? = some '\r' then line.dropLast else line

/-- The lines of a text; what follows the last line feed counts when it is not empty. -/
def lines (cs : List Char) : List (List Char) :=
  let pieces := splitOn '\n' cs
  let ended := pieces.dropLast.map dropCarriageReturn
  match pieces.getLast? with
  | none | some [] => ended
  | some rest => ended ++ [rest]

/-- Drops every occurrence of `c` at the end. -/
def trimEnd (c : Char) (cs : List Char) : List Char :=
  (cs.reverse.dropWhile (· == c)).reverse

/-- Drops every occurrence of a character of `set` at the end. -/
def trimEndOf (set : List Char) (cs : List Char) : List Char :=
  (cs.reverse.dropWhile set.contains).reverse

/-- The text before `tail`, when `cs` ends in `tail`. -/
def stripEnd? (tail cs : List Char) : Option (List Char) :=
  if tail.isSuffixOf cs then some (cs.take (cs.length - tail.length)) else none

def join (sep : String) (items : List String) : String := sep.intercalate items

end TypeInfer.Text
