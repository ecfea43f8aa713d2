/-
  File:      MiningQuery/Text/Layout.lean
  Subject:   Cutting text and putting it together: blanks at the ends, quotes, separators.

  * `Text.strip` removes blanks at both ends, `Text.stripEnd` at the end only;
  * `Text.unquote?` opens a text that one kind of quote encloses;
  * `Text.join` and `Text.words` are the two directions between a list and a separated text.
-/
import MiningQuery.Text.Bytes

namespace MiningQuery.Text

/-! ## 1. Blanks at the ends -/

/-- The text without the bytes of a class at its end. -/
def dropEnd (p : UInt8 → Bool) (t : Text) : Text := (t.reverse.dropWhile p).reverse

/-- The text without blanks at its end. -/
def stripEnd (t : Text) : Text := dropEnd isBlank t

/-- The text without blanks at either end. -/
def strip (t : Text) : Text := stripEnd (t.dropWhile isBlank)

/-- Does every byte count as blank? -/
def allBlank (t : Text) : Bool := t.all isBlank

/-! ## 2. Quotes -/

/-- What stands between two equal quotes at the ends, if the text has them; quotes further
    inside are not looked at. -/
def unquote? (t : Text) : Option Text :=
  match t with
  | q :: b :: rest =>
    if isQuote q && (b :: rest).getLast? == some q then some (b :: rest).dropLast else none
  | _ => none

/-- The text between the quotes, or all of it where there are none. -/
def unquoted (t : Text) : Text := (unquote? t).getD t

/-- The text in single quotes; a quote inside is left as it is. -/
def quoted (t : Text) : Text := singleQuote :: t ++ [singleQuote]

/-! ## 3. Lists and separators -/

/-- The items in order with a separator between neighbours. -/
def join (separator : Text) (items : List Text) : Text := separator.intercalate items

/-- Every item but the first stands behind a separator. -/
theorem join_cons (separator item : Text) (items : List Text) :
    join separator (item :: items) = item ++ items.flatMap (separator ++ ·) := by
  induction items generalizing item with
  | nil => simp [join]
  | cons next items ih =>
    have hrest := ih next
    unfold join at hrest ⊢
    rw [List.intercalate_cons_cons, hrest, List.flatMap_cons, List.append_assoc, List.append_assoc]

/-- The maximal runs of bytes that are no separators, in order. -/
def words (isSeparator : UInt8 → Bool) : Text → List Text
  | [] => []
  | b :: rest =>
    if isSeparator b then words isSeparator rest
    else match rest with
      | [] => [[b]]
      | c :: _ =>
        match isSeparator c, words isSeparator rest with
        | false, w :: ws => (b :: w) :: ws
        | _, ws => [b] :: ws

/-- The lines of a text. A newline ends a line, and what follows the last one is a line only if
    it holds something. -/
def lines : Text → List Text
  | [] => []
  | b :: rest =>
    if b == 10 then [] :: lines rest
    else match lines rest with
      | [] => [[b]]
      | l :: ls => (b :: l) :: ls

/-- The part before the first zero byte, where an interface that ends its strings with a
    zero byte stops reading. -/
def untilZero (t : Text) : Text := t.takeWhile (· != 0)

end MiningQuery.Text
