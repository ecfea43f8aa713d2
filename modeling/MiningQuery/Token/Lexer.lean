/-
  File:      MiningQuery/Token/Lexer.lean
  Subject:   Cutting a statement into pieces, and the pieces into tokens and errors.

  A text is a sequence of pieces: runs of blanks, comments, tokens, and what starts none of
  these. Only then are places given to the pieces, so where a piece is does not bear on what it
  is.

  * `Piece.first_append` says that cutting off a first piece loses nothing;
  * `Piece.flatten_all` says that the pieces of a text, put together, are the text.
-/
import MiningQuery.Token.Basic

namespace MiningQuery

/-! ## 1. Pieces -/

/-- What a piece of text is: two sorts that separate tokens, tokens, and rejected bytes. -/
inductive PieceKind
  | blank | comment
  | token (kind : TokenKind)
  | rejected
  deriving DecidableEq, Repr

/-- A piece of text. -/
structure Piece where
  kind : PieceKind
  text : Text
  deriving DecidableEq, Repr

namespace Piece

/-- The kind of a word: the keyword that it spells, or an identifier. -/
def wordKind (word : Text) : TokenKind :=
  match Keyword.ofText? word with
  | some k => .keyword k
  | none => .identifier

/-- A maximal run of one class of bytes, and what follows it. -/
def run (p : UInt8 → Bool) (kind : PieceKind) (c : UInt8) (cs : Text) : Piece × Text :=
  (⟨kind, c :: cs.takeWhile p⟩, cs.dropWhile p)

/-- A word and what follows it. -/
def word (c : UInt8) (cs : Text) : Piece × Text :=
  let w := c :: cs.takeWhile isWordPart
  (⟨.token (wordKind w), w⟩, cs.dropWhile isWordPart)

/-- A number: digits, and a fraction only if a digit follows the point. -/
def number (c : UInt8) (cs : Text) : Piece × Text :=
  let whole := c :: cs.takeWhile isDigit
  match cs.dropWhile isDigit with
  | 46 :: d :: rest =>
    if isDigit d then
      (⟨.token .float, whole ++ 46 :: d :: rest.takeWhile isDigit⟩, rest.dropWhile isDigit)
    else (⟨.token .int, whole⟩, 46 :: d :: rest)
  | rest => (⟨.token .int, whole⟩, rest)

/-- A string up to the same quote; without one on its line, the rest of the line is rejected. -/
def string (quote : UInt8) (cs : Text) : Piece × Text :=
  let body := cs.takeWhile fun b => b != quote && b != 10
  match cs.dropWhile fun b => b != quote && b != 10 with
  | b :: rest =>
    if b == quote then (⟨.token .string, quote :: body ++ [b]⟩, rest)
    else (⟨.rejected, quote :: body⟩, b :: rest)
  | [] => (⟨.rejected, quote :: body⟩, [])

/-- A symbol of one byte. -/
def single (s : Symbol) (c : UInt8) (cs : Text) : Piece × Text := (⟨.token (.symbol s), [c]⟩, cs)

/-- A symbol of two bytes if the second one follows, and otherwise what the first one alone is. -/
def pair (choices : List (UInt8 × Symbol)) (alone : PieceKind) (c : UInt8) (cs : Text) :
    Piece × Text :=
  match cs with
  | d :: rest =>
    match choices.lookup d with
    | some s => (⟨.token (.symbol s), [c, d]⟩, rest)
    | none => (⟨alone, [c]⟩, d :: rest)
  | [] => (⟨alone, [c]⟩, [])

/-- A symbol, or one rejected byte. -/
def symbolOrRejected (c : UInt8) (cs : Text) : Piece × Text :=
  match c with
  | 44 => single .comma c cs
  | 46 => single .dot c cs
  | 40 => single .openParen c cs
  | 41 => single .closeParen c cs
  | 42 => single .star c cs
  | 43 => single .plus c cs
  | 45 => single .minus c cs
  | 47 => single .slash c cs
  | 61 => single .eq c cs
  | 33 => pair [(61, .ne)] .rejected c cs
  | 60 => pair [(61, .le), (62, .ne)] (.token (.symbol .lt)) c cs
  | 62 => pair [(61, .ge)] (.token (.symbol .gt)) c cs
  | _ => (⟨.rejected, [c]⟩, cs)

/-- The first piece of a text that starts with `c`, and what follows it. -/
def first (c : UInt8) (cs : Text) : Piece × Text :=
  if isBlank c then run isBlank .blank c cs
  else if c == 45 && cs.head? == some 45 then run (· != 10) .comment c cs
  else if isWordStart c then word c cs
  else if isDigit c then number c cs
  else if isQuote c then string c cs
  else symbolOrRejected c cs

/-! ## 2. Cutting loses nothing -/

theorem run_append (p : UInt8 → Bool) (kind : PieceKind) (c : UInt8) (cs : Text) :
    (run p kind c cs).1.text ++ (run p kind c cs).2 = c :: cs := by
  simp [run, List.takeWhile_append_dropWhile]

theorem word_append (c : UInt8) (cs : Text) : (word c cs).1.text ++ (word c cs).2 = c :: cs := by
  simp [word, List.takeWhile_append_dropWhile]

theorem number_append (c : UInt8) (cs : Text) :
    (number c cs).1.text ++ (number c cs).2 = c :: cs := by
  have h := List.takeWhile_append_dropWhile (p := isDigit) (l := cs)
  unfold number
  split
  · rename_i d rest e
    split
    · simp [← e, h, List.takeWhile_append_dropWhile]
    · simp [← e, h]
  · simp [h]

theorem string_append (q : UInt8) (cs : Text) :
    (string q cs).1.text ++ (string q cs).2 = q :: cs := by
  have h := List.takeWhile_append_dropWhile (p := fun b => b != q && b != 10) (l := cs)
  unfold string
  split
  · rename_i b rest e
    rw [e] at h
    split <;> simpa using h
  · rename_i e
    rw [e] at h
    simpa using h

theorem pair_append (choices : List (UInt8 × Symbol)) (alone : PieceKind) (c : UInt8)
    (cs : Text) : (pair choices alone c cs).1.text ++ (pair choices alone c cs).2 = c :: cs := by
  unfold pair
  split
  · split <;> rfl
  · rfl

theorem symbolOrRejected_append (c : UInt8) (cs : Text) :
    (symbolOrRejected c cs).1.text ++ (symbolOrRejected c cs).2 = c :: cs := by
  unfold symbolOrRejected
  split
  any_goals rfl
  all_goals exact pair_append ..

/-- **The first piece and the rest are the text.** -/
theorem first_append (c : UInt8) (cs : Text) :
    (first c cs).1.text ++ (first c cs).2 = c :: cs := by
  unfold first
  repeat' split
  · exact run_append ..
  · exact run_append ..
  · exact word_append ..
  · exact number_append ..
  · exact string_append ..
  · exact symbolOrRejected_append ..

theorem number_text_ne_nil (c : UInt8) (cs : Text) : (number c cs).1.text ≠ [] := by
  unfold number
  split
  · split <;> simp
  · simp

theorem string_text_ne_nil (q : UInt8) (cs : Text) : (string q cs).1.text ≠ [] := by
  unfold string
  split
  · split <;> simp
  · simp

theorem pair_text_ne_nil (choices : List (UInt8 × Symbol)) (alone : PieceKind) (c : UInt8)
    (cs : Text) : (pair choices alone c cs).1.text ≠ [] := by
  unfold pair
  split
  · split <;> simp
  · simp

theorem symbolOrRejected_text_ne_nil (c : UInt8) (cs : Text) :
    (symbolOrRejected c cs).1.text ≠ [] := by
  unfold symbolOrRejected
  split
  any_goals exact pair_text_ne_nil _ _ _ cs
  all_goals simp [single]

/-- A first piece holds at least one byte. -/
theorem first_text_ne_nil (c : UInt8) (cs : Text) : (first c cs).1.text ≠ [] := by
  unfold first
  repeat' split
  · simp [run]
  · simp [run]
  · simp [word]
  · exact number_text_ne_nil c cs
  · exact string_text_ne_nil c cs
  · exact symbolOrRejected_text_ne_nil c cs

/-- So what follows it is shorter than the text. -/
theorem length_first_rest (c : UInt8) (cs : Text) : (first c cs).2.length ≤ cs.length := by
  have h := congrArg List.length (first_append c cs)
  have h' := List.length_pos_iff.mpr (first_text_ne_nil c cs)
  simp only [List.length_append, List.length_cons] at h
  omega

/-! ## 3. All pieces -/

/-- The pieces of a text. -/
def all : Text → List Piece
  | [] => []
  | c :: cs => (first c cs).1 :: all (first c cs).2
termination_by t => t.length
decreasing_by
  have := length_first_rest c cs
  simp only [List.length_cons]
  omega

/-- **The pieces, put together, are the text.** -/
theorem flatten_all (t : Text) : ((all t).map (·.text)).flatten = t := by
  fun_induction all t with
  | case1 => rfl
  | case2 c cs ih =>
    rw [List.map_cons, List.flatten_cons, ih]
    exact first_append c cs

/-- Gives each piece its place. -/
def locate (l : Location) : List Piece → List (Location × Piece)
  | [] => []
  | p :: ps => (l, p) :: locate (l.after p.text) ps

/-- The token of a piece that is one. -/
def token? (lp : Location × Piece) : Option Token :=
  match lp.2.kind with
  | .token kind => some ⟨kind, lp.2.text, lp.1⟩
  | _ => none

end Piece

/-! ## 4. Tokens and errors -/

/-- Bytes that start nothing, and where they stand. -/
structure LexError where
  location : Location
  rejected : Text
  deriving DecidableEq, Repr

namespace LexError

/-- The error of a piece that is rejected. -/
def ofPiece? (lp : Location × Piece) : Option LexError :=
  match lp.2.kind with
  | .rejected => some ⟨lp.1, lp.2.text⟩
  | _ => none

/-- The error as it is reported. -/
def text (e : LexError) : Text :=
  e.location.report (ascii "token recognition error at: '" ++ e.rejected ++ ascii "'")

end LexError

/-- The tokens of a text, the last of which is the end of the input, and the errors, both in
    the order of the text. -/
structure Lexing where
  tokens : List Token
  errors : List LexError
  deriving DecidableEq, Repr

/-- Cuts a text into tokens and errors. -/
def lex (t : Text) : Lexing :=
  let pieces := Piece.locate .start (Piece.all t)
  { tokens := pieces.filterMap Piece.token? ++ [⟨.endOfInput, [], Location.start.after t⟩]
    errors := pieces.filterMap LexError.ofPiece? }

end MiningQuery
