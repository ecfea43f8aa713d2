/-
  File:      MiningQuery/Token/Basic.lean
  Subject:   The tokens of a statement: keywords, symbols, kinds, places in the text.

  * `Keyword.ofText?` finds the keyword that a word spells in any letter case;
  * `TokenKind.name` is the name of a kind in an error message;
  * `Location.after` is the place reached by passing over a text.
-/
import MiningQuery.Text.Layout

namespace MiningQuery

/-! ## 1. Keywords -/

/-- The reserved words, named as they are spelled. -/
inductive Keyword
  | USE | DATABASE | FROM | WHERE | RELEVANCE | TO | GROUP | BY | ORDER | ASC | DESC | MINE
  | CLUSTER | STATISTICS | ANOMALIES | ASSOCIATION_RULES | CLASSIFICATION | REGRESSION | WITH
  | DISPLAY | AS | AND | OR | NOT | BETWEEN | LIKE | IS | NULL | IN
  deriving DecidableEq, Repr

namespace Keyword

/-- The spelling in capitals. -/
def spelling : Keyword → Text
  | USE => ascii "USE"
  | DATABASE => ascii "DATABASE"
  | FROM => ascii "FROM"
  | WHERE => ascii "WHERE"
  | RELEVANCE => ascii "RELEVANCE"
  | TO => ascii "TO"
  | GROUP => ascii "GROUP"
  | BY => ascii "BY"
  | ORDER => ascii "ORDER"
  | ASC => ascii "ASC"
  | DESC => ascii "DESC"
  | MINE => ascii "MINE"
  | CLUSTER => ascii "CLUSTER"
  | STATISTICS => ascii "STATISTICS"
  | ANOMALIES => ascii "ANOMALIES"
  | ASSOCIATION_RULES => ascii "ASSOCIATION_RULES"
  | CLASSIFICATION => ascii "CLASSIFICATION"
  | REGRESSION => ascii "REGRESSION"
  | WITH => ascii "WITH"
  | DISPLAY => ascii "DISPLAY"
  | AS => ascii "AS"
  | AND => ascii "AND"
  | OR => ascii "OR"
  | NOT => ascii "NOT"
  | BETWEEN => ascii "BETWEEN"
  | LIKE => ascii "LIKE"
  | IS => ascii "IS"
  | NULL => ascii "NULL"
  | IN => ascii "IN"

/-- All keywords. -/
def all : List Keyword :=
  [USE, DATABASE, FROM, WHERE, RELEVANCE, TO, GROUP, BY, ORDER, ASC, DESC, MINE, CLUSTER,
    STATISTICS, ANOMALIES, ASSOCIATION_RULES, CLASSIFICATION, REGRESSION, WITH, DISPLAY, AS,
    AND, OR, NOT, BETWEEN, LIKE, IS, NULL, IN]

/-- The list of keywords leaves none out. -/
theorem mem_all (k : Keyword) : k ∈ all := by cases k <;> decide

/-- The keyword that a word spells, letter case aside. -/
def ofText? (word : Text) : Option Keyword :=
  let capitals := Text.upper word
  all.find? fun k => k.spelling == capitals

end Keyword

/-! ## 2. Symbols -/

/-- Punctuation and operators. -/
inductive Symbol
  | comma | dot | openParen | closeParen | star | plus | minus | slash
  | eq | ne | lt | gt | le | ge
  deriving DecidableEq, Repr

namespace Symbol

/-- The usual spelling; only `ne` has a second one, `<>`. -/
def spelling : Symbol → Text
  | comma => ascii ","
  | dot => ascii "."
  | openParen => ascii "("
  | closeParen => ascii ")"
  | star => ascii "*"
  | plus => ascii "+"
  | minus => ascii "-"
  | slash => ascii "/"
  | eq => ascii "="
  | ne => ascii "!="
  | lt => ascii "<"
  | gt => ascii ">"
  | le => ascii "<="
  | ge => ascii ">="

/-- All symbols. -/
def all : List Symbol :=
  [comma, dot, openParen, closeParen, star, plus, minus, slash, eq, ne, lt, gt, le, ge]

end Symbol

/-! ## 3. Kinds -/

/-- What sort of token it is. -/
inductive TokenKind
  | keyword (k : Keyword)
  | identifier | int | float | string
  | symbol (s : Symbol)
  | endOfInput
  deriving DecidableEq, Repr

namespace TokenKind

/-- The name in an error message: a keyword as it is, a symbol in quotes. -/
def name : TokenKind → Text
  | keyword k => k.spelling
  | identifier => ascii "IDENTIFIER"
  | int => ascii "INT"
  | float => ascii "FLOAT"
  | string => ascii "STRING"
  | symbol s => Text.quoted s.spelling
  | endOfInput => ascii "<EOF>"

/-- Is it a reserved word? -/
def isKeyword : TokenKind → Bool
  | keyword _ => true
  | _ => false

/-- All kinds in their fixed order: keywords, literals and names, symbols, the end. -/
def all : List TokenKind :=
  Keyword.all.map keyword ++ [identifier, int, float, string] ++ Symbol.all.map symbol ++
    [endOfInput]

/-- The kind with a number in the fixed order. -/
def ofNumber? : Int → Option TokenKind
  | .ofNat n => all[n]?
  | .negSucc _ => none

/-- The kind with a name. -/
def ofName? (t : Text) : Option TokenKind := all.find? fun k => k.name == t

end TokenKind

/-! ## 4. Places and tokens -/

/-- A place in a text: the line counts from one, the column from zero. -/
structure Location where
  line : Nat
  column : Nat
  deriving DecidableEq, Repr

namespace Location

/-- Where a text begins. -/
def start : Location := ⟨1, 0⟩

/-- The place behind one byte; a newline begins the next line. -/
def next (l : Location) (b : UInt8) : Location :=
  if b == 10 then ⟨l.line + 1, 0⟩ else ⟨l.line, l.column + 1⟩

/-- The place behind a text. -/
def after (l : Location) (t : Text) : Location := t.foldl next l

/-- Passing over two texts is passing over their concatenation. -/
theorem after_append (l : Location) (s t : Text) : l.after (s ++ t) = (l.after s).after t :=
  List.foldl_append

/-- Line and column with a colon between. -/
def text (l : Location) : Text := Text.ofNat l.line ++ ascii ":" ++ Text.ofNat l.column

/-- An error message at a place. -/
def report (l : Location) (message : Text) : Text :=
  ascii "Line " ++ l.text ++ ascii " - " ++ message

end Location

/-- A token: its kind, its bytes as they stand in the statement, and where they begin. -/
structure Token where
  kind : TokenKind
  text : Text
  location : Location
  deriving DecidableEq, Repr

namespace Token

/-- How an error message quotes the token. -/
def display (t : Token) : Text := if t.kind = .endOfInput then ascii "<EOF>" else t.text

/-- The token written out with its kind and place. -/
def describe (t : Token) : Text :=
  t.kind.name ++ ascii "('" ++ t.display ++ ascii "' at " ++ t.location.text ++ ascii ")"

end Token

end MiningQuery
