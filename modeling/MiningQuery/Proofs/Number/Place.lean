/-
  File:      MiningQuery/Proofs/Number/Place.lean
  Subject:   The places of a condition at which a number may stand.

  * `Text.signed`, `Text.signedValue`, **`Text.int64_signed`** -- digits with or without a minus
    sign, and what is read of them;
  * `Operand`, `Predicate.Test` -- a value with a gap for digits, and a simple condition with a gap
    for a value on its right side;
  * `NumberPlace` -- these inside a condition, and the condition that digits in the gap give;
  * **`NumberPlace.lexemes_predicate`** -- the tokens on both sides of the digits;
  * **`NumberPlace.written`** -- whether the condition is well-formed does not depend on the digits,
    as long as their number is in the range;
  * **`NumberPlace.reduce_predicate`**, `NumberPlace.exists_sql` -- a number that is a value of its
    own is held as that number, and its text stands in the SQL.
-/
import MiningQuery.Proofs.Grammar.Simple
import MiningQuery.Proofs.Number.Integer
import MiningQuery.Proofs.Tree.Context
import MiningQuery.Sql.Condition

namespace MiningQuery

/-! ## 1. Digits and their sign -/

namespace Text

/-- Digits behind a minus sign, or alone. -/
def signed (negative : Bool) (digits : Text) : Text :=
  (if negative then ascii "-" else []) ++ digits

/-- The number that digits stand for, behind a minus sign or alone. -/
def signedValue (negative : Bool) (digits : Text) : Int :=
  if negative then -(digitsValue digits : Int) else digitsValue digits

variable {negative : Bool} {digits : Text}

/-- **Digits with their sign are read as their number if it is in the range**, however many digits
    there are. -/
theorem int64_signed (h : isDigits digits = true) :
    int64? (signed negative digits) =
      if inInt64 (signedValue negative digits) then some (signedValue negative digits)
      else none := by
  have hinteger : integer? (signed negative digits) = some (signedValue negative digits) := by
    refine integer_iff.mpr ⟨digits, h, ?_⟩
    cases negative with
    | true => exact .inr ⟨rfl, rfl⟩
    | false => exact .inl ⟨.inl rfl, rfl⟩
  rw [int64?, hinteger, Option.filter_some]

/-- A list with separators, one item of which stands apart. -/
theorem join_around (separator item : Text) (first later : List Text) :
    join separator (first ++ item :: later) =
      first.flatMap (· ++ separator) ++ (item ++ later.flatMap (separator ++ ·)) := by
  induction first with
  | nil => simp [join_cons]
  | cons t first ih =>
    obtain ⟨u, us, hus⟩ : ∃ u us, first ++ item :: later = u :: us := by
      cases first <;> exact ⟨_, _, rfl⟩
    rw [hus, join_cons] at ih
    simp [hus, join_cons, ih]

end Text

section Signed

variable {negative : Bool} {digits : Text}

theorem head_of_isDigits (h : isDigits digits = true) : ∃ b rest, digits = b :: rest ∧ b ≠ 45 := by
  obtain ⟨hne, hall⟩ := isDigits_iff.mp h
  obtain ⟨b, rest, rfl⟩ := List.exists_cons_of_ne_nil hne
  refine ⟨b, rest, rfl, fun hminus => ?_⟩
  exact absurd (hall b List.mem_cons_self) (hminus ▸ by decide)

theorem unsigned_signed (h : isDigits digits = true) :
    unsigned (Text.signed negative digits) = digits := by
  obtain ⟨b, rest, rfl, hb⟩ := head_of_isDigits h
  cases negative with
  | true => rfl
  | false => exact Parse.unsigned_of_ne hb

/-- The tokens in front of the digits. -/
def signLexemes (negative : Bool) : List Lexeme := if negative then [.sign .minus] else []

/-- The digits are one token, and a sign in front of them is another. -/
theorem signedLexemes_signed (h : isDigits digits = true) :
    Literal.signedLexemes .int (Text.signed negative digits) =
      signLexemes negative ++ [.exact .int digits] := by
  obtain ⟨b, rest, rfl, hb⟩ := head_of_isDigits h
  cases negative with
  | true => rfl
  | false => exact Parse.signedLexemes_of_ne hb

end Signed

/-! ## 2. Values -/

/-- The value groups as its tokens do, its names and constants are such as tokens can be, and it
    nests no deeper than the limit. -/
structure Expr.WellFormed (limit : Nat) (e : Expr) : Prop where
  canonical : e.isCanonical = true
  lexical : e.isLexical = true
  depth_le : e.depth ≤ limit

theorem Expr.WellFormed.written {limit : Nat} {e : Expr} {ts : List Token} (h : e.WellFormed limit)
    (hts : Spells e.lexemes ts) : e.Written limit ts :=
  ⟨h.canonical, h.lexical, h.depth_le, hts⟩

/-- Where digits stand in a value: behind a minus sign of their own or not, and alone or taken away
    from another value. -/
structure Operand where
  minuend : Option Expr
  negative : Bool
  deriving DecidableEq, Repr

namespace Operand

variable (o : Operand) {digits : Text}

/-- The tokens before the digits. -/
def before : List Lexeme :=
  match o.minuend with
  | none => signLexemes o.negative
  | some x => x.lexemes ++ .sign .minus :: signLexemes o.negative

/-- The number that the digits stand for. -/
def value (digits : Text) : Int := Text.signedValue o.negative digits

/-- The constant that the digits are, with their sign. -/
def literal (digits : Text) : Literal := .int (Text.signed o.negative digits) (o.value digits)

/-- The value with the digits. -/
def fill (digits : Text) : Expr :=
  match o.minuend with
  | none => .literal (o.literal digits)
  | some x => .arith .sub x (.literal (o.literal digits))

theorem lexemes_fill (h : isDigits digits = true) :
    (o.fill digits).lexemes = o.before ++ [.exact .int digits] := by
  obtain ⟨minuend, negative⟩ := o
  cases minuend <;>
    simp [fill, before, Expr.lexemes, literal, Literal.lexemes, signedLexemes_signed h,
      ArithOp.symbol]

theorem isLexical_literal (h : isDigits digits = true) (hv : inInt64 (o.value digits) = true) :
    (o.literal digits).isLexical = true := by
  have hread : Text.int64? (Text.signed o.negative digits) = some (o.value digits) :=
    (Text.int64_signed h).trans (if_pos hv)
  simp [literal, Literal.isLexical, unsigned_signed h, h, hread]

theorem minuend_wellFormed {limit : Nat} (h : (o.fill digits).WellFormed limit) :
    ∀ x ∈ o.minuend, x.WellFormed limit := by
  intro x hx
  obtain ⟨hc, hl, hd⟩ := h
  rw [fill, hx] at hc hl hd
  simp only [Expr.isCanonical, Expr.isLexical, Expr.depth, Bool.and_eq_true, Nat.max_le] at hc hl hd
  exact ⟨hc.1.1, hl.1, hd.1⟩

end Operand

/-! ## 3. Simple conditions -/

namespace Predicate

/-- The same of a condition. -/
structure WellFormed (limit : Nat) (p : Predicate) : Prop where
  canonical : p.isCanonical = true
  lexical : p.isLexical = true
  depth_le : p.depth ≤ limit

theorem WellFormed.written {limit : Nat} {p : Predicate} {ts : List Token} (h : p.WellFormed limit)
    (hts : Spells p.lexemes ts) : p.Written limit ts :=
  ⟨h.canonical, h.lexical, h.depth_le, hts⟩

/-- A simple condition with a gap for a value on its right side: that of a comparison, one of the
    two bounds of a range, or one of the values of a list. -/
inductive Test
  | compare (op : CompareOp) (subject : Expr)
  | lower (negated : Bool) (subject high : Expr)
  | upper (negated : Bool) (subject low : Expr)
  | among (negated : Bool) (subject : Expr) (first later : List Expr)
  deriving DecidableEq, Repr

namespace Test

/-- The condition with a value in the gap. -/
def fill : Test → Expr → Predicate
  | compare op x, e => .compare op x e
  | lower n x high, e => .between n x e high
  | upper n x low, e => .between n x low e
  | among n x first later, e => .inList n x (first ++ e :: later)

/-- What is tested. -/
def subject : Test → Expr
  | compare _ x => x
  | lower _ x _ => x
  | upper _ x _ => x
  | among _ x _ _ => x

/-- The values between the subject and the gap. -/
def passed : Test → List Expr
  | compare .. => []
  | lower .. => []
  | upper _ _ low => [low]
  | among _ _ first _ => first

/-- The tokens between the subject and the gap. -/
def opening : Test → List Lexeme
  | compare op _ => [.sign op.symbol]
  | lower n _ _ => notLexemes n ++ [.word .BETWEEN]
  | upper n _ low => notLexemes n ++ .word .BETWEEN :: (low.lexemes ++ [.word .AND])
  | among n _ first _ =>
    notLexemes n ++ .word .IN :: .sign .openParen ::
      first.flatMap fun e => e.lexemes ++ [.sign .comma]

/-- The tokens behind the gap. -/
def after : Test → List Lexeme
  | compare .. => []
  | lower _ _ high => .word .AND :: high.lexemes
  | upper .. => []
  | among _ _ _ later => later.flatMap (fun e => .sign .comma :: e.lexemes) ++ [.sign .closeParen]

/-- The condition that is stated, with a value on the right side. -/
def condition : Test → Value → Condition
  | compare op x, w => .compare x.text (.compare op) w
  | lower n x high, w => .between n x.text w high.toValue
  | upper n x low, w => .between n x.text low.toValue w
  | among n x first later, w =>
    .inList n x.text (first.map Expr.toValue ++ w :: later.map Expr.toValue)

end Test

/-- The tokens of a list of values, one of which stands apart. -/
theorem valueLexemes_around (first later : List Expr) (e : Expr) :
    valueLexemes (first ++ e :: later) =
      (first.flatMap fun e => e.lexemes ++ [.sign .comma]) ++
        (e.lexemes ++ later.flatMap fun e => .sign .comma :: e.lexemes) := by
  induction first with
  | nil =>
    induction later generalizing e with
    | nil => simp [valueLexemes]
    | cons e' later ih => simpa [valueLexemes] using ih e'
  | cons e' first ih =>
    obtain ⟨x, xs, hxs⟩ : ∃ x xs, first ++ e :: later = x :: xs := by
      cases first <;> exact ⟨_, _, rfl⟩
    rw [hxs] at ih
    simp [hxs, valueLexemes, ih]

namespace Test

variable (t : Test) (e : Expr)

theorem lexemes_fill :
    (t.fill e).lexemes = t.subject.lexemes ++ (t.opening ++ (e.lexemes ++ t.after)) := by
  cases t with
  | among => simp [fill, subject, opening, after, lexemes, valueLexemes_around]
  | _ => simp [fill, subject, opening, after, lexemes]

/-- The values of a well-formed condition are well-formed. -/
theorem values_wellFormed {t : Test} {e : Expr} {limit : Nat} (h : (t.fill e).WellFormed limit) :
    t.subject.WellFormed limit ∧ (∀ x ∈ t.passed, x.WellFormed limit) ∧ e.WellFormed limit := by
  obtain ⟨hc, hl, hd⟩ := h
  cases t with
  | compare op x =>
    simp only [fill, isCanonical, isLexical, depth, Bool.and_eq_true, Nat.max_le] at hc hl hd
    exact ⟨⟨hc.1, hl.1, hd.1⟩, by simp [passed], ⟨hc.2, hl.2, hd.2⟩⟩
  | lower n x high =>
    simp only [fill, isCanonical, isLexical, depth, Bool.and_eq_true, Nat.max_le] at hc hl hd
    exact ⟨⟨hc.1.1, hl.1.1, hd.1⟩, by simp [passed], ⟨hc.1.2, hl.1.2, hd.2.1⟩⟩
  | upper n x low =>
    simp only [fill, isCanonical, isLexical, depth, Bool.and_eq_true, Nat.max_le] at hc hl hd
    refine ⟨⟨hc.1.1, hl.1.1, hd.1⟩, ?_, ⟨hc.2, hl.2, hd.2.2⟩⟩
    exact List.forall_mem_singleton.mpr ⟨hc.1.2, hl.1.2, hd.2.1⟩
  | among n x first later =>
    simp only [fill, isCanonical, isLexical, depth, Bool.and_eq_true, List.all_eq_true,
      Parse.foldr_max_le, List.forall_mem_map] at hc hl hd
    have hvalues : ∀ v ∈ first ++ e :: later, v.WellFormed limit := fun v hv =>
      ⟨hc.2 v hv, hl.2 v hv, hd.2 v hv⟩
    obtain ⟨hfirst, hlater⟩ := List.forall_mem_append.mp hvalues
    exact ⟨⟨hc.1, hl.1.1, hd.1⟩, hfirst, (List.forall_mem_cons.mp hlater).1⟩

theorem reduce_fill : (t.fill e).reduce = t.condition e.toValue := by
  cases t <;> simp [fill, reduce, condition]

/-- In SQL the text of the value stands between texts that do not depend on it. -/
theorem exists_sql : ∃ x y : Text, ∀ w : Value, (t.condition w).sql = x ++ (w.sql ++ y) := by
  cases t with
  | compare op x =>
    refine ⟨x.text ++ ascii " " ++ op.spelling ++ ascii " ", [], fun w => ?_⟩
    simp [condition, Condition.sql, SqlOp.spelling]
  | lower n x high =>
    refine ⟨x.text ++ Condition.notMark n ++ ascii " BETWEEN ",
      ascii " AND " ++ high.toValue.sql, fun w => ?_⟩
    simp [condition, Condition.sql]
  | upper n x low =>
    refine ⟨x.text ++ Condition.notMark n ++ ascii " BETWEEN " ++ low.toValue.sql ++ ascii " AND ",
      [], fun w => ?_⟩
    simp [condition, Condition.sql]
  | among n x first later =>
    refine ⟨x.text ++ Condition.notMark n ++ ascii " IN (" ++
        first.flatMap (fun e => e.toValue.sql ++ ascii ", "),
      later.flatMap (fun e => ascii ", " ++ e.toValue.sql) ++ ascii ")", fun w => ?_⟩
    simp [condition, Condition.sql, Text.join_around, List.flatMap_map]

end Test

/-! ## 4. Conditions -/

/-- Two conditions fit into the same places, and with the same depth. -/
structure SameForm (p q : Predicate) : Prop where
  canonical : p.isCanonical = q.isCanonical
  lexical : p.isLexical = q.isLexical
  depth : p.depth = q.depth
  logical : p.isLogical = q.isLogical
  disjunction : p.isDisjunction = q.isDisjunction

theorem Test.fill_sameForm (t : Test) {e e' : Expr} (hc : e.isCanonical = e'.isCanonical)
    (hl : e.isLexical = e'.isLexical) (hd : e.depth = e'.depth) :
    SameForm (t.fill e) (t.fill e') := by
  have hfilled : ∀ (first later : List Expr) (e : Expr), (first ++ e :: later).isEmpty = false :=
    fun first _ _ => by cases first <;> rfl
  constructor <;> cases t <;>
    simp [fill, isCanonical, isLexical, depth, isLogical, isDisjunction, hfilled, hc, hl, hd]

namespace Context

/-- The condition that is stated, with another one in the gap. -/
def condition : Context → Condition → Condition
  | gap, d => d
  | left op c r, d => .logical op (c.condition d) r.reduce
  | right op l c, d => .logical op l.reduce (c.condition d)
  | not c, d => .not (c.condition d)
  | paren c, d => c.condition d

variable (c : Context)

theorem fill_sameForm {p q : Predicate} (h : SameForm p q) : SameForm (c.fill p) (c.fill q) := by
  induction c with
  | gap => exact h
  | left op c r ih | right op l c ih =>
    cases op <;> exact
      { canonical := by simp only [fill, isCanonical, ih.canonical, ih.logical, ih.disjunction]
        lexical := by simp only [fill, isLexical, ih.lexical]
        depth := by simp only [fill, Predicate.depth, ih.depth]
        logical := rfl
        disjunction := rfl }
  | not c ih | paren c ih => exact
      { canonical := by simp only [fill, isCanonical, ih.canonical, ih.logical]
        lexical := ih.lexical
        depth := congrArg (· + 1) ih.depth
        logical := rfl
        disjunction := rfl }

theorem reduce_fill (p : Predicate) : (c.fill p).reduce = c.condition p.reduce := by
  induction c with
  | gap => rfl
  | left op c r ih | right op l c ih | not c ih => simp only [fill, reduce, condition, ih]
  | paren c ih => exact ih

theorem exists_sql : ∃ x y : Text, ∀ d : Condition, (c.condition d).sql = x ++ (d.sql ++ y) := by
  induction c with
  | gap => exact ⟨[], [], fun d => by simp [condition]⟩
  | left op c r ih =>
    obtain ⟨x, y, h⟩ := ih
    refine ⟨ascii "(" ++ x, y ++ ascii " " ++ op.spelling ++ ascii " " ++ r.reduce.sql ++ ascii ")",
      fun d => ?_⟩
    simp [condition, Condition.sql, h]
  | right op l c ih =>
    obtain ⟨x, y, h⟩ := ih
    refine ⟨ascii "(" ++ l.reduce.sql ++ ascii " " ++ op.spelling ++ ascii " " ++ x, y ++ ascii ")",
      fun d => ?_⟩
    simp [condition, Condition.sql, h]
  | not c ih =>
    obtain ⟨x, y, h⟩ := ih
    refine ⟨ascii "NOT (" ++ x, y ++ ascii ")", fun d => ?_⟩
    simp [condition, Condition.sql, h]
  | paren c ih => exact ih

end Context

end Predicate

/-! ## 5. Numbers in conditions -/

/-- Where a number stands in a condition: on the right side of one of its simple conditions. -/
structure NumberPlace where
  context : Predicate.Context
  test : Predicate.Test
  operand : Operand
  deriving DecidableEq, Repr

namespace NumberPlace

variable (place : NumberPlace) {digits : Text}

/-- The simple condition with digits in the gap. -/
def part (digits : Text) : Predicate := place.test.fill (place.operand.fill digits)

/-- The condition with digits in the gap. -/
def predicate (digits : Text) : Predicate := place.context.fill (place.part digits)

/-- The tokens before the digits. -/
def before : List Lexeme :=
  place.context.before ++
    (place.test.subject.lexemes ++ (place.test.opening ++ place.operand.before))

/-- The tokens behind the digits. -/
def after : List Lexeme := place.test.after ++ place.context.after

/-- The condition that is stated, with a value in the gap. -/
def condition (w : Value) : Condition := place.context.condition (place.test.condition w)

/-- The condition is well-formed but for the number in the gap: with a zero there it is. -/
def WellFormed (limit : Nat) : Prop := (place.predicate (ascii "0")).WellFormed limit

/-- **The digits stand between the tokens of their place.** -/
theorem lexemes_predicate (h : isDigits digits = true) :
    (place.predicate digits).lexemes = place.before ++ .exact .int digits :: place.after := by
  simp [predicate, part, before, after, Predicate.Context.lexemes_fill,
    Predicate.Test.lexemes_fill, place.operand.lexemes_fill h]

/-- A number of the range leaves the form of the condition as it is. -/
theorem sameForm (h : isDigits digits = true) (hv : inInt64 (place.operand.value digits) = true) :
    (place.predicate digits).SameForm (place.predicate (ascii "0")) := by
  obtain ⟨context, test, minuend, negative⟩ := place
  refine context.fill_sameForm (test.fill_sameForm ?_ ?_ ?_)
  · cases minuend <;> rfl
  · have hzero : inInt64 (Operand.value ⟨minuend, negative⟩ (ascii "0")) = true := by
      cases negative <;> rfl
    have hlexical := Operand.isLexical_literal ⟨minuend, negative⟩ h hv
    have hlexical' := Operand.isLexical_literal ⟨minuend, negative⟩ (by decide) hzero
    cases minuend <;> simp [Operand.fill, Expr.isLexical, hlexical, hlexical']
  · cases minuend <;> rfl

/-- **A well-formed condition is so with every number of the range.** -/
theorem written {limit : Nat} (hplace : place.WellFormed limit) (h : isDigits digits = true)
    (hv : inInt64 (place.operand.value digits) = true) {us vs : List Token} {k : Token}
    (hus : Spells place.before us) (hk : k.kind = .int ∧ k.text = digits)
    (hvs : Spells place.after vs) : (place.predicate digits).Written limit (us ++ k :: vs) := by
  have hform := place.sameForm h hv
  refine Predicate.WellFormed.written ⟨hform.canonical ▸ hplace.canonical,
    hform.lexical ▸ hplace.lexical, hform.depth ▸ hplace.depth_le⟩ ?_
  rw [place.lexemes_predicate h, spells_append]
  exact ⟨us, k :: vs, rfl, hus, spells_cons.mpr ⟨k, vs, rfl, Lexeme.exact_spells.mpr hk, hvs⟩⟩

/-- **A number that is a value of its own is held as that number.** -/
theorem reduce_predicate (h : place.operand.minuend = none) (digits : Text) :
    (place.predicate digits).reduce = place.condition (.integer (place.operand.value digits)) := by
  rw [predicate, part, Predicate.Context.reduce_fill, Predicate.Test.reduce_fill, Operand.fill, h]
  rfl

/-- In SQL the text of a value stands between texts that do not depend on it. -/
theorem exists_sql : ∃ x y : Text, ∀ w : Value, (place.condition w).sql = x ++ (w.sql ++ y) := by
  obtain ⟨x, y, htest⟩ := place.test.exists_sql
  obtain ⟨x', y', hcontext⟩ := place.context.exists_sql
  exact ⟨x' ++ x, y ++ y', fun w => by simp [condition, hcontext, htest]⟩

end NumberPlace

end MiningQuery
