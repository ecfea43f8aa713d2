/-
  File:      MiningQuery/Proofs/Number/Range.lean
  Subject:   Integers of any length are read exactly, or cost the condition they stand in.

  A number out of the range fails where its digits stand. What stands before them is read, so that
  the failure comes up where the reader of the condition has arrived; only an attempt at a condition
  in parentheses that fails so is given up, and the tokens are read again as a value.

  * `chain_of_right`, `commaList_of_later` -- a chain and a list fail where a later item does;
  * `number_out_of_range`, `operand_fails` -- a number out of the range fails, and so does its
    value;
  * `simple_fails`, `negation_of_subject` -- so does the simple condition, and no attempt at its
    subject comes between;
  * **`Predicate.Context.fails`** -- so do all conditions around it, those in parentheses perhaps at
    another token;
  * **`integers_are_exact`** -- a well-formed condition holds the number that its digits are, whose
    SQL is the shortest text of the number, or the number is out of the range and the condition is
    dropped with one error.
-/
import MiningQuery.Proofs.Limit.Statement
import MiningQuery.Proofs.Number.Place

namespace MiningQuery

namespace Parse

variable {α ω : Type} {n : Nat} {f : Failure}

/-! ## 1. Chains and lists -/

/-- **A chain fails where an item behind one of its operators does**, if what stands before it is
    read. -/
theorem chain_of_right {operator : TokenKind → Option ω} {combine : ω → α → α → α} {item : Parse α}
    {W : α → List Token → Prop} {Stop : List Token → Prop} (hitem : Reads item W Stop)
    (hop : ∀ o ts, (operator o.kind).isSome → Stop (o :: ts)) {left : α} {us rest : List Token}
    {o : Token} {op : ω} (hleft : Chained operator combine W left us)
    (ho : operator o.kind = some op) (hf : item rest = .error f) :
    chain operator combine item (us ++ o :: rest) = .error f := by
  obtain ⟨k, hk, hloop⟩ := chain_append hitem hop hleft (hop o rest (by simp [ho]))
  obtain ⟨k, rfl⟩ : ∃ k', k = k' + 1 := ⟨k - 1, by simp at hk; omega⟩
  rw [hloop, chainFrom]
  simp only [kindOf_cons, ho, List.tail_cons, hf]
  rfl

section List

variable {first : List Expr} {us rest : List Token}

/-- The tokens of a value and a comma are those of the value, and a comma. -/
theorem spells_first {e : Expr} (h : Spells ((e :: first).flatMap fun e =>
      e.lexemes ++ [.sign .comma]) us) :
    ∃ es c vs, us = es ++ c :: vs ∧ Spells e.lexemes es ∧ c.kind = .symbol .comma ∧
      Spells (first.flatMap fun e => e.lexemes ++ [.sign .comma]) vs := by
  simp only [List.flatMap_cons, List.append_assoc, List.cons_append, List.nil_append, spells_append,
    spells_cons, Lexeme.sign_spells] at h
  obtain ⟨es, _, rfl, he, c, vs, rfl, hc, hvs⟩ := h
  exact ⟨es, c, vs, rfl, he, hc, hvs⟩

theorem comma_stop {c : Token} (hc : c.kind = .symbol .comma) (ts : List Token) :
    ExprStop (c :: ts) := by
  simp [ExprStop, FactorStop, hc, multiplicative?, additive?]

/-- Behind a comma the list fails where a later value does, if there are rounds enough. -/
theorem commaListFrom_of_later (hf : expr n rest = .error f)
    (hfirst : ∀ e ∈ first, e.WellFormed n)
    (hus : Spells (first.flatMap fun e => e.lexemes ++ [.sign .comma]) us) {c : Token}
    (hc : c.kind = .symbol .comma) {rounds : Nat} (hrounds : (us ++ rest).length < rounds) :
    commaListFrom (expr n) rounds (c :: (us ++ rest)) = .error f := by
  induction first generalizing us c rounds with
  | nil =>
    obtain rfl := spells_nil.mp hus
    obtain ⟨k, rfl⟩ : ∃ k, rounds = k + 1 := ⟨rounds - 1, by omega⟩
    simp only [commaListFrom, kindOf_cons, hc, if_true, List.tail_cons, List.nil_append, hf]
    rfl
  | cons e first ih =>
    obtain ⟨es, c', vs, rfl, hes, hc', hvs⟩ := spells_first hus
    obtain ⟨he, hfirst⟩ := List.forall_mem_cons.mp hfirst
    obtain ⟨k, rfl⟩ : ∃ k, rounds = k + 1 := ⟨rounds - 1, by omega⟩
    have hread := (expr_reads n).complete (he.written hes) (comma_stop hc' (vs ++ rest))
    have hfewer : (vs ++ rest).length < k := by
      simp at hrounds ⊢
      omega
    have hlater := ih hfirst hvs hc' hfewer
    simp only [commaListFrom, kindOf_cons, hc, if_true, List.tail_cons, List.append_assoc,
      List.cons_append, hread, bind, Except.bind, hlater]

/-- **A list fails where a later value does**, if those before it are read. -/
theorem commaList_of_later (hf : expr n rest = .error f)
    (hfirst : ∀ e ∈ first, e.WellFormed n)
    (hus : Spells (first.flatMap fun e => e.lexemes ++ [.sign .comma]) us) :
    commaList (expr n) (us ++ rest) = .error f := by
  cases first with
  | nil =>
    obtain rfl := spells_nil.mp hus
    simp only [commaList, List.nil_append, hf]
    rfl
  | cons e first =>
    obtain ⟨es, c, vs, rfl, hes, hc, hvs⟩ := spells_first hus
    obtain ⟨he, hfirst⟩ := List.forall_mem_cons.mp hfirst
    have hread := (expr_reads n).complete (he.written hes) (comma_stop hc (vs ++ rest))
    have hlater := commaListFrom_of_later hf hfirst hvs hc (Nat.lt_succ_self _)
    simp only [commaList, List.append_assoc, List.cons_append, hread, bind, Except.bind,
      List.length_cons, hlater]

end List

/-! ## 2. Values -/

section Value

variable {negative : Bool} {k : Token} {us rest : List Token}

/-- **A number out of the range fails at its digits**, as a number with its sign. -/
theorem number_out_of_range (hk : k.kind = .int) (hdigits : isDigits k.text = true)
    (hv : inInt64 (Text.signedValue negative k.text) = false) (rest : List Token) :
    number negative (k :: rest) = .error ⟨k :: rest, .integerOutOfRange negative⟩ := by
  have hread : Text.int64? ((if negative then ascii "-" else []) ++ k.text) = none :=
    (Text.int64_signed hdigits).trans (if_neg (by simp [hv]))
  simp [number, numberLiteral, hk, hread]

theorem factor_fails (n : Nat) (hk : k.kind = .int) (hf : number negative (k :: rest) = .error f)
    (hus : Spells (signLexemes negative) us) : factor n (us ++ k :: rest) = .error f := by
  cases negative with
  | false =>
    obtain rfl := spells_nil.mp hus
    cases n <;> simpa only [List.nil_append, factor, factorStep, hk] using map_of_error hf
  | true =>
    obtain ⟨m, _, rfl, hm, hnil⟩ := spells_cons.mp hus
    obtain rfl := spells_nil.mp hnil
    have hm : m.kind = .symbol .minus := Lexeme.sign_spells.mp hm
    cases n <;>
      simpa only [List.cons_append, List.nil_append, factor, factorStep, hm, kindOf_cons, isNumber,
        hk, decide_true, Bool.true_or, if_true] using map_of_error hf

/-- The value fails where the number does, also if the number is taken away from another value. -/
theorem operand_fails {o : Operand} (hk : k.kind = .int)
    (hf : number o.negative (k :: rest) = .error f)
    (ho : ∀ x ∈ o.minuend, x.WellFormed n) (hus : Spells o.before us) :
    expr n (us ++ k :: rest) = .error f := by
  obtain ⟨minuend, negative⟩ := o
  cases minuend with
  | none => exact chain_of_error (chain_of_error (factor_fails n hk hf hus))
  | some x =>
    simp only [Operand.before, spells_append, spells_cons, Lexeme.sign_spells] at hus
    obtain ⟨xs, _, rfl, hxs, m, ms, rfl, hm, hms⟩ := hus
    have hminus : additive? m.kind = some .sub := by rw [hm]; rfl
    rw [List.append_assoc, List.cons_append]
    exact chain_of_right (term_reads (factor_reads n)) additive_stop
      (chained_term_iff.mpr ((ho x rfl).written hxs)) hminus
      (chain_of_error (factor_fails n hk hf hms))

end Value

/-! ## 3. Simple conditions -/

section Test

variable {t : Predicate.Test} {e : Expr} {os xs bad rest : List Token}

/-- Where a test that can be negated begins, no expression goes on, but a value does. -/
theorem negatable_continues {negated : Bool} {ns us : List Token} (hns : NotWritten negated ns)
    (hk : kindOf us ∈ negatable) : ExprStop (ns ++ us) ∧ continuesValue (ns ++ us) = true := by
  cases negated with
  | false =>
    obtain rfl := notWritten_false.mp hns
    have hkinds : ∀ k ∈ negatable, ((k ≠ .symbol .dot ∧ k ≠ .symbol .openParen) ∧
        multiplicative? k = none) ∧ additive? k = none := by decide
    exact ⟨hkinds _ hk, by simp [continuesValue, hk]⟩
  | true =>
    obtain ⟨t, rfl, ht⟩ := notWritten_true.mp hns
    exact ⟨by simp [ExprStop, FactorStop, ht, multiplicative?, additive?],
      by simp [continuesValue, ht, hk]⟩

/-- What stands behind the subject shows that a value goes on there. -/
theorem opening_continues (hos : Spells t.opening os) (rest : List Token) :
    ExprStop (os ++ rest) ∧ continuesValue (os ++ rest) = true := by
  cases t with
  | compare op x =>
    obtain ⟨o, _, rfl, ho, -⟩ := spells_cons.mp hos
    have ho : o.kind = .symbol op.symbol := Lexeme.sign_spells.mp ho
    cases op <;>
      simp [ExprStop, FactorStop, continuesValue, ho, CompareOp.symbol, comparison?,
        multiplicative?, additive?]
  | lower | upper | among =>
    simp only [Predicate.Test.opening, spells_append, spells_cons, Lexeme.word_spells] at hos
    obtain ⟨ns, _, rfl, hns, w, ws, rfl, hw, -⟩ := hos
    rw [List.append_assoc]
    exact negatable_continues hns (by simp [hw, negatable])

/-- Behind the subject the reader fails where the value in the gap does. -/
theorem simpleTail_fails (ht : ∀ x ∈ t.passed, x.WellFormed n) (hos : Spells t.opening os)
    (hbad : expr n bad = .error f) (x : Expr) :
    simpleTail (expr n) x (os ++ bad) = .error f := by
  cases t with
  | compare op y =>
    obtain ⟨o, _, rfl, ho, hnil⟩ := spells_cons.mp hos
    obtain rfl := spells_nil.mp hnil
    have ho : comparison? o.kind = some op := comparison_eq_some.mpr (Lexeme.sign_spells.mp ho)
    simp only [List.cons_append, List.nil_append, simpleTail, kindOf_cons, ho, List.tail_cons]
    exact map_of_error hbad
  | lower negated y high =>
    simp only [Predicate.Test.opening, spells_append, spells_cons, spells_nil,
      Lexeme.word_spells] at hos
    obtain ⟨ns, _, rfl, hns, b, _, rfl, hb, rfl⟩ := hos
    rw [List.append_assoc, simpleTail_negatable hns (by simp [hb, negatable])]
    simp only [List.cons_append, List.nil_append, negatableTail, kindOf_cons, hb, List.tail_cons]
    exact bind_of_error hbad
  | upper negated y low =>
    simp only [Predicate.Test.opening, spells_append, spells_cons, spells_nil,
      Lexeme.word_spells] at hos
    obtain ⟨ns, _, rfl, hns, b, _, rfl, hb, ls, _, rfl, hls, a, _, rfl, ha, rfl⟩ := hos
    have hlow : low.WellFormed n := ht low List.mem_cons_self
    have hstop : ExprStop (a :: bad) := by
      simp [ExprStop, FactorStop, ha, multiplicative?, additive?]
    rw [List.append_assoc, simpleTail_negatable hns (by simp [hb, negatable])]
    simp only [List.cons_append, List.append_assoc, List.nil_append, negatableTail, kindOf_cons, hb,
      List.tail_cons]
    rw [between, bind_of_ok ((expr_reads n).complete (hlow.written hls) hstop),
      bind_of_ok (word_cons ha _)]
    exact bind_of_error hbad
  | among negated y first later =>
    simp only [Predicate.Test.opening, spells_append, spells_cons, Lexeme.word_spells,
      Lexeme.sign_spells] at hos
    obtain ⟨ns, _, rfl, hns, i, _, rfl, hi, o, us, rfl, ho, hus⟩ := hos
    rw [List.append_assoc, simpleTail_negatable hns (by simp [hi, negatable])]
    simp only [List.cons_append, negatableTail, kindOf_cons, hi, List.tail_cons]
    rw [inList, bind_of_ok (sign_cons ho _)]
    exact bind_of_error (commaList_of_later hbad ht hus)

/-- **A simple condition fails where the value in its gap does.** -/
theorem simple_fails (ht : (t.fill e).WellFormed n) (hxs : Spells t.subject.lexemes xs)
    (hos : Spells t.opening os) (hbad : expr n bad = .error f) :
    simple n (xs ++ (os ++ bad)) = .error f := by
  obtain ⟨hsubject, hpassed, -⟩ := Predicate.Test.values_wellFormed ht
  have hread := (expr_reads n).complete (hsubject.written hxs) (opening_continues hos bad).1
  rw [simple, simpleOf, bind_of_ok hread]
  exact simpleTail_fails hpassed hos hbad t.subject

/-- What starts with a value that goes on is a simple condition, also if it starts with a
    parenthesis: the attempt at a condition comes to its end where the value goes on. -/
theorem negation_of_subject {x : Expr} (hx : x.Written n xs) (hrest : continuesValue rest = true)
    (attempting : Bool) : negation n attempting (xs ++ rest) = simple n (xs ++ rest) := by
  by_cases hopen : kindOf xs = .symbol .openParen
  · obtain ⟨m, o, e, us, c, vs, rfl, rfl, ho, he, hc, hvs⟩ := leading_paren hx hopen
    have hcontinues : continuesValue (vs ++ rest) = true := by
      rcases hvs with ⟨rfl, -⟩ | hvs
      · exact hrest
      · exact hvs.continues rest
    rw [List.cons_append, List.append_assoc, List.cons_append]
    exact negation_value ho (grouped_complete (negation_reads m true) he.asPredicate hc) hcontinues
  · have hstart := kindOf_spells hx.spells []
    rw [List.append_nil] at hstart
    obtain _ | ⟨t, ts⟩ := xs
    · exact absurd hstart (by decide)
    · rw [kindOf_cons] at hstart
      refine negation_simple n attempting (fun hnot => ?_) hopen
      rw [List.cons_append, kindOf_cons] at hnot
      rw [hnot] at hstart
      exact absurd hstart (by decide)

end Test

end Parse

/-! ## 4. Conditions -/

namespace Predicate.Context

open Parse

/-- Is the gap in no parentheses? -/
def isOpen : Context → Bool
  | gap => true
  | left _ c _ => c.isOpen
  | right _ _ c => c.isOpen
  | not c => c.isOpen
  | paren _ => false

/-- The reader fails, and as the filling of the gap does if this is in no parentheses. -/
def Fails (c : Context) (f : Failure) (r : Parse Predicate) (ts : List Token) : Prop :=
  ∃ f', r ts = .error f' ∧ (c.isOpen = true → f' = f)

/-- The reader of parts fails on the tokens, or that of conjunctions or that of conditions does if
    the condition that begins there is a conjunction or a disjunction. -/
def FailsOn (c : Context) (f : Failure) (p : Predicate) (r : Parse Predicate) (ts : List Token) :
    Prop :=
  (p.isLogical = false → c.Fails f r ts) ∧
    (p.isDisjunction = false → c.Fails f (chain conjunctive? .logical r) ts) ∧
    c.Fails f (conditionOf r) ts

section Fails

variable {c : Context} {f : Failure} {p : Predicate} {r : Parse Predicate} {ts : List Token}

theorem Fails.chain (h : c.Fails f r ts) (operator : TokenKind → Option LogicOp) :
    c.Fails f (Parse.chain operator .logical r) ts := by
  obtain ⟨f', hr, hopen⟩ := h
  exact ⟨f', chain_of_error hr, hopen⟩

/-- Where a part fails, so do the conjunction and the condition that it begins. -/
theorem Fails.part (h : c.Fails f r ts) : c.FailsOn f p r ts :=
  ⟨fun _ => h, fun _ => h.chain conjunctive?, (h.chain conjunctive?).chain disjunctive?⟩

theorem Fails.conjunction (h : c.Fails f (Parse.chain conjunctive? .logical r) ts)
    (hp : p.isLogical = true) : c.FailsOn f p r ts :=
  ⟨fun hpart => absurd hpart (by simp [hp]), fun _ => h, h.chain disjunctive?⟩

theorem Fails.condition (h : c.Fails f (conditionOf r) ts) (hp : p.isLogical = true)
    (hp' : p.isDisjunction = true) : c.FailsOn f p r ts :=
  ⟨fun hpart => absurd hpart (by simp [hp]),
    fun hconjunction => absurd hconjunction (by simp [hp']), h⟩

end Fails

/-- **All conditions around a condition fail if it fails**, those in parentheses perhaps in another
    way. What stands before it is read. -/
theorem fails {c : Context} {f : Failure} {q : Predicate} {bad : List Token}
    (hbad : ∀ m attempting, q.WellFormed m → negation m attempting bad = .error f)
    {n : Nat} {us : List Token} (h : (c.fill q).WellFormed n) (hus : Spells c.before us)
    (attempting : Bool) : c.FailsOn f (c.fill q) (negation n attempting) (us ++ bad) := by
  induction c generalizing n us attempting with
  | gap =>
    obtain rfl := spells_nil.mp hus
    exact Fails.part ⟨f, hbad n attempting h, fun _ => rfl⟩
  | left op c r ih =>
    obtain ⟨hc, hl, hd⟩ := h
    have hd' := (Nat.max_le.mp hd).1
    have hl' := (Bool.and_eq_true_iff.mp hl).1
    cases op with
    | and =>
      simp only [fill, isCanonical, Bool.and_eq_true, Bool.not_eq_true'] at hc
      obtain ⟨-, hconjunction, -⟩ := ih ⟨hc.1.1.1, hl', hd'⟩ hus attempting
      exact Fails.conjunction (hconjunction hc.1.2) rfl
    | or =>
      simp only [fill, isCanonical, Bool.and_eq_true, Bool.not_eq_true'] at hc
      obtain ⟨-, -, hcondition⟩ := ih ⟨hc.1.1, hl', hd'⟩ hus attempting
      exact Fails.condition hcondition rfl rfl
  | right op l c ih =>
    obtain ⟨hc, hl, hd⟩ := h
    obtain ⟨hdl, hd'⟩ := Nat.max_le.mp hd
    obtain ⟨hll, hl'⟩ := Bool.and_eq_true_iff.mp hl
    simp only [before, spells_append, spells_cons, Lexeme.word_spells] at hus
    obtain ⟨ls, _, rfl, hls, o, us, rfl, ho, hus⟩ := hus
    rw [List.append_assoc, List.cons_append]
    cases op with
    | and =>
      simp only [fill, isCanonical, Bool.and_eq_true, Bool.not_eq_true'] at hc
      obtain ⟨hpart, -, -⟩ := ih ⟨hc.1.1.2, hl', hd'⟩ hus attempting
      obtain ⟨f', hf', hopen⟩ := hpart hc.2
      refine Fails.conjunction ⟨f', ?_, hopen⟩ rfl
      exact chain_of_right (negation_reads n attempting) conjunctive_stop
        (chained_negation_iff.mpr ⟨hc.1.2, hc.1.1.1, hll, hdl, hls⟩)
        (conjunctive_eq_some.mpr ⟨rfl, ho⟩) hf'
    | or =>
      simp only [fill, isCanonical, Bool.and_eq_true, Bool.not_eq_true'] at hc
      obtain ⟨-, hconjunction, -⟩ := ih ⟨hc.1.2, hl', hd'⟩ hus attempting
      obtain ⟨f', hf', hopen⟩ := hconjunction hc.2
      refine Fails.condition ⟨f', ?_, hopen⟩ rfl rfl
      exact chain_of_right (conjunction_reads (negation_reads n attempting)) disjunctive_stop
        (chained_conjunction_iff.mpr ⟨hc.1.1, hll, hdl, hls⟩) (disjunctive_eq_some.mpr ⟨rfl, ho⟩)
        hf'
  | not c ih =>
    obtain ⟨hc, hl, hd⟩ := h
    simp only [fill, isCanonical, Bool.and_eq_true, Bool.not_eq_true'] at hc
    obtain ⟨m, rfl⟩ : ∃ m, n = m + 1 := ⟨n - 1, by simp only [fill, Predicate.depth] at hd; omega⟩
    obtain ⟨w, us, rfl, hw, hus⟩ := spells_cons.mp hus
    have hw : w.kind = .keyword .NOT := Lexeme.word_spells.mp hw
    obtain ⟨hpart, -, -⟩ := ih ⟨hc.1, hl, Nat.le_of_succ_le_succ hd⟩ hus attempting
    obtain ⟨f', hf', hopen⟩ := hpart hc.2
    refine Fails.part ⟨f', ?_, hopen⟩
    rw [List.cons_append, negation_not (by rw [kindOf_cons, hw])]
    exact map_of_error hf'
  | paren c ih =>
    obtain ⟨hc, hl, hd⟩ := h
    obtain ⟨m, rfl⟩ : ∃ m, n = m + 1 := ⟨n - 1, by simp only [fill, Predicate.depth] at hd; omega⟩
    obtain ⟨o, us, rfl, ho, hus⟩ := spells_cons.mp hus
    have ho : o.kind = .symbol .openParen := Lexeme.sign_spells.mp ho
    obtain ⟨-, -, f', hf', -⟩ := ih ⟨hc, hl, Nat.le_of_succ_le_succ hd⟩ hus true
    have hattempt := grouped_failed hf'
    have hfails : ∃ f'', negation (m + 1) attempting (o :: (us ++ bad)) = .error f'' := by
      cases hkept : f'.fatal || attempting with
      | true => exact ⟨f', negation_failed ho hattempt hkept⟩
      | false =>
        -- the attempt is given up, and the second reading fails as well
        obtain ⟨hfatal, rfl⟩ := Bool.or_eq_false_iff.mp hkept
        rw [negation_given_up ho hattempt hfatal]
        exact simple_of_failed_attempt ho hattempt
    obtain ⟨f'', hf''⟩ := hfails
    exact Fails.part ⟨f'', hf'', fun hopen => absurd hopen Bool.false_ne_true⟩

end Predicate.Context

/-! ## 5. Clauses and statements -/

section Place

variable {place : NumberPlace} {limit : Nat} {us vs : List Token} {k : Token}

/-- **A condition with a number out of the range fails**, and at the digits if they stand in no
    condition in parentheses. -/
theorem NumberPlace.fails (h : place.WellFormed limit) (hus : Spells place.before us)
    (hk : k.kind = .int) (hdigits : isDigits k.text = true)
    (hv : inInt64 (place.operand.value k.text) = false) (vs : List Token) :
    place.context.Fails ⟨k :: vs, .integerOutOfRange place.operand.negative⟩
      (Parse.condition limit) (us ++ k :: vs) := by
  simp only [NumberPlace.before, spells_append] at hus
  obtain ⟨cs, _, rfl, hcs, xs, _, rfl, hxs, os, ns, rfl, hos, hns⟩ := hus
  have hnumber := Parse.number_out_of_range hk hdigits hv vs
  have hbad : ∀ m attempting, (place.part (ascii "0")).WellFormed m →
      Parse.negation m attempting (xs ++ (os ++ (ns ++ k :: vs))) =
        .error ⟨k :: vs, .integerOutOfRange place.operand.negative⟩ := by
    intro m attempting hpart
    obtain ⟨hsubject, -, hoperand⟩ := Predicate.Test.values_wellFormed hpart
    have hvalue := Parse.operand_fails hk hnumber
      (place.operand.minuend_wellFormed hoperand) hns
    rw [Parse.negation_of_subject (hsubject.written hxs) (Parse.opening_continues hos _).2]
    exact Parse.simple_fails hpart hxs hos hvalue
  simp only [List.append_assoc]
  exact (place.context.fails hbad h hcs false).2.2

end Place

section Statement

variable {limit : Nat} {ts us vs : List Token} {k last : Token} {before after : List Segment}
  {s : Segment} {f : Failure} {place : NumberPlace}

/-- What a segment gives stands in its place among what the others give. -/
theorem Segment.readings_at (limit : Nat) (before after : List Segment) (s : Segment)
    (rest : List Token) : (readings limit (before ++ s :: after) rest)[before.length]? =
      some ((s.reading limit).before (join after ++ rest)) := by
  induction before with
  | nil => rfl
  | cons s' before ih => exact ih

/-- The failures of a statement that belong to the segment behind some others. -/
def Split.share (σ : Split) (last : Token) (fs : List Failure) (before : List Segment) :
    Option (List Failure) := (σ.shares [last] fs)[before.length + 1]?

/-- The failure of a segment is its share. -/
theorem share_of_segment (hend : EndsOnce (ts ++ [last]))
    (hsegments : (Split.ofTokens ts).segments = before ++ s :: after) :
    (Split.ofTokens ts).share last (readStatement limit (ts ++ [last])).failures before =
      some ((s.reading limit).before (Segment.join after ++ [last])).failure.toList := by
  rw [Split.share, readStatement_failures limit hend, Split.shares_failures, hsegments,
    List.getElem?_cons_succ, List.getElem?_map, Segment.readings_at]
  rfl

/-- A condition that is not read is absent from the statement. -/
theorem condition_of_failed_segment (hend : EndsOnce (ts ++ [last]))
    (hsegments : (Split.ofTokens ts).segments = before ++ s :: after) (hs : s.clause = .condition)
    (hfails : s.clause.content limit s.body = .error f) :
    (readStatement limit (ts ++ [last])).statement.condition = none := by
  have hnone : (s.reading limit).content = none := by
    rw [Segment.reading, ClauseReading.ofSegment, hfails]
  have hmem : s ∈ (Split.ofTokens ts).segments := by simp [hsegments]
  have hwithout := Split.without_of_none (Split.ofTokens_fits ts) hmem hnone
  rw [hs] at hwithout
  have hstatement : (readStatement limit (ts ++ [last])).statement =
      (readStatement limit (ts ++ [last])).statement.without .condition := by
    rw [readStatement_split limit hend]
    exact hwithout.symm
  rw [hstatement]
  rfl

/-- A number of the range is read with its condition. -/
theorem NumberPlace.read_in_range (hplace : place.WellFormed limit)
    (hend : EndsOnce (ts ++ [last]))
    (hsegments : (Split.ofTokens ts).segments = before ++ s :: after) (hs : s.clause = .condition)
    (hbody : s.body = us ++ k :: vs) (hus : Spells place.before us) (hk : k.kind = .int)
    (hdigits : isDigits k.text = true) (hvs : Spells place.after vs)
    (hv : inInt64 (place.operand.value k.text) = true) :
    let read := readStatement limit (ts ++ [last])
    (Split.ofTokens ts).share last read.failures before = some [] ∧
      read.statement.condition = some (place.predicate k.text) := by
  have hwritten := place.written hplace hdigits hv hus ⟨hk, rfl⟩ hvs
  have hread : s.clause.content limit s.body = .ok (.condition (place.predicate k.text), []) := by
    rw [hs, hbody]
    exact condition_content_of_le hwritten hwritten.depth_le
  refine ⟨?_, condition_of_segment hend hsegments hs hread⟩
  rw [share_of_segment hend hsegments, Segment.reading, ClauseReading.ofSegment, hread]
  rfl

/-- A number out of the range costs its condition, and this is the one error of the clause. -/
theorem NumberPlace.read_out_of_range (hplace : place.WellFormed limit)
    (hend : EndsOnce (ts ++ [last]))
    (hsegments : (Split.ofTokens ts).segments = before ++ s :: after) (hs : s.clause = .condition)
    (hbody : s.body = us ++ k :: vs) (hus : Spells place.before us) (hk : k.kind = .int)
    (hdigits : isDigits k.text = true) (hv : inInt64 (place.operand.value k.text) = false) :
    let read := readStatement limit (ts ++ [last])
    read.statement.condition = none ∧
      ∃ f, (Split.ofTokens ts).share last read.failures before = some [f] ∧
        (place.context.isOpen = true → f = ⟨k :: (vs ++ (Segment.join after ++ [last])),
          .integerOutOfRange place.operand.negative⟩) := by
  obtain ⟨f, hf, hopen⟩ := NumberPlace.fails hplace hus hk hdigits hv vs
  have hfails : s.clause.content limit s.body = .error f := by
    rw [hs, hbody]
    exact Parse.bind_of_error hf
  refine ⟨condition_of_failed_segment hend hsegments hs hfails,
    f.before (Segment.join after ++ [last]), ?_, fun h => ?_⟩
  · rw [share_of_segment hend hsegments, Segment.reading, ClauseReading.ofSegment, hfails]
    rfl
  · rw [hopen h]
    rfl

end Statement

theorem inInt64_iff {i : Int} : inInt64 i = true ↔ -2 ^ 63 ≤ i ∧ i ≤ 2 ^ 63 - 1 := by
  simp [inInt64]

/-- **Integers are exact.** Digits of any length stand in a well-formed condition, with a minus sign
    of their own or not, as the right side of a comparison, as a bound of a range or as a value of a
    list, or are taken away from another value there. If their number is in the signed 64-bit range,
    the clause is read without an error and the condition is the one that is written; a number that
    is a value of its own is held as that number, and the SQL has the shortest text of it in its
    place. Otherwise the condition is dropped and its clause has one error. The error is at the
    digits and quotes them, unless they stand in a condition in parentheses. -/
theorem integers_are_exact (settings : ReadSettings) (place : NumberPlace) {text : Text}
    {ts us vs : List Token} {k last : Token} {before after : List Segment} {s : Segment}
    (htokens : (lex text).tokens = ts ++ [last])
    (hsegments : (Split.ofTokens ts).segments = before ++ s :: after) (hs : s.clause = .condition)
    (hplace : place.WellFormed settings.nestingLimit) (hbody : s.body = us ++ k :: vs)
    (hus : Spells place.before us) (hk : k.kind = .int) (hvs : Spells place.after vs) :
    let v := place.operand.value k.text
    let read := readStatement settings.nestingLimit (lex text).tokens
    let share := (Split.ofTokens ts).share last read.failures before
    isDigits k.text = true ∧ ∃ q, Query.ofText settings text = .ok q ∧
      (-2 ^ 63 ≤ v → v ≤ 2 ^ 63 - 1 →
        share = some [] ∧ read.statement.condition = some (place.predicate k.text) ∧
        q.condition = some (place.predicate k.text).reduce ∧
        (place.operand.minuend = none →
          q.condition = some (place.condition (.integer v)) ∧ (Text.ofInt v).IsShortest v ∧
          ∃ x y : Text, (∀ w : Value, (place.condition w).sql = x ++ (w.sql ++ y)) ∧
            ∀ tables, (q.selectParts tables).condition = some (x ++ (Text.ofInt v ++ y)))) ∧
      (v < -2 ^ 63 ∨ 2 ^ 63 - 1 < v →
        read.statement.condition = none ∧ q.condition = none ∧
        ∃ f, share = some [f] ∧
          (place.context.isOpen = true → f.text settings.nestingLimit =
            k.location.report (ascii "integer literal out of range " ++
              Text.quoted (Text.signed place.operand.negative k.text)))) := by
  intro v read share
  have hend : EndsOnce (ts ++ [last]) := htokens ▸ lex_endsOnce text
  have hdigits : isDigits k.text = true := by
    have hmem : s ∈ (Split.ofTokens ts).segments := by simp [hsegments]
    have hbody : k ∈ ts := (Split.body_sublist hmem).subset (by simp [hbody])
    have hshape := lex_shaped text k (by simp [htokens, hbody])
    rwa [Token.IsShaped, hk] at hshape
  obtain ⟨q, hq, hreduces⟩ := Query.exists_ofText settings text
  have hcondition : q.condition = read.statement.condition.map Predicate.reduce :=
    hreduces.condition
  refine ⟨hdigits, q, hq, fun hlow hhigh => ?_, fun hout => ?_⟩
  · obtain ⟨hshare, hread⟩ := NumberPlace.read_in_range hplace hend hsegments hs hbody hus hk
      hdigits hvs (inInt64_iff.mpr ⟨hlow, hhigh⟩)
    rw [← htokens] at hshare hread
    have hq' : q.condition = some (place.predicate k.text).reduce := by rw [hcondition, hread]; rfl
    refine ⟨hshare, hread, hq', fun halone => ?_⟩
    rw [place.reduce_predicate halone] at hq'
    obtain ⟨x, y, hsql⟩ := place.exists_sql
    refine ⟨hq', Text.isShortest_ofInt v, x, y, hsql, fun tables => ?_⟩
    rw [Query.selectParts, hq', Option.map_some, hsql]
    rfl
  · have hv : inInt64 v = false := by
      rw [← Bool.not_eq_true, inInt64_iff]
      omega
    obtain ⟨hread, f, hshare, hf⟩ := NumberPlace.read_out_of_range hplace hend hsegments hs hbody
      hus hk hdigits hv
    rw [← htokens] at hshare hread
    refine ⟨hread, by rw [hcondition, hread]; rfl, f, hshare, fun hopen => ?_⟩
    rw [hf hopen]
    rfl

/-- The least number is read with its sign. Without it the number is out of the range by one, also
    behind the operator of a difference. -/
theorem integers_are_exact_limits :
    let least := ascii "WHERE a = -9223372036854775808"
    let beyond := ascii "WHERE a = 9223372036854775808"
    let difference := ascii "WHERE NOT a IN (1, 5 - 9223372036854775808)"
    (∃ q, Query.ofText {} least = .ok q ∧ q.condition = some (.compare (ascii "a") (.compare .eq)
      (.integer (-9223372036854775808)))) ∧
    (∃ q, Query.ofText {} beyond = .ok q ∧ q.condition = none ∧
      (Reading.ofText {} beyond).clauseErrors =
        [ascii "Line 1:10 - integer literal out of range '9223372036854775808'"]) ∧
    ∃ q, Query.ofText {} difference = .ok q ∧ q.condition = none ∧
      (Reading.ofText {} difference).clauseErrors =
        [ascii "Line 1:23 - integer literal out of range '9223372036854775808'"] := by
  intro least beyond difference
  let keyword : Token := ⟨.keyword .WHERE, ascii "WHERE", ⟨1, 0⟩⟩
  let column : Expr := .column ⟨none, ascii "a"⟩
  let digits := ascii "9223372036854775808"
  refine ⟨?_, ?_, ?_⟩
  · let us : List Token := [⟨.identifier, ascii "a", ⟨1, 6⟩⟩, ⟨.symbol .eq, ascii "=", ⟨1, 8⟩⟩,
      ⟨.symbol .minus, ascii "-", ⟨1, 10⟩⟩]
    let k : Token := ⟨.int, digits, ⟨1, 11⟩⟩
    let s : Segment := ⟨.condition, keyword, us ++ k :: [], rfl⟩
    have htokens : (lex least).tokens = (keyword :: s.body) ++ [⟨.endOfInput, [], ⟨1, 30⟩⟩] := by
      decide +kernel
    have hsegments : (Split.ofTokens (keyword :: s.body)).segments = [] ++ s :: [] := by decide
    have hus : Spells (NumberPlace.before ⟨.gap, .compare .eq column, none, true⟩) us := by
      rw [Spells]
      decide
    obtain ⟨-, q, hq, hin, -⟩ := integers_are_exact {} _ htokens hsegments rfl
      ⟨by decide, by decide, by decide⟩ rfl hus rfl (spells_nil.mpr rfl)
    obtain ⟨-, -, -, hvalue⟩ := hin (by decide) (by decide)
    exact ⟨q, hq, (hvalue rfl).1⟩
  · let us : List Token := [⟨.identifier, ascii "a", ⟨1, 6⟩⟩, ⟨.symbol .eq, ascii "=", ⟨1, 8⟩⟩]
    let k : Token := ⟨.int, digits, ⟨1, 10⟩⟩
    let s : Segment := ⟨.condition, keyword, us ++ k :: [], rfl⟩
    have htokens : (lex beyond).tokens = (keyword :: s.body) ++ [⟨.endOfInput, [], ⟨1, 29⟩⟩] := by
      decide +kernel
    have hsegments : (Split.ofTokens (keyword :: s.body)).segments = [] ++ s :: [] := by decide
    have hus : Spells (NumberPlace.before ⟨.gap, .compare .eq column, none, false⟩) us := by
      rw [Spells]
      decide
    obtain ⟨-, q, hq, -, hout⟩ := integers_are_exact {} _ htokens hsegments rfl
      ⟨by decide, by decide, by decide⟩ rfl hus rfl (spells_nil.mpr rfl)
    exact ⟨q, hq, (hout (.inr (by decide))).2.1, by decide +kernel⟩
  · let us : List Token := [⟨.keyword .NOT, ascii "NOT", ⟨1, 6⟩⟩,
      ⟨.identifier, ascii "a", ⟨1, 10⟩⟩, ⟨.keyword .IN, ascii "IN", ⟨1, 12⟩⟩,
      ⟨.symbol .openParen, ascii "(", ⟨1, 15⟩⟩, ⟨.int, ascii "1", ⟨1, 16⟩⟩,
      ⟨.symbol .comma, ascii ",", ⟨1, 17⟩⟩, ⟨.int, ascii "5", ⟨1, 19⟩⟩,
      ⟨.symbol .minus, ascii "-", ⟨1, 21⟩⟩]
    let k : Token := ⟨.int, digits, ⟨1, 23⟩⟩
    let vs : List Token := [⟨.symbol .closeParen, ascii ")", ⟨1, 42⟩⟩]
    let s : Segment := ⟨.condition, keyword, us ++ k :: vs, rfl⟩
    have htokens : (lex difference).tokens =
        (keyword :: s.body) ++ [⟨.endOfInput, [], ⟨1, 43⟩⟩] := by decide +kernel
    have hsegments : (Split.ofTokens (keyword :: s.body)).segments = [] ++ s :: [] := by decide
    let place : NumberPlace := ⟨.not .gap, .among false column [.literal (.int (ascii "1") 1)] [],
      some (.literal (.int (ascii "5") 5)), false⟩
    have hus : Spells place.before us := by
      rw [Spells]
      decide
    have hvs : Spells place.after vs := by
      rw [Spells]
      decide
    obtain ⟨-, q, hq, -, hout⟩ := integers_are_exact {} place htokens hsegments rfl
      ⟨by decide, by decide, by decide⟩ rfl hus rfl hvs
    exact ⟨q, hq, (hout (.inr (by decide))).2.1, by decide +kernel⟩

end MiningQuery
