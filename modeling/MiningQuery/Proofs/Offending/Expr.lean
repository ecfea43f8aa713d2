/-
  File:      MiningQuery/Proofs/Offending/Expr.lean
  Subject:   Values and simple conditions are read alike up to a token in common.

  Rule by rule: what the reading of one list comes to before the token or at it, the reading of the
  other list comes to as well, whatever the levels of nesting that each may open -- unless the
  second has too few. One token is told apart by what stands behind it: a minus sign begins a
  number, and is no start of a value without one.

  * `LoneMinus` -- the failure at a minus sign that no number follows;
  * **`factorStep_local`**, **`expr_local`** -- values;
  * **`simple_local`** -- simple conditions.
-/
import MiningQuery.Proofs.Offending.Fork

namespace MiningQuery.Parse

variable {k : Fork}

/-! ## 1. Numbers and columns -/

section Leaves

variable {Excuse : Cause → Prop} {Halt : Failure → Prop}

theorem number_one (negative : Bool) : OneToken (number negative) := by
  intro t
  by_cases hk : t.kind = .int ∨ t.kind = .float
  · cases hl : numberLiteral negative t with
    | ok l => exact .inl ⟨l, fun ts => by simp only [number, if_pos hk, hl]⟩
    | error cause => exact .inr (.inr ⟨cause, fun ts => by simp only [number, if_pos hk, hl]⟩)
  · exact .inr (.inr ⟨_, fun ts => if_neg hk⟩)

theorem number_forward (negative : Bool) : Forward (number negative) :=
  .of_steady fun _ => number_steady negative

theorem number_local (negative : Bool) :
    Local k Excuse Halt (number negative) (number negative) := (number_one negative).local

/-- What follows the first name of a column. -/
def columnRest (first : Text) : Parse ColumnRef := do
  if ← accept (.symbol .dot) then
    return ⟨some first, ← name⟩
  else
    return ⟨none, first⟩

theorem columnRest_forward (first : Text) : Forward (columnRest first) := by
  refine (accept_forward _).bind fun qualified => ?_
  cases qualified with
  | false => exact .pure _
  | true => exact name_forward.returning _

theorem columnRest_local (first : Text) :
    Local k Excuse Halt (columnRest first) (columnRest first) := by
  refine (accept_local _).bind (fun qualified => ?_) fun qualified => ?_
  · cases qualified with
    | false => exact .pure _
    | true => exact name_forward.returning _
  · cases qualified with
    | false => exact .pure _
    | true => exact name_local.returning _

theorem columnRef_local : Local k Excuse Halt columnRef columnRef :=
  name_local.bind columnRest_forward columnRest_local

end Leaves

/-! ## 2. Values -/

/-- The failure at a minus sign that no number follows. -/
def LoneMinus (t : Token) (cause : Cause) : Prop :=
  t.kind = .symbol .minus ∧ cause = .mismatched (factorStart.map TokenKind.name)

/-- The two readers read alike up to the token in common, but for a lone minus sign there, and if
    the second has levels of nesting enough. -/
abbrev AlikeUpTo {α : Type} (k : Fork) (r r' : Parse α) : Prop :=
  Local k (LoneMinus k.token) (fun f => f.fatal = true) r r'

section Factor

variable {factor factor' : Parse Expr}

theorem exprOf_local (h : AlikeUpTo k factor factor') (hforward : Forward factor) :
    AlikeUpTo k (exprOf factor) (exprOf factor') := (h.chain hforward).chain hforward.chain

/-- The parenthesis that closes a value. -/
theorem closing_forward (x : Expr) : Forward (do let _ ← sign .closeParen; return x) :=
  (expect_forward _).bind fun _ => .pure x

theorem closing_local (x : Expr) : AlikeUpTo k (do let _ ← sign .closeParen; return x)
    (do let _ ← sign .closeParen; return x) :=
  (expect_local _).bind (fun _ => .pure x) fun _ => .pure x

theorem parenthesized_forward (hforward : Forward factor) : Forward (parenthesized factor) :=
  hforward.chain.chain.bind fun _ => closing_forward _

theorem parenthesized_local (h : AlikeUpTo k factor factor') (hforward : Forward factor) :
    AlikeUpTo k (parenthesized factor) (parenthesized factor') :=
  (exprOf_local h hforward).bind (fun _ => closing_forward _) fun _ => closing_local _

/-- What stands between the parentheses of an aggregate call, and the closing one. -/
def aggregateRest (function : Text) (factor : Parse Expr) (all : Bool) : Parse Expr :=
  if all then do let _ ← sign .closeParen; return .aggregateAll function
  else do
    let e ← exprOf factor
    let _ ← sign .closeParen
    return .aggregate function e

theorem aggregateRest_forward (function : Text) (hforward : Forward factor) (all : Bool) :
    Forward (aggregateRest function factor all) := by
  cases all with
  | true => exact closing_forward _
  | false => exact hforward.chain.chain.bind fun _ => closing_forward _

theorem aggregateCall_forward (function : Text) (hforward : Forward factor) :
    Forward (aggregateCall function factor) :=
  (accept_forward _).bind (aggregateRest_forward function hforward)

theorem aggregateCall_local (function : Text) (h : AlikeUpTo k factor factor')
    (hforward : Forward factor) :
    AlikeUpTo k (aggregateCall function factor) (aggregateCall function factor') := by
  refine (accept_local _).bind (aggregateRest_forward function hforward) fun all => ?_
  cases all with
  | true => exact closing_local _
  | false =>
    exact (exprOf_local h hforward).bind (fun _ => closing_forward _) fun _ => closing_local _

/-- **One level of factors is read alike if the level inside it is.** -/
theorem factorStep_local {inner inner' : Option (Parse Expr)}
    (h : ∀ factor ∈ inner, ∀ factor' ∈ inner', AlikeUpTo k factor factor')
    (hforward : ∀ factor ∈ inner, Forward factor) :
    AlikeUpTo k (factorStep inner) (factorStep inner') := by
  intro mid
  cases mid with
  | nil =>
    -- The token in common comes next; only a number may tell whether it is taken.
    have htaken : ∀ {x : Expr}, Within k.left (.ok (x, k.left)) :=
      .of_ok (List.suffix_refl k.left)
    show Settles k _ _ _ (factorStep inner (k.token :: k.left))
      (factorStep inner' (k.token :: k.right))
    simp only [factorStep]
    cases hk : k.token.kind with
    | int | float => exact (number_local false).map []
    | string => exact .past htaken
    | endOfInput => exact .error
    | identifier =>
      dsimp only
      split
      · cases inner with
        | none => exact .error_of_ne fun _ => rfl
        | some factor =>
          exact .past ((aggregateCall_forward _ (hforward factor rfl) _).after
            (List.tail_suffix k.left))
      · have hcolumn : columnRef (k.token :: k.left) = columnRest k.token.text k.left :=
          bind_of_ok (name_cons hk k.left)
        have hrest : Within k.left (columnRef (k.token :: k.left)) :=
          hcolumn ▸ columnRest_forward _ k.left
        exact .past hrest.map
    | keyword w =>
      cases w with
      | NULL => exact .past htaken
      | _ => exact .error
    | symbol s =>
      cases s with
      | minus =>
        dsimp only
        split
        · exact .past ((number_forward true).map k.left)
        · exact .excused ⟨hk, rfl⟩
      | openParen =>
        cases inner with
        | none => exact .error_of_ne fun _ => rfl
        | some factor => exact .past (parenthesized_forward (hforward factor rfl) k.left)
      | _ => exact .error
  | cons t mid =>
    simp only [List.cons_append, factorStep, ← k.kindOf_same mid]
    cases hk : t.kind with
    | int | float => exact (number_local false).map (t :: mid)
    | string => exact .ok _ mid
    | endOfInput => exact .error
    | identifier =>
      dsimp only
      split
      · cases inner with
        | none => exact .error_of_ne fun _ => rfl
        | some factor =>
          cases inner' with
          | none => exact .halted rfl
          | some factor' =>
            exact (aggregateCall_local t.text (h factor rfl factor' rfl)
              (hforward factor rfl)).behind (aggregateCall_forward _ (hforward factor rfl)) mid
      · exact columnRef_local.map (t :: mid)
    | keyword w =>
      cases w with
      | NULL => exact .ok _ mid
      | _ => exact .error
    | symbol s =>
      cases s with
      | minus =>
        dsimp only
        split
        · exact (number_local true).map mid
        · exact .error
      | openParen =>
        cases inner with
        | none => exact .error_of_ne fun _ => rfl
        | some factor =>
          cases inner' with
          | none => exact .halted rfl
          | some factor' =>
            exact parenthesized_local (h factor rfl factor' rfl) (hforward factor rfl) mid
      | _ => exact .error

end Factor

theorem factor_forward (levels : Nat) : Forward (factor levels) :=
  .of_steady fun _ => factor_steady levels

theorem expr_forward (levels : Nat) : Forward (expr levels) := (factor_forward levels).chain.chain

theorem factor_local (levels levels' : Nat) : AlikeUpTo k (factor levels) (factor levels') := by
  induction levels generalizing levels' with
  | zero =>
    cases levels' with
    | zero => exact factorStep_local (fun _ h => nomatch h) fun _ h => nomatch h
    | succ n' => exact factorStep_local (fun _ h => nomatch h) fun _ h => nomatch h
  | succ n ih =>
    have hforward : ∀ f ∈ some (factor n), Forward f := fun f hf =>
      Option.some.inj hf ▸ factor_forward n
    cases levels' with
    | zero => exact factorStep_local (fun _ _ _ h => nomatch h) hforward
    | succ n' =>
      refine factorStep_local (fun f hf f' hf' => ?_) hforward
      obtain rfl := Option.some.inj hf
      obtain rfl := Option.some.inj hf'
      exact ih n'

/-- **Values are read alike**, whatever levels of nesting they may open. -/
theorem expr_local (levels levels' : Nat) : AlikeUpTo k (expr levels) (expr levels') :=
  exprOf_local (factor_local levels levels') (factor_forward levels)

/-! ## 3. Simple conditions -/

section Simple

variable {expr expr' : Parse Expr}

theorem between_local (h : AlikeUpTo k expr expr') (hforward : Forward expr) (negated : Bool)
    (x : Expr) : AlikeUpTo k (between expr negated x) (between expr' negated x) :=
  h.bind (fun _ => (expect_forward _).bind fun _ => hforward.returning _) fun _ =>
    (h.returning _).behindToken _ (hforward.returning _)

theorem like_local (negated : Bool) (x : Expr) :
    AlikeUpTo k (like negated x) (like negated x) :=
  (expect_local _).returning _

theorem inList_local (h : AlikeUpTo k expr expr') (hforward : Forward expr) (negated : Bool)
    (x : Expr) : AlikeUpTo k (inList expr negated x) (inList expr' negated x) := by
  have hclosing : ∀ xs,
      Forward (do let _ ← sign .closeParen; return Predicate.inList negated x xs) := fun xs =>
     (expect_forward _).returning _
  refine ((h.commaList hforward).bind hclosing fun xs => ?_).behindToken _
    (hforward.commaList.bind hclosing)
  exact (expect_local _).returning _

theorem isNull_local (x : Expr) : AlikeUpTo k (isNull x) (isNull x) :=
  (accept_local _).bind (fun _ => (expect_forward _).returning _) fun _ =>
    (expect_local _).returning _

/-- What a condition says of its subject behind a `NOT`, or without one. -/
theorem negatableTail_local (h : AlikeUpTo k expr expr') (hsteady : ∀ p, Steady p expr)
    (negated : Bool) (x : Expr) :
    AlikeUpTo k (negatableTail expr negated x) (negatableTail expr' negated x) := by
  have hforward : Forward expr := .of_steady hsteady
  intro mid
  unfold negatableTail
  rw [← k.kindOf_same mid]
  split
  · exact (between_local h hforward negated x).behind
      (.of_steady fun p => between_steady (hsteady p) negated x) mid
  · exact (like_local negated x).behind (.of_steady fun _ => like_steady negated x) mid
  · exact (inList_local h hforward negated x).behind
      (.of_steady fun p => inList_steady (hsteady p) negated x) mid
  · exact .ok _ mid

/-- Behind a value and a `NOT` the condition goes on past the `NOT`. -/
theorem simpleTail_not_within (hsteady : ∀ p, Steady p expr) (x : Expr) {ts : List Token}
    (h : kindOf ts = .keyword .NOT) : Within ts.tail (simpleTail expr x ts) := by
  simp only [simpleTail, h, comparison?]
  split
  · exact (Forward.of_steady fun p => negatableTail_steady (hsteady p) true x) ts.tail
  · exact .of_error (List.suffix_refl _)

theorem simpleTail_local (h : AlikeUpTo k expr expr') (hsteady : ∀ p, Steady p expr) (x : Expr) :
    AlikeUpTo k (simpleTail expr x) (simpleTail expr' x) := by
  intro mid
  by_cases hnot : mid = [] ∧ k.token.kind = .keyword .NOT
  · -- Only what is past the token in common tells how to go on.
    obtain ⟨rfl, hnot⟩ := hnot
    have hnot : kindOf k.first = .keyword .NOT := hnot
    have hpast : Within k.left (simpleTail expr x k.first) := simpleTail_not_within hsteady x hnot
    exact .past hpast
  unfold simpleTail
  rw [← k.kindOf_same mid]
  split
  · exact h.map.behind (Forward.of_steady hsteady).map mid
  · split
    · exact (isNull_local x).behind (.of_steady fun _ => isNull_steady x) mid
    · cases mid with
      | nil =>
        rename_i hkind
        exact absurd ⟨rfl, hkind⟩ hnot
      | cons t mid =>
        show Settles k _ _ _
          (if negatable.contains (kindOf (mid ++ k.first)) then
            negatableTail expr true x (mid ++ k.first) else mismatch negatable (mid ++ k.first))
          (if negatable.contains (kindOf (mid ++ k.second)) then
            negatableTail expr' true x (mid ++ k.second) else mismatch negatable (mid ++ k.second))
        rw [← k.kindOf_same mid]
        by_cases hword : negatable.contains (kindOf (mid ++ k.first)) = true
        · rw [if_pos hword, if_pos hword]
          exact negatableTail_local h hsteady true x mid
        · rw [if_neg hword, if_neg hword]
          exact .error
    · exact negatableTail_local h hsteady false x mid

theorem simpleOf_local (h : AlikeUpTo k expr expr') (hsteady : ∀ p, Steady p expr) :
    AlikeUpTo k (simpleOf expr) (simpleOf expr') :=
  h.bind (fun x => .of_steady fun p => simpleTail_steady (hsteady p) x) fun x =>
    simpleTail_local h hsteady x

end Simple

/-- **Simple conditions are read alike**, whatever levels of nesting they may open. -/
theorem simple_local (levels levels' : Nat) : AlikeUpTo k (simple levels) (simple levels') :=
  simpleOf_local (expr_local levels levels') fun _ => expr_steady levels

end MiningQuery.Parse
