/-
  File:      MiningQuery/Proofs/Grammar/Renaming.lean
  Subject:   Reading commutes with renaming.

  A renaming gives tokens other texts, of which only the letter case differs, and other places. No
  rule of the grammar looks at more than the kinds of tokens, the values of numbers and, in capitals
  or in small letters, some words. So renamed tokens are the renamed statement, and fail where the
  tokens failed.

  * `Renaming`, `Renaming.token` -- tokens renamed; numbers keep their texts;
  * `Carries`, `Commutes` -- on renamed tokens one reader gives what another gives, renamed;
  * **`Carries.bind`**, **`chain_commutes`**, **`commaList_commutes`** -- readers put together;
  * `factor_commutes`, `negation_commutes`, **`Clause.content_commutes`** -- the rules;
  * **`readStatement_rename`** -- statements.
-/
import MiningQuery.Proofs.Grammar.WellFormed
import MiningQuery.Proofs.Token.LetterCase
import MiningQuery.Proofs.Tree.Renaming

namespace MiningQuery

/-! ## 1. Renamings -/

/-- Other texts for tokens, the same but for the case of letters, and other places. -/
structure Renaming where
  text : Text → Text
  place : Location → Location
  upper_text : ∀ t, Text.upper (text t) = Text.upper t
  place_start : place .start = .start

namespace Renaming

variable (ρ : Renaming)

theorem lower_text (t : Text) : Text.lower (ρ.text t) = Text.lower t := by
  rw [← Text.lower_upper, ρ.upper_text, Text.lower_upper]

theorem text_nil : ρ.text [] = [] := List.map_eq_nil_iff.mp (ρ.upper_text [])

/-- The token renamed. A number is not renamed, for its text is its value. -/
def token (t : Token) : Token where
  kind := t.kind
  text := if Parse.isNumber t.kind then t.text else ρ.text t.text
  location := ρ.place t.location

@[simp] theorem token_kind (t : Token) : (ρ.token t).kind = t.kind := rfl

theorem token_text {t : Token} (h : Parse.isNumber t.kind = false) :
    (ρ.token t).text = ρ.text t.text := by
  simp [token, h]

theorem token_number {t : Token} (h : Parse.isNumber t.kind = true) :
    (ρ.token t).text = t.text := by
  simp [token, h]

theorem token_name {t : Token} (h : t.kind = .identifier) : (ρ.token t).text = ρ.text t.text :=
  ρ.token_text (by rw [h]; rfl)

/-- The failure at the renamed tokens. -/
def failure (f : Failure) : Failure := ⟨f.rest.map ρ.token, f.cause⟩

@[simp] theorem failure_fatal (f : Failure) : (ρ.failure f).fatal = f.fatal := rfl

/-- The offending token is renamed. -/
theorem failure_token (f : Failure) : (ρ.failure f).token = ρ.token f.token := by
  obtain ⟨_ | ⟨t, rest⟩, cause⟩ := f
  · simp [failure, Failure.token, token, ρ.text_nil, ρ.place_start]
  · rfl

/-- What a reader gives, renamed. -/
def outcome {α β : Type} (g : α → β) :
    Except Failure (α × List Token) → Except Failure (β × List Token)
  | .ok (x, rest) => .ok (g x, rest.map ρ.token)
  | .error f => .error (ρ.failure f)

/-- What is made of a renamed outcome is renamed, if it is so for every value. -/
theorem outcome_bind {α β γ δ : Type} {g : α → β} {k : γ → δ}
    {f : α × List Token → Except Failure (γ × List Token)}
    {f' : β × List Token → Except Failure (δ × List Token)}
    (hf : ∀ x rest, f' (g x, rest.map ρ.token) = ρ.outcome k (f (x, rest)))
    (o : Except Failure (α × List Token)) : (ρ.outcome g o >>= f') = ρ.outcome k (o >>= f) := by
  cases o with
  | ok p => exact hf p.1 p.2
  | error failure => rfl

end Renaming

namespace Parse

variable {ρ : Renaming} {α β γ δ : Type} {t : Token} {ts : List Token}

@[simp] theorem kindOf_renamed : kindOf (ts.map ρ.token) = kindOf ts := by cases ts <;> rfl

/-! ## 2. Readers put together -/

/-- On renamed tokens `r'` gives what `r` gives, renamed: tokens as such and values by `g`. -/
def Carries (ρ : Renaming) (g : α → β) (r : Parse α) (r' : Parse β) : Prop :=
  ∀ ts, r' (ts.map ρ.token) = ρ.outcome g (r ts)

/-- Reading commutes with the renaming. -/
abbrev Commutes (ρ : Renaming) (g : α → α) (r : Parse α) : Prop := Carries ρ g r r

section Carries

variable {g : α → β} {k : γ → δ} {r : Parse α} {r' : Parse β}

theorem Carries.tail (h : Carries ρ g r r') (ts : List Token) :
    r' (ts.map ρ.token).tail = ρ.outcome g (r ts.tail) := by
  rw [← List.map_tail, h]

/-- **Readers put together carry renamings if their parts do.** -/
theorem Carries.bind {f : α → Parse γ} {f' : β → Parse δ} (h : Carries ρ g r r')
    (hf : ∀ x, Carries ρ k (f x) (f' (g x))) : Carries ρ k (r >>= f) (r' >>= f') := by
  intro ts
  show (r' (ts.map ρ.token) >>= fun p => f' p.1 p.2) = ρ.outcome k (r ts >>= fun p => f p.1 p.2)
  rw [h ts]
  exact ρ.outcome_bind (fun x rest => hf x rest) _

theorem Carries.pure {x : γ} {y : δ} (h : y = k x) : Carries ρ k (pure x) (pure y) :=
  fun _ => by rw [h]; rfl

theorem Carries.map {f : α → γ} {f' : β → δ} (h : Carries ρ g r r')
    (hf : ∀ x, f' (g x) = k (f x)) : Carries ρ k (f <$> r) (f' <$> r') := by
  rw [← bind_pure_comp, ← bind_pure_comp]
  exact h.bind fun x => .pure (hf x)

theorem tooDeep_carries : Carries ρ g tooDeep tooDeep := fun _ => rfl

/-- What comes next is the same kind of token. -/
theorem expect_commutes (kind : TokenKind) : Commutes ρ ρ.token (expect kind) := by
  intro ts
  cases ts with
  | nil => rfl
  | cons t ts =>
    simp only [expect, List.map_cons, Renaming.token_kind]
    split <;> rfl

theorem accept_commutes (kind : TokenKind) : Commutes ρ id (accept kind) := by
  intro ts
  cases ts with
  | nil => rfl
  | cons t ts =>
    simp only [accept, List.map_cons, Renaming.token_kind]
    split <;> rfl

/-- A token that is passed over because of its kind. -/
theorem Carries.behind (kind : TokenKind) (h : Carries ρ g r r') :
    Carries ρ g (expect kind >>= fun _ => r) (expect kind >>= fun _ => r') :=
  (expect_commutes kind).bind fun _ => h

/-- The text of a token that is no number is renamed. -/
theorem expect_text_commutes {kind : TokenKind} (hkind : isNumber kind = false) :
    Commutes ρ ρ.text (Token.text <$> expect kind) := by
  intro ts
  cases ts with
  | nil => rfl
  | cons t ts =>
    rw [List.map_cons]
    by_cases hk : t.kind = kind
    · have hk' : (ρ.token t).kind = kind := hk
      rw [map_of_ok (expect_cons hk ts), map_of_ok (expect_cons hk' _), ρ.token_text (hk ▸ hkind)]
      rfl
    · have hread : ∀ {t ts}, t.kind ≠ kind → expect kind (t :: ts) = mismatch [kind] (t :: ts) :=
        fun h => if_neg h
      have hk' : (ρ.token t).kind ≠ kind := hk
      show (expect kind _ >>= _) = ρ.outcome _ (expect kind _ >>= _)
      rw [hread hk, hread hk']
      rfl

theorem name_commutes : Commutes ρ ρ.text name := by
  have hname : name = Token.text <$> expect .identifier := bind_pure_comp _ _
  rw [hname]
  exact expect_text_commutes rfl

end Carries

/-! ## 3. Repetition -/

section Repetition

variable {ω : Type} {g : α → α} {item : Parse α}

theorem chainFrom_carries {operator : TokenKind → Option ω} {combine : ω → α → α → α}
    (hitem : Commutes ρ g item) (hcombine : ∀ o x y, combine o (g x) (g y) = g (combine o x y))
    (n : Nat) (left : α) :
    Carries ρ g (chainFrom operator combine item n left)
      (chainFrom operator combine item n (g left)) := by
  induction n generalizing left with
  | zero => exact fun _ => rfl
  | succ n ih =>
    intro ts
    simp only [chainFrom, kindOf_renamed, hitem.tail]
    cases operator (kindOf ts) with
    | none => rfl
    | some o =>
      refine ρ.outcome_bind (fun right rest => ?_) _
      show chainFrom operator combine item n (combine o (g left) (g right)) (rest.map ρ.token) = _
      rw [hcombine]
      exact ih _ rest

/-- **Chains commute with renamings if their items do.** There are as many rounds to go. -/
theorem chain_commutes {operator : TokenKind → Option ω} {combine : ω → α → α → α}
    (hitem : Commutes ρ g item) (hcombine : ∀ o x y, combine o (g x) (g y) = g (combine o x y)) :
    Commutes ρ g (chain operator combine item) := by
  intro ts
  rw [chain, hitem ts]
  refine ρ.outcome_bind (fun left rest => ?_) _
  show chainFrom operator combine item (rest.map ρ.token).length (g left) (rest.map ρ.token) = _
  rw [List.length_map]
  exact chainFrom_carries hitem hcombine rest.length left rest

theorem commaListFrom_commutes (hitem : Commutes ρ g item) (n : Nat) :
    Commutes ρ (List.map g) (commaListFrom item n) := by
  induction n with
  | zero => exact fun _ => rfl
  | succ n ih =>
    intro ts
    simp only [commaListFrom, kindOf_renamed, hitem.tail]
    split
    · refine ρ.outcome_bind (fun x rest => ?_) _
      dsimp only
      rw [ih rest]
      exact ρ.outcome_bind (fun _ _ => rfl) _
    · rfl

/-- **Lists with commas commute with renamings if their items do.** -/
theorem commaList_commutes (hitem : Commutes ρ g item) :
    Commutes ρ (List.map g) (commaList item) := by
  intro ts
  rw [commaList, hitem ts]
  refine ρ.outcome_bind (fun x rest => ?_) _
  dsimp only
  rw [List.length_map, commaListFrom_commutes hitem rest.length rest]
  exact ρ.outcome_bind (fun _ _ => rfl) _

end Repetition

/-! ## 4. Expressions -/

/-- A number is its own renaming, and its token has the text that it had. -/
theorem numberLiteral_renamed (negative : Bool) (h : isNumber t.kind = true) :
    numberLiteral negative (ρ.token t) = numberLiteral negative t ∧
      ∀ l, numberLiteral negative t = .ok l → l.rename ρ.text = l := by
  constructor
  · simp only [numberLiteral, ρ.token_number h, Renaming.token_kind]
  · intro l hl
    rcases numberLiteral_cases hl with ⟨-, text, i, rfl⟩ | ⟨-, text, x, rfl⟩ <;> rfl

theorem number_commutes (negative : Bool) :
    Commutes ρ (Literal.rename ρ.text) (number negative) := by
  intro ts
  cases ts with
  | nil => rfl
  | cons t ts =>
    simp only [number, List.map_cons, Renaming.token_kind]
    split
    · rename_i hk
      have hnumber : isNumber t.kind = true := by simpa [isNumber] using hk
      obtain ⟨htoken, hliteral⟩ := numberLiteral_renamed (ρ := ρ) negative hnumber
      rw [htoken]
      cases hl : numberLiteral negative t with
      | error cause => rfl
      | ok l =>
        dsimp only [Renaming.outcome]
        rw [hliteral l hl]
    · rfl

theorem columnRef_commutes : Commutes ρ (ColumnRef.rename ρ.text) columnRef := by
  refine name_commutes.bind fun first => ?_
  refine (accept_commutes _).bind fun qualified => ?_
  cases qualified with
  | true => exact name_commutes.bind fun second => .pure rfl
  | false => exact .pure rfl

section Factor

variable {factor : Parse Expr}

theorem exprOf_commutes (h : Commutes ρ (Expr.rename ρ.text) factor) :
    Commutes ρ (Expr.rename ρ.text) (exprOf factor) :=
  chain_commutes (chain_commutes h fun _ _ _ => rfl) fun _ _ _ => rfl

theorem parenthesized_commutes (h : Commutes ρ (Expr.rename ρ.text) factor) :
    Commutes ρ (Expr.rename ρ.text) (parenthesized factor) :=
  (exprOf_commutes h).bind fun _ => .behind _ (.pure rfl)

theorem aggregateCall_carries (h : Commutes ρ (Expr.rename ρ.text) factor) (function : Text) :
    Carries ρ (Expr.rename ρ.text) (aggregateCall function factor)
      (aggregateCall (ρ.text function) factor) := by
  refine (accept_commutes _).bind fun all => ?_
  cases all with
  | true => exact .behind _ (.pure rfl)
  | false => exact (exprOf_commutes h).bind fun _ => .behind _ (.pure rfl)

theorem isAggregate_text (t : Text) : isAggregate (ρ.text t) = isAggregate t := by
  rw [isAggregate, isAggregate, ρ.upper_text]

/-- **One level of factors commutes with renamings if the level inside it does.** -/
theorem factorStep_commutes {inner : Option (Parse Expr)}
    (h : ∀ factor ∈ inner, Commutes ρ (Expr.rename ρ.text) factor) :
    Commutes ρ (Expr.rename ρ.text) (factorStep inner) := by
  have hnumber : ∀ negative, Commutes ρ (Expr.rename ρ.text) (Expr.literal <$> number negative) :=
    fun negative => (number_commutes negative).map fun _ => rfl
  have hcolumn : Commutes ρ (Expr.rename ρ.text) (Expr.column <$> columnRef) :=
    columnRef_commutes.map fun _ => rfl
  intro ts
  cases ts with
  | nil => rfl
  | cons t ts =>
    cases hk : t.kind with
    | int | float =>
      simp only [List.map_cons, factorStep, Renaming.token_kind, hk]
      exact hnumber false (t :: ts)
    | string =>
      simp only [List.map_cons, factorStep, Renaming.token_kind, hk]
      rw [ρ.token_text (by rw [hk]; rfl)]
      rfl
    | endOfInput =>
      simp only [List.map_cons, factorStep, Renaming.token_kind, hk]
      rfl
    | identifier =>
      -- of a name only its capitals are looked at: do they name an aggregate?
      simp only [List.map_cons, factorStep, Renaming.token_kind, hk, ρ.token_name hk,
        isAggregate_text, kindOf_renamed]
      split
      · cases inner with
        | none => rfl
        | some factor => exact (aggregateCall_carries (h factor rfl) t.text).tail ts
      · exact hcolumn (t :: ts)
    | keyword w =>
      simp only [List.map_cons, factorStep, Renaming.token_kind, hk]
      cases w with
      | NULL =>
        dsimp only
        rw [ρ.token_text (by rw [hk]; rfl)]
        rfl
      | _ => rfl
    | symbol s =>
      simp only [List.map_cons, factorStep, Renaming.token_kind, hk]
      cases s with
      | minus =>
        dsimp only
        rw [kindOf_renamed]
        split
        · exact hnumber true ts
        · rfl
      | openParen =>
        cases inner with
        | none => rfl
        | some factor => exact parenthesized_commutes (h factor rfl) ts
      | _ => rfl

end Factor

theorem factor_commutes (levels : Nat) : Commutes ρ (Expr.rename ρ.text) (factor levels) := by
  induction levels with
  | zero => exact factorStep_commutes fun _ h => nomatch h
  | succ n ih =>
    refine factorStep_commutes fun factor h => ?_
    obtain rfl := Option.some.inj h
    exact ih

theorem expr_commutes (levels : Nat) : Commutes ρ (Expr.rename ρ.text) (expr levels) :=
  exprOf_commutes (factor_commutes levels)

/-! ## 5. Conditions -/

section Simple

variable {expr : Parse Expr}

theorem between_carries (h : Commutes ρ (Expr.rename ρ.text) expr) (negated : Bool) (x : Expr) :
    Carries ρ (Predicate.rename ρ.text) (between expr negated x)
      (between expr negated (x.rename ρ.text)) :=
  h.bind fun _ => .behind _ (h.bind fun _ => .pure rfl)

theorem like_carries (negated : Bool) (x : Expr) :
    Carries ρ (Predicate.rename ρ.text) (like negated x) (like negated (x.rename ρ.text)) := by
  have hlike : ∀ x, like negated x = Predicate.like negated x <$> Token.text <$> expect .string :=
    fun x => by rw [like, bind_pure_comp, Functor.map_map]
  rw [hlike, hlike]
  exact (expect_text_commutes rfl).map fun _ => rfl

theorem inList_carries (h : Commutes ρ (Expr.rename ρ.text) expr) (negated : Bool) (x : Expr) :
    Carries ρ (Predicate.rename ρ.text) (inList expr negated x)
      (inList expr negated (x.rename ρ.text)) :=
  .behind _ ((commaList_commutes h).bind fun _ => .behind _ (.pure rfl))

theorem isNull_carries (x : Expr) :
    Carries ρ (Predicate.rename ρ.text) (isNull x) (isNull (x.rename ρ.text)) :=
  (accept_commutes _).bind fun _ => .behind _ (.pure rfl)

/-- What a condition says of its subject behind a `NOT`, or without one. -/
theorem negatableTail_carries (h : Commutes ρ (Expr.rename ρ.text) expr) (negated : Bool)
    (x : Expr) :
    Carries ρ (Predicate.rename ρ.text) (negatableTail expr negated x)
      (negatableTail expr negated (x.rename ρ.text)) := by
  intro ts
  unfold negatableTail
  rw [kindOf_renamed]
  split
  · exact (between_carries h negated x).tail ts
  · exact (like_carries negated x).tail ts
  · exact (inList_carries h negated x).tail ts
  · rfl

theorem simpleTail_carries (h : Commutes ρ (Expr.rename ρ.text) expr) (x : Expr) :
    Carries ρ (Predicate.rename ρ.text) (simpleTail expr x)
      (simpleTail expr (x.rename ρ.text)) := by
  intro ts
  simp only [simpleTail, kindOf_renamed]
  cases comparison? (kindOf ts) with
  | some op =>
    have hcompare : Carries ρ (Predicate.rename ρ.text) (Predicate.compare op x <$> expr)
        (Predicate.compare op (x.rename ρ.text) <$> expr) := h.map fun _ => rfl
    exact hcompare.tail ts
  | none =>
    dsimp only
    split
    · exact (isNull_carries x).tail ts
    · rw [← List.map_tail, kindOf_renamed]
      split
      · exact negatableTail_carries h true x ts.tail
      · rfl
    · exact negatableTail_carries h false x ts

theorem simpleOf_commutes (h : Commutes ρ (Expr.rename ρ.text) expr) :
    Commutes ρ (Predicate.rename ρ.text) (simpleOf expr) :=
  h.bind fun x => simpleTail_carries h x

end Simple

section Condition

variable {r : Parse Predicate}

theorem conditionOf_commutes (h : Commutes ρ (Predicate.rename ρ.text) r) :
    Commutes ρ (Predicate.rename ρ.text) (conditionOf r) :=
  chain_commutes (chain_commutes h fun _ _ _ => rfl) fun _ _ _ => rfl

theorem grouped_commutes (h : Commutes ρ (Predicate.rename ρ.text) r) :
    Commutes ρ (Predicate.rename ρ.text) (grouped r) :=
  (conditionOf_commutes h).bind fun _ => .behind _ (.pure rfl)

theorem continuesValue_renamed : continuesValue (ts.map ρ.token) = continuesValue ts := by
  simp only [continuesValue, kindOf_renamed, ← List.map_tail]

/-- **One level of negations commutes with renamings if the level inside it does.** An attempt fails
    on the renamed tokens as well, or closes the same parenthesis. -/
theorem negationStep_commutes {inner : Option (Bool → Parse Predicate)}
    (hinner : ∀ negation ∈ inner, ∀ attempting,
      Commutes ρ (Predicate.rename ρ.text) (negation attempting))
    (hsimple : Commutes ρ (Predicate.rename ρ.text) r) (attempting : Bool) :
    Commutes ρ (Predicate.rename ρ.text) (negationStep inner r attempting) := by
  intro ts
  unfold negationStep
  rw [kindOf_renamed]
  split
  · rename_i negation _
    have hnot : Commutes ρ (Predicate.rename ρ.text) (Predicate.not <$> negation attempting) :=
      (hinner negation rfl attempting).map fun _ => rfl
    exact hnot.tail ts
  · exact tooDeep_carries.tail ts
  · exact tooDeep_carries ts
  · rename_i negation _
    have hgrouped := (grouped_commutes (hinner negation rfl true)).tail ts
    rw [hgrouped]
    cases grouped (negation true) ts.tail with
    | ok p =>
      dsimp only [Renaming.outcome]
      rw [continuesValue_renamed]
      split
      · exact hsimple ts
      · rfl
    | error f =>
      dsimp only [Renaming.outcome]
      rw [Renaming.failure_fatal]
      split
      · rfl
      · exact hsimple ts
  · exact hsimple ts

end Condition

theorem negation_commutes (levels : Nat) (attempting : Bool) :
    Commutes ρ (Predicate.rename ρ.text) (negation levels attempting) := by
  induction levels generalizing attempting with
  | zero =>
    have hsimple := simpleOf_commutes (ρ := ρ) (expr_commutes 0)
    refine negationStep_commutes (fun negation h => ?_) hsimple attempting
    cases h
  | succ n ih =>
    have hsimple := simpleOf_commutes (ρ := ρ) (expr_commutes (n + 1))
    refine negationStep_commutes (fun negation h => ?_) hsimple attempting
    obtain rfl := Option.some.inj h
    exact ih

theorem condition_commutes (levels : Nat) :
    Commutes ρ (Predicate.rename ρ.text) (condition levels) :=
  conditionOf_commutes (negation_commutes levels false)

/-! ## 6. Other clauses -/

theorem attributeRef_commutes : Commutes ρ (Attribute.rename ρ.text) attributeRef := by
  intro ts
  unfold attributeRef
  rw [kindOf_renamed]
  split
  · rw [← List.map_tail]
    rfl
  · have hcolumn : Commutes ρ (Attribute.rename ρ.text) (Attribute.column <$> columnRef) :=
      columnRef_commutes.map fun _ => rfl
    exact hcolumn ts
  · rfl

theorem tableRef_commutes : Commutes ρ (TableRef.rename ρ.text) tableRef := by
  refine name_commutes.bind fun table => ?_
  refine (accept_commutes _).bind fun second => ?_
  cases second with
  | true => exact name_commutes.bind fun _ => .pure rfl
  | false =>
    intro ts
    cases ts with
    | nil => rfl
    | cons t ts =>
      by_cases hk : t.kind = .identifier
      · simp [hk, ρ.token_name hk, Renaming.outcome, TableRef.rename]
      · simp [hk, Renaming.outcome, TableRef.rename]

theorem orderItem_commutes : Commutes ρ (OrderItem.rename ρ.text) orderItem := by
  refine columnRef_commutes.bind fun column => ?_
  refine (accept_commutes _).bind fun descending => ?_
  cases descending with
  | true => exact .pure rfl
  | false => exact (accept_commutes _).bind fun _ => .pure rfl

/-- A label is found in any letter case. -/
theorem skipLabel_commutes (label : Text) : Commutes ρ id (skipLabel label) := by
  intro ts
  cases ts with
  | nil => rfl
  | cons t ts =>
    simp only [skipLabel, List.map_cons, Renaming.token_kind, kindOf_renamed]
    by_cases hk : t.kind = .identifier
    · rw [ρ.token_name hk, ρ.upper_text]
      split
      · rw [← List.map_tail]
        rfl
      · rfl
    · simp [hk, Renaming.outcome]

theorem clusters_commutes : Commutes ρ (Literal.rename ρ.text) clusters := by
  intro ts
  simp only [clusters, number_commutes false ts]
  cases number false ts with
  | error f => rfl
  | ok p =>
    obtain ⟨l, rest⟩ := p
    cases l <;> rfl

theorem mineDirective_commutes : Commutes ρ (MineDirective.rename ρ.text) mineDirective := by
  have hempty : ρ.text [] = [] := ρ.text_nil
  have hclusters : ∀ k, Commutes ρ (MineDirective.rename ρ.text) (do
      skipLabel (ascii "K")
      let l ← clusters
      return ⟨.keyword k, some l, []⟩) := fun k =>
    (skipLabel_commutes _).bind fun _ => clusters_commutes.bind fun l =>
      .pure (by simp [MineDirective.rename, hempty])
  have htarget : ∀ k, Commutes ρ (MineDirective.rename ρ.text) (do
      skipLabel (ascii "TARGET")
      let target ← name
      return ⟨.keyword k, none, target⟩) := fun k =>
    (skipLabel_commutes _).bind fun _ => name_commutes.bind fun _ => .pure rfl
  intro ts
  unfold mineDirective
  rw [kindOf_renamed]
  split
  · rename_i k _
    split
    · exact (hclusters k).tail ts
    split
    · simp [Renaming.outcome, MineDirective.rename, hempty]
    split
    · exact (htarget k).tail ts
    · rfl
  · rfl

/-- A measure is known in any letter case, and given in small letters. -/
theorem measureName_commutes : Commutes ρ id measureName := by
  intro ts
  cases ts with
  | nil => rfl
  | cons t ts =>
    simp only [measureName, List.map_cons, Renaming.token_kind]
    by_cases hk : t.kind = .identifier
    · rw [ρ.token_name hk, ρ.lower_text]
      split <;> rfl
    · simp [hk, Renaming.outcome, Renaming.failure]

theorem measureSetting_commutes : Commutes ρ (MeasureSetting.rename ρ.text) measureSetting :=
  measureName_commutes.bind fun _ => .behind _ ((number_commutes false).bind fun _ => .pure rfl)

end Parse

/-! ## 7. Clauses and statements -/

section Statement

variable (ρ : Renaming)

/-- **Every clause is read so.** The display type is given in small letters. -/
theorem Clause.content_commutes (limit : Nat) (clause : Clause) :
    Parse.Commutes ρ (ClauseContent.rename ρ.text) (clause.content limit) := by
  cases clause with
  | database => exact .behind _ (Parse.name_commutes.bind fun _ => .pure rfl)
  | relevance | grouping =>
    exact .behind _ ((Parse.commaList_commutes Parse.attributeRef_commutes).bind fun _ => .pure rfl)
  | tables => exact (Parse.commaList_commutes Parse.tableRef_commutes).bind fun _ => .pure rfl
  | condition => exact (Parse.condition_commutes limit).bind fun _ => .pure rfl
  | ordering =>
    exact .behind _ ((Parse.commaList_commutes Parse.orderItem_commutes).bind fun _ => .pure rfl)
  | mining => exact Parse.mineDirective_commutes.bind fun _ => .pure rfl
  | measures =>
    exact (Parse.commaList_commutes Parse.measureSetting_commutes).bind fun _ => .pure rfl
  | display =>
    refine .behind _ (Parse.name_commutes.bind fun name => .pure ?_)
    rw [ρ.lower_text]
    rfl

theorem Clause.endsSegment_token (allowed : List Clause) (t : Token) :
    endsSegment allowed (ρ.token t) = endsSegment allowed t := rfl

theorem Clause.nextSegment_renamed (allowed : List Clause) (ts : List Token) :
    nextSegment allowed (ts.map ρ.token) = (nextSegment allowed ts).map ρ.token := by
  rw [nextSegment, nextSegment, List.dropWhile_map]
  rfl

theorem Clause.leftover_renamed (allowed : List Clause) (ts : List Token) :
    leftover allowed (ts.map ρ.token) = (leftover allowed ts).map ρ.failure := by
  cases ts with
  | nil => rfl
  | cons t ts =>
    simp only [List.map_cons, leftover, endsSegment_token]
    split <;> rfl

/-- What a segment gives, renamed. -/
def ClauseReading.rename (r : ClauseReading) : ClauseReading :=
  ⟨r.content.map (ClauseContent.rename ρ.text), r.failure.map ρ.failure⟩

theorem ClauseReading.ofSegment_renamed (limit : Nat) (clause : Clause) (later : List Clause)
    (ts : List Token) :
    ofSegment limit clause later (ts.map ρ.token) = (ofSegment limit clause later ts).rename ρ := by
  unfold ofSegment
  rw [Clause.content_commutes ρ limit clause ts]
  cases clause.content limit ts with
  | error f => rfl
  | ok p =>
    dsimp only [Renaming.outcome]
    rw [Clause.leftover_renamed]
    rfl

theorem ClauseReading.all_renamed (limit : Nat) (allowed : List Clause) (ts : List Token) :
    all limit allowed (ts.map ρ.token) = (all limit allowed ts).map (ClauseReading.rename ρ) := by
  induction allowed generalizing ts with
  | nil => rfl
  | cons clause later ih =>
    unfold all
    rw [Parse.kindOf_renamed]
    split
    · rw [← List.map_tail, ofSegment_renamed, Clause.nextSegment_renamed, ih, List.map_cons]
    · exact ih ts

/-- **Renamed tokens are the renamed statement**, and fail for the same causes at the same
    tokens. -/
theorem readStatement_rename (limit : Nat) (ts : List Token) :
    (readStatement limit (ts.map ρ.token)).statement =
        (readStatement limit ts).statement.rename ρ.text ∧
      (readStatement limit (ts.map ρ.token)).failures =
        (readStatement limit ts).failures.map ρ.failure := by
  have hreadings := ClauseReading.all_renamed ρ limit Clause.all (Clause.nextSegment Clause.all ts)
  rw [← Clause.nextSegment_renamed] at hreadings
  have hlist : ∀ o : Option Failure, (o.map ρ.failure).toList = o.toList.map ρ.failure := by
    intro o
    cases o <;> rfl
  constructor
  · have hempty : Statement.empty.rename ρ.text = .empty := rfl
    simp only [readStatement, hreadings, List.filterMap_map, Statement.rename_foldl, hempty,
      List.map_filterMap]
    rfl
  · simp only [readStatement, hreadings, Clause.leftover_renamed, hlist, List.filterMap_map,
      List.map_append, List.map_filterMap]
    rfl

end Statement

end MiningQuery
