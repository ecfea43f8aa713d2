/-
  File:      MiningQuery/Proofs/Scan/Runs.lean
  Subject:   A reader with a cursor does what a reader of token lists does, and meets no fault.

  * `ScanInput.Closed` -- the tokens end with the end of the input;
  * `ScanInput.Passed` -- only tokens inside a clause stand between two positions;
  * `Runs` -- from a cursor on, the two readers end alike: with the same value and the same tokens
    left, or with the same failure, which is recorded unless this is an attempt; the counts are
    then what they were before, and what is passed over is inside a clause;
  * **`Runs.bind`** -- so do readers that are put together from such readers.
-/
import MiningQuery.Proofs.Grammar.Statement
import MiningQuery.Proofs.Scan.Rules

namespace MiningQuery

open Parse (clauseEnd)

/-! ## 1. Positions -/

/-- The last token is the end of the input. -/
def ScanInput.Closed (i : ScanInput) : Prop :=
  i.tokens.getLast?.map (·.kind) = some .endOfInput

/-- The cursor stands on the token. -/
def Cursor.On (i : ScanInput) (c : Cursor) (t : Token) : Prop := i.tokens[c.position]? = some t

/-- The tokens from one position up to another are inside a clause, and there is a token at the
    other one. -/
structure ScanInput.Passed (i : ScanInput) (p p' : Nat) : Prop where
  le : p ≤ p'
  lt : p' < i.tokens.length
  inside : ∀ n t, p ≤ n → n < p' → i.tokens[n]? = some t → t.kind ∉ clauseEnd

/-- The cursor behind a failure, which is recorded if it is fatal or this is no attempt. -/
def Cursor.recorded (c : Cursor) (f : Failure) : Cursor :=
  if c.attempts = 0 ∨ f.fatal = true then c.withError f else c

theorem Cursor.recorded_of_fatal (c : Cursor) {f : Failure} (h : f.fatal = true) :
    c.recorded f = c.withError f := if_pos (.inr h)

theorem Cursor.recorded_of_attempts {c : Cursor} (h : c.attempts = 0) (f : Failure) :
    c.recorded f = c.withError f := if_pos (.inl h)

section Positions

variable {i : ScanInput} {c : Cursor} {t : Token} {p p' p'' : Nat}

@[simp] theorem Cursor.moved_position (c : Cursor) (p : Nat) : (c.moved p).position = p := rfl

@[simp] theorem Cursor.moved_self (c : Cursor) : c.moved c.position = c := rfl

@[simp] theorem Cursor.moved_moved (c : Cursor) (p p' : Nat) :
    (c.moved p).moved p' = c.moved p' := rfl

@[simp] theorem Cursor.moved_depth (c : Cursor) (p : Nat) : (c.moved p).depth = c.depth := rfl

@[simp] theorem Cursor.moved_attempts (c : Cursor) (p : Nat) :
    (c.moved p).attempts = c.attempts := rfl

@[simp] theorem Cursor.deeper_moved (c : Cursor) (p : Nat) :
    (c.moved p).deeper = c.deeper.moved p := rfl

/-- There is a token at every position in the list. -/
theorem ScanInput.exists_on (h : p < i.tokens.length) : ∃ t, i.tokens[p]? = some t :=
  ⟨_, List.getElem?_eq_getElem h⟩

theorem Cursor.On.lt (h : c.On i t) : c.position < i.tokens.length :=
  (List.getElem?_eq_some_iff.mp h).1

/-- The token that the cursor stands on is the first one that is left. -/
theorem Cursor.On.drop (h : c.On i t) :
    i.tokens.drop c.position = t :: i.tokens.drop (c.position + 1) := by
  obtain ⟨hlt, rfl⟩ := List.getElem?_eq_some_iff.mp h
  exact List.drop_eq_getElem_cons hlt

theorem Cursor.On.kindOf_drop (h : c.On i t) :
    Parse.kindOf (i.tokens.drop c.position) = t.kind := by
  rw [h.drop, Parse.kindOf_cons]

theorem ScanInput.Passed.refl (h : p < i.tokens.length) : i.Passed p p :=
  ⟨Nat.le_refl p, h, fun _ _ hle hlt => absurd hle (Nat.not_le_of_lt hlt)⟩

theorem ScanInput.Passed.trans (h : i.Passed p p') (h' : i.Passed p' p'') : i.Passed p p'' := by
  refine ⟨Nat.le_trans h.le h'.le, h'.lt, fun n t hle hlt ht => ?_⟩
  by_cases hn : n < p'
  · exact h.inside n t hle hn ht
  · exact h'.inside n t (Nat.le_of_not_lt hn) hlt ht

/-- Behind a token that is not the end of the input there is another one. -/
theorem ScanInput.Closed.lt_of_ne (hi : i.Closed) (h : c.On i t) (ht : t.kind ≠ .endOfInput) :
    c.position + 1 < i.tokens.length := by
  have hlt := h.lt
  by_contra hnot
  have hlast : i.tokens.getLast? = some t := by
    rw [List.getLast?_eq_getElem?, show i.tokens.length - 1 = c.position by omega]
    exact h
  rw [ScanInput.Closed, hlast, Option.map_some, Option.some.injEq] at hi
  exact ht hi

theorem ne_endOfInput_of_inside {k : TokenKind} (h : k ∉ clauseEnd) : k ≠ .endOfInput := by
  intro h
  subst h
  exact h (by decide)

/-- One token inside a clause is passed over. -/
theorem ScanInput.Closed.passed (hi : i.Closed) (h : c.On i t) (ht : t.kind ∉ clauseEnd) :
    i.Passed c.position (c.position + 1) := by
  refine ⟨Nat.le_succ _, hi.lt_of_ne h (ne_endOfInput_of_inside ht), fun n u hle hlt hu => ?_⟩
  obtain rfl : n = c.position := by omega
  have htu : t = u := Option.some.inj (h.symm.trans hu)
  exact htu ▸ ht

end Positions

/-! ## 2. Parts of readers with a cursor -/

namespace Scan

section Parts

variable {i : ScanInput} {c c' : Cursor} {t : Token} {α β : Type}

/-- A reader goes on with the result of the one before it. -/
theorem then_of_ok {m : Scan β} {x : β} (h : m i c = .ok x c') (f : β → Scan α) :
    (m >>= f) i c = f x i c' := by
  show andThen m f i c = _
  unfold andThen
  rw [h]

theorem then_of_failed {m : Scan β} {fatal : Bool} (h : m i c = .failed fatal c')
    (f : β → Scan α) : (m >>= f) i c = .failed fatal c' := by
  show andThen m f i c = _
  unfold andThen
  rw [h]

theorem tokenAt_eq {p : Nat} (h : i.tokens[p]? = some t) : tokenAt p i c = .ok t c := by
  unfold tokenAt
  rw [h]

theorem cur_then (h : c.On i t) (f : Token → Scan α) : (cur >>= f) i c = f t i c := by
  have hcur : cur i c = .ok t c := tokenAt_eq h
  exact then_of_ok hcur f

theorem atKind_then (h : c.On i t) (kind : TokenKind) (f : Bool → Scan α) :
    (atKind kind >>= f) i c = f (decide (t.kind = kind)) i c := by
  have hkind : atKind kind i c = .ok (decide (t.kind = kind)) c := cur_then h _
  exact then_of_ok hkind f

theorem advance_eq (h : c.On i t) (ht : t.kind ≠ .endOfInput) :
    advance i c = .ok t (c.moved (c.position + 1)) := by
  unfold advance
  rw [cur_then h, if_neg ht]
  rfl

theorem advance_then (h : c.On i t) (ht : t.kind ≠ .endOfInput) (f : Token → Scan α) :
    (advance >>= f) i c = f t i (c.moved (c.position + 1)) := then_of_ok (advance_eq h ht) f

theorem accept_of_eq {kind : TokenKind} (h : c.On i t) (ht : t.kind = kind)
    (hkind : kind ≠ .endOfInput) (f : Bool → Scan α) :
    (accept kind >>= f) i c = f true i (c.moved (c.position + 1)) := by
  have haccept : accept kind i c = .ok true (c.moved (c.position + 1)) := by
    unfold accept
    rw [atKind_then h, decide_eq_true ht, if_pos rfl, advance_then h (ht ▸ hkind)]
    rfl
  exact then_of_ok haccept f

theorem accept_of_ne {kind : TokenKind} (h : c.On i t) (ht : t.kind ≠ kind)
    (f : Bool → Scan α) : (accept kind >>= f) i c = f false i c := by
  have haccept : accept kind i c = .ok false c := by
    unfold accept
    rw [atKind_then h, decide_eq_false ht, if_neg Bool.false_ne_true]
    rfl
  exact then_of_ok haccept f

/-- The token behind the next one is looked at only if there is one. -/
theorem peek_then (hi : i.Closed) (h : c.On i t) :
    ∃ u, (∀ {β : Type} (f : Token → Scan β), (peek >>= f) i c = f u i c) ∧
      (t.kind ≠ .endOfInput → (c.moved (c.position + 1)).On i u) := by
  have hlt := h.lt
  obtain ⟨u, hu⟩ := i.exists_on (p := min (c.position + 1) (i.tokens.length - 1)) (by omega)
  have hpeek : peek i c = .ok u c := tokenAt_eq hu
  refine ⟨u, fun f => then_of_ok hpeek f, fun ht => ?_⟩
  have hnext := hi.lt_of_ne h ht
  rwa [Nat.min_eq_left (by omega)] at hu

theorem record_eq {p : Nat} (h : ∃ t, i.tokens[p]? = some t) (cause : Cause) :
    record p cause i c = .ok () (c.withError ⟨i.tokens.drop p, cause⟩) := by
  obtain ⟨t, ht⟩ := h
  exact then_of_ok (tokenAt_eq ht) _

/-- A failure that is not fatal is recorded unless this is an attempt. -/
theorem failAt_eq {p : Nat} {cause : Cause} (h : ∃ t, i.tokens[p]? = some t)
    (hcause : cause ≠ .nestedTooDeeply) :
    (failAt p cause : Scan α) i c = .failed false (c.recorded ⟨i.tokens.drop p, cause⟩) := by
  have hfatal : (⟨i.tokens.drop p, cause⟩ : Failure).fatal = false := by
    simp [Failure.fatal, hcause]
  have hreport : report p cause i c = .ok () (c.recorded ⟨i.tokens.drop p, cause⟩) := by
    show (if c.attempts = 0 then record p cause else pure ()) i c = _
    by_cases hattempts : c.attempts = 0
    · rw [if_pos hattempts, record_eq h]
      simp [Cursor.recorded, hattempts]
    · rw [if_neg hattempts]
      simp only [Cursor.recorded, hattempts, hfatal, Bool.false_eq_true, or_self, if_false]
      rfl
  exact then_of_ok hreport _

end Parts

/-! ## 3. Two readers that end alike -/

/-- The two ends are alike, from a cursor on. -/
inductive Matches {α : Type} (i : ScanInput) (c : Cursor) :
    Except Failure (α × List Token) → Outcome α → Prop
  | ok {x : α} {p : Nat} : i.Passed c.position p →
      Matches i c (.ok (x, i.tokens.drop p)) (.ok x (c.moved p))
  | error {f : Failure} {p : Nat} : i.Passed c.position p →
      Matches i c (.error f) (.failed f.fatal ((c.moved p).recorded f))

/-- From the cursor on, the two readers end alike. -/
def Runs {α : Type} (i : ScanInput) (c : Cursor) (m : Scan α) (r : Parse α) : Prop :=
  ∀ t, c.On i t → Matches i c (r (t :: i.tokens.drop (c.position + 1))) (m i c)

section Runs

variable {i : ScanInput} {c : Cursor} {α β : Type} {m : Scan α} {r : Parse α}

theorem Matches.after {p : Nat} {e : Except Failure (α × List Token)} {o : Outcome α}
    (hp : i.Passed c.position p) (h : Matches i (c.moved p) e o) : Matches i c e o := by
  cases h with
  | ok hpassed => exact .ok (hp.trans hpassed)
  | error hpassed => exact .error (hp.trans hpassed)

/-- The two readers end alike from a position on that comes later. -/
theorem Runs.after {p : Nat} (hp : i.Passed c.position p) (h : Runs i (c.moved p) m r) :
    Matches i c (r (i.tokens.drop p)) (m i (c.moved p)) := by
  obtain ⟨u, hu⟩ := i.exists_on hp.lt
  have hon : (c.moved p).On i u := hu
  have hmatches := h u hon
  rw [← hon.drop] at hmatches
  exact hmatches.after hp

/-- **Readers put together end alike if their parts do.** -/
theorem Runs.bind {f : α → Scan β} {g : α → Parse β} (hm : Runs i c m r)
    (hf : ∀ x p, i.Passed c.position p → Runs i (c.moved p) (f x) (g x)) :
    Runs i c (m >>= f) (r >>= g) := by
  intro t ht
  have hmatches := hm t ht
  show Matches i c (r (t :: i.tokens.drop (c.position + 1)) >>= fun y => g y.1 y.2)
    (andThen m f i c)
  unfold andThen
  generalize r (t :: i.tokens.drop (c.position + 1)) = e at hmatches ⊢
  generalize m i c = o at hmatches ⊢
  cases hmatches with
  | ok hp => exact (hf _ _ hp).after hp
  | error hp => exact .error hp

theorem Runs.pure (x : α) : Runs i c (pure x) (pure x) := by
  intro t ht
  rw [← ht.drop]
  exact .ok (.refl ht.lt)

/-- What is done with a result of one kind or the other. -/
theorem Runs.map {f : α → β} (hm : Runs i c m r) : Runs i c (do return f (← m)) (f <$> r) := by
  have hbind : f <$> r = r >>= fun x => Pure.pure (f x) := (bind_pure_comp f r).symm
  rw [hbind]
  exact hm.bind fun x _ _ => .pure (f x)

/-- A token inside a clause is passed over by both. -/
theorem Runs.advance {t : Token} (hi : i.Closed) (ht : c.On i t) (hinside : t.kind ∉ clauseEnd)
    {f : Token → Scan α} (h : Runs i (c.moved (c.position + 1)) (f t) r) :
    Matches i c (r (i.tokens.drop (c.position + 1))) ((advance >>= f) i c) := by
  rw [advance_then ht (ne_endOfInput_of_inside hinside)]
  exact h.after (hi.passed ht hinside)

/-- So is one that is taken because of its kind. -/
theorem Runs.accept {t : Token} {kind : TokenKind} (hi : i.Closed) (ht : c.On i t)
    (hk : t.kind = kind) (hinside : kind ∉ clauseEnd) {f : Bool → Scan α}
    (h : Runs i (c.moved (c.position + 1)) (f true) r) :
    Matches i c (r (i.tokens.drop (c.position + 1))) ((accept kind >>= f) i c) := by
  rw [accept_of_eq ht hk (ne_endOfInput_of_inside hinside)]
  exact h.after (hi.passed ht (hk ▸ hinside))

/-- One token inside a clause is read by both. -/
theorem Matches.advance {t : Token} (hi : i.Closed) (ht : c.On i t) (hinside : t.kind ∉ clauseEnd)
    {f : Token → Scan α} {x : α}
    (hf : f t i (c.moved (c.position + 1)) = .ok x (c.moved (c.position + 1))) :
    Matches i c (.ok (x, i.tokens.drop (c.position + 1))) ((Scan.advance >>= f) i c) := by
  rw [advance_then ht (ne_endOfInput_of_inside hinside), hf]
  exact .ok (hi.passed ht hinside)

/-- A failure at a token that is not passed over. -/
theorem Matches.failAt {t : Token} (ht : c.On i t) {cause : Cause}
    (hcause : cause ≠ .nestedTooDeeply) :
    Matches i c (.error ⟨t :: i.tokens.drop (c.position + 1), cause⟩)
      ((Scan.failAt c.position cause : Scan α) i c) := by
  have hfatal : (⟨t :: i.tokens.drop (c.position + 1), cause⟩ : Failure).fatal = false := by
    simp [Failure.fatal, hcause]
  rw [failAt_eq ⟨t, ht⟩ hcause, ht.drop, ← hfatal]
  exact .error (.refl ht.lt)

theorem mismatch_runs (expected : List TokenKind) :
    Runs i c (mismatch expected : Scan α) (Parse.mismatch expected) := by
  intro t ht
  exact .failAt ht (by simp)

theorem expect_runs (hi : i.Closed) {kind : TokenKind} (hkind : kind ∉ clauseEnd) :
    Runs i c (expect kind) (Parse.expect kind) := by
  intro t ht
  unfold expect
  rw [atKind_then ht]
  by_cases hk : t.kind = kind
  · have hinside : t.kind ∉ clauseEnd := hk ▸ hkind
    rw [decide_eq_true hk, if_pos rfl, Parse.expect_cons hk,
      advance_eq ht (ne_endOfInput_of_inside hinside)]
    exact .ok (hi.passed ht hinside)
  · rw [decide_eq_false hk, if_neg Bool.false_ne_true]
    have hread : Parse.expect kind (t :: i.tokens.drop (c.position + 1)) =
        Parse.mismatch [kind] (t :: i.tokens.drop (c.position + 1)) := if_neg hk
    rw [hread]
    exact mismatch_runs [kind] t ht

theorem accept_runs (hi : i.Closed) {kind : TokenKind} (hkind : kind ∉ clauseEnd) :
    Runs i c (accept kind) (Parse.accept kind) := by
  intro t ht
  have hbind : (accept kind >>= Pure.pure) i c = accept kind i c := by
    show andThen (accept kind) Pure.pure i c = _
    unfold andThen
    cases accept kind i c <;> rfl
  rw [← hbind]
  by_cases hk : t.kind = kind
  · have hinside : t.kind ∉ clauseEnd := hk ▸ hkind
    rw [accept_of_eq ht hk (ne_endOfInput_of_inside hkind), Parse.accept_cons hk]
    exact .ok (hi.passed ht hinside)
  · have hread : Parse.accept kind (t :: i.tokens.drop (c.position + 1)) =
        .ok (false, t :: i.tokens.drop (c.position + 1)) := if_neg hk
    rw [accept_of_ne ht hk, hread, ← ht.drop]
    exact .ok (.refl ht.lt)

/-! ## 4. Levels -/

theorem nested_of_lt (hdepth : c.depth < i.limit) : nested m i c = oneDeeper m i c := by
  show (if i.limit < c.depth + 1 then _ else _ : Scan α) i c = _
  split
  · omega
  · rfl

theorem nested_of_le (hdepth : i.limit ≤ c.depth) :
    nested m i c = (record c.position .nestedTooDeeply >>= fun _ => (raise true : Scan α)) i c := by
  show (if i.limit < c.depth + 1 then _ else _ : Scan α) i c = _
  split
  · rfl
  · omega

theorem oneDeeper_of_ok {x : α} {c' : Cursor} (h : m i c.deeper = .ok x c') :
    oneDeeper m i c = .ok x c'.shallower := by
  unfold oneDeeper
  rw [h]

theorem oneDeeper_of_failed {fatal : Bool} {c' : Cursor} (h : m i c.deeper = .failed fatal c') :
    oneDeeper m i c = .failed fatal c'.shallower := by
  unfold oneDeeper
  rw [h]

/-- Going back one level undoes what going in has changed. -/
theorem recorded_shallower (c : Cursor) (p : Nat) (f : Failure) :
    ((c.deeper.moved p).recorded f).shallower = (c.moved p).recorded f := by
  show (if c.attempts = 0 ∨ f.fatal = true then (c.deeper.moved p).withError f
    else c.deeper.moved p).shallower = if c.attempts = 0 ∨ f.fatal = true then
      (c.moved p).withError f else c.moved p
  split <;> rfl

/-- One level further inside the readers go on alike. -/
theorem nested_runs (hdepth : c.depth < i.limit) (hm : Runs i c.deeper m r) :
    Runs i c (nested m) r := by
  intro t ht
  have hmatches := hm t ht
  rw [nested_of_lt hdepth]
  unfold oneDeeper
  show Matches i c (r (t :: i.tokens.drop (c.deeper.position + 1))) _
  generalize r (t :: i.tokens.drop (c.deeper.position + 1)) = e at hmatches ⊢
  generalize m i c.deeper = o at hmatches ⊢
  cases hmatches with
  | ok hp => exact .ok hp
  | @error f p hp =>
    show Matches i c (.error f) (.failed f.fatal ((c.deeper.moved p).recorded f).shallower)
    rw [recorded_shallower]
    exact .error hp

/-- A level too many is recorded, also in an attempt. -/
theorem nested_tooDeep (hdepth : i.limit ≤ c.depth) : Runs i c (nested m) Parse.tooDeep := by
  intro t ht
  rw [nested_of_le hdepth, then_of_ok (record_eq ⟨t, ht⟩ _), ht.drop]
  have hfatal : (⟨t :: i.tokens.drop (c.position + 1), .nestedTooDeeply⟩ : Failure).fatal =
      true := rfl
  have hrecorded : c.withError ⟨t :: i.tokens.drop (c.position + 1), .nestedTooDeeply⟩ =
      (c.moved c.position).recorded ⟨t :: i.tokens.drop (c.position + 1), .nestedTooDeeply⟩ := by
    rw [Cursor.recorded_of_fatal _ hfatal]
    rfl
  rw [hrecorded]
  exact .error (.refl ht.lt)

/-- A token inside a clause opens a level. -/
theorem opening_runs {t : Token} (hi : i.Closed) (ht : c.On i t) (hinside : t.kind ∉ clauseEnd)
    (hdepth : c.depth < i.limit) {f : Token → Scan α}
    (h : Runs i (c.deeper.moved (c.position + 1)) (f t) r) :
    Matches i c (r (i.tokens.drop (c.position + 1))) (nested (Scan.advance >>= f) i c) := by
  have hbody : Runs i c.deeper (Scan.advance >>= f) (fun ts => r ts.tail) := by
    intro u hu
    obtain rfl : t = u := Option.some.inj (ht.symm.trans hu)
    exact h.advance hi hu hinside
  exact nested_runs hdepth hbody t ht

/-! ## 5. Repetition -/

section Repeat

variable {ω : Type} {operator : TokenKind → Option ω} {combine : ω → α → α → α}

/-- A chain is followed by both readers as long as operators come; no count runs out, since every
    round passes over a token. -/
theorem chainFrom_runs (hi : i.Closed)
    (hoperator : ∀ k op, operator k = some op → k ∉ clauseEnd)
    (hitem : ∀ p, Runs i (c.moved p) m r) (n k : Nat) (left : α) {p : Nat}
    (hn : i.tokens.length ≤ n + p) (hk : (i.tokens.drop p).length ≤ k) :
    Runs i (c.moved p) (chainFrom operator combine m n left)
      (Parse.chainFrom operator combine r k left) := by
  induction n generalizing k left p with
  | zero =>
    intro t ht
    have hlt : p < i.tokens.length := ht.lt
    omega
  | succ n ih =>
    intro t ht
    have hlt : p < i.tokens.length := ht.lt
    rw [List.length_drop] at hk
    obtain ⟨k, rfl⟩ := Nat.exists_eq_succ_of_ne_zero (show k ≠ 0 by omega)
    unfold chainFrom
    rw [cur_then ht, Parse.chainFrom, Parse.kindOf_cons, List.tail_cons]
    cases hop : operator t.kind with
    | none =>
      simp only [← ht.drop]
      exact .ok (.refl ht.lt)
    | some op =>
      refine Runs.advance hi ht (hoperator t.kind op hop)
        (r := r >>= fun right => Parse.chainFrom operator combine r k (combine op left right)) ?_
      refine (hitem _).bind fun right p' hp => ?_
      refine ih k (combine op left right) ?_ ?_
      · have hle : p + 1 ≤ p' := hp.le
        omega
      · have hle : p + 1 ≤ p' := hp.le
        rw [List.length_drop]
        omega

theorem chain_runs (hi : i.Closed) (hoperator : ∀ k op, operator k = some op → k ∉ clauseEnd)
    (hitem : ∀ p, Runs i (c.moved p) m r) :
    Runs i c (chain operator combine m) (Parse.chain operator combine r) := by
  have hchain : Parse.chain operator combine r = r >>= fun left rest =>
      Parse.chainFrom operator combine r rest.length left rest := rfl
  rw [hchain]
  refine (hitem c.position).bind fun left p hp t ht => ?_
  refine chainFrom_runs hi hoperator hitem i.tokens.length _ left (by omega) ?_ t ht
  rw [← ht.drop]
  exact Nat.le_refl _

end Repeat

/-- So is a list with commas. -/
theorem commaListFrom_runs (hi : i.Closed) (hitem : ∀ p, Runs i (c.moved p) m r) (n k : Nat)
    {p : Nat} (hn : i.tokens.length ≤ n + p) (hk : (i.tokens.drop p).length ≤ k) :
    Runs i (c.moved p) (commaListFrom m n) (Parse.commaListFrom r k) := by
  have hcomma : TokenKind.symbol .comma ∉ clauseEnd := by decide
  induction n generalizing k p with
  | zero =>
    intro t ht
    have hlt : p < i.tokens.length := ht.lt
    omega
  | succ n ih =>
    intro t ht
    have hlt : p < i.tokens.length := ht.lt
    rw [List.length_drop] at hk
    obtain ⟨k, rfl⟩ := Nat.exists_eq_succ_of_ne_zero (show k ≠ 0 by omega)
    unfold commaListFrom
    rw [Parse.commaListFrom, Parse.kindOf_cons, List.tail_cons]
    by_cases hk' : t.kind = .symbol .comma
    · rw [if_pos hk']
      refine Runs.accept (r := do return (← r) :: (← Parse.commaListFrom r k)) hi ht hk' hcomma ?_
      refine (hitem _).bind fun x p' hp => ?_
      have hle : p + 1 ≤ p' := hp.le
      have hlist := ih k (p := p') (by omega) (by rw [List.length_drop]; omega)
      exact hlist.bind fun xs p'' _ => .pure (x :: xs)
    · rw [if_neg hk', accept_of_ne ht hk', if_neg Bool.false_ne_true, ← ht.drop]
      exact .ok (.refl ht.lt)

theorem commaList_runs (hi : i.Closed) (hitem : ∀ p, Runs i (c.moved p) m r) :
    Runs i c (commaList m) (Parse.commaList r) := by
  have hlist : Parse.commaList r = (do
      let x ← r
      let xs ← fun rest => Parse.commaListFrom r rest.length rest
      return x :: xs) := rfl
  rw [hlist]
  refine (hitem c.position).bind fun x p hp => ?_
  have hfrom : Runs i (c.moved p) (commaListFrom m i.tokens.length)
      (fun rest => Parse.commaListFrom r rest.length rest) := by
    intro t ht
    refine commaListFrom_runs hi hitem i.tokens.length _ (by omega) ?_ t ht
    rw [← ht.drop]
    exact Nat.le_refl _
  exact hfrom.bind fun xs p' _ => .pure (x :: xs)

end Runs

end Scan

end MiningQuery
