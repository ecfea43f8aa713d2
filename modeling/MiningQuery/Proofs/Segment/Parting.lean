/-
  File:      MiningQuery/Proofs/Segment/Parting.lean
  Subject:   Two runs of a reader on token lists that part somewhere.

  Up to the point where they part the lists are alike token by token, in kind and text; from there
  on each goes on with an end of its own, and both ends begin with what may follow a clause.

  * `Parting`, `Alike` -- two ends, and the lists that lead to them;
  * `Agrees` -- two readers give related values or the same cause of failure, and leave lists that
    are alike again;
  * `Forward`, `Forward.of_agrees` -- a reader leaves an end of what it was given, and fails in one;
  * **`Agrees.bind`**, **`chain_agrees`**, **`commaList_agrees`** -- so do readers that are put
    together from such readers.
-/
import MiningQuery.Proofs.Grammar.Clause

namespace MiningQuery.Parse

/-! ## 1. Lists that part -/

/-- Two ends of token lists, and when a token of one list counts as that of the other. -/
structure Parting where
  same : Token → Token → Prop
  left : List Token
  right : List Token
  same_kind : ∀ {t t' : Token}, same t t' → t.kind = t'.kind
  same_text : ∀ {t t' : Token}, same t t' → t.text = t'.text
  left_stop : ClauseStop left
  right_stop : ClauseStop right

/-- Behind the last token a clause has ended. -/
theorem clauseStop_nil : ClauseStop [] := show TokenKind.endOfInput ∈ clauseEnd by decide

/-- Two ends of one list: a token counts as itself only. -/
def Parting.between {left right : List Token} (hleft : ClauseStop left)
    (hright : ClauseStop right) : Parting where
  same := Eq
  left
  right
  same_kind h := congrArg Token.kind h
  same_text h := congrArg Token.text h
  left_stop := hleft
  right_stop := hright

/-- The lists are alike up to the two ends. -/
inductive Alike (p : Parting) : List Token → List Token → Prop
  | parted : Alike p p.left p.right
  | cons {t t' : Token} {ts ts' : List Token} : p.same t t' → Alike p ts ts' →
      Alike p (t :: ts) (t' :: ts')

section Lists

variable {p : Parting} {ts ts' : List Token} {γ : Type}

/-- What tells no two ends of a clause apart tells the next tokens of alike lists not apart. -/
theorem Alike.look (h : Alike p ts ts') {g : TokenKind → γ}
    (hg : ∀ k ∈ clauseEnd, g k = g .endOfInput) : g (kindOf ts) = g (kindOf ts') := by
  cases h with
  | parted => rw [hg _ p.left_stop, hg _ p.right_stop]
  | cons ht _ => rw [kindOf_cons, kindOf_cons, p.same_kind ht]

/-- A kind inside a clause comes next in both lists or in neither. -/
theorem Alike.kindOf_iff (h : Alike p ts ts') {k : TokenKind} (hk : k ∉ clauseEnd) :
    kindOf ts = k ↔ kindOf ts' = k := by
  have hlook := h.look (g := fun k' => decide (k' = k)) fun k' hk' => by
    have hne : k' ≠ k := fun e => hk (e ▸ hk')
    have hend : TokenKind.endOfInput ≠ k := fun e => hk (e ▸ by decide)
    simp [hne, hend]
  simpa using hlook

/-- Behind a token inside a clause the lists are alike as well. -/
theorem Alike.tail (h : Alike p ts ts') (hk : kindOf ts ∉ clauseEnd) :
    Alike p ts.tail ts'.tail := by
  cases h with
  | parted => exact absurd p.left_stop hk
  | cons _ h => exact h

/-- Alike lists are the same tokens with the two ends, if a token counts as itself only. -/
theorem Alike.exists_append (hp : ∀ {t t' : Token}, p.same t t' → t = t') (h : Alike p ts ts') :
    ∃ us, ts = us ++ p.left ∧ ts' = us ++ p.right := by
  induction h with
  | parted => exact ⟨[], rfl, rfl⟩
  | @cons t t' us us' ht _ ih =>
    obtain ⟨vs, rfl, rfl⟩ := ih
    obtain rfl := hp ht
    exact ⟨t :: vs, rfl, rfl⟩

theorem Alike.append (hp : ∀ t : Token, p.same t t) (us : List Token) :
    Alike p (us ++ p.left) (us ++ p.right) := by
  induction us with
  | nil => exact .parted
  | cons t us ih => exact .cons (hp t) ih

end Lists

/-! ## 2. Readers that agree -/

/-- The two readings end alike: what they leave are ends of what they were given. -/
inductive Ends {α β : Type} (p : Parting) (V : α → β → Prop) (ts ts' : List Token) :
    Except Failure (α × List Token) → Except Failure (β × List Token) → Prop
  | ok {x : α} {y : β} {rest rest' : List Token} : V x y → rest <:+ ts → rest' <:+ ts' →
      Alike p rest rest' → Ends p V ts ts' (.ok (x, rest)) (.ok (y, rest'))
  | error {rest rest' : List Token} {cause : Cause} : rest <:+ ts → rest' <:+ ts' →
      Alike p rest rest' → Ends p V ts ts' (.error ⟨rest, cause⟩) (.error ⟨rest', cause⟩)

/-- On alike lists the two readers end alike. -/
def Agrees {α β : Type} (p : Parting) (V : α → β → Prop) (r : Parse α) (r' : Parse β) : Prop :=
  ∀ ts ts', Alike p ts ts' → Ends p V ts ts' (r ts) (r' ts')

section Agrees

variable {α β γ δ : Type} {p : Parting} {V : α → β → Prop} {W : γ → δ → Prop}
  {r : Parse α} {r' : Parse β} {ts ts' us us' : List Token}

/-- Readings from later on are readings from earlier on. -/
theorem Ends.after {o : Except Failure (α × List Token)} {o' : Except Failure (β × List Token)}
    (hts : us <:+ ts) (hts' : us' <:+ ts') (h : Ends p V us us' o o') : Ends p V ts ts' o o' := by
  cases h with
  | ok hV hs hs' ha => exact .ok hV (hs.trans hts) (hs'.trans hts') ha
  | error hs hs' ha => exact .error (hs.trans hts) (hs'.trans hts') ha

theorem Ends.value {x : α} {y : β} (h : Alike p ts ts') (hV : V x y) :
    Ends p V ts ts' (.ok (x, ts)) (.ok (y, ts')) :=
  .ok hV (List.suffix_refl _) (List.suffix_refl _) h

theorem Ends.failure (h : Alike p ts ts') (cause : Cause) :
    Ends p V ts ts' (.error ⟨ts, cause⟩) (.error ⟨ts', cause⟩) :=
  .error (List.suffix_refl _) (List.suffix_refl _) h

/-- A reading that goes on with the values of another. -/
theorem Ends.bind {o : Except Failure (α × List Token)} {o' : Except Failure (β × List Token)}
    {f : α × List Token → Except Failure (γ × List Token)}
    {f' : β × List Token → Except Failure (δ × List Token)} (h : Ends p V ts ts' o o')
    (hf : ∀ {x y us us'}, V x y → us <:+ ts → us' <:+ ts' → Alike p us us' →
      Ends p W us us' (f (x, us)) (f' (y, us'))) :
    Ends p W ts ts' (o >>= f) (o' >>= f') := by
  cases h with
  | ok hV hs hs' ha => exact (hf hV hs hs' ha).after hs hs'
  | error hs hs' ha => exact .error hs hs' ha

/-- **Readers put together agree if their parts do.** -/
theorem Agrees.bind {f : α → Parse γ} {f' : β → Parse δ} (h : Agrees p V r r')
    (hf : ∀ x y, V x y → Agrees p W (f x) (f' y)) : Agrees p W (r >>= f) (r' >>= f') := by
  intro ts ts' ha
  exact (h ts ts' ha).bind fun hV _ _ ha' => hf _ _ hV _ _ ha'

theorem Agrees.pure {x : γ} {y : δ} (hW : W x y) : Agrees p W (pure x) (pure y) :=
  fun _ _ ha => .value ha hW

theorem Agrees.map {f : α → γ} {f' : β → δ} (h : Agrees p V r r')
    (hf : ∀ x y, V x y → W (f x) (f' y)) : Agrees p W (f <$> r) (f' <$> r') := by
  rw [← bind_pure_comp, ← bind_pure_comp]
  exact h.bind fun x y hV => .pure (hf x y hV)

/-- Readers that agree go on behind a token inside a clause. -/
theorem Agrees.tail (h : Agrees p V r r') (ha : Alike p ts ts') (hk : kindOf ts ∉ clauseEnd) :
    Ends p V ts ts' (r ts.tail) (r' ts'.tail) :=
  (h _ _ (ha.tail hk)).after (List.tail_suffix ts) (List.tail_suffix ts')

theorem mismatch_agrees (expected : List TokenKind) :
    Agrees p V (mismatch expected) (mismatch expected) := fun _ _ ha => .failure ha _

theorem tooDeep_agrees : Agrees p V tooDeep tooDeep := fun _ _ ha => .failure ha _

/-- The same token is taken from both lists. -/
theorem expect_agrees {kind : TokenKind} (hkind : kind ∉ clauseEnd) :
    Agrees p p.same (expect kind) (expect kind) := by
  have hstop : ∀ {ts : List Token}, ClauseStop ts → expect kind ts = mismatch [kind] ts := by
    intro ts hts
    cases ts with
    | nil => rfl
    | cons t ts => exact if_neg fun e : t.kind = kind => hkind (e ▸ hts)
  intro ts ts' ha
  cases ha with
  | parted =>
    rw [hstop p.left_stop, hstop p.right_stop]
    exact .failure .parted _
  | @cons t t' us us' ht hus =>
    by_cases hk : t.kind = kind
    · rw [expect_cons hk, expect_cons ((p.same_kind ht).symm.trans hk)]
      exact .ok ht (List.suffix_cons t us) (List.suffix_cons t' us') hus
    · have hk' : t'.kind ≠ kind := fun e => hk ((p.same_kind ht).trans e)
      have hread : expect kind (t :: us) = mismatch [kind] (t :: us) := if_neg hk
      have hread' : expect kind (t' :: us') = mismatch [kind] (t' :: us') := if_neg hk'
      rw [hread, hread']
      exact .failure (.cons ht hus) _

theorem accept_agrees {kind : TokenKind} (hkind : kind ∉ clauseEnd) :
    Agrees p Eq (accept kind) (accept kind) := by
  intro ts ts' ha
  by_cases hk : kindOf ts = kind
  · have hk' : kindOf ts' = kind := (ha.kindOf_iff hkind).mp hk
    have hinside : kindOf ts ∉ clauseEnd := hk ▸ hkind
    cases ha with
    | parted => exact absurd p.left_stop hinside
    | @cons t t' us us' ht hus =>
      rw [accept_cons hk, accept_cons hk']
      exact .ok rfl (List.suffix_cons t us) (List.suffix_cons t' us') hus
  · have hk' : kindOf ts' ≠ kind := fun e => hk ((ha.kindOf_iff hkind).mpr e)
    rw [accept_of_ne hk, accept_of_ne hk']
    exact .value ha rfl

theorem name_agrees : Agrees p Eq name name :=
  (expect_agrees (by decide)).bind fun _ _ ht => .pure (p.same_text ht)

/-- A token that is passed over because of its kind. -/
theorem Agrees.behind {kind : TokenKind} (hkind : kind ∉ clauseEnd) (h : Agrees p V r r') :
    Agrees p V (expect kind >>= fun _ => r) (expect kind >>= fun _ => r') :=
  (expect_agrees hkind).bind fun _ _ _ => h

end Agrees

/-! ## 3. Readers that go forward -/

/-- What a reading leaves, or the place where it fails, is an end of some tokens. -/
structure Within {α : Type} (ts : List Token) (o : Except Failure (α × List Token)) : Prop where
  value : ∀ {x rest}, o = .ok (x, rest) → rest <:+ ts
  failure : ∀ {f}, o = .error f → f.rest <:+ ts

/-- The reader leaves an end of what it was given, and fails in one. -/
def Forward {α : Type} (r : Parse α) : Prop := ∀ ts, Within ts (r ts)

section Forward

variable {α : Type} {ts us : List Token} {o : Except Failure (α × List Token)} {r : Parse α}

theorem Within.of_ok {x : α} {rest : List Token} (h : rest <:+ ts) : Within ts (.ok (x, rest)) where
  value e := by
    cases e
    exact h
  failure e := nomatch e

theorem Within.of_error {f : Failure} (h : f.rest <:+ ts) :
    Within ts (.error f : Except Failure (α × List Token)) where
  value e := nomatch e
  failure e := by
    cases e
    exact h

theorem Within.after (h : Within us o) (hus : us <:+ ts) : Within ts o where
  value e := (h.value e).trans hus
  failure e := (h.failure e).trans hus

/-- A reader that agrees with itself goes forward. -/
theorem Forward.of_agrees {V : Parting → α → α → Prop} (h : ∀ p, Agrees p (V p) r r) : Forward r := by
  intro ts
  let p := Parting.between clauseStop_nil clauseStop_nil
  have ha : Alike p (ts ++ []) (ts ++ []) := .append (fun _ => rfl) ts
  rw [List.append_nil] at ha
  have hends := h p ts ts ha
  generalize r ts = o at hends ⊢
  cases hends with
  | ok _ hs => exact .of_ok hs
  | error hs => exact .of_error hs

end Forward

/-! ## 4. Repetition -/

section Repetition

variable {α ω : Type} {p : Parting} {item : Parse α}

/-- The counts of rounds need not be the same, if neither is what ends the loop. -/
theorem chainFrom_agrees {operator : TokenKind → Option ω} {combine : ω → α → α → α}
    (hitem : Agrees p Eq item item) (hop : ∀ k ∈ clauseEnd, operator k = none) {n n' : Nat}
    {left : α} {ts ts' : List Token} (hn : ts.length ≤ n) (hn' : ts'.length ≤ n')
    (ha : Alike p ts ts') :
    Ends p Eq ts ts' (chainFrom operator combine item n left ts)
      (chainFrom operator combine item n' left ts') := by
  have hend : operator .endOfInput = none := hop _ (by decide)
  induction n generalizing n' left ts ts' with
  | zero =>
    obtain rfl := List.length_eq_zero_iff.mp (Nat.le_zero.mp hn)
    have hnone : operator (kindOf ts') = none := by
      rw [← ha.look fun k hk => (hop k hk).trans hend.symm]
      exact hend
    rw [chainFrom_stop hend, chainFrom_stop hnone]
    exact .value ha rfl
  | succ n ih =>
    have hlook := ha.look fun k hk => (hop k hk).trans hend.symm
    cases ho : operator (kindOf ts) with
    | none =>
      rw [chainFrom_stop ho, chainFrom_stop (hlook.symm.trans ho)]
      exact .value ha rfl
    | some op =>
      have ho' : operator (kindOf ts') = some op := hlook.symm.trans ho
      have hinside : kindOf ts ∉ clauseEnd := by
        intro hk
        rw [hop _ hk] at ho
        cases ho
      cases ha with
      | parted => exact absurd p.left_stop hinside
      | @cons t t' us us' ht hus =>
        obtain _ | n' := n'
        · simp at hn'
        simp only [chainFrom, ho, ho', List.tail_cons]
        simp only [List.length_cons, Nat.add_le_add_iff_right] at hn hn'
        refine Ends.after (List.suffix_cons t us) (List.suffix_cons t' us') ?_
        refine (hitem us us' hus).bind fun hV hs hs' ha' => ?_
        subst hV
        exact ih (Nat.le_trans hs.length_le hn) (Nat.le_trans hs'.length_le hn') ha'

/-- **Chains agree if their items do.** -/
theorem chain_agrees {operator : TokenKind → Option ω} {combine : ω → α → α → α}
    (hitem : Agrees p Eq item item) (hop : ∀ k ∈ clauseEnd, operator k = none) :
    Agrees p Eq (chain operator combine item) (chain operator combine item) := by
  intro ts ts' ha
  refine (hitem ts ts' ha).bind fun hV _ _ ha' => ?_
  subst hV
  exact chainFrom_agrees hitem hop (Nat.le_refl _) (Nat.le_refl _) ha'

theorem commaListFrom_agrees (hitem : Agrees p Eq item item) {n n' : Nat} {ts ts' : List Token}
    (hn : ts.length ≤ n) (hn' : ts'.length ≤ n') (ha : Alike p ts ts') :
    Ends p Eq ts ts' (commaListFrom item n ts) (commaListFrom item n' ts') := by
  have hcomma : TokenKind.symbol .comma ∉ clauseEnd := by decide
  have hnone : ∀ {n : Nat} {ts : List Token}, kindOf ts ≠ .symbol .comma →
      commaListFrom item n ts = .ok ([], ts) := by
    intro n ts hk
    cases n with
    | zero => rfl
    | succ n => exact if_neg hk
  induction n generalizing n' ts ts' with
  | zero =>
    obtain rfl := List.length_eq_zero_iff.mp (Nat.le_zero.mp hn)
    have hk : kindOf [] ≠ .symbol .comma := by simp
    rw [hnone hk, hnone fun e => hk ((ha.kindOf_iff hcomma).mpr e)]
    exact .value ha rfl
  | succ n ih =>
    by_cases hk : kindOf ts = .symbol .comma
    · have hk' : kindOf ts' = .symbol .comma := (ha.kindOf_iff hcomma).mp hk
      cases ha with
      | parted =>
        have hstop : kindOf p.left ∈ clauseEnd := p.left_stop
        rw [hk] at hstop
        exact absurd hstop hcomma
      | @cons t t' us us' ht hus =>
        obtain _ | n' := n'
        · simp at hn'
        simp only [commaListFrom, hk, hk', if_true, List.tail_cons]
        simp only [List.length_cons, Nat.add_le_add_iff_right] at hn hn'
        refine Ends.after (List.suffix_cons t us) (List.suffix_cons t' us') ?_
        refine (hitem us us' hus).bind fun hV hs hs' ha' => ?_
        subst hV
        have hrest := ih (Nat.le_trans hs.length_le hn) (Nat.le_trans hs'.length_le hn') ha'
        refine hrest.bind fun hV _ _ ha'' => ?_
        subst hV
        exact .value ha'' rfl
    · rw [hnone hk, hnone fun e => hk ((ha.kindOf_iff hcomma).mpr e)]
      exact .value ha rfl

/-- **Lists with commas agree if their items do.** -/
theorem commaList_agrees (hitem : Agrees p Eq item item) :
    Agrees p Eq (commaList item) (commaList item) := by
  intro ts ts' ha
  refine (hitem ts ts' ha).bind fun hV _ _ ha' => ?_
  subst hV
  refine (commaListFrom_agrees hitem (Nat.le_refl _) (Nat.le_refl _) ha').bind fun hV _ _ ha'' => ?_
  subst hV
  exact .value ha'' rfl

end Repetition

end MiningQuery.Parse
