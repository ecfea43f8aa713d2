/-
  File:      MiningQuery/Proofs/Offending/Fork.lean
  Subject:   Two token lists that are the same up to a token, and what a reader makes of both.

  Two lists have a token in common, and all tokens before it; behind it each goes on in its own way.
  A reader that comes to an end before the token or at it has seen nothing of the difference, so it
  does the same on the other list. What it does behind the token is its own affair, and nothing is
  said of it.

  * `Fork` -- the token in common, and the two lists behind it;
  * `Settles` -- what the one reading ended with, up to the token, the other ends with as well;
  * **`Settles.bind`**, **`chain_settles`**, **`commaList_settles`** -- so do readings that are put
    together from such readings.
-/
import MiningQuery.Proofs.Segment.Rules

namespace MiningQuery

/-- The causes that lay the failure to the token where it is reported. -/
def Cause.offends : Cause → Bool
  | .mismatched _ | .extraneous _ => true
  | _ => false

theorem Failure.offends_of_fatal (f : Failure) (h : f.fatal = true) : f.cause.offends = false := by
  have hcause : f.cause = .nestedTooDeeply := of_decide_eq_true h
  rw [hcause]
  rfl

namespace Parse

variable {α β ω : Type}

/-! ## 1. Readers that go forward -/

section Forward

variable {ts us : List Token} {o : Except Failure (α × List Token)} {r : Parse α}

theorem Within.bind {g : α × List Token → Except Failure (β × List Token)} (h : Within ts o)
    (hg : ∀ x rest, Within rest (g (x, rest))) : Within ts (o >>= g) := by
  cases o with
  | error f => exact .of_error (h.failure rfl)
  | ok p => exact (hg p.1 p.2).after (h.value rfl)

theorem Within.map {f : α → β} (h : Within us (r ts)) : Within us ((f <$> r) ts) :=
  h.bind fun _ rest => .of_ok (List.suffix_refl rest)

theorem Forward.bind {f : α → Parse β} (h : Forward r) (hf : ∀ x, Forward (f x)) :
    Forward (r >>= f) := fun ts => (h ts).bind fun x rest => hf x rest

theorem Forward.pure (x : α) : Forward (pure x) := fun ts => .of_ok (List.suffix_refl ts)

theorem Forward.returning (h : Forward r) (f : α → β) : Forward (do return f (← r)) :=
  h.bind fun x => .pure (f x)

theorem Forward.map {f : α → β} (h : Forward r) : Forward (f <$> r) := fun ts => (h ts).map

theorem expect_forward (kind : TokenKind) : Forward (expect kind) := by
  intro ts
  unfold expect
  split
  · split
    · exact .of_ok (List.suffix_cons _ _)
    · exact .of_error (List.suffix_refl _)
  · exact .of_error (List.suffix_refl _)

theorem accept_forward (kind : TokenKind) : Forward (accept kind) := by
  intro ts
  unfold accept
  split
  · split
    · exact .of_ok (List.suffix_cons _ _)
    · exact .of_ok (List.suffix_refl _)
  · exact .of_ok (List.suffix_refl _)

theorem name_forward : Forward name := (expect_forward _).bind fun t => .pure t.text

theorem Forward.chainFrom {operator : TokenKind → Option ω} {combine : ω → α → α → α}
    (h : Forward r) (n : Nat) (left : α) : Forward (chainFrom operator combine r n left) := by
  intro ts
  induction n generalizing left ts with
  | zero => exact .of_ok (List.suffix_refl ts)
  | succ n ih =>
    unfold Parse.chainFrom
    split
    · exact .of_ok (List.suffix_refl ts)
    · exact ((h ts.tail).after (List.tail_suffix ts)).bind fun right rest => ih _ rest

theorem Forward.chain {operator : TokenKind → Option ω} {combine : ω → α → α → α}
    (h : Forward r) : Forward (chain operator combine r) := fun ts =>
  (h ts).bind fun left rest => h.chainFrom _ left rest

theorem Forward.commaListFrom (h : Forward r) (n : Nat) : Forward (commaListFrom r n) := by
  intro ts
  induction n generalizing ts with
  | zero => exact .of_ok (List.suffix_refl ts)
  | succ n ih =>
    unfold Parse.commaListFrom
    split
    · refine ((h ts.tail).after (List.tail_suffix ts)).bind fun x rest => ?_
      exact (ih rest).bind fun xs rest' => .of_ok (List.suffix_refl rest')
    · exact .of_ok (List.suffix_refl ts)

theorem Forward.commaList (h : Forward r) : Forward (commaList r) := fun ts =>
  (h ts).bind fun _ rest => (h.commaListFrom _ rest).bind fun _ rest' =>
    .of_ok (List.suffix_refl rest')

end Forward

/-! ## 2. A token and two ways to go on -/

/-- A token, and two lists that may stand behind it. -/
structure Fork where
  token : Token
  left : List Token
  right : List Token

namespace Fork

/-- The token with the one list behind it. -/
def first (k : Fork) : List Token := k.token :: k.left

/-- The token with the other list behind it. -/
def second (k : Fork) : List Token := k.token :: k.right

variable (k : Fork) (mid : List Token)

/-- Both lists begin with the same token. -/
theorem kindOf_same : kindOf (mid ++ k.first) = kindOf (mid ++ k.second) := by
  cases mid <;> rfl

theorem ne_of_past {rest : List Token} (h : rest <:+ k.left) : rest ≠ mid ++ k.first := by
  rintro rfl
  have hle := h.length_le
  simp only [first, List.length_append, List.length_cons] at hle
  omega

/-- An end of what comes before the token, and of the token, is one that goes on with it, or it is
    past the token. -/
theorem suffix_cases {rest : List Token} (h : rest <:+ mid ++ k.first) :
    (∃ us vs, mid = us ++ vs ∧ rest = vs ++ k.first) ∨ rest <:+ k.left := by
  obtain ⟨us, hus⟩ := h
  rcases List.append_eq_append_iff.mp hus with ⟨vs, rfl, rfl⟩ | ⟨vs, rfl, hvs⟩
  · exact .inl ⟨us, vs, rfl, rfl⟩
  · cases vs with
    | nil => exact .inl ⟨mid, [], by simp, by simpa using hvs.symm⟩
    | cons v vs =>
      obtain ⟨-, hleft⟩ := List.cons.inj hvs
      exact .inr ⟨vs, hleft.symm⟩

end Fork

/-! ## 3. Readings that settle each other -/

/-- What the first reading ended with, up to the token, the second ends with as well. Instead the
    second may fail in a way that halts it; or it may go on behind the token astray, where the first
    left it; and a failure at the token may be excused. -/
structure Settles (k : Fork) (Excuse : Cause → Prop) (Halt : Failure → Prop) (Astray : Prop)
    (o o' : Except Failure (α × List Token)) : Prop where
  value : ∀ {x mid}, o = .ok (x, mid ++ k.first) →
    o' = .ok (x, mid ++ k.second) ∨ (∃ f, o' = .error f ∧ Halt f) ∨ (mid = [] ∧ Astray)
  failure : ∀ {cause}, cause.offends = true → o = .error ⟨k.first, cause⟩ →
    (∃ f, o' = .error f) ∨ Excuse cause

section Settles

variable {k : Fork} {Excuse : Cause → Prop} {Halt : Failure → Prop} {Astray : Prop}
  {o o' : Except Failure (α × List Token)}

namespace Settles

/-- Of a reading that is past the token nothing is said. -/
theorem past (h : Within k.left o) : Settles k Excuse Halt Astray o o' where
  value e := absurd rfl (k.ne_of_past _ (h.value e))
  failure _ e := absurd rfl (k.ne_of_past [] (h.failure e))

theorem ok (x : α) (mid : List Token) :
    Settles k Excuse Halt Astray (.ok (x, mid ++ k.first)) (.ok (x, mid ++ k.second)) where
  value e := by
    obtain ⟨rfl, hmid⟩ := Prod.mk.inj (Except.ok.inj e)
    obtain rfl := List.append_cancel_right hmid
    exact .inl rfl
  failure _ e := nomatch e

/-- Both fail. -/
theorem error {f f' : Failure} :
    Settles k Excuse Halt Astray (.error f : Except Failure (α × List Token)) (.error f') where
  value e := nomatch e
  failure _ _ := .inl ⟨f', rfl⟩

/-- A failure at another token, or for another cause, is no matter. -/
theorem error_of_ne {f : Failure} (h : f.rest = k.first → f.cause.offends = false) :
    Settles k Excuse Halt Astray (.error f) o' where
  value e := nomatch e
  failure hcause e := by
    cases e
    exact absurd hcause (by simp [h rfl])

theorem excused {f : Failure} (h : Excuse f.cause) :
    Settles k Excuse Halt Astray (.error f) o' where
  value e := nomatch e
  failure _ e := by
    cases e
    exact .inr h

/-- The second reading may go astray where the first ends. -/
theorem gone (h : Astray) (x : α) : Settles k Excuse Halt Astray (.ok (x, k.first)) o' where
  value e := by
    obtain ⟨rfl, hmid⟩ := Prod.mk.inj (Except.ok.inj e)
    exact .inr (.inr ⟨by simpa using hmid.symm, h⟩)
  failure _ e := nomatch e

/-- The second reading is halted. -/
theorem halted {f : Failure} (h : Halt f) : Settles k Excuse Halt Astray o (.error f) where
  value _ := .inr (.inl ⟨f, rfl, h⟩)
  failure _ _ := .inl ⟨f, rfl⟩

variable {Excuse' : Cause → Prop} {Halt' : Failure → Prop} {Astray' : Prop}

theorem mono (h : Settles k Excuse Halt Astray o o') (hexcuse : ∀ c, Excuse c → Excuse' c)
    (hhalt : ∀ f, Halt f → Halt' f) (hastray : Astray → Astray') :
    Settles k Excuse' Halt' Astray' o o' where
  value e := by
    rcases h.value e with hok | ⟨f, hf, hhalts⟩ | ⟨hmid, hgone⟩
    · exact .inl hok
    · exact .inr (.inl ⟨f, hf, hhalt f hhalts⟩)
    · exact .inr (.inr ⟨hmid, hastray hgone⟩)
  failure hcause e := (h.failure hcause e).imp_right (hexcuse _)

/-- **Readings that go on with the values of others settle each other.** Where the second may be
    astray, the first does not fail at the token, or is excused. -/
theorem bind {g g' : α × List Token → Except Failure (β × List Token)}
    (h : Settles k Excuse Halt Astray o o') (hforward : ∀ x rest, Within rest (g (x, rest)))
    (hg : ∀ x mid, o = .ok (x, mid ++ k.first) →
      Settles k Excuse Halt Astray (g (x, mid ++ k.first)) (g' (x, mid ++ k.second)))
    (hastray : Astray → ∀ x f, g (x, k.first) = .error f → f.rest = k.first → Excuse f.cause) :
    Settles k Excuse Halt Astray (o >>= g) (o' >>= g') := by
  cases o with
  | error f =>
    refine ⟨fun e => (nomatch e), fun hcause e => ?_⟩
    have hf : f = ⟨k.first, _⟩ := Except.error.inj e
    rcases h.failure hcause (congrArg Except.error hf) with ⟨f', rfl⟩ | hexcuse
    · exact .inl ⟨f', rfl⟩
    · exact .inr hexcuse
  | ok p =>
    obtain ⟨x, rest⟩ := p
    show Settles k Excuse Halt Astray (g (x, rest)) (o' >>= g')
    -- Either the rest still holds the token, or what goes on from it is past the token.
    by_cases hrest : ∃ mid, rest = mid ++ k.first
    · obtain ⟨mid, rfl⟩ := hrest
      have hnext := hg x mid rfl
      rcases h.value rfl with rfl | ⟨f, rfl, hhalt⟩ | ⟨rfl, hgone⟩
      · exact hnext
      · exact .halted hhalt
      · refine ⟨fun {y mid} e => ?_, fun _ e => .inr (hastray hgone x _ e rfl)⟩
        have hlength := ((hforward x _).value e).length_le
        simp only [List.length_append, List.length_nil] at hlength
        exact .inr (.inr ⟨List.length_eq_zero_iff.mp (by omega), hgone⟩)
    · have hnot : ∀ mid, ¬ mid ++ k.first <:+ rest := by
        intro mid hsuffix
        obtain ⟨us, rfl⟩ := hsuffix
        exact hrest ⟨us ++ mid, by simp⟩
      exact
        { value := fun e => absurd ((hforward x rest).value e) (hnot _)
          failure := fun _ e => absurd ((hforward x rest).failure e) (hnot []) }

theorem map {f : α → β} (h : Settles k Excuse Halt Astray o o') :
    Settles k Excuse Halt Astray (o >>= fun p => .ok (f p.1, p.2))
      (o' >>= fun p => .ok (f p.1, p.2)) :=
  h.bind (fun _ rest => .of_ok (List.suffix_refl rest)) (fun x mid _ => .ok (f x) mid)
    fun _ _ _ e => nomatch e

end Settles

/-! ## 4. Readers -/

/-- On every two lists with the token the readers settle each other, and none goes astray. -/
def Local (k : Fork) (Excuse : Cause → Prop) (Halt : Failure → Prop) (r r' : Parse α) : Prop :=
  ∀ mid, Settles k Excuse Halt False (r (mid ++ k.first)) (r' (mid ++ k.second))

section Local

variable {r r' : Parse α}

theorem Local.bind {f f' : α → Parse β} (h : Local k Excuse Halt r r')
    (hforward : ∀ x, Forward (f x)) (hf : ∀ x, Local k Excuse Halt (f x) (f' x)) :
    Local k Excuse Halt (r >>= f) (r' >>= f') := fun mid =>
  (h mid).bind (fun x rest => hforward x rest) (fun x mid _ => hf x mid) fun h => h.elim

theorem Local.pure (x : α) : Local k Excuse Halt (pure x) (pure x) := fun mid => .ok x mid

theorem Local.returning (h : Local k Excuse Halt r r') (f : α → β) :
    Local k Excuse Halt (do return f (← r)) (do return f (← r')) :=
  h.bind (fun x => .pure (f x)) fun x => .pure (f x)

theorem Local.map {f : α → β} (h : Local k Excuse Halt r r') :
    Local k Excuse Halt (f <$> r) (f <$> r') := fun mid => (h mid).map

theorem Local.mono {Excuse' : Cause → Prop} {Halt' : Failure → Prop}
    (h : Local k Excuse Halt r r') (hexcuse : ∀ c, Excuse c → Excuse' c)
    (hhalt : ∀ f, Halt f → Halt' f) : Local k Excuse' Halt' r r' := fun mid =>
  (h mid).mono hexcuse hhalt id

/-- A reader goes on behind the next token; if that is the token in common, it is past it. -/
theorem Local.behind (h : Local k Excuse Halt r r') (hr : Forward r) (mid : List Token) :
    Settles k Excuse Halt Astray (r (mid ++ k.first).tail) (r' (mid ++ k.second).tail) := by
  cases mid with
  | nil => exact .past ((hr k.left).after (List.suffix_refl _))
  | cons t mid => exact (h mid).mono (fun _ => id) (fun _ => id) False.elim

/-- The reader looks at one token only: it takes the token, leaves it, or fails at it. -/
def OneToken (r : Parse α) : Prop :=
  ∀ t, (∃ x, ∀ ts, r (t :: ts) = .ok (x, ts)) ∨ (∃ x, ∀ ts, r (t :: ts) = .ok (x, t :: ts)) ∨
    ∃ cause, ∀ ts, r (t :: ts) = .error ⟨t :: ts, cause⟩

theorem OneToken.local (h : OneToken r) : Local k Excuse Halt r r := by
  intro mid
  cases mid with
  | nil =>
    show Settles k Excuse Halt False (r (k.token :: k.left)) (r (k.token :: k.right))
    rcases h k.token with ⟨x, hr⟩ | ⟨x, hr⟩ | ⟨cause, hr⟩ <;> rw [hr, hr]
    · exact .past (.of_ok (List.suffix_refl _))
    · exact .ok x []
    · exact .error
  | cons t mid =>
    show Settles k Excuse Halt False (r (t :: (mid ++ k.first))) (r (t :: (mid ++ k.second)))
    rcases h t with ⟨x, hr⟩ | ⟨x, hr⟩ | ⟨cause, hr⟩ <;> rw [hr, hr]
    · exact .ok x mid
    · exact .ok x (t :: mid)
    · exact .error

theorem expect_one (kind : TokenKind) : OneToken (expect kind) := by
  intro t
  by_cases hk : t.kind = kind
  · exact .inl ⟨t, fun ts => expect_cons hk ts⟩
  · exact .inr (.inr ⟨.mismatched ([kind].map TokenKind.name), fun ts => if_neg hk⟩)

theorem accept_one (kind : TokenKind) : OneToken (accept kind) := by
  intro t
  by_cases hk : t.kind = kind
  · exact .inl ⟨true, fun ts => accept_cons hk ts⟩
  · exact .inr (.inl ⟨false, fun ts => if_neg hk⟩)

theorem expect_local (kind : TokenKind) : Local k Excuse Halt (expect kind) (expect kind) :=
  (expect_one kind).local

theorem accept_local (kind : TokenKind) : Local k Excuse Halt (accept kind) (accept kind) :=
  (accept_one kind).local

theorem name_local : Local k Excuse Halt name name :=
  (expect_local _).bind (fun _ => .pure _) fun _ => .pure _

/-- A token that is passed over because of its kind. -/
theorem Local.behindToken (kind : TokenKind) (h : Local k Excuse Halt r r') (hr : Forward r) :
    Local k Excuse Halt (expect kind >>= fun _ => r) (expect kind >>= fun _ => r') :=
  (expect_local kind).bind (fun _ => hr) fun _ => h

end Local
/-! ## 5. Repetition -/

section Repetition

variable {operator : TokenKind → Option ω} {combine : ω → α → α → α} {item item' : Parse α}
  {Starts : List Token → Prop}

/-- What the items of a chain have to do, where they start: each starts where `Starts` holds of the
    tokens up to the one in common, and none goes astray where an operator follows. -/
structure ChainSettles (k : Fork) (Excuse : Cause → Prop) (Halt : Failure → Prop) (Astray : Prop)
    (operator : TokenKind → Option ω) (item item' : Parse α) (Starts : List Token → Prop) :
    Prop where
  forward : Forward item
  settles : ∀ mid, Starts mid →
    Settles k Excuse Halt Astray (item (mid ++ k.first)) (item' (mid ++ k.second))
  next : ∀ {mid o us x}, Starts mid → item (mid ++ k.first) = .ok (x, o :: (us ++ k.first)) →
    (operator o.kind).isSome → Starts us
  astray : Astray → operator k.token.kind = none

/-- The loop of a chain. The counts of rounds need not be the same, if neither is what ends it. -/
theorem ChainSettles.chainFrom (h : ChainSettles k Excuse Halt Astray operator item item' Starts)
    {n n' : Nat} (left : α) {mid : List Token} (hn : (mid ++ k.first).length ≤ n)
    (hn' : (mid ++ k.second).length ≤ n')
    (hstarts : ∀ o us, mid = o :: us → (operator o.kind).isSome → Starts us) :
    Settles k Excuse Halt Astray (chainFrom operator combine item n left (mid ++ k.first))
      (chainFrom operator combine item' n' left (mid ++ k.second)) := by
  induction n generalizing n' left mid with
  | zero => simp [Fork.first] at hn
  | succ n ih =>
    obtain _ | n' := n'
    · simp [Fork.second] at hn'
    cases ho : operator (kindOf (mid ++ k.first)) with
    | none =>
      rw [chainFrom_stop ho, chainFrom_stop (k.kindOf_same mid ▸ ho)]
      exact .ok left mid
    | some op =>
      have ho' : operator (kindOf (mid ++ k.second)) = some op := k.kindOf_same mid ▸ ho
      cases mid with
      | nil =>
        -- The operator is the token in common.
        simp only [Parse.chainFrom, ho]
        exact .past ((h.forward k.left).bind fun right rest => h.forward.chainFrom n _ rest)
      | cons o us =>
        have hsome : (operator o.kind).isSome = true := by
          have ho : operator o.kind = some op := ho
          rw [ho]
          rfl
        simp only [Parse.chainFrom, ho, ho']
        refine (h.settles us (hstarts o us rfl hsome)).bind
          (fun right rest => h.forward.chainFrom n _ rest) (fun right mid hright => ?_) ?_
        · have hle : (mid ++ k.first).length ≤ (us ++ k.first).length :=
            ((h.forward (us ++ k.first)).value hright).length_le
          simp only [Fork.first, Fork.second, List.cons_append, List.length_append,
            List.length_cons] at hn hn' hle
          refine ih (combine op left right) (by simp [Fork.first]; omega)
            (by simp [Fork.second]; omega) fun o' us' hmid hsome' => ?_
          subst hmid
          exact h.next (hstarts o us rfl hsome) hright hsome'
        · intro hastray x f hf
          rw [chainFrom_stop (h.astray hastray)] at hf
          cases hf

/-- **Chains settle each other if their items do.** -/
theorem ChainSettles.chain (h : ChainSettles k Excuse Halt Astray operator item item' Starts)
    {mid : List Token} (hmid : Starts mid) :
    Settles k Excuse Halt Astray (chain operator combine item (mid ++ k.first))
      (chain operator combine item' (mid ++ k.second)) := by
  refine (h.settles mid hmid).bind (fun left rest => h.forward.chainFrom _ left rest)
    (fun left mid' hleft => ?_) ?_
  · refine h.chainFrom left (Nat.le_refl _) (Nat.le_refl _) fun o us hus hsome => ?_
    subst hus
    exact h.next hmid hleft hsome
  · intro hastray x f hf
    have hstop : operator (kindOf k.first) = none := h.astray hastray
    dsimp only at hf
    rw [chainFrom_stop hstop] at hf
    cases hf

theorem Local.chain (h : Local k Excuse Halt item item') (hforward : Forward item) :
    Local k Excuse Halt (chain operator combine item) (chain operator combine item') := by
  have hchain : ChainSettles k Excuse Halt False operator item item' fun _ => True :=
    { forward := hforward
      settles := fun mid _ => h mid
      next := fun _ _ _ => trivial
      astray := False.elim }
  exact fun mid => hchain.chain trivial

theorem Local.commaListFrom (h : Local k Excuse Halt item item') (hforward : Forward item)
    {n n' : Nat} {mid : List Token} (hn : (mid ++ k.first).length ≤ n)
    (hn' : (mid ++ k.second).length ≤ n') :
    Settles k Excuse Halt False (commaListFrom item n (mid ++ k.first))
      (commaListFrom item' n' (mid ++ k.second)) := by
  induction n generalizing n' mid with
  | zero => simp [Fork.first] at hn
  | succ n ih =>
    obtain _ | n' := n'
    · simp [Fork.second] at hn'
    unfold Parse.commaListFrom
    rw [← k.kindOf_same mid]
    split
    · cases mid with
      | nil =>
        refine .past ((hforward k.left).bind fun x rest => ?_)
        exact (hforward.commaListFrom n rest).bind fun xs rest' => .of_ok (List.suffix_refl rest')
      | cons c us =>
        refine (h us).bind (fun x rest => ?_) (fun x mid hx => ?_) False.elim
        · exact (hforward.commaListFrom n rest).bind fun xs rest' => .of_ok (List.suffix_refl rest')
        · have hle : (mid ++ k.first).length ≤ (us ++ k.first).length :=
            ((hforward (us ++ k.first)).value hx).length_le
          simp only [Fork.first, Fork.second, List.cons_append, List.length_append,
            List.length_cons] at hn hn' hle
          exact (ih (by simp [Fork.first]; omega) (by simp [Fork.second]; omega)).map
    · exact .ok [] mid

/-- **Lists with commas settle each other if their items do.** -/
theorem Local.commaList (h : Local k Excuse Halt item item') (hforward : Forward item) :
    Local k Excuse Halt (commaList item) (commaList item') := by
  intro mid
  refine (h mid).bind (fun x rest => ?_) (fun x mid' _ => ?_) False.elim
  · exact (hforward.commaListFrom _ rest).bind fun xs rest' => .of_ok (List.suffix_refl rest')
  · exact (h.commaListFrom hforward (Nat.le_refl _) (Nat.le_refl _)).map

end Repetition
end Settles
end Parse
end MiningQuery
