/-
  File:      MiningQuery/Proofs/Grammar/Reads.lean
  Subject:   What it means that a reader reads a grammar, and how readers are put together.

  A grammar of values is a relation `W x ts`, "the tokens `ts` write the value `x`". A reader
  reads it if it takes exactly such tokens and gives their value, whatever follows them that may
  follow them, and if everything it gives was written by the tokens that it took:

  * `Reads` -- the two directions together;
  * **`chain_reads`** -- a chain of items reads left-nested operations on the items (`Chained`);
  * **`commaList_reads`** -- a list with commas reads lists of items (`Listed`);
  * `chain_stops`, `chain_ends` -- a chain ends only where no operator of its own follows, and
    where an item ends.
-/
import MiningQuery.Grammar.Parse
import MiningQuery.Proofs.Token.Shape

namespace MiningQuery.Parse

variable {α β ω : Type}

/-! ## 1. Readers step by step -/

/-- Both parts of a sequence succeed if the sequence does. -/
theorem bind_eq_ok {r : Parse α} {f : α → Parse β} {ts rest : List Token} {y : β}
    (h : (r >>= f) ts = .ok (y, rest)) :
    ∃ x mid, r ts = .ok (x, mid) ∧ f x mid = .ok (y, rest) := by
  cases e : r ts with
  | error failure =>
    have h' : (Except.error failure : Except Failure (β × List Token)) = .ok (y, rest) := by
      rw [← h]
      simp only [bind, StateT.bind, e, Except.bind]
    cases h'
  | ok p =>
    refine ⟨p.1, p.2, rfl, ?_⟩
    rw [← h]
    simp only [bind, StateT.bind, e, Except.bind]

theorem bind_of_ok {r : Parse α} {f : α → Parse β} {ts mid : List Token} {x : α}
    (h : r ts = .ok (x, mid)) : (r >>= f) ts = f x mid := by
  simp only [bind, StateT.bind, h, Except.bind]

/-- A sequence fails where its first part does. -/
theorem bind_of_error {r : Parse α} {f : α → Parse β} {ts : List Token} {failure : Failure}
    (h : r ts = .error failure) : (r >>= f) ts = .error failure := by
  simp only [bind, StateT.bind, h, Except.bind]

/-- A computation that succeeds has succeeded at its first step. -/
theorem exists_of_bind_eq_ok {ε α β : Type} {x : Except ε α} {f : α → Except ε β} {b : β}
    (h : (x >>= f) = .ok b) : ∃ a, x = .ok a ∧ f a = .ok b := by
  cases x with
  | error e => cases h
  | ok a => exact ⟨a, rfl, h⟩

/-- The same for two steps of a reader that are written out. -/
theorem except_bind_eq_ok {r : Except Failure (α × List Token)}
    {f : α × List Token → Except Failure (β × List Token)} {p : β × List Token}
    (h : (r >>= f) = .ok p) : ∃ x mid, r = .ok (x, mid) ∧ f (x, mid) = .ok p := by
  obtain ⟨q, hr, hf⟩ := exists_of_bind_eq_ok h
  exact ⟨q.1, q.2, hr, hf⟩

theorem map_eq_ok {r : Parse α} {f : α → β} {ts rest : List Token} {y : β}
    (h : (f <$> r) ts = .ok (y, rest)) : ∃ x, r ts = .ok (x, rest) ∧ f x = y := by
  cases e : r ts with
  | error failure =>
    have h' : (Except.error failure : Except Failure (β × List Token)) = .ok (y, rest) := by
      rw [← h]
      simp only [Functor.map, StateT.map, e, bind, Except.bind]
    cases h'
  | ok p =>
    simp only [Functor.map, StateT.map, e, bind, Except.bind, pure, Except.pure, Except.ok.injEq,
      Prod.mk.injEq] at h
    obtain ⟨rfl, rfl⟩ := h
    exact ⟨p.1, rfl, rfl⟩

theorem map_of_ok {r : Parse α} {f : α → β} {ts rest : List Token} {x : α}
    (h : r ts = .ok (x, rest)) : (f <$> r) ts = .ok (f x, rest) := by
  simp only [Functor.map, StateT.map, h, bind, Except.bind, pure, Except.pure]

theorem map_of_error {r : Parse α} {f : α → β} {ts : List Token} {failure : Failure}
    (h : r ts = .error failure) : (f <$> r) ts = .error failure := by
  simp only [Functor.map, StateT.map, h, bind, Except.bind]

theorem pure_eq_ok {x y : α} {ts rest : List Token}
    (h : (pure x : Parse α) ts = .ok (y, rest)) : x = y ∧ ts = rest :=
  Prod.mk.inj (Except.ok.inj h)

@[simp] theorem kindOf_cons (t : Token) (ts : List Token) : kindOf (t :: ts) = t.kind := rfl

@[simp] theorem kindOf_nil : kindOf [] = .endOfInput := rfl

/-- The next token, where its kind is known and is not the end of the input. -/
theorem eq_cons_of_kindOf {ts : List Token} {k : TokenKind} (h : kindOf ts = k)
    (hk : k ≠ .endOfInput) : ∃ t us, ts = t :: us ∧ t.kind = k := by
  cases ts with
  | nil => exact absurd h.symm hk
  | cons t us => exact ⟨t, us, rfl, h⟩

theorem expect_cons {kind : TokenKind} {t : Token} (h : t.kind = kind) (ts : List Token) :
    expect kind (t :: ts) = .ok (t, ts) := by
  simp only [expect, h, if_true]

theorem word_cons {k : Keyword} {t : Token} (h : t.kind = .keyword k) (ts : List Token) :
    word k (t :: ts) = .ok (t, ts) := expect_cons h ts

theorem sign_cons {s : Symbol} {t : Token} (h : t.kind = .symbol s) (ts : List Token) :
    sign s (t :: ts) = .ok (t, ts) := expect_cons h ts

theorem expect_eq_ok {kind : TokenKind} {ts rest : List Token} {t : Token}
    (h : expect kind ts = .ok (t, rest)) : ts = t :: rest ∧ t.kind = kind := by
  unfold expect at h
  split at h
  · split at h
    · rename_i hk
      cases h
      exact ⟨rfl, hk⟩
    · cases h
  · cases h

theorem expect_of_ne {kind : TokenKind} {ts : List Token} (h : kindOf ts ≠ kind) :
    expect kind ts = .error ⟨ts, .mismatched [kind.name]⟩ := by
  cases ts with
  | nil => rfl
  | cons t ts => exact if_neg h

theorem accept_cons {kind : TokenKind} {t : Token} (h : t.kind = kind) (ts : List Token) :
    accept kind (t :: ts) = .ok (true, ts) := by
  simp only [accept, h, if_true]

theorem accept_of_ne {kind : TokenKind} {ts : List Token} (h : kindOf ts ≠ kind) :
    accept kind ts = .ok (false, ts) := by
  cases ts with
  | nil => rfl
  | cons t us => exact if_neg h

/-- Whether a token is taken depends on the next kind alone. -/
theorem accept_eq_ok {kind : TokenKind} {ts rest : List Token} {b : Bool}
    (h : accept kind ts = .ok (b, rest)) :
    (b = true ∧ ∃ t, ts = t :: rest ∧ t.kind = kind) ∨ (b = false ∧ ts = rest) := by
  unfold accept at h
  split at h
  · split at h
    · rename_i hk
      cases h
      exact .inl ⟨rfl, _, rfl, hk⟩
    · cases h
      exact .inr ⟨rfl, rfl⟩
  · cases h
    exact .inr ⟨rfl, rfl⟩

theorem name_cons {t : Token} (h : t.kind = .identifier) (ts : List Token) :
    name (t :: ts) = .ok (t.text, ts) := by
  rw [name, bind_of_ok (expect_cons h ts)]
  rfl

theorem name_eq_ok {ts rest : List Token} {n : Text} (h : name ts = .ok (n, rest)) :
    ∃ t, ts = t :: rest ∧ t.kind = .identifier ∧ t.text = n := by
  obtain ⟨t, mid, ht, hn⟩ := bind_eq_ok h
  obtain ⟨rfl, hk⟩ := expect_eq_ok ht
  obtain ⟨rfl, rfl⟩ := pure_eq_ok hn
  exact ⟨t, rfl, hk, rfl⟩

/-! ## 2. Reading a grammar -/

/-- The reader reads the values that `W` writes: `Stop` holds of what may follow their tokens. -/
structure Reads (r : Parse α) (W : α → List Token → Prop) (Stop : List Token → Prop) : Prop where
  complete : ∀ {x ts rest}, W x ts → Stop rest → r (ts ++ rest) = .ok (x, rest)
  sound : ∀ {ts x rest}, Shaped ts → r ts = .ok (x, rest) → ∃ read, ts = read ++ rest ∧ W x read

namespace Reads

variable {r : Parse α} {W : α → List Token → Prop} {Stop Stop' : List Token → Prop}

/-- Fewer continuations are read as well. -/
theorem mono (h : Reads r W Stop) (hs : ∀ rest, Stop' rest → Stop rest) : Reads r W Stop' :=
  ⟨fun hx hr => h.complete hx (hs _ hr), h.sound⟩

/-- The same grammar in other words is read as well. -/
theorem congr (h : Reads r W Stop) {W' : α → List Token → Prop} (hW : ∀ x ts, W x ts ↔ W' x ts) :
    Reads r W' Stop :=
  ⟨fun hx hr => h.complete ((hW _ _).mpr hx) hr, fun hts hr => by
    obtain ⟨read, e, hx⟩ := h.sound hts hr
    exact ⟨read, e, (hW _ _).mp hx⟩⟩

/-- What is left over is not longer than what was given. -/
theorem length_le (h : Reads r W Stop) {ts rest : List Token} {x : α} (hts : Shaped ts)
    (hr : r ts = .ok (x, rest)) : rest.length ≤ ts.length := by
  obtain ⟨read, rfl, -⟩ := h.sound hts hr
  simp

/-- What is left over has the shapes of what was given. -/
theorem shaped_rest (h : Reads r W Stop) {ts rest : List Token} {x : α} (hts : Shaped ts)
    (hr : r ts = .ok (x, rest)) : Shaped rest := by
  obtain ⟨read, rfl, -⟩ := h.sound hts hr
  exact (shaped_append.mp hts).2

end Reads

/-! ## 3. Chains of operators -/

/-- Items with operators between them, nested to the left. -/
inductive Chained (operator : TokenKind → Option ω) (combine : ω → α → α → α)
    (W : α → List Token → Prop) : α → List Token → Prop
  | one {x ts} : W x ts → Chained operator combine W x ts
  | more {left right ts us} {o : Token} {op : ω} :
      Chained operator combine W left ts → operator o.kind = some op → W right us →
      Chained operator combine W (combine op left right) (ts ++ o :: us)

section Chain

variable {operator : TokenKind → Option ω} {combine : ω → α → α → α} {item : Parse α}
  {W : α → List Token → Prop} {Stop : List Token → Prop}

/-- Reading a chain up to any point leads into its loop, with rounds enough for what is left. -/
theorem chain_append (hitem : Reads item W Stop)
    (hop : ∀ o ts, (operator o.kind).isSome → Stop (o :: ts)) {x : α} {ts : List Token}
    (h : Chained operator combine W x ts) {rest : List Token} (hrest : Stop rest) :
    ∃ n, rest.length ≤ n ∧
      chain operator combine item (ts ++ rest) = chainFrom operator combine item n x rest := by
  induction h generalizing rest with
  | one hx =>
    refine ⟨rest.length, Nat.le_refl _, ?_⟩
    simp only [chain, hitem.complete hx hrest, bind, Except.bind]
  | @more left right ts us o op _ ho hr ih =>
    obtain ⟨n, hn, e⟩ := ih (hop o (us ++ rest) (by simp [ho]))
    cases n with
    | zero => simp at hn
    | succ n =>
      refine ⟨n, by simp at hn; omega, ?_⟩
      rw [List.append_assoc, List.cons_append, e, chainFrom]
      simp only [kindOf_cons, ho, List.tail_cons, hitem.complete hr hrest, bind, Except.bind]

/-- Where no operator follows, the loop ends. -/
theorem chainFrom_stop {n : Nat} {x : α} {rest : List Token} (h : operator (kindOf rest) = none) :
    chainFrom operator combine item n x rest = .ok (x, rest) := by
  cases n with
  | zero => rfl
  | succ n => simp only [chainFrom, h]

/-- A chain fails where its first item does. -/
theorem chain_of_error {ts : List Token} {f : Failure} (h : item ts = .error f) :
    chain operator combine item ts = .error f := by
  simp only [chain, h, bind, Except.bind]

/-- Where no operator follows the first item, it is the whole chain. -/
theorem chain_of_item {ts rest : List Token} {x : α} (h : item ts = .ok (x, rest))
    (hstop : operator (kindOf rest) = none) : chain operator combine item ts = .ok (x, rest) := by
  simp only [chain, h, bind, Except.bind]
  exact chainFrom_stop hstop

/-- The loop goes on with the chain that it is given. -/
theorem chainFrom_sound (hitem : Reads item W Stop) (hend : operator .endOfInput = none) {n : Nat}
    {left x : α} {ts us rest : List Token} (hleft : Chained operator combine W left us)
    (hts : Shaped ts) (h : chainFrom operator combine item n left ts = .ok (x, rest)) :
    ∃ read, ts = read ++ rest ∧ Chained operator combine W x (us ++ read) := by
  induction n generalizing left ts us with
  | zero =>
    cases h
    exact ⟨[], rfl, by simpa using hleft⟩
  | succ n ih =>
    unfold chainFrom at h
    split at h
    · cases h
      exact ⟨[], rfl, by simpa using hleft⟩
    · rename_i op ho
      cases ts with
      | nil =>
        rw [kindOf_nil, hend] at ho
        cases ho
      | cons o ts =>
        obtain ⟨ho', hts'⟩ := shaped_cons.mp hts
        obtain ⟨right, mid, hright, hrest⟩ := except_bind_eq_ok h
        obtain ⟨read, rfl, hw⟩ := hitem.sound hts' hright
        obtain ⟨read', rfl, hx⟩ := ih (.more hleft ho hw) (shaped_append.mp hts').2 hrest
        exact ⟨o :: (read ++ read'), by simp, by simpa using hx⟩

/-- **A chain of items reads operations on the items, nested to the left.** -/
theorem chain_reads (hitem : Reads item W Stop) (hend : operator .endOfInput = none)
    (hop : ∀ o ts, (operator o.kind).isSome → Stop (o :: ts)) :
    Reads (chain operator combine item) (Chained operator combine W)
      (fun rest => Stop rest ∧ operator (kindOf rest) = none) where
  complete := by
    intro x ts rest hx hrest
    obtain ⟨n, -, e⟩ := chain_append hitem hop hx hrest.1
    rw [e, chainFrom_stop hrest.2]
  sound := by
    intro ts x rest hts h
    obtain ⟨left, mid, hleft, hloop⟩ := except_bind_eq_ok h
    obtain ⟨read, rfl, hw⟩ := hitem.sound hts hleft
    obtain ⟨read', rfl, hx⟩ := chainFrom_sound hitem hend (.one hw) (shaped_append.mp hts).2 hloop
    exact ⟨read ++ read', by simp, hx⟩

/-- With rounds for every token that is left, the loop ends only where no operator follows. -/
theorem chainFrom_stops (hitem : Reads item W Stop) (hend : operator .endOfInput = none) {n : Nat}
    {left x : α} {ts rest : List Token} (hts : Shaped ts) (hn : ts.length ≤ n)
    (h : chainFrom operator combine item n left ts = .ok (x, rest)) :
    operator (kindOf rest) = none := by
  induction n generalizing left ts with
  | zero =>
    obtain rfl := List.length_eq_zero_iff.mp (Nat.le_zero.mp hn)
    cases h
    exact hend
  | succ n ih =>
    unfold chainFrom at h
    split at h
    · rename_i ho
      cases h
      exact ho
    · cases ts with
      | nil =>
        rename_i ho
        rw [kindOf_nil, hend] at ho
        cases ho
      | cons o ts =>
        obtain ⟨right, mid, hright, hrest⟩ := except_bind_eq_ok h
        have hts' := (shaped_cons.mp hts).2
        have hmid : mid.length ≤ ts.length := hitem.length_le hts' hright
        simp only [List.length_cons] at hn
        exact ih (hitem.shaped_rest hts' hright) (by omega) hrest

/-- **A chain ends only where none of its operators follows.** -/
theorem chain_stops (hitem : Reads item W Stop) (hend : operator .endOfInput = none) {x : α}
    {ts rest : List Token} (hts : Shaped ts)
    (h : chain operator combine item ts = .ok (x, rest)) : operator (kindOf rest) = none := by
  obtain ⟨left, mid, hleft, hloop⟩ := except_bind_eq_ok h
  exact chainFrom_stops hitem hend (hitem.shaped_rest hts hleft) (Nat.le_refl _) hloop

/-- Where every item ends with a property of what is left, so does the loop. -/
theorem chainFrom_ends (hitem : Reads item W Stop) {P : List Token → Prop}
    (hP : ∀ {ts x rest}, Shaped ts → item ts = .ok (x, rest) → P rest) {n : Nat} {left x : α}
    {ts rest : List Token} (hts : Shaped ts) (hpts : P ts)
    (h : chainFrom operator combine item n left ts = .ok (x, rest)) : P rest := by
  induction n generalizing left ts with
  | zero =>
    cases h
    exact hpts
  | succ n ih =>
    unfold chainFrom at h
    split at h
    · cases h
      exact hpts
    · obtain ⟨right, mid, hright, hrest⟩ := except_bind_eq_ok h
      have hts' : Shaped ts.tail := fun t ht => hts t (List.mem_of_mem_tail ht)
      exact ih (hitem.shaped_rest hts' hright) (hP hts' hright) hrest

/-- What holds behind every item holds behind a chain. -/
theorem chain_ends (hitem : Reads item W Stop) {P : List Token → Prop}
    (hP : ∀ {ts x rest}, Shaped ts → item ts = .ok (x, rest) → P rest) {x : α}
    {ts rest : List Token} (hts : Shaped ts)
    (h : chain operator combine item ts = .ok (x, rest)) : P rest := by
  obtain ⟨left, mid, hleft, hloop⟩ := except_bind_eq_ok h
  exact chainFrom_ends hitem hP (hitem.shaped_rest hts hleft) (hP hts hleft) hloop

end Chain

/-! ## 4. Lists with commas -/

/-- Items with commas between them, at least one. -/
inductive Listed (W : α → List Token → Prop) : List α → List Token → Prop
  | one {x ts} : W x ts → Listed W [x] ts
  | more {x xs ts us} {c : Token} : W x ts → c.kind = .symbol .comma → Listed W xs us →
      Listed W (x :: xs) (ts ++ c :: us)

section CommaList

variable {item : Parse α} {W : α → List Token → Prop} {Stop : List Token → Prop}

/-- Behind an item the list goes on, with rounds enough for the commas that follow. -/
theorem commaListFrom_complete (hitem : Reads item W Stop)
    (hcomma : ∀ c ts, c.kind = .symbol .comma → Stop (c :: ts)) {xs : List α} {c : Token}
    (hc : c.kind = .symbol .comma) {ts rest : List Token} (h : Listed W xs ts) (hrest : Stop rest)
    (hstop : kindOf rest ≠ .symbol .comma) {n : Nat} (hn : (c :: ts ++ rest).length ≤ n) :
    commaListFrom item n (c :: ts ++ rest) = .ok (xs, rest) := by
  induction h generalizing c n with
  | @one x ts hx =>
    obtain _ | n := n
    · simp at hn
    have hend : commaListFrom item n rest = .ok ([], rest) := by
      cases n with
      | zero => rfl
      | succ n => simp only [commaListFrom, hstop, if_false]
    simp only [List.cons_append, commaListFrom, kindOf_cons, hc, if_true, List.tail_cons,
      hitem.complete hx hrest, hend, bind, Except.bind]
  | @more x xs ts us c' hx hc' _ ih =>
    obtain _ | n := n
    · simp at hn
    simp only [List.cons_append, List.append_assoc, List.length_cons, List.length_append] at hn ih ⊢
    have hx' := hitem.complete hx (hcomma c' (us ++ rest) hc')
    simp only [commaListFrom, kindOf_cons, hc, if_true, List.tail_cons, hx',
      ih hc' (n := n) (by omega), bind, Except.bind]

theorem commaListFrom_sound (hitem : Reads item W Stop) {n : Nat} {xs : List α}
    {ts rest : List Token} (hts : Shaped ts) (h : commaListFrom item n ts = .ok (xs, rest)) :
    (xs = [] ∧ ts = rest) ∨
      ∃ c read, c.kind = .symbol .comma ∧ ts = c :: read ++ rest ∧ Listed W xs read := by
  induction n generalizing xs ts with
  | zero =>
    cases h
    exact .inl ⟨rfl, rfl⟩
  | succ n ih =>
    unfold commaListFrom at h
    split at h
    · rename_i hc
      obtain ⟨c, ts, rfl, hc⟩ := eq_cons_of_kindOf hc (by decide)
      obtain ⟨x, mid, hx, hmore⟩ := except_bind_eq_ok h
      obtain ⟨ys, rest', hys, hxs⟩ := except_bind_eq_ok hmore
      cases hxs
      have hts' := (shaped_cons.mp hts).2
      obtain ⟨read, rfl, hw⟩ := hitem.sound hts' hx
      refine .inr ⟨c, ?_⟩
      rcases ih (shaped_append.mp hts').2 hys with ⟨rfl, rfl⟩ | ⟨c', read', hc', rfl, hl⟩
      · exact ⟨read, hc, rfl, .one hw⟩
      · exact ⟨read ++ c' :: read', hc, by simp, .more hw hc' hl⟩
    · cases h
      exact .inl ⟨rfl, rfl⟩

/-- **A list with commas reads lists of items.** -/
theorem commaList_reads (hitem : Reads item W Stop)
    (hcomma : ∀ c ts, c.kind = .symbol .comma → Stop (c :: ts)) :
    Reads (commaList item) (Listed W)
      (fun rest => Stop rest ∧ kindOf rest ≠ .symbol .comma) where
  complete := by
    intro xs ts rest h hrest
    cases h with
    | one hx =>
      have hend : commaListFrom item rest.length rest = .ok ([], rest) := by
        cases rest with
        | nil => rfl
        | cons t rest => simp only [List.length_cons, commaListFrom, hrest.2, if_false]
      simp only [commaList, hitem.complete hx hrest.1, hend, bind, Except.bind]
    | @more x xs ts us c hx hc hl =>
      rw [List.append_assoc]
      have hx' := hitem.complete hx (hcomma c (us ++ rest) hc)
      have hl' := commaListFrom_complete hitem hcomma hc hl hrest.1 hrest.2 (Nat.le_refl _)
      rw [List.cons_append] at hl' ⊢
      simp only [commaList, hx', hl', bind, Except.bind]
  sound := by
    intro ts xs rest hts h
    obtain ⟨x, mid, hx, hmore⟩ := except_bind_eq_ok h
    obtain ⟨ys, rest', hys, hxs⟩ := except_bind_eq_ok hmore
    cases hxs
    obtain ⟨read, rfl, hw⟩ := hitem.sound hts hx
    rcases commaListFrom_sound hitem (shaped_append.mp hts).2 hys with
      ⟨rfl, rfl⟩ | ⟨c, read', hc, rfl, hl⟩
    · exact ⟨read, rfl, .one hw⟩
    · exact ⟨read ++ c :: read', by simp, .more hw hc hl⟩

end CommaList

end MiningQuery.Parse
