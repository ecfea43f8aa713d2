/-
  File:      MiningQuery/Proofs/Guard/Steps.lean
  Subject:   What a part of a reader with guards leaves behind: a cursor that is restored.

  * `Paired` -- what guards may have done in between: each counts a level within the limit, and goes
    when all that came after it have gone;
  * **`GuardedCursor.Restored`** -- the counts are as before, the guards are paired, and the cursor
    has not gone back;
  * `Guarded.Restores` -- a reader that leaves such a cursor, whether it returns or throws;
  * **`Restores.bind`** -- parts that restore are put together to one that restores;
  * `Looks` -- a reader that only looks changes nothing and throws nothing;
  * `guarded_of_le`, `guarded_of_lt`, **`Restores.guarded`** -- a guard that comes goes again, and one
    that does not come leaves nothing.
-/
import MiningQuery.Proofs.Guard.Rules

namespace MiningQuery

/-! ## 1. Cursors that are restored -/

/-- From a count of levels on, each guard counts one level more, which is within the limit. It goes
    behind all guards that came after it, and the count is then what it found. -/
inductive Paired (limit : Nat) : Nat → List GuardEvent → Prop
  | none {depth : Nat} : Paired limit depth []
  | pair {depth : Nat} {inner rest : List GuardEvent} : depth + 1 ≤ limit →
      Paired limit (depth + 1) inner → Paired limit depth rest →
      Paired limit depth (.opened (depth + 1) :: (inner ++ .closed depth :: rest))

theorem Paired.append {limit depth : Nat} {events later : List GuardEvent}
    (h : Paired limit depth events) (hlater : Paired limit depth later) :
    Paired limit depth (events ++ later) := by
  induction h with
  | none => exact hlater
  | @pair depth inner rest hlimit hinner _ _ ih =>
    have hrest := Paired.pair hlimit hinner (ih hlater)
    simpa using hrest

/-- **Behind a part of the tokens the cursor is restored**: both counts are what they were, all
    guards that have come have gone, and at least so many tokens are passed over. -/
structure GuardedCursor.Restored (i : ScanInput) (n : Nat) (s s' : GuardedCursor) : Prop where
  depth : s'.depth = s.depth
  attempts : s'.attempts = s.attempts
  guards : ∃ events, s'.guards = s.guards ++ events ∧ Paired i.limit s.depth events
  passed : s.position + n ≤ s'.position

namespace GuardedCursor.Restored

variable {i : ScanInput} {k n : Nat} {s s' s'' : GuardedCursor}

/-- The guards have done nothing. -/
theorem of_cursor {c : Cursor} (hdepth : c.depth = s.depth) (hattempts : c.attempts = s.attempts)
    (hpassed : s.position + n ≤ c.position) : Restored i n s (s.withCursor c) :=
  ⟨hdepth, hattempts, ⟨[], (List.append_nil _).symm, .none⟩, hpassed⟩

theorem refl (i : ScanInput) (s : GuardedCursor) : Restored i 0 s s :=
  of_cursor rfl rfl (Nat.le_refl _)

theorem weaken (h : Restored i n s s') : Restored i 0 s s' :=
  ⟨h.depth, h.attempts, h.guards, Nat.le_trans (Nat.add_le_add_left (Nat.zero_le n) _) h.passed⟩

theorem trans (h : Restored i k s s') (h' : Restored i n s' s'') : Restored i (k + n) s s'' := by
  obtain ⟨events, hevents, hpaired⟩ := h.guards
  obtain ⟨later, hlater, hpaired'⟩ := h'.guards
  refine ⟨h'.depth.trans h.depth, h'.attempts.trans h.attempts, ⟨events ++ later, ?_, ?_⟩, ?_⟩
  · rw [hlater, hevents, List.append_assoc]
  · rw [h.depth] at hpaired'
    exact hpaired.append hpaired'
  · have hfirst := h.passed
    have hlast := h'.passed
    omega

/-- A guard that came within the limit and has gone leaves the cursor restored, if what was read
    while it was there did. -/
theorem closed (hlimit : s.depth + 1 ≤ i.limit) (h : Restored i n s.opened s') :
    Restored i n s s'.closed := by
  have hdepth : s'.depth = s.depth + 1 := h.depth
  obtain ⟨events, hevents, hpaired⟩ := h.guards
  refine ⟨?_, h.attempts, ⟨.opened (s.depth + 1) :: (events ++ [.closed s.depth]), ?_, ?_⟩, h.passed⟩
  · show s'.depth - 1 = s.depth
    rw [hdepth, Nat.add_sub_cancel]
  · show s'.guards ++ [.closed (s'.depth - 1)] = _
    have hopened : s.opened.guards = s.guards ++ [.opened (s.depth + 1)] := rfl
    rw [hevents, hopened, hdepth, Nat.add_sub_cancel]
    simp
  · exact .pair hlimit hpaired .none

/-- Counting an attempt and counting it back leaves the cursor restored. -/
theorem tried (h : Restored i n (s.withCursor s.trying) s') :
    Restored i n s (s'.withCursor s'.tried) := by
  refine ⟨h.depth, ?_, h.guards, h.passed⟩
  have hattempts : s'.attempts = s.attempts + 1 := h.attempts
  show s'.attempts - 1 = s.attempts
  rw [hattempts, Nat.add_sub_cancel]

/-- Going back to where the cursor was does not go behind it. -/
theorem moved (h : Restored i n s s') : Restored i 0 s (s'.withCursor (s'.moved s.position)) :=
  ⟨h.depth, h.attempts, h.guards, Nat.le_refl _⟩

end GuardedCursor.Restored

open GuardedCursor (Restored)

/-- A call is left with a restored cursor, and if it returns, it has passed over so many tokens. -/
inductive Exit.Restores {α : Type} (i : ScanInput) (n : Nat) (s : GuardedCursor) : Exit α → Prop
  | returned {x : α} {s' : GuardedCursor} : Restored i n s s' → Restores i n s (.returned x s')
  | thrown {fatal : Bool} {s' : GuardedCursor} : Restored i 0 s s' →
      Restores i n s (.thrown fatal s')
  | fault {e : ScanFault} : Restores i n s (.fault e)

theorem Exit.Restores.after {α : Type} {i : ScanInput} {k n : Nat} {s s' : GuardedCursor}
    {e : Exit α} (h : e.Restores i n s') (hs : Restored i k s s') : e.Restores i (k + n) s := by
  cases h with
  | returned hs' => exact .returned (hs.trans hs')
  | thrown hs' => exact .thrown (hs.trans hs').weaken
  | fault => exact .fault

namespace Guarded

/-- From every cursor on, the reader leaves a restored cursor. -/
def Restores {α : Type} (n : Nat) (m : Guarded α) : Prop := ∀ i s, (m i s).Restores i n s

section Restores

variable {α β : Type} {k n : Nat} {m : Guarded β} {f : β → Guarded α} {i : ScanInput}
  {s s' : GuardedCursor}

/-! ## 2. Steps put together -/

theorem then_of_returned {x : β} (h : m i s = .returned x s') : (m >>= f) i s = f x i s' := by
  show andThen m f i s = _
  unfold andThen
  rw [h]

theorem then_of_thrown {fatal : Bool} (h : m i s = .thrown fatal s') :
    (m >>= f) i s = .thrown fatal s' := by
  show andThen m f i s = _
  unfold andThen
  rw [h]

theorem then_of_fault {e : ScanFault} (h : m i s = .fault e) : (m >>= f) i s = .fault e := by
  show andThen m f i s = _
  unfold andThen
  rw [h]

/-- What follows a part that restores starts from a restored cursor. -/
theorem Restores.then_cases {P : Exit α → Prop} (hm : Restores k m)
    (hreturned : ∀ x s', Restored i k s s' → P (f x i s'))
    (hthrown : ∀ fatal s', Restored i 0 s s' → P (.thrown fatal s')) (hfault : ∀ e, P (.fault e)) :
    P ((m >>= f) i s) := by
  have hexit := hm i s
  cases hrun : m i s with
  | returned x s' =>
    rw [hrun] at hexit
    cases hexit with
    | returned hs => exact then_of_returned hrun ▸ hreturned x s' hs
  | thrown fatal s' =>
    rw [hrun] at hexit
    cases hexit with
    | thrown hs => exact then_of_thrown hrun ▸ hthrown fatal s' hs
  | fault e => exact then_of_fault hrun ▸ hfault e

/-- **Two parts that restore are put together to one.** -/
theorem Restores.bind (hm : Restores k m) (hf : ∀ x, Restores n (f x)) :
    Restores (k + n) (m >>= f) := fun i _ =>
  hm.then_cases (fun x s' hs => (hf x i s').after hs) (fun _ _ hs => .thrown hs) fun _ => .fault

theorem Restores.weaken (hm : Restores n m) : Restores 0 m := by
  intro i s
  have hexit := hm i s
  generalize m i s = e at hexit ⊢
  cases hexit with
  | returned hs => exact .returned hs.weaken
  | thrown hs => exact .thrown hs
  | fault => exact .fault

/-- The first part has passed over the tokens. -/
theorem Restores.bind_first (hm : Restores n m) (hf : ∀ x, Restores 0 (f x)) :
    Restores n (m >>= f) := hm.bind hf

/-- The last part passes over the tokens. -/
theorem Restores.bind_last (hm : Restores 0 m) (hf : ∀ x, Restores n (f x)) :
    Restores n (m >>= f) := Nat.zero_add n ▸ hm.bind hf

theorem Restores.pure (x : α) : Restores 0 (pure x) := fun i s => .returned (.refl i s)

/-! ## 3. Reading with the cursor alone -/

theorem plainly_bind (r : Scan β) (g : β → Scan α) :
    plainly (r >>= g) = plainly r >>= fun x => plainly (g x) := by
  funext i s
  have hleft : (r >>= g) i s.toCursor = Scan.andThen r g i s.toCursor := rfl
  show plainly (r >>= g) i s = andThen (plainly r) (fun x => plainly (g x)) i s
  unfold andThen plainly
  rw [hleft]
  unfold Scan.andThen
  cases r i s.toCursor <;> rfl

/-- Parts of a reader with a cursor are put together in the same way. -/
theorem Restores.plainly_first {r : Scan β} {g : β → Scan α} (hr : Restores n (plainly r))
    (hg : ∀ x, Restores 0 (plainly (g x))) : Restores n (plainly (r >>= g)) :=
  plainly_bind r g ▸ hr.bind_first hg

theorem Restores.plainly_last {r : Scan β} {g : β → Scan α} (hr : Restores 0 (plainly r))
    (hg : ∀ x, Restores n (plainly (g x))) : Restores n (plainly (r >>= g)) :=
  plainly_bind r g ▸ hr.bind_last hg

theorem stop_restores (e : ScanFault) : Restores n (plainly (Scan.stop e : Scan α)) :=
  fun _ _ => .fault

theorem raise_restores (fatal : Bool) : Restores n (plainly (Scan.raise fatal : Scan α)) :=
  fun i s => .thrown (.refl i s)

/-- A reader that only looks at the tokens changes nothing and throws nothing. -/
def Looks (r : Scan α) : Prop := ∀ i c, (∃ x, r i c = .ok x c) ∨ ∃ e, r i c = .fault e

theorem Looks.pure (x : α) : Looks (pure x) := fun _ _ => .inl ⟨x, rfl⟩

theorem Looks.bind {r : Scan β} {g : β → Scan α} (hr : Looks r) (hg : ∀ x, Looks (g x)) :
    Looks (r >>= g) := by
  intro i c
  show (∃ x, Scan.andThen r g i c = .ok x c) ∨ ∃ e, Scan.andThen r g i c = .fault e
  unfold Scan.andThen
  rcases hr i c with ⟨x, hrun⟩ | ⟨e, hrun⟩
  · rw [hrun]
    exact hg x i c
  · rw [hrun]
    exact .inr ⟨e, rfl⟩

theorem Looks.restores {r : Scan α} (h : Looks r) : Restores 0 (plainly r) := by
  intro i s
  unfold plainly
  rcases h i s.toCursor with ⟨x, hrun⟩ | ⟨e, hrun⟩
  · rw [hrun]
    exact .returned (.refl i s)
  · rw [hrun]
    exact .fault

theorem tokenAt_looks (p : Nat) : Looks (Scan.tokenAt p) := by
  intro i c
  unfold Scan.tokenAt
  cases i.tokens[p]? with
  | none => exact .inr ⟨.outOfRange, rfl⟩
  | some t => exact .inl ⟨t, rfl⟩

theorem input_looks : Looks Scan.input := fun i _ => .inl ⟨i, rfl⟩

theorem cursor_looks : Looks Scan.cursor := fun _ c => .inl ⟨c, rfl⟩

theorem cur_looks : Looks Scan.cur := cursor_looks.bind fun c => tokenAt_looks c.position

theorem peek_looks : Looks Scan.peek :=
  cursor_looks.bind fun _ => input_looks.bind fun _ => tokenAt_looks _

theorem atKind_looks (kind : TokenKind) : Looks (Scan.atKind kind) :=
  cur_looks.bind fun t => .pure (decide (t.kind = kind))

theorem continuesValue_looks : Looks Scan.continuesValue :=
  cur_looks.bind fun t => peek_looks.bind fun u => .pure (Parse.continuesValue [t, u])

/-- One token is passed over. -/
theorem advance_restores : Restores 1 (plainly Scan.advance) := by
  refine cur_looks.restores.plainly_last fun t => ?_
  split
  · exact stop_restores .endConsumed
  · exact Restores.plainly_first (fun i s => .returned (.of_cursor rfl rfl (Nat.le_refl _)))
      fun _ => .pure t

theorem accept_restores (kind : TokenKind) : Restores 0 (plainly (Scan.accept kind)) := by
  refine (atKind_looks kind).restores.plainly_last fun found => ?_
  split
  · exact advance_restores.weaken.plainly_last fun _ => .pure true
  · exact .pure false

theorem record_restores (p : Nat) (cause : Cause) : Restores 0 (plainly (Scan.record p cause)) := by
  refine (tokenAt_looks p).restores.plainly_last fun _ => input_looks.restores.plainly_last fun _ => ?_
  exact fun i s => .returned (.of_cursor rfl rfl (Nat.le_refl _))

theorem failAt_restores (p : Nat) (cause : Cause) :
    Restores n (plainly (Scan.failAt p cause : Scan α)) := by
  have hreport : Restores 0 (plainly (Scan.report p cause)) := by
    refine cursor_looks.restores.plainly_last fun c => ?_
    split
    · exact record_restores p cause
    · exact .pure ()
  exact hreport.plainly_last fun _ => raise_restores false

theorem mismatch_restores (expected : List TokenKind) :
    Restores n (plainly (Scan.mismatch expected : Scan α)) :=
  cursor_looks.restores.plainly_last fun _ => failAt_restores _ _

theorem expect_restores (kind : TokenKind) : Restores 1 (plainly (Scan.expect kind)) := by
  refine (atKind_looks kind).restores.plainly_last fun found => ?_
  split
  · exact advance_restores
  · exact mismatch_restores [kind]

theorem number_restores (negative : Bool) : Restores 1 (plainly (Scan.number negative)) := by
  refine cur_looks.restores.plainly_last fun t => ?_
  split
  · refine cursor_looks.restores.plainly_last fun c => advance_restores.plainly_first fun _ => ?_
    split
    · exact .pure _
    · exact failAt_restores _ _
  · exact mismatch_restores _

theorem columnRef_restores : Restores 1 (plainly Scan.columnRef) := by
  refine (expect_restores _).plainly_first fun first => (accept_restores _).plainly_last fun _ => ?_
  split
  · exact (expect_restores _).weaken.plainly_last fun _ => .pure _
  · exact .pure _

theorem pendingNot_restores : Restores 0 (plainly Scan.pendingNot) := by
  refine (atKind_looks _).restores.plainly_last fun found => ?_
  split
  · refine peek_looks.restores.plainly_last fun t => ?_
    split
    · exact advance_restores.weaken.plainly_last fun _ => .pure true
    · exact advance_restores.weaken.plainly_last fun _ => mismatch_restores _
  · exact .pure false

/-! ## 4. Guards -/

/-- A guard within the limit comes, and goes when what is read while it is there has ended. -/
theorem guarded_of_le (m : Guarded α) (h : s.depth + 1 ≤ i.limit) :
    guarded m i s = leaving m i s.opened := by
  have henter : enter i s =
      (if i.limit < s.depth + 1 then _ else noteOpened : Guarded Unit) i (s.withCursor s.deeper) :=
    rfl
  rw [if_neg (Nat.not_lt.mpr h)] at henter
  exact then_of_returned henter

/-- **A guard beyond the limit leaves nothing but the error**: its level is taken back before the
    error is recorded, and nothing is read. -/
theorem guarded_of_lt (m : Guarded α) (h : i.limit < s.depth + 1) :
    guarded m i s = (do
      Scan.record s.position .nestedTooDeeply
      Scan.raise true : Guarded α) i s := by
  have hcounted : enter i s = (if i.limit < s.depth + 1 then do
      Scan.update Cursor.shallower
      Scan.record (← Scan.cursor).position .nestedTooDeeply
      Scan.raise true
    else noteOpened : Guarded Unit) i (s.withCursor s.deeper) := rfl
  have henter : enter i s = (do
      Scan.record s.position .nestedTooDeeply
      Scan.raise true : Guarded Unit) i s := by
    rw [hcounted, if_pos h]
    rfl
  show (enter >>= fun _ => leaving m) i s =
    (plainly (Scan.record s.position .nestedTooDeeply) >>= fun _ => plainly (Scan.raise true)) i s
  cases hrun : plainly (Scan.record s.position .nestedTooDeeply) i s with
  | returned x s' =>
    rw [then_of_thrown (henter.trans (then_of_returned hrun)), then_of_returned hrun]
    rfl
  | thrown fatal s' =>
    rw [then_of_thrown (henter.trans (then_of_thrown hrun)), then_of_thrown hrun]
  | fault e => rw [then_of_fault (henter.trans (then_of_fault hrun)), then_of_fault hrun]

/-- What is read under a guard restores the cursor if it does so on its own. -/
theorem leaving_restores {m : Guarded α} (hlimit : s.depth + 1 ≤ i.limit)
    (h : (m i s.opened).Restores i n s.opened) : (leaving m i s.opened).Restores i n s := by
  unfold leaving
  generalize m i s.opened = e at h ⊢
  cases h with
  | returned hs => exact .returned (hs.closed hlimit)
  | thrown hs => exact .thrown (hs.closed hlimit)
  | fault => exact .fault

/-- **A guard restores what it counts, on every way out.** -/
theorem Restores.guarded {m : Guarded α} (hm : Restores n m) : Restores n (guarded m) := by
  intro i s
  by_cases hlimit : s.depth + 1 ≤ i.limit
  · rw [guarded_of_le m hlimit]
    exact leaving_restores hlimit (hm i s.opened)
  · rw [guarded_of_lt m (Nat.lt_of_not_le hlimit)]
    exact (record_restores _ _).bind_last (fun _ => raise_restores true) i s

/-! ## 5. Repetition -/

section Repeat

variable {ω : Type} {operator : TokenKind → Option ω} {combine : ω → α → α → α} {item : Guarded α}

/-- The loop restores what its rounds restore. -/
theorem Restores.chainFrom (h : Restores n item) (rounds : Nat) (left : α) :
    Restores 0 (chainFrom operator combine item rounds left) := by
  induction rounds generalizing left with
  | zero => exact stop_restores .endless
  | succ rounds ih =>
    refine cur_looks.restores.bind_last fun t => ?_
    split
    · exact .pure left
    · exact advance_restores.weaken.bind_last fun _ => h.weaken.bind_last fun right => ih _

theorem Restores.chain (h : Restores n item) : Restores n (chain operator combine item) :=
  h.bind_first fun left => input_looks.restores.bind_last fun _ => h.chainFrom _ left

theorem Restores.commaListFrom (h : Restores n item) (rounds : Nat) :
    Restores 0 (commaListFrom item rounds) := by
  induction rounds with
  | zero => exact stop_restores .endless
  | succ rounds ih =>
    refine (accept_restores _).bind_last fun found => ?_
    split
    · exact h.weaken.bind_last fun x => ih.bind_last fun xs => .pure (x :: xs)
    · exact .pure []

theorem Restores.commaList (h : Restores n item) : Restores n (commaList item) :=
  h.bind_first fun x => input_looks.restores.bind_last fun _ =>
    (h.commaListFrom _).bind_last fun xs => .pure (x :: xs)

end Repeat

end Restores

end Guarded

end MiningQuery
