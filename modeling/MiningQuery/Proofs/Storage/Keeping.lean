/-
  File:      MiningQuery/Proofs/Storage/Keeping.lean
  Subject:   Loading a table leaves every other table as it was.

  The statements of a load name the stored table. What they do is up to the engine, and of that it
  is only known what every engine of SQL says of itself: a statement that names one table changes no
  other table, where names that differ in the case of letters only are one name; and giving up a
  transaction brings back what there was when it began.

  * `TableView` -- what can be seen of the tables of an engine;
  * `NamesTable` -- the statements that are about one table;
  * `Engine.ChangesByName` -- what is known of the engine;
  * **`Engine.ChangesByName.loading_spares`** -- a load keeps all other tables, however it ends;
  * `Shelves` -- a small engine that is known to do so.
-/
import MiningQuery.Proofs.Storage.Steps
import MiningQuery.Proofs.Token.LetterCase
import MiningQuery.Proofs.Token.Shape
import MiningQuery.Storage.Script

namespace MiningQuery

variable {σ τ : Type}

/-! ## 1. Tables as they are seen -/

/-- What can be seen of the tables of an engine under their names: what a table holds, and what it
    holds again once the open transaction is given up. Without a transaction both are the same. -/
structure TableView (σ τ : Type) where
  contents : σ → Text → τ
  saved : σ → Text → τ

namespace TableView

variable {v : TableView σ τ} {other : Text} {s s' s'' : σ}

/-- From one state to the other the table stays as it is, with and without the transaction. -/
def Keeps (v : TableView σ τ) (other : Text) (s s' : σ) : Prop :=
  v.contents s' other = v.contents s other ∧ v.saved s' other = v.saved s other

/-- From one state to the other the open transaction is given up. -/
def GivesUp (v : TableView σ τ) (other : Text) (s s' : σ) : Prop :=
  v.contents s' other = v.saved s other ∧ v.saved s' other = v.saved s other

theorem Keeps.trans (h : v.Keeps other s s') (h' : v.Keeps other s' s'') : v.Keeps other s s'' :=
  ⟨h'.1.trans h.1, h'.2.trans h.2⟩

theorem Keeps.givesUp (h : v.Keeps other s s') (h' : v.GivesUp other s' s'') :
    v.GivesUp other s s'' := ⟨h'.1.trans h.2, h'.2.trans h.2⟩

/-- The table holds `x`, and holds it also once the transaction is given up. -/
def Settled (v : TableView σ τ) (other : Text) (x : τ) (s : σ) : Prop :=
  v.contents s other = x ∧ v.saved s other = x

variable {x : τ}

theorem Settled.keeps (h : v.Settled other x s) (hk : v.Keeps other s s') : v.Settled other x s' :=
  ⟨hk.1.trans h.1, hk.2.trans h.2⟩

theorem Settled.givesUp (h : v.Settled other x s) (hg : v.GivesUp other s s') :
    v.Settled other x s' := ⟨hg.1.trans h.2, hg.2.trans h.2⟩

end TableView

/-! ## 2. What is known of an engine -/

/-- The statements about one table that a load sends. -/
inductive NamesTable (name : Text) : Text → Prop
  | drop : NamesTable name (ascii "DROP TABLE IF EXISTS " ++ name)
  | create (columns : List ColumnSpec) : NamesTable name (ascii "CREATE TABLE " ++ name ++
      ascii " (" ++ Text.join (ascii ", ") (columns.map ColumnSpec.sql) ++ ascii ")")
  | insert (width : Nat) : NamesTable name (Engine.insertSql name width)

/-- In some state the engine makes the statement `p` of a text. -/
def Engine.Prepares (e : Engine σ) (sql : Text) (p : Prepared) : Prop :=
  ∃ s, (e.prepare (Text.untilZero sql) s).1 = .ok (some p)

/-- **The engine changes tables by their names.** Names that differ in the case of letters only are
    one name, and no keys or triggers lead from one table to another. A statement that fails may
    give up the open transaction by itself. -/
structure Engine.ChangesByName (e : Engine σ) (v : TableView σ τ) : Prop where
  prepare : ∀ sql other s, v.Keeps other s (e.prepare sql s).2
  bind : ∀ p values other s, v.Keeps other s (e.bind p values s).2
  execute : ∀ name sql p parameters other s, isWord name = true → NamesTable name sql →
    e.Prepares sql p → Text.upper other ≠ Text.upper name →
      v.Keeps other s (e.execute p parameters s).2 ∨
        (e.execute p parameters s).1.failure ≠ none ∧
          v.GivesUp other s (e.execute p parameters s).2
  prepares_begin : ∀ s, (e.prepare (ascii "BEGIN TRANSACTION") s).1 ≠ .ok none
  begins : ∀ p parameters other s, e.Prepares (ascii "BEGIN TRANSACTION") p →
    (e.execute p parameters s).1.failure = none →
      v.Settled other (v.contents s other) (e.execute p parameters s).2
  begins_not : ∀ p parameters other s, e.Prepares (ascii "BEGIN TRANSACTION") p →
    (e.execute p parameters s).1.failure ≠ none → v.Keeps other s (e.execute p parameters s).2
  ends : ∀ p parameters other s, e.Prepares (ascii "END TRANSACTION") p →
    v.contents (e.execute p parameters s).2 other = v.contents s other ∨
      v.contents (e.execute p parameters s).2 other = v.saved s other
  rollback : ∀ other s, v.GivesUp other s (e.rollback s)

/-! ## 3. Statements -/

theorem Exchange.outcome_eq_ok_iff {x : Exchange} : x.outcome = .ok () ↔ x.failure = none := by
  unfold outcome
  cases x.failure with
  | none => exact iff_of_true rfl rfl
  | some message => exact iff_of_false nofun nofun

/-- Sending a statement gives up no transaction, as far as it was asked for. -/
theorem rolledBack_not_mem_exchange (e : Engine σ) (sql : Text) (values : List Text) (s : σ) :
    Event.rolledBack ∉ (e.exchange sql values s).1.events := by
  unfold Engine.exchange Engine.perform
  split
  · simp
  · simp
  · split <;> simp

namespace Engine.ChangesByName

variable {e : Engine σ} {v : TableView σ τ} {name other sql : Text} {p : Prepared} {s : σ} {x : τ}

/-- Sending a statement changes nothing, or executes what was prepared. -/
theorem exchange_cases (h : e.ChangesByName v) (other sql : Text) (s : σ) :
    (v.Keeps other s (e.exchange sql [] s).2 ∧ ((e.exchange sql [] s).1.failure ≠ none ∨
        (e.prepare (Text.untilZero sql) s).1 = .ok none)) ∨
      ∃ p s₁, e.Prepares sql p ∧ v.Keeps other s s₁ ∧
        (e.exchange sql [] s).2 = (e.execute p (p.fill []) s₁).2 ∧
        (e.exchange sql [] s).1.failure = (e.execute p (p.fill []) s₁).1.failure := by
  have hkeeps := h.prepare (Text.untilZero sql) other s
  unfold exchange
  rcases hprepare : e.prepare (Text.untilZero sql) s with ⟨message | _ | p, s₁⟩ <;>
    rw [hprepare] at hkeeps
  · exact .inl ⟨hkeeps, .inl nofun⟩
  · exact .inl ⟨hkeeps, .inr rfl⟩
  · exact .inr ⟨p, s₁, ⟨s, by rw [hprepare]⟩, hkeeps, rfl, rfl⟩

/-- A statement about one table keeps all others, unless the engine gives up the transaction. -/
theorem names_exchange (h : e.ChangesByName v) (hname : isWord name = true)
    (hsql : NamesTable name sql) (hother : Text.upper other ≠ Text.upper name) (s : σ) :
    v.Keeps other s (e.exchange sql [] s).2 ∨
      (e.exchange sql [] s).1.failure ≠ none ∧ v.GivesUp other s (e.exchange sql [] s).2 := by
  rcases h.exchange_cases other sql s with ⟨hkeeps, -⟩ | ⟨p, s₁, hp, hkeeps, hstate, hfailure⟩
  · exact .inl hkeeps
  · rw [hstate, hfailure]
    rcases h.execute name sql p (p.fill []) other s₁ hname hsql hp hother with
      hkeeps' | ⟨hf, hgives⟩
    · exact .inl (hkeeps.trans hkeeps')
    · exact .inr ⟨hf, hkeeps.givesUp hgives⟩

/-- A transaction that is begun can be given up without a change to any table. -/
theorem begin_exchange (h : e.ChangesByName v) (other : Text) (s : σ) :
    let r := e.exchange (ascii "BEGIN TRANSACTION") [] s
    (r.1.failure = none → v.Settled other (v.contents s other) r.2) ∧
      (r.1.failure ≠ none → v.Keeps other s r.2) := by
  intro r
  rcases h.exchange_cases other (ascii "BEGIN TRANSACTION") s with
    ⟨hkeeps, hfailed | hnone⟩ | ⟨p, s₁, hp, hkeeps, hstate, hfailure⟩
  · exact ⟨fun hok => absurd hok hfailed, fun _ => hkeeps⟩
  · exact absurd hnone (h.prepares_begin s)
  · rw [show r.2 = _ from hstate, show r.1.failure = _ from hfailure, ← hkeeps.1]
    exact ⟨h.begins p _ other s₁ hp, fun hf => hkeeps.trans (h.begins_not p _ other s₁ hp hf)⟩

/-- The end of the transaction changes no table that has not been changed inside it. -/
theorem end_exchange (h : e.ChangesByName v) (hsettled : v.Settled other x s) :
    v.contents (e.exchange (ascii "END TRANSACTION") [] s).2 other = x := by
  rcases h.exchange_cases other (ascii "END TRANSACTION") s with
    ⟨hkeeps, -⟩ | ⟨p, s₁, hp, hkeeps, hstate, -⟩
  · exact (hsettled.keeps hkeeps).1
  · rw [hstate]
    rcases h.ends p (p.fill []) other s₁ hp with hcontents | hcontents
    · exact hcontents.trans (hsettled.keeps hkeeps).1
    · exact hcontents.trans (hsettled.keeps hkeeps).2

/-! ## 4. Insertions -/

section Insertion

variable (h : e.ChangesByName v) (hname : isWord name = true) (hsql : NamesTable name sql)
  (hother : Text.upper other ≠ Text.upper name)

include h

theorem give_keeps (p : Prepared) (values : List Text) (other : Text) (s : σ) :
    v.Keeps other s (e.give p values s).2 := by
  unfold give
  split
  · exact ⟨rfl, rfl⟩
  · exact h.bind p values other s

include hname hsql hother

theorem insertOne_settled (hp : e.Prepares sql p) (row : List Text)
    (hsettled : v.Settled other x s) : v.Settled other x (e.insertOne p row s).engine := by
  have hgiven := hsettled.keeps (h.give_keeps p row other s)
  unfold insertOne
  rcases hgive : e.give p row s with ⟨message | _, s₁⟩ <;> rw [hgive] at hgiven
  · exact hgiven
  · rcases h.execute name sql p (p.fill row) other s₁ hname hsql hp hother with hkeeps | ⟨-, hgives⟩
    · exact hgiven.keeps hkeeps
    · exact hgiven.givesUp hgives

theorem insertEach_settled (hp : e.Prepares sql p) (rows : List (List Text))
    (hsettled : v.Settled other x s) : v.Settled other x (e.insertEach p rows s).engine := by
  induction rows generalizing s with
  | nil => exact hsettled
  | cons row rows ih =>
    have hone := h.insertOne_settled hname hsql hother hp row hsettled
    rw [insertEach]
    cases houtcome : (e.insertOne p row s).outcome with
    | error fault =>
      rw [Reaction.andThen_of_error houtcome]
      exact hone
    | ok _ =>
      rw [Reaction.andThen_of_ok houtcome]
      exact ih hone

theorem insertAll_settled (rows : List (List Text)) (hsettled : v.Settled other x s) :
    v.Settled other x (e.insertAll sql rows s).engine := by
  have hprepared := hsettled.keeps (h.prepare (Text.untilZero sql) other s)
  unfold insertAll
  rcases hprepare : e.prepare (Text.untilZero sql) s with ⟨message | _ | p, s₁⟩ <;>
    rw [hprepare] at hprepared
  · exact hprepared
  · exact hprepared
  · exact h.insertEach_settled hname hsql hother ⟨s, by rw [hprepare]⟩ rows hprepared

/-- Inserting rows keeps all other tables, also if the transaction is given up. -/
theorem insertion_settled (rows : List (List Text)) (hsettled : v.Settled other x s) :
    v.Settled other x (e.insertion sql rows s).engine := by
  have hall := h.insertAll_settled hname hsql hother rows hsettled
  unfold insertion
  dsimp only
  split
  · exact hall
  · exact hall.givesUp (h.rollback other _)

end Insertion

/-- **Inserting rows in a transaction of their own keeps all other tables**, however it ends. -/
theorem insertions_keep (h : e.ChangesByName v) (hname : isWord name = true)
    (hother : Text.upper other ≠ Text.upper name) (rows : List (List Text)) (s : σ) :
    v.contents (e.follow (StorageStep.insertions name rows) s).engine other =
      v.contents s other := by
  unfold StorageStep.insertions
  split
  · rfl
  obtain ⟨hbegun, hnot⟩ := h.begin_exchange other s
  rw [follow]
  cases houtcome : (e.take (.send (ascii "BEGIN TRANSACTION") []) s).outcome with
  | error fault =>
    rw [Reaction.andThen_of_error houtcome]
    refine (hnot fun hnone => ?_).1
    cases houtcome.symm.trans (Exchange.outcome_eq_ok_iff.mpr hnone)
  | ok _ =>
    rw [Reaction.andThen_of_ok houtcome]
    have hinserted := h.insertion_settled hname (.insert (rows.headD []).length) hother
      rows (hbegun (Exchange.outcome_eq_ok_iff.mp houtcome))
    rw [follow]
    cases houtcome' : (e.take (.insert (insertSql name (rows.headD []).length) rows)
        (e.take (.send (ascii "BEGIN TRANSACTION") []) s).engine).outcome with
    | error fault =>
      rw [Reaction.andThen_of_error houtcome']
      exact hinserted.1
    | ok _ =>
      rw [Reaction.andThen_of_ok houtcome', follow_singleton]
      exact h.end_exchange hinserted

end Engine.ChangesByName

/-! ## 5. Loads -/

/-- The reaction spares a table: the table is as it was before. Only where a statement has failed
    may the engine have given up by itself a transaction that was open before; then the table is as
    it was before the transaction. -/
def Reaction.Spares (r : Reaction σ) (v : TableView σ τ) (other : Text) (s : σ) : Prop :=
  v.contents r.engine other = v.contents s other ∨
    (∃ fault, r.outcome = .error fault) ∧ Event.rolledBack ∉ r.events ∧
      v.contents r.engine other = v.saved s other

namespace Engine.ChangesByName

variable {e : Engine σ} {v : TableView σ τ} {name other sql : Text} {s : σ}

/-- A statement about one table, and then what spares the other one. -/
theorem spares_andThen (h : e.ChangesByName v) (hname : isWord name = true)
    (hsql : NamesTable name sql) (hother : Text.upper other ≠ Text.upper name)
    {next : σ → Reaction σ} (hnext : ∀ s, (next s).Spares v other s) :
    ((e.take (.send sql []) s).andThen next).Spares v other s := by
  have hexchange := h.names_exchange hname hsql hother s
  have hquiet := rolledBack_not_mem_exchange e sql [] s
  cases houtcome : (e.take (.send sql []) s).outcome with
  | error fault =>
    rw [Reaction.andThen_of_error houtcome]
    rcases hexchange with hkeeps | ⟨-, hgives⟩
    · exact .inl hkeeps.1
    · exact .inr ⟨⟨fault, houtcome⟩, hquiet, hgives.1⟩
  | ok _ =>
    have hkeeps := hexchange.resolve_right fun hfailed =>
      hfailed.1 (Exchange.outcome_eq_ok_iff.mp houtcome)
    rw [Reaction.andThen_of_ok houtcome]
    rcases hnext (e.take (.send sql []) s).engine with hcontents | ⟨hfault, hevents, hcontents⟩
    · exact .inl (hcontents.trans hkeeps.1)
    · refine .inr ⟨hfault, fun hmem => ?_, hcontents.trans hkeeps.2⟩
      exact (List.mem_append.mp hmem).elim hquiet hevents

/-- **A load spares every table but the one that it loads**, however it ends. -/
theorem loading_spares (h : e.ChangesByName v) (hname : isWord name = true)
    (hother : Text.upper other ≠ Text.upper name) (columns : List ColumnSpec)
    (rows : List (List Text)) (s : σ) :
    (e.follow (StorageStep.loading name columns rows) s).Spares v other s := by
  unfold StorageStep.loading
  split
  · exact .inl rfl
  · refine h.spares_andThen hname .drop hother fun s => ?_
    unfold StorageStep.creation
    split
    · exact .inl rfl
    · exact h.spares_andThen hname (.create columns) hother fun s =>
        .inl (h.insertions_keep hname hother rows s)

end Engine.ChangesByName

/-! ## 6. A store -/

/-- The rows of a table, if it exists. -/
abbrev ShelfTable := Option (List (List (Option Text)))

/-- Tables, each under its name in capitals, and what they were when the open transaction began. -/
structure Shelves where
  tables : Text → ShelfTable := fun _ => none
  before : Option (Text → ShelfTable) := none

namespace Shelves

/-- What a statement does to the table that it names. -/
inductive Verb
  | drop | create | insert

/-- What stands in front of the name. -/
def Verb.start : Verb → Text
  | drop => ascii "DROP TABLE IF EXISTS "
  | create => ascii "CREATE TABLE "
  | insert => ascii "INSERT INTO "

/-- What becomes of a table, or why nothing does. -/
def Verb.apply (row : List (Option Text)) : Verb → ShelfTable → Except Text ShelfTable
  | drop, _ => .ok none
  | create, none => .ok (some [])
  | create, some _ => .error (ascii "table already exists")
  | insert, some rows => .ok (some (rows ++ [row]))
  | insert, none => .error (ascii "no such table")

/-- What a statement does, and to which table. -/
def meaning? (sql : Text) : Option (Verb × Text) :=
  ([.drop, .create, .insert].find? fun verb : Verb => verb.start.isPrefixOf sql).map fun verb =>
    (verb, (sql.drop verb.start.length).takeWhile isWordPart)

/-- Makes of a table what becomes of it. -/
def change (verb : Verb) (name : Text) (row : List (Option Text)) (s : Shelves) :
    Execution × Shelves :=
  match verb.apply row (s.tables (Text.upper name)) with
  | .ok table => (⟨[], none⟩, { s with tables := Function.update s.tables (Text.upper name) table })
  | .error message => (⟨[], some message⟩, s)

/-- Executes a statement. One without a meaning does nothing. -/
def execute (p : Prepared) (parameters : List (Option Text)) (s : Shelves) : Execution × Shelves :=
  if p.sql = ascii "BEGIN TRANSACTION" then
    match s.before with
    | none => (⟨[], none⟩, { s with before := some s.tables })
    | some _ => (⟨[], some (ascii "cannot start a transaction within a transaction")⟩, s)
  else if p.sql = ascii "END TRANSACTION" then
    match s.before with
    | none => (⟨[], some (ascii "cannot commit - no transaction is active")⟩, s)
    | some _ => (⟨[], none⟩, { s with before := none })
  else match meaning? p.sql with
    | none => (⟨[], none⟩, s)
    | some (verb, name) => change verb name parameters s

/-- A store of one table. -/
def holding (name : Text) (rows : List (List (Option Text))) : Shelves :=
  { tables := Function.update (fun _ => none) (Text.upper name) (some rows) }

/-- The tables that giving up the open transaction brings back. -/
def restored (s : Shelves) : Text → ShelfTable := s.before.getD s.tables

/-- The engine of the store. -/
def engine : Engine Shelves where
  openDatabase _ s := (.ok (), s)
  prepare sql s := (.ok (some ⟨sql, [], Script.placeholders sql⟩), s)
  bind p values s := (Script.bind p values, s)
  execute := execute
  rollback s := ⟨s.restored, none⟩

/-- A table as it is seen, by its name in any letter case. -/
def view : TableView Shelves ShelfTable :=
  ⟨fun s name => s.tables (Text.upper name), fun s name => s.restored (Text.upper name)⟩

variable {name other sql : Text} {p : Prepared} {s : Shelves}

theorem meaning?_start {tail : Text} (verb : Verb) (hname : isWord name = true)
    (htail : ∀ b ∈ tail.head?, isWordPart b = false) :
    meaning? (verb.start ++ (name ++ tail)) = some (verb, name) := by
  have hfind : ([.drop, .create, .insert].find? fun verb' : Verb =>
      verb'.start.isPrefixOf (verb.start ++ (name ++ tail))) = some verb := by
    cases verb <;> simp [Verb.start, ascii]
  have hword : (name ++ tail).takeWhile isWordPart = name := by
    rw [List.takeWhile_append_of_pos (isWordPart_of_isWord hname)]
    cases tail with
    | nil => simp
    | cons b tail => simp [htail b rfl]
  rw [meaning?, hfind, Option.map_some, List.drop_left, hword]

/-- A statement about one table means that table, also where its text is cut at a zero byte. -/
theorem exists_meaning (hname : isWord name = true) (hsql : NamesTable name sql) :
    ∃ verb, meaning? (Text.untilZero sql) = some (verb, name) := by
  have hnonzero : ∀ b ∈ name, (b != 0) = true := fun b hb => bne_iff_ne.mpr fun hzero => by
    have hpart := isWordPart_of_isWord hname b hb
    rw [hzero] at hpart
    cases hpart
  have hstart : ∀ verb : Verb, ∀ b ∈ verb.start, (b != 0) = true := fun verb =>
    List.all_eq_true.mp (by cases verb <;> decide)
  have hcut : ∀ (verb : Verb) (b : UInt8) (tail : Text), b ≠ 0 → isWordPart b = false →
      meaning? (Text.untilZero (verb.start ++ (name ++ b :: tail))) = some (verb, name) := by
    intro verb b tail hb hpart
    rw [Text.untilZero, List.takeWhile_append_of_pos (hstart verb),
      List.takeWhile_append_of_pos hnonzero, List.takeWhile_cons, if_pos (bne_iff_ne.mpr hb)]
    exact meaning?_start verb hname fun b' hb' => by
      obtain rfl := Option.some.inj hb'
      exact hpart
  cases hsql with
  | drop =>
    refine ⟨.drop, ?_⟩
    have hall : ∀ b ∈ Verb.drop.start ++ name, (b != 0) = true :=
      List.forall_mem_append.mpr ⟨hstart .drop, hnonzero⟩
    have hmeaning : meaning? (Verb.drop.start ++ (name ++ [])) = some (.drop, name) :=
      meaning?_start .drop hname nofun
    rw [List.append_nil] at hmeaning
    rw [Text.untilZero, show ascii "DROP TABLE IF EXISTS " = Verb.drop.start from rfl,
      List.takeWhile_eq_self_iff.mpr hall]
    exact hmeaning
  | create columns =>
    have hcreate := hcut .create 32 (40 :: (Text.join (ascii ", ") (columns.map ColumnSpec.sql) ++
      ascii ")")) (by decide) (by decide)
    refine ⟨.create, ?_⟩
    rw [← hcreate]
    simp [Verb.start, ascii]
  | insert width =>
    have hinsert := hcut .insert 32 (ascii "VALUES(" ++ Text.join (ascii ", ")
      (List.replicate width (ascii "?")) ++ ascii ")") (by decide) (by decide)
    refine ⟨.insert, ?_⟩
    rw [← hinsert]
    simp [Verb.start, ascii, Engine.insertSql]

/-- A change is made to one table. -/
theorem keeps_change (verb : Verb) (row : List (Option Text)) (s : Shelves)
    (hother : Text.upper other ≠ Text.upper name) :
    view.Keeps other s (change verb name row s).2 := by
  unfold change
  split
  · rename_i table _
    have hsame := Function.update_of_ne hother table s.tables
    refine ⟨hsame, ?_⟩
    show Option.getD s.before _ _ = Option.getD s.before _ _
    cases s.before with
    | none => exact hsame
    | some tables => rfl
  · exact ⟨rfl, rfl⟩

/-- What is prepared has the text that it is prepared from. -/
theorem sql_of_prepares (hp : engine.Prepares sql p) : p.sql = Text.untilZero sql := by
  obtain ⟨s, hs⟩ := hp
  rw [← Option.some.inj (Except.ok.inj hs)]

/-- **The store changes tables by their names.** -/
theorem changesByName : engine.ChangesByName view where
  prepare _ _ _ := ⟨rfl, rfl⟩
  bind _ _ _ _ := ⟨rfl, rfl⟩
  execute name sql p parameters other s hname hsql hp hother := by
    obtain ⟨verb, hmeaning⟩ := exists_meaning hname hsql
    rw [← sql_of_prepares hp] at hmeaning
    have hbegin : p.sql ≠ ascii "BEGIN TRANSACTION" := by
      intro h
      rw [h] at hmeaning
      cases hmeaning
    have hend : p.sql ≠ ascii "END TRANSACTION" := by
      intro h
      rw [h] at hmeaning
      cases hmeaning
    left
    show view.Keeps other s (execute p parameters s).2
    rw [execute, if_neg hbegin, if_neg hend, hmeaning]
    exact keeps_change verb parameters s hother
  prepares_begin _ := nofun
  begins p parameters other s hp := by
    show (execute p parameters s).1.failure = none →
      view.Settled other (view.contents s other) (execute p parameters s).2
    have hbegin : p.sql = ascii "BEGIN TRANSACTION" := sql_of_prepares hp
    rw [execute, if_pos hbegin]
    cases s.before with
    | none => exact fun _ => ⟨rfl, rfl⟩
    | some tables => exact nofun
  begins_not p parameters other s hp := by
    show (execute p parameters s).1.failure ≠ none → view.Keeps other s (execute p parameters s).2
    have hbegin : p.sql = ascii "BEGIN TRANSACTION" := sql_of_prepares hp
    rw [execute, if_pos hbegin]
    cases s.before with
    | none => exact fun h => absurd rfl h
    | some tables => exact fun _ => ⟨rfl, rfl⟩
  ends p parameters other s hp := by
    left
    show view.contents (execute p parameters s).2 other = view.contents s other
    have hend : p.sql = ascii "END TRANSACTION" := sql_of_prepares hp
    rw [execute, hend, if_neg (by decide), if_pos rfl]
    cases s.before <;> rfl
  rollback _ _ := ⟨rfl, rfl⟩

end Shelves

end MiningQuery
