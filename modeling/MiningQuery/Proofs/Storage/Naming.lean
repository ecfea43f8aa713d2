/-
  File:      MiningQuery/Proofs/Storage/Naming.lean
  Subject:   Which tables of databases share a stored name.

  A table of a database is stored under both names with the separator between. Even if the separator
  occurs in neither name, the place where it stands can be read in two ways, for it may overlap
  itself: a separator of two underscores stands twice in `a___b`.

  * `Overlap`, `Collide` -- two tables of databases between which an overlap of the separator moves;
  * `storedName_eq_iff` -- no other two tables share a stored name;
  * `StorageStep.About` -- the statements of a load name the stored table and no other;
  * **`databases_kept_apart`** -- where the tables do not collide, loading one keeps the other as it
    was, and neither is found in place of the other. For the engine, names that differ in the case
    of letters only are one name, so this is told in capitals too;
  * `databases_do_overlap` -- two tables that collide, and two that differ in letter case only.
-/
import MiningQuery.Proofs.Storage.Keeping
import MiningQuery.Proofs.Tree.Canonical
import MiningQuery.Settings.CommandLine
import MiningQuery.Storage.Script

namespace MiningQuery

variable {σ : Type} {s d t d' t' : Text}

/-! ## 1. Stored names -/

/-- The separator `s` overlaps itself: it begins with `u`, ends with `w`, and both times the rest is
    `v`. The database `d'` is `d` and `u`, and the table `t` is `w` and `t'`. -/
def Overlap (s d t d' t' : Text) : Prop :=
  ∃ u v w, u ≠ [] ∧ v ≠ [] ∧ s = u ++ v ∧ s = v ++ w ∧ d' = d ++ u ∧ t = w ++ t'

/-- One of the two tables is the other one behind an overlap of the separator. -/
def Collide (s d t d' t' : Text) : Prop :=
  d ≠ [] ∧ d' ≠ [] ∧ (Overlap s d t d' t' ∨ Overlap s d' t' d t)

theorem Overlap.qualifiedName_eq (h : Overlap s d t d' t') :
    qualifiedName d s t = qualifiedName d' s t' := by
  obtain ⟨u, v, w, -, -, hs, hs', rfl, rfl⟩ := h
  unfold qualifiedName
  calc d ++ s ++ (w ++ t') = d ++ (u ++ v) ++ (w ++ t') := by rw [← hs]
    _ = d ++ u ++ (v ++ w) ++ t' := by simp only [List.append_assoc]
    _ = d ++ u ++ s ++ t' := by rw [← hs']

/-- If the second database is the longer one, the first separator ends inside the second one. -/
theorem overlap_of_eq {u : Text} (hd' : ¬ s <:+: d') (hu : d' = d ++ u)
    (h : s ++ t = u ++ (s ++ t')) : d = d' ∧ t = t' ∨ Overlap s d t d' t' := by
  rcases List.append_eq_append_iff.mp h with ⟨a, rfl, -⟩ | ⟨v, hs, hrest⟩
  · exact absurd ⟨d, a, by rw [hu, List.append_assoc]⟩ hd'
  · by_cases hnil : u = []
    · subst hnil
      rw [List.append_nil] at hu
      exact .inl ⟨hu.symm, List.append_cancel_left h⟩
    · have hv : v ≠ [] := by
        rintro rfl
        rw [List.append_nil] at hs
        exact hd' ⟨d, [], by rw [hu, hs, List.append_nil]⟩
      rcases List.append_eq_append_iff.mp hrest with ⟨w, hw, -⟩ | ⟨w, hw, ht⟩
      · -- the rest of the separator would be longer than the separator
        have hlength := congrArg List.length hs
        have hlength' := congrArg List.length hw
        have hpos := List.length_pos_iff.mpr hnil
        simp only [List.length_append] at hlength hlength'
        omega
      · exact .inr ⟨u, v, w, hnil, hv, hs, hw, hu, ht⟩

theorem qualifiedName_eq_iff (hd : ¬ s <:+: d) (hd' : ¬ s <:+: d') :
    qualifiedName d s t = qualifiedName d' s t' ↔
      d = d' ∧ t = t' ∨ Overlap s d t d' t' ∨ Overlap s d' t' d t := by
  constructor
  · intro h
    rw [qualifiedName, qualifiedName, List.append_assoc, List.append_assoc] at h
    rcases List.append_eq_append_iff.mp h with ⟨u, hu, hrest⟩ | ⟨u, hu, hrest⟩
    · exact (overlap_of_eq hd' hu hrest).imp id .inl
    · exact (overlap_of_eq hd hu hrest).imp (fun h => ⟨h.1.symm, h.2.symm⟩) .inr
  · rintro (⟨rfl, rfl⟩ | h | h)
    · rfl
    · exact h.qualifiedName_eq
    · exact h.qualifiedName_eq.symm

theorem infix_qualifiedName (d s t : Text) : s <:+: qualifiedName d s t := ⟨d, t, rfl⟩

/-- **Two tables share a stored name only if they collide.** A table of no database is stored under
    its own name. -/
theorem storedName_eq_iff (hd : ¬ s <:+: d) (ht : ¬ s <:+: t) (hd' : ¬ s <:+: d')
    (ht' : ¬ s <:+: t') : Engine.storedName d s t = Engine.storedName d' s t' ↔
      d = d' ∧ t = t' ∨ Collide s d t d' t' := by
  have hempty : ∀ t : Text, Engine.storedName [] s t = t := fun t => rfl
  by_cases hne : d = [] <;> by_cases hne' : d' = []
  · subst hne hne'
    simp [hempty, Collide]
  · subst hne
    have hneq : t ≠ qualifiedName d' s t' := fun h => ht (h ▸ infix_qualifiedName d' s t')
    simp [hempty, storedName_of_ne hne', hneq, Collide, Ne.symm hne']
  · subst hne'
    have hneq : qualifiedName d s t ≠ t' := fun h => ht' (h ▸ infix_qualifiedName d s t)
    simp [hempty, storedName_of_ne hne, hneq, Collide, hne]
  · rw [storedName_of_ne hne, storedName_of_ne hne', qualifiedName_eq_iff hd hd']
    simp [Collide, hne, hne']

/-- Stored names in capitals. -/
theorem upper_storedName (d s t : Text) :
    Text.upper (Engine.storedName d s t) =
      Engine.storedName (Text.upper d) (Text.upper s) (Text.upper t) := by
  cases d with
  | nil => rfl
  | cons b d => simp [Engine.storedName, qualifiedName, Text.upper]

/-- A stored name is a word, if the names are names and the separator is as on a command line. -/
theorem isWord_storedName (hs : ∀ b ∈ s, isWordPart b = true) (ht : isName t = true)
    (hd : d ≠ [] → isName d = true) : isWord (Engine.storedName d s t) = true := by
  have htable := (Bool.and_eq_true_iff.mp ht).1
  by_cases hne : d = []
  · subst hne
    exact htable
  · rw [storedName_of_ne hne]
    exact isWord_append (isWord_append (Bool.and_eq_true_iff.mp (hd hne)).1 hs)
      (isWordPart_of_isWord htable)

/-! ## 2. Loading and looking up -/

/-- What is done by the step of a load is done to the table stored under a name. -/
inductive StorageStep.About (name : Text) : StorageStep → Prop
  | refused (fault : Fault) : About name (.refuse fault)
  | dropped : About name (.send (ascii "DROP TABLE IF EXISTS " ++ name) [])
  | created (columns : List ColumnSpec) : About name (.send (ascii "CREATE TABLE " ++ name ++
      ascii " (" ++ Text.join (ascii ", ") (columns.map ColumnSpec.sql) ++ ascii ")") [])
  | began : About name (.send (ascii "BEGIN TRANSACTION") [])
  | inserted (width : Nat) (rows : List (List Text)) :
      About name (.insert (Engine.insertSql name width) rows)
  | ended : About name (.send (ascii "END TRANSACTION") [])

theorem StorageStep.loading_about (name : Text) (columns : List ColumnSpec)
    (rows : List (List Text)) : ∀ step ∈ loading name columns rows, step.About name := by
  have hcreation : ∀ step ∈ creation name columns, step.About name := by
    unfold creation
    split
    · exact List.forall_mem_singleton.mpr (.refused _)
    · exact List.forall_mem_singleton.mpr (.created columns)
  have hinsertions : ∀ step ∈ insertions name rows, step.About name := by
    unfold insertions
    split
    · exact fun step h => absurd h List.not_mem_nil
    · simp only [List.forall_mem_cons]
      exact ⟨.began, .inserted _ rows, .ended, fun step h => absurd h List.not_mem_nil⟩
  unfold loading
  split
  · exact List.forall_mem_singleton.mpr (.refused _)
  · exact List.forall_mem_cons.mpr ⟨.dropped, List.forall_mem_append.mpr ⟨hcreation, hinsertions⟩⟩

/-- A table is found under the name that it has with its database, or under its own. -/
theorem Lookup.name_cases {xs : List Exchange} {o : Except Fault Text} {name : Text}
    (h : Lookup s d t xs o) (ho : o = .ok name) :
    name = t ∨ d ≠ [] ∧ name = qualifiedName d s t := by
  have hbare : ∀ {x : Exchange}, (x.found.map fun _ => t) = .ok name → name = t := by
    intro x hx
    cases hfound : x.found with
    | error fault =>
      rw [hfound] at hx
      cases hx
    | ok found =>
      rw [hfound] at hx
      exact (Except.ok.inj hx).symm
  cases h with
  | bare | unqualified => exact .inl (hbare ho)
  | qualified hd => exact .inr ⟨hd, (Except.ok.inj ho).symm⟩
  | failed => cases ho

/-- A table is looked up as its own or as that of the database. -/
theorem resolve_name {e : Engine σ} {c c' : Connection σ} {name : Text}
    (h : (e.resolver.resolve s d t).Does c (.ok name) c') :
    name = t ∨ name = Engine.storedName d s t := by
  obtain ⟨xs, o, c₁, hdoes, hlookup, -⟩ := resolve_heard e s d t c
  obtain ⟨rfl, -⟩ := Prod.mk.inj (hdoes.symm.trans h)
  exact (hlookup.name_cases rfl).imp id fun ⟨hd, hname⟩ =>
    hname.trans (storedName_of_ne hd s t).symm

/-- **The tables of databases are kept apart, but for overlaps of the separator.** Of names in which
    the separator does not occur, only those that collide are stored alike. Loading a table does its
    steps to the stored name, which it gives, and spares every table whose name differs from it in
    more than letter case; and a table that is found where another one of a database is stored is
    that one, or collides with it. If the separator does not occur in the names in any letter case,
    the same can be said of names in capitals. -/
theorem databases_kept_apart (hd : ¬ s <:+: d) (ht : ¬ s <:+: t) (hd' : ¬ s <:+: d')
    (ht' : ¬ s <:+: t') :
    (Engine.storedName d s t = Engine.storedName d' s t' ↔ d = d' ∧ t = t' ∨ Collide s d t d' t') ∧
      (∀ {σ : Type} (e : Engine σ) (columns : List ColumnSpec) (rows : List (List Text))
        (c : Connection σ), c.separator = s →
        let name := Engine.storedName d s t
        let steps := StorageStep.loading name columns rows
        (∀ step ∈ steps, step.About name) ∧ (∃ c',
          (e.loadTable t columns rows d).Does c
            ((e.follow steps c.engine).outcome.map fun _ => name) c' ∧
          (e.follow steps c.engine).Leads e c c') ∧
        ((∀ b ∈ s, isWordPart b = true) → isName t = true → (d ≠ [] → isName d = true) →
          ∀ {τ : Type} (v : TableView σ τ), e.ChangesByName v →
            ∀ other, Text.upper other ≠ Text.upper name →
              (e.follow steps c.engine).Spares v other c.engine)) ∧
      (∀ {σ : Type} (e : Engine σ) (c c' : Connection σ) (name : Text), d' ≠ [] →
        (e.resolver.resolve s d t).Does c (.ok name) c' → name = Engine.storedName d' s t' →
        d = d' ∧ t = t' ∨ Collide s d t d' t') ∧
      (¬ Text.upper s <:+: Text.upper d → ¬ Text.upper s <:+: Text.upper t →
        ¬ Text.upper s <:+: Text.upper d' → ¬ Text.upper s <:+: Text.upper t' →
        let Alike := Text.upper d = Text.upper d' ∧ Text.upper t = Text.upper t' ∨
          Collide (Text.upper s) (Text.upper d) (Text.upper t) (Text.upper d') (Text.upper t')
        (Text.upper (Engine.storedName d s t) = Text.upper (Engine.storedName d' s t') ↔ Alike) ∧
          ∀ {σ : Type} (e : Engine σ) (c c' : Connection σ) (name : Text), d' ≠ [] →
            (e.resolver.resolve s d t).Does c (.ok name) c' →
            Text.upper name = Text.upper (Engine.storedName d' s t') → Alike) := by
  have hiff := storedName_eq_iff hd ht hd' ht'
  refine ⟨hiff, ?_, ?_, ?_⟩
  · rintro σ e columns rows c rfl name steps
    refine ⟨StorageStep.loading_about name columns rows, loadTable_follows e t columns rows d c, ?_⟩
    intro hs htable hdatabase τ v hengine other hother
    have hname : isWord name = true := isWord_storedName hs htable hdatabase
    exact hengine.loading_spares hname hother columns rows c.engine
  · intro σ e c c' name hne hdoes hname
    rcases resolve_name hdoes with rfl | hstored
    · -- the name of a table alone holds no separator
      rw [hname, storedName_of_ne hne] at ht
      exact absurd (infix_qualifiedName d' s t') ht
    · exact hiff.mp (hstored.symm.trans hname)
  · intro hupper_d hupper_t hupper_d' hupper_t' Alike
    have hupper : Text.upper (Engine.storedName d s t) = Text.upper (Engine.storedName d' s t') ↔
        Alike := by
      rw [upper_storedName, upper_storedName]
      exact storedName_eq_iff hupper_d hupper_t hupper_d' hupper_t'
    refine ⟨hupper, ?_⟩
    intro σ e c c' name hne hdoes hname
    rcases resolve_name hdoes with rfl | hstored
    · have hupper_ne : Text.upper d' ≠ [] := List.map_eq_nil_iff.not.mpr hne
      rw [hname, upper_storedName, storedName_of_ne hupper_ne] at hupper_t
      exact absurd (infix_qualifiedName _ _ _) hupper_t
    · exact hupper.mp (by rw [← hstored, hname])

/-- Two tables of two databases, with a separator of two underscores: loading one spares the other
    in a store that holds it. -/
theorem databases_kept_apart_sales :
    let shelves := Shelves.holding (ascii "staff__people") [[some (ascii "1")]]
    let steps := StorageStep.loading (ascii "sales__items") [⟨ascii "n", []⟩] [[ascii "2"]]
    (¬ ascii "__" <:+: ascii "sales") ∧ (¬ ascii "__" <:+: ascii "items") ∧
      (¬ ascii "__" <:+: ascii "staff") ∧ (¬ ascii "__" <:+: ascii "people") ∧
      (Engine.storedName (ascii "sales") (ascii "__") (ascii "items") =
          Engine.storedName (ascii "staff") (ascii "__") (ascii "people") ↔
        ascii "sales" = ascii "staff" ∧ ascii "items" = ascii "people" ∨
          Collide (ascii "__") (ascii "sales") (ascii "items") (ascii "staff") (ascii "people")) ∧
      (Shelves.engine.follow steps shelves).Spares Shelves.view (ascii "staff__people") shelves ∧
      Shelves.view.contents (Shelves.engine.follow steps shelves).engine (ascii "sales__items") =
        some [[some (ascii "2")]] := by
  intro shelves steps
  have hsales : ¬ ascii "__" <:+: ascii "sales" := by decide
  have hitems : ¬ ascii "__" <:+: ascii "items" := by decide
  have hstaff : ¬ ascii "__" <:+: ascii "staff" := by decide
  have hpeople : ¬ ascii "__" <:+: ascii "people" := by decide
  have hseparator : ∀ b ∈ ascii "__", isWordPart b = true := List.all_eq_true.mp (by decide)
  obtain ⟨hiff, hload, -⟩ := databases_kept_apart hsales hitems hstaff hpeople
  refine ⟨hsales, hitems, hstaff, hpeople, hiff, ?_, by decide +kernel⟩
  exact (hload Shelves.engine _ _ { engine := shelves } rfl).2.2 hseparator (by decide)
    (fun _ => by decide) Shelves.view Shelves.changesByName _ (by decide)

/-- **Tables of two databases may be stored under one name**, although the separator is one of a
    command line and occurs in none of the names. And where the stored names differ in letter case
    only, they are one name for the engine, and one table replaces the other. -/
theorem databases_do_overlap :
    (¬ ∀ (s d t d' t' name : Text) (columns : List ColumnSpec) (c c₁ c₂ : Connection Script),
      Settings.checkText "database-separator" s = .ok () →
      isName d = true → isName t = true → isName d' = true → isName t' = true →
      ¬ s <:+: d → ¬ s <:+: t → ¬ s <:+: d' → ¬ s <:+: t' → c.separator = s →
      (Script.engine.loadTable t columns [] d).Does c (.ok name) c₁ →
      (Script.engine.loadTable t' columns [] d').Does c₁ (.ok name) c₂ → d = d' ∧ t = t') ∧
    ¬ ∀ (s d t d' t' name name' : Text) (columns : List ColumnSpec) (rows rows' : List (List Text))
        (c c₁ c₂ : Connection Shelves),
      Settings.checkText "database-separator" s = .ok () →
      isName d = true → isName t = true → isName d' = true → isName t' = true →
      ¬ s <:+: d → ¬ s <:+: t → ¬ s <:+: d' → ¬ s <:+: t' → c.separator = s →
      (Shelves.engine.loadTable t columns rows d).Does c (.ok name) c₁ →
      (Shelves.engine.loadTable t' columns rows' d').Does c₁ (.ok name') c₂ → name ≠ name' →
      Shelves.view.contents c₂.engine name = Shelves.view.contents c₁.engine name := by
  constructor
  · intro h
    have hsame := h (ascii "__") (ascii "a_") (ascii "b") (ascii "a") (ascii "_b") (ascii "a___b")
      [⟨ascii "n", []⟩] { engine := Script.empty } _ _ rfl
      (by decide) (by decide) (by decide) (by decide)
      (by decide) (by decide) (by decide) (by decide) rfl rfl rfl
    exact absurd hsame (by decide)
  · intro h
    have hsame := h (ascii "__") (ascii "Sales") (ascii "items") (ascii "sales") (ascii "items")
      (ascii "Sales__items") (ascii "sales__items") [⟨ascii "n", []⟩] [[ascii "1"]] [[ascii "2"]]
      { engine := {} } _ _ rfl (by decide) (by decide) (by decide) (by decide)
      (by decide) (by decide) (by decide) (by decide) rfl (.of_run (by decide +kernel))
      (.of_run (by decide +kernel)) (by decide)
    exact absurd hsame (by decide +kernel)

end MiningQuery
