/-
  File:      MiningQuery/Proofs/Storage/Listing.lean
  Subject:   Loading, listing and looking up agree on the names of tables.

  The name of a stored table is put together where a table is loaded, where tables are listed and
  where a query is translated. A runner gives its separator to the connection when it starts, and so
  all three put together the same name.

  * `Lookups.at` -- what is asked when a table in a list is looked up;
  * `Query.AsksFor` -- a query asks for a name in the place of a table, and uses it if it is found;
  * `Exchange.Delivers` -- the names that a list of tables holds;
  * `map_filterMap_nameIn` -- the listed names of a database, put together again, are its part of
    the list;
  * **`stored_names_agree`** -- a table is loaded, looked up and listed under one name.
-/
import MiningQuery.Proofs.Storage.Steps
import MiningQuery.Storage.Script

namespace MiningQuery

variable {σ α β : Type} {s d t name : Text}

/-! ## 1. Looking up -/

/-- A table of a database is first looked up under its stored name, which stands for it if it is
    found. -/
theorem Lookup.first {xs : List Exchange} {o : Except Fault Text} (h : Lookup s d t xs o)
    (hd : d ≠ []) : ∃ x ys, xs = x :: ys ∧ x.Asks (qualifiedName d s t) ∧
      (x.found = .ok true → o = .ok (qualifiedName d s t)) := by
  cases h with
  | bare hnil => exact absurd hnil hd
  | qualified _ hasks _ => exact ⟨_, _, rfl, hasks, fun _ => rfl⟩
  | unqualified _ hasks hfound _ =>
    refine ⟨_, _, rfl, hasks, fun htrue => ?_⟩
    rw [hfound] at htrue
    cases htrue
  | failed _ hasks hfound =>
    refine ⟨_, _, rfl, hasks, fun htrue => ?_⟩
    rw [hfound] at htrue
    cases htrue

/-- **A table behind others**: one of these is not looked up to its end, or the stored name of the
    table is asked for next. -/
theorem Lookups.at {before later : List Text} {xs : List Exchange} {o : Except Fault (List Text)}
    (h : Lookups s d (before ++ t :: later) xs o) (hd : d ≠ []) :
    (∃ fault, Lookups s d before xs (.error fault) ∧ o = .error fault) ∨
      ∃ ys names x zs, xs = ys ++ x :: zs ∧ Lookups s d before ys (.ok names) ∧
        names.length = before.length ∧ x.Asks (qualifiedName d s t) ∧
        ∀ tables, o = .ok tables → ∃ n rest, tables = names ++ n :: rest ∧
          (x.found = .ok true → n = qualifiedName d s t) := by
  induction before generalizing xs o with
  | nil =>
    rw [List.nil_append] at h
    cases h with
    | failed hlookup =>
      obtain ⟨x, zs, rfl, hasks, -⟩ := hlookup.first hd
      exact .inr ⟨[], [], x, zs, rfl, .done, rfl, hasks, fun tables h => nomatch h⟩
    | @next _ n _ _ rest o hlookup _ =>
      obtain ⟨x, zs, rfl, hasks, hfound⟩ := hlookup.first hd
      refine .inr ⟨[], [], x, zs ++ rest, rfl, .done, rfl, hasks, fun tables h => ?_⟩
      cases o with
      | error fault => cases h
      | ok names => exact ⟨n, names, (Except.ok.inj h).symm, fun h => Except.ok.inj (hfound h)⟩
  | cons table before ih =>
    rw [List.cons_append] at h
    cases h with
    | failed hlookup => exact .inl ⟨_, .failed hlookup, rfl⟩
    | @next _ n _ first rest o hlookup hrest =>
      rcases ih hrest with ⟨fault, hfails, rfl⟩ |
        ⟨ys, names, x, zs, rfl, hbefore, hlength, hasks, hplace⟩
      · exact .inl ⟨fault, .next hlookup hfails, rfl⟩
      · refine .inr ⟨first ++ ys, n :: names, x, zs, (List.append_assoc ..).symm,
          .next hlookup hbefore, congrArg (· + 1) hlength, hasks, fun tables h => ?_⟩
        cases o with
        | error fault => cases h
        | ok tables' =>
          obtain ⟨n', more, rfl, hfound⟩ := hplace tables' rfl
          exact ⟨n', more, (Except.ok.inj h).symm, hfound⟩

/-- When the query comes to the table behind the others, which the engine may not let it, it first
    asks for the name. If the name is found, it stands in the place of the table. -/
def Query.AsksFor (q : Query) (e : Engine σ) (s name : Text) (before : List Text)
    (c c' : Connection σ) (o : Except Fault Text) : Prop :=
  (∃ xs fault, Lookups s q.database before xs (.error fault) ∧ e.Heard xs c c' ∧
    o = .error fault) ∨
  ∃ xs names x ys, Lookups s q.database before xs (.ok names) ∧ names.length = before.length ∧
    x.Asks name ∧ e.Heard (xs ++ x :: ys) c c' ∧
    ∀ sql, o = .ok sql → ∃ n rest, sql = (q.selectParts (names ++ n :: rest)).sql ∧
      (x.found = .ok true → n = name)

/-- **A query asks for the stored name of its table first.** -/
theorem translate_asksFor (e : Engine σ) (r : Runner) {q : Query} {before later : List Text}
    (hd : q.database ≠ []) (htables : q.tables = before ++ t :: later) (c : Connection σ) :
    ∃ o c', (r.translate e q).Does c o c' ∧
      q.AsksFor e r.settings.separator (qualifiedName q.database r.settings.separator t) before c c'
        o := by
  obtain ⟨xs, o, c', hdoes, hlookups, hheard⟩ := translate_heard e r q c
  rw [htables] at hlookups
  refine ⟨_, c', hdoes, ?_⟩
  rcases hlookups.at hd with ⟨fault, hfails, rfl⟩ |
    ⟨ys, names, x, zs, rfl, hbefore, hlength, hasks, hplace⟩
  · exact .inl ⟨xs, fault, hfails, hheard, rfl⟩
  · refine .inr ⟨ys, names, x, zs, hbefore, hlength, hasks, hheard, fun sql hsql => ?_⟩
    cases o with
    | error fault => cases hsql
    | ok tables =>
      obtain ⟨n, rest, rfl, hfound⟩ := hplace tables rfl
      exact ⟨n, rest, (Except.ok.inj hsql).symm, hfound⟩

/-! ## 2. Listing -/

/-- The statement has succeeded, and its first column holds these texts. -/
def Exchange.Delivers (x : Exchange) (texts : List Text) : Prop :=
  x.failure = none ∧ x.result.rows.map (fun row => row.head?.map Cell.text) = texts.map some

/-- The name is longer than the name of the database and the separator, and begins with them. -/
def Extends (d s name : Text) : Prop := d ++ s <+: name ∧ name ≠ d ++ s

instance (d s name : Text) : Decidable (Extends d s name) :=
  inferInstanceAs (Decidable (_ ∧ _))

theorem nameIn_eq_some (hd : d ≠ []) {u : Text} :
    Engine.nameIn? d s name = some u ↔ u ≠ [] ∧ name = qualifiedName d s u := by
  have hsome : Engine.nameIn? d s name =
      if (d ++ s).length < name.length ∧ name.take (d ++ s).length = d ++ s then
        some (name.drop (d ++ s).length) else none := by
    simp [Engine.nameIn?, hd]
  rw [hsome, qualifiedName]
  constructor
  · intro h
    split at h
    · rename_i hstart
      obtain rfl := Option.some.inj h
      have hname := List.take_append_drop (d ++ s).length name
      rw [hstart.2] at hname
      refine ⟨fun hnil => ?_, hname.symm⟩
      have := List.drop_eq_nil_iff.mp hnil
      omega
    · cases h
  · rintro ⟨hu, rfl⟩
    have hpos := List.length_pos_iff.mpr hu
    have hlonger : (d ++ s).length < (d ++ s ++ u).length := by
      simp only [List.length_append]
      omega
    rw [if_pos ⟨hlonger, List.take_left⟩, List.drop_left]

/-- The name of a stored table in a database, put together again. -/
theorem map_nameIn (hd : d ≠ []) (name : Text) :
    (Engine.nameIn? d s name).map (qualifiedName d s) =
      Option.guard (fun n => decide (Extends d s n)) name := by
  unfold Option.guard
  cases hname : Engine.nameIn? d s name with
  | some u =>
    obtain ⟨hu, rfl⟩ := (nameIn_eq_some hd).mp hname
    have hextends : Extends d s (qualifiedName d s u) :=
      ⟨List.prefix_append _ u, fun h => hu (List.append_right_eq_self.mp h)⟩
    rw [if_pos (decide_eq_true hextends)]
    rfl
  | none =>
    have hextends : ¬ Extends d s name := by
      rintro ⟨⟨u, rfl⟩, hne⟩
      have hu : u ≠ [] := fun hu => hne (by rw [hu, List.append_nil])
      have hsome := (nameIn_eq_some hd).mpr ⟨hu, (rfl : d ++ s ++ u = qualifiedName d s u)⟩
      rw [hsome] at hname
      cases hname
    rw [if_neg (by simpa using hextends)]
    rfl

/-- **The listed names of a database, put together again, are its part of the list.** -/
theorem map_filterMap_nameIn (hd : d ≠ []) (names : List Text) :
    (names.filterMap (Engine.nameIn? d s)).map (qualifiedName d s) =
      names.filter fun n => Extends d s n := by
  rw [List.map_filterMap, ← List.filterMap_eq_filter]
  exact congrArg (fun f => names.filterMap f) (funext (map_nameIn hd))

theorem mem_filterMap_nameIn (hd : d ≠ []) (ht : t ≠ []) (names : List Text) :
    t ∈ names.filterMap (Engine.nameIn? d s) ↔ qualifiedName d s t ∈ names := by
  rw [List.mem_filterMap]
  constructor
  · rintro ⟨name, hmem, hname⟩
    obtain ⟨-, rfl⟩ := (nameIn_eq_some hd).mp hname
    exact hmem
  · exact fun hmem => ⟨_, hmem, (nameIn_eq_some hd).mpr ⟨ht, rfl⟩⟩

/-- A computation for every item that leaves the connection as it is. -/
theorem mapM_does {f : α → Access σ β} {g : α → β} {c : Connection σ} {xs : List α}
    (h : ∀ x ∈ xs, (f x).Does c (.ok (g x)) c) : (xs.mapM f).Does c (.ok (xs.map g)) c := by
  induction xs with
  | nil => exact .pure []
  | cons x xs ih =>
    obtain ⟨hx, hxs⟩ := List.forall_mem_cons.mp h
    rw [List.mapM_cons]
    exact hx.bind ((ih hxs).bind (.pure _))

/-- Rows that have first texts have first cells. -/
theorem exists_firstCells {rows : List (List Cell)} {texts : List Text}
    (h : rows.map (fun row => row.head?.map Cell.text) = texts.map some) :
    ∃ cells : List Cell, rows.map List.head? = cells.map some ∧ cells.map Cell.text = texts := by
  induction rows generalizing texts with
  | nil =>
    obtain rfl := List.map_eq_nil_iff.mp h.symm
    exact ⟨[], rfl, rfl⟩
  | cons row rows ih =>
    cases texts with
    | nil => cases h
    | cons text texts =>
      obtain ⟨hrow, hrows⟩ := List.cons.inj h
      obtain ⟨cell, hcell, rfl⟩ := Option.map_eq_some_iff.mp hrow
      obtain ⟨cells, hcells, rfl⟩ := ih hrows
      refine ⟨cell :: cells, ?_, rfl⟩
      rw [List.map_cons, List.map_cons, hcell, hcells]

/-- The first column is read cell by cell. -/
theorem firstCells_does {c : Connection σ} {cells : List Cell}
    (hlength : ∀ row ∈ c.result.rows, row.length = c.result.columns.length)
    (hcells : c.result.rows.map List.head? = cells.map some) :
    ((List.range c.result.rows.length).mapM fun row => Access.cell row 0).Does c (.ok cells) c := by
  have hcount : c.result.rows.length = cells.length := by
    simpa using congrArg List.length hcells
  have hcell : ∀ i ∈ List.range c.result.rows.length,
      (Access.cell i 0).Does c (.ok (cells.getD i Cell.null)) c := by
    intro i hi
    have hi := List.mem_range.mp hi
    have hfirst : c.result.rows[i].head? = some cells[i] := by
      have h := congrArg (·[i]?) hcells
      simpa [hi, hcount ▸ hi] using h
    obtain ⟨rest, hrow⟩ := List.head?_eq_some_iff.mp hfirst
    have hcolumns : 0 < c.result.columns.length := by
      rw [← hlength _ (List.getElem_mem hi), hrow]
      exact Nat.succ_pos _
    have hplace : c.result.cell? i 0 = some (cells.getD i Cell.null) := by
      rw [ResultSet.cell?, if_pos hcolumns, List.getElem?_eq_getElem hi]
      simp [hrow, hcount ▸ hi]
    refine Access.Does.result.bind ?_
    rw [hplace]
    exact .pure _
  have hall : (List.range c.result.rows.length).map (cells.getD · Cell.null) = cells := by
    refine List.ext_getElem (by simp [hcount]) fun i _ hi => ?_
    simp [hi]
  exact hall ▸ mapM_does hcell

/-- **Tables are listed if the engine delivers their names.** -/
theorem listTables_does (e : Engine σ) (d : Text) (c : Connection σ) {names : List Text}
    (h : (e.exchange Engine.listSql [] c.engine).1.Delivers names) :
    ∃ c', (e.listTables d).Does c (.ok (names.filterMap (Engine.nameIn? d c.separator))) c' := by
  obtain ⟨c', hdoes, records, hc'⟩ := queryWith_does e Engine.listSql [] c
  obtain ⟨hfailure, hnames⟩ := h
  obtain ⟨cells, hcells, rfl⟩ := exists_firstCells hnames
  rw [Exchange.outcome, hfailure] at hdoes
  have hresult : c'.result = (e.exchange Engine.listSql [] c.engine).1.result := by rw [hc']
  have hseparator : c'.separator = c.separator := by rw [hc']
  have hread : ((List.range c'.result.rows.length).mapM fun row => Access.cell row 0).Does c'
      (.ok cells) c' :=
    firstCells_does (hresult ▸ exchange_rows_length e Engine.listSql [] c.engine) (hresult ▸ hcells)
  have hget : (get : Access σ (Connection σ)).Does c' (.ok c') c' := rfl
  refine ⟨c', ?_⟩
  rw [List.filterMap_map, ← hseparator]
  exact hdoes.bind (Access.Does.result.bind (hread.bind (hget.bind (.pure _))))

/-! ## 3. One name -/

/-- A runner that is started has the settings, and the connection has their separator. -/
theorem start_does {e : Engine σ} {settings : Settings} {r : Runner} {c c' : Connection σ}
    (h : (Runner.start e settings).Does c (.ok r) c') :
    r.settings = settings ∧ c'.separator = settings.separator := by
  obtain ⟨o, c₁, hconnect⟩ : ∃ o c₁, (e.connect settings.database (ascii ".")).Does c o c₁ :=
    ⟨_, _, rfl⟩
  cases o with
  | error fault =>
    obtain ⟨hfault, -⟩ := Prod.mk.inj (hconnect.bind_error.symm.trans h)
    cases hfault
  | ok _ =>
    have hstarted := hconnect.bind (f := fun _ => (do
      modify fun c => { c with result := .empty, separator := settings.separator }
      return { settings } : Access σ Runner)) rfl
    obtain ⟨hr, rfl⟩ := Prod.mk.inj (hstarted.symm.trans h)
    obtain rfl := Except.ok.inj hr
    exact ⟨rfl, rfl⟩

/-- **A table has one name for loading, looking up and listing.** Once a runner is started and as
    long as the separator of the connection stays, a table of a database that is loaded gets the
    name that the runner asks for first when a query names the table; the name stands in its place
    if it is found, and the table is listed exactly if the name is in the list of the engine. What
    is listed for the database, put together again, is its part of that list; without a database
    the whole list is listed. -/
theorem stored_names_agree {e : Engine σ} {settings : Settings} {r : Runner}
    {c₀ c₁ c : Connection σ} (hstart : (Runner.start e settings).Does c₀ (.ok r) c₁)
    (hc : c.separator = c₁.separator) (hd : d ≠ []) (ht : t ≠ []) :
    let s := settings.separator
    let name := d ++ s ++ t
    (∀ columns rows n c', (e.loadTable t columns rows d).Does c (.ok n) c' → n = name) ∧
      (∀ q before later, q.database = d → q.tables = before ++ t :: later →
        ∃ o c', (r.translate e q).Does c o c' ∧ q.AsksFor e s name before c c' o) ∧
      ∀ names, (e.exchange Engine.listSql [] c.engine).1.Delivers names →
        (∃ tables c', (e.listTables d).Does c (.ok tables) c' ∧
          tables.map (fun u => d ++ s ++ u) = names.filter (fun n => Extends d s n) ∧
          (t ∈ tables ↔ name ∈ names)) ∧
        ∃ c', (e.listTables []).Does c (.ok names) c' := by
  intro s name
  obtain ⟨rfl, hseparator⟩ := start_does hstart
  have hs : c.separator = s := hc.trans hseparator
  refine ⟨fun columns rows n c' hdoes => ?_, fun q before later hq htables => ?_, fun names h => ?_⟩
  · obtain ⟨c'', hloads, -⟩ := loadTable_follows e t columns rows d c
    rw [storedName_of_ne hd, hs] at hloads
    obtain ⟨hn, -⟩ := Prod.mk.inj (hloads.symm.trans hdoes)
    cases houtcome : (e.follow _ c.engine).outcome with
    | error fault => rw [houtcome] at hn; cases hn
    | ok _ =>
      rw [houtcome] at hn
      exact (Except.ok.inj hn).symm
  · subst hq
    exact translate_asksFor e r hd htables c
  · obtain ⟨c', hlists⟩ := listTables_does e d c h
    obtain ⟨c'', hall⟩ := listTables_does e [] c h
    rw [hs] at hlists
    have hwhole : names.filterMap (Engine.nameIn? [] c.separator) = names := List.filterMap_some
    rw [hwhole] at hall
    exact ⟨⟨_, c', hlists, map_filterMap_nameIn hd names, mem_filterMap_nameIn hd ht names⟩,
      c'', hall⟩

/-- A table of a database in a list of two tables. -/
theorem stored_names_agree_sales :
    let listed : Reply :=
      { sql := Engine.listSql, columns := [ascii "name"]
        rows := [[⟨.text, ascii "items"⟩], [⟨.text, ascii "sales__items"⟩]] }
    let c₀ : Connection Script := { engine := { replies := [listed] } }
    let c₁ := ((Runner.start Script.engine {}).run.run c₀).2
    (Runner.start Script.engine {}).Does c₀ (.ok {}) c₁ ∧
      ∃ tables c', (Script.engine.listTables (ascii "sales")).Does c₁ (.ok tables) c' ∧
        ascii "items" ∈ tables := by
  intro listed c₀ c₁
  have hstart : (Runner.start Script.engine {}).Does c₀ (.ok {}) c₁ := rfl
  obtain ⟨-, -, hlisted⟩ := stored_names_agree (d := ascii "sales") (t := ascii "items") hstart
    (rfl : c₁.separator = c₁.separator) (by decide) (by decide)
  obtain ⟨⟨tables, c', hdoes, -, hmem⟩, -⟩ :=
    hlisted [ascii "items", ascii "sales__items"] ⟨rfl, rfl⟩
  exact ⟨hstart, tables, c', hdoes, hmem.mpr (by decide)⟩

end MiningQuery
