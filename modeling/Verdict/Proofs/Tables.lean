import Verdict.Proofs.Combinations
import Verdict.Proofs.Footprint
import Verdict.Proofs.Markdown
import Verdict.TruthTable

set_option autoImplicit false

namespace Verdict

/-- A name that can stand in a cell: it neither ends the cell nor the line. -/
def FitsCell (name : String) : Prop := '|' ∉ name.toList ∧ '\n' ∉ name.toList

instance (name : String) : Decidable (FitsCell name) :=
  inferInstanceAs (Decidable (_ ∧ _))

structure Tree.Tabular (t : Tree) : Prop where
  conditions : ∀ s ∈ t.conditions, ∀ c ∈ s.members, FitsCell c.name
  outcomes : ∀ os ∈ t.outcomes, ∀ o ∈ os, FitsCell o.name

namespace TruthTable

def nameCell (name : String) : String := " " ++ name ++ " "

def markCell (sign : String) (shown : Bool) : String := " " ++ (if shown then sign else " ") ++ " "

def Row.cells (r : Row) : List String :=
  r.present.map (markCell "&#10004;") ++ " " :: r.given.map (markCell "&#10007;")

def headerCells (conditions : Conditions) (outcomes : List Outcome) : List String :=
  conditions.members.map (fun c => nameCell c.name) ++ "   " ::
    outcomes.map fun o => nameCell o.name

def tableCells (t : Tree) (conditions : Conditions) (outcomes : List Outcome) :
    List (List String) :=
  headerCells conditions outcomes ::
    List.replicate (conditions.size + 1 + outcomes.length) ":-:" ::
      (rows t conditions outcomes).map Row.cells

theorem toList_line (r : Row) : r.line.toList = Markdown.row r.cells ++ ['\n'] := by
  simp [Row.line, Row.cells, Markdown.row, mark, markCell, String.toList_join, List.flatMap_map]

theorem toList_header (conditions : Conditions) (outcomes : List Outcome) :
    (header conditions outcomes).toList =
      Markdown.row (headerCells conditions outcomes) ++ ['\n'] := by
  simp [header, headerCells, Markdown.row, nameCell, String.toList_join, List.flatMap_map]

theorem toList_rule (columns : Nat) :
    (rule columns).toList = Markdown.row (List.replicate columns ":-:") ++ ['\n'] := by
  have hcells : (List.replicate columns ":-:|").flatMap String.toList =
      (List.replicate columns ":-:").flatMap fun c => c.toList ++ ['|'] := by
    induction columns with
    | zero => rfl
    | succ n ih => simp [List.replicate_succ, ih]
  simp [rule, Markdown.row, String.toList_join, hcells]

theorem toList_table (t : Tree) (conditions : Conditions) (outcomes : List Outcome) :
    (table t conditions outcomes).toList =
      ((tableCells t conditions outcomes).map Markdown.row).flatMap (· ++ ['\n']) := by
  simp [table, tableCells, toList_header, toList_rule, toList_line, String.toList_join,
    List.flatMap_map]

theorem fitsCell_nameCell {name : String} (h : FitsCell name) : FitsCell (nameCell name) := by
  simpa [FitsCell, nameCell] using h

theorem fitsCell_markCell {sign : String} (h : FitsCell sign) (shown : Bool) :
    FitsCell (markCell sign shown) := by
  have hblank : FitsCell " " := by decide
  cases shown with
  | true => exact fitsCell_nameCell h
  | false => exact fitsCell_nameCell hblank

theorem fitsCell_tableCells {t : Tree} {conditions : Conditions} {outcomes : List Outcome}
    (hc : ∀ c ∈ conditions.members, FitsCell c.name) (ho : ∀ o ∈ outcomes, FitsCell o.name) :
    ∀ line ∈ tableCells t conditions outcomes, ∀ cell ∈ line, FitsCell cell := by
  have hspace : FitsCell " " := by decide
  have hgap : FitsCell "   " := by decide
  have hrule : FitsCell ":-:" := by decide
  have hcheck : FitsCell "&#10004;" := by decide
  have hcross : FitsCell "&#10007;" := by decide
  intro line hline cell hcell
  rcases List.mem_cons.1 hline with rfl | hline
  · simp only [headerCells, List.mem_append, List.mem_cons, List.mem_map] at hcell
    rcases hcell with ⟨c, hm, rfl⟩ | rfl | ⟨o, hm, rfl⟩
    · exact fitsCell_nameCell (hc c hm)
    · exact hgap
    · exact fitsCell_nameCell (ho o hm)
  rcases List.mem_cons.1 hline with rfl | hline
  · rw [List.eq_of_mem_replicate hcell]
    exact hrule
  · obtain ⟨r, _, rfl⟩ := List.mem_map.1 hline
    simp only [Row.cells, List.mem_append, List.mem_cons, List.mem_map] at hcell
    rcases hcell with ⟨shown, _, rfl⟩ | rfl | ⟨shown, _, rfl⟩
    · exact fitsCell_markCell hcheck shown
    · exact hspace
    · exact fitsCell_markCell hcross shown

def titleLines (t : Tree) (position : Nat) : List (List Char) :=
  if 1 < t.conditions.length then [("**Domain " ++ toString (position + 1) ++ "**").toList, []]
  else []

def part (t : Tree) (position : Nat) (conditions : Conditions) (outcomes : List Outcome) :
    Markdown.Part :=
  ⟨titleLines t position, (tableCells t conditions outcomes).map Markdown.row⟩

theorem toList_part (t : Tree) (position : Nat) (conditions : Conditions)
    (outcomes : List Outcome) :
    (title t position ++ table t conditions outcomes).toList =
      (part t position conditions outcomes).text := by
  have htitle : (title t position).toList = (titleLines t position).flatMap (· ++ ['\n']) := by
    have htext : title t position =
        if 1 < t.conditions.length then "**Domain " ++ toString (position + 1) ++ "**\n\n" else "" :=
      rfl
    rw [htext, titleLines]
    split <;> simp
  rw [String.toList_append, htitle, toList_table, Markdown.Part.text, List.flatMap_append]
  rfl

theorem lineFeed_not_mem_titleLines (t : Tree) (position : Nat) :
    ∀ l ∈ titleLines t position, '\n' ∉ l := by
  have hdigits : '\n' ∉ (toString (position + 1)).toList := by
    intro h
    rw [Nat.toString_eq_repr, Nat.toList_repr] at h
    exact absurd (Nat.isDigit_of_mem_toDigits (by decide) (by decide) h) (by decide)
  intro l hl
  unfold titleLines at hl
  split at hl
  · simp only [List.mem_cons, List.not_mem_nil, or_false] at hl
    rcases hl with rfl | rfl
    · simpa using hdigits
    · simp
  · cases hl

theorem proper_part {t : Tree} {conditions : Conditions} {outcomes : List Outcome}
    (hc : ∀ c ∈ conditions.members, FitsCell c.name) (ho : ∀ o ∈ outcomes, FitsCell o.name)
    (position : Nat) : (part t position conditions outcomes).Proper := by
  have hfits := fitsCell_tableCells (t := t) hc ho
  refine ⟨fun l hl => ?_, fun l hl => ?_, fun l hl => ?_, List.cons_ne_nil _ _⟩
  · rcases List.mem_append.1 hl with hl | hl
    · exact lineFeed_not_mem_titleLines t position l hl
    · obtain ⟨line, hline, rfl⟩ := List.mem_map.1 hl
      exact Markdown.lineFeed_not_mem_row fun c hcell => (hfits line hline c hcell).2
  · have hl : l ∈ titleLines t position := hl
    unfold titleLines at hl
    split at hl
    · simp only [List.mem_cons, List.not_mem_nil, or_false] at hl
      rcases hl with rfl | rfl
      · simp [Markdown.isRow]
      · rfl
    · cases hl
  · obtain ⟨line, _, rfl⟩ := List.mem_map.1 hl
    exact Markdown.isRow_row line

theorem tables_truthTable {t : Tree} (h : t.Tabular) :
    Markdown.tables t.truthTable =
      (t.conditions.zip t.outcomes).map fun d => tableCells t d.1 d.2 := by
  have htext : t.truthTable.toList = ['\n'].intercalate
      (((t.conditions.zip t.outcomes).zipIdx.map fun p => part t p.2 p.1.1 p.1.2).map
        Markdown.Part.text) := by
    rw [Tree.truthTable, String.toList_intercalate, List.map_map, List.map_map]
    congr 1
    exact List.map_congr_left fun p _ => toList_part t p.2 p.1.1 p.1.2
  have hfits : ∀ d ∈ t.conditions.zip t.outcomes,
      (∀ c ∈ d.1.members, FitsCell c.name) ∧ ∀ o ∈ d.2, FitsCell o.name := fun d hd =>
    ⟨h.conditions d.1 (List.of_mem_zip hd).1, h.outcomes d.2 (List.of_mem_zip hd).2⟩
  have hproper : ∀ p ∈ (t.conditions.zip t.outcomes).zipIdx.map
      (fun p => part t p.2 p.1.1 p.1.2), p.Proper := by
    intro p hp
    obtain ⟨⟨d, position⟩, hd, rfl⟩ := List.mem_map.1 hp
    obtain ⟨hc, ho⟩ := hfits d (List.fst_mem_of_mem_zipIdx hd)
    exact proper_part hc ho position
  have hcells : ∀ d ∈ t.conditions.zip t.outcomes,
      ((tableCells t d.1 d.2).map Markdown.row).map Markdown.cells = tableCells t d.1 d.2 := by
    intro d hd
    obtain ⟨hc, ho⟩ := hfits d hd
    have hline : ∀ line ∈ tableCells t d.1 d.2, Markdown.cells (Markdown.row line) = line :=
      fun line hline => Markdown.cells_row fun c hcell =>
        (fitsCell_tableCells hc ho line hline c hcell).1
    rw [List.map_map]
    exact (List.map_congr_left hline).trans (List.map_id _)
  calc Markdown.tables t.truthTable
      = ((t.conditions.zip t.outcomes).zipIdx.map Prod.fst).map fun d =>
          ((tableCells t d.1 d.2).map Markdown.row).map Markdown.cells := by
        rw [Markdown.tables, htext, Markdown.tablesOf_parts hproper, List.map_map, List.map_map,
          List.map_map]
        rfl
    _ = (t.conditions.zip t.outcomes).map fun d => tableCells t d.1 d.2 := by
        rw [List.zipIdx_map_fst]
        exact List.map_congr_left hcells

/-- A row that shows the answer for a set of conditions. It checks those conditions and no others,
and crosses the outcome that is the answer, if that is an outcome of the domain. -/
structure ShowsAnswer (t : Tree) (conditions : Conditions) (outcomes : List Outcome)
    (query : Conditions) (row : List String) : Prop where
  checked : ∀ (j : Nat) (c : Condition), conditions.members[j]? = some c →
    row[j]? = some (if c ∈ query then " &#10004; " else "   ")
  gap : row[conditions.size]? = some " "
  crossed : ∀ (j : Nat) (o : Outcome), outcomes[j]? = some o →
    row[conditions.size + 1 + j]? = some (if o = t.search query then " &#10007; " else "   ")
  crosses : row.count " &#10007; " = if t.search query ∈ outcomes then 1 else 0

structure Shows (t : Tree) (conditions : Conditions) (outcomes : List Outcome)
    (table : List (List String)) : Prop where
  lines : table.length = 2 + 2 ^ conditions.size
  cells : ∀ line ∈ table, line.length = conditions.size + 1 + outcomes.length
  header : table[0]? = some (conditions.members.map (fun c => " " ++ c.name ++ " ") ++ "   " ::
    outcomes.map fun o => " " ++ o.name ++ " ")
  rule : table[1]? = some (List.replicate (conditions.size + 1 + outcomes.length) ":-:")
  rows : ∀ (k : Nat) (query : Conditions), conditions.combinations[k]? = some query →
    ∃ row, table[2 + k]? = some row ∧ ShowsAnswer t conditions outcomes query row

def Checks (conditions : Conditions) (table : List (List String)) (i : Nat) (query : Conditions) :
    Prop :=
  ∃ row, table[2 + i]? = some row ∧
    ∀ (j : Nat) (c : Condition), conditions.members[j]? = some c →
      (row[j]? = some " &#10004; " ↔ c ∈ query)

def rowFor (t : Tree) (conditions : Conditions) (outcomes : List Outcome) (query : Conditions) :
    Row :=
  ⟨conditions.members.map query.contains, outcomes.map (· == t.search query)⟩

theorem markCell_check (query : Conditions) (c : Condition) :
    markCell "&#10004;" (query.contains c) = if c ∈ query then " &#10004; " else "   " := by
  by_cases h : c ∈ query
  · rw [Conditions.contains_iff.2 h, if_pos h]
    rfl
  · rw [Bool.eq_false_iff.2 fun hc => h (Conditions.contains_iff.1 hc), if_neg h]
    rfl

theorem markCell_cross (result o : Outcome) :
    markCell "&#10007;" (o == result) = if o = result then " &#10007; " else "   " := by
  by_cases h : o = result
  · rw [beq_iff_eq.2 h, if_pos h]
    rfl
  · rw [beq_eq_false_iff_ne.2 h, if_neg h]
    rfl

theorem cells_rowFor (t : Tree) (conditions : Conditions) (outcomes : List Outcome)
    (query : Conditions) :
    (rowFor t conditions outcomes query).cells =
      conditions.members.map (fun c => if c ∈ query then " &#10004; " else "   ") ++ " " ::
        outcomes.map fun o => if o = t.search query then " &#10007; " else "   " := by
  have hchecks : markCell "&#10004;" ∘ query.contains =
      fun c => if c ∈ query then " &#10004; " else "   " := funext (markCell_check query)
  have hcrosses : markCell "&#10007;" ∘ (· == t.search query) =
      fun o => if o = t.search query then " &#10007; " else "   " :=
    funext (markCell_cross (t.search query))
  rw [Row.cells, rowFor, List.map_map, List.map_map, hchecks, hcrosses]

theorem count_cross (t : Tree) (conditions : Conditions) {outcomes : List Outcome}
    (h : outcomes.Nodup) (query : Conditions) :
    (rowFor t conditions outcomes query).cells.count " &#10007; " =
      if t.search query ∈ outcomes then 1 else 0 := by
  -- Checks and crosses are different signs, so what is left to count are the outcomes.
  have hchecks : (conditions.members.map fun c => if c ∈ query then " &#10004; " else "   ").count
      " &#10007; " = 0 := by
    refine List.count_eq_zero.2 fun hm => ?_
    obtain ⟨c, _, hc⟩ := List.mem_map.1 hm
    split at hc <;> exact absurd hc (by decide)
  have hcrosses : (outcomes.map fun o => if o = t.search query then " &#10007; " else "   ").count
      " &#10007; " = outcomes.count (t.search query) := by
    rw [List.count, List.countP_map, List.count]
    refine List.countP_congr fun o _ => ?_
    by_cases ho : o = t.search query <;> simp [ho]
  rw [cells_rowFor, List.count_append, hchecks, List.count_cons_of_ne (by decide), hcrosses,
    h.count, Nat.zero_add]

theorem showsAnswer_rowFor (t : Tree) (conditions : Conditions) {outcomes : List Outcome}
    (h : outcomes.Nodup) (query : Conditions) :
    ShowsAnswer t conditions outcomes query (rowFor t conditions outcomes query).cells where
  checked j c hj := by
    have hlt : j < conditions.members.length := (List.getElem?_eq_some_iff.1 hj).1
    rw [cells_rowFor, List.getElem?_append_left (by simpa using hlt), List.getElem?_map, hj,
      Option.map_some]
  gap := by
    rw [cells_rowFor, Conditions.size]
    simp
  crossed j o hj := by
    have hindex : conditions.size + 1 + j = conditions.members.length + (j + 1) := by
      rw [Conditions.size]
      omega
    rw [cells_rowFor, hindex, List.getElem?_append_right (by simp)]
    simp [hj]
  crosses := count_cross t conditions h query

theorem length_cells (r : Row) : r.cells.length = r.present.length + 1 + r.given.length := by
  simp only [Row.cells, List.length_append, List.length_cons, List.length_map]
  omega

theorem shows_tableCells (t : Tree) (conditions : Conditions) {outcomes : List Outcome}
    (h : outcomes.Nodup) : Shows t conditions outcomes (tableCells t conditions outcomes) where
  lines := by
    simp only [tableCells, rows, List.length_cons, List.length_map,
      Conditions.length_combinations]
    omega
  cells := by
    intro line hline
    rcases List.mem_cons.1 hline with rfl | hline
    · simp only [headerCells, List.length_append, List.length_cons, List.length_map,
        Conditions.size]
      omega
    rcases List.mem_cons.1 hline with rfl | hline
    · exact List.length_replicate
    · obtain ⟨r, hr, rfl⟩ := List.mem_map.1 hline
      obtain ⟨query, _, rfl⟩ := List.mem_map.1 hr
      simp only [length_cells, List.length_map, Conditions.size]
  header := rfl
  rule := rfl
  rows k query hk := by
    refine ⟨_, ?_, showsAnswer_rowFor t conditions h query⟩
    have hrow : (tableCells t conditions outcomes)[2 + k]? =
        ((rows t conditions outcomes).map Row.cells)[k]? := by
      rw [Nat.add_comm]
      rfl
    rw [hrow, rows, List.map_map, List.getElem?_map, hk]
    rfl

section

variable {t : Tree} {conditions : Conditions} {outcomes : List Outcome}
  {table : List (List String)} {query : Conditions}

theorem ShowsAnswer.check_iff {row : List String}
    (h : ShowsAnswer t conditions outcomes query row) {j : Nat} {c : Condition}
    (hj : conditions.members[j]? = some c) : row[j]? = some " &#10004; " ↔ c ∈ query := by
  have hcell := h.checked j c hj
  by_cases hc : c ∈ query
  · rw [if_pos hc] at hcell
    exact iff_of_true hcell hc
  · rw [if_neg hc] at hcell
    exact iff_of_false (by simp [hcell]) hc

theorem Shows.checks_iff (h : Shows t conditions outcomes table) {i : Nat} {u : Conditions}
    (hi : conditions.combinations[i]? = some u) :
    Checks conditions table i query ↔ ∀ c ∈ conditions, c ∈ u ↔ c ∈ query := by
  obtain ⟨row, hrow, hshows⟩ := h.rows i u hi
  constructor
  · rintro ⟨row', hrow', hchecks⟩ c hc
    obtain rfl := Option.some.inj (hrow.symm.trans hrow')
    obtain ⟨j, hj⟩ := List.mem_iff_getElem?.1 hc
    rw [← hshows.check_iff hj, hchecks j c hj]
  · intro hu
    refine ⟨row, hrow, fun j c hj => ?_⟩
    rw [hshows.check_iff hj]
    exact hu c (List.mem_of_getElem? hj)

theorem Shows.exists_checks (h : Shows t conditions outcomes table) (query : Conditions) :
    ∃ (k : Nat) (u : Conditions), conditions.combinations[k]? = some u ∧
      (∀ c ∈ conditions, c ∈ u ↔ c ∈ query) ∧ ∀ i, Checks conditions table i query ↔ i = k := by
  obtain ⟨k, u, hk, hu⟩ := conditions.exists_combination query
  refine ⟨k, u, hk, hu, fun i => ?_⟩
  constructor
  · intro hi
    have hlt : i < conditions.combinations.length := by
      obtain ⟨row, hrow, _⟩ := hi
      have := (List.getElem?_eq_some_iff.1 hrow).1
      rw [h.lines] at this
      rw [Conditions.length_combinations]
      omega
    obtain ⟨v, hv⟩ : ∃ v, conditions.combinations[i]? = some v :=
      ⟨_, List.getElem?_eq_getElem hlt⟩
    have hsame := (h.checks_iff hv).1 hi
    exact Conditions.combination_unique hv hk fun c hc => (hsame c hc).trans (hu c hc).symm
  · rintro rfl
    exact (h.checks_iff hk).2 hu

end

end TruthTable

theorem Spec.tables_tree {s : Spec} {compact : Bool} (h : (s.tree compact).Tabular) :
    Markdown.tables (s.tree compact).truthTable =
      s.domains.map fun d => TruthTable.tableCells (s.tree compact) d.conditions d.outcomes := by
  have hzip : (s.tree compact).conditions.zip (s.tree compact).outcomes =
      s.domains.map fun d => (d.conditions, d.outcomes) := List.zip_map'
  rw [TruthTable.tables_truthTable h, hzip, List.map_map]
  rfl

theorem Domain.nodup_outcomes (d : Domain) : d.outcomes.Nodup := nodup_eraseDups _

/-- Every domain has its table, in order. Of a tree with a single domain, the row that checks what a
query holds of the conditions is computed from the answer to that query. -/
theorem Spec.truth_table_exact {s : Spec} {compact : Bool} {t : Tree}
    (ht : s.compile compact = .ok t) (h : t.Tabular) :
    List.Forall₂ (fun d table => TruthTable.Shows t d.conditions d.outcomes table) s.domains
        (Markdown.tables t.truthTable) ∧
      ∀ d, s.domains = [d] → ∃ table, Markdown.tables t.truthTable = [table] ∧
        ∀ query, ∃ (k : Nat) (u : Conditions), d.conditions.combinations[k]? = some u ∧
          t.search query = t.search u ∧
          ∀ i, TruthTable.Checks d.conditions table i query ↔ i = k := by
  obtain ⟨_, rfl⟩ := Spec.compile_eq_ok_iff.1 ht
  have htables := Spec.tables_tree h
  constructor
  · rw [htables, List.forall₂_map_right_iff, List.forall₂_same]
    exact fun d _ => TruthTable.shows_tableCells _ _ d.nodup_outcomes
  · intro d hd
    refine ⟨_, by rw [htables, hd]; rfl, fun query => ?_⟩
    have hshows := TruthTable.shows_tableCells (s.tree compact) d.conditions d.nodup_outcomes
    obtain ⟨k, u, hk, hu, hchecks⟩ := hshows.exists_checks query
    refine ⟨k, u, hk, ?_, hchecks⟩
    have hagree : ∀ c ∈ (s.tree compact).allConditions, c ∈ query ↔ c ∈ u := by
      intro c hc
      obtain ⟨e, he, hce⟩ := Spec.names_iff.2 hc
      rw [hd, List.mem_singleton] at he
      exact (hu c (he ▸ hce)).symm
    exact ((Spec.confined_tree compact s).agree query u hagree).1

/-- Two domains give two tables. In the table of the first one alone, an urgent order that is paid and
new has one row, the one of the paid and new. -/
theorem Spec.truth_table_exact_orders :
    (∃ t, Spec.orders.compile true = .ok t ∧ t.Tabular ∧
      List.Forall₂ (fun d table => TruthTable.Shows t d.conditions d.outcomes table)
        [Domain.orders, Domain.oldOrders] (Markdown.tables t.truthTable)) ∧
    ∃ t table, Spec.compile true ⟨[Domain.orders]⟩ = .ok t ∧ t.Tabular ∧
      Markdown.tables t.truthTable = [table] ∧
      ∃ k u, Domain.orders.conditions.combinations[k]? = some u ∧
        t.search (.ofList [⟨"urgent"⟩, ⟨"new"⟩, ⟨"paid"⟩]) = t.search u ∧
        ∀ i, TruthTable.Checks Domain.orders.conditions table i
          (.ofList [⟨"urgent"⟩, ⟨"new"⟩, ⟨"paid"⟩]) ↔ i = k := by
  have hboth : (Spec.orders.tree true).Tabular := ⟨by decide, by decide⟩
  have hone : (Spec.tree true ⟨[Domain.orders]⟩).Tabular := ⟨by decide, by decide⟩
  have hcompile : Spec.orders.compile true = .ok (Spec.orders.tree true) :=
    Spec.compile_of_named (by decide) true
  have hcompile' : Spec.compile true ⟨[Domain.orders]⟩ = .ok (Spec.tree true ⟨[Domain.orders]⟩) :=
    Spec.compile_of_named (by decide) true
  obtain ⟨table, htable, hrow⟩ := (Spec.truth_table_exact hcompile' hone).2 _ rfl
  exact ⟨⟨_, hcompile, hboth, (Spec.truth_table_exact hcompile hboth).1⟩,
    _, table, hcompile', hone, htable, hrow _⟩

end Verdict
