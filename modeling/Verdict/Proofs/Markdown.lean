set_option autoImplicit false

namespace Verdict.Markdown

def isRow (line : List Char) : Bool := line.head? == some '|'

def tablesOf (lines : List (List Char)) : List (List (List Char)) :=
  (lines.splitOnP (!isRow ·)).filter (!·.isEmpty)

def cells (line : List Char) : List String := ((line.splitOn '|').tail.dropLast).map String.ofList

def tables (text : String) : List (List (List String)) :=
  (tablesOf (text.toList.splitOn '\n')).map (·.map cells)

theorem splitOn_closed {x : Char} {ls : List (List Char)} (h : ∀ l ∈ ls, x ∉ l)
    (rest : List Char) :
    (ls.flatMap (· ++ [x]) ++ rest).splitOn x = ls ++ rest.splitOn x := by
  induction ls with
  | nil => rfl
  | cons l ls ih =>
    have hl : ∀ c ∈ l, (c == x) = false := by
      intro c hc
      simpa using fun he : c = x => h l List.mem_cons_self (he ▸ hc)
    have hls := ih fun l' hl' => h l' (List.mem_cons_of_mem l hl')
    rw [List.splitOn_eq_splitOnP] at hls ⊢
    rw [List.flatMap_cons, List.append_assoc, List.append_assoc, List.singleton_append,
      List.splitOnP_append_cons_of_forall_mem hl x (beq_self_eq_true x), hls]
    rfl

def row (cs : List String) : List Char := '|' :: cs.flatMap fun c => c.toList ++ ['|']

theorem isRow_row (cs : List String) : isRow (row cs) = true := rfl

theorem cells_row {cs : List String} (h : ∀ c ∈ cs, '|' ∉ c.toList) : cells (row cs) = cs := by
  have hsplit : (row cs).splitOn '|' = [] :: (cs.map String.toList ++ [[]]) := by
    have hclosed : row cs = ([] :: cs.map String.toList).flatMap (· ++ ['|']) ++ [] := by
      simp [row, List.flatMap_map]
    rw [hclosed, splitOn_closed (by simpa using h)]
    rfl
  rw [cells, hsplit, List.tail_cons, List.dropLast_concat, List.map_map]
  simp

theorem lineFeed_not_mem_row {cs : List String} (h : ∀ c ∈ cs, '\n' ∉ c.toList) :
    '\n' ∉ row cs := by
  simpa [row] using h

theorem splitOnP_isRow {table : List (List Char)} (h : ∀ l ∈ table, isRow l = true)
    {line : List Char} (hline : isRow line = false) (lines : List (List Char)) :
    (table ++ line :: lines).splitOnP (!isRow ·) = table :: lines.splitOnP (!isRow ·) :=
  List.splitOnP_append_cons_of_forall_mem (fun l hl => by simp [h l hl]) line (by simp [hline])
    lines

theorem tablesOf_cons {line : List Char} (h : isRow line = false) (lines : List (List Char)) :
    tablesOf (line :: lines) = tablesOf lines := by
  have hsplit := splitOnP_isRow (List.forall_mem_nil _) h lines
  rw [List.nil_append] at hsplit
  rw [tablesOf, hsplit]
  rfl

theorem tablesOf_append {title : List (List Char)} (h : ∀ l ∈ title, isRow l = false)
    (lines : List (List Char)) : tablesOf (title ++ lines) = tablesOf lines := by
  induction title with
  | nil => rfl
  | cons l title ih =>
    rw [List.cons_append, tablesOf_cons (h l List.mem_cons_self)]
    exact ih fun l' hl' => h l' (List.mem_cons_of_mem l hl')

theorem tablesOf_table {table : List (List Char)} (hne : table ≠ [])
    (h : ∀ l ∈ table, isRow l = true) {line : List Char} (hline : isRow line = false)
    (lines : List (List Char)) :
    tablesOf (table ++ line :: lines) = table :: tablesOf lines := by
  rw [tablesOf, splitOnP_isRow h hline, List.filter_cons_of_pos (by simpa using hne)]
  rfl

structure Part where
  title : List (List Char)
  table : List (List Char)

namespace Part

structure Proper (p : Part) : Prop where
  oneLine : ∀ l ∈ p.title ++ p.table, '\n' ∉ l
  title : ∀ l ∈ p.title, isRow l = false
  table : ∀ l ∈ p.table, isRow l = true
  ne_nil : p.table ≠ []

def text (p : Part) : List Char := (p.title ++ p.table).flatMap (· ++ ['\n'])

theorem Proper.tablesOf {p : Part} (h : p.Proper) (rest : List Char) :
    tablesOf ((p.text ++ '\n' :: rest).splitOn '\n') =
      p.table :: Markdown.tablesOf (rest.splitOn '\n') := by
  have hblank : ('\n' :: rest).splitOn '\n' = [] :: rest.splitOn '\n' := by
    have hline : ∀ l ∈ [([] : List Char)], '\n' ∉ l := by simp
    simpa using splitOn_closed hline rest
  rw [text, splitOn_closed h.oneLine, hblank, List.append_assoc, tablesOf_append h.title]
  exact tablesOf_table h.ne_nil h.table rfl _

theorem Proper.tablesOf_last {p : Part} (h : p.Proper) :
    Markdown.tablesOf (p.text.splitOn '\n') = [p.table] := by
  have hsplit := splitOn_closed h.oneLine []
  rw [List.append_nil, List.splitOn_nil] at hsplit
  rw [text, hsplit, List.append_assoc, tablesOf_append h.title]
  exact tablesOf_table h.ne_nil h.table rfl []

end Part

theorem tablesOf_parts {ps : List Part} (h : ∀ p ∈ ps, p.Proper) :
    tablesOf ((['\n'].intercalate (ps.map Part.text)).splitOn '\n') = ps.map Part.table := by
  induction ps with
  | nil => rfl
  | cons p ps ih =>
    have hp := h p List.mem_cons_self
    cases ps with
    | nil => simpa [List.intercalate_singleton] using hp.tablesOf_last
    | cons q ps =>
      rw [List.map_cons, List.map_cons, List.intercalate_cons_cons, List.append_assoc,
        List.singleton_append, hp.tablesOf, ← List.map_cons,
        ih fun r hr => h r (List.mem_cons_of_mem p hr)]
      rfl

end Verdict.Markdown
