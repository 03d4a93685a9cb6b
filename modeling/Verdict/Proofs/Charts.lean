import Verdict.Chart
import Verdict.Proofs.Footprint
import Verdict.Proofs.Layout
import Verdict.Proofs.Markdown
import Verdict.Proofs.Walks

set_option autoImplicit false

namespace Verdict

namespace Branch

theorem edges_node (w : Conditions) (m f : Branch) (number : Nat) :
    ((node w m f).edges number).1 =
      ⟨number, number + 1, true, m⟩ :: ((m.edges (number + 1)).1 ++
        ⟨number, number + 1 + m.weight, false, f⟩ :: (f.edges (number + 1 + m.weight)).1) := by
  simp only [edges, edges_number]

theorem children_edges (b : Branch) (number : Nat) :
    number :: (b.edges number).1.map Edge.child = List.range' number b.weight := by
  induction b generalizing number with
  | leaf o => rfl
  | node w m f hm hf =>
    rw [edges_node, List.map_cons, List.map_append, List.map_cons, ← List.cons_append, hm, hf,
      List.range'_append_1, weight, List.range'_succ]

theorem branches_edges (b : Branch) (number : Nat) :
    b :: (b.edges number).1.map Edge.branch = b.preorder := by
  induction b generalizing number with
  | leaf o => rfl
  | node w m f hm hf =>
    rw [edges_node, List.map_cons, List.map_append, List.map_cons, ← List.cons_append, hm, hf,
      preorder]

theorem joined_edges {b : Branch} {number : Nat} {e : Edge} (he : e ∈ (b.edges number).1) :
    ∃ p c sides, e.parent = number + p ∧ e.child = number + c ∧ b.walks[p]? = some sides ∧
      b.walks[c]? = some (sides ++ [e.onMatch]) := by
  induction b generalizing number with
  | leaf o => cases he
  | node w m f hm hf =>
    rw [edges_node] at he
    rcases List.mem_cons.1 he with rfl | he
    · exact ⟨0, 1, [], rfl, rfl, rfl, getElem?_walks_match w m f m.getElem?_walks_zero⟩
    rcases List.mem_append.1 he with he | he
    · obtain ⟨p, c, sides, hp, hc, hparent, hchild⟩ := hm he
      exact ⟨p + 1, c + 1, true :: sides, by omega, by omega,
        getElem?_walks_match w m f hparent, getElem?_walks_match w m f hchild⟩
    rcases List.mem_cons.1 he with rfl | he
    · exact ⟨0, m.weight + 0 + 1, [], rfl, by simp only []; omega, rfl,
        getElem?_walks_fail w m f f.getElem?_walks_zero⟩
    · obtain ⟨p, c, sides, hp, hc, hparent, hchild⟩ := hf he
      exact ⟨m.weight + p + 1, m.weight + c + 1, false :: sides, by omega, by omega,
        getElem?_walks_fail w m f hparent, getElem?_walks_fail w m f hchild⟩

theorem labels_eq (b : Branch) : b.labels = b.preorder.map label := by
  induction b with
  | leaf o => rfl
  | node w m f hm hf => simp [labels, preorder, label, hm, hf]

def Worded (b : Branch) : Prop :=
  b.Every (fun want => ∀ c ∈ want.members, Language.IsWord c.name.toList)
    fun outcome => Language.IsWord outcome.name.toList

theorem branch_mem_preorder (b : Branch) {number : Nat} {e : Edge}
    (he : e ∈ (b.edges number).1) : e.branch ∈ b.preorder := by
  rw [← b.branches_edges number]
  exact List.mem_cons_of_mem b (List.mem_map_of_mem he)

theorem Worded.of_mem {b c : Branch} (h : b.Worded) (hc : c ∈ b.preorder) : c.Worded := by
  induction b with
  | leaf outcome => exact List.mem_singleton.1 hc ▸ h
  | node w m f hm hf =>
    rcases List.mem_cons.1 hc with rfl | hc
    · exact h
    rcases List.mem_append.1 hc with hc | hc
    · exact hm h.2.1 hc
    · exact hf h.2.2 hc

end Branch

namespace Chart

open Verdict.Language (IsWord)

def isName (piece : List Char) : Bool := piece != [] && piece != ['&']

def readNames (s : List Char) : List (List Char) := (s.splitOn ' ').filter isName

def sign (c : Char) : Bool := c == '(' || c == ')' || c == '[' || c == ']' || c == '"'

def readLabel (shape : List Char) : Branch.Label :=
  let inner := shape.filter (!sign ·)
  if shape.head? = some '(' then .outcome ⟨String.ofList inner⟩
  else .want (.ofList ((readNames inner).map fun name => ⟨String.ofList name⟩))

def readLine (line : List Char) : Branch.Label := readLabel (line.dropWhile (!sign ·))

/-- Between the two lines that open the block and the one that closes it, there is a line for each
branch. -/
def read (chart : String) : Option Branch :=
  Branch.ofLabels? (((chart.toList.splitOn '\n').drop 2).dropLast.dropLast.map readLine)

theorem isName_word {s : List Char} (h : IsWord s) : isName s = true := by
  have hne : s ≠ [] := by
    rintro rfl
    cases h
  have hamp : s ≠ ['&'] := by
    rintro rfl
    exact h.not_mem (by decide) List.mem_cons_self
  simp [isName, hne, hamp]

theorem readNames_intercalate {names : List (List Char)} (h : ∀ name ∈ names, IsWord name) :
    readNames ([' ', '&', ' '].intercalate names) = names := by
  induction names with
  | nil => rfl
  | cons name names ih =>
    have hname := h name List.mem_cons_self
    have hblank : ' ' ∉ name := hname.not_mem (by decide)
    cases names with
    | nil =>
      have hone : name.splitOn ' ' = [name] := by
        rw [List.splitOn_eq_splitOnP]
        refine List.splitOnP_eq_singleton fun c hc => ?_
        simpa using fun he : c = ' ' => hblank (he ▸ hc)
      rw [List.intercalate_singleton, readNames, hone, List.filter_cons_of_pos (isName_word hname)]
      rfl
    | cons other names =>
      have hclosed : [' ', '&', ' '].intercalate (name :: other :: names) =
          [name, ['&']].flatMap (· ++ [' ']) ++ [' ', '&', ' '].intercalate (other :: names) := by
        simp [List.intercalate_cons_cons]
      have hrest := ih fun n hn => h n (List.mem_cons_of_mem name hn)
      rw [readNames] at hrest
      rw [readNames, hclosed, Markdown.splitOn_closed (by simpa using hblank), List.filter_append,
        hrest, List.filter_cons_of_pos (isName_word hname)]
      rfl

def plain (c : Char) : Bool := !sign c && c != '\n'

theorem plain_of {p : Char → Bool}
    (h : ['(', ')', '[', ']', '"', '\n'].all (!p ·) = true) {c : Char} (hc : p c = true) :
    plain c = true := by
  have hne : ∀ d ∈ ['(', ')', '[', ']', '"', '\n'], c ≠ d := by
    rintro d hd rfl
    have hother := List.all_eq_true.1 h c hd
    simp [hc] at hother
  simpa [plain, sign, and_assoc] using hne

theorem all_plain_word {s : List Char} (h : IsWord s) : s.all plain = true :=
  List.all_eq_true.2 fun c hc =>
    plain_of (by decide) (List.all_eq_true.1 (Language.isWord_iff.1 h).2 c hc)

theorem all_plain_names {names : List (List Char)} (h : ∀ name ∈ names, IsWord name) :
    ([' ', '&', ' '].intercalate names).all plain = true := by
  induction names with
  | nil => rfl
  | cons name names ih =>
    have hname := all_plain_word (h name List.mem_cons_self)
    have hrest := ih fun n hn => h n (List.mem_cons_of_mem name hn)
    cases names with
    | nil => rwa [List.intercalate_singleton]
    | cons other names =>
      rw [List.intercalate_cons_cons, List.all_append, List.all_append, hname, hrest]
      rfl

theorem not_sign_of_plain {s : List Char} (h : s.all plain = true) :
    ∀ c ∈ s, (!sign c) = true := by
  intro c hc
  have hplain := List.all_eq_true.1 h c hc
  rw [plain, Bool.and_eq_true] at hplain
  exact hplain.1

theorem lineFeed_not_mem_of_plain {s : List Char} (h : s.all plain = true) : '\n' ∉ s := by
  intro hm
  cases List.all_eq_true.1 h _ hm

theorem filter_sign {s : List Char} (h : s.all sign = true) : s.filter (!sign ·) = [] :=
  List.filter_eq_nil_iff.2 fun c hc => by simp [List.all_eq_true.1 h c hc]

theorem filter_enclosed {left inner right : List Char} (hl : left.all sign = true)
    (hr : right.all sign = true) (hi : inner.all plain = true) :
    (left ++ inner ++ right).filter (!sign ·) = inner := by
  rw [List.filter_append, List.filter_append, filter_sign hl, filter_sign hr,
    List.filter_eq_self.2 (not_sign_of_plain hi), List.nil_append, List.append_nil]

theorem toList_shape_leaf (outcome : Outcome) :
    (Branch.leaf outcome).shape.toList =
      ['(', '[', '"'] ++ outcome.name.toList ++ ['"', ']', ')'] := by
  simp [Branch.shape]

theorem toList_shape_node (want : Conditions) (m f : Branch) :
    (Branch.node want m f).shape.toList = ['[', '"'] ++
      [' ', '&', ' '].intercalate (want.members.map fun c => c.name.toList) ++ ['"', ']'] := by
  simp [Branch.shape, String.toList_intercalate, Function.comp_def]

theorem mem_words {want : Conditions} (h : ∀ c ∈ want.members, IsWord c.name.toList) :
    ∀ name ∈ want.members.map fun c => c.name.toList, IsWord name := by
  intro name hname
  obtain ⟨c, hc, rfl⟩ := List.mem_map.1 hname
  exact h c hc

theorem readLabel_shape {b : Branch} (h : b.Worded) : readLabel b.shape.toList = b.label := by
  cases b with
  | leaf outcome =>
    have hinner : (['(', '[', '"'] ++ outcome.name.toList ++ ['"', ']', ')']).filter (!sign ·) =
        outcome.name.toList := filter_enclosed rfl rfl (all_plain_word h)
    rw [toList_shape_leaf, readLabel, hinner, String.ofList_toList]
    rfl
  | node want m f =>
    have hwords := mem_words h.1
    have hinner : (['[', '"'] ++ [' ', '&', ' '].intercalate
        (want.members.map fun c => c.name.toList) ++ ['"', ']']).filter (!sign ·) = _ :=
      filter_enclosed rfl rfl (all_plain_names hwords)
    have hback : (want.members.map fun c => c.name.toList).map
        (fun name => (⟨String.ofList name⟩ : Condition)) = want.members := by
      simp [Function.comp_def]
    rw [toList_shape_node, readLabel, hinner, if_neg (by simp), readNames_intercalate hwords,
      hback, Conditions.ofList_members]
    rfl

def start (e : Edge) : String :=
  "    n" ++ toString e.parent ++ " -->|" ++ (if e.onMatch then "Match" else "Fail") ++ "| n" ++
    toString e.child

theorem line_eq (e : Edge) : e.line = "    n" ++ toString e.parent ++ " -->|" ++
    (if e.onMatch then "Match" else "Fail") ++ "| n" ++ toString e.child ++ e.branch.shape ++ "\n" :=
  rfl

theorem all_plain_digits (n : Nat) : (toString n).toList.all plain = true := by
  rw [Nat.toString_eq_repr, Nat.toList_repr]
  exact List.all_eq_true.2 fun c hc =>
    plain_of (by decide) (Nat.isDigit_of_mem_toDigits (by decide) (by decide) hc)

theorem all_plain_start (e : Edge) : (start e).toList.all plain = true := by
  have hside : (if e.onMatch then "Match" else "Fail").toList.all plain = true := by
    cases e.onMatch <;> decide
  have htexts : "    n".toList.all plain = true ∧ " -->|".toList.all plain = true ∧
      "| n".toList.all plain = true := by decide
  simp only [start, String.toList_append, List.all_append, hside, htexts, all_plain_digits,
    Bool.and_self]

theorem readLine_append {front : List Char} (hfront : front.all plain = true) {b : Branch}
    (h : b.Worded) : readLine (front ++ b.shape.toList) = b.label := by
  have hshape : b.shape.toList.dropWhile (!sign ·) = b.shape.toList := by
    cases b with
    | leaf outcome => rw [toList_shape_leaf]; rfl
    | node want m f => rw [toList_shape_node]; rfl
  rw [readLine, List.dropWhile_append_of_pos (not_sign_of_plain hfront), hshape, readLabel_shape h]

theorem lineFeed_not_mem_shape {b : Branch} (h : b.Worded) : '\n' ∉ b.shape.toList := by
  cases b with
  | leaf outcome =>
    have hname := lineFeed_not_mem_of_plain (all_plain_word h)
    rw [toList_shape_leaf]
    simpa using hname
  | node want m f =>
    have hnames := lineFeed_not_mem_of_plain (all_plain_names (mem_words h.1))
    rw [toList_shape_node]
    simpa using hnames

def lines (b : Branch) : List (List Char) :=
  ("    n0".toList ++ b.shape.toList) ::
    (b.edges 0).1.map fun e => (start e).toList ++ e.branch.shape.toList

theorem chart_eq (t : Tree) : t.chart = "```mermaid\ngraph TD\n    n0" ++ t.root.shape ++ "\n" ++
    String.join ((t.root.edges 0).1.map Edge.line) ++ "```\n" :=
  rfl

theorem toList_chart (t : Tree) :
    t.chart.toList = ("```mermaid".toList :: "graph TD".toList ::
      (lines t.root ++ ["```".toList])).flatMap (· ++ ['\n']) := by
  rw [chart_eq]
  simp [lines, start, line_eq, String.toList_join, List.flatMap_map]

theorem lineFeed_not_mem_lines {b : Branch} (h : b.Worded) : ∀ l ∈ lines b, '\n' ∉ l := by
  intro l hl
  rcases List.mem_cons.1 hl with rfl | hl
  · simpa using lineFeed_not_mem_shape h
  · obtain ⟨e, he, rfl⟩ := List.mem_map.1 hl
    have hstart := lineFeed_not_mem_of_plain (all_plain_start e)
    have hshape := lineFeed_not_mem_shape (h.of_mem (b.branch_mem_preorder he))
    simpa using ⟨hstart, hshape⟩

theorem map_readLine_lines {b : Branch} (h : b.Worded) : (lines b).map readLine = b.labels := by
  have hroot : readLine ("    n0".toList ++ b.shape.toList) = b.label :=
    readLine_append (by decide) h
  have hedges : ∀ e ∈ (b.edges 0).1,
      readLine ((start e).toList ++ e.branch.shape.toList) = e.branch.label := fun e he =>
    readLine_append (all_plain_start e) (h.of_mem (b.branch_mem_preorder he))
  have hrest : ((b.edges 0).1.map fun e => (start e).toList ++ e.branch.shape.toList).map readLine =
      ((b.edges 0).1.map Edge.branch).map Branch.label := by
    simpa only [List.map_map, List.map_inj_left, Function.comp_apply] using hedges
  rw [lines, List.map_cons, hroot, hrest, ← List.map_cons, Branch.branches_edges, Branch.labels_eq]

theorem read_chart {t : Tree} (h : t.root.Worded) : read t.chart = some t.root := by
  have hfeeds : ∀ l ∈ "```mermaid".toList :: "graph TD".toList ::
      (lines t.root ++ ["```".toList]), '\n' ∉ l := by
    simp only [List.forall_mem_cons, List.forall_mem_append]
    exact ⟨by simp, by simp, lineFeed_not_mem_lines h, by simp, by simp⟩
  have hsplit := Markdown.splitOn_closed hfeeds []
  rw [List.append_nil, ← toList_chart, List.splitOn_nil] at hsplit
  -- The last line feed leaves an empty piece behind it, and the closing line stands before that.
  have hlines : (((t.chart.toList.splitOn '\n').drop 2).dropLast).dropLast = lines t.root := by
    rw [hsplit, List.cons_append, List.cons_append, List.drop_succ_cons, List.drop_succ_cons,
      List.drop_zero, List.dropLast_concat, List.dropLast_concat]
  rw [read, hlines, map_readLine_lines h, Branch.ofLabels?_labels]

end Chart

/-- A chart that draws a tree whose branches are numbered by their places in pre-order. The root has
the first line, and each other branch one edge, in the order of the numbers: it is drawn from the
branch above it, and says on which side of that it stands. -/
structure Tree.Charted (t : Tree) (edges : List Edge) : Prop where
  text : t.chart = "```mermaid\ngraph TD\n" ++ ("    n0" ++ t.root.shape ++ "\n") ++
    String.join (edges.map fun e => "    n" ++ toString e.parent ++ " -->|" ++
      (if e.onMatch then "Match" else "Fail") ++ "| n" ++ toString e.child ++ e.branch.shape ++
        "\n") ++ "```\n"
  numbers : 0 :: edges.map Edge.child = List.range t.root.descendants.length
  branches : t.root :: edges.map Edge.branch = t.root.descendants
  walks : t.root.walks.map t.root.follow = t.root.descendants.map some
  distinct : t.root.walks.Nodup
  complete : ∀ sides b, t.root.follow sides = some b → sides ∈ t.root.walks
  joined : ∀ e ∈ edges, ∃ sides, t.root.walks[e.parent]? = some sides ∧
    t.root.walks[e.child]? = some (sides ++ [e.onMatch])

theorem Tree.charted (t : Tree) : t.Charted (t.root.edges 0).1 where
  text := by
    have hlines : Edge.line = _ := funext Chart.line_eq
    rw [Chart.chart_eq, hlines]
    simp [← String.toList_inj]
  numbers := by
    rw [Branch.children_edges, Branch.descendants_eq_preorder, Branch.length_preorder,
      List.range_eq_range']
  branches := by rw [Branch.branches_edges, Branch.descendants_eq_preorder]
  walks := t.root.map_follow_walks
  distinct := t.root.nodup_walks
  complete _ _ h := Branch.mem_walks h
  joined e he := by
    obtain ⟨p, c, sides, hp, hc, hparent, hchild⟩ := Branch.joined_edges he
    rw [Nat.zero_add] at hp hc
    exact ⟨sides, hp ▸ hparent, hc ▸ hchild⟩

/-- What a chart does not show of a tree, if its names are words, are only the lists of its
domains. -/
theorem Tree.chart_faithful :
    (∀ t : Tree, ∃ edges, t.Charted edges) ∧
      ∀ t u : Tree, t.root.Worded → u.root.Worded → t.chart = u.chart → t.root = u.root := by
  refine ⟨fun t => ⟨_, t.charted⟩, fun t u ht hu h => ?_⟩
  have hread := Chart.read_chart ht
  rw [h, Chart.read_chart hu] at hread
  exact (Option.some.inj hread).symm

theorem Spec.worded_root {s : Spec} (compact : Bool)
    (hnames : ∀ d ∈ s.domains, ∀ c ∈ d.conditions.members, Language.IsWord c.name.toList)
    (hresults : ∀ d ∈ s.domains, ∀ outcome ∈ d.outcomes, Language.IsWord outcome.name.toList) :
    (s.root compact).Worded := by
  refine (s.every_root compact).imp ?_ ?_
  · intro want hwant c hc
    obtain ⟨d, hd, hcd⟩ := hwant c hc
    exact hnames d hd c hcd
  · rintro outcome (rfl | ⟨d, hd, ho⟩)
    · decide
    · exact hresults d hd outcome ho

/-- A tree that has lost the lists of its domains has the same chart still, and the same root. -/
theorem Tree.chart_faithful_orders :
    ∃ t : Tree, t ≠ Spec.orders.tree true ∧ t.root.Worded ∧ (Spec.orders.tree true).root.Worded ∧
      (∃ edges, t.Charted edges) ∧ t.chart = (Spec.orders.tree true).chart ∧
      t.root = (Spec.orders.tree true).root := by
  have hworded : (Spec.orders.root true).Worded := Spec.worded_root true (by decide) (by decide)
  have hlists : (⟨Spec.orders.root true, [], []⟩ : Tree) ≠ Spec.orders.tree true := by
    intro h
    cases congrArg Tree.conditions h
  exact ⟨⟨Spec.orders.root true, [], []⟩, hlists, hworded, hworded, Tree.chart_faithful.1 _, rfl,
    Tree.chart_faithful.2 _ _ hworded hworded rfl⟩

end Verdict
