import Mathlib.Data.Prod.Lex
import Verdict.Proofs.Continuation

set_option autoImplicit false

namespace Verdict

namespace Text

def Boundary (text : String) (offset : Nat) : Prop := String.Pos.Raw.IsValid text ⟨offset⟩

theorem boundary_iff {text : String} {offset : Nat} :
    Boundary text offset ↔
      ∃ before after, text = before ++ after ∧ before.utf8ByteSize = offset := by
  rw [Boundary, String.Pos.Raw.isValid_iff_exists_append]
  constructor
  · rintro ⟨before, after, htext, hoffset⟩
    exact ⟨before, after, htext, (congrArg String.Pos.Raw.byteIdx hoffset).symm⟩
  · rintro ⟨before, after, htext, rfl⟩
    exact ⟨before, after, htext, rfl⟩

theorem utf8ByteSize_eq (s : String) : s.utf8ByteSize = byteLength s.toList := by
  rw [← utf8ByteSize_ofList, String.ofList_toList]

theorem upTo_append (before after : List Char) :
    upTo (byteLength before) (before ++ after) = before := by
  induction before with
  | nil =>
    cases after with
    | nil => rfl
    | cons c after =>
      have hsize : ¬ c.utf8Size ≤ byteLength [] := Nat.not_le_of_gt c.utf8Size_pos
      simp only [List.nil_append, upTo, if_neg hsize]
  | cons c before ih =>
    have hle : c.utf8Size ≤ byteLength (c :: before) := Nat.le_add_right _ _
    have hrest : byteLength (c :: before) - c.utf8Size = byteLength before := by
      rw [byteLength_cons]
      omega
    simp only [List.cons_append, upTo, if_pos hle, hrest, ih]

def place (before : List Char) : Nat × Nat :=
  (before.count '\n' + 1, (before.reverse.takeWhile (· != '\n')).length + 1)

theorem lineColumn_append (before after : String) :
    lineColumn (before ++ after) before.utf8ByteSize = place before.toList := by
  rw [lineColumn, String.toList_append, utf8ByteSize_eq, upTo_append]
  rfl

theorem place_lineFeed (s : List Char) : place (s ++ ['\n']) = ((place s).1 + 1, 1) := by
  simp [place]

theorem place_other {c : Char} (h : c ≠ '\n') (s : List Char) :
    place (s ++ [c]) = ((place s).1, (place s).2 + 1) := by
  simp [place, h]

def LastLine (before last : List Char) : Prop :=
  ∃ lines, before = lines ++ last ∧ (lines = [] ∨ ∃ s, lines = s ++ ['\n']) ∧ '\n' ∉ last

theorem exists_lastLine (before : List Char) :
    ∃ last, LastLine before last ∧ (place before).2 = last.length + 1 := by
  induction before using List.reverseRecOn with
  | nil => exact ⟨[], ⟨[], rfl, Or.inl rfl, by simp⟩, rfl⟩
  | append_singleton s c ih =>
    by_cases hc : c = '\n'
    · subst hc
      refine ⟨[], ⟨s ++ ['\n'], by simp, Or.inr ⟨s, rfl⟩, by simp⟩, ?_⟩
      rw [place_lineFeed]
      rfl
    · obtain ⟨last, ⟨lines, rfl, hlines, hlast⟩, hcolumn⟩ := ih
      refine ⟨last ++ [c], ⟨lines, by simp, hlines, by simp [hlast, Ne.symm hc]⟩, ?_⟩
      rw [place_other hc, hcolumn, List.length_append]
      rfl

theorem place_lt_singleton (s : List Char) (c : Char) :
    toLex (place s) < toLex (place (s ++ [c])) := by
  rw [Prod.Lex.toLex_lt_toLex]
  by_cases hc : c = '\n'
  · subst hc
    rw [place_lineFeed]
    exact Or.inl (Nat.lt_succ_self _)
  · rw [place_other hc]
    exact Or.inr ⟨rfl, Nat.lt_succ_self _⟩

theorem place_lt_append (s : List Char) {more : List Char} (h : more ≠ []) :
    toLex (place s) < toLex (place (s ++ more)) := by
  induction more using List.reverseRecOn with
  | nil => contradiction
  | append_singleton more c ih =>
    rw [← List.append_assoc]
    by_cases hmore : more = []
    · rw [hmore, List.append_nil]
      exact place_lt_singleton s c
    · exact (ih hmore).trans (place_lt_singleton (s ++ more) c)

theorem lineColumn_lt {text : String} {o₁ o₂ : Nat} (h₁ : Boundary text o₁) (h₂ : Boundary text o₂)
    (h : o₁ < o₂) : toLex (lineColumn text o₁) < toLex (lineColumn text o₂) := by
  obtain ⟨before, after, rfl, rfl⟩ := boundary_iff.1 h₁
  obtain ⟨before', after', htext, rfl⟩ := boundary_iff.1 h₂
  rw [lineColumn_append, htext, lineColumn_append]
  rw [utf8ByteSize_eq, utf8ByteSize_eq] at h
  have hchars : before.toList ++ after.toList = before'.toList ++ after'.toList := by
    rw [← String.toList_append, htext, String.toList_append]
  rcases List.append_eq_append_iff.1 hchars with ⟨more, hmore, -⟩ | ⟨more, hmore, -⟩
  · rw [hmore]
    refine place_lt_append _ fun hnil => ?_
    rw [hmore, hnil, List.append_nil] at h
    omega
  · rw [hmore, byteLength_append] at h
    omega

/-- The line and the column of the place behind a text, both counted from one: one line for each
line feed, and one column for each character behind the last of them. -/
structure Located (before : String) (place : Nat × Nat) : Prop where
  line_pos : 1 ≤ place.1
  column_pos : 1 ≤ place.2
  line : place.1 = before.toList.count '\n' + 1
  column : ∃ last, LastLine before.toList last ∧ place.2 = last.length + 1

theorem located_lineColumn (before after : String) :
    Located before (lineColumn (before ++ after) before.utf8ByteSize) := by
  rw [lineColumn_append]
  constructor
  case line_pos => exact Nat.le_add_left _ _
  case column_pos => exact Nat.le_add_left _ _
  case line => rfl
  case column => exact exists_lastLine before.toList

theorem lineColumn_injective {text : String} {o₁ o₂ : Nat} (h₁ : Boundary text o₁)
    (h₂ : Boundary text o₂) (h : lineColumn text o₁ = lineColumn text o₂) : o₁ = o₂ := by
  rcases lt_trichotomy o₁ o₂ with hlt | heq | hgt
  · exact absurd (congrArg toLex h) (lineColumn_lt h₁ h₂ hlt).ne
  · exact heq
  · exact absurd (congrArg toLex h.symm) (lineColumn_lt h₂ h₁ hgt).ne

theorem positions_unambiguous (text : String) :
    (∀ o₁ o₂, Boundary text o₁ → Boundary text o₂ → o₁ < o₂ →
      toLex (lineColumn text o₁) < toLex (lineColumn text o₂)) ∧
    (∀ o₁ o₂, Boundary text o₁ → Boundary text o₂ →
      lineColumn text o₁ = lineColumn text o₂ → o₁ = o₂) ∧
    (∀ before after, text = before ++ after →
      Located before (lineColumn text before.utf8ByteSize)) ∧
    ∀ e, Spec.parse text = .error e → Boundary text e.offset := by
  refine ⟨fun o₁ o₂ h₁ h₂ => lineColumn_lt h₁ h₂, fun o₁ o₂ => lineColumn_injective, ?_,
    fun e he => ?_⟩
  · rintro before after rfl
    exact located_lineColumn before after
  · obtain ⟨before, after, -, -, htext, hsize, -⟩ := Spec.exists_cut_of_refused he
    exact boundary_iff.2 ⟨before, after, htext, hsize⟩

theorem positions_unambiguous_umlauts :
    Spec.parse "# größer\ndomain: option go; paid" = .error ⟨.noColonInOption, 28⟩ ∧
    Boundary "# größer\ndomain: option go; paid" 28 ∧
    toLex (1, 6) < toLex (2, 18) ∧
    lineColumn "# größer\ndomain: option go; paid" 6 = (1, 6) ∧
    lineColumn "# größer\ndomain: option go; paid" 28 = (2, 18) := by
  obtain ⟨hlt, -, -, hrefused⟩ := positions_unambiguous "# größer\ndomain: option go; paid"
  have hparse : Spec.parse "# größer\ndomain: option go; paid" = .error ⟨.noColonInOption, 28⟩ := by
    decide +kernel
  have hsix : Boundary "# größer\ndomain: option go; paid" 6 :=
    boundary_iff.2 ⟨"# grö", "ßer\ndomain: option go; paid", by decide +kernel, by decide +kernel⟩
  have hplaces : lineColumn "# größer\ndomain: option go; paid" 6 = (1, 6) ∧
      lineColumn "# größer\ndomain: option go; paid" 28 = (2, 18) := by decide +kernel
  have hbefore := hlt 6 28 hsix (hrefused _ hparse) (by decide)
  rw [hplaces.1, hplaces.2] at hbefore
  exact ⟨hparse, hrefused _ hparse, hbefore, hplaces⟩

end Text

end Verdict
