import Verdict.Proofs.Cutting
import Verdict.Proofs.Resuming

/-! What a refused text could have gone on with. The text up to the place of the refusal can be
carried on to one that is accepted, unless an option in it has opened a second group: the groups
of an option are counted when all of it is read, so it is read on, and may be refused for another
reason, where nothing can help any more.
-/

set_option autoImplicit false

namespace Verdict

namespace Language

theorem Filler.exists_layout {t : Token} (h : Filler t) : ∃ s, Layout s [t] := by
  have hlayout (text : String) (htext : (scan text).map Lexeme.token = [t])
      (hclean : ∀ c, .stray c ∉ [t]) : ∃ s, Layout s [t] :=
    ⟨text.toList, htext ▸ layout_scanFrom (htext ▸ hclean)⟩
  cases h with
  | name => exact hlayout "x" (by decide +kernel) (by simp)
  | priority => exact hlayout "priority" (by decide +kernel) (by simp)
  | colon => exact hlayout ":" (by decide +kernel) (by simp)
  | rightParen => exact hlayout ")" (by decide +kernel) (by simp)

theorem exists_layout_of_filler {ts : List Token} (h : ∀ t ∈ ts, Filler t) : ∃ s, Layout s ts := by
  induction ts with
  | nil => exact ⟨[], .nil (.none [])⟩
  | cons t ts ih =>
    obtain ⟨ht, hts⟩ := List.forall_mem_cons.1 h
    obtain ⟨s, hs⟩ := ht.exists_layout
    obtain ⟨r, hr⟩ := ih hts
    exact ⟨s ++ '\n' :: r, hs.append hr⟩

theorem leftParen_not_mem_filler {ts : List Token} (h : ∀ t ∈ ts, Filler t) : .leftParen ∉ ts :=
  fun hmem => nomatch h _ hmem

theorem Refusal.exists_cut {text : String} {r : Refusal} {read rest : List Token}
    (hsplit : (scan text).map Lexeme.token = read ++ rest) (hleft : r.left = rest.length)
    (hread : ∀ t ∈ read, ¬ Stray t) :
    ∃ before after, text = before ++ after ∧
      before.utf8ByteSize = r.offset (scan text) text.utf8ByteSize ∧
      (scan before).map Lexeme.token = read := by
  have hlength : (scan text).length = read.length + rest.length := by
    rw [← List.length_map Lexeme.token, hsplit, List.length_append]
  have hcount : (scan text).length - r.left = read.length := by omega
  have htokens : ((scan text).take read.length).map Lexeme.token = read := by
    rw [List.map_take, hsplit, List.take_left]
  unfold Refusal.offset
  rw [hcount]
  dsimp only
  split
  · -- The place is behind what was read, not before what is left.
    cases hn : read.length with
    | zero =>
      obtain rfl := List.eq_nil_of_length_eq_zero hn
      exact ⟨"", text, String.empty_append.symm, rfl, by simp [scan, scanFrom]⟩
    | succ n =>
      obtain ⟨l, hl⟩ : ∃ l, (scan text)[n]? = some l :=
        ⟨_, List.getElem?_eq_getElem (by omega)⟩
      rw [hn] at htokens
      have hlast : l ∈ (scan text).take (n + 1) :=
        List.mem_of_getElem? (by rw [List.getElem?_take_of_lt (Nat.lt_succ_self n), hl])
      have hmem : l.token ∈ read := htokens ▸ List.mem_map_of_mem hlast
      obtain ⟨before, after, htext, hsize, hscan⟩ := exists_cut_behind hl (hread _ hmem)
      refine ⟨before, after, htext, ?_, by rwa [hscan]⟩
      rw [List.getLast?_take, if_neg (Nat.succ_ne_zero n), Nat.add_sub_cancel, hl, hsize]
      rfl
  · cases hl : (scan text)[read.length]? with
    | none =>
      refine ⟨text, "", String.append_empty.symm, rfl, ?_⟩
      rwa [List.take_of_length_le (List.getElem?_eq_none_iff.1 hl)] at htokens
    | some l =>
      obtain ⟨before, after, htext, hsize, hscan⟩ := exists_cut_before hl
      exact ⟨before, after, htext, hsize, by rwa [hscan]⟩

end Language

namespace Spec

open Verdict.Language

theorem eq_of_append_eq {before before' after after' : String}
    (h : before ++ after = before' ++ after') (hsize : before.utf8ByteSize = before'.utf8ByteSize) :
    before = before' := by
  have hbytes := congrArg String.toByteArray h
  rw [String.toByteArray_append, String.toByteArray_append] at hbytes
  exact String.toByteArray_inj.1 (ByteArray.append_inj_left hbytes hsize)

/-- Some text behind this one makes it one that is accepted. -/
def Completable (text : String) : Prop := ∃ more s, parse (text ++ more) = .ok s

theorem not_completable_of_crowded {text : String}
    (h : Crowded ((scan text).map Lexeme.token)) : ¬ Completable text := by
  rintro ⟨more, s, hs⟩
  obtain ⟨kept, lost, others, htext, hlost, hmore⟩ := exists_kept text.toList more.toList 0
  rw [scan, htext] at h
  have hform := parse_eq_ok_iff.1 hs
  rw [scan, String.toList_append, hmore] at hform
  exact hform.not_crowded ((crowded_of_append h hlost).mono (List.prefix_append _ _).isInfix)

theorem completable_of_form {text : String} {more : List Token} {s : Spec}
    (hclean : ∀ c, .stray c ∉ (scan text).map Lexeme.token) (hmore : ∀ t ∈ more, Filler t)
    (h : SpecForm ((scan text).map Lexeme.token ++ more) s) : Completable text := by
  obtain ⟨r, hr⟩ := exists_layout_of_filler hmore
  have hlayout := (layout_scanFrom hclean).append hr
  refine ⟨String.ofList ('\n' :: r), s, parse_eq_ok_iff.2 ?_⟩
  rwa [scan, String.toList_append, String.toList_ofList, hlayout.map_token_scanFrom]

theorem exists_refusal {text : String} {e : SyntaxError} (h : parse text = .error e) :
    ∃ r, ofTokens ((scan text).map Lexeme.token) = .error r ∧ e.reason = r.reason ∧
      e.offset = r.offset (scan text) text.utf8ByteSize := by
  rw [parse] at h
  cases hr : ofTokens ((scan text).map Lexeme.token) with
  | ok s =>
    rw [hr] at h
    cases h
  | error r =>
    rw [hr] at h
    cases h
    exact ⟨r, rfl, rfl, rfl⟩

/-- A refused text can be cut at the place of the refusal. What is before it was read as the start
of domains, which fillers would have finished but for the number of groups. -/
theorem exists_cut_of_refused {text : String} {e : SyntaxError} (h : parse text = .error e) :
    ∃ before after more domains, text = before ++ after ∧ before.utf8ByteSize = e.offset ∧
      (∀ t ∈ more, Filler t) ∧ LooseSpec ((scan before).map Lexeme.token ++ more) domains ∧
      (e.reason = .secondGroup → Crowded ((scan before).map Lexeme.token)) := by
  obtain ⟨r, hr, hreason, hoffset⟩ := exists_refusal h
  obtain @⟨read, rest, more, domains, hsplit, hleft, hmore, hloose, hgroups⟩ := ofTokens_resumes hr
  have hread : ∀ t ∈ read, ¬ Stray t := fun t ht =>
    LooseSpec.avoids_stray hloose t (List.mem_append_left more ht)
  obtain ⟨before, after, htext, hsize, htokens⟩ := Refusal.exists_cut hsplit hleft hread
  rw [← hreason] at hgroups
  subst htokens
  exact ⟨before, after, more, domains, htext, hsize.trans hoffset.symm, hmore, hloose, hgroups⟩

/-- A text is refused at a place between two of its characters. What is before this place can be
carried on to a text that is accepted, unless two parentheses are opened there with neither `option`
nor `domain` between them. They always are if it is the number of groups that is refused. -/
theorem refused_where_completable {text : String} {e : SyntaxError} (h : parse text = .error e) :
    ∃ before after, text = before ++ after ∧ before.utf8ByteSize = e.offset ∧
      (Completable before ↔ ¬ Crowded ((scan before).map Lexeme.token)) ∧
      (e.reason = .secondGroup → Crowded ((scan before).map Lexeme.token)) := by
  obtain ⟨before, after, more, domains, htext, hsize, hmore, hloose, hgroups⟩ :=
    exists_cut_of_refused h
  have hclean : ∀ c, .stray c ∉ (scan before).map Lexeme.token := fun c hc =>
    LooseSpec.avoids_stray hloose _ (List.mem_append_left more hc) ⟨c, rfl⟩
  have hcomplete (hc : ¬ Crowded ((scan before).map Lexeme.token)) : Completable before := by
    have hnot : ¬ Crowded ((scan before).map Lexeme.token ++ more) := fun hm =>
      hc (crowded_of_append hm (leftParen_not_mem_filler hmore))
    obtain ⟨s, hs⟩ := exists_specForm_iff.2 ⟨⟨domains, hloose⟩, hnot⟩
    exact completable_of_form hclean hmore hs
  refine ⟨before, after, htext, hsize, ⟨fun hc hcrowded => ?_, hcomplete⟩, hgroups⟩
  exact not_completable_of_crowded hcrowded hc

theorem refused_where_completable_paid :
    parse "domain: option go: paid and or" = .error ⟨.noTerm, 28⟩ ∧
    Completable "domain: option go: paid and " := by
  have hrefused : parse "domain: option go: paid and or" = .error ⟨.noTerm, 28⟩ := by
    decide +kernel
  obtain ⟨before, after, htext, hsize, hcompletable, -⟩ := refused_where_completable hrefused
  have hsplit : before ++ after = "domain: option go: paid and " ++ "or" := htext.symm
  obtain rfl := eq_of_append_eq hsplit hsize
  exact ⟨hrefused, hcompletable.2 (not_crowded_of_count (by decide +kernel))⟩

/-- Behind the parenthesis of a second group a name is missed, yet no name is of any help. -/
theorem second_group_not_completable :
    parse "domain: option go: (paid) and (" = .error ⟨.noTerm, 31⟩ ∧
    "domain: option go: (paid) and (".utf8ByteSize = 31 ∧
    ¬ Completable "domain: option go: (paid) and (" := by
  refine ⟨by decide +kernel, by decide +kernel, not_completable_of_crowded ?_⟩
  have htokens : (scan "domain: option go: (paid) and (").map Lexeme.token =
      [.word "domain", .colon, .word "option"] ++
        [.word "go", .colon, .leftParen, .word "paid", .rightParen, .word "and", .leftParen] := by
    decide +kernel
  rw [htokens]
  exact ⟨_, (List.suffix_append _ _).isInfix, by decide +kernel, by decide⟩

end Spec

end Verdict
