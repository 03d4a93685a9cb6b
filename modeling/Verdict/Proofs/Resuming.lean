import Verdict.Proofs.Crowding
import Verdict.Proofs.Parsing

/-! Where the readers of the rule language stop. When one refuses its tokens, those before the
place of the refusal are the start of a case of its form, which a name, a colon or a closing
parenthesis or two would have finished. Only the number of groups in an option is not looked at
before the option ends, so the forms are meant without it.
-/

set_option autoImplicit false

namespace Verdict.Language

theorem bind_eq_error {ε α β : Type} {x : Except ε α} {f : α → Except ε β} {e : ε} :
    (x >>= f) = .error e ↔ x = .error e ∨ ∃ a, x = .ok a ∧ f a = .error e := by
  cases x with
  | error d =>
    constructor
    · exact fun h => Or.inl (congrArg Except.error (Except.error.inj h))
    · rintro (h | ⟨_, h, _⟩)
      · exact congrArg Except.error (Except.error.inj h)
      · cases h
  | ok a =>
    constructor
    · exact fun h => Or.inr ⟨a, rfl, h⟩
    · rintro (h | ⟨_, h, hf⟩)
      · cases h
      · exact Except.ok.inj h ▸ hf

theorem map_eq_error {ε α β : Type} {x : Except ε α} {f : α → β} {e : ε} :
    x.map f = .error e ↔ x = .error e := by
  cases x <;> simp [Except.map]

inductive Filler : Token → Prop where
  | name : Filler (.word "x")
  | priority : Filler (.word "priority")
  | colon : Filler .colon
  | rightParen : Filler .rightParen

/-- The tokens before those that are left are the start of a case of the form, which fillers would
finish. If it is the number of groups that is refused, there are too many among them. -/
inductive Resumes {α : Type} (form : List Token → α → Prop) (ts : List Token) (r : Refusal) :
    Prop where
  | mk {read rest more : List Token} {a : α} (split : ts = read ++ rest)
      (left : r.left = rest.length) (fillers : ∀ t ∈ more, Filler t)
      (finished : form (read ++ more) a) (crowded : r.reason = .secondGroup → Crowded read)

section

variable {α β : Type} {form : List Token → α → Prop} {form' : List Token → β → Prop}
  {ts read rest : List Token} {r : Refusal} {reason : Reason} {a : α}

theorem Resumes.missed (hr : r = ⟨reason, rest.length⟩) (hne : reason ≠ .secondGroup)
    (split : ts = read ++ rest) (more : List Token) (hmore : ∀ t ∈ more, Filler t)
    (h : form (read ++ more) a) : Resumes form ts r :=
  .mk split (by rw [hr]) hmore h fun hs => absurd hs (by rwa [hr])

theorem Resumes.at_start (hr : r = ⟨reason, ts.length⟩) (hne : reason ≠ .secondGroup)
    (more : List Token) (hmore : ∀ t ∈ more, Filler t) (h : form more a) : Resumes form ts r :=
  .missed hr hne (List.nil_append ts).symm more hmore h

/-- A form is resumed where a part of it is, if the rest of it can be supplied. -/
theorem Resumes.within (h : Resumes form ts r) (before after : List Token)
    (hafter : ∀ t ∈ after, Filler t)
    (hf : ∀ us a, form us a → ∃ b, form' (before ++ (us ++ after)) b) :
    Resumes form' (before ++ ts) r := by
  obtain @⟨read, rest, more, a, rfl, left, fillers, finished, crowded⟩ := h
  obtain ⟨b, hb⟩ := hf _ a finished
  have hall : ∀ t ∈ more ++ after, Filler t := fun t ht =>
    (List.mem_append.1 ht).elim (fillers t) (hafter t)
  have hfinished : form' (before ++ read ++ (more ++ after)) b := by
    simpa only [List.append_assoc] using hb
  exact .mk (List.append_assoc before read rest).symm left hall hfinished fun hs =>
    (crowded hs).mono (List.suffix_append before read).isInfix

theorem Resumes.behind (h : Resumes form ts r) (before : List Token)
    (hf : ∀ us a, form us a → ∃ b, form' (before ++ us) b) : Resumes form' (before ++ ts) r :=
  h.within before [] (List.forall_mem_nil _) fun us a ha => by
    rw [List.append_nil]
    exact hf us a ha

end

theorem split_further {ts read rest us vs : List Token} (h : ts = read ++ rest)
    (hrest : rest = us ++ vs) : ts = read ++ us ++ vs := by
  rw [h, hrest, List.append_assoc]

theorem expect_eq_error {accepts : Token → Bool} {reason : Reason} {ts : List Token} {r : Refusal}
    (h : expect accepts reason ts = .error r) : r = ⟨reason, ts.length⟩ := by
  cases ts with
  | nil => exact (Except.error.inj h).symm
  | cons t ts =>
    rw [expect] at h
    split at h
    · cases h
    · exact (Except.error.inj h).symm

theorem name_eq_error {reason : Reason} {ts : List Token} {r : Refusal}
    (h : name reason ts = .error r) : r = ⟨reason, ts.length⟩ := by
  unfold name at h
  split at h
  · split at h
    · cases h
    · exact (Except.error.inj h).symm
  · exact (Except.error.inj h).symm

theorem nameForm_filler : NameForm [.word "x"] "x" := ⟨isName_iff.1 (by decide +kernel)⟩

theorem enclosed_resumes {separates : Token → Bool} {noName noEnd : Reason}
    (hname : noName ≠ .secondGroup) (hend : noEnd ≠ .secondGroup) {ts : List Token} {r : Refusal}
    (h : enclosed separates noName noEnd ts = .error r) :
    Resumes (fun ts ws => ∃ us, Joined NameForm (separates · = true) us ws ∧
      ts = us ++ [.rightParen]) ts r := by
  rcases bind_eq_error.1 h with h | ⟨first, hfirst, h⟩
  · refine .at_start (name_eq_error h) hname [.word "x", .rightParen] ?_
      ⟨_, ⟨nameForm_filler, .nil⟩, rfl⟩
    simp [Filler.name, Filler.rightParen]
  · rcases bind_eq_error.1 h with h | ⟨last, _, h⟩
    · obtain ⟨ns, hn, hts⟩ := (name_covers noName).sound ⟨first.shorter, hfirst⟩
      obtain ⟨us, hu, hrest⟩ := (moreNames_covers separates).sound
        (show moreNamesReads separates first.rest _ _ from ⟨rfl, rfl⟩)
      refine .missed (expect_eq_error h) hend (split_further hts hrest) [.rightParen] ?_
        ⟨_, ⟨hn, hu⟩, rfl⟩
      simp [Filler.rightParen]
    · cases h

theorem term_resumes {ts : List Token} {r : Refusal} (h : term ts = .error r) :
    Resumes TermForm ts r := by
  unfold term at h
  split at h
  · next us =>
    refine (enclosed_resumes (by decide) (by decide) (map_eq_error.1 h)).behind [.leftParen] ?_
    rintro _ names ⟨vs, hv, rfl⟩
    rw [← key_eq] at hv
    exact ⟨_, .group hv⟩
  · refine .at_start (name_eq_error (map_eq_error.1 h)) (by decide) [.word "x"] ?_
      (.condition nameForm_filler)
    simp [Filler.name]

section

variable {α β : Type} {mark : Token → Prop} {form : List Token → β → Prop} {p : Parser α}

theorem resumes_loop (fails : List Token → Refusal → Prop)
    (hs : ∀ ts a rest, p.reads ts a rest → ∃ us b, form us b ∧ ts = us ++ rest)
    (hp : ∀ ts r, p ts = .error r → Resumes form ts r)
    (hloop : ∀ ts r, fails ts r → r = ⟨.leftover, ts.length⟩ ∨ ∃ t us, ts = t :: us ∧ mark t ∧
      (p us = .error r ∨ ∃ step, p us = .ok step ∧ fails step.rest r))
    {ts : List Token} {r : Refusal} (h : fails ts r) :
    Resumes (Several (After mark form)) ts r := by
  rcases hloop ts r h with hstart | ⟨t, us, hts, ht, hround | ⟨step, hstep, hmore⟩⟩
  · exact .at_start hstart (by decide) [] (List.forall_mem_nil _) .nil
  · rw [hts]
    refine (hp us r hround).behind [t] fun vs b hb => ⟨[b], ?_⟩
    have hone : Several (After mark form) (t :: vs ++ []) [b] := .cons ⟨ht, hb⟩ .nil
    rwa [List.append_nil] at hone
  · obtain ⟨vs, b, hb, hus⟩ := hs us step.value step.rest ⟨step.shorter, hstep⟩
    have hsplit : ts = t :: vs ++ step.rest := by rw [hts, List.cons_append, ← hus]
    have hrest := resumes_loop fails hs hp hloop hmore
    rw [hsplit]
    exact hrest.behind (t :: vs) fun ws bs hbs => ⟨b :: bs, .cons ⟨ht, hb⟩ hbs⟩
termination_by ts.length
decreasing_by
  have := step.shorter
  rw [hts, List.length_cons]
  omega

theorem Loops.refused {k : Keyword} {loop : (ts : List Token) → Except Refusal (List α × Place ts)}
    (hl : Loops k p loop) (ts : List Token) (r : Refusal) (h : loop ts = .error r) :
    r = ⟨.leftover, ts.length⟩ ∨ ∃ t us, ts = t :: us ∧ Key k t ∧
      (p us = .error r ∨ ∃ step, p us = .ok step ∧ loop step.rest = .error r) := by
  cases ts with
  | nil => cases hl.nil.symm.trans h
  | cons t ts =>
    by_cases ht : k.isToken t = true
    · refine Or.inr ⟨t, ts, rfl, key_iff.2 ht, ?_⟩
      rw [hl.key t ts ht] at h
      rcases bind_eq_error.1 h with h | ⟨head, hhead, h⟩
      · exact Or.inl h
      · rcases bind_eq_error.1 h with h | ⟨_, _, h⟩
        · exact Or.inr ⟨head, hhead, h⟩
        · cases h
    · cases (hl.other t ts ht).symm.trans h

end

theorem moreTerms_resumes {ts : List Token} {r : Refusal} (h : moreTerms ts = .error r) :
    Resumes (Several (After (Key .and) TermForm)) ts r :=
  resumes_loop (fun ts r => moreTerms ts = .error r)
    (fun _ a _ h => (term_covers.sound ⟨a, h, rfl⟩).imp fun _ hu => ⟨a.parts, hu⟩)
    (fun _ _ => term_resumes)
    moreTerms_loops.refused h

theorem termForm_filler : TermForm [.word "x"] (["x"], []) := .condition nameForm_filler

theorem LooseOption.of_parts {ns us vs : List Token} {name : String}
    {a : List String × List (List String)} {as : List (List String × List (List String))}
    (hn : NameForm ns name) (ha : TermForm us a)
    (has : Several (After (Key .and) TermForm) vs as) :
    LooseOption (ns ++ [.colon] ++ us ++ vs) ((a :: as).flatMap Prod.snd).length := by
  have h : LooseOption (ns ++ .colon :: (us ++ vs)) ((a :: as).flatMap Prod.snd).length :=
    ⟨hn, ha, has⟩
  simpa only [List.append_assoc, List.cons_append, List.nil_append] using h

theorem option_resumes {ts : List Token} {r : Refusal} (h : option ts = .error r) :
    Resumes LooseOption ts r := by
  rcases bind_eq_error.1 h with h | ⟨result, hresult, h⟩
  · refine .at_start (name_eq_error h) (by decide) [.word "x", .colon, .word "x"] ?_
      (.of_parts nameForm_filler termForm_filler .nil)
    simp [Filler.name, Filler.colon]
  obtain ⟨ns, hn, hts⟩ := (name_covers .noOutcome).sound ⟨result.shorter, hresult⟩
  rcases bind_eq_error.1 h with h | ⟨sign, hsign, h⟩
  · refine .missed (expect_eq_error h) (by decide) hts [.colon, .word "x"] ?_
      ⟨hn, termForm_filler, .nil⟩
    simp [Filler.name, Filler.colon]
  have hcolon : ts = _ ++ [.colon] ++ sign.rest :=
    split_further hts (sign_reads_iff.1 ⟨sign.shorter, hsign⟩)
  rcases bind_eq_error.1 h with h | ⟨first, hfirst, h⟩
  · rw [hcolon]
    refine (term_resumes h).behind _ fun us a ha => ⟨([a].flatMap Prod.snd).length, ?_⟩
    have hone := LooseOption.of_parts hn ha .nil
    rwa [List.append_nil] at hone
  obtain ⟨us, hu, hfirst⟩ := term_covers.sound ⟨_, ⟨first.shorter, hfirst⟩, rfl⟩
  have hterm := split_further hcolon hfirst
  rcases bind_eq_error.1 h with h | ⟨⟨others, place⟩, hothers, h⟩
  · rw [hterm]
    exact (moreTerms_resumes h).behind _ fun vs as ha => ⟨_, .of_parts hn hu ha⟩
  -- All of the option is read by now, and it has too many groups.
  obtain ⟨vs, hv, hrest⟩ := moreTerms_covers.sound ⟨_, ⟨place.2, hothers⟩, rfl⟩
  have hall := LooseOption.of_parts hn hu hv
  rw [← List.map_cons, ← countP_isGroup] at hall
  dsimp only at h
  split at h
  · next hcount =>
    cases h
    have hend : LooseOption (ns ++ [.colon] ++ us ++ vs ++ [])
        ((first.value :: others).countP (·.isGroup)) := by
      rwa [List.append_nil]
    exact .mk (split_further hterm hrest) rfl (List.forall_mem_nil _) hend fun _ =>
      hall.crowded hcount
  · cases h

theorem options_resumes {ts : List Token} {r : Refusal} (h : options ts = .error r) :
    Resumes (Several (After (Key .option) LooseOption)) ts r := by
  refine resumes_loop (fun ts r => options ts = .error r) ?_ (fun _ _ => option_resumes)
    options_loops.refused h
  intro ts a rest h
  obtain ⟨us, hu, hts⟩ := option_covers.sound h
  obtain ⟨groups, hloose, -⟩ := hu.loose
  exact ⟨us, groups, hloose, hts⟩

theorem priority_resumes {ts : List Token} {r : Refusal} (h : priority ts = .error r) :
    Resumes PriorityForm ts r := by
  unfold priority at h
  split at h
  · next us =>
    have hnames : Joined NameForm (· = .comma) [.word "x"] ["x"] := ⟨nameForm_filler, .nil⟩
    rcases bind_eq_error.1 h with h | ⟨head, hhead, h⟩
    · have hread : Token.leftParen :: us = [.leftParen] ++ us := rfl
      refine .missed (expect_eq_error h) (by decide) hread
        [.word "priority", .word "x", .rightParen] ?_ (.some (key_iff.2 (by decide +kernel)) hnames)
      simp [Filler.name, Filler.priority, Filler.rightParen]
    rcases bind_eq_error.1 h with h | ⟨_, _, h⟩
    · obtain ⟨t, ht, hus⟩ := expect_reads_iff.1 ⟨head.shorter, hhead⟩
      have hsplit : Token.leftParen :: us = [.leftParen, t] ++ head.rest := congrArg _ hus
      rw [hsplit]
      refine (enclosed_resumes (by decide) (by decide) h).behind _ ?_
      rintro _ names ⟨vs, hv, rfl⟩
      rw [← comma_eq] at hv
      exact ⟨_, .some (key_iff.2 ht) hv⟩
    · cases h
  · cases h

theorem domain_resumes {ts : List Token} {r : Refusal} (h : domain ts = .error r) :
    Resumes LooseDomain ts r := by
  have hfiller : ∀ t ∈ [Token.colon], Filler t := fun _ ht => List.mem_singleton.1 ht ▸ .colon
  rcases bind_eq_error.1 h with h | ⟨⟨order, place⟩, horder, h⟩
  · exact (priority_resumes h).within [] [.colon] hfiller fun _ _ hp => ⟨_, hp, .nil⟩
  obtain ⟨ps, ⟨names, hp, -⟩, hts⟩ := priority_covers.sound ⟨place.2, horder⟩
  rcases bind_eq_error.1 h with h | ⟨sign, hsign, h⟩
  · exact .missed (expect_eq_error h) (by decide) hts [.colon] hfiller ⟨hp, .nil⟩
  have hcolon : ts = _ ++ [.colon] ++ sign.rest :=
    split_further hts (sign_reads_iff.1 ⟨sign.shorter, hsign⟩)
  rcases bind_eq_error.1 h with h | ⟨_, _, h⟩
  · rw [hcolon]
    refine (options_resumes h).behind _ fun us options ho => ⟨options, ?_⟩
    have hdomain : LooseDomain (ps ++ .colon :: us) options := ⟨hp, ho⟩
    simpa using hdomain
  · cases h

theorem domains_refused (ts : List Token) (r : Refusal) (h : domains ts = .error r) :
    r = ⟨.leftover, ts.length⟩ ∨ ∃ t us, ts = t :: us ∧ Key .domain t ∧
      (domain us = .error r ∨ ∃ step, domain us = .ok step ∧ domains step.rest = .error r) := by
  cases ts with
  | nil =>
    rw [domains] at h
    cases h
  | cons t ts =>
    rw [domains] at h
    split at h
    · next ht =>
      refine Or.inr ⟨t, ts, rfl, key_iff.2 ht, ?_⟩
      split at h
      · next hround =>
        cases h
        exact Or.inl hround
      · next step hstep =>
        dsimp only at h
        split at h
        · next hmore =>
          cases h
          exact Or.inr ⟨step, hstep, hmore⟩
        · cases h
    · cases h
      exact Or.inl rfl

theorem domains_resumes {ts : List Token} {r : Refusal} (h : domains ts = .error r) :
    Resumes LooseSpec ts r := by
  refine resumes_loop (fun ts r => domains ts = .error r) ?_ (fun _ _ => domain_resumes)
    domains_refused h
  intro ts d rest h
  obtain ⟨us, hu, hts⟩ := domain_covers.sound h
  obtain ⟨options, hloose⟩ := hu.loose
  exact ⟨us, options, hloose, hts⟩

theorem ofTokens_resumes {ts : List Token} {r : Refusal} (h : Spec.ofTokens ts = .error r) :
    Resumes LooseSpec ts r :=
  domains_resumes (map_eq_error.1 h)

end Verdict.Language
