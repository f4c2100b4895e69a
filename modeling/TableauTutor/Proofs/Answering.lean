import TableauTutor.Proofs.Complaints
import TableauTutor.Proofs.LexerFollows

/-!
What is said about a typed statement. A proof is started for a formula, and about most other sentences one line is said.
The check breaks down on a formula with a negation trailing behind it, and starting a proof lets that through.

- `Session.statements_answered`: the answers to all texts that can be read.
-/

namespace TableauTutor

namespace Sentence

variable {s : Sentence}

theorem Derivable.isGrammatical (h : s.Derivable) : ∀ y ∈ s, y.IsGrammatical := by
  induction h with
  | var hy => exact List.forall_mem_singleton.2 (.inr (.inr (by simp [hy])))
  | negation hy _ ih => exact List.forall_mem_cons.2 ⟨.inr (.inr (by simp [hy])), ih⟩
  | connective _ hy _ ihu ihv =>
    have hkind := List.mem_cons_of_mem "sentvar" (List.mem_cons_of_mem "not" hy)
    exact List.forall_mem_append.2 ⟨ihu, List.forall_mem_cons.2 ⟨.inr (.inr hkind), ihv⟩⟩
  | bracketed _ ih =>
    exact List.forall_mem_append.2 ⟨List.forall_mem_cons.2 ⟨.inl rfl, ih⟩,
      List.forall_mem_singleton.2 (.inr (.inl rfl))⟩

theorem NegationTrails.isGrammatical (h : s.NegationTrails) : ∀ y ∈ s, y.IsGrammatical := by
  obtain ⟨u, y, v, rfl, hu, hy, hv⟩ := h
  refine List.forall_mem_append.2 ⟨hu.isGrammatical, List.forall_mem_cons.2 ⟨.inr (.inr (by simp [hy])),
    fun z hz => ?_⟩⟩
  exact .inr (.inr (List.mem_cons_of_mem _ (hv z hz)))

end Sentence

namespace Calculus

variable {c : Calculus} {x : Lexer} {φ : Sentence}

/-- a text is read as brackets, variables and connectives, unless there is a sign in it -/
theorem grammatical_or_sign (hx : c.HasLexer x) {text : String} {ts : List Token} (ht : x.tokenize text = .ok ts) :
    (∀ y ∈ Sentence.ofTokens ts, y.IsGrammatical) ∨
      c = signed ∧ ∃ y ∈ Sentence.ofTokens ts, Text.startsWith "sign" y.kind = true := by
  by_cases hsign : c = signed ∧ ∃ y ∈ Sentence.ofTokens ts, Text.startsWith "sign" y.kind = true
  · exact .inr hsign
  · refine .inl fun y hy => ?_
    rcases symbol_of_tokenize hx ht hy with h | ⟨hc, hy'⟩
    · exact h.imp id (.imp id fun hl => hl.kind_mem)
    · exact absurd ⟨hc, y, hy, hy'⟩ hsign

/-- a statement with a sign in it is told so, and it is neither a formula nor one with a negation behind it -/
theorem checkSyntax_sign {y : Symbol} (hy : y ∈ φ) (hsign : Text.startsWith "sign" y.kind = true) :
    (∃ m, signed.checkSyntax φ = .ok (some m) ∧ m.default ≠ "") ∧ ¬ φ.Derivable ∧ ¬ φ.NegationTrails := by
  have hnot : ¬ ∀ y ∈ φ, y.IsGrammatical := by
    intro h
    simp [not_sign_of_isGrammatical (h y hy)] at hsign
  refine ⟨?_, fun h => hnot h.isGrammatical, fun h => hnot h.isGrammatical⟩
  have hany : φ.kinds.any (Text.startsWith "sign") = true :=
    List.any_eq_true.2 ⟨y.kind, List.mem_map.2 ⟨y, hy, rfl⟩, hsign⟩
  exact ⟨_, by simp only [checkSyntax, hany, and_self, if_true]; rfl, by simp⟩

/-- **The check of a typed statement** finds no mistake in a formula, breaks down where a negation trails behind one,
and finds a mistake in everything else. -/
theorem checkSyntax_typed (hx : c.HasLexer x) {text : String} {ts : List Token} (ht : x.tokenize text = .ok ts) :
    let φ := Sentence.ofTokens ts
    c.checkSyntax φ = .ok none ∧ φ.Derivable ∨
      (∃ m, c.checkSyntax φ = .ok (some m) ∧ m.default ≠ "") ∧ ¬ φ.Derivable ∧ ¬ φ.NegationTrails ∨
      c.checkSyntax φ = .error .malformed ∧ φ.NegationTrails := by
  intro φ
  rcases grammatical_or_sign hx ht with hφ | ⟨rfl, y, hy, hsign⟩
  · rw [c.checkSyntax_grammatical hφ, ← Sentence.checkSyntax_eq_none_iff hφ]
    rcases Sentence.checkSyntax_answers hφ with ⟨⟨_ | m, hr⟩, hnot⟩ | hfails
    · exact .inl ⟨hr, hr⟩
    · exact .inr (.inl ⟨⟨m, hr, Sentence.default_ne_empty hφ hr⟩, by simp [hr], hnot⟩)
    · exact .inr (.inr hfails)
  · exact .inr (.inl (checkSyntax_sign hy hsign))

end Calculus

namespace Assistant

/-- about a mistake in a statement one line is said: advice, or else the text that comes with the mistake -/
theorem exists_line (a : Assistant) {m : Mistake} (hm : m.default ≠ "") :
    ∃ line, (a.onSyntax m).getD [m.default] = [line] ∧ line ≠ "" := by
  cases a with
  | guide =>
    simp only [onSyntax]
    cases h : syntaxAdvice.lookup m.name with
    | none => exact ⟨_, rfl, hm⟩
    | some advice =>
      have hmem : (m.name, advice) ∈ syntaxAdvice := by
        obtain ⟨before, after, heq, -⟩ := List.lookup_eq_some_iff.1 h
        simp [heq]
      have hall : ∀ q ∈ syntaxAdvice, q.2 ≠ "" := by decide
      exact ⟨advice, rfl, hall _ hmem⟩
  | terse => exact ⟨_, rfl, hm⟩
  | silent => exact ⟨_, rfl, hm⟩

end Assistant

namespace Session

variable {s : Session} {c : Calculus} {text : String} {ts : List Token}

theorem newProof_malformed {f : Fault} (hc : s.calculus = .ok c) (hts : s.lexer.tokenize text = .ok ts)
    (h : c.checkSyntax (.ofTokens ts) = .error f) : exec (newProof text) s = (.error f, s) := by
  simp only [newProof, exec_bind, exec_get, hts, exec_pure, exec_lift, hc, h]

/-- a mistake in a statement is told by the assistant, and the session stays as it is -/
theorem newProof_mistake {a : Assistant} {m : Mistake} (hc : s.calculus = .ok c) (hts : s.lexer.tokenize text = .ok ts)
    (ha : s.assistant = .ok a) (h : c.checkSyntax (.ofTokens ts) = .ok (some m)) :
    exec (newProof text) s = (.ok (some ((a.onSyntax m).getD [m.default])), s) := by
  simp only [newProof, exec_bind, exec_get, hts, exec_pure, exec_lift, hc, h, ha]

/-- **Answers to statements.** The check answers about every sentence of brackets, variables and connectives, except
where a negation and nothing but connectives trail behind a formula. So a text that can be read has a proof started for
it if it is a formula, and a line said about it otherwise, with the same exception. -/
theorem statements_answered (c : Calculus) :
    (∀ φ : Sentence, (∀ y ∈ φ, y.IsGrammatical) →
      (∃ r, c.checkSyntax φ = .ok r) ∧ ¬ φ.NegationTrails ∨ c.checkSyntax φ = .error .malformed ∧ φ.NegationTrails) ∧
    ∀ (s : Session) (a : Assistant) (text : String) (ts : List Token), s.calculus = .ok c → s.makeLexer = .ok s.lexer →
      s.assistant = .ok a → s.lexer.tokenize text = .ok ts →
      let φ := Sentence.ofTokens ts
      φ.Derivable ∧ (∃ p, exec (newProof text) s = (.ok none, { s with proof := some p }) ∧ p.statement = φ) ∨
        ¬ φ.Derivable ∧ ¬ φ.NegationTrails ∧ (∃ line, exec (newProof text) s = (.ok (some [line]), s) ∧ line ≠ "") ∨
        φ.NegationTrails ∧ exec (newProof text) s = (.error .malformed, s) := by
  constructor
  · intro φ hφ
    rw [c.checkSyntax_grammatical hφ]
    exact Sentence.checkSyntax_answers hφ
  · intro s a text ts hc hmade ha hts φ
    rcases Calculus.checkSyntax_typed (hasLexer_of_makeLexer hmade hc) hts with
      ⟨hnone, hφ⟩ | ⟨⟨m, hm, hread⟩, hφ, hnot⟩ | ⟨hfails, hφ⟩
    · have haccepts : s.Accepts c text φ := ⟨hc, hmade, ⟨ts, hts, rfl⟩, hnone⟩
      obtain ⟨_, root, name, -, -, hrun⟩ := exec_newProof haccepts
      exact .inl ⟨hφ, _, hrun, rfl⟩
    · obtain ⟨line, hline, hne⟩ := a.exists_line hread
      exact .inr (.inl ⟨hφ, hnot, line, hline ▸ newProof_mistake hc hts ha hm, hne⟩)
    · exact .inr (.inr ⟨hφ, newProof_malformed hc hts hfails⟩)

/-- when the program has just been started, `p ~` makes it break down; `p and` is told what it
lacks, and a proof of `p` is started -/
theorem statements_answered_trailing_negation : ∃ s, fresh? = some s ∧
    exec (newProof "p ~") s = (.error .malformed, s) ∧
    (∃ line, exec (newProof "p and") s = (.ok (some [line]), s) ∧ line ≠ "") ∧
    ∃ p, exec (newProof "p") s = (.ok none, { s with proof := some p }) := by
  have hrun : (fresh?.bind fun s => s.calculus.toOption.bind fun c => s.assistant.toOption.bind fun a =>
      (s.lexer.tokenize "p ~").toOption.bind fun ts => (s.lexer.tokenize "p and").toOption.bind fun us =>
        (s.lexer.tokenize "p").toOption.map fun vs =>
          (Sentence.ofTokens ts, Sentence.ofTokens us, Sentence.ofTokens vs)) =
      some (["sentvar_p", "not_~"], ["sentvar_p", "and_and"], ["sentvar_p"]) := by decide +kernel
  simp only [Option.bind_eq_some_iff, Option.map_eq_some_iff, Prod.mk.injEq] at hrun
  obtain ⟨s, hs, c, hc, a, ha, ts, hts, us, hus, vs, hvs, hφ, hψ, hχ⟩ := hrun
  have hmade := makeLexer_start (eq_ok_of_toOption hs)
  have hanswers (text : String) (ts : List Token) (hts : (s.lexer.tokenize text).toOption = some ts) :=
    (statements_answered c).2 s a text ts (eq_ok_of_toOption hc) hmade (eq_ok_of_toOption ha) (eq_ok_of_toOption hts)
  have hvar : Sentence.Derivable ["sentvar_p"] := .var (by decide)
  have hopen {y : Symbol} (hkind : y.kind ≠ "sentvar") (hy : y ≠ ")") : ¬ Sentence.Derivable ["sentvar_p", y] := by
    intro h
    obtain ⟨w, z, heq, hz⟩ := h.last
    obtain ⟨-, hyz⟩ := List.append_inj' (show ["sentvar_p"] ++ [y] = w ++ [z] from heq) rfl
    obtain rfl := List.singleton_inj.1 hyz
    exact hz.elim hkind hy
  have hnone {φ : Sentence} (h : ∀ y ∈ φ, y.kind ≠ "not") : ¬ φ.NegationTrails := by
    rintro ⟨u, y, v, rfl, -, hy, -⟩
    exact h y (by simp) hy
  refine ⟨s, hs, ?_, ?_, ?_⟩
  · have h := hanswers "p ~" ts hts
    simp only [hφ] at h
    have htrails : Sentence.NegationTrails ["sentvar_p", "not_~"] :=
      ⟨["sentvar_p"], "not_~", [], rfl, hvar, by decide, by simp⟩
    rcases h with ⟨h, -⟩ | ⟨-, h, -⟩ | ⟨-, h⟩
    · exact absurd h (hopen (by decide) (by decide))
    · exact absurd htrails h
    · exact h
  · have h := hanswers "p and" us hus
    simp only [hψ] at h
    rcases h with ⟨h, -⟩ | ⟨-, -, h⟩ | ⟨h, -⟩
    · exact absurd h (hopen (by decide) (by decide))
    · exact h
    · exact absurd h (hnone (by decide))
  · have h := hanswers "p" vs hvs
    simp only [hχ] at h
    rcases h with ⟨-, p, h, -⟩ | ⟨h, -⟩ | ⟨h, -⟩
    · exact ⟨p, h⟩
    · exact absurd hvar h
    · exact absurd h (hnone (by decide))

end Session

end TableauTutor
