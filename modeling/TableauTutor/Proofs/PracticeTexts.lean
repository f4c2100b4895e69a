import TableauTutor.Command.Performance
import TableauTutor.Proofs.Practice
import TableauTutor.Proofs.Statement

/-!
Texts of formulas that are made up. The lexems of a formula are shown with blanks between them, so each is read by
itself, and it is read as it was made up, but for the variable `v`, which is read as a disjunction. Variables are made
up in the order that the letters are listed in; if they are listed by the alphabet, `v` comes up as the 22nd.

- `made_up_readable`: tokens, and the answers of the command for practice formulas.
-/

namespace TableauTutor

namespace Calculus

open Lexer WordTable

variable {c : Calculus} {x : Lexer} {s f : Sentence} {y : Symbol} {kind : String} {q r : String × List Char}

/-! ## Symbols that are read again -/

theorem symbol_inj (hq : q ∈ c.words) (hr : r ∈ c.words) :
    Symbol.of q.1 (String.ofList q.2) = Symbol.of r.1 (String.ofList r.2) ↔ q = r := by
  constructor
  · intro h
    have hkind := congrArg Symbol.kind h
    have hlexem := congrArg Symbol.lexem h
    rw [kind_word hq, kind_word hr] at hkind
    rw [lexem_word hq, lexem_word hr, String.ofList_inj] at hlexem
    exact Prod.ext hkind hlexem
  · rintro rfl
    rfl

theorem variable_v_mem (c : Calculus) : ("sentvar", ['v']) ∈ c.words := mem_words_sentvar (by decide)

theorem symbol_eq_v (hr : r ∈ c.words) : Symbol.of r.1 (String.ofList r.2) = "sentvar_v" ↔ r = ("sentvar", ['v']) :=
  symbol_inj hr (variable_v_mem c)

theorem exists_token (hy : c.IsSymbol y) :
    ∃ t, c.words.Makes t ∧ t.lexem = y.lexem ∧ (Symbol.ofToken t = y ↔ y ≠ "sentvar_v") := by
  rcases hy with rfl | rfl | ⟨r, hr, rfl⟩
  · exact ⟨.leftBracket, .inl rfl, by decide, by decide⟩
  · exact ⟨.rightBracket, .inr (.inl rfl), by decide, by decide⟩
  · have hall : ∀ r ∈ c.words, ∃ q ∈ c.words, c.words.front? q.2 = some q ∧ q.2 = r.2 ∧
        (q = r ↔ r ≠ ("sentvar", ['v'])) := by
      cases c <;> decide
    obtain ⟨q, hq, hfront, hsame, hiff⟩ := hall r hr
    refine ⟨token q, .inr (.inr ⟨q, hfront, rfl⟩), ?_, ?_⟩
    · rw [lexem_word hr, ← hsame]
      rfl
    · rw [ne_eq, symbol_eq_v hr, ← ne_eq, ← hiff]
      exact symbol_inj hq hr

theorem exists_makes (hf : ∀ y ∈ f, c.IsSymbol y) : ∃ ts : List Token, (∀ t ∈ ts, c.words.Makes t) ∧
    ts.map (·.lexem) = f.map Symbol.lexem ∧ (Sentence.ofTokens ts = f ↔ "sentvar_v" ∉ f) := by
  induction f with
  | nil => exact ⟨[], by simp, rfl, by simp [Sentence.ofTokens]⟩
  | cons y f ih =>
    obtain ⟨hy, hf⟩ := List.forall_mem_cons.1 hf
    obtain ⟨t, hmake, hlexem, hiff⟩ := exists_token hy
    obtain ⟨ts, hmakes, hlexems, hrest⟩ := ih hf
    refine ⟨t :: ts, List.forall_mem_cons.2 ⟨hmake, hmakes⟩, by rw [List.map_cons, List.map_cons, hlexem, hlexems], ?_⟩
    rw [Sentence.ofTokens, List.map_cons, List.cons.injEq, hiff, List.mem_cons, not_or]
    exact and_congr ne_comm hrest

/-- **A formula in words.** Set apart by blanks, the lexems of a sentence can be read; they are read as the sentence
again unless the variable `v` is in it. -/
theorem exists_tokens (hx : c.HasLexer x) (hf : ∀ y ∈ f, c.IsSymbol y) :
    ∃ ts, x.tokenize (Text.join " " (f.map Symbol.lexem)) = .ok ts ∧ (Sentence.ofTokens ts = f ↔ "sentvar_v" ∉ f) := by
  obtain ⟨hknows, hcase⟩ := knows_words hx
  obtain ⟨ts, hmakes, hlexems, hiff⟩ := exists_makes hf
  refine ⟨ts, ?_, hiff⟩
  rw [hknows.tokenize_eq_ok_iff hcase, Text.join, ← hlexems]
  exact cut_spaced hknows.proper hmakes

/-! ## Tokens that are made up -/

/-- what is made up for symbols of the calculus is one of them, and it is read again unless it is `v` -/
theorem readsBack_generate (hx : c.HasLexer x) (hs : ∀ y ∈ s, c.IsSymbol y) (h : s.generate x kind = .ok y) :
    c.IsSymbol y ∧ y.kind = kind ∧ (x.ReadsBack kind y.lexem ↔ y ≠ "sentvar_v") := by
  obtain ⟨w, hw, rfl⟩ := word_of_generate hx hs h
  refine ⟨isSymbol_of_mem_words hw, kind_word hw, ?_⟩
  rw [lexem_word hw, readsBack_iff hx hw, ne_eq, ne_eq, ← symbol_eq_v hw]

theorem isSymbol_of_tokenize (hx : c.HasLexer x) {text : String} {ts : List Token} (h : x.tokenize text = .ok ts) :
    ∀ y ∈ Sentence.ofTokens ts, c.IsSymbol y := by
  obtain ⟨hknows, hcase⟩ := knows_words hx
  intro y hy
  obtain ⟨t, ht, rfl⟩ := List.mem_map.1 hy
  rcases ((hknows.tokenize_eq_ok_iff hcase).1 h).token_mem ht with rfl | rfl | ⟨r, hr, rfl⟩
  · exact .inl rfl
  · exact .inr (.inl rfl)
  · exact isSymbol_of_mem_words (front?_mem hr)

/-- letters in some order, up to `v` and behind it -/
theorem exists_split_v {order : List Char} (horder : order.Perm letters) :
    ∃ before behind, order = before ++ 'v' :: behind ∧ 'v' ∉ before ∧ order.take (order.idxOf 'v') = before := by
  obtain ⟨before, behind, rfl, hnew⟩ := List.eq_append_cons_of_mem (horder.symm.subset (by decide : 'v' ∈ letters))
  exact ⟨before, behind, rfl, hnew, by rw [List.idxOf_append_of_notMem hnew, List.idxOf_cons_self, Nat.add_zero,
    List.take_left]⟩

theorem nextLetter?_eq_v {order : List Char} (horder : order.Perm letters) {used : List String} :
    nextLetter? order used = some 'v' ↔
      "v" ∉ used ∧ ∀ a ∈ order.take (order.idxOf 'v'), String.singleton a ∈ used := by
  obtain ⟨before, behind, hsplit, hnew, htake⟩ := exists_split_v horder
  rw [nextLetter?, htake, hsplit]
  constructor
  · intro h
    refine ⟨by simpa using List.find?_some h, fun a ha => ?_⟩
    by_contra hunused
    -- a letter before `v` that is not used would be found first
    obtain ⟨b, hb⟩ : ∃ b, before.find? (fun a => !used.contains (String.singleton a)) = some b :=
      Option.isSome_iff_exists.1 (List.find?_isSome.2 ⟨a, ha, by simpa using hunused⟩)
    rw [List.find?_append, hb, Option.some_or] at h
    obtain rfl := Option.some.inj h
    exact hnew (List.mem_of_find?_eq_some hb)
  · rintro ⟨hv, hused⟩
    have hnone : before.find? (fun a => !used.contains (String.singleton a)) = none := by
      rw [List.find?_eq_none]
      intro a ha
      simpa using hused a ha
    rw [List.find?_append, hnone, Option.none_or, List.find?_cons_of_pos (by simpa using hv)]

theorem generate_v_iff {order : List Char} (horder : InOrder x order) (tokens : List (String × String)) :
    x.generate tokens "sentvar" = .ok ("sentvar", "v") ↔
      "v" ∉ tokens.map (·.2) ∧ ∀ a ∈ order.take (order.idxOf 'v'), String.singleton a ∈ tokens.map (·.2) := by
  rw [horder.generate, ← nextLetter?_eq_v horder.perm, nextVariable]
  cases nextLetter? order (tokens.map (·.2)) with
  | none => simp
  | some a =>
    have hv : String.singleton a = "v" ↔ a = 'v' := String.singleton_inj (d := 'v')
    simp [hv]

theorem v_notMem_firstVariables {order : List Char} (horder : order.Perm letters) {n : Nat} (hn : n ≤ order.idxOf 'v') :
    "sentvar_v" ∉ firstVariables order n := by
  obtain ⟨before, behind, -, hnew, htake⟩ := exists_split_v horder
  intro hmem
  obtain ⟨a, ha, heq⟩ := List.mem_map.1 hmem
  have hbefore : a ∈ before := htake ▸ List.take_subset_take_left order hn ha
  obtain rfl : a = 'v' := symbol_injective heq
  exact hnew hbefore

end Calculus

namespace Session

variable {s s' : Session} {c : Calculus} {length vars : Int}

theorem exec_genFormula (hc : s.calculus = .ok c) : exec (genFormula length vars) s =
    ((exec (c.practice s.lexer length vars) s.draws).1,
      { s with draws := (exec (c.practice s.lexer length vars) s.draws).2 }) := by
  simp only [genFormula, exec_bind, exec_get, exec_lift, hc]
  rfl

/-- the command that makes up a formula -/
def genCommand (length vars : Int) : Act Reply := Command.perform ⟨.gen, .each [.number length, .number vars]⟩

theorem exec_genCommand_iff (hc : s.calculus = .ok c) {reply : Reply} :
    exec (genCommand length vars) s = (.ok reply, s') ↔
    ∃ f d, exec (c.practice s.lexer length vars) s.draws = (.ok f, d) ∧ exec (genFormula length vars) s = (.ok f, s') ∧
      s' = { s with draws := d } ∧ reply = .text (Text.join " " (f.map Symbol.lexem)) := by
  have hformula : exec (genFormula length vars) s = _ := exec_genFormula hc
  have hcommand : genCommand length vars = genFormula length vars >>= fun f =>
      pure (.text (Text.join " " (List.map Symbol.lexem f))) := rfl
  constructor
  · intro h
    rw [hcommand] at h
    rcases hf : exec (c.practice s.lexer length vars) s.draws with ⟨e | f, d⟩ <;> rw [hf] at hformula
    · rw [exec_bind_error hformula] at h
      cases h
    · rw [exec_bind_ok hformula, exec_pure] at h
      cases h
      exact ⟨f, d, rfl, hformula, rfl, rfl⟩
  · rintro ⟨f, d, -, hf, rfl, rfl⟩
    rw [hcommand, exec_bind_ok hf, exec_pure]

end Session

namespace Calculus

open Lexer Session

variable {c : Calculus} {x : Lexer}

/-- **What is made up can be read**, however it is picked among the spellings. A spelling of a kind is read as one token
of the kind, unless it is the variable `v`. So is a token that is made up, if it is not like one that was there already.
A sentence that was read is made of symbols of the calculus, and stays so when a symbol is made up for it; the new
symbol is read again, unless it is `v`. The letters are listed in some order, each of them once, and the variable `v`
comes up when all letters before it are used. The command for practice formulas answers exactly if one to 26 variables
are asked for. Its text can be read, and is read as the formula exactly if `v` is not in it, which it cannot be with at
most as many variables as there are letters before `v`. -/
theorem made_up_readable {speller : Speller} (hlexer : c.lexer? speller = some x) :
    (∀ kind w, x.CanSpell kind w → (x.ReadsBack kind (String.ofList w) ↔ (kind, w) ≠ ("sentvar", ['v']))) ∧
    (∀ tokens kind k l, x.generate tokens kind = .ok (k, l) → k = kind ∧
      (kind ≠ "sentvar" ∧ (kind, l) ∈ tokens ∨ (x.ReadsBack kind l ↔ (kind, l) ≠ ("sentvar", "v")))) ∧
    (∀ text ts, x.tokenize text = .ok ts → ∀ y ∈ Sentence.ofTokens ts, c.IsSymbol y) ∧
    (∀ (s : Sentence) kind y, (∀ z ∈ s, c.IsSymbol z) → s.generate x kind = .ok y →
      c.IsSymbol y ∧ y.kind = kind ∧ (x.ReadsBack kind y.lexem ↔ y ≠ "sentvar_v")) ∧
    ∃ order : List Char, order.Perm letters ∧ (speller.find? = Pattern.find? → order = letters) ∧
      (∀ tokens, x.generate tokens "sentvar" = .ok ("sentvar", "v") ↔
        "v" ∉ tokens.map (·.2) ∧ ∀ a ∈ order.take (order.idxOf 'v'), String.singleton a ∈ tokens.map (·.2)) ∧
      ∀ (s : Session) (length vars : Int), s.calculus = .ok c → s.lexer = x →
        ((∃ reply s', exec (genCommand length vars) s = (.ok reply, s')) ↔ 1 ≤ vars ∧ vars ≤ 26) ∧
        ∀ reply s', exec (genCommand length vars) s = (.ok reply, s') → ∃ f text ts,
          exec (genFormula length vars) s = (.ok f, s') ∧ reply = .text text ∧ x.tokenize text = .ok ts ∧
            (Sentence.ofTokens ts = f ↔ "sentvar_v" ∉ f) ∧ (vars ≤ order.idxOf 'v' → "sentvar_v" ∉ f) := by
  have hx := hasLexer_of_lexer? hlexer
  obtain ⟨order, horder, hletters⟩ := exists_order hx
  rw [speller_of_lexer? hlexer] at hletters
  refine ⟨fun kind w hw => readsBack_iff hx (words_of_canSpell hx hw), fun tokens kind k l h => ?_,
    fun text ts => isSymbol_of_tokenize hx, fun s kind y => readsBack_generate hx, order, horder.perm, hletters,
    generate_v_iff horder, fun s length vars hc hsame => ⟨⟨?_, ?_⟩, ?_⟩⟩
  · obtain ⟨rfl, hword | hcopy⟩ := words_of_generate hx h
    · refine ⟨rfl, .inr ?_⟩
      have hiff := readsBack_iff hx hword
      have hv : l.toList = ['v'] ↔ l = "v" := @String.toList_inj l "v"
      rwa [String.ofList_toList, ne_eq, Prod.mk.injEq, hv, ← Prod.mk.injEq] at hiff
    · exact ⟨rfl, .inl hcopy⟩
  · rintro ⟨reply, s', h⟩
    obtain ⟨f, d, hf, -⟩ := (exec_genCommand_iff hc).1 h
    obtain ⟨hlow, hhigh, -⟩ := written_of_practice hx horder (hsame ▸ hf)
    exact ⟨hlow, hhigh⟩
  · rintro ⟨hlow, hhigh⟩
    obtain ⟨f, d, a, hf, -⟩ := exists_practice hx horder length hlow hhigh s.draws
    rw [← hsame] at hf
    exact ⟨_, _, (exec_genCommand_iff hc).2 ⟨f, d, hf, by rw [exec_genFormula hc, hf], rfl, rfl⟩⟩
  · intro reply s' h
    obtain ⟨f, d, hf, hformula, -, rfl⟩ := (exec_genCommand_iff hc).1 h
    obtain ⟨-, -, a, ha⟩ := written_of_practice hx horder (hsame ▸ hf)
    obtain ⟨ts, hts, hiff⟩ := exists_tokens hx ha.isSymbol
    refine ⟨f, _, ts, hformula, rfl, hts, hiff, fun hfew hmem => ?_⟩
    exact v_notMem_firstVariables horder.perm (by omega) (ha.mem_vars _ hmem (by decide))

/-- by the alphabet the 22nd variable is `v`, and the formula that is nothing but this
variable is read as a disjunction sign -/
theorem made_up_readable_v : ∃ x s s' text ts, signed.lexer? .orderly = some x ∧ s.lexer = x ∧
    exec (genFormula 0 22) s = (.ok ["sentvar_v"], s') ∧ exec (genCommand 0 22) s = (.ok (.text text), s') ∧
      x.tokenize text = .ok ts ∧ Sentence.ofTokens ts ≠ ["sentvar_v"] := by
  have hall : ((signed.lexer? .orderly).map fun x => (exec (signed.practice x 0 22) { numbers := [21] }).1.toOption) =
      some (some ["sentvar_v"]) := by decide +kernel
  obtain ⟨x, hx, hdrawn⟩ := Option.map_eq_some_iff.1 hall
  let s : Session := { signedSession with lexer := x, draws := { numbers := [21] } }
  have hc : s.calculus = .ok .signed := rfl
  obtain ⟨-, -, -, -, order, -, -, -, hgen⟩ := made_up_readable hx
  obtain ⟨haccepted, hread⟩ := hgen s 0 22 hc rfl
  obtain ⟨reply, s', h⟩ := haccepted.2 ⟨by decide, by decide⟩
  obtain ⟨f, text, ts, hformula, rfl, hts, hiff, -⟩ := hread reply s' h
  obtain rfl : f = ["sentvar_v"] := by
    have hf := (Prod.ext_iff.1 ((exec_genFormula hc).symm.trans hformula)).1
    exact Except.ok.inj (hf.symm.trans (eq_ok_of_toOption hdrawn))
  exact ⟨x, s, s', text, ts, hx, rfl, hformula, h, hts, fun heq => absurd (hiff.1 heq) (by simp)⟩

end Calculus

end TableauTutor
