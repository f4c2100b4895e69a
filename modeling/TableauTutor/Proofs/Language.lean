import TableauTutor.Proofs.Reading

/-!
The languages of the two calculi. A text that a lexer of a calculus cuts into tokens, and that has no signs in it, is a
sentence of propositional logic; and the lexer of the signed calculus can make up a negation and both signs.
-/

namespace TableauTutor

theorem mem_insertBy {α : Type} {precedes : α → α → Bool} {a b : α} {xs : List α} :
    b ∈ insertBy precedes a xs ↔ b = a ∨ b ∈ xs := by
  induction xs with
  | nil => simp [insertBy]
  | cons x xs ih =>
    rw [insertBy]
    split
    · simp
    · rw [List.mem_cons, ih, List.mem_cons, or_left_comm]

theorem mem_sortBy {α : Type} {precedes : α → α → Bool} {b : α} {xs : List α} : b ∈ sortBy precedes xs ↔ b ∈ xs := by
  induction xs with
  | nil => simp [sortBy]
  | cons x xs ih =>
    rw [sortBy, List.foldr_cons, ← sortBy, mem_insertBy, ih, List.mem_cons]

namespace Lexer

theorem kind_of_mem_readRules {fuel : Nat} {rules : List (String × String)} {r : String × Pattern}
    (h : r ∈ readRules fuel rules) : ∃ q ∈ rules, r.1 = tokenKind q.1 := by
  induction fuel generalizing rules with
  | zero => simp [readRules] at h
  | succ fuel ih =>
    have hhalves (h : r ∈ readRules fuel (rules.take (rules.length / 2)) ++
      readRules fuel (rules.drop (rules.length / 2))) : ∃ q ∈ rules, r.1 = tokenKind q.1 := by
      rcases List.mem_append.1 h with h | h
      · obtain ⟨q, hq, hr⟩ := ih h
        exact ⟨q, List.mem_of_mem_take hq, hr⟩
      · obtain ⟨q, hq, hr⟩ := ih h
        exact ⟨q, List.mem_of_mem_drop hq, hr⟩
    simp only [readRules] at h
    split at h
    · split at h
      · have := (List.of_mem_zip h).1
        simpa [eq_comm] using this
      · exact hhalves h
    · exact hhalves h

theorem build_eq {x : Lexicon} {s : Selection} {l : Lexer} (h : build x s = .ok l) :
    l.making = makingTexts x s ∧ l.fresh = x.freshKinds ∧
      ∀ r ∈ l.reading, r.1 ∈ (readingTexts x s).map fun q => tokenKind q.1 := by
  simp only [build, bind, Except.bind, pure, Except.pure] at h
  split at h
  · simp at h
  split at h
  · simp [throw, throwThe, MonadExceptOf.throw] at h
  obtain rfl := Except.ok.inj h
  refine ⟨rfl, rfl, fun r hr => ?_⟩
  obtain ⟨q, hq, hk⟩ := kind_of_mem_readRules hr
  exact List.mem_map.2 ⟨q, (List.mem_filter.1 (mem_sortBy.1 hq)).1, hk.symm⟩

/-- a token of a lexer is a bracket, or of one of the kinds that the lexer reads -/
def Makes (x : Lexer) (t : Token) : Prop :=
  t = Token.leftBracket ∨ t = Token.rightBracket ∨ ∃ r ∈ x.reading, ∃ l, t = ⟨r.1, l, false⟩

theorem makes_tokenOf {x : Lexer} {r : String × Pattern} (hr : r ∈ x.reading) (cs : List Char) :
    x.Makes (tokenOf r.1 cs) := by
  unfold tokenOf
  split
  · exact .inl rfl
  · exact .inr (.inl rfl)
  · exact .inr (.inr ⟨r, hr, _, rfl⟩)

theorem makes_firstMatch? {x : Lexer} {s s' : Pattern.Place} {t : Token} {rules : List (String × Pattern)}
    (hrules : ∀ r ∈ rules, r ∈ x.reading) (h : firstMatch? s rules = some (some t, s')) : x.Makes t := by
  induction rules with
  | nil => simp [firstMatch?] at h
  | cons r rules ih =>
    simp only [firstMatch?] at h
    split at h
    · split at h
      · simp at h
      · obtain ⟨rfl, -⟩ : tokenOf r.1 _ = t ∧ _ := by simpa using h
        exact makes_tokenOf (hrules r List.mem_cons_self) _
    · exact ih (fun q hq => hrules q (List.mem_cons_of_mem _ hq)) h

theorem makes_next? {x : Lexer} {s s' : Pattern.Place} {t : Token} (h : x.next? s = some (some t, s')) : x.Makes t := by
  unfold next? at h
  split at h
  · rename_i m hm
    exact makes_firstMatch? (fun r hr => hr) (hm.trans h)
  · split at h
    · rename_i c cs _
      split at h
      · rename_i hc
        simp only [Option.some.injEq, Prod.mk.injEq] at h
        obtain ⟨rfl, -⟩ := h
        simp only [isBracket, Bool.or_eq_true, beq_iff_eq] at hc
        rcases hc with rfl | rfl
        · exact .inl rfl
        · exact .inr (.inl rfl)
      · simp at h
    · simp at h

/-- **Tokens of a text.** Every token that a lexer makes of a text is a bracket or of a kind that it reads. -/
theorem makes_of_scan {x : Lexer} {s : Pattern.Place} {ts : List Token} (h : x.scan s = .ok ts) :
    ∀ t ∈ ts, x.Makes t := by
  fun_induction scan x s generalizing ts with
  | case1 => simp_all
  | case2 s c cs hrest hgap ih => exact ih h
  | case3 => simp at h
  | case4 s c cs hrest hgap t s' hnext hlt ih =>
    cases hrec : scan x s' with
    | error e => simp [hrec] at h
    | ok us =>
      simp only [hrec, ok_bind, pure_ok, Except.ok.injEq] at h
      subst h
      intro u hu
      rcases List.mem_append.1 hu with hu | hu
      · obtain rfl : t = some u := by simpa using hu
        exact makes_next? hnext
      · exact ih hrec u hu
  | case5 => simp at h

/-- the words that a written pattern stands for -/
def spellings? (text : String) : Option (List (List Char)) :=
  (Pattern.read false text).toOption.bind Pattern.words?

theorem better_cases (xs : List String) (best : Option (String × Nat)) (x : String) :
    ∃ b, better xs best x = some b ∧ (b.1 = x ∨ best = some b) := by
  unfold better
  split
  · split
    · exact ⟨_, rfl, .inl rfl⟩
    · exact ⟨_, rfl, .inr rfl⟩
  · exact ⟨_, rfl, .inl rfl⟩

/-- a token of a kind that need not be fresh: the way it is written most, or else one of the words for the kind -/
theorem generate_eq {x : Lexer} {kind text : String} {ws : List (List Char)} (hmake : x.making.lookup kind = some text)
    (hfresh : kind ∉ x.fresh) (hwords : spellings? text = some ws) (tokens : List (String × String)) :
    ∃ l, x.generate tokens kind = .ok (kind, l) ∧ ((∀ t ∈ tokens, t.1 ≠ kind) → l.toList ∈ ws) := by
  obtain ⟨p, hread, hwords⟩ := Option.bind_eq_some_iff.1 hwords
  have hread : Pattern.read false text = .ok p := by
    cases h : Pattern.read false text <;> simp_all [Except.toOption]
  obtain ⟨w, hw, hpick⟩ := x.speller.pick_mem [] tokens p ws hwords
  have hf : x.fresh.contains kind = false := by simpa using hfresh
  simp only [generate, hmake, hf, Bool.false_eq_true, if_false]
  split
  · rename_i l hl
    refine ⟨l, rfl, fun hnone => ?_⟩
    have : tokens.filter (·.1 == kind) = [] := by
      rw [List.filter_eq_nil_iff]
      intro t ht
      simpa using hnone t ht
    simp [this, mostFrequent?] at hl
  · refine ⟨String.ofList w, ?_, fun _ => by rwa [String.toList_ofList]⟩
    simp [hread, hpick, Except.mapError, pure_ok]

end Lexer

namespace Calculus

/-- the kinds of tokens in the languages of a calculus -/
def tokenKinds : Calculus → List String
  | unsigned => Symbol.letterKinds
  | signed => "signtrue" :: "signfalse" :: Symbol.letterKinds

variable {c : Calculus} {x : Lexer}

/-- the lexer is the calculus's own, whatever its speller -/
def HasLexer (c : Calculus) (x : Lexer) : Prop := c.lexer? x.speller = some x

theorem hasLexer_of_lexer? {speller : Speller} (h : c.lexer? speller = some x) : c.HasLexer x := by
  obtain ⟨l, hl, rfl⟩ := Option.map_eq_some_iff.1 h
  exact h

theorem speller_of_lexer? {speller : Speller} (h : c.lexer? speller = some x) : x.speller = speller := by
  obtain ⟨l, -, rfl⟩ := Option.map_eq_some_iff.1 h
  rfl

theorem exists_lexer? (c : Calculus) (speller : Speller) : ∃ x, c.lexer? speller = some x := by
  have hbuilt : (Lexer.build? .classic { languages := c.tags }).isSome = true := by cases c <;> decide +kernel
  obtain ⟨l, hl⟩ := Option.isSome_iff_exists.1 hbuilt
  exact ⟨_, by rw [lexer?, hl]; rfl⟩

theorem exists_lexer (c : Calculus) : ∃ x, c.HasLexer x := (c.exists_lexer? .orderly).imp fun _ => hasLexer_of_lexer?

theorem HasLexer.turn (hx : c.HasLexer x) (i : Nat) : c.HasLexer (x.turn i) := by
  obtain ⟨l, hl, heq⟩ := Option.map_eq_some_iff.1 hx
  rw [HasLexer, lexer?, hl, ← heq]
  rfl

theorem HasLexer.eq_built (hx : c.HasLexer x) :
    x.making = Lexer.makingTexts .classic { languages := c.tags } ∧ x.fresh = Lexicon.classic.freshKinds ∧
      ∀ r ∈ x.reading, r.1 ∈ c.tokenKinds := by
  obtain ⟨l, hl, heq⟩ := Option.map_eq_some_iff.1 hx
  have hbuild : Lexer.build .classic { languages := c.tags } = .ok l := by
    rw [Lexer.build?] at hl
    cases h : Lexer.build .classic { languages := c.tags } with
    | error e => simp [h, Except.toOption] at hl
    | ok l => simpa [h, Except.toOption] using hl
  obtain ⟨hmake, hfresh, hread⟩ := Lexer.build_eq hbuild
  rw [← heq]
  refine ⟨hmake, hfresh, fun r hr => ?_⟩
  have hkinds : ∀ k ∈ (Lexer.readingTexts .classic { languages := c.tags }).map (fun q => Lexer.tokenKind q.1),
      k ∈ c.tokenKinds := by
    cases c <;> decide +kernel
  exact hkinds _ (hread r hr)

theorem underscore_notMem_tokenKinds {k : String} (hk : k ∈ c.tokenKinds) : '_' ∉ k.toList := by
  have : ∀ k ∈ c.tokenKinds, '_' ∉ k.toList := by cases c <;> decide
  exact this k hk

theorem mem_tokenKinds {k : String} (hk : k ∈ c.tokenKinds) :
    k ∈ Symbol.letterKinds ∨ c = signed ∧ Text.startsWith "sign" k = true := by
  cases c with
  | unsigned => exact .inl hk
  | signed =>
    simp only [tokenKinds, List.mem_cons] at hk
    rcases hk with rfl | rfl | hk
    · exact .inr ⟨rfl, by decide⟩
    · exact .inr ⟨rfl, by decide⟩
    · exact .inl (by simpa using hk)

theorem symbol_of_tokenize (hx : c.HasLexer x) {text : String} {ts : List Token}
    (ht : x.tokenize text = .ok ts) {y : Symbol}
    (hy : y ∈ Sentence.ofTokens ts) : y.InLanguage ∨ c = signed ∧ Text.startsWith "sign" y.kind = true := by
  obtain ⟨t, htmem, rfl⟩ := List.mem_map.1 hy
  rcases Lexer.makes_of_scan ht t htmem with rfl | rfl | ⟨r, hr, l, rfl⟩
  · exact .inl (.inl rfl)
  · exact .inl (.inr (.inl rfl))
  · have hk := hx.eq_built.2.2 r hr
    have hkind : Symbol.kind (.of r.1 l) = r.1 := Symbol.kind_of (underscore_notMem_tokenKinds hk) l
    rcases mem_tokenKinds hk with hletter | ⟨hc, hsign⟩
    · exact .inl (.inr (.inr ⟨r.1, hletter, l, rfl⟩))
    · exact .inr ⟨hc, hkind.symm ▸ hsign⟩

/-- **Statements.** A text that the lexer of a calculus cuts into tokens and that passes the syntax check of the
calculus is a sentence of propositional logic. -/
theorem inLanguage_of_tokenize (hx : c.HasLexer x) {text : String} {ts : List Token} (ht : x.tokenize text = .ok ts)
    (hs : c.checkSyntax (.ofTokens ts) = .ok none) : Sentence.InLanguage (.ofTokens ts) := by
  intro y hy
  rcases symbol_of_tokenize hx ht hy with h | ⟨rfl, hsign⟩
  · exact h
  · have hany : (Sentence.kinds (.ofTokens ts)).any (Text.startsWith "sign") = true :=
      List.any_eq_true.2 ⟨y.kind, List.mem_map.2 ⟨y, hy, rfl⟩, hsign⟩
    simp [checkSyntax, hany, pure_ok] at hs

/-- the sign in front of what is held to be true, and the one in front of what is held to be false -/
def trueSign : Symbol := .of "signtrue" "T"

def falseSign : Symbol := .of "signfalse" "F"

theorem generate_eq_of (hx : c.HasLexer x) (kind text : String) (ws : List (List Char))
    (hmake : (Lexer.makingTexts .classic { languages := c.tags }).lookup kind = some text)
    (hfresh : kind ∉ Lexicon.classic.freshKinds) (hwords : Lexer.spellings? text = some ws) (s : Sentence) :
    ∃ l, s.generate x kind = .ok (.of kind l) ∧ ((∀ y ∈ s, y.kind ≠ kind) → l.toList ∈ ws) := by
  obtain ⟨hm, hf, -⟩ := hx.eq_built
  rw [← hm] at hmake
  rw [← hf] at hfresh
  obtain ⟨l, hl, hnone⟩ := Lexer.generate_eq hmake hfresh hwords (s.map fun y => (y.kind, y.lexem))
  refine ⟨l, by simp [Sentence.generate, hl, Except.map, Outcome.ofLexicon, Except.mapError], fun h => hnone ?_⟩
  intro t ht
  obtain ⟨y, hy, rfl⟩ := List.mem_map.1 ht
  exact h y hy

theorem generate_not (hx : signed.HasLexer x) (s : Sentence) : ∃ l, s.generate x "not" = .ok (.of "not" l) := by
  obtain ⟨l, hl, -⟩ := generate_eq_of hx "not" "(~)|(not)|(\\!)" [['~'], "not".toList, ['!']] (by decide +kernel)
    (by decide +kernel) (by decide +kernel) s
  exact ⟨l, hl⟩

theorem kind_ne_sign {s : Sentence} (hs : s.InLanguage) : ∀ y ∈ s, y.kind ≠ "signtrue" ∧ y.kind ≠ "signfalse" := by
  intro y hy
  rcases hs y hy with rfl | rfl | hl
  · decide
  · decide
  · have hk := hl.kind_mem
    constructor
    · rintro h
      rw [h] at hk
      exact absurd hk (by decide)
    · rintro h
      rw [h] at hk
      exact absurd hk (by decide)

theorem generate_sign (hx : signed.HasLexer x) {s : Sentence} (hs : s.InLanguage) :
    s.generate x "signtrue" = .ok trueSign ∧ s.generate x "signfalse" = .ok falseSign := by
  obtain ⟨l, hl, hT⟩ := generate_eq_of hx "signtrue" "(T)" [['T']] (by decide +kernel) (by decide +kernel)
    (by decide +kernel) s
  obtain ⟨m, hm, hF⟩ := generate_eq_of hx "signfalse" "(F)" [['F']] (by decide +kernel) (by decide +kernel)
    (by decide +kernel) s
  obtain rfl : l = "T" := String.toList_inj.1 (List.mem_singleton.1 (hT fun y hy => (kind_ne_sign hs y hy).1))
  obtain rfl : m = "F" := String.toList_inj.1 (List.mem_singleton.1 (hF fun y hy => (kind_ne_sign hs y hy).2))
  exact ⟨hl, hm⟩

end Calculus

end TableauTutor
