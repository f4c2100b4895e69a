import Mathlib.Data.List.Sublists
import TableauTutor.Formula.Basic
import TableauTutor.Proofs.LongestWords

/-!
The lexers of the classic lexicon, for any choice of languages. None of them has quantifiers, since the lexems for these
cannot be read; all others look for words. No word has a blank in it, so a text is cut in the same way once blanks stand
between its tokens.

- `tokens_spaced`: tokenizing loses nothing but blanks, and blanks between the tokens do not change them.
- `longest_lexem`: when the longest lexem is taken, and when a word typed alone is read as what it was declared for.
-/

namespace TableauTutor

namespace Lexer

namespace WordTable

variable {tb : WordTable} {cs : List Char} {t : Token} {ts : List Token}

/-! ## Tokens set apart -/

/-- **Nothing is lost but blanks.** The tokens of a text, one after the other, are the text without its blanks. -/
theorem Cut.lossless (htb : tb.Proper) (h : tb.Cut cs ts) :
    ts.flatMap (·.lexem.toList) = cs.filter fun c => !blanks.contains c := by
  induction h with
  | done => rfl
  | blank hc _ ih => rw [ih, List.filter_cons_of_neg (by simpa using hc)]
  | @word r cs ts hr _ ih =>
    have hkept : r.2.filter (fun c => !blanks.contains c) = r.2 :=
      List.filter_eq_self.2 fun c hc => by simpa using ((htb r (front?_mem hr)).2.2 c hc).1
    rw [List.flatMap_cons, ih, List.filter_append, hkept]
    simp [token]
  | @bracket c cs ts hc _ ih =>
    have hkept : (!blanks.contains c) = true := by
      simp only [isBracket, Bool.or_eq_true, beq_iff_eq] at hc
      rcases hc with rfl | rfl <;> decide
    rw [List.flatMap_cons, ih, List.filter_cons, if_pos hkept]
    simp [Token.literal]

/-- a bracket, or a word that is found when it stands alone -/
def Makes (tb : WordTable) (t : Token) : Prop :=
  t = Token.leftBracket ∨ t = Token.rightBracket ∨ ∃ r, tb.front? r.2 = some r ∧ t = token r

theorem Proper.blank_notMem_followers (htb : tb.Proper) (w : List Char) : ' ' ∉ tb.followers w := by
  intro hmem
  obtain ⟨q, hq, hsome⟩ := List.mem_filterMap.1 hmem
  split at hsome
  · exact ((htb q hq).2.2 ' ' (List.mem_of_getElem? hsome)).1 (by decide)
  · cases hsome

theorem Cut.cons_token (htb : tb.Proper) (ht : tb.Makes t) (hcs : ∀ a ∈ cs.head?, a = ' ') (h : tb.Cut cs ts) :
    tb.Cut (t.lexem.toList ++ cs) (t :: ts) := by
  rcases ht with rfl | rfl | ⟨r, hr, rfl⟩
  · exact .bracket (by decide) h
  · exact .bracket (by decide) h
  · have hlexem : (token r).lexem.toList = r.2 := String.toList_ofList
    rw [hlexem]
    refine .word (front?_append hr fun a ha => ?_) h
    rw [hcs a ha]
    exact htb.blank_notMem_followers r.2

/-- **Tokens set apart.** With a blank between two, tokens are cut from each other again. -/
theorem cut_spaced (htb : tb.Proper) (hts : ∀ t ∈ ts, tb.Makes t) :
    tb.Cut (" ".intercalate (ts.map (·.lexem))).toList ts := by
  induction ts with
  | nil => exact .done
  | cons t ts ih =>
    obtain ⟨ht, hts⟩ := List.forall_mem_cons.1 hts
    cases ts with
    | nil => simpa using Cut.cons_token htb ht (by simp) .done
    | cons u ts =>
      have hapart := Cut.cons_token htb ht (by simp) (.blank (by decide) (ih hts) : tb.Cut (' ' :: _) _)
      simpa [String.intercalate_cons_cons] using hapart

end WordTable

open WordTable

/-! ## The lexers of the classic lexicon -/

/-- the languages of the classic lexicon that can be read -/
def readableTags : List String := ["signed", "propositional", "uses negation", "sequent calculus"]

/-- the written patterns of these languages in the order in which they are tried -/
def classicTexts : List (String × String) :=
  [("and", "(oraz)|(and)|(\\^)|(&)"), ("or", "(v)|(or)|(lub)|(\\|)"), ("not", "(~)|(not)|(\\!)"), ("imp", "(imp)|(->)"),
    ("turnstile", "(\\|-)|(=>)"), ("falsum", "(bot)|(F)"), ("sentvar", "([a-z])"), ("sep", "(;)"), ("signfalse", "(F)"),
    ("signtrue", "(T)")]

variable {tags others : List String} {x : Lexer}

/-- the classic lexicon has five languages -/
theorem admits_congr (htags : ∀ tag ∈ "predicate" :: readableTags, tag ∈ tags ↔ tag ∈ others) {r : LexicalRule}
    (hr : r ∈ Lexicon.classic.rules) :
    Selection.admits { languages := tags } r = Selection.admits { languages := others } r := by
  have hall : ∀ r ∈ Lexicon.classic.rules,
      Selection.admits { languages := "predicate" :: readableTags, withReadOnly := true } r = true := by decide
  obtain ⟨hlanguages, -⟩ := (Selection.admits_iff _ _).1 (hall r hr)
  have hin : r.InLanguages tags ↔ r.InLanguages others :=
    forall₂_congr fun tag htag => htags tag (hlanguages tag htag)
  rw [Bool.eq_iff_iff, Selection.admits_iff, Selection.admits_iff, hin]

/-- quantifiers cannot be read: a backslash before the bracket that closes a lexem leaves it open -/
theorem predicate_notMem (hx : build .classic { languages := tags } = .ok x) : "predicate" ∉ tags := by
  intro hmem
  have hlexems : Lexicon.classic.lexemsOf { languages := tags } "forall" = ["forall", "/\\", "A"] := by
    simp [Lexicon.lexemsOf, Lexicon.classic, Selection.admits, Selection.allows, hmem]
  have htext : (readingTexts .classic { languages := tags }).lookup "forall" = some "(forall)|(A)|(/\\)" := by
    rw [lookup_readingTexts, hlexems]
    decide
  have htried : ("forall", "(forall)|(A)|(/\\)") ∈ triedRules .classic { languages := tags } :=
    mem_sortBy.2 (List.mem_filter.2 ⟨mem_of_lookup_eq htext, by decide⟩)
  have hcheck : checkRule ("forall", "(forall)|(A)|(/\\)") = .ok false := by decide +kernel
  rw [(build_eq_ok hx).2 _ htried] at hcheck
  cases hcheck

theorem dialect_proper (tags : List String) : (dialect tags).Proper := by
  have hall : classicWords.Proper := by decide
  exact fun r hr => hall r (List.mem_filter.1 hr).1

/-- only four languages matter, whatever else is asked for -/
theorem filter_admits_eq (hpred : "predicate" ∉ tags) :
    Lexicon.classic.rules.filter (Selection.admits { languages := tags }) =
    Lexicon.classic.rules.filter (Selection.admits { languages := readableTags.filter (tags.contains ·) }) := by
  refine List.filter_congr fun r hr => admits_congr (fun tag htag => ?_) hr
  rcases List.mem_cons.1 htag with rfl | htag
  · simp [hpred, readableTags]
  · simp [htag]

theorem lookup_ignore (tags : List String) : (readingTexts .classic { languages := tags }).lookup "ignore" = none := by
  have hkinds : ∀ r ∈ Lexicon.classic.rules, r.kind ≠ "ignore" := by decide
  have hlexems : Lexicon.classic.lexemsOf { languages := tags } "ignore" = [] := by
    simpa [Lexicon.lexemsOf] using fun r hr hkind => absurd hkind (hkinds r hr)
  rw [lookup_readingTexts, hlexems]
  rfl

theorem needsCasing_classic : Lexicon.classic.needsCasing = true := by decide +kernel

/-- the words that the patterns list when they are read together, for each choice of languages that can be read -/
theorem table?_dialect (htags : tags ∈ readableTags.sublists) :
    table? (readRules (triedRules .classic { languages := tags }).length (triedRules .classic { languages := tags })) =
      some (dialect tags) := by
  -- the texts come first: once they are written out, choices of languages that begin alike share what has been read
  have htried : ∀ tags ∈ readableTags.sublists,
      triedRules .classic { languages := tags } = classicTexts.filter fun r => speaks tags r.1 := by decide +kernel
  have hwords : ∀ tags ∈ readableTags.sublists,
      table? (readRules (classicTexts.filter fun r => speaks tags r.1).length
        (classicTexts.filter fun r => speaks tags r.1)) = some (dialect tags) := by decide +kernel
  rw [htried tags htags]
  exact hwords tags htags

/-- **The words of the languages asked for.** A lexer of the classic lexicon looks for them, and for nothing else. -/
theorem knows_dialect (hx : build .classic { languages := tags } = .ok x) :
    x.Knows (dialect tags) ∧ x.casing = true := by
  have hrules := filter_admits_eq (predicate_notMem hx)
  have hreadable : readableTags.filter (tags.contains ·) ∈ readableTags.sublists :=
    List.mem_sublists.2 List.filter_sublist
  have htried : triedRules .classic { languages := tags } =
      triedRules .classic { languages := readableTags.filter (tags.contains ·) } := by
    simp only [triedRules, readingTexts, lexemsFor, hrules]
  have hdialect : dialect tags = dialect (readableTags.filter (tags.contains ·)) := by
    simp only [dialect, speaks, hrules]
  obtain ⟨rfl, -⟩ := build_eq_ok hx
  refine ⟨⟨?_, ?_, dialect_proper tags⟩, by simp only [needsCasing_classic]⟩
  · rw [htried, hdialect]
    exact table?_dialect hreadable
  · simp only [lookup_ignore]
    rfl

theorem exists_sequent_lexer : ∃ x, build .classic { languages := ["propositional", "sequent calculus"] } = .ok x := by
  have hbuild : (build? .classic { languages := ["propositional", "sequent calculus"] }).isSome = true := by
    decide +kernel
  obtain ⟨x, hx⟩ := Option.isSome_iff_exists.1 hbuild
  exact ⟨x, eq_ok_of_toOption hx⟩

theorem Knows.tokenize_eq_ok_iff {tb : WordTable} {text : String} {ts : List Token} (hx : x.Knows tb)
    (hcasing : x.casing = true) : x.tokenize text = .ok ts ↔ tb.Cut text.toList ts := by
  rw [tokenize, if_pos hcasing]
  exact hx.scan_eq_ok_iff

/-- **Tokenizing is lossless and stable.** The lexems of the tokens, one after the other, are the text without its
blanks and tabs, and the text of the formula, with a blank between two lexems, is read as the same tokens. -/
theorem tokens_spaced {σ : Type} {f : Formula σ} {text : String} (hx : build .classic { languages := tags } = .ok x)
    (h : x.tokenize text = .ok f.tokens) :
    String.join f.lexems = String.ofList (text.toList.filter fun c => c != ' ' && c != '\t') ∧
      x.tokenize f.text = .ok f.tokens := by
  obtain ⟨hknows, hcasing⟩ := knows_dialect hx
  have hcut := (hknows.tokenize_eq_ok_iff hcasing).1 h
  constructor
  · have hlossless := hcut.lossless hknows.proper
    refine String.toList_injective ?_
    rw [String.toList_join, String.toList_ofList, Formula.lexems, List.flatMap_map, hlossless]
    exact List.filter_congr fun c _ => by simp [blanks, bne, beq_eq_decide]
  · rw [hknows.tokenize_eq_ok_iff hcasing]
    exact cut_spaced hknows.proper fun t ht => hcut.token_mem ht

/-- an implication after a disjunction is not read as a turnstile, and a tab is as good as a blank -/
theorem tokens_spaced_sequent : ∃ x, ∃ f : Formula Rat,
    build .classic { languages := ["propositional", "sequent calculus"] } = .ok x ∧
      f.kinds = ["sentvar", "or", "imp", "sentvar", "(", "falsum", ")"] ∧ x.tokenize "p|->q\t( bot)" = .ok f.tokens ∧
      String.join f.lexems = "p|->q(bot)" ∧ x.tokenize "p | -> q ( bot )" = .ok f.tokens := by
  obtain ⟨x, hx⟩ := exists_sequent_lexer
  obtain ⟨hknows, hcasing⟩ := knows_dialect hx
  let f : Formula Rat := ⟨[token ("sentvar", ['p']), token ("or", ['|']), token ("imp", ['-', '>']),
    token ("sentvar", ['q']), .leftBracket, token ("falsum", ['b', 'o', 't']), .rightBracket], []⟩
  have htext : "p|->q\t( bot)".toList =
      ['p'] ++ (['|'] ++ (['-', '>'] ++ (['q'] ++ ('\t' :: '(' :: ' ' :: (['b', 'o', 't'] ++ [')']))))) := by decide
  have hcut : (dialect ["propositional", "sequent calculus"]).Cut "p|->q\t( bot)".toList f.tokens := by
    rw [htext]
    refine .word (r := ("sentvar", ['p'])) (by decide) (.word (r := ("or", ['|'])) (by decide) ?_)
    refine .word (r := ("imp", ['-', '>'])) (by decide) (.word (r := ("sentvar", ['q'])) (by decide) ?_)
    refine .blank (by decide) (.bracket (by decide) (.blank (by decide) ?_))
    exact .word (r := ("falsum", ['b', 'o', 't'])) (by decide) (.bracket (by decide) .done)
  have hread := (hknows.tokenize_eq_ok_iff hcasing).2 hcut
  obtain ⟨hjoin, hagain⟩ := tokens_spaced hx hread
  exact ⟨x, f, hx, by decide, hread, hjoin.trans (by decide), hagain⟩

/-- **The longest lexem.** A token is taken wherever a lexem matches, and it is one of the lexems that match; a bracket
is taken where none does. The token is as long as any lexem that matches, except at a turnstile written with a bar where
there are disjunctions as well. A word typed alone is read as one token of the kind that it was declared for, except for
this turnstile, the variable `v`, which is a disjunction, and the sign `F` where there is a falsum. -/
theorem longest_lexem (hx : build .classic { languages := tags } = .ok x) :
    (∀ s,
      (∀ kind w, Offers tags s kind w → ∃ t s', x.next? s = some (some t, s')) ∧
      ∀ t s', x.next? s = some (some t, s') →
        (Offers tags s t.kind t.lexem.toList ∨ t.isLiteral = true ∧ ∀ kind w, ¬ Offers tags s kind w) ∧
        ((∀ kind w, Offers tags s kind w → w.length ≤ t.lexem.length) ↔
          ¬ ("propositional" ∈ tags ∧ "sequent calculus" ∈ tags ∧ ['|', '-'] <+: s.rest))) ∧
    ∀ kind w, Offers tags ⟨[], w⟩ kind w →
      (x.tokenize (String.ofList w) = .ok [⟨kind, String.ofList w, false⟩] ↔
        ¬ ((kind, w) = ("turnstile", ['|', '-']) ∧ "propositional" ∈ tags ∨ (kind, w) = ("sentvar", ['v']) ∨
          (kind, w) = ("signfalse", ['F']) ∧ "sequent calculus" ∈ tags)) := by
  obtain ⟨hknows, hcasing⟩ := knows_dialect hx
  have hpred := predicate_notMem hx
  simp only [offers_iff hpred]
  refine ⟨fun s => ⟨fun kind w ⟨hmem, hpre⟩ => ?_, fun t s' hnext => ?_⟩, fun kind w ⟨hmem, _⟩ => ?_⟩
  · obtain ⟨r, hr⟩ := exists_front? hmem hpre
    exact ⟨_, _, hknows.next?_word hr⟩
  · rcases hknows.next?_cases hnext with ⟨r, hr, ht, -⟩ | ⟨c, cs, hnone, hrest, hbracket, ht, -⟩
    · obtain rfl := Option.some.inj ht
      refine ⟨.inl ?_, ?_⟩
      · simpa [token] using ⟨front?_mem hr, front?_prefix hr⟩
      · simpa [token] using front?_longest_iff hr
    · obtain rfl := Option.some.inj ht
      have hnothing : ∀ kind w, ¬ ((kind, w) ∈ dialect tags ∧ w <+: s.rest) := by
        rintro kind w ⟨hmem, hpre⟩
        exact List.find?_eq_none.1 hnone _ hmem (by simpa using hpre)
      refine ⟨.inr ⟨rfl, hnothing⟩, iff_of_true (fun kind w h => absurd h (hnothing kind w)) ?_⟩
      rintro ⟨-, -, hpre⟩
      rw [hrest, List.cons_prefix_cons] at hpre
      rw [← hpre.1] at hbracket
      exact absurd hbracket (by decide)
  · rw [hknows.tokenize_eq_ok_iff hcasing, String.toList_ofList, ← front?_alone_dialect_iff hmem]
    exact hknows.proper.cut_alone_iff hmem

/-- a turnstile has to be written with an arrow where there are disjunctions -/
theorem longest_lexem_turnstile : ∃ x, build .classic { languages := ["propositional", "sequent calculus"] } = .ok x ∧
    Offers ["propositional", "sequent calculus"] ⟨[], ['|', '-']⟩ "turnstile" ['|', '-'] ∧
    x.tokenize "|-" ≠ .ok [⟨"turnstile", "|-", false⟩] ∧ x.tokenize "=>" = .ok [⟨"turnstile", "=>", false⟩] := by
  obtain ⟨x, hx⟩ := exists_sequent_lexer
  obtain ⟨-, halone⟩ := longest_lexem hx
  have hoffers {w : List Char} (hw : ("turnstile", w) ∈ dialect ["propositional", "sequent calculus"]) :
      Offers ["propositional", "sequent calculus"] ⟨[], w⟩ "turnstile" w :=
      (offers_iff (by decide)).2 ⟨hw, List.prefix_refl w⟩
  refine ⟨x, hx, hoffers (by decide), fun h => ?_, (halone _ ['=', '>'] (hoffers (by decide))).2 (by decide)⟩
  exact (halone "turnstile" ['|', '-'] (hoffers (by decide))).1 h (by decide)

end Lexer

end TableauTutor
