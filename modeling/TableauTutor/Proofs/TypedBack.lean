import TableauTutor.Proofs.Derivation
import TableauTutor.Proofs.Dialects
import TableauTutor.Proofs.Growth
import TableauTutor.Rendering.Basic

/-!
What is shown can be typed back. A sentence is shown without blanks around lexems of one character, so the letters of
variables and the connective `v` can stand side by side. No word comes about this way: after a variable stands a blank,
a right bracket or a connective of one character, and none of the words goes on with one of those.

- `tokenize_shown`: what is shown of a sentence that passes the syntax check is read as that sentence.
-/

namespace TableauTutor

open Lexer WordTable

/-! ## The words of a calculus -/

namespace Calculus

/-- the words of a calculus in the order in which they are tried; `v` is a connective before it is a variable -/
def words (c : Calculus) : WordTable := dialect c.tags

variable {c : Calculus} {x : Lexer} {r : String × List Char} {t : Token} {ts us : List Token} {rest : List Char}

theorem words_proper : c.words.Proper := dialect_proper c.tags

/-- **The words of a calculus.** Its lexer looks for them, and for nothing else;
capitals are not small letters to it. -/
theorem knows_words (hx : c.HasLexer x) : x.Knows c.words ∧ x.casing = true := by
  obtain ⟨l, hl, heq⟩ := Option.map_eq_some_iff.1 hx
  obtain ⟨hknows, hcasing⟩ := knows_dialect (eq_ok_of_toOption hl)
  rw [← heq]
  exact ⟨⟨hknows.table, hknows.gaps, hknows.proper⟩, hcasing⟩

/-- the characters that can stand right after a variable: a blank, a right bracket, a connective -/
def apart : List Char := [' ', ')', '^', '&', '|', 'v']

theorem apart_not_followers (hr : r ∈ c.words) : ∀ a ∈ apart, a ∉ c.words.followers r.2 := by
  have hall : (c.words.all fun r => apart.all fun a => !(c.words.followers r.2).contains a) = true := by
    cases c <;> decide
  simpa using List.all_eq_true.1 hall r hr

/-- a connective of one character is the beginning of no longer word -/
theorem followers_eq_nil (hr : r ∈ c.words) (hk : r.1 ≠ "sentvar") (hlen : r.2.length = 1) :
    c.words.followers r.2 = [] := by
  have hall : ∀ r ∈ c.words, r.1 ≠ "sentvar" → r.2.length = 1 → c.words.followers r.2 = [] := by cases c <;> decide
  exact hall r hr hk hlen

/-- kinds and words have no underscore, so that a symbol made of them can be told apart again -/
theorem underscore_notMem_words (hr : r ∈ c.words) : '_' ∉ r.1.toList ∧ '_' ∉ r.2 := by
  have hall : ∀ r ∈ c.words, '_' ∉ r.1.toList ∧ '_' ∉ r.2 := by cases c <;> decide
  exact hall r hr

theorem kind_token (hr : r ∈ c.words) : (Symbol.ofToken (token r)).kind = r.1 :=
  Symbol.kind_of (underscore_notMem_words hr).1 _

theorem lexem_token (hr : r ∈ c.words) : (Symbol.ofToken (token r)).lexem = String.ofList r.2 := by
  have hall : ∀ a ∈ r.2.reverse, (a != '_') = true := by
    intro a ha
    have := (underscore_notMem_words hr).2
    simp only [List.mem_reverse] at ha
    simpa using fun h : a = '_' => this (h ▸ ha)
  have hsymbol : Symbol.ofToken (token r) = .of r.1 (String.ofList r.2) := rfl
  rw [hsymbol, Symbol.lexem, Symbol.toList_of, String.toList_ofList, List.reverse_append, List.reverse_cons,
    List.append_assoc, List.takeWhile_append_of_pos hall]
  simp

theorem lexem_ofToken (h : c.words.Makes t) : (Symbol.ofToken t).lexem = t.lexem := by
  rcases h with rfl | rfl | ⟨r, hr, rfl⟩
  · decide
  · decide
  · exact lexem_token (front?_mem hr)

/-- a token whose symbol is a variable or a connective is a word of that kind -/
theorem word_of_kind (h : c.words.Makes t) (hk : (Symbol.ofToken t).kind ∈ Symbol.letterKinds) :
    ∃ r, c.words.front? r.2 = some r ∧ t = token r ∧ r.1 = (Symbol.ofToken t).kind := by
  rcases h with rfl | rfl | ⟨r, hr, rfl⟩
  · exact absurd hk (by decide)
  · exact absurd hk (by decide)
  · exact ⟨r, hr, rfl, (kind_token (front?_mem hr)).symm⟩

theorem eq_bracket (h : c.words.Makes t) {y : Symbol} (hy : y = "(" ∨ y = ")") (ht : Symbol.ofToken t = y) :
    t = Token.literal y := by
  rcases h with rfl | rfl | ⟨r, hr, rfl⟩
  · exact congrArg Token.literal ht
  · exact congrArg Token.literal ht
  · -- a symbol that is made of a word has an underscore in it
    have hmem : '_' ∈ y.toList := by
      rw [← ht]
      exact (Symbol.toList_of r.1 (String.ofList r.2)).symm ▸ List.mem_append_right _ List.mem_cons_self
    rcases hy with rfl | rfl <;> exact absurd hmem (by decide)

end Calculus

/-! ## What is shown -/

/-- a word as it is shown -/
def shownWord (w : List Char) : List Char := if 1 < w.length then ' ' :: w ++ [' '] else w

/-- tokens as they are shown, before two blanks are made one -/
def shownTokens (ts : List Token) : List Char := ts.flatMap fun t => shownWord t.lexem.toList

theorem shownTokens_append (ts us : List Token) :
    shownTokens (ts ++ us) = shownTokens ts ++ shownTokens us := List.flatMap_append

theorem shownTokens_cons (t : Token) (ts : List Token) :
    shownTokens (t :: ts) = shownWord t.lexem.toList ++ shownTokens ts :=
  List.flatMap_cons

theorem shownTokens_word (r : String × List Char) (ts : List Token) :
    shownTokens (token r :: ts) = shownWord r.2 ++ shownTokens ts := by
  rw [shownTokens_cons, token, String.toList_ofList]

theorem toList_spaced (l : String) : (Style.spaced l).toList = shownWord l.toList := by
  unfold Style.spaced shownWord
  rw [String.length_toList]
  split <;> simp

namespace Calculus

variable {c : Calculus} {x : Lexer} {r : String × List Char} {t : Token} {ts us : List Token} {rest : List Char}

theorem toList_shown (h : ∀ t ∈ ts, c.words.Makes t) :
    (Style.plain.sentence (.ofTokens ts)).toList = collapse (shownTokens ts) := by
  have hjoin : (String.join ((Sentence.ofTokens ts).map fun y => Style.spaced y.lexem)).toList = shownTokens ts := by
    induction ts with
    | nil => rfl
    | cons t ts ih =>
      rw [shownTokens_cons, ← ih fun u hu => h u (List.mem_cons_of_mem t hu), ← toList_spaced,
        ← lexem_ofToken (h t List.mem_cons_self), ← String.toList_append, ← String.join_cons]
      rfl
  rw [Style.sentence, Text.replace, String.toList_ofList, hjoin]
  rfl

/-- a word is cut off the front of what is shown, if the text does not go on like a longer word -/
theorem cut_word (hr : c.words.front? r.2 = some r) (h : c.words.Cut rest us)
    (hrest : r.2.length = 1 → ∀ a ∈ rest.head?, a ∉ c.words.followers r.2) :
    c.words.Cut (shownWord r.2 ++ rest) (token r :: us) := by
  have hblank : ' ' ∈ blanks := by decide
  unfold shownWord
  split
  · -- blanks on both sides
    have hfront : c.words.front? (r.2 ++ ' ' :: rest) = some r := by
      apply front?_append hr
      intro a ha
      obtain rfl : ' ' = a := by simpa using ha
      exact apart_not_followers (front?_mem hr) ' ' (by decide)
    have := Cut.blank hblank (.word hfront (.blank hblank h))
    simpa using this
  · have hne : r.2 ≠ [] := (words_proper r (front?_mem hr)).2.1
    have hpos := List.length_pos_iff.2 hne
    exact .word (front?_append hr (hrest (by omega))) h

theorem cut_connective (hr : c.words.front? r.2 = some r) (hk : r.1 ≠ "sentvar") (h : c.words.Cut rest us) :
    c.words.Cut (shownWord r.2 ++ rest) (token r :: us) := by
  refine cut_word hr h fun hlen a _ => ?_
  rw [followers_eq_nil (front?_mem hr) hk hlen]
  exact List.not_mem_nil

/-- what is shown of a connective can stand right after a variable -/
theorem shownWord_apart (hr : r ∈ c.words) (hk : r.1 ∈ ["and", "or", "imp"]) :
    ∃ a w, shownWord r.2 = a :: w ∧ a ∈ apart := by
  have hall : ∀ r ∈ c.words, r.1 ∈ ["and", "or", "imp"] → (shownWord r.2).head?.any (apart.contains ·) = true := by
    cases c <;> decide +kernel
  have hhead := hall r hr hk
  cases hw : shownWord r.2 with
  | nil => simp [hw] at hhead
  | cons a w => exact ⟨a, w, rfl, by simpa [hw] using hhead⟩

/-- **A formula in front of a text** that could follow a variable is cut into its tokens. -/
theorem cut_shown {s : Sentence} (hs : s.Derivable) (hts : .ofTokens ts = s) (hw : ∀ t ∈ ts, c.words.Makes t)
    (hrest : ∀ a ∈ rest.head?, a ∈ apart) (h : c.words.Cut rest us) : c.words.Cut (shownTokens ts ++ rest)
    (ts ++ us) := by
  induction hs generalizing ts rest us with
  | var hy =>
    obtain ⟨t, rfl, rfl⟩ := List.map_eq_singleton_iff.1 hts
    obtain ⟨r, hr, rfl, -⟩ := word_of_kind (hw t List.mem_cons_self) (by rw [hy]; decide)
    rw [shownTokens_word]
    simpa [shownTokens] using cut_word hr h fun _ a ha => apart_not_followers (front?_mem hr) a (hrest a ha)
  | negation hy _ ih =>
    obtain ⟨t, tw, rfl, rfl, htw⟩ := List.map_eq_cons_iff.1 hts
    obtain ⟨r, hr, rfl, hk⟩ := word_of_kind (hw t List.mem_cons_self) (by rw [hy]; decide)
    have harg := ih htw (fun u hu => hw u (List.mem_cons_of_mem _ hu)) hrest h
    rw [shownTokens_word, List.append_assoc]
    exact cut_connective hr (by rw [hk, hy]; decide) harg
  | connective _ hy _ ihu ihv =>
    obtain ⟨tu, tyv, rfl, htu, htyv⟩ := List.map_eq_append_iff.1 hts
    obtain ⟨t, tv, rfl, rfl, htv⟩ := List.map_eq_cons_iff.1 htyv
    obtain ⟨r, hr, rfl, hk⟩ := word_of_kind (hw t (by simp)) (List.mem_cons_of_mem _ (List.mem_cons_of_mem _ hy))
    rw [← hk] at hy
    have hne : r.1 ≠ "sentvar" := by
      intro h
      rw [h] at hy
      exact absurd hy (by decide)
    have hright := ihv htv (fun u hu => hw u (by simp [hu])) hrest h
    have hmiddle := cut_connective hr hne hright
    rw [shownTokens_append, shownTokens_word, List.append_assoc, List.append_assoc, List.append_assoc]
    refine ihu htu (fun u hu => hw u (by simp [hu])) (fun a ha => ?_) hmiddle
    obtain ⟨d, w, hd, hmem⟩ := shownWord_apart (front?_mem hr) hy
    obtain rfl : d = a := by simpa [hd] using ha
    exact hmem
  | bracketed _ ih =>
    obtain ⟨tlw, tend, rfl, htlw, htend⟩ := List.map_eq_append_iff.1 hts
    obtain ⟨tl, tw, rfl, htl, htw⟩ := List.map_eq_cons_iff.1 htlw
    obtain ⟨tr, rfl, htr⟩ := List.map_eq_singleton_iff.1 htend
    obtain rfl := eq_bracket (hw tl (by simp)) (.inl rfl) htl
    obtain rfl := eq_bracket (hw tr (by simp)) (.inr rfl) htr
    have hright : c.words.Cut (')' :: rest) (Token.literal ")" :: us) := .bracket (by decide) h
    have hinner := ih htw (fun u hu => hw u (by simp [hu])) (by simp [apart]) hright
    have hleft : c.words.Cut ('(' :: _) (Token.literal "(" :: _) := .bracket (by decide) hinner
    simpa [shownTokens, shownWord, Token.literal] using hleft

/-- **What is shown can be typed back.** A text that is read as a sentence without mistakes is shown as a text that is
read as the same tokens. -/
theorem tokenize_shown (hx : c.HasLexer x) {text : String} (ht : x.tokenize text = .ok ts)
    (hs : c.checkSyntax (.ofTokens ts) = .ok none) : x.tokenize (Style.plain.sentence (.ofTokens ts)) = .ok ts := by
  obtain ⟨hknows, hcase⟩ := knows_words hx
  have hsymbols : ∀ y ∈ Sentence.ofTokens ts, y.IsGrammatical := fun y hy =>
    (inLanguage_of_tokenize hx ht hs y hy).imp id (.imp id fun hl => hl.kind_mem)
  have hderived := (Sentence.checkSyntax_eq_none_iff hsymbols).1 ((c.checkSyntax_grammatical hsymbols).symm.trans hs)
  simp only [tokenize, hcase, if_true] at ht ⊢
  have hwrites : ∀ t ∈ ts, c.words.Makes t := fun t => (hknows.scan_eq_ok_iff.1 ht).token_mem
  have hshown : c.words.Cut (shownTokens ts) ts := by
    simpa using cut_shown hderived rfl hwrites (by simp) .done
  rw [toList_shown hwrites, hknows.scan_eq_ok_iff]
  exact hshown.collapse words_proper

/-- in what is shown of `o v r v (l oraz not n)` the letters of four symbols stand side by side, and only one blank is
left between two words -/
theorem tokenize_shown_letters :
    ∃ x ts, unsigned.HasLexer x ∧ x.tokenize "o v r v (l oraz not n)" = .ok ts ∧
      unsigned.checkSyntax (.ofTokens ts) = .ok none ∧ Style.plain.sentence (.ofTokens ts) = "ovrv(l oraz not n)" ∧
      x.tokenize (Style.plain.sentence (.ofTokens ts)) = .ok ts := by
  have hread : ((unsigned.lexer? .orderly).bind fun x => (x.tokenize "o v r v (l oraz not n)").toOption.map fun ts =>
      (unsigned.checkSyntax (.ofTokens ts)).toOption.map Option.isNone == some true &&
        Style.plain.sentence (.ofTokens ts) == "ovrv(l oraz not n)") = some true := by decide +kernel
  simp only [Option.bind_eq_some_iff, Option.map_eq_some_iff, Bool.and_eq_true, beq_iff_eq] at hread
  obtain ⟨x, hx, ts, hts, ⟨m, hm, hnone⟩, hshown⟩ := hread
  rw [Option.isNone_iff_eq_none] at hnone
  subst hnone
  have hx := hasLexer_of_lexer? hx
  exact ⟨x, ts, hx, eq_ok_of_toOption hts, eq_ok_of_toOption hm, hshown,
    tokenize_shown hx (eq_ok_of_toOption hts) (eq_ok_of_toOption hm)⟩

end Calculus

end TableauTutor
