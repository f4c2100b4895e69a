import TableauTutor.Proofs.Dialects
import TableauTutor.Proofs.TypedBack

/-!
Tokens that are made up. A pattern that lists words is spelled by one of its words, so the lexer of a calculus makes up
the words that it reads: for a variable the first letter, in the order in which the speller lists them, that is not used
yet; for a connective the way it is written most, or any way that is picked.

- `exists_order`, `generate_connective`: variables and connectives can be made up, as long as there are letters.
- `readsBack_iff`: which of the words are read as what they were made up for.
-/

namespace TableauTutor

namespace Lexer

/-! ## Where a token comes from -/

theorem foldl_better (xs ys : List String) {b : String × Nat} {best : Option (String × Nat)}
    (h : ys.foldl (better xs) best = some b) : b.1 ∈ ys ∨ best = some b := by
  induction ys generalizing best with
  | nil => exact .inr h
  | cons y ys ih =>
    rcases ih h with hmem | hnext
    · exact .inl (List.mem_cons_of_mem y hmem)
    · obtain ⟨b', hb', hold⟩ := better_cases xs best y
      obtain rfl := Option.some.inj (hnext.symm.trans hb')
      rcases hold with rfl | hold
      · exact .inl List.mem_cons_self
      · exact .inr hold

theorem mostFrequent?_mem {xs : List String} {l : String} (h : mostFrequent? xs = some l) : l ∈ xs := by
  obtain ⟨b, hb, rfl⟩ := Option.map_eq_some_iff.1 h
  rcases foldl_better xs _ hb with hmem | hnone
  · exact List.mem_eraseDups.1 hmem
  · cases hnone

theorem eq_ok_of_mapError {ε δ α : Type} {f : ε → δ} {r : Except ε α} {a : α} (h : r.mapError f = .ok a) :
    r = .ok a := by
  cases r with
  | error e => cases h
  | ok b => exact congrArg _ (Except.ok.inj h)

/-- **Where a token comes from**: a spelling that is not used yet, if the kind asks for it, or else the lexem of a token
of the kind or, if there is none, a spelling that is picked. -/
theorem generate_cases {x : Lexer} {tokens : List (String × String)} {kind k l : String}
    (h : x.generate tokens kind = .ok (k, l)) : k = kind ∧ ∃ text, x.making.lookup kind = some text ∧
      (kind ∈ x.fresh ∧ (∃ p, Pattern.read false text = .ok p ∧
        x.speller.find? p (fun s => !((tokens.map (·.2)).contains (String.ofList s))) = .ok (some l.toList)) ∨
      kind ∉ x.fresh ∧ ((kind, l) ∈ tokens ∨
        ∃ p, Pattern.read false text = .ok p ∧ x.speller.pick [] tokens p = .ok l.toList)) := by
  unfold generate at h
  split at h
  · cases h
  · rename_i text htext
    split at h
    · rename_i hfresh
      obtain ⟨p, hp, h⟩ := of_bind_eq_ok h
      obtain ⟨found, hfound, h⟩ := of_bind_eq_ok h
      cases found with
      | none => cases h
      | some s =>
        cases h
        refine ⟨rfl, text, htext, .inl ⟨by simpa using hfresh, p, eq_ok_of_mapError hp, ?_⟩⟩
        rw [eq_ok_of_mapError hfound, String.toList_ofList]
    · rename_i hfresh
      have hfresh : kind ∉ x.fresh := by simpa using hfresh
      split at h
      · rename_i lexem hlexem
        cases h
        obtain ⟨t, ht, rfl⟩ := List.mem_map.1 (mostFrequent?_mem hlexem)
        obtain ⟨hmem, hkind⟩ := List.mem_filter.1 ht
        obtain rfl : t.1 = kind := by simpa using hkind
        exact ⟨rfl, text, htext, .inr ⟨hfresh, .inl hmem⟩⟩
      · obtain ⟨p, hp, h⟩ := of_bind_eq_ok h
        obtain ⟨s, hs, h⟩ := of_bind_eq_ok h
        cases h
        refine ⟨rfl, text, htext, .inr ⟨hfresh, .inr ⟨p, eq_ok_of_mapError hp, ?_⟩⟩⟩
        rw [eq_ok_of_mapError hs, String.toList_ofList]

theorem mem_of_speller_find? {x : Lexer} {p : Pattern} {ws : List (List Char)} (hws : p.words? = some ws)
    {test : List Char → Bool} {w : List Char} (h : x.speller.find? p test = .ok (some w)) : w ∈ ws := by
  obtain ⟨listed, hperm, hfind⟩ := x.speller.find?_eq p ws hws
  rw [hfind] at h
  exact hperm.subset (List.mem_of_find?_eq_some (Except.ok.inj h))

/-- a lexem that is read as one token of the kind -/
def ReadsBack (x : Lexer) (kind lexem : String) : Prop := x.tokenize lexem = .ok [⟨kind, lexem, false⟩]

/-- a word that is come to when the spellings for a kind are listed -/
def CanSpell (x : Lexer) (kind : String) (w : List Char) : Prop :=
  ∃ text p, x.making.lookup kind = some text ∧ Pattern.read false text = .ok p ∧
  x.speller.find? p (· == w) = .ok (some w)

end Lexer

namespace Calculus

open Lexer WordTable

variable {c : Calculus} {x : Lexer} {kind k l text : String} {w : List Char} {tokens : List (String × String)}

/-! ## The words that a calculus makes up -/

/-- the written patterns for making up tokens list the words that are read as well, kind by kind -/
theorem making_words (hx : c.HasLexer x) (h : x.making.lookup kind = some text) : ∃ p ws,
    Pattern.read false text = .ok p ∧ p.words? = some ws ∧ ws = (c.words.filter (·.1 == kind)).map (·.2) := by
  have hall : ((makingTexts .classic { languages := c.tags }).all fun r =>
      (Pattern.read false r.2).toOption.bind Pattern.words? == some ((c.words.filter (·.1 == r.1)).map (·.2))) =
      true := by
    cases c <;> decide +kernel
  rw [hx.eq_built.1] at h
  have hwords := List.all_eq_true.1 hall _ (mem_of_lookup_eq h)
  obtain ⟨p, hp, hws⟩ := Option.bind_eq_some_iff.1 (beq_iff_eq.1 hwords)
  exact ⟨p, _, eq_ok_of_toOption hp, hws, rfl⟩

theorem mem_words_of_kind : w ∈ (c.words.filter (·.1 == kind)).map (·.2) ↔ (kind, w) ∈ c.words := by
  simp

theorem words_of_canSpell (hx : c.HasLexer x) (h : x.CanSpell kind w) : (kind, w) ∈ c.words := by
  obtain ⟨text, p, htext, hp, hfind⟩ := h
  obtain ⟨p', ws, hp', hws, rfl⟩ := making_words hx htext
  obtain rfl := Except.ok.inj (hp.symm.trans hp')
  exact mem_words_of_kind.1 (mem_of_speller_find? hws hfind)

/-- a token that is made up is a word of its kind, or else there is one like it already -/
theorem words_of_generate (hx : c.HasLexer x) (h : x.generate tokens kind = .ok (k, l)) :
    k = kind ∧ ((kind, l.toList) ∈ c.words ∨ kind ≠ "sentvar" ∧ (kind, l) ∈ tokens) := by
  obtain ⟨rfl, text, htext, hcases⟩ := generate_cases h
  obtain ⟨p, ws, hp, hws, rfl⟩ := making_words hx htext
  refine ⟨rfl, ?_⟩
  rcases hcases with ⟨-, p', hp', hfind⟩ | ⟨hfresh, hmem | ⟨p', hp', hpicked⟩⟩
  · obtain rfl := Except.ok.inj (hp.symm.trans hp')
    exact .inl (mem_words_of_kind.1 (mem_of_speller_find? hws hfind))
  · refine .inr ⟨fun hkind => hfresh ?_, hmem⟩
    rw [hkind, hx.eq_built.2.1]
    decide
  · obtain rfl := Except.ok.inj (hp.symm.trans hp')
    obtain ⟨w, hw, hpick⟩ := x.speller.pick_mem [] tokens p _ hws
    exact .inl (mem_words_of_kind.1 (Except.ok.inj (hpicked.symm.trans hpick) ▸ hw))

theorem not_bracket_of_generate (hx : c.HasLexer x) (h : x.generate tokens kind = .ok (k, l)) :
    kind ≠ "(" ∧ kind ≠ ")" := by
  have hall : ∀ r ∈ makingTexts .classic { languages := c.tags }, r.1 ≠ "(" ∧ r.1 ≠ ")" := by cases c <;> decide +kernel
  obtain ⟨-, text, htext, -⟩ := generate_cases h
  rw [hx.eq_built.1] at htext
  exact hall _ (mem_of_lookup_eq htext)

/-- **What reads back.** A word of a calculus is read as a token of its kind, but for the variable `v`. -/
theorem readsBack_iff (hx : c.HasLexer x) (hw : (kind, w) ∈ c.words) :
    x.ReadsBack kind (String.ofList w) ↔ (kind, w) ≠ ("sentvar", ['v']) := by
  obtain ⟨hknows, hcase⟩ := knows_words hx
  have hall : ∀ r ∈ c.words, c.words.front? r.2 = some r ↔ r ≠ ("sentvar", ['v']) := by cases c <;> decide
  rw [ReadsBack, hknows.tokenize_eq_ok_iff hcase, String.toList_ofList, ← hall _ hw]
  exact hknows.proper.cut_alone_iff hw

/-! ## Variables -/

/-- the letters that variables are made of -/
def letters : List Char := CharItem.between 'a' 'z'

/-- the first letter in an order that is not used yet -/
def nextLetter? (order : List Char) (used : List String) : Option Char :=
  order.find? fun a => !used.contains (String.singleton a)

/-- a variable that is not used yet, as long as there are letters -/
def nextVariable (order : List Char) (used : List String) : Except LexiconError (String × String) :=
  match nextLetter? order used with
  | some a => .ok ("sentvar", String.singleton a)
  | none => .error (.needMoreLexems "sentvar")

/-- the letters come up as variables in this order -/
structure InOrder (x : Lexer) (order : List Char) : Prop where
  perm : order.Perm letters
  generate : ∀ tokens, x.generate tokens "sentvar" = nextVariable order (tokens.map (·.2))

theorem words_sentvar (c : Calculus) : (c.words.filter (·.1 == "sentvar")).map (·.2) = letters.map fun a => [a] := by
  cases c <;> decide

theorem mem_words_sentvar {a : Char} (ha : a ∈ letters) : ("sentvar", [a]) ∈ c.words := by
  rw [← mem_words_of_kind, words_sentvar]
  exact List.mem_map_of_mem ha

theorem fresh_sentvar (hx : c.HasLexer x) : x.fresh.contains "sentvar" = true := by
  rw [hx.eq_built.2.1]
  decide

/-- **The order of the variables.** There is one for every lexer of a calculus, and it is the alphabet if spellings are
listed from the first choice on. -/
theorem exists_order (hx : c.HasLexer x) :
    ∃ order, InOrder x order ∧ (x.speller.find? = Pattern.find? → order = letters) := by
  have htext : x.making.lookup "sentvar" = some "([a-z])" := by
    rw [hx.eq_built.1]
    cases c <;> decide +kernel
  obtain ⟨p, ws, hp, hws, rfl⟩ := making_words hx htext
  rw [words_sentvar] at hws
  obtain ⟨order, hperm, hfind, horderly⟩ : ∃ order, order.Perm letters ∧
      (∀ test, x.speller.find? p test = .ok ((order.map fun a => [a]).find? test)) ∧
        (x.speller.find? = Pattern.find? → order = letters) := by
    by_cases horderly : x.speller.find? = Pattern.find?
    · exact ⟨letters, .refl _, fun test => horderly ▸ Pattern.find?_eq_of_words? hws test, fun _ => rfl⟩
    · obtain ⟨listed, hperm, hfind⟩ := x.speller.find?_eq p _ hws
      -- a rearrangement of words of one letter each comes from one of the letters
      obtain ⟨order, rfl, horder⟩ := (congrFun₂ (List.eq_map_comp_perm fun a : Char => [a]) listed letters).mpr hperm
      exact ⟨order, horder, hfind, fun h => absurd h horderly⟩
  refine ⟨order, ⟨hperm, fun tokens => ?_⟩, horderly⟩
  have hnext : x.speller.find? p (fun s => !(tokens.map (·.2)).contains (String.ofList s)) =
      .ok ((nextLetter? order (tokens.map (·.2))).map fun a => [a]) := by
    rw [hfind, List.find?_map]
    simp only [nextLetter?, Function.comp_def, String.singleton_eq_ofList]
  simp only [Lexer.generate, htext, fresh_sentvar hx, if_true, hp, Except.mapError, ok_bind, hnext, nextVariable]
  cases nextLetter? order (tokens.map (·.2)) with
  | none => rfl
  | some a => simp [pure_ok]

theorem InOrder.turn {order : List Char} (hx : c.HasLexer x) (h : InOrder x order) (i : Nat) :
    InOrder (x.turn i) order := by
  refine ⟨h.perm, fun tokens => ?_⟩
  have hfresh := fresh_sentvar hx
  rw [← h.generate tokens]
  simp only [Lexer.generate, Lexer.turn, Speller.turn, hfresh, if_true]

theorem find?_notMem_take {α : Type} [DecidableEq α] {xs : List α} (hxs : xs.Nodup) (k : Nat) :
    xs.find? (fun a => !(xs.take k).contains a) = xs[k]? := by
  have hfront : (xs.take k).find? (fun a => !(xs.take k).contains a) = none := by
    rw [List.find?_eq_none]
    intro a ha
    simpa using ha
  have hbehind (ys : List α) : (xs.take k ++ ys).find? (fun a => !(xs.take k).contains a) =
      ys.find? fun a => !(xs.take k).contains a := by
    rw [List.find?_append, hfront, Option.none_or]
  have hdrop := hbehind (xs.drop k)
  rw [List.take_append_drop] at hdrop
  rw [hdrop]
  by_cases hk : k < xs.length
  · have hnew : xs[k] ∉ xs.take k := by
      rw [← List.take_append_drop k xs, List.drop_eq_getElem_cons hk] at hxs
      exact fun hmem => (List.nodup_append.1 hxs).2.2 _ hmem _ List.mem_cons_self rfl
    rw [List.drop_eq_getElem_cons hk, List.find?_cons_of_pos (by simpa using hnew), List.getElem?_eq_getElem hk]
  · rw [List.drop_of_length_le (by omega), List.getElem?_eq_none (by omega)]
    rfl

theorem nextLetter?_take {order : List Char} (horder : order.Nodup) (k : Nat) :
    nextLetter? order ((order.take k).map String.singleton) = order[k]? := by
  rw [← find?_notMem_take horder k, nextLetter?]
  have hsingle : Function.Injective String.singleton := fun a b hab => by simpa using hab
  simp only [List.contains_eq_mem, List.mem_map_of_injective hsingle]

/-! ## Connectives -/

theorem generate_connective (hx : c.HasLexer x) (hk : kind ∈ ["not", "and", "or", "imp"])
    (tokens : List (String × String)) : ∃ l, x.generate tokens kind = .ok (kind, l) := by
  have hall : ∀ kind ∈ ["not", "and", "or", "imp"], kind ∉ Lexicon.classic.freshKinds ∧
      (((makingTexts .classic { languages := c.tags }).lookup kind).bind spellings?).isSome = true := by
    cases c <;> decide +kernel
  obtain ⟨hfresh, hspelling⟩ := hall kind hk
  obtain ⟨ws, hws⟩ := Option.isSome_iff_exists.1 hspelling
  obtain ⟨text, htext, hwords⟩ := Option.bind_eq_some_iff.1 hws
  rw [← hx.eq_built.1] at htext
  rw [← hx.eq_built.2.1] at hfresh
  obtain ⟨l, hl, -⟩ := generate_eq htext hfresh hwords tokens
  exact ⟨l, hl⟩

end Calculus

end TableauTutor
