import Mathlib.Data.List.Forall2
import TableauTutor.Proofs.Dialects

/-!
When formulas are alike. Two relations between formulas, position by position, are told apart here: the same up to
spelling (connectives may be written differently, names may not), and the same up to names (names may differ,
connectives may not). Formulas are compared by their signatures, and a signature keeps the kind of a name and the lexem
of anything else. So it is the second relation that decides whether formulas read by a lexer are alike, and formulas
that are the same up to spelling are alike only if they are written in the same way.

- `alike_up_to_names`: formulas that are alike, and formulas that are filed under the same text.
-/

namespace TableauTutor

/-! ## Tokens -/

namespace Token

/-- the kinds of tokens that name something -/
def nameKinds : List String := ["indvar", "constant", "predicate", "function", "sentvar"]

/-- the same token but for the way in which it is written; names are written in one way -/
def SameUpToSpelling (t u : Token) : Prop := t.kind = u.kind ∧ (t.kind ∈ nameKinds → t.lexem = u.lexem)

/-- the same token but for what is named -/
def SameUpToName (t u : Token) : Prop := t.kind = u.kind ∧ (t.kind ∉ nameKinds → t.lexem = u.lexem)

variable {t u : Token}

theorem signature_of_name (h : t.kind ∈ nameKinds) : t.signature = t.kind := if_pos (List.contains_iff_mem.2 h)

theorem signature_of_not_name (h : t.kind ∉ nameKinds) : t.signature = t.lexem := if_neg (mt List.contains_iff_mem.1 h)

theorem SameUpToName.signature_eq (h : t.SameUpToName u) : t.signature = u.signature := by
  obtain ⟨hkind, hlexem⟩ := h
  by_cases htn : t.kind ∈ nameKinds
  · rw [signature_of_name htn, signature_of_name (hkind ▸ htn), hkind]
  · rw [signature_of_not_name htn, signature_of_not_name (hkind ▸ htn), hlexem htn]

/-- **What a signature does not tell apart**: names of a kind, as long as no other token is written like a kind of
names, and as long as tokens written alike are of one kind. -/
theorem signature_eq_iff (ht : t.lexem ∉ nameKinds) (hu : u.lexem ∉ nameKinds)
    (hkind : t.lexem = u.lexem → t.kind = u.kind) : t.signature = u.signature ↔ t.SameUpToName u := by
  refine ⟨fun h => ?_, SameUpToName.signature_eq⟩
  by_cases htn : t.kind ∈ nameKinds
  · rw [signature_of_name htn] at h
    by_cases hun : u.kind ∈ nameKinds
    · rw [signature_of_name hun] at h
      exact ⟨h, fun hnot => absurd htn hnot⟩
    · rw [signature_of_not_name hun] at h
      exact absurd (h ▸ htn) hu
  · rw [signature_of_not_name htn] at h
    by_cases hun : u.kind ∈ nameKinds
    · rw [signature_of_name hun] at h
      exact absurd (h ▸ hun) ht
    · rw [signature_of_not_name hun] at h
      exact ⟨hkind h, fun _ => h⟩

/-- a token is given by its signature and what it is up to spelling -/
theorem signature_eq_and_same_iff : t.signature = u.signature ∧ t.SameUpToSpelling u ↔
    (t.kind, t.lexem) = (u.kind, u.lexem) := by
  rw [Prod.mk.injEq]
  constructor
  · rintro ⟨hsig, hkind, hlexem⟩
    refine ⟨hkind, ?_⟩
    by_cases htn : t.kind ∈ nameKinds
    · exact hlexem htn
    · rwa [signature_of_not_name htn, signature_of_not_name (hkind ▸ htn)] at hsig
  · rintro ⟨hkind, hlexem⟩
    refine ⟨?_, hkind, fun _ => hlexem⟩
    rw [signature, signature, hkind, hlexem]

end Token

/-! ## Tokens of a lexer -/

namespace Lexer

open WordTable

variable {tb : WordTable} {tags : List String} {x : Lexer} {t u : Token}

/-- tokens that a lexer writes in the same way are the same: the lexem alone is read as either -/
theorem Knows.token_eq (hx : x.Knows tb) (ht : tb.Makes t) (hu : tb.Makes u) (h : t.lexem = u.lexem) : t = u := by
  have hcut : tb.Cut (t.lexem.toList ++ []) [t] := .cons_token hx.proper ht (by simp) .done
  have hcut' : tb.Cut (u.lexem.toList ++ []) [u] := .cons_token hx.proper hu (by simp) .done
  rw [← h] at hcut'
  have hread := hx.scan_of_cut hcut []
  rw [hx.scan_of_cut hcut' []] at hread
  exact (List.cons.inj (Except.ok.inj hread)).1.symm

theorem lexem_notMem_nameKinds (ht : (dialect tags).Makes t) : t.lexem ∉ Token.nameKinds := by
  have hwords : ∀ r ∈ classicWords, String.ofList r.2 ∉ Token.nameKinds := by decide
  rcases ht with rfl | rfl | ⟨r, hr, rfl⟩
  · decide
  · decide
  · exact hwords r (List.mem_filter.1 (front?_mem hr)).1

theorem signature_word (htb : tb.Proper) (ht : tb.Makes t) : t.signature ≠ "" ∧ ' ' ∉ t.signature.toList := by
  by_cases hname : t.kind ∈ Token.nameKinds
  · have hkinds : ∀ kind ∈ Token.nameKinds, kind ≠ "" ∧ ' ' ∉ kind.toList := by decide
    rw [Token.signature_of_name hname]
    exact hkinds _ hname
  · rw [Token.signature_of_not_name hname]
    rcases ht with rfl | rfl | ⟨r, hr, rfl⟩
    · decide
    · decide
    · obtain ⟨-, hne, hchars⟩ := htb r (front?_mem hr)
      refine ⟨fun h => hne (String.ofList_inj.1 h), fun h => (hchars ' ' ?_).1 (by decide)⟩
      simpa [token] using h

end Lexer

/-! ## Words with blanks between them -/

theorem splitOn_words {ws : List String} (hws : ∀ w ∈ ws, w ≠ "" ∧ ' ' ∉ w.toList) (hne : ws ≠ []) :
    (" ".intercalate ws).toList.splitOn ' ' = ws.map String.toList := by
  rw [String.toList_intercalate]
  exact List.splitOn_intercalate ' ' (by simpa using fun w hw => (hws w hw).2) (by simpa using hne)

theorem intercalate_words_eq_empty_iff {ws : List String} (hws : ∀ w ∈ ws, w ≠ "" ∧ ' ' ∉ w.toList) :
    " ".intercalate ws = "" ↔ ws = [] := by
  cases ws with
  | nil => simp
  | cons w ws =>
    have hw := (hws w List.mem_cons_self).1
    cases ws <;> simp [hw]

theorem intercalate_words_inj {us ws : List String} (hus : ∀ w ∈ us, w ≠ "" ∧ ' ' ∉ w.toList)
    (hws : ∀ w ∈ ws, w ≠ "" ∧ ' ' ∉ w.toList) (h : " ".intercalate us = " ".intercalate ws) : us = ws := by
  by_cases hne : us = []
  · rw [hne, ← intercalate_words_eq_empty_iff hws |>.1]
    rw [← h, hne, String.intercalate_nil]
  · have hne' : ws ≠ [] := by rwa [Ne, ← intercalate_words_eq_empty_iff hws, ← h, intercalate_words_eq_empty_iff hus]
    have hsplit := splitOn_words hus hne
    rw [h, splitOn_words hws hne'] at hsplit
    exact (List.map_injective_iff.2 (fun _ _ hword => String.toList_injective hword) hsplit).symm

/-! ## Formulas -/

namespace Formula

variable {σ : Type}

/-- same length, and at every position the same token up to spelling -/
def SameUpToSpelling (f g : Formula σ) : Prop := List.Forall₂ Token.SameUpToSpelling f.tokens g.tokens

/-- same length, and at every position the same token up to what is named -/
def SameUpToNames (f g : Formula σ) : Prop := List.Forall₂ Token.SameUpToName f.tokens g.tokens

variable {f g : Formula σ}

theorem map_eq_map_iff {α β : Type} {p : α → β} {us ws : List α} :
    us.map p = ws.map p ↔ List.Forall₂ (fun u w => p u = p w) us ws := by
  rw [← List.forall₂_eq_eq_eq, List.forall₂_map_left_iff, List.forall₂_map_right_iff]

theorem alike_iff : f.alike g = true ↔ List.Forall₂ (fun t u => t.signature = u.signature) f.tokens g.tokens := by
  rw [alike, beq_iff_eq, signature, signature, map_eq_map_iff]

theorem alike_and_same_iff : f.alike g = true ∧ f.SameUpToSpelling g ↔ f.items = g.items := by
  rw [alike_iff, SameUpToSpelling, items, items, map_eq_map_iff]
  simp only [← Token.signature_eq_and_same_iff, List.forall₂_iff_zip]
  constructor
  · rintro ⟨⟨hlen, hsig⟩, -, hsame⟩
    exact ⟨hlen, fun h => ⟨hsig h, hsame h⟩⟩
  · rintro ⟨hlen, hboth⟩
    exact ⟨⟨hlen, fun h => (hboth h).1⟩, hlen, fun h => (hboth h).2⟩

section Read

variable {tags : List String} {x : Lexer} (hx : x.Knows (Lexer.dialect tags))
    (hf : ∀ t ∈ f.tokens, (Lexer.dialect tags).Makes t) (hg : ∀ t ∈ g.tokens, (Lexer.dialect tags).Makes t)

include hx hf hg

theorem alike_iff_sameUpToNames : f.alike g = true ↔ f.SameUpToNames g := by
  have htoken {t u : Token} (h : (t, u) ∈ f.tokens.zip g.tokens) : t.signature = u.signature ↔ t.SameUpToName u := by
    obtain ⟨ht, hu⟩ := List.of_mem_zip h
    refine Token.signature_eq_iff (Lexer.lexem_notMem_nameKinds (hf t ht)) (Lexer.lexem_notMem_nameKinds (hg u hu))
      fun hlexem => ?_
    rw [hx.token_eq (hf t ht) (hg u hu) hlexem]
  rw [alike_iff, SameUpToNames, List.forall₂_iff_zip, List.forall₂_iff_zip]
  exact and_congr_right fun _ => ⟨fun h _ _ hmem => (htoken hmem).1 (h hmem), fun h _ _ hmem =>
    (htoken hmem).2 (h hmem)⟩

theorem filing_eq_iff : f.filing = g.filing ↔ f.alike g = true := by
  have hwords {h : Formula σ} (hh : ∀ t ∈ h.tokens, (Lexer.dialect tags).Makes t) : ∀ w ∈ h.signature, w ≠ "" ∧
      ' ' ∉ w.toList := by
    intro w hw
    obtain ⟨t, ht, rfl⟩ := List.mem_map.1 hw
    exact Lexer.signature_word hx.proper (hh t ht)
  rw [alike, beq_iff_eq]
  exact ⟨fun h => intercalate_words_inj (hwords hf) (hwords hg) h, fun h => by rw [filing, filing, h]⟩

end Read

/-- **Formulas that are alike.** Formulas that are the same up to names are alike, and formulas that are the same
up to spelling are alike only if they have the same kinds and lexems throughout. Formulas that a lexer of the
classic lexicon has read are alike if and only if they are the same up to names, and those that are alike are the
ones filed under the same text. -/
theorem alike_up_to_names (f g : Formula σ) :
    (f.SameUpToNames g → f.alike g = true) ∧
    (f.alike g = true ∧ f.SameUpToSpelling g ↔ f.items = g.items) ∧
    ∀ (tags : List String) (x : Lexer) (s t : String), Lexer.build .classic { languages := tags } = .ok x →
      x.tokenize s = .ok f.tokens → x.tokenize t = .ok g.tokens →
        (f.alike g = true ↔ f.SameUpToNames g) ∧ (f.filing = g.filing ↔ f.alike g = true) := by
  refine ⟨fun h => alike_iff.2 (h.imp fun _ _ => Token.SameUpToName.signature_eq), alike_and_same_iff,
    fun tags x s t hx hf hg => ?_⟩
  obtain ⟨hknows, hcasing⟩ := Lexer.knows_dialect hx
  have hmakes {h : Formula σ} {text : String} (hread : x.tokenize text = .ok h.tokens) :
      ∀ t ∈ h.tokens, (Lexer.dialect tags).Makes t := fun t ht =>
      ((hknows.tokenize_eq_ok_iff hcasing).1 hread).token_mem ht
  exact ⟨alike_iff_sameUpToNames hknows (hmakes hf) (hmakes hg), filing_eq_iff hknows (hmakes hf) (hmakes hg)⟩

/-- another variable makes no difference, another way to write a conjunction does -/
theorem alike_up_to_names_conjunctions : ∃ x, ∃ f g h : Formula Rat,
    Lexer.build .classic { languages := ["propositional", "sequent calculus"] } = .ok x ∧
      x.tokenize "p & q" = .ok f.tokens ∧ x.tokenize "r & q" = .ok g.tokens ∧ x.tokenize "p and q" = .ok h.tokens ∧
      (f.alike g = true ∧ f.filing = g.filing) ∧ f.SameUpToSpelling h ∧ f.alike h = false := by
  obtain ⟨x, hx⟩ := Lexer.exists_sequent_lexer
  obtain ⟨hknows, hcasing⟩ := Lexer.knows_dialect hx
  let p := Lexer.WordTable.token ("sentvar", ['p'])
  let q := Lexer.WordTable.token ("sentvar", ['q'])
  let r := Lexer.WordTable.token ("sentvar", ['r'])
  let sign := Lexer.WordTable.token ("and", ['&'])
  let word := Lexer.WordTable.token ("and", ['a', 'n', 'd'])
  have hmakes : ∀ t ∈ [p, q, r, sign, word], (Lexer.dialect ["propositional", "sequent calculus"]).Makes t := by
    simp only [List.forall_mem_cons, List.not_mem_nil, false_implies, implies_true, and_true]
    exact ⟨.inr (.inr ⟨_, by decide, rfl⟩), .inr (.inr ⟨_, by decide, rfl⟩), .inr (.inr ⟨_, by decide, rfl⟩),
      .inr (.inr ⟨_, by decide, rfl⟩), .inr (.inr ⟨_, by decide, rfl⟩)⟩
  have hread {ts : List Token} {text : String} (hts : ts ⊆ [p, q, r, sign, word])
      (htext : " ".intercalate (ts.map (·.lexem)) = text) : x.tokenize text = .ok ts := by
    rw [← htext, hknows.tokenize_eq_ok_iff hcasing]
    exact Lexer.WordTable.cut_spaced hknows.proper fun t ht => hmakes t (hts ht)
  have hf : x.tokenize "p & q" = .ok [p, sign, q] := hread (by decide) (by decide)
  have hg : x.tokenize "r & q" = .ok [r, sign, q] := hread (by decide) (by decide)
  have hh : x.tokenize "p and q" = .ok [p, word, q] := hread (by decide) (by decide)
  obtain ⟨-, -, hlike⟩ := alike_up_to_names (σ := Rat) ⟨[p, sign, q], []⟩ ⟨[r, sign, q], []⟩
  obtain ⟨-, hunlike, -⟩ := alike_up_to_names (σ := Rat) ⟨[p, sign, q], []⟩ ⟨[p, word, q], []⟩
  obtain ⟨hnames, hfiling⟩ := hlike _ x _ _ hx hf hg
  have halike := hnames.2 (.cons ⟨rfl, fun h => absurd (by decide) h⟩
    (.cons ⟨rfl, fun _ => rfl⟩ (.cons ⟨rfl, fun _ => rfl⟩ .nil)))
  have hspelling : SameUpToSpelling (σ := Rat) ⟨[p, sign, q], []⟩ ⟨[p, word, q], []⟩ :=
    .cons ⟨rfl, fun _ => rfl⟩ (.cons ⟨rfl, fun h => absurd h (by decide)⟩ (.cons ⟨rfl, fun _ => rfl⟩ .nil))
  refine ⟨x, _, _, _, hx, hf, hg, hh, ⟨halike, hfiling.2 halike⟩, hspelling, Bool.eq_false_iff.2 fun h => ?_⟩
  exact absurd (hunlike.1 ⟨h, hspelling⟩) (by decide)

end Formula

end TableauTutor
