import TableauTutor.Proofs.Agenda
import TableauTutor.Proofs.Growth
import TableauTutor.Proofs.Language

/-!
Which rules of a lexicon a lexer is made of. A rule takes part if all its languages are asked for, wherever
among its constraints they stand, and if it is not for reading only. So a lexer neither makes up nor reads
what is there for reading only: it is the same lexer, up to the kinds declared as fresh and to case, as if
these rules had not been declared.

- `Lexer.selected_lexems`: the lexems that are read and made up, for any lexicon and any languages.
-/

namespace TableauTutor

/-! ## Rules that take part -/

/-- all languages that the rule was declared for are among the given ones -/
def LexicalRule.InLanguages (r : LexicalRule) (tags : List String) : Prop :=
  ∀ tag, .language tag ∈ r.constraints → tag ∈ tags

theorem Selection.admits_iff (s : Selection) (r : LexicalRule) :
    s.admits r = true ↔ r.InLanguages s.languages ∧ (.readOnly ∈ r.constraints → s.withReadOnly = true) := by
  rw [admits, List.all_eq_true]
  refine ⟨fun h => ⟨fun tag htag => ?_, fun hread => h _ hread⟩, fun ⟨hlanguages, hread⟩ c hc => ?_⟩
  · simpa [allows] using h _ htag
  · cases c with
    | language tag => simpa [allows] using hlanguages tag hc
    | fresh => rfl
    | readOnly => exact hread hc

namespace Lexicon

/-- some rule of the sort declares the lexem for tokens of the kind -/
def Declares (x : Lexicon) (sort : LexicalRule → Prop) (kind lexem : String) : Prop :=
  ∃ r ∈ x.rules, sort r ∧ r.kind = kind ∧ lexem ∈ r.lexems

/-- the lexems of a kind in the rules that take part -/
def lexemsOf (x : Lexicon) (s : Selection) (kind : String) : List String :=
  (x.rules.filter fun r => r.kind == kind && s.admits r).flatMap (·.lexems)

/-- the lexicon without its rules for reading only -/
def withoutReadOnly (x : Lexicon) : Lexicon := ⟨x.rules.filter fun r => !r.constraints.contains .readOnly⟩

theorem mem_lexemsOf {x : Lexicon} {s : Selection} {kind lexem : String} : lexem ∈ x.lexemsOf s kind ↔
    x.Declares (fun r => r.InLanguages s.languages ∧ (.readOnly ∈ r.constraints → s.withReadOnly = true))
    kind lexem := by
  simp only [lexemsOf, Declares, ← Selection.admits_iff, List.mem_flatMap, List.mem_filter,
    Bool.and_eq_true, beq_iff_eq]
  constructor
  · rintro ⟨r, ⟨hr, hkind, hadmits⟩, hl⟩
    exact ⟨r, hr, hadmits, hkind, hl⟩
  · rintro ⟨r, hr, hadmits, hkind, hl⟩
    exact ⟨r, ⟨hr, hkind, hadmits⟩, hl⟩

end Lexicon

namespace Lexer

variable {x y : Lexicon} {s t : Selection}

theorem filter_lexemsFor (x : Lexicon) (s : Selection) (kind : String) :
    ((lexemsFor x s).filter (·.1 == kind)).map (·.2) = x.lexemsOf s kind := by
  unfold lexemsFor Lexicon.lexemsOf
  induction x.rules with
  | nil => rfl
  | cons r rules ih =>
    cases hadmits : s.admits r with
    | false => simpa [hadmits] using ih
    | true =>
      by_cases hkind : r.kind = kind
      · have hall : (r.lexems.map fun l => (r.kind, l)).filter (·.1 == kind) = r.lexems.map fun l => (r.kind, l) :=
          List.filter_eq_self.2 (by simp [hkind])
        simp only [List.filter_cons, hadmits, hkind, List.flatMap_cons, List.filter_append, List.map_append,
          beq_self_eq_true, Bool.and_true, if_true] at ih hall ⊢
        rw [ih, hall]
        simp
      · have hnone : (r.lexems.map fun l => (r.kind, l)).filter (·.1 == kind) = [] :=
          List.filter_eq_nil_iff.2 (by simp [hkind])
        simpa [hadmits, hkind, List.filter_append, hnone] using ih

/-- **The written pattern of a kind** has the lexems of the rules that take part as its
alternatives, in descending order. -/
theorem lookup_readingTexts (x : Lexicon) (s : Selection) (kind : String) : (readingTexts x s).lookup kind =
    if (x.lexemsOf s kind).isEmpty then none else some
      (alternation (sortBy (fun a b => b ≤ a) (x.lexemsOf s kind))) := by
  rw [readingTexts, lookup_map (fun _ => rfl), joinLexems, lookup_map (fun _ => rfl), lookup_groupByKey,
    ← filter_lexemsFor, List.isEmpty_map]
  split <;> rfl

/-- the alternatives of a written pattern are these lexems; there is no pattern when there are none -/
def Spells (lexems : String → Prop) : Option String → Prop
  | none => ∀ l, ¬ lexems l
  | some text => ∃ ls, ls ≠ [] ∧ text = alternation ls ∧ ∀ l, l ∈ ls ↔ lexems l

theorem spells_readingTexts (x : Lexicon) (s : Selection) (kind : String) :
    Spells (x.Declares (fun r => r.InLanguages s.languages ∧ (.readOnly ∈ r.constraints → s.withReadOnly = true)) kind)
      ((readingTexts x s).lookup kind) := by
  simp only [lookup_readingTexts]
  split
  · rename_i hnone
    intro l hl
    have hmem := Lexicon.mem_lexemsOf.2 hl
    rw [List.isEmpty_iff.1 hnone] at hmem
    cases hmem
  · rename_i hsome
    obtain ⟨l, hl⟩ := List.exists_mem_of_ne_nil _ (mt List.isEmpty_iff.2 hsome)
    exact ⟨_, List.ne_nil_of_mem (mem_sortBy.2 hl), rfl, fun l => mem_sortBy.trans Lexicon.mem_lexemsOf⟩

/-! ## Lexers and their written patterns -/

/-- the kinds with their written patterns, in the order in which they are tried -/
def triedRules (x : Lexicon) (s : Selection) : List (String × String) :=
  sortBy before ((readingTexts x s).filter fun (k, _) => !isGapList k)

/-- **What a lexer that could be built is made of**; each of its rules stands on its own. -/
theorem build_eq_ok {l : Lexer} (h : build x s = .ok l) :
    l = { reading := readRules (triedRules x s).length (triedRules x s)
          gaps := (((readingTexts x s).lookup "ignore").map String.toList).getD [' ', '\t']
          making := makingTexts x s, fresh := x.freshKinds, casing := x.needsCasing } ∧
      ∀ rule ∈ triedRules x s, checkRule rule = .ok true := by
  simp only [build] at h
  obtain ⟨checks, hchecks, h⟩ := of_bind_eq_ok h
  split at h
  · cases h
  rename_i hgood
  refine ⟨(Except.ok.inj h).symm, fun rule hrule => ?_⟩
  simp only [Bool.or_eq_true, not_or, Bool.not_eq_true', Bool.not_eq_false, List.all_eq_true] at hgood
  obtain ⟨⟨-, hchecked⟩, hproper⟩ := hgood
  obtain ⟨good, hmem, hgood⟩ := exists_of_forall₂ (forall₂_of_mapM hchecks)
    (List.mem_filter.2 ⟨hrule, hproper rule hrule⟩)
  cases good with
  | true => exact hgood
  | false => simp [hmem] at hchecked

/-- **A lexer depends on its written patterns**, and on nothing else of the rules but the fresh
kinds and whether case matters. -/
theorem build_congr (htexts : readingTexts y t = readingTexts x s) (hmaking : makingTexts y t = makingTexts x s) :
    build y t = (build x s).map fun l => { l with fresh := y.freshKinds, casing := y.needsCasing } := by
  simp only [build, htexts, hmaking, bind, Except.bind, pure, Except.pure]
  split
  · rfl
  · split
    · rfl
    · rfl

/-- tokens are made up in the same way from the same written patterns, as far as fresh kinds agree -/
theorem generate_congr {l m : Lexer} (hmaking : m.making = l.making) (hspeller : m.speller = l.speller) {kind : String}
    (hfresh : kind ∈ m.fresh ↔ kind ∈ l.fresh) (tokens : List (String × String)) :
    m.generate tokens kind = l.generate tokens kind := by
  have hcontains : m.fresh.contains kind = l.fresh.contains kind := by
    rw [Bool.eq_iff_iff, List.contains_iff_mem, List.contains_iff_mem, hfresh]
  rw [generate, generate, hmaking, hspeller, hcontains]

/-- rules for reading only leave no trace in the written patterns, unless they are asked for -/
theorem readingTexts_withoutReadOnly (x : Lexicon) (tags : List String) :
    readingTexts x.withoutReadOnly { languages := tags } = readingTexts x { languages := tags } := by
  have hrules : x.withoutReadOnly.rules.filter (Selection.admits { languages := tags }) =
      x.rules.filter (Selection.admits { languages := tags }) := by
    rw [Lexicon.withoutReadOnly, List.filter_filter]
    refine List.filter_congr fun r _ => ?_
    cases hadmits : Selection.admits { languages := tags } r with
    | false => rfl
    | true =>
      have hread := ((Selection.admits_iff _ _).1 hadmits).2
      simpa using hread
  rw [readingTexts, readingTexts, lexemsFor, lexemsFor, hrules]

/-- **The lexems that are read and made up.** A lexer for some languages reads, and makes up, the lexems of the rules
all of whose languages are given and that are not for reading only. Without the rules for reading only it could be built
just as well, and would read and make up the same, whatever the speller; only which kinds are to be fresh is asked of
all rules. If rules for reading only are asked for, they are read, but then nothing can be made up. -/
theorem selected_lexems (x : Lexicon) (tags : List String) :
    (∀ kind,
      Spells (x.Declares (fun r => r.InLanguages tags ∧ .readOnly ∉ r.constraints) kind)
        ((readingTexts x { languages := tags }).lookup kind) ∧
      Spells (x.Declares (fun r => r.InLanguages tags ∧ .readOnly ∉ r.constraints) kind)
        ((makingTexts x { languages := tags }).lookup kind)) ∧
    (∀ l, build x { languages := tags } = .ok l →
      l.reading = readRules (triedRules x { languages := tags }).length (triedRules x { languages := tags }) ∧
      l.making = makingTexts x { languages := tags } ∧
      ∃ m, build x.withoutReadOnly { languages := tags } = .ok m ∧ m.reading = l.reading ∧ m.gaps = l.gaps ∧
        m.making = l.making ∧
        ∀ speller tokens kind, (kind ∈ m.fresh ↔ kind ∈ l.fresh) →
          generate { m with speller } tokens kind = generate { l with speller } tokens kind) ∧
    ∀ kind,
      Spells (x.Declares (·.InLanguages tags) kind)
        ((readingTexts x { languages := tags, withReadOnly := true, generating := false }).lookup kind) ∧
      (makingTexts x { languages := tags, withReadOnly := true, generating := false }).lookup kind = none := by
  refine ⟨fun kind => ?_, fun l hl => ?_, fun kind => ⟨?_, rfl⟩⟩
  · have hspells := spells_readingTexts x { languages := tags } kind
    simp only [Bool.false_eq_true, imp_false] at hspells
    exact ⟨hspells, hspells⟩
  · obtain ⟨rfl, -⟩ := build_eq_ok hl
    have htexts := readingTexts_withoutReadOnly x tags
    have hbuild := build_congr htexts (by rw [makingTexts, makingTexts, htexts])
    rw [hl] at hbuild
    refine ⟨rfl, rfl, _, hbuild, rfl, rfl, rfl, fun speller tokens kind hfresh => generate_congr ?_ ?_ ?_ tokens⟩
    · rfl
    · rfl
    · exact hfresh
  · have hspells := spells_readingTexts x { languages := tags, withReadOnly := true, generating := false } kind
    simpa using hspells

/-- longer names of variables are declared for reading only, so they are not read -/
theorem selected_lexems_variables :
    Lexicon.classic.Declares (·.InLanguages ["propositional"]) "sentvar" "\\w+" ∧
    Spells (Lexicon.classic.Declares (fun r => r.InLanguages ["propositional"] ∧ .readOnly ∉ r.constraints) "sentvar")
      (some "([a-z])") ∧
    ∃ l m, build .classic { languages := ["propositional"] } = .ok l ∧
      build Lexicon.classic.withoutReadOnly { languages := ["propositional"] } = .ok m ∧ m.reading = l.reading := by
  obtain ⟨hspells, hbuilt, -⟩ := selected_lexems .classic ["propositional"]
  have htext : (readingTexts .classic { languages := ["propositional"] }).lookup "sentvar" = some "([a-z])" := by
    decide +kernel
  obtain ⟨l, hl⟩ : ∃ l, build? .classic { languages := ["propositional"] } = some l :=
    Option.isSome_iff_exists.1 (by decide +kernel)
  obtain ⟨-, -, m, hm, hreading, -⟩ := hbuilt l (eq_ok_of_toOption hl)
  refine ⟨⟨⟨[.language "propositional", .readOnly], "sentvar", ["\\w+"]⟩, by decide,
    by simp [LexicalRule.InLanguages], rfl, by simp⟩, htext ▸ (hspells "sentvar").1, l, m, eq_ok_of_toOption hl, hm, hreading⟩

end Lexer

end TableauTutor
