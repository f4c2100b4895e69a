import TableauTutor.Proofs.Selecting
import TableauTutor.Proofs.Words

/-!
The words of the classic lexicon, and which of them is found where several stand at one place. The first word of the
table is taken, and the table is in the order of the written patterns, not of the words. Of all words just three have
one before them that they begin with: a turnstile begins with a disjunction, and two words are there twice. So the
longest word is found everywhere but at a turnstile in a language with disjunctions.

- `front?_longest_iff`, `front?_alone_dialect_iff`: where the longest word is found, and which word
  is found when it stands alone.
- `offers_iff`: the lexems that match at a place are these words.
-/

namespace TableauTutor

namespace Lexer

namespace WordTable

variable {tb : WordTable} {r q : String × List Char} {cs : List Char} {ts : List Token}

/-! ## Words in front of others -/

theorem exists_front? (hq : q ∈ tb) (hpre : q.2 <+: cs) : ∃ r, tb.front? cs = some r :=
  Option.isSome_iff_exists.1 (List.find?_isSome.2 ⟨q, hq, by simpa using hpre⟩)

/-- the word that is found stands before all others that could have been -/
theorem front?_before (h : tb.front? cs = some r) (hq : q ∈ tb) (hpre : q.2 <+: cs) : r = q ∨ [r, q].Sublist tb := by
  induction tb with
  | nil => cases hq
  | cons p tb ih =>
    by_cases hp : p.2 <+: cs
    · have hr : p = r := by simpa [front?, hp] using h
      subst hr
      rcases List.mem_cons.1 hq with rfl | hq
      · exact .inl rfl
      · exact .inr (List.cons_sublist_cons.2 (List.singleton_sublist.2 hq))
    · have hrest : front? tb cs = some r := by simpa [front?, hp] using h
      rcases List.mem_cons.1 hq with rfl | hq
      · exact absurd hpre hp
      · exact (ih hrest hq).imp_right fun hsub => hsub.cons p

theorem front?_ne_of_before (htb : tb.Nodup) (hbefore : [r, q].Sublist tb) (hr : r.2 <+: cs) :
    tb.front? cs ≠ some q := by
  induction tb with
  | nil => cases hbefore
  | cons p tb ih =>
    obtain ⟨hp, htb⟩ := List.nodup_cons.1 htb
    have hne : q ∈ tb → p ≠ q := fun hq h => hp (h ▸ hq)
    cases hbefore with
    | cons _ hsub =>
      by_cases hpre : p.2 <+: cs
      · simpa [front?, hpre] using hne (hsub.subset (by simp))
      · simpa [front?, hpre] using ih htb hsub
    | cons_cons _ hsub => simpa [front?, hr] using hne (hsub.subset (by simp))

/-- **The longest word**, or one that is the beginning of a longer one behind it. -/
theorem length_le_front? (h : tb.front? cs = some r) (hq : q ∈ tb) (hpre : q.2 <+: cs) :
    q.2.length ≤ r.2.length ∨ [r, q].Sublist tb ∧ r.2 <+: q.2 := by
  rcases front?_before h hq hpre with rfl | hbefore
  · exact .inl (Nat.le_refl _)
  · have hr := front?_prefix h
    rcases List.prefix_or_prefix_of_prefix hr hpre with hshort | hlong
    · exact .inr ⟨hbefore, hshort⟩
    · exact .inl hlong.length_le

theorem token_injective : Function.Injective token := by
  intro r q h
  simp only [token, Token.mk.injEq, String.ofList_inj] at h
  exact Prod.ext h.1 h.2.1

/-- a word typed alone is read as a token of its own when it is found there -/
theorem Proper.cut_alone_iff (htb : tb.Proper) (hq : q ∈ tb) : tb.Cut q.2 [token q] ↔ tb.front? q.2 = some q := by
  constructor
  · intro h
    generalize hts : [token q] = ts at h
    generalize hcs : q.2 = cs at h
    obtain ⟨-, -, hchars⟩ := htb q hq
    cases h with
    | done => cases hts
    | @blank c _ _ hc _ => exact absurd hc (hchars c (by simp [hcs])).1
    | @word r cs ts hr _ =>
      obtain ⟨hr', -⟩ := List.cons.inj hts
      rw [hr, token_injective hr']
    | @bracket c _ _ hc _ => exact absurd hc (by simp [(hchars c (by simp [hcs])).2])
  · intro h
    rw [← List.append_nil q.2] at h ⊢
    exact .word h .done

/-- a word is found when it stands alone, unless a word before it is its beginning -/
theorem front?_alone_iff (htb : tb.Nodup) (hq : q ∈ tb) :
    tb.front? q.2 = some q ↔ ∀ r, ¬ ([r, q].Sublist tb ∧ r.2 <+: q.2) := by
  constructor
  · rintro h r ⟨hbefore, hr⟩
    exact front?_ne_of_before htb hbefore hr h
  · intro h
    obtain ⟨r, hr⟩ := exists_front? hq (List.prefix_refl _)
    rcases front?_before hr hq (List.prefix_refl _) with rfl | hbefore
    · exact hr
    · exact absurd ⟨hbefore, front?_prefix hr⟩ (h r)

end WordTable

open WordTable

/-! ## The words of the classic lexicon -/

/-- the words of the classic lexicon but for quantifiers, in the order in which they are tried -/
def classicWords : WordTable :=
  [("and", "oraz"), ("and", "and"), ("and", "^"), ("and", "&"), ("or", "v"), ("or", "or"), ("or", "lub"), ("or", "|"),
    ("not", "~"), ("not", "not"), ("not", "!"), ("imp", "imp"), ("imp", "->"), ("turnstile", "|-"), ("turnstile", "=>"),
    ("falsum", "bot"), ("falsum", "F")].map (fun (k, w) => (k, w.toList)) ++
    ((CharItem.between 'a' 'z').map fun c => ("sentvar", [c])) ++
    [("sep", [';']), ("signfalse", ['F']), ("signtrue", ['T'])]

/-- some rule for the kind takes part -/
def speaks (tags : List String) (kind : String) : Bool :=
  (Lexicon.classic.rules.filter (Selection.admits { languages := tags })).any (·.kind == kind)

/-- the words of the languages that are asked for -/
def dialect (tags : List String) : WordTable := classicWords.filter fun r => speaks tags r.1

variable {tags : List String}

theorem mem_dialect {r : String × List Char} : r ∈ dialect tags ↔
    r ∈ classicWords ∧ ∃ rule ∈ Lexicon.classic.rules, rule.kind = r.1 ∧ Selection.admits { languages := tags }
    rule = true := by
  simp only [dialect, speaks, List.mem_filter, List.any_eq_true, beq_iff_eq]
  refine and_congr_right fun _ => exists_congr fun rule => ?_
  rw [and_assoc, and_comm (a := rule.kind = r.1)]

/-- the words that are the beginning of a word behind them, with that word -/
def clashes : List ((String × List Char) × (String × List Char)) :=
  [(("or", ['|']), ("turnstile", ['|', '-'])), (("or", ['v']), ("sentvar", ['v'])),
    (("falsum", ['F']), ("signfalse", ['F']))]

theorem classicWords_clash {r q : String × List Char} :
    [r, q].Sublist classicWords ∧ r.2 <+: q.2 ↔ (r, q) ∈ clashes := by
  constructor
  · have hall : classicWords.Pairwise fun r q => r.2 <+: q.2 → (r, q) ∈ clashes := by decide
    rintro ⟨hbefore, hpre⟩
    exact List.pairwise_iff_forall_sublist.1 hall hbefore hpre
  · have hall : ∀ c ∈ clashes, [c.1, c.2].Sublist classicWords ∧ c.1.2 <+: c.2.2 := by decide
    exact hall (r, q)

theorem mem_of_clash {r q : String × List Char} (h : (r, q) ∈ clashes) : r ∈ classicWords ∧ q ∈ classicWords := by
  obtain ⟨hbefore, -⟩ := classicWords_clash.2 h
  exact ⟨hbefore.subset (by simp), hbefore.subset (by simp)⟩

theorem dialect_clash {r q : String × List Char} :
    [r, q].Sublist (dialect tags) ∧ r.2 <+: q.2 ↔ (r, q) ∈ clashes ∧ r ∈ dialect tags ∧ q ∈ dialect tags := by
  rw [← classicWords_clash]
  constructor
  · rintro ⟨hbefore, hpre⟩
    exact ⟨⟨hbefore.trans List.filter_sublist, hpre⟩, hbefore.subset (by simp), hbefore.subset (by simp)⟩
  · rintro ⟨⟨hbefore, hpre⟩, hr, hq⟩
    have hkept := hbefore.filter fun r => speaks tags r.1
    rw [List.filter_cons, List.filter_cons, if_pos (List.mem_filter.1 hr).2, if_pos (List.mem_filter.1 hq).2] at hkept
    exact ⟨hkept, hpre⟩

theorem dialect_nodup (tags : List String) : (dialect tags).Nodup :=
  List.Nodup.filter _ (by decide : classicWords.Nodup)

/-- words of a kind that is declared for one language alone -/
theorem mem_dialect_iff {kind tag : String} {w : List Char} (hw : (kind, w) ∈ classicWords)
    (hrules : (Lexicon.classic.rules.filter (·.kind == kind)).map (·.constraints) = [[.language tag]]) :
    (kind, w) ∈ dialect tags ↔ tag ∈ tags := by
  have hrule : ∀ cs, (∃ rule ∈ Lexicon.classic.rules, rule.kind = kind ∧ rule.constraints = cs) ↔
      cs = [.language tag] := by
    intro cs
    rw [← List.mem_singleton, ← hrules]
    simp [and_assoc]
  rw [mem_dialect, and_iff_right hw]
  constructor
  · rintro ⟨rule, hmem, hkind, hadmits⟩
    have hconstraints := (hrule rule.constraints).1 ⟨rule, hmem, hkind, rfl⟩
    simpa [Selection.admits, Selection.allows, hconstraints] using hadmits
  · intro htag
    obtain ⟨rule, hmem, hkind, hconstraints⟩ := (hrule _).2 rfl
    exact ⟨rule, hmem, hkind, by simpa [Selection.admits, Selection.allows, hconstraints] using htag⟩

/-- the longest word is found, but for a turnstile that begins like a disjunction -/
theorem front?_longest_iff {s : List Char} {r : String × List Char} (hr : (dialect tags).front? s = some r) :
    (∀ q ∈ dialect tags, q.2 <+: s → q.2.length ≤ r.2.length) ↔
      ¬ ("propositional" ∈ tags ∧ "sequent calculus" ∈ tags ∧ ['|', '-'] <+: s) := by
  obtain ⟨hbar, hdash⟩ := mem_of_clash (r := ("or", ['|'])) (q := ("turnstile", ['|', '-'])) (by decide)
  have hor : _ ↔ "propositional" ∈ tags := mem_dialect_iff hbar (by decide)
  have hturnstile : _ ↔ "sequent calculus" ∈ tags := mem_dialect_iff hdash (by decide)
  constructor
  · rintro hlongest ⟨hprop, hseq, hpre⟩
    obtain ⟨hbefore, hshort⟩ := dialect_clash.2 ⟨by decide, hor.2 hprop, hturnstile.2 hseq⟩
    have hlen := hlongest _ (hturnstile.2 hseq) hpre
    -- nothing else begins like a turnstile
    have honly : ∀ q ∈ classicWords, ['|', '-'] <+: q.2 → q = ("turnstile", ['|', '-']) := by decide
    have hfront := front?_prefix hr
    have hfound := honly r (List.mem_filter.1 (front?_mem hr)).1 (List.prefix_of_prefix_length_le hpre hfront hlen)
    exact front?_ne_of_before (dialect_nodup tags) hbefore (hshort.trans hpre) (hfound ▸ hr)
  · intro hnot q hq hpre
    rcases length_le_front? hr hq hpre with hlen | hclash
    · exact hlen
    · obtain ⟨hclash, hmem, -⟩ := dialect_clash.1 hclash
      simp only [clashes, List.mem_cons, Prod.mk.injEq, List.not_mem_nil, or_false] at hclash
      rcases hclash with ⟨rfl, rfl⟩ | ⟨rfl, rfl⟩ | ⟨rfl, rfl⟩
      · exact absurd ⟨hor.1 hmem, hturnstile.1 hq, hpre⟩ hnot
      · exact Nat.le_refl _
      · exact Nat.le_refl _

/-- a word that stands alone is found, but for three that begin with a word before them -/
theorem front?_alone_dialect_iff {q : String × List Char} (hq : q ∈ dialect tags) : (dialect tags).front? q.2 = some q ↔
    ¬ (q = ("turnstile", ['|', '-']) ∧ "propositional" ∈ tags ∨ q = ("sentvar", ['v']) ∨
      q = ("signfalse", ['F']) ∧ "sequent calculus" ∈ tags) := by
  obtain ⟨hbar, -⟩ := mem_of_clash (r := ("or", ['|'])) (q := ("turnstile", ['|', '-'])) (by decide)
  obtain ⟨hletter, -⟩ := mem_of_clash (r := ("or", ['v'])) (q := ("sentvar", ['v'])) (by decide)
  obtain ⟨hcapital, -⟩ := mem_of_clash (r := ("falsum", ['F'])) (q := ("signfalse", ['F'])) (by decide)
  have hor : _ ↔ "propositional" ∈ tags := mem_dialect_iff hbar (by decide)
  have hfalsum : _ ↔ "sequent calculus" ∈ tags := mem_dialect_iff hcapital (by decide)
  rw [front?_alone_iff (dialect_nodup tags) hq, ← not_exists, not_iff_not]
  simp only [dialect_clash]
  constructor
  · rintro ⟨r, hclash, hr, -⟩
    simp only [clashes, List.mem_cons, Prod.mk.injEq, List.not_mem_nil, or_false] at hclash
    rcases hclash with ⟨rfl, rfl⟩ | ⟨rfl, rfl⟩ | ⟨rfl, rfl⟩
    · exact .inl ⟨rfl, hor.1 hr⟩
    · exact .inr (.inl rfl)
    · exact .inr (.inr ⟨rfl, hfalsum.1 hr⟩)
  · rintro (⟨rfl, hprop⟩ | rfl | ⟨rfl, hseq⟩)
    · exact ⟨_, by decide, hor.2 hprop, hq⟩
    · -- variables are of the same language as disjunctions
      have hvariables : ∀ rule ∈ Lexicon.classic.rules, rule.kind = "sentvar" → .language "propositional" ∈
          rule.constraints := by
        decide
      obtain ⟨-, rule, hrule, hkind, hadmits⟩ := mem_dialect.1 hq
      have hprop := ((Selection.admits_iff _ _).1 hadmits).1 _ (hvariables rule hrule hkind)
      exact ⟨_, by decide, (mem_dialect_iff hletter (by decide)).2 hprop, hq⟩
    · exact ⟨_, by decide, hfalsum.2 hseq, hq⟩

/-! ## Lexems that match -/

/-- the words that a lexem stands for, in order of preference -/
def lexemWords (lexem : String) : List (List Char) := ((Pattern.read true lexem).toOption.bind Pattern.words?).getD []

/-- some lexem of a rule that takes part matches the word at the place -/
def Offers (tags : List String) (s : Pattern.Place) (kind : String) (w : List Char) : Prop :=
  ∃ lexem ∈ Lexicon.classic.lexemsOf { languages := tags } kind, ∃ p e, Pattern.read true lexem = .ok p ∧
  p.firstEnd? s = some e ∧ s.upTo e = w

/-- words none of which is the beginning of another: at most one of them stands at a place -/
theorem find?_eq_some_iff_mem {ws : List (List Char)} (hws : ∀ u ∈ ws, ∀ v ∈ ws, u <+: v → u = v) {cs w : List Char} :
    ws.find? (·.isPrefixOf cs) = some w ↔ w ∈ ws ∧ w <+: cs := by
  constructor
  · intro h
    exact ⟨List.mem_of_find?_eq_some h, by simpa using List.find?_some h⟩
  · rintro ⟨hw, hpre⟩
    cases h : ws.find? (·.isPrefixOf cs) with
    | none => exact absurd (List.find?_eq_none.1 h w hw) (by simpa using hpre)
    | some u =>
      have hu : u <+: cs := by simpa using List.find?_some h
      have hmem := List.mem_of_find?_eq_some h
      rcases List.prefix_or_prefix_of_prefix hu hpre with hshort | hshort
      · rw [hws u hmem w hw hshort]
      · rw [hws w hw u hmem hshort]

/-- a lexem that lists its words matches the one of them that stands at the place -/
theorem matches_lexem_iff {lexem : String} (hne : lexemWords lexem ≠ [])
    (hfree : ∀ u ∈ lexemWords lexem, ∀ v ∈ lexemWords lexem, u <+: v → u = v) {s : Pattern.Place} {w : List Char} :
    (∃ p e, Pattern.read true lexem = .ok p ∧ p.firstEnd? s = some e ∧ s.upTo e = w) ↔ w ∈ lexemWords lexem ∧
    w <+: s.rest := by
  obtain ⟨ws, hws, hwords⟩ : ∃ ws, (Pattern.read true lexem).toOption.bind Pattern.words? = some ws ∧
    lexemWords lexem = ws := by
    unfold lexemWords at hne ⊢
    cases h : (Pattern.read true lexem).toOption.bind Pattern.words? with
    | none => simp [h] at hne
    | some ws => exact ⟨ws, rfl, rfl⟩
  obtain ⟨p, hp, hpw⟩ := Option.bind_eq_some_iff.1 hws
  have hread := eq_ok_of_toOption hp
  rw [hwords] at hfree ⊢
  rw [← find?_eq_some_iff_mem hfree]
  constructor
  · rintro ⟨p', e, hp', he, rfl⟩
    obtain rfl := Except.ok.inj (hread.symm.trans hp')
    rw [Pattern.firstEnd?_eq_of_words? hpw] at he
    obtain ⟨w, hw, rfl⟩ := Option.map_eq_some_iff.1 he
    rw [hw, Pattern.Place.upTo_after (by simpa using List.find?_some hw)]
  · intro hw
    exact ⟨p, s.after w, hread, by rw [Pattern.firstEnd?_eq_of_words? hpw, hw]; rfl,
      Pattern.Place.upTo_after (by simpa using List.find?_some hw)⟩

/-- the rules of the classic lexicon that can take part in a lexer -/
def plainRules : List LexicalRule :=
  Lexicon.classic.rules.filter fun r => !r.constraints.contains .readOnly &&
  !r.constraints.contains (.language "predicate")

/-- their lexems list the words of their kind; none of the words of a lexem is the beginning of another -/
theorem lexemWords_classic {rule : LexicalRule} (hrule : rule ∈ plainRules) :
    (∀ lexem ∈ rule.lexems, lexemWords lexem ≠ [] ∧ ∀ u ∈ lexemWords lexem, ∀ v ∈ lexemWords lexem, u <+: v → u = v) ∧
    ∀ w, (∃ lexem ∈ rule.lexems, w ∈ lexemWords lexem) ↔ (rule.kind, w) ∈ classicWords := by
  have hfree : ∀ rule ∈ plainRules, ∀ lexem ∈ rule.lexems, lexemWords lexem ≠ [] ∧
      ∀ u ∈ lexemWords lexem, ∀ v ∈ lexemWords lexem, u <+: v → u = v := by decide +kernel
  have hsub : ∀ rule ∈ plainRules, ∀ lexem ∈ rule.lexems, ∀ w ∈ lexemWords lexem, (rule.kind, w) ∈ classicWords := by
    decide +kernel
  have hsup : ∀ rule ∈ plainRules, ∀ q ∈ classicWords, q.1 = rule.kind → ∃ lexem ∈ rule.lexems,
      q.2 ∈ lexemWords lexem := by
    decide +kernel
  refine ⟨hfree rule hrule, fun w => ⟨fun ⟨lexem, hlexem, hw⟩ => hsub rule hrule lexem hlexem w hw, fun hmem => ?_⟩⟩
  exact hsup rule hrule _ hmem rfl

/-- **The words on offer** at a place are those of the languages that are asked for. -/
theorem offers_iff (hpred : "predicate" ∉ tags) {s : Pattern.Place} {kind : String} {w : List Char} :
    Offers tags s kind w ↔ (kind, w) ∈ dialect tags ∧ w <+: s.rest := by
  have hplain {rule : LexicalRule} (hrule : rule ∈ Lexicon.classic.rules)
      (hadmits : Selection.admits { languages := tags } rule = true) : rule ∈ plainRules := by
    obtain ⟨hlanguages, hread⟩ := (Selection.admits_iff _ _).1 hadmits
    exact List.mem_filter.2 ⟨hrule, by simpa using ⟨fun h => by simpa using hread h, fun h => hpred (hlanguages _ h)⟩⟩
  simp only [Offers, Lexicon.lexemsOf, List.mem_flatMap, List.mem_filter, Bool.and_eq_true, beq_iff_eq]
  rw [mem_dialect]
  constructor
  · rintro ⟨lexem, ⟨rule, ⟨hrule, rfl, hadmits⟩, hlexem⟩, hmatch⟩
    obtain ⟨hlexems, hwords⟩ := lexemWords_classic (hplain hrule hadmits)
    obtain ⟨hne, hfree⟩ := hlexems lexem hlexem
    obtain ⟨hw, hpre⟩ := (matches_lexem_iff hne hfree).1 hmatch
    exact ⟨⟨(hwords w).1 ⟨lexem, hlexem, hw⟩, rule, hrule, rfl, hadmits⟩, hpre⟩
  · rintro ⟨⟨hmem, rule, hrule, rfl, hadmits⟩, hpre⟩
    obtain ⟨hlexems, hwords⟩ := lexemWords_classic (hplain hrule hadmits)
    obtain ⟨lexem, hlexem, hw⟩ := (hwords w).2 hmem
    obtain ⟨hne, hfree⟩ := hlexems lexem hlexem
    exact ⟨lexem, ⟨rule, ⟨hrule, rfl, hadmits⟩, hlexem⟩, (matches_lexem_iff hne hfree).2 ⟨hw, hpre⟩⟩

end Lexer

end TableauTutor
