import TableauTutor.Calculus.Basic
import TableauTutor.Proofs.Grammar
import TableauTutor.Proofs.UniqueReadability

/-!
What sentences say. A sentence of propositional logic that the syntax check accepts expresses one proposition, the one
that its tree stands for. `Reads` is for sentences that no pair of brackets encloses: those are what rules take apart.
-/

namespace TableauTutor

/-! ## Symbols -/

namespace Symbol

/-- the kinds of the symbols that formulas are made of, brackets apart -/
def letterKinds : List String := ["sentvar", "not", "and", "or", "imp"]

theorem letterKinds_cases {k : String} (hk : k ∈ letterKinds) :
    k = "sentvar" ∨ k = "not" ∨ k = "and" ∨ k = "or" ∨ k = "imp" := by
  simpa [letterKinds] using hk

/-- a symbol that is not a bracket: a variable or a connective, with the way it is written -/
def IsLetter (y : Symbol) : Prop := ∃ k ∈ letterKinds, ∃ l, y = of k l

/-- a symbol that can stand in a formula -/
def InLanguage (y : Symbol) : Prop := y = "(" ∨ y = ")" ∨ IsLetter y

theorem toList_of (k l : String) : (of k l).toList = k.toList ++ '_' :: l.toList := by
  simp [of]

theorem underscore_notMem {k : String} (hk : k ∈ letterKinds) : '_' ∉ k.toList := by
  rcases letterKinds_cases hk with rfl | rfl | rfl | rfl | rfl <;> decide

theorem kind_of {k : String} (hk : '_' ∉ k.toList) (l : String) : (of k l).kind = k := by
  have hall : ∀ a ∈ k.toList, (a != '_') = true := by
    intro a ha
    simpa using fun h : a = '_' => hk (h ▸ ha)
  rw [kind, toList_of, List.takeWhile_append_of_pos hall]
  simp

theorem IsLetter.kind_mem {y : Symbol} (h : IsLetter y) : y.kind ∈ letterKinds := by
  obtain ⟨k, hk, l, rfl⟩ := h
  rwa [kind_of (underscore_notMem hk)]

theorem IsLetter.not_bracket {y : Symbol} (h : IsLetter y) : y ≠ "(" ∧ y ≠ ")" := by
  obtain ⟨k, hk, l, rfl⟩ := h
  have hmem : '_' ∈ (of k l).toList := by simp [toList_of]
  constructor
  · intro h
    rw [h] at hmem
    exact absurd hmem (by decide)
  · intro h
    rw [h] at hmem
    exact absurd hmem (by decide)

theorem startsWith_of (head k l : String) :
    Text.startsWith head (of k l) = head.toList.isPrefixOf (k.toList ++ '_' :: l.toList) := by
  rw [Text.startsWith, toList_of]

theorem IsLetter.startsWith_not {y : Symbol} (h : IsLetter y) :
    Text.startsWith "not" y = decide (y.kind = "not") ∧ Calculus.isNegation y = decide (y.kind = "not") := by
  obtain ⟨k, hk, l, rfl⟩ := h
  rw [kind_of (underscore_notMem hk), Calculus.isNegation, startsWith_of, startsWith_of]
  rcases letterKinds_cases hk with rfl | rfl | rfl | rfl | rfl <;> simp [List.isPrefixOf]

theorem IsLetter.not_sign {y : Symbol} (h : IsLetter y) :
    Text.startsWith "signtrue" y = false ∧ Text.startsWith "signfalse" y = false := by
  obtain ⟨k, hk, l, rfl⟩ := h
  rw [startsWith_of, startsWith_of]
  rcases letterKinds_cases hk with rfl | rfl | rfl | rfl | rfl <;> simp [List.isPrefixOf]

@[simp] theorem toToken_lexem (y : Symbol) : (toToken y).lexem = y := by
  unfold toToken
  split <;> rfl

theorem toToken_injective {y z : Symbol} (h : toToken y = toToken z) : y = z := by
  have := congrArg Token.lexem h
  simpa using this

@[simp] theorem toToken_left : toToken "(" = Token.leftBracket := rfl

@[simp] theorem toToken_right : toToken ")" = Token.rightBracket := rfl

theorem IsLetter.toToken {y : Symbol} (h : IsLetter y) : toToken y = ⟨y.kind, y, false⟩ := by
  rw [Symbol.toToken, if_neg (by simpa using h.not_bracket)]

end Symbol

/-! ## Propositions -/

/-- the two-place connectives -/
inductive Junctor where
  | conj
  | disj
  | impl
deriving DecidableEq, Repr

namespace Junctor

/-- the kind of the symbols that stand for a connective -/
def kind : Junctor → String
  | conj => "and"
  | disj => "or"
  | impl => "imp"

def eval : Junctor → Bool → Bool → Bool
  | conj, a, b => a && b
  | disj, a, b => a || b
  | impl, a, b => !a || b

/-- the connective that symbols of a kind stand for -/
def ofKind? (k : String) : Option Junctor :=
  if k = "and" then some conj else if k = "or" then some disj else if k = "imp" then some impl else none

theorem ofKind?_eq_some {k : String} {o : Junctor} : ofKind? k = some o ↔ k = o.kind := by
  unfold ofKind?
  cases o <;> (simp only [kind]; grind)

end Junctor

/-- what a sentence says, however it is written -/
inductive Proposition where
  | var (x : Symbol)
  | neg (a : Proposition)
  | join (o : Junctor) (a b : Proposition)
deriving DecidableEq, Repr

/-- is the proposition true when the variables have the given values -/
def Proposition.eval (v : Symbol → Bool) : Proposition → Bool
  | var x => v x
  | neg a => !a.eval v
  | join o a b => o.eval (a.eval v) (b.eval v)

/-- what a tree says; none if there is a connective that is not known -/
def SyntaxTree.proposition? : SyntaxTree → Option Proposition
  | atom a => some (.var a.lexem)
  | unary op x => if op.kind = "not" then x.proposition?.map .neg else none
  | binary op l r => do
    let o ← Junctor.ofKind? op.kind
    let a ← l.proposition?
    let b ← r.proposition?
    return .join o a b

namespace Sentence

def tokens (s : Sentence) : List Token := s.map Symbol.toToken

def InLanguage (s : Sentence) : Prop := ∀ y ∈ s, Symbol.InLanguage y

/-- the sentence is a formula of propositional logic that says what is given -/
def Expresses (s : Sentence) (a : Proposition) : Prop :=
  s.InLanguage ∧ ∃ t, Spells .propositional t s.tokens ∧ t.proposition? = some a

/-- the sentence is such a formula, and what it says is true under every valuation -/
def Tautology (s : Sentence) : Prop := ∃ a, s.Expresses a ∧ ∀ v, a.eval v = true

/-- the sentence is such a formula, and no pair of brackets encloses it -/
def Reads (s : Sentence) (a : Proposition) : Prop := s.Expresses a ∧ ¬ Enclosed s.tokens

/-! ## Sentences and their tokens -/

@[simp] theorem tokens_nil : tokens [] = [] := rfl

@[simp] theorem tokens_cons (y : Symbol) (s : Sentence) : tokens (y :: s) = y.toToken :: s.tokens := rfl

@[simp] theorem tokens_append (s t : Sentence) : tokens (s ++ t) = s.tokens ++ t.tokens := List.map_append

theorem tokens_injective {s t : Sentence} (h : s.tokens = t.tokens) : s = t :=
  (List.map_inj_right fun _ _ => Symbol.toToken_injective).1 h

@[simp] theorem ofFormula_tokens (s : Sentence) : ofFormula ⟨s.tokens, []⟩ = s := by
  simp [ofFormula, Formula.lexems, tokens, Function.comp_def]

/-- a number of brackets on either side of a sentence -/
def wrapped (n : Nat) (s : Sentence) : Sentence := List.replicate n "(" ++ s ++ List.replicate n ")"

@[simp] theorem tokens_wrapped (n : Nat) (s : Sentence) : (s.wrapped n).tokens = wrap n s.tokens := by
  simp [wrapped, wrap, tokens]

theorem wrapped_zero (s : Sentence) : s.wrapped 0 = s := by simp [wrapped]

/-- brackets, and symbols of the kinds of the language that are a kind and a lexem -/
theorem inLanguage_of_symbols {s : Sentence}
    (h : ∀ y ∈ s, y = "(" ∨ y = ")" ∨ (y.kind ∈ Symbol.letterKinds ∧ y = .of y.kind y.lexem)) : s.InLanguage :=
  fun y hy => (h y hy).imp id (.imp id fun h => ⟨y.kind, h.1, y.lexem, h.2⟩)

theorem InLanguage.of_append {s t : Sentence} (h : InLanguage (s ++ t)) : s.InLanguage ∧ t.InLanguage :=
  ⟨fun y hy => h y (List.mem_append_left _ hy), fun y hy => h y (List.mem_append_right _ hy)⟩

theorem InLanguage.of_cons {y : Symbol} {t : Sentence} (h : InLanguage (y :: t)) : y.InLanguage ∧ t.InLanguage :=
  ⟨h y List.mem_cons_self, fun z hz => h z (List.mem_cons_of_mem _ hz)⟩

theorem InLanguage.of_wrapped {n : Nat} {s : Sentence} (h : (s.wrapped n).InLanguage) : s.InLanguage :=
  fun y hy => h y (by simp [wrapped, hy])

theorem inLanguage_wrapped {n : Nat} {s : Sentence} (h : s.InLanguage) : (s.wrapped n).InLanguage := by
  intro y hy
  simp only [wrapped, List.mem_append, List.mem_replicate] at hy
  rcases hy with (⟨-, rfl⟩ | hy) | ⟨-, rfl⟩
  · exact .inl rfl
  · exact h y hy
  · exact .inr (.inl rfl)

theorem exists_of_tokens_eq_wrap {s : Sentence} {n : Nat} {us : List Token} (h : s.tokens = wrap n us) :
    ∃ t : Sentence, us = t.tokens ∧ s = t.wrapped n := by
  have hmem : ∀ u ∈ us, Symbol.toToken u.lexem = u := by
    intro u hu
    have : u ∈ s.tokens := by simp [h, wrap, hu]
    obtain ⟨y, -, rfl⟩ := List.mem_map.1 this
    simp
  have hus : us = tokens (us.map (·.lexem)) := by
    rw [tokens, List.map_map]
    conv_lhs => rw [← List.map_id us]
    exact List.map_congr_left fun u hu => (hmem u hu).symm
  exact ⟨_, hus, tokens_injective (by rw [h, tokens_wrapped, ← hus])⟩

/-! ## Formulas and what they say -/

theorem Expresses.balanced {s : Sentence} {a : Proposition} (h : s.Expresses a) : Balanced s.tokens := by
  obtain ⟨-, t, ⟨b, ht⟩, -⟩ := h
  exact ht.balanced

theorem Expresses.hasSymbol {s : Sentence} {a : Proposition} (h : s.Expresses a) : HasSymbol s.tokens := by
  obtain ⟨-, t, ⟨b, ht⟩, -⟩ := h
  exact ht.hasSymbol

/-- a formula is one without an enclosing pair, in some number of pairs -/
theorem Expresses.exists_reads {s : Sentence} {a : Proposition} (h : s.Expresses a) :
    ∃ (n : Nat) (t : Sentence), s = t.wrapped n ∧ t.Reads a := by
  obtain ⟨hs, tree, ⟨b, htree⟩, ha⟩ := h
  obtain ⟨n, v, hv, hbare⟩ := htree.exists_bare
  obtain ⟨t, rfl, rfl⟩ := exists_of_tokens_eq_wrap hv
  exact ⟨n, t, rfl, ⟨hs.of_wrapped, tree, ⟨false, hbare⟩, ha⟩, hbare.not_enclosed⟩

theorem Reads.spelling {s : Sentence} {a : Proposition} (h : s.Reads a) :
    ∃ t, Spelling .propositional t false s.tokens ∧ t.proposition? = some a := by
  obtain ⟨⟨-, t, ht, ha⟩, henc⟩ := h
  exact ⟨t, ht.bare henc, ha⟩

theorem Reads.wrapped {s : Sentence} {a : Proposition} (h : s.Reads a) (n : Nat) : (s.wrapped n).Expresses a := by
  obtain ⟨t, ht, ha⟩ := h.spelling
  obtain ⟨b, hb⟩ := ht.wrap n
  exact ⟨inLanguage_wrapped h.1.1, t, ⟨b, by rwa [tokens_wrapped]⟩, ha⟩

theorem Reads.unique {s : Sentence} {a b : Proposition} (ha : s.Reads a) (hb : s.Reads b) : a = b := by
  obtain ⟨t, ht, hta⟩ := ha.spelling
  obtain ⟨u, hu, hub⟩ := hb.spelling
  have h1 := recover?_of_spelling Connectives.regular_propositional ht le_rfl
  have h2 := recover?_of_spelling Connectives.regular_propositional hu le_rfl
  rw [h1, Option.some.injEq] at h2
  rw [h2, hub, Option.some.injEq] at hta
  exact hta.symm

theorem Expresses.unique {s : Sentence} {a b : Proposition} (ha : s.Expresses a) (hb : s.Expresses b) : a = b := by
  obtain ⟨m, t, rfl, ht⟩ := ha.exists_reads
  obtain ⟨n, u, hu, hub⟩ := hb.exists_reads
  have htok := congrArg tokens hu
  rw [tokens_wrapped, tokens_wrapped] at htok
  obtain rfl := tokens_injective (wrap_eq_wrap ht.1.balanced ht.2 hub.1.balanced hub.2 htok)
  exact ht.unique hub

/-- **A part of a sentence**, completed by brackets so that it is a formula, is read
without the pairs that enclose it. -/
theorem part_reads {u u' : Sentence} {a : Proposition} (hu : HasSymbol u.tokens) (hc : complete u.tokens = u'.tokens)
    (h : u'.Expresses a) :
    ∃ (t : Sentence) (n : Nat), Formula.part (σ := Rat) u.tokens [] = .ok (some ⟨t.tokens, []⟩) ∧ u' = t.wrapped n ∧
    t.Reads a := by
  obtain ⟨n, t, rfl, ht⟩ := h.exists_reads
  obtain ⟨us, hpart, hbal, henc, k, hk⟩ := part_bare (σ := Rat) hu
  rw [hc, tokens_wrapped] at hk
  obtain rfl := wrap_eq_wrap ht.1.balanced ht.2 hbal henc hk
  exact ⟨t, n, hpart, rfl, ht⟩

theorem Reads.reduce {s : Sentence} {a : Proposition} (h : s.Reads a) : s.reduce = .ok s := by
  rw [Sentence.reduce, toFormula, ← tokens, reduceBrackets_self h.1.hasSymbol h.1.balanced h.2]
  exact congrArg Except.ok (ofFormula_tokens s)

/-! ## Taking a formula apart -/

theorem isLetter_of_isSymbol {y : Symbol} (hy : y.InLanguage) (h : Connectives.IsSymbol y.toToken) : y.IsLetter := by
  rcases hy with rfl | rfl | hy
  · exact absurd rfl h.1
  · exact absurd rfl h.2
  · exact hy

theorem isAtom_iff {y : Symbol} (hy : y.IsLetter) :
    Connectives.IsAtom .propositional y.toToken ↔ y.kind = "sentvar" := by
  rw [Connectives.IsAtom, Connectives.IsSymbol, hy.toToken]
  rcases Symbol.letterKinds_cases hy.kind_mem with hk | hk | hk | hk | hk <;>
    simp [hk, Connectives.propositional, List.lookup_cons]

theorem isUnary_iff {y : Symbol} (hy : y.IsLetter) {p : Int} :
    Connectives.IsUnary .propositional y.toToken p ↔ y.kind = "not" ∧ p = 4 := by
  rw [Connectives.IsUnary, Connectives.IsSymbol, hy.toToken]
  rcases Symbol.letterKinds_cases hy.kind_mem with hk | hk | hk | hk | hk <;>
    simp [hk, Connectives.propositional, List.lookup_cons, eq_comm]

theorem Reads.var_eq {s : Sentence} {x : Symbol} (h : s.Reads (.var x)) :
    s = [x] ∧ x.IsLetter ∧ x.kind = "sentvar" := by
  obtain ⟨t, ht, hx⟩ := h.spelling
  cases t with
  | atom a =>
    obtain rfl : a.lexem = x := by simpa [SyntaxTree.proposition?] using hx
    generalize hw : s.tokens = w at ht
    cases ht with
    | atom ha =>
      obtain ⟨y, rfl, rfl⟩ : ∃ y, s = [y] ∧ y.toToken = a := by
        cases s with
        | nil => simp at hw
        | cons y s => cases s <;> simp_all
      have hy := isLetter_of_isSymbol (h.1.1 y List.mem_cons_self) ha.1
      rw [Symbol.toToken_lexem]
      exact ⟨rfl, hy, (isAtom_iff hy).1 ha⟩
  | unary op x => simp [SyntaxTree.proposition?] at hx
  | binary op l r => simp [SyntaxTree.proposition?, Option.bind_eq_some_iff] at hx

theorem mainConnective_eq {s : Sentence} {i : Option Int}
    (h : Formula.mainConnective .propositional (⟨s.tokens, []⟩ : Formula Rat) = .ok i) : s.mainConnective = .ok i :=
  congrArg Outcome.ofFormula h

theorem parts_eq {s : Sentence} {k : Option (Formula.Components Rat)}
    (h : Formula.components .propositional ⟨s.tokens, []⟩ = .ok k) :
    s.parts = .ok (k.map fun k => ⟨k.connective.lexem, k.left.map ofFormula, k.right.map ofFormula⟩) :=
  congrArg (fun r => Outcome.ofFormula (Except.map _ r)) h

theorem Reads.parts_var {s : Sentence} {x : Symbol} (h : s.Reads (.var x)) :
    s.mainConnective = .ok none ∧ s.parts = .ok none := by
  obtain ⟨rfl, hy, hk⟩ := h.var_eq
  have ha := (isAtom_iff hy).2 hk
  exact ⟨mainConnective_eq (s := [x]) (mainConnective_atom ha), parts_eq (s := [x]) (components_atom ha)⟩

/-- a formula that says a negation is a symbol for it and a formula, maybe in brackets, that says what is negated -/
theorem Reads.neg_eq {s : Sentence} {a : Proposition} (h : s.Reads (.neg a)) :
    ∃ (y : Symbol) (n : Nat) (t : Sentence), s = y :: t.wrapped n ∧ y.IsLetter ∧ y.kind = "not" ∧ t.Reads a ∧
      s.mainConnective = .ok (some 0) ∧ s.parts = .ok (some ⟨y, none, some t⟩) := by
  obtain ⟨tree, ht, ha⟩ := h.spelling
  cases tree with
  | atom a => simp [SyntaxTree.proposition?] at ha
  | unary op x =>
    obtain ⟨hop, a', ha', rfl⟩ : op.kind = "not" ∧ ∃ a', x.proposition? = some a' ∧ a' = a := by
      simpa [SyntaxTree.proposition?] using ha
    generalize hw : s.tokens = w at ht
    cases ht with
    | @unary _ p _ b w hu hx hfit =>
      obtain ⟨y, u, rfl⟩ : ∃ y u, s = y :: u := by
        cases s with
        | nil => simp at hw
        | cons y u => exact ⟨y, u, rfl⟩
      obtain ⟨rfl, rfl⟩ : y.toToken = op ∧ tokens u = w := by simpa using hw
      obtain ⟨hyl, hul⟩ := h.1.1.of_cons
      have hy := isLetter_of_isSymbol hyl hu.1
      obtain ⟨n, t, rfl, ht⟩ := Expresses.exists_reads ⟨hul, x, ⟨b, hx⟩, ha'⟩
      have hmain := mainConnective_unary Connectives.regular_propositional hu hx hfit
      obtain ⟨v, hcomp, hv, k, hk⟩ := components_unary Connectives.regular_propositional hu hx hfit
      obtain rfl := wrap_eq_wrap hv.balanced hv.not_enclosed ht.1.balanced ht.2 (by rw [← hk, tokens_wrapped])
      refine ⟨y, n, t, rfl, hy, ((isUnary_iff hy).1 hu).1, ht, mainConnective_eq hmain, ?_⟩
      rw [← tokens_cons] at hcomp
      rw [parts_eq hcomp]
      simp
  | binary op l r => simp [SyntaxTree.proposition?, Option.bind_eq_some_iff] at ha

/-- a formula that says a two-place connection is a symbol between spellings of what it connects -/
theorem Reads.exists_binary {s : Sentence} {o : Junctor} {a b : Proposition} (h : s.Reads (.join o a b)) :
    ∃ (u v : Sentence) (y : Symbol) (p : Int) (x z : SyntaxTree) (bl br : Bool), s = u ++ y :: v ∧
      Junctor.ofKind? y.toToken.kind = some o ∧ x.proposition? = some a ∧ z.proposition? = some b ∧
      Connectives.IsBinary .propositional y.toToken p ∧ Spelling .propositional x bl u.tokens ∧
      Spelling .propositional z br v.tokens ∧ (bl = true ∨ ∀ q ∈ x.precedence? .propositional, p ≤ q) ∧
      (br = true ∨ ∀ q ∈ z.precedence? .propositional, p < q) := by
  obtain ⟨tree, ht, hab⟩ := h.spelling
  cases tree with
  | atom a => simp [SyntaxTree.proposition?] at hab
  | unary op x => simp [SyntaxTree.proposition?] at hab
  | binary op x z =>
    obtain ⟨hop, hxa, hzb⟩ : Junctor.ofKind? op.kind = some o ∧ x.proposition? = some a ∧ z.proposition? = some b := by
      simpa [SyntaxTree.proposition?, Option.bind_eq_some_iff] using hab
    generalize hw : s.tokens = w at ht
    cases ht with
    | @binary _ p _ _ bl br wl wr hb hl hr hfl hfr =>
      obtain ⟨u, y, v, rfl, rfl, rfl, rfl⟩ :
          ∃ (u : Sentence) (y : Symbol) (v : Sentence), s = u ++ y :: v ∧ u.tokens = wl ∧ y.toToken = op ∧
          v.tokens = wr := by
        obtain ⟨u, v, rfl, hu, hv⟩ := List.map_eq_append_iff.1 hw
        obtain ⟨y, v', rfl, hy, hv'⟩ := List.map_eq_cons_iff.1 hv
        exact ⟨u, y, v', rfl, hu, hy, hv'⟩
      exact ⟨u, v, y, p, x, z, bl, br, rfl, hop, hxa, hzb, hb, hl, hr, hfl, hfr⟩

/-- a formula that says a two-place connection is a symbol between two formulas, maybe
in brackets, that say its sides -/
theorem Reads.join_eq {s : Sentence} {o : Junctor} {a b : Proposition} (h : s.Reads (.join o a b)) :
    ∃ (y : Symbol) (m n : Nat) (l r : Sentence), s = l.wrapped m ++ y :: r.wrapped n ∧ y.IsLetter ∧ y.kind = o.kind ∧
      l.Reads a ∧ r.Reads b ∧ s.mainConnective = .ok (some (l.wrapped m).length) ∧
      s.parts = .ok (some ⟨y, some l, some r⟩) := by
  obtain ⟨u, v, y, p, x, z, bl, br, rfl, hop, hxa, hzb, hb, hl, hr, hfl, hfr⟩ := h.exists_binary
  obtain ⟨hul, hyv⟩ := h.1.1.of_append
  obtain ⟨hyl, hvl⟩ := hyv.of_cons
  have hy := isLetter_of_isSymbol hyl hb.1
  have hmain := mainConnective_binary Connectives.regular_propositional hb hl hr hfl hfr
  obtain ⟨vl, vr, hcomp, hvl', hvr', ⟨j, hj⟩, ⟨k, hk⟩⟩ :=
    components_binary Connectives.regular_propositional hb hl hr hfl hfr
  obtain ⟨m, l, rfl, hla⟩ := Expresses.exists_reads ⟨hul, x, ⟨bl, hl⟩, hxa⟩
  obtain ⟨n, r, rfl, hrb⟩ := Expresses.exists_reads ⟨hvl, z, ⟨br, hr⟩, hzb⟩
  obtain rfl := wrap_eq_wrap hvl'.balanced hvl'.not_enclosed hla.1.balanced hla.2 (by rw [← hj, tokens_wrapped])
  obtain rfl := wrap_eq_wrap hvr'.balanced hvr'.not_enclosed hrb.1.balanced hrb.2 (by rw [← hk, tokens_wrapped])
  refine ⟨y, m, n, l, r, rfl, hy, ?_, hla, hrb, ?_, ?_⟩
  · rw [hy.toToken] at hop
    exact Junctor.ofKind?_eq_some.1 hop
  · refine mainConnective_eq ?_
    rw [tokens_append, tokens_cons, hmain, tokens, List.length_map]
  · rw [← tokens_cons, ← tokens_append] at hcomp
    rw [parts_eq hcomp]
    simp

theorem Reads.mainConnective_wrapped {s : Sentence} {o : Junctor} {a b : Proposition}
    (h : s.Reads (.join o a b)) {i : Int}
    (hi : s.mainConnective = .ok (some i)) (n : Nat) : (s.wrapped n).mainConnective = .ok (some (n + i)) := by
  obtain ⟨u, v, y, p, x, z, bl, br, rfl, -, -, -, hb, hl, hr, hfl, hfr⟩ := h.exists_binary
  have hmain (k : Nat) : (Sentence.wrapped k (u ++ y :: v)).mainConnective = .ok (some (k + u.tokens.length)) := by
    refine mainConnective_eq ?_
    rw [tokens_wrapped, tokens_append, tokens_cons]
    exact mainConnective_wrap_binary Connectives.regular_propositional hb hl hr hfl hfr k
  have hbare := hmain 0
  rw [wrapped_zero, hi] at hbare
  obtain rfl : i = u.tokens.length := by simpa using hbare
  exact hmain n

/-! ## The syntax check and formulas -/

theorem mark_left : Mark.ofSymbol? "(" = some .left := rfl

theorem mark_right : Mark.ofSymbol? ")" = some .right := rfl

theorem mark_letter {y : Symbol} (hy : y.IsLetter) :
    Mark.ofSymbol? y =
      some (if y.kind = "sentvar" then .atom else if y.kind = "not" then .unary else .binary) := by
  rw [Mark.ofSymbol?, if_neg hy.not_bracket.1, if_neg hy.not_bracket.2]
  rcases Symbol.letterKinds_cases hy.kind_mem with hk | hk | hk | hk | hk <;> simp [hk]

theorem isBinary_of_kind {y : Symbol} (hy : y.IsLetter) (h1 : y.kind ≠ "sentvar") (h2 : y.kind ≠ "not") :
    ∃ p, Connectives.IsBinary .propositional y.toToken p := by
  rw [hy.toToken]
  rcases Symbol.letterKinds_cases hy.kind_mem with hk | hk | hk | hk | hk <;>
    simp_all [Connectives.IsBinary, Connectives.IsSymbol, Connectives.propositional, List.lookup_cons]

theorem exists_mark {y : Symbol} (hy : y.InLanguage) : ∃ m, Mark.ofSymbol? y = some m := by
  rcases hy with rfl | rfl | hy
  · exact ⟨_, mark_left⟩
  · exact ⟨_, mark_right⟩
  · exact ⟨_, mark_letter hy⟩

/-- every symbol of the language has a mark, so an outline that falls into parts is that of a sentence that does -/
theorem InLanguage.outline_eq {s : Sentence} (h : s.InLanguage) : s.outline.map some = s.map Mark.ofSymbol? := by
  induction s with
  | nil => rfl
  | cons y s ih =>
    obtain ⟨hy, hs⟩ := h.of_cons
    obtain ⟨m, hm⟩ := exists_mark hy
    rw [outline, List.filterMap_cons_some hm, ← outline, List.map_cons, ih hs, List.map_cons, hm]

theorem InLanguage.outline_split {s : Sentence} (h : s.InLanguage) {u v : List Mark} (hs : s.outline = u ++ v) :
    ∃ a b : Sentence, s = a ++ b ∧ a.outline = u ∧ b.outline = v := by
  have hmap := h.outline_eq
  rw [hs, List.map_append, eq_comm] at hmap
  obtain ⟨a, b, rfl, ha, hb⟩ := List.map_eq_append_iff.1 hmap
  obtain ⟨hal, hbl⟩ := h.of_append
  rw [← hal.outline_eq] at ha
  rw [← hbl.outline_eq] at hb
  exact ⟨a, b, rfl, List.map_inj_right (fun _ _ => Option.some.inj) |>.1 ha,
    List.map_inj_right (fun _ _ => Option.some.inj) |>.1 hb⟩

theorem InLanguage.outline_single {s : Sentence} (h : s.InLanguage) {m : Mark} (hs : s.outline = [m]) :
    ∃ y, s = [y] ∧ Mark.ofSymbol? y = some m := by
  have hmap := h.outline_eq
  rw [hs, List.map_singleton, eq_comm, List.map_eq_singleton_iff] at hmap
  exact hmap

/-- what a mark says of the symbol it stands for -/
def Describes (y : Symbol) : Mark → Prop
  | .left => y = "("
  | .right => y = ")"
  | .atom => y.IsLetter ∧ y.kind = "sentvar"
  | .unary => y.IsLetter ∧ y.kind = "not"
  | .binary => y.IsLetter ∧ y.kind ≠ "sentvar" ∧ y.kind ≠ "not"

theorem describes_of_mark {y : Symbol} (hy : y.InLanguage) {m : Mark} (hm : Mark.ofSymbol? y = some m) :
    Describes y m := by
  rcases hy with rfl | rfl | hy
  · obtain rfl : Mark.left = m := by simpa [mark_left] using hm
    rfl
  · obtain rfl : Mark.right = m := by simpa [mark_right] using hm
    rfl
  · rw [mark_letter hy, Option.some.injEq] at hm
    subst hm
    by_cases h1 : y.kind = "sentvar"
    · simp [Describes, h1, hy]
    · by_cases h2 : y.kind = "not" <;> simp [Describes, h1, h2, hy]

/-- a sentence whose outline is a formula spells a tree -/
theorem exists_spelling {s : Sentence} (hs : s.InLanguage) (h : Outline.IsFormula s.outline) :
    ∃ t b, Spelling .propositional t b s.tokens := by
  generalize hw : s.outline = w at h
  induction h generalizing s with
  | atom =>
    obtain ⟨y, rfl, hy⟩ := hs.outline_single hw
    obtain ⟨hl, hk⟩ := describes_of_mark (hs y List.mem_cons_self) hy
    exact ⟨_, _, .atom ((isAtom_iff hl).2 hk)⟩
  | @unary w _ ih =>
    obtain ⟨a, b, rfl, ha, hb⟩ := hs.outline_split (u := [.unary]) (v := w) hw
    obtain ⟨hal, hbl⟩ := hs.of_append
    obtain ⟨y, rfl, hy⟩ := hal.outline_single ha
    obtain ⟨hl, hk⟩ := describes_of_mark (hal y List.mem_cons_self) hy
    obtain ⟨t, d, ht⟩ := ih hbl hb
    obtain ⟨t', ht', -⟩ := ht.unary_front Connectives.regular_propositional ((isUnary_iff hl).2 ⟨hk, rfl⟩)
    exact ⟨t', false, by simpa using ht'⟩
  | @binary u v _ _ ihu ihv =>
    obtain ⟨a, d, rfl, ha, hd⟩ := hs.outline_split hw
    obtain ⟨hal, hdl⟩ := hs.of_append
    obtain ⟨c, b, rfl, hc, hb⟩ := hdl.outline_split (u := [.binary]) (v := v) hd
    obtain ⟨hcl, hbl⟩ := hdl.of_append
    obtain ⟨y, rfl, hy⟩ := hcl.outline_single hc
    obtain ⟨hl, hk1, hk2⟩ := describes_of_mark (hcl y List.mem_cons_self) hy
    obtain ⟨p, hp⟩ := isBinary_of_kind hl hk1 hk2
    obtain ⟨t, d, ht⟩ := ihu hal ha
    obtain ⟨r, e, hr⟩ := ihv hbl hb
    obtain ⟨t', ht', -⟩ := ht.binary_between Connectives.regular_propositional hp hr
    exact ⟨t', false, by simpa using ht'⟩
  | @bracketed w _ ih =>
    obtain ⟨d, b, rfl, hd, hb⟩ := hs.outline_split hw
    obtain ⟨hdl, hbl⟩ := hs.of_append
    obtain ⟨c, a, rfl, hc, ha⟩ := hdl.outline_split (u := [.left]) (v := w) hd
    obtain ⟨hcl, hal⟩ := hdl.of_append
    obtain ⟨y, rfl, hy⟩ := hcl.outline_single hc
    obtain ⟨z, rfl, hz⟩ := hbl.outline_single hb
    obtain rfl : y = "(" := describes_of_mark (hcl y List.mem_cons_self) hy
    obtain rfl : z = ")" := describes_of_mark (hbl z List.mem_cons_self) hz
    obtain ⟨t, d, ht⟩ := ih hal ha
    exact ⟨t, true, by simpa using ht.bracketed⟩

/-- every tree of the language of propositional logic says something -/
theorem exists_proposition {t : SyntaxTree} {b : Bool} {w : List Token} (h : Spelling .propositional t b w) :
    ∃ a, t.proposition? = some a := by
  induction h with
  | atom ha => exact ⟨_, rfl⟩
  | @unary op _ _ _ _ hop _ _ ih =>
    obtain ⟨a, ha⟩ := ih
    have hk : op.kind = "not" := by simpa [Connectives.propositional] using hop.2.1
    exact ⟨.neg a, by simp [SyntaxTree.proposition?, hk, ha]⟩
  | @binary op p _ _ _ _ _ _ hop _ _ _ _ ihl ihr =>
    obtain ⟨a, ha⟩ := ihl
    obtain ⟨b, hb⟩ := ihr
    obtain ⟨o, ho⟩ : ∃ o, Junctor.ofKind? op.kind = some o := by
      have hmem := Connectives.mem_of_lookup hop.2.2
      have hnot : op.kind ≠ "not" := by simpa [Connectives.propositional] using hop.2.1
      simp only [Connectives.propositional, List.mem_cons, Prod.mk.injEq, List.not_mem_nil, or_false] at hmem
      rcases hmem with ⟨h, -⟩ | ⟨h, -⟩ | ⟨h, -⟩ | ⟨h, -⟩
      · exact ⟨.conj, by rw [h]; rfl⟩
      · exact ⟨.disj, by rw [h]; rfl⟩
      · exact ⟨.impl, by rw [h]; rfl⟩
      · exact absurd h hnot
    exact ⟨.join o a b, by simp [SyntaxTree.proposition?, ho, ha, hb]⟩
  | bracketed _ ih => exact ih

theorem isFormula_of_spelling {s : Sentence} (hs : s.InLanguage) {t : SyntaxTree} {b : Bool}
    (h : Spelling .propositional t b s.tokens) : Outline.IsFormula s.outline := by
  generalize hw : s.tokens = w at h
  induction h generalizing s with
  | atom ha =>
    obtain ⟨y, rfl, rfl⟩ := List.map_eq_singleton_iff.1 hw
    have hy := isLetter_of_isSymbol (hs y List.mem_cons_self) ha.1
    have hm : outline [y] = [.atom] := by simp [outline, mark_letter hy, (isAtom_iff hy).1 ha]
    exact hm ▸ .atom
  | unary hop _ _ ih =>
    obtain ⟨y, u, rfl, rfl, hu⟩ := List.map_eq_cons_iff.1 hw
    obtain ⟨hyl, hul⟩ := hs.of_cons
    have hy := isLetter_of_isSymbol hyl hop.1
    have hm : outline (y :: u) = .unary :: outline u := by simp [outline, mark_letter hy, ((isUnary_iff hy).1 hop).1]
    exact hm ▸ (ih hul hu).unary
  | @binary op p _ _ _ _ _ _ hop _ _ _ _ ihl ihr =>
    obtain ⟨u, d, rfl, hu, hd⟩ := List.map_eq_append_iff.1 hw
    obtain ⟨y, v, rfl, rfl, hv⟩ := List.map_eq_cons_iff.1 hd
    obtain ⟨hul, hyv⟩ := hs.of_append
    obtain ⟨hyl, hvl⟩ := hyv.of_cons
    have hy := isLetter_of_isSymbol hyl hop.1
    have h1 : y.kind ≠ "sentvar" := by
      intro h
      have := (isAtom_iff hy).2 h
      rw [Connectives.IsAtom, hop.2.2] at this
      simp at this
    have h2 : y.kind ≠ "not" := by
      intro h
      exact hop.2.1 ((isUnary_iff hy (p := 4)).2 ⟨h, rfl⟩).2.1
    have hm : outline (u ++ y :: v) = outline u ++ .binary :: outline v := by simp [outline, mark_letter hy, h1, h2]
    exact hm ▸ (ihl hul hu).binary (ihr hvl hv)
  | bracketed _ ih =>
    obtain ⟨d, c, rfl, hd, hc⟩ := List.map_eq_append_iff.1 hw
    obtain ⟨y, u, rfl, hy, hu⟩ := List.map_eq_cons_iff.1 hd
    obtain ⟨z, rfl, hz⟩ := List.map_eq_singleton_iff.1 hc
    obtain rfl : y = "(" := Symbol.toToken_injective hy
    obtain rfl : z = ")" := Symbol.toToken_injective hz
    have hm : outline ("(" :: u ++ [")"]) = .left :: outline u ++ [.right] := by
      simp [outline, mark_left, mark_right]
    exact hm ▸ (ih (hs.of_append.1.of_cons.2) hu).bracketed

/-- **The syntax check and formulas.** A sentence of the language is a formula exactly if
the check finds no mistake in it. -/
theorem checkSyntax_iff_expresses {s : Sentence} (hs : s.InLanguage) :
    s.checkSyntax = .ok none ↔ ∃ a, s.Expresses a := by
  rw [checkSyntax_eq_none]
  constructor
  · intro h
    obtain ⟨t, b, ht⟩ := exists_spelling hs h
    obtain ⟨a, ha⟩ := exists_proposition ht
    exact ⟨a, hs, t, ⟨b, ht⟩, ha⟩
  · rintro ⟨a, -, t, ⟨b, ht⟩, -⟩
    exact isFormula_of_spelling hs ht

/-! ## Negation -/

theorem inLanguage_cons {y : Symbol} {s : Sentence} (hy : y.InLanguage) (hs : s.InLanguage) : InLanguage (y :: s) := by
  intro z hz
  rcases List.mem_cons.1 hz with rfl | hz
  · exact hy
  · exact hs z hz

/-- a symbol for a negation put in front of a formula says the negation -/
theorem Expresses.behind {s : Sentence} {a : Proposition} (h : s.Expresses a) {y : Symbol} (hy : y.IsLetter)
    (hk : y.kind = "not") : (s.behind y).Reads (.neg a) := by
  have hop := (isUnary_iff hy).2 ⟨hk, rfl⟩
  obtain ⟨hs, t, ⟨b, ht⟩, ha⟩ := h
  have hprop : (SyntaxTree.unary y.toToken t).proposition? = some (.neg a) := by
    simp [SyntaxTree.proposition?, hy.toToken, hk, ha]
  by_cases hlen : s.length = 1
  · obtain ⟨x, rfl⟩ := List.length_eq_one_iff.1 hlen
    have hsp : Spelling .propositional (.unary y.toToken t) false [y.toToken, x.toToken] := by
      refine .unary hop ht ?_
      generalize hw : tokens [x] = w at ht
      cases ht with
      | atom => exact .inr (by simp [SyntaxTree.precedence?])
      | unary _ hx _ => simp [hx.ne_nil.symm] at hw
      | binary _ hl _ _ _ => simp [List.cons_eq_append_iff, hl.ne_nil] at hw
      | bracketed => exact .inl rfl
    rw [Sentence.behind, if_pos hlen]
    exact ⟨⟨inLanguage_cons (.inr (.inr hy)) hs, _, ⟨false, hsp⟩, hprop⟩, hsp.not_enclosed⟩
  · have hsp : Spelling .propositional (.unary y.toToken t) false (tokens (s.behind y)) := by
      rw [Sentence.behind, if_neg hlen]
      simpa using Spelling.unary hop ht.bracketed (.inl rfl)
    refine ⟨⟨?_, _, ⟨false, hsp⟩, hprop⟩, hsp.not_enclosed⟩
    rw [Sentence.behind, if_neg hlen]
    have := inLanguage_wrapped (n := 1) hs
    exact inLanguage_cons (.inr (.inr hy)) (by simpa [wrapped] using this)

theorem isLetter_not (l : String) : Symbol.IsLetter (.of "not" l) := ⟨"not", by decide, l, rfl⟩

theorem kind_not (l : String) : Symbol.kind (.of "not" l) = "not" := Symbol.kind_of (by decide) l

theorem Expresses.negate {s : Sentence} {a : Proposition} (h : s.Expresses a) : s.negate.Reads (.neg a) :=
  h.behind (isLetter_not _) (kind_not _)

/-! ## Counting symbols -/

/-- a number for each kind of symbol, summed up over a sentence -/
def measure (f : String → Nat) (s : Sentence) : Nat := (s.map fun y => f y.kind).sum

@[simp] theorem measure_append (f : String → Nat) (s t : Sentence) :
    measure f (s ++ t) = s.measure f + t.measure f := by
  simp [measure]

@[simp] theorem measure_cons (f : String → Nat) (y : Symbol) (s : Sentence) :
    measure f (y :: s) = f y.kind + s.measure f := by
  simp [measure]

theorem measure_wrapped {f : String → Nat} (hl : f "(" = 0) (hr : f ")" = 0) (n : Nat) (s : Sentence) :
    (s.wrapped n).measure f = s.measure f := by
  have hkl : Symbol.kind "(" = "(" := by decide
  have hkr : Symbol.kind ")" = ")" := by decide
  simp [wrapped, measure, hkl, hkr, hl, hr]

end Sentence

/-- the same sum over a proposition: one symbol for each variable and each connective -/
def Proposition.measure (f : String → Nat) : Proposition → Nat
  | var _ => f "sentvar"
  | neg a => f "not" + a.measure f
  | join o a b => a.measure f + (f o.kind + b.measure f)

/-- where brackets do not count, sentences that say the same have the same sum -/
theorem Sentence.Reads.measure {f : String → Nat} (hl : f "(" = 0) (hr : f ")" = 0) {s : Sentence} {a : Proposition}
    (h : s.Reads a) : s.measure f = a.measure f := by
  induction a generalizing s with
  | var x =>
    obtain ⟨rfl, -, hk⟩ := h.var_eq
    simp [Sentence.measure, Proposition.measure, hk]
  | neg a ih =>
    obtain ⟨y, n, t, rfl, -, hk, ht, -⟩ := h.neg_eq
    rw [measure_cons, measure_wrapped hl hr, ih ht, hk, Proposition.measure]
  | join o a b iha ihb =>
    obtain ⟨y, m, n, l, r, rfl, -, hk, hla, hrb, -⟩ := h.join_eq
    rw [measure_append, measure_cons, measure_wrapped hl hr, measure_wrapped hl hr, iha hla, ihb hrb, hk,
      Proposition.measure]

/-! ## Literals -/

/-- a variable or its negation -/
def Proposition.isLiteral : Proposition → Bool
  | var _ => true
  | neg (var _) => true
  | _ => false

namespace Sentence

/-- one for each connective -/
def connectiveCount (k : String) : Nat := if (Connectives.propositional.precedence.lookup k).isSome then 1 else 0

theorem kind_toToken (y : Symbol) : y.toToken.kind = y.kind := by
  by_cases h : y = "(" ∨ y = ")"
  · rcases h with rfl | rfl <;> decide
  · rw [Symbol.toToken, if_neg h]

theorem length_strengths (s : Sentence) (i d : Int) :
    ∃ table : List (Int × Rat), Formula.strengthsFrom .propositional i d (s.tokens.map (·.kind)) = .ok table ∧
      table.length = s.measure connectiveCount := by
  induction s generalizing i d with
  | nil => exact ⟨[], rfl, rfl⟩
  | cons y s ih =>
    simp only [tokens_cons, List.map_cons, kind_toToken, measure_cons, Formula.strengthsFrom]
    by_cases hl : y.kind = "("
    · obtain ⟨table, h, hlen⟩ := ih (i + 1) (d + 1)
      exact ⟨table, by rw [if_pos hl, h], by rw [hlen, hl]; simp [connectiveCount, Connectives.propositional,
        List.lookup_cons]⟩
    by_cases hr : y.kind = ")"
    · obtain ⟨table, h, hlen⟩ := ih (i + 1) (d - 1)
      exact ⟨table, by rw [if_neg hl, if_pos hr, h],
        by rw [hlen, hr]; simp [connectiveCount, Connectives.propositional, List.lookup_cons]⟩
    obtain ⟨table, h, hlen⟩ := ih (i + 1) d
    rw [if_neg hl, if_neg hr]
    by_cases hc : (Connectives.propositional.precedence.lookup y.kind).isSome
    · obtain ⟨p, hp⟩ := Option.isSome_iff_exists.1 hc
      refine ⟨(i, Strength.measure d p Connectives.propositional.scale) :: table, ?_, ?_⟩
      · rw [if_pos hc, Connectives.regular_propositional.strength_eq hp, h]
        rfl
      · rw [List.length_cons, hlen, connectiveCount, if_pos hc]
        omega
    · refine ⟨table, by rw [if_neg hc, h], ?_⟩
      rw [hlen, connectiveCount, if_neg hc]
      omega

theorem ofFormula_eq_ok {α : Type} {x : Except FormulaError α} {a : α} : Outcome.ofFormula x = .ok a ↔ x = .ok a := by
  cases x <;> simp [Outcome.ofFormula, Except.mapError]

theorem isLiteral_eq {s : Sentence} {i : Option Int} (h : s.mainConnective = .ok i) :
    s.isLiteral = .ok (i.all fun i => i == 0 && s.measure connectiveCount == 1) := by
  have hmain := ofFormula_eq_ok.1 h
  obtain ⟨table, htable, hlen⟩ := length_strengths s 0 0
  have hstr : s.toFormula.strengths .propositional = .ok table := htable
  rw [Sentence.isLiteral, ofFormula_eq_ok, Formula.isLiteral, hmain]
  cases i with
  | none => rfl
  | some i => simp [hstr, hlen, pure_ok]

theorem Reads.isLiteral {s : Sentence} {a : Proposition} (h : s.Reads a) : s.isLiteral = .ok a.isLiteral := by
  have hcount := h.measure (f := connectiveCount) (by decide) (by decide)
  have hnot : connectiveCount "not" = 1 := by decide
  have hone : ∀ o : Junctor, connectiveCount o.kind = 1 := by
    intro o
    cases o <;> decide
  cases a with
  | var x =>
    rw [isLiteral_eq h.parts_var.1]
    rfl
  | neg a =>
    obtain ⟨y, n, t, -, -, -, -, hmain, -⟩ := h.neg_eq
    rw [isLiteral_eq hmain, hcount]
    cases a with
    | var x => rfl
    | neg a => simp [Proposition.measure, Proposition.isLiteral, hnot]
    | join o a b => simp [Proposition.measure, Proposition.isLiteral, hnot, hone]
  | join o a b =>
    obtain ⟨y, m, n, l, r, -, -, -, hl, -, hmain, -⟩ := h.join_eq
    have hne : l.wrapped m ≠ [] := by
      intro h
      have := (hl.wrapped m).hasSymbol
      simp [h, HasSymbol] at this
    rw [isLiteral_eq hmain]
    simp [Proposition.isLiteral, hne]

end Sentence

end TableauTutor
