import TableauTutor.Proofs.MadeUp
import TableauTutor.Proofs.Shapes

/-!
Formulas for practice. Connectives and variables are drawn while a formula is written from the arities of a tree. Every
argument of a connective is written from the arities that follow the connective, so it comes out like the first
argument. What is written is a formula for all that, and passes the syntax check.

- `practice_shape`, `practice_passes_check`: what practice formulas look like, and when there is one.
-/

namespace TableauTutor

namespace Shape

/-! ## Trees whose parts are alike -/

/-- the tree in which every part of a node is like the first one -/
def likeFirst : Shape → Shape
  | node [] => node []
  | node (t :: ts) => node (List.replicate (ts.length + 1) (likeFirst t))

/-- the parts of each node are alike -/
inductive Uniform : Shape → Prop where
  | node {ts : List Shape} (halike : ∀ t ∈ ts, ∀ u ∈ ts, t = u) (h : ∀ t ∈ ts, Uniform t) : Uniform (node ts)

theorem Uniform.likeFirst_eq {t : Shape} (h : t.Uniform) : t.likeFirst = t := by
  induction h with
  | @node ts halike _ ih =>
    cases ts with
    | nil => rw [likeFirst]
    | cons t ts =>
      rw [likeFirst, ih t List.mem_cons_self]
      have hall : t :: ts = List.replicate (ts.length + 1) t :=
        List.eq_replicate_iff.2 ⟨rfl, fun u hu => halike u hu t List.mem_cons_self⟩
      rw [← hall]

theorem uniform_of_likeFirst_eq {t : Shape} (h : t.likeFirst = t) : t.Uniform := by
  fun_induction likeFirst t with
  | case1 => exact .node (by simp) (by simp)
  | case2 t ts ih =>
    have hparts := (node.inj h).symm
    have hlike : ∀ u ∈ t :: ts, u = t.likeFirst := (List.eq_replicate_iff.1 hparts).2
    have hfirst := (hlike t List.mem_cons_self).symm
    refine .node (fun u hu v hv => (hlike u hu).trans (hlike v hv).symm) fun u hu => ?_
    rw [hlike u hu, hfirst]
    exact ih hfirst

/-- **Which trees stay as they are** when every part is made like the first. -/
theorem likeFirst_eq_iff {t : Shape} : t.likeFirst = t ↔ t.Uniform := ⟨uniform_of_likeFirst_eq, Uniform.likeFirst_eq⟩

/-- no node has more than two parts -/
inductive AtMostTwo : Shape → Prop where
  | leaf : AtMostTwo (node [])
  | one {t : Shape} (h : AtMostTwo t) : AtMostTwo (node [t])
  | two {t u : Shape} (ht : AtMostTwo t) (hu : AtMostTwo u) : AtMostTwo (node [t, u])

theorem word_leaf : (node []).word = [0] := by simp [word, words]

theorem word_one (t : Shape) : (node [t]).word = 1 :: t.word := by simp [word, words]

theorem word_two (t u : Shape) : (node [t, u]).word = 2 :: (t.word ++ u.word) := by simp [word, words]

theorem inner_leaf : (node []).inner = 0 := by simp [inner, innerAll]

theorem inner_one (t : Shape) : (node [t]).inner = 1 + t.inner := by simp [inner, innerAll]

theorem inner_two (t u : Shape) : (node [t, u]).inner = 1 + (t.inner + u.inner) := by simp [inner, innerAll]

mutual
theorem atMostTwo_of_word (t : Shape) (h : ∀ a ∈ t.word, a ≤ 2) : t.AtMostTwo := by
  obtain ⟨ts⟩ := t
  rw [word] at h
  obtain ⟨hlen, hparts⟩ := List.forall_mem_cons.1 h
  have hall := atMostTwo_of_words ts hparts
  cases ts with
  | nil => exact .leaf
  | cons t ts =>
    cases ts with
    | nil => exact .one (hall t (by simp))
    | cons u ts =>
      rw [List.length_cons, List.length_cons] at hlen
      obtain rfl : ts = [] := List.eq_nil_of_length_eq_zero (by omega)
      exact .two (hall t (by simp)) (hall u (by simp))

theorem atMostTwo_of_words (ts : List Shape) (h : ∀ a ∈ words ts, a ≤ 2) : ∀ t ∈ ts, t.AtMostTwo := by
  cases ts with
  | nil => simp
  | cons t ts =>
    rw [words] at h
    obtain ⟨ht, hts⟩ := List.forall_mem_append.1 h
    exact List.forall_mem_cons.2 ⟨atMostTwo_of_word t ht, atMostTwo_of_words ts hts⟩
end

end Shape

/-- the tree of a proposition, without what stands at its nodes -/
def Proposition.shape : Proposition → Shape
  | var _ => .node []
  | neg a => .node [a.shape]
  | join _ a b => .node [a.shape, b.shape]

/-- the sentence is a formula, and this is its tree -/
def Sentence.HasShape (s : Sentence) (t : Shape) : Prop := ∃ a, s.Expresses a ∧ a.shape = t

namespace Calculus

open Lexer WordTable

variable {c : Calculus} {x : Lexer} {vars s f : Sentence} {y : Symbol} {a : Proposition} {kind : String} {n : Nat}
  {order : List Char}

/-! ## Formulas as they are made up -/

/-- a bracket, or a symbol made of a word of the calculus -/
def IsSymbol (c : Calculus) (y : Symbol) : Prop := y = "(" ∨ y = ")" ∨ ∃ r ∈ c.words, y = .of r.1 (String.ofList r.2)

/-- a formula as it is made up over given variables: connectives are words of the calculus, and those with two arguments
stand between them, in brackets -/
inductive Written (c : Calculus) (vars : Sentence) : Sentence → Proposition → Prop where
  | var {w : List Char} (hw : ("sentvar", w) ∈ c.words) (hy : .of "sentvar" (String.ofList w) ∈ vars) :
      Written c vars [.of "sentvar" (String.ofList w)] (.var (.of "sentvar" (String.ofList w)))
  | neg {w : List Char} {f : Sentence} {a : Proposition} (hw : ("not", w) ∈ c.words) (h : Written c vars f a) :
      Written c vars (.of "not" (String.ofList w) :: f) (.neg a)
  | join {o : Junctor} {w : List Char} {f g : Sentence} {a b : Proposition} (hw : (o.kind, w) ∈ c.words)
      (hf : Written c vars f a) (hg : Written c vars g b) :
      Written c vars ("(" :: (f ++ .of o.kind (String.ofList w) :: g) ++ [")"]) (.join o a b)

/-- the first variables that are made up, if letters come up in the given order -/
def firstVariables (order : List Char) (n : Nat) : Sentence :=
  (order.take n).map fun a => .of "sentvar" (String.singleton a)

theorem kind_word {w : List Char} (hw : (kind, w) ∈ c.words) : Symbol.kind (.of kind (String.ofList w)) = kind :=
  kind_token (r := (kind, w)) hw

theorem lexem_word {w : List Char} (hw : (kind, w) ∈ c.words) :
    Symbol.lexem (.of kind (String.ofList w)) = String.ofList w :=
  lexem_token (r := (kind, w)) hw

theorem isSymbol_of_mem_words {r : String × List Char} (hr : r ∈ c.words) : c.IsSymbol (.of r.1 (String.ofList r.2)) :=
  .inr (.inr ⟨r, hr, rfl⟩)

theorem word_of_mem_firstVariables (horder : order.Perm letters) (hy : y ∈ firstVariables order n) :
    ∃ w, ("sentvar", w) ∈ c.words ∧ y = .of "sentvar" (String.ofList w) := by
  obtain ⟨a, ha, rfl⟩ := List.mem_map.1 hy
  exact ⟨[a], mem_words_sentvar (horder.subset (List.mem_of_mem_take ha)), by rw [String.singleton_eq_ofList]⟩

theorem junctor_mem (o : Junctor) : o.kind ∈ ["not", "and", "or", "imp"] := by cases o <;> decide

/-- what holds of brackets and of words of a formula holds of every symbol -/
theorem Written.forall_mem {P : Symbol → Prop} (h : Written c vars f a) (hleft : P "(") (hright : P ")")
    (hvars : ∀ w, ("sentvar", w) ∈ c.words → .of "sentvar" (String.ofList w) ∈ vars →
      P (.of "sentvar" (String.ofList w)))
    (hwords : ∀ k ∈ ["not", "and", "or", "imp"], ∀ w, (k, w) ∈ c.words → P (.of k (String.ofList w))) :
    ∀ y ∈ f, P y := by
  induction h with
  | var hw hy => exact List.forall_mem_singleton.2 (hvars _ hw hy)
  | neg hw _ ih => exact List.forall_mem_cons.2 ⟨hwords _ (by decide) _ hw, ih⟩
  | @join o w f g a b hw _ _ ihf ihg =>
    intro y hy
    simp only [List.cons_append, List.mem_cons, List.mem_append, List.not_mem_nil, or_false] at hy
    rcases hy with rfl | (hy | rfl | hy) | rfl
    · exact hleft
    · exact ihf y hy
    · exact hwords _ (junctor_mem o) _ hw
    · exact ihg y hy
    · exact hright

theorem Written.isSymbol (h : Written c vars f a) : ∀ y ∈ f, c.IsSymbol y :=
  h.forall_mem (.inl rfl) (.inr (.inl rfl)) (fun _ hw _ => isSymbol_of_mem_words hw) fun _ _ _ hw =>
  isSymbol_of_mem_words hw

theorem Written.inLanguage (h : Written c vars f a) : f.InLanguage :=
  h.forall_mem (.inl rfl) (.inr (.inl rfl)) (fun _ _ _ => .inr (.inr ⟨"sentvar", by decide, _, rfl⟩))
    fun k hk _ _ => .inr (.inr ⟨k, List.mem_cons_of_mem _ hk, _, rfl⟩)

theorem Written.vars_ne_nil (h : Written c vars f a) : vars ≠ [] := by
  induction h with
  | var _ hy => exact List.ne_nil_of_mem hy
  | neg _ _ ih => exact ih
  | join _ _ _ ihf _ => exact ihf

theorem Written.mem_vars (h : Written c vars f a) : ∀ y ∈ f, y.kind = "sentvar" → y ∈ vars := by
  refine h.forall_mem (fun hk => ?_) (fun hk => ?_) (fun w _ hy _ => hy) fun k hmem w hw hk => ?_
  · exact absurd hk (by decide)
  · exact absurd hk (by decide)
  · rw [kind_word hw] at hk
    exact absurd (hk ▸ hmem) (by decide)

/-- a formula that is made up is written so that its connectives bind as they stand in the proposition -/
theorem Written.spelling (h : Written c vars f a) : ∃ t b, Spelling .propositional t b f.tokens ∧
    t.proposition? = some a ∧ (b = true ∨ ∀ q ∈ t.precedence? .propositional, 4 ≤ q) := by
  induction h with
  | @var w hw hy =>
    have hletter : Symbol.IsLetter (.of "sentvar" (String.ofList w)) := ⟨"sentvar", by decide, _, rfl⟩
    have hprop : (SyntaxTree.atom (Symbol.toToken (.of "sentvar" (String.ofList w)))).proposition? =
        some (.var (.of "sentvar" (String.ofList w))) := by simp [SyntaxTree.proposition?]
    exact ⟨_, false, .atom ((Sentence.isAtom_iff hletter).2 (kind_word hw)), hprop,
      .inr (by simp [SyntaxTree.precedence?])⟩
  | @neg w f a hw _ ih =>
    obtain ⟨t, b, ht, ha, hfit⟩ := ih
    have hletter := Sentence.isLetter_not (String.ofList w)
    have hop := (Sentence.isUnary_iff hletter).2 ⟨kind_word hw, rfl⟩
    refine ⟨_, false, .unary hop ht hfit, ?_, .inr fun q hq => ?_⟩
    · simp [SyntaxTree.proposition?, hletter.toToken, kind_word hw, ha]
    · have hroot : some 4 = some q := hop.2.2.symm.trans hq
      exact (Option.some.inj hroot).le
  | @join o w f g a b hw _ _ ihf ihg =>
    obtain ⟨l, bl, hl, hla, hfl⟩ := ihf
    obtain ⟨r, br, hr, hrb, hfr⟩ := ihg
    have hletter : Symbol.IsLetter (.of o.kind (String.ofList w)) :=
      ⟨o.kind, List.mem_cons_of_mem _ (junctor_mem o), _, rfl⟩
    have hkind : Symbol.kind (.of o.kind (String.ofList w)) = o.kind := kind_word hw
    obtain ⟨p, hop⟩ := Sentence.isBinary_of_kind hletter (by rw [hkind]; cases o <;> decide)
      (by rw [hkind]; cases o <;> decide)
    -- a negation binds stronger than any connective between two formulas
    have hlt : p < 4 := Connectives.regular_propositional.above "not" (by decide) _ hop.2.1 4 p (by decide) hop.2.2
    have hspelled := Spelling.bracketed (.binary hop hl hr (hfl.imp_right fun h q hq => by have := h q hq; omega)
      (hfr.imp_right fun h q hq => by have := h q hq; omega))
    refine ⟨.binary (Symbol.toToken (.of o.kind (String.ofList w))) l r, true, ?_, ?_, .inl rfl⟩
    · simpa [Sentence.tokens] using hspelled
    · have hjunctor : Junctor.ofKind? o.kind = some o := Junctor.ofKind?_eq_some.2 rfl
      simp [SyntaxTree.proposition?, hletter.toToken, hkind, hjunctor, hla, hrb]

theorem Written.expresses (h : Written c vars f a) : f.Expresses a := by
  obtain ⟨t, b, ht, ha, -⟩ := h.spelling
  exact ⟨h.inLanguage, t, ⟨b, ht⟩, ha⟩

theorem Written.hasShape_iff (h : Written c vars f a) {t : Shape} : f.HasShape t ↔ t = a.shape := by
  constructor
  · rintro ⟨b, hb, rfl⟩
    rw [h.expresses.unique hb]
  · rintro rfl
    exact ⟨a, h.expresses, rfl⟩

theorem Written.checkSyntax (h : Written c vars f a) : c.checkSyntax f = .ok none := by
  have hgrammatical : ∀ y ∈ f, y.IsGrammatical := fun y hy => (h.inLanguage y hy).imp id (.imp id fun hl => hl.kind_mem)
  rw [c.checkSyntax_grammatical hgrammatical]
  exact (Sentence.checkSyntax_iff_expresses h.inLanguage).2 ⟨a, h.expresses⟩

/-- there is a connective in it for each inner node -/
theorem Written.count (h : Written c vars f a) : f.measure Sentence.connectiveCount = a.shape.inner := by
  have hnil : Sentence.measure Sentence.connectiveCount [] = 0 := rfl
  induction h with
  | @var w hw hy =>
    have hnone : Sentence.connectiveCount "sentvar" = 0 := by decide
    rw [Sentence.measure_cons, kind_word hw, hnone, hnil, Proposition.shape, Shape.inner_leaf]
  | neg hw _ ih =>
    have hone : Sentence.connectiveCount "not" = 1 := by decide
    rw [Sentence.measure_cons, kind_word hw, hone, ih, Proposition.shape, Shape.inner_one]
  | @join o w f g a b hw _ _ ihf ihg =>
    have hone : Sentence.connectiveCount o.kind = 1 := by cases o <;> decide
    have hbracket : Sentence.connectiveCount (Symbol.kind "(") = 0 ∧
        Sentence.connectiveCount (Symbol.kind ")") = 0 := by decide
    rw [Proposition.shape, Shape.inner_two]
    simp only [Sentence.measure_cons, Sentence.measure_append, List.cons_append, kind_word hw, hone, hbracket,
      hnil, ihf, ihg]
    omega

/-! ## Variables and connectives that are drawn -/

theorem length_order (horder : order.Perm letters) : order.length = 26 := horder.length_eq.trans (by decide)

theorem nodup_order (horder : order.Perm letters) : order.Nodup := horder.nodup_iff.2 (by decide)

theorem firstVariables_succ {k : Nat} (hk : k < order.length) :
    firstVariables order (k + 1) = firstVariables order k ++ [.of "sentvar" (String.singleton order[k])] := by
  rw [firstVariables, List.take_add_one, List.map_append, List.getElem?_eq_getElem hk]
  rfl

theorem firstVariables_eq_nil (horder : order.Perm letters) (h : firstVariables order n = []) : n = 0 := by
  rw [firstVariables, List.map_eq_nil_iff, List.take_eq_nil_iff] at h
  refine h.resolve_right fun hnil => ?_
  have hlen := length_order horder
  simp [hnil] at hlen

theorem symbol_injective : Function.Injective fun a => Symbol.of "sentvar" (String.singleton a) := by
  intro a b hab
  have htext := congrArg String.toList hab
  simpa [Symbol.toList_of] using htext

theorem nodup_firstVariables (horder : order.Perm letters) (n : Nat) : (firstVariables order n).Nodup :=
  ((nodup_order horder).sublist (List.take_sublist n order)).map symbol_injective

theorem lexem_firstVariables (horder : order.Perm letters) (k : Nat) :
    (firstVariables order k).map Symbol.lexem = (order.take k).map String.singleton := by
  rw [firstVariables, List.map_map]
  refine List.map_congr_left fun a ha => ?_
  rw [Function.comp_apply, String.singleton_eq_ofList]
  exact lexem_word (c := .unsigned) (mem_words_sentvar (horder.subset (List.mem_of_mem_take ha)))

/-- the fault of a variable too many -/
def noVariableLeft : Fault := .lexicon (.needMoreLexems "sentvar")

/-- behind the first variables the next one is made up, if there is a letter for it -/
theorem generate_variable (hx : InOrder x order) (k : Nat) : (firstVariables order k).generate x "sentvar" =
    order[k]?.elim (.error noVariableLeft) fun a => .ok (.of "sentvar" (String.singleton a)) := by
  have hused : ((firstVariables order k).map fun y => (y.kind, y.lexem)).map (·.2) =
      (order.take k).map String.singleton := by
    rw [← lexem_firstVariables hx.perm, List.map_map]
    rfl
  rw [Sentence.generate, hx.generate, hused, nextVariable, nextLetter?_take (nodup_order hx.perm)]
  cases order[k]? <;> rfl

/-- what is made up behind symbols of the calculus is one of its words -/
theorem word_of_generate (hx : c.HasLexer x) (hs : ∀ y ∈ s, c.IsSymbol y) (h : s.generate x kind = .ok y) :
    ∃ w, (kind, w) ∈ c.words ∧ y = .of kind (String.ofList w) := by
  rw [Sentence.generate] at h
  cases hg : x.generate (s.map fun y => (y.kind, y.lexem)) kind with
  | error e =>
    rw [hg] at h
    cases h
  | ok r =>
    obtain ⟨k, l⟩ := r
    rw [hg] at h
    obtain rfl : Symbol.of k l = y := Except.ok.inj h
    obtain ⟨rfl, hword⟩ := words_of_generate hx hg
    refine ⟨l.toList, ?_, by rw [String.ofList_toList]⟩
    rcases hword with hword | ⟨-, hmem⟩
    · exact hword
    · obtain ⟨z, hz, hzl⟩ := List.mem_map.1 hmem
      obtain ⟨rfl, rfl⟩ := Prod.ext_iff.1 hzl
      obtain ⟨hleft, hright⟩ := not_bracket_of_generate hx hg
      rcases hs z hz with rfl | rfl | ⟨r, hr, rfl⟩
      · exact absurd (by decide) hleft
      · exact absurd (by decide) hright
      · simpa [kind_word hr, lexem_word hr] using hr

theorem exists_generate (hx : c.HasLexer x) (hs : ∀ y ∈ s, c.IsSymbol y) (hk : kind ∈ ["not", "and", "or", "imp"]) :
    ∃ w, (kind, w) ∈ c.words ∧ s.generate x kind = .ok (.of kind (String.ofList w)) := by
  obtain ⟨l, hl⟩ := generate_connective hx hk (s.map fun y => (y.kind, y.lexem))
  have hgenerate : s.generate x kind = .ok (.of kind l) := by
    rw [Sentence.generate, hl]
    rfl
  obtain ⟨w, hw, heq⟩ := word_of_generate hx hs hgenerate
  exact ⟨w, hw, heq ▸ hgenerate⟩

/-! ## Formulas that are drawn -/

open Drawing

theorem meets_connective {Q : Fault → Prop} (hx : c.HasLexer x) (hs : ∀ y ∈ s, c.IsSymbol y) {kinds : List String}
    (hne : kinds ≠ []) (hkinds : ∀ k ∈ kinds, k ∈ ["not", "and", "or", "imp"]) :
    Meets (choice kinds >>= fun k => makeUp x s k)
      (fun y => ∃ k ∈ kinds, ∃ w, (k, w) ∈ c.words ∧ y = .of k (String.ofList w)) Q := by
  refine (meets_choice fun h => absurd h hne).bind fun k hk => ?_
  have hmade (i : Nat) := exists_generate (hx.turn i) hs (hkinds k hk)
  refine meets_makeUp (fun i y hy => ?_) fun i e he => ?_
  · obtain ⟨w, hw, hgenerate⟩ := hmade i
    exact ⟨k, hk, w, hw, Except.ok.inj (hy.symm.trans hgenerate)⟩
  · obtain ⟨w, -, hgenerate⟩ := hmade i
    cases he.symm.trans hgenerate

theorem write_leaf (rest : List Int) :
    write x practiceConnectives vars (0 :: rest) s = choice vars >>= fun y => pure (s ++ [y]) := by
  rw [write]
  rfl

theorem write_one (rest : List Int) : write x practiceConnectives vars (1 :: rest) s =
    (choice ["not"] >>= fun k => makeUp x s k) >>= fun y =>
      write x practiceConnectives vars rest (s ++ [y]) := by
  rw [write, bind_assoc]
  simp [practiceConnectives, List.lookup_cons]

theorem write_two (rest : List Int) : write x practiceConnectives vars (2 :: rest) s =
    (choice ["and", "or", "imp"] >>= fun k => makeUp x s k) >>= fun y =>
      write x practiceConnectives vars rest (s ++ ["("]) >>= fun s =>
        write x practiceConnectives vars rest (s ++ [y]) >>= fun s => pure (s ++ [")"]) := by
  rw [write, bind_assoc]
  rfl

/-- **What is written for a tree.** Behind symbols of the calculus a formula is written, unless there is no
variable to draw. Its own tree is the given one with every part like the first: the others are written from the
arities of the first part as well. -/
theorem meets_write {Q : Fault → Prop} (hx : c.HasLexer x) (horder : order.Perm letters) (hn : n = 0 → Q nothingToDraw)
    {t : Shape} (ht : t.AtMostTwo) (rest : List Int) (hs : ∀ y ∈ s, c.IsSymbol y) :
    Meets (write x practiceConnectives (firstVariables order n) (t.word ++ rest) s)
      (fun s' => ∃ f a, s' = s ++ f ∧ Written c (firstVariables order n) f a ∧ a.shape = t.likeFirst) Q := by
  induction ht generalizing s rest with
  | leaf =>
    rw [Shape.word_leaf, List.singleton_append, write_leaf]
    refine (meets_choice fun h => hn (firstVariables_eq_nil horder h)).bind fun y hy => ?_
    obtain ⟨w, hw, rfl⟩ := word_of_mem_firstVariables (c := c) horder hy
    refine .pure ⟨_, _, rfl, .var hw hy, ?_⟩
    rw [Shape.likeFirst, Proposition.shape]
  | @one t _ ih =>
    rw [Shape.word_one, List.cons_append, write_one]
    refine (meets_connective hx hs (by simp) (by decide)).bind fun y hy => ?_
    obtain ⟨k, hk, w, hw, rfl⟩ := hy
    obtain rfl := List.mem_singleton.1 hk
    have hs' : ∀ y ∈ s ++ [Symbol.of "not" (String.ofList w)], c.IsSymbol y :=
      List.forall_mem_append.2 ⟨hs, List.forall_mem_singleton.2 (isSymbol_of_mem_words hw)⟩
    refine (ih rest hs').mono ?_
    rintro s' ⟨f, a, rfl, hf, hshape⟩
    refine ⟨_, .neg a, List.append_assoc .., .neg hw hf, ?_⟩
    rw [Shape.likeFirst, Proposition.shape, hshape]
    rfl
  | @two t u _ _ ih _ =>
    rw [Shape.word_two, List.cons_append, List.append_assoc, write_two]
    refine (meets_connective hx hs (by simp) (by decide)).bind fun y hy => ?_
    obtain ⟨k, hk, w, hw, rfl⟩ := hy
    obtain ⟨o, rfl⟩ : ∃ o : Junctor, o.kind = k := by
      simp only [List.mem_cons, List.not_mem_nil, or_false] at hk
      rcases hk with rfl | rfl | rfl
      exacts [⟨.conj, rfl⟩, ⟨.disj, rfl⟩, ⟨.impl, rfl⟩]
    have hleft : ∀ y ∈ s ++ ["("], c.IsSymbol y := List.forall_mem_append.2 ⟨hs, List.forall_mem_singleton.2 (.inl rfl)⟩
    refine (ih (u.word ++ rest) hleft).bind ?_
    rintro s' ⟨f, a, rfl, hf, hfshape⟩
    have hmiddle : ∀ y ∈ s ++ ["("] ++ f ++ [Symbol.of o.kind (String.ofList w)], c.IsSymbol y :=
      List.forall_mem_append.2
        ⟨List.forall_mem_append.2 ⟨hleft, hf.isSymbol⟩, List.forall_mem_singleton.2 (isSymbol_of_mem_words hw)⟩
    -- the second argument is written from the arities of the first
    refine (ih (u.word ++ rest) hmiddle).bind ?_
    rintro s' ⟨g, b, rfl, hg, hgshape⟩
    refine .pure ⟨_, .join o a b, ?_, .join hw hf hg, ?_⟩
    · simp only [List.append_assoc, List.cons_append, List.nil_append]
    · rw [Shape.likeFirst, Proposition.shape, hfshape, hgshape]
      rfl

/-- whatever length is asked for, the arities begin with the word of a tree; if the length is not negative, nothing
follows, and the tree has as many inner nodes -/
theorem meets_shape {Q : Fault → Prop} (l : Int) : Meets (shape l [2, 1]) (fun w => ∃ (t : Shape) (rest : List Int),
    w = t.word ++ rest ∧ t.AtMostTwo ∧ (0 ≤ l → (t.inner : Int) = l ∧ rest = [])) Q := by
  refine (meets_arities (fun h => by cases h) l).bind fun as has => .pure ?_
  by_cases hl : 0 ≤ l
  · obtain ⟨t, hinner, hword⟩ := has.exists_tree hl (by decide)
    refine ⟨t, [], by rw [hword, List.append_nil], Shape.atMostTwo_of_word t fun a ha => ?_, fun _ => ⟨hinner, rfl⟩⟩
    rw [hword] at ha
    have hall : ∀ a ∈ ([2, 1] : List Int), a ≤ 2 := by decide
    rcases has.mem a ((rotate_perm as).subset ha) with ha | rfl
    · exact hall a ha
    · decide
  · -- only leaves are drawn, and the first of them is a tree
    obtain ⟨inner, hlen, -, hperm⟩ := has
    obtain rfl := List.eq_nil_of_length_eq_zero (hlen.trans (by omega))
    obtain ⟨k, hk⟩ : ∃ k, (([] : List Int).sum + 1 - l).toNat = k + 1 := ⟨(-l).toNat, by rw [List.sum_nil]; omega⟩
    rw [hk, List.nil_append] at hperm
    have hzeros := List.perm_replicate.1 ((rotate_perm as).trans hperm)
    exact ⟨.node [], List.replicate k 0, by rw [hzeros, Shape.word_leaf]; rfl, .leaf, fun h => absurd h hl⟩

theorem meets_drawVariables {Q : Fault → Prop} (hx : ∀ i, InOrder (x.turn i) order) (n : Nat) {k : Nat} (hk : k ≤ 26)
    (hmany : 26 < k + n → Q noVariableLeft) : Meets (drawVariables x "sentvar" n (firstVariables order k))
      (fun vars => k + n ≤ 26 ∧ vars = firstVariables order (k + n)) Q := by
  have hlen := length_order (hx 0).perm
  induction n generalizing k with
  | zero => exact .pure ⟨hk, rfl⟩
  | succ n ih =>
    have hnext (i : Nat) := generate_variable (hx i) k
    by_cases hlt : k < order.length
    · simp only [List.getElem?_eq_getElem hlt, Option.elim_some] at hnext
      have hmade : Meets (makeUp x (firstVariables order k) "sentvar")
          (· = .of "sentvar" (String.singleton order[k])) Q :=
        meets_makeUp (fun i y hy => Except.ok.inj (hy.symm.trans (hnext i))) fun i e he => by
        cases he.symm.trans (hnext i)
      refine hmade.bind ?_
      rintro _ rfl
      rw [← firstVariables_succ hlt, ← Nat.add_assoc, Nat.add_right_comm]
      exact ih (by omega) fun h => hmany (by omega)
    · simp only [List.getElem?_eq_none (Nat.le_of_not_lt hlt), Option.elim_none] at hnext
      have hnone : Meets (makeUp x (firstVariables order k) "sentvar") (fun _ => False) Q :=
        meets_makeUp (fun i y hy => by cases hy.symm.trans (hnext i)) fun i e he => by
          rw [← Except.error.inj ((hnext i).symm.trans he)]
          exact hmany (by omega)
      exact hnone.bind fun _ h => h.elim

/-- a formula over one to 26 variables is written; with more of them the letters do not suffice -/
theorem meets_fromShape (hx : c.HasLexer x) (horder : InOrder x order) {t : Shape} (ht : t.AtMostTwo) (rest : List Int)
    (m : Int) : Meets (fromShape x (t.word ++ rest) practiceConnectives m "sentvar")
      (fun s => m ≤ 26 ∧ ∃ a, Written c (firstVariables order m.toNat) s a ∧ a.shape = t.likeFirst)
      fun e => m ≤ 0 ∨ 26 < m ∧ e = noVariableLeft := by
  refine (meets_drawVariables (horder.turn hx) m.toNat (Nat.zero_le 26) fun h => .inr ⟨by omega, rfl⟩).bind ?_
  rw [Nat.zero_add]
  rintro _ ⟨hm, rfl⟩
  refine (meets_write hx horder.perm (fun h => .inl (by omega)) ht rest (by simp)).mono ?_
  rintro s ⟨f, a, rfl, hf, hshape⟩
  exact ⟨by omega, a, hf, hshape⟩

/-- **The syntax check of a practice formula never fails**: what comes out is what was
written for the shape that was drawn. -/
theorem exec_practice (hx : c.HasLexer x) (l m : Int) (d : Draws) : ∃ (t : Shape) (rest : List Int) (d₁ : Draws),
    exec (shape l [2, 1]) d = (.ok (t.word ++ rest), d₁) ∧ t.AtMostTwo ∧ (0 ≤ l → (t.inner : Int) = l ∧ rest = []) ∧
      exec (c.practice x l m) d = exec (fromShape x (t.word ++ rest) practiceConnectives m "sentvar") d₁ := by
  obtain ⟨w, d₁, hdrawn, t, rest, rfl, ht, hl⟩ := (meets_shape l).exists_ok d
  refine ⟨t, rest, d₁, hdrawn, ht, hl, ?_⟩
  have hformula : exec (formula x l practiceConnectives m "sentvar") d =
      exec (fromShape x (t.word ++ rest) practiceConnectives m "sentvar") d₁ := exec_bind_ok hdrawn
  rw [practice]
  rcases hs : exec (fromShape x (t.word ++ rest) practiceConnectives m "sentvar") d₁ with ⟨e | s, d₂⟩
  · exact exec_bind_error (hformula.trans hs)
  · obtain ⟨order, horder, -⟩ := exists_order hx
    obtain ⟨-, a, ha, -⟩ := (meets_fromShape hx horder ht rest m).result hs
    refine (exec_bind_ok (hformula.trans hs)).trans ?_
    rw [ha.checkSyntax, exec_bind_ok (exec_lift _ d₂)]
    rfl

/-- a formula over one to 26 variables comes out for every shape -/
theorem exec_fromShape (hx : c.HasLexer x) (horder : InOrder x order) {t : Shape} (ht : t.AtMostTwo) (rest : List Int)
    {m : Int} (hm : 1 ≤ m) (hm' : m ≤ 26) (d : Draws) :
    ∃ s d' a, exec (fromShape x (t.word ++ rest) practiceConnectives m "sentvar") d = (.ok s, d') ∧
      Written c (firstVariables order m.toNat) s a ∧ a.shape = t.likeFirst := by
  have hmeets := (meets_fromShape hx horder ht rest m).mono_fault (S := fun _ => False) fun e he => by omega
  obtain ⟨s, d', hs, -, a, ha, hshape⟩ := hmeets.exists_ok d
  exact ⟨s, d', a, hs, ha, hshape⟩

theorem exists_practice (hx : c.HasLexer x) (horder : InOrder x order) (length : Int) {m : Int} (hm : 1 ≤ m)
    (hm' : m ≤ 26)
    (d : Draws) : ∃ s d' a, exec (c.practice x length m) d = (.ok s, d') ∧
    Written c (firstVariables order m.toNat) s a := by
  obtain ⟨t, rest, d₁, -, hbinary, -, hpractice⟩ := exec_practice hx length m d
  obtain ⟨s, d', a, hs, ha, -⟩ := exec_fromShape hx horder hbinary rest hm hm' d₁
  exact ⟨s, d', a, hpractice.trans hs, ha⟩

theorem written_of_practice (hx : c.HasLexer x) (horder : InOrder x order) {length m : Int} {d d' : Draws}
    (h : exec (c.practice x length m) d = (.ok s, d')) :
    1 ≤ m ∧ m ≤ 26 ∧ ∃ a, Written c (firstVariables order m.toNat) s a := by
  obtain ⟨t, rest, d₁, -, hbinary, -, hpractice⟩ := exec_practice hx length m d
  obtain ⟨hm, a, ha, -⟩ := (meets_fromShape hx horder hbinary rest m).result (hpractice.symm.trans h)
  refine ⟨?_, hm, a, ha⟩
  by_contra hlow
  have hnone : m.toNat = 0 := by omega
  exact ha.vars_ne_nil (by rw [hnone]; rfl)

/-- **The tree of a practice formula.** For every shape a formula is written, whatever is drawn and however the
connectives and variables are spelled. Its tree is the shape with every part of a node like the first part, so it is the
shape itself exactly if the parts of each node are alike. A practice formula has as many connectives as that tree has
inner nodes: the number that was asked for, if the parts of each node are alike in the shape drawn. -/
theorem practice_shape {speller : Speller} (hlexer : c.lexer? speller = some x) {m : Int} (hm : 1 ≤ m) (hm' : m ≤ 26) :
    (∀ t : Shape, (∀ a ∈ t.word, a ∈ [0, 1, 2]) → ∀ d, ∃ s d',
      exec (fromShape x t.word practiceConnectives m "sentvar") d = (.ok s, d') ∧
        (∀ u, s.HasShape u ↔ u = t.likeFirst) ∧ (s.HasShape t ↔ t.Uniform)) ∧
    ∀ length : Int, 0 ≤ length → ∀ d, ∃ (t : Shape) (d₁ : Draws) (s : Sentence) (d' : Draws),
      exec (shape length [2, 1]) d = (.ok t.word, d₁) ∧ (t.inner : Int) = length ∧
        exec (c.practice x length m) d = (.ok s, d') ∧ (∀ u, s.HasShape u ↔ u = t.likeFirst) ∧
          s.measure Sentence.connectiveCount = t.likeFirst.inner ∧
          (t.Uniform → (s.measure Sentence.connectiveCount : Int) = length) := by
  have hx := hasLexer_of_lexer? hlexer
  obtain ⟨order, horder, -⟩ := exists_order hx
  refine ⟨fun t ht d => ?_, fun length hlength d => ?_⟩
  · have hbinary := Shape.atMostTwo_of_word t fun a ha => by
      have := ht a ha
      simp only [List.mem_cons, List.not_mem_nil, or_false] at this
      omega
    obtain ⟨s, d', a, hs, ha, hshape⟩ := exec_fromShape hx horder hbinary [] hm hm' d
    rw [List.append_nil] at hs
    refine ⟨s, d', hs, fun u => by rw [ha.hasShape_iff, hshape], ?_⟩
    rw [ha.hasShape_iff, hshape, eq_comm, Shape.likeFirst_eq_iff]
  · obtain ⟨t, rest, d₁, hdrawn, hbinary, hl, hpractice⟩ := exec_practice hx length m d
    obtain ⟨hinner, rfl⟩ := hl hlength
    obtain ⟨s, d', a, hs, ha, hshape⟩ := exec_fromShape hx horder hbinary [] hm hm' d₁
    rw [List.append_nil] at hdrawn
    refine ⟨t, d₁, s, d', hdrawn, hinner, hpractice.trans hs, fun u => by rw [ha.hasShape_iff, hshape],
      ?_, fun ht => ?_⟩
    · rw [ha.count, hshape]
    · rw [ha.count, hshape, ht.likeFirst_eq, hinner]

/-- of the shape of `a and ~a` the part in front is written twice, so that one of the two connectives is missing; here
connectives are spelled another way each time -/
theorem practice_shape_conjunction : ∃ x, unsigned.lexer? (.drawn fun occasion _ => occasion.sum) = some x ∧
    (∀ d, ∃ s d', exec (fromShape x [2, 0, 1, 0] practiceConnectives 1 "sentvar") d = (.ok s, d') ∧
      s.HasShape (.node [.node [], .node []]) ∧ ¬ s.HasShape (.node [.node [], .node [.node []]])) ∧
    ∃ d s d', exec (unsigned.practice x 2 1) d = (.ok s, d') ∧ s.measure Sentence.connectiveCount = 1 := by
  obtain ⟨x, hx⟩ := unsigned.exists_lexer? (.drawn fun occasion _ => occasion.sum)
  obtain ⟨hwritten, hpractice⟩ := practice_shape hx (m := 1) (by decide) (by decide)
  have hword : Shape.word (.node [.node [], .node [.node []]]) = [2, 0, 1, 0] := rfl
  have hlike : Shape.likeFirst (.node [.node [], .node [.node []]]) = .node [.node [], .node []] := by
    simp [Shape.likeFirst]
  refine ⟨x, hx, fun d => ?_, { numbers := [0, 1, 2, 0, 0] }, ?_⟩
  · obtain ⟨s, d', hs, hshape, -⟩ := hwritten _ (by rw [hword]; decide) d
    refine ⟨s, d', hs, (hshape _).2 hlike.symm, fun h => ?_⟩
    have heq := (hshape _).1 h
    rw [hlike] at heq
    simp at heq
  · have hdrawn : exec (shape 2 [2, 1]) { numbers := [0, 1, 2, 0, 0] } =
        (.ok [2, 0, 1, 0], { numbers := [0, 1, 2, 0, 0], drawn := 5 }) := rfl
    obtain ⟨t, d₁, s, d', ht, -, hs, -, hcount, -⟩ := hpractice 2 (by decide) { numbers := [0, 1, 2, 0, 0] }
    have hsame : t.word ++ [] = Shape.word (.node [.node [], .node [.node []]]) ++ [] := by
      have := Except.ok.inj (Prod.ext_iff.1 (ht.symm.trans hdrawn)).1
      rw [this, hword]
    obtain ⟨rfl, -⟩ := word_append_inj hsame
    rw [hlike] at hcount
    exact ⟨s, d', hs, hcount⟩

/-- **Practice formulas pass the check.** For one to 26 variables there are as many different ones; whatever length is
asked for, whatever is drawn and however the connectives are spelled, a formula comes out that passes the syntax check
and has no other variables. For more than 26 there are not enough letters. -/
theorem practice_passes_check {speller : Speller} (hlexer : c.lexer? speller = some x) (m : Int) :
    (1 ≤ m → m ≤ 26 → ∃ vars : Sentence, vars.Nodup ∧ (vars.length : Int) = m ∧ (∀ y ∈ vars, y.kind = "sentvar") ∧
      ∀ length d, ∃ s d', exec (c.practice x length m) d = (.ok s, d') ∧ c.checkSyntax s = .ok none ∧
        ∀ y ∈ s, y.kind = "sentvar" → y ∈ vars) ∧
    (26 < m → ∀ length d, ∃ d', exec (c.practice x length m) d =
      (.error (.lexicon (.needMoreLexems "sentvar")), d')) := by
  have hx := hasLexer_of_lexer? hlexer
  obtain ⟨order, horder, -⟩ := exists_order hx
  refine ⟨fun hm hm' => ⟨firstVariables order m.toNat, nodup_firstVariables horder.perm _, ?_, fun y hy => ?_,
    fun length d => ?_⟩, fun hm length d => ?_⟩
  · rw [firstVariables, List.length_map, List.length_take, length_order horder.perm]
    omega
  · obtain ⟨w, hw, rfl⟩ := word_of_mem_firstVariables (c := c) horder.perm hy
    exact kind_word hw
  · obtain ⟨s, d', a, hs, ha⟩ := exists_practice hx horder length hm hm' d
    exact ⟨s, d', hs, ha.checkSyntax, ha.mem_vars⟩
  · obtain ⟨t, rest, d₁, -, hbinary, -, hpractice⟩ := exec_practice hx length m d
    have hmeets := (meets_fromShape hx horder hbinary rest m).mono (R := fun _ => False) fun s hs => by omega
    obtain ⟨e, d', hs, he⟩ := hmeets.exists_error d₁
    obtain ⟨-, rfl⟩ := he.resolve_left (by omega)
    exact ⟨d', hpractice.trans hs⟩

/-- all 26 variables can be asked for, and not one more -/
theorem practice_passes_check_26 : ∃ x, signed.lexer? (.drawn fun occasion _ => occasion.sum) = some x ∧
    (∀ d, ∃ s d', exec (signed.practice x 7 26) d = (.ok s, d') ∧ signed.checkSyntax s = .ok none) ∧
      ∀ d, ∃ d', exec (signed.practice x 7 27) d = (.error (.lexicon (.needMoreLexems "sentvar")), d') := by
  obtain ⟨x, hx⟩ := signed.exists_lexer? (.drawn fun occasion _ => occasion.sum)
  refine ⟨x, hx, fun d => ?_, (practice_passes_check hx 27).2 (by decide) 7⟩
  obtain ⟨vars, -, -, -, hpractice⟩ := (practice_passes_check hx 26).1 (by decide) (by decide)
  obtain ⟨s, d', hs, hcheck, -⟩ := hpractice 7 d
  exact ⟨s, d', hs, hcheck⟩

end Calculus

end TableauTutor
