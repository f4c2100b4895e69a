import TableauTutor.Proofs.LooseRules

/-!
Rules used at the connective that they decompose. A person who chooses the right symbol gets what the solver gets: the
rule at a chosen symbol and the rule at the main connective cut the sentence at the same place, however many brackets
stand behind a negation and whatever the sign in front.

- `Calculus.connectiveAt`: where that connective stands in a node.
- `Calculus.naive_at_connective`: used there, a rule makes what it makes of the sentence by
  itself, sentence for sentence.
-/

namespace TableauTutor

open Calculus

theorem Text.isInfix_iff {part s : List Char} : Text.isInfix part s = true ↔ part <:+: s := by
  induction s with
  | nil => simp [Text.isInfix]
  | cons c s ih => simp [Text.isInfix, ih, List.infix_cons_iff]

theorem Symbol.IsLetter.contains_brackets {y : Symbol} (h : y.IsLetter) : Text.contains y "()" = false := by
  obtain ⟨k, -, l, rfl⟩ := h
  rw [Text.contains, Bool.eq_false_iff, Ne, Text.isInfix_iff]
  intro hin
  have hmem : '_' ∈ "()".toList := hin.subset (by simp [toList_of])
  exact absurd hmem (by decide)

namespace Sentence

variable {s : Sentence} {a b : Proposition} {o : Junctor}

/-- a formula in brackets, as a part of another one, loses the brackets -/
theorem Reads.part_wrapped (h : s.Reads a) (n : Nat) :
    Formula.part (σ := Rat) (s.wrapped n).tokens [] = .ok (some ⟨s.tokens, []⟩) := by
  have hexpr := h.wrapped n
  obtain ⟨t, k, hpart, heq, ht⟩ := part_reads hexpr.hasSymbol (complete_of_balanced hexpr.balanced) hexpr
  have htok := congrArg tokens heq
  rw [tokens_wrapped, tokens_wrapped] at htok
  rw [hpart, wrap_eq_wrap h.1.balanced h.2 ht.1.balanced ht.2 htok]

/-- **A formula cut at its main connective** falls into its sides. -/
theorem Reads.splitAt_main (h : s.Reads (.join o a b)) :
    ∃ (i : Nat) (y : Symbol) (l r : Sentence), s.mainConnective = .ok (some (i : Int)) ∧ s[i]? = some y ∧ y.IsLetter ∧
      y.kind = o.kind ∧ s.parts = .ok (some ⟨y, some l, some r⟩) ∧ l.Reads a ∧ r.Reads b ∧
      s.splitAt i = .ok (some l, some r) := by
  obtain ⟨y, m, n, l, r, rfl, hy, hk, hl, hr, hmain, hparts⟩ := h.join_eq
  refine ⟨_, y, l, r, hmain, by simp, hy, hk, hparts, hl, hr, ?_⟩
  have hsplit := split_append (l.wrapped m).tokens (r.wrapped n).tokens y.toToken
  have hlen : (l.wrapped m).tokens.length = (l.wrapped m).length := List.length_map _
  rw [hl.part_wrapped, hr.part_wrapped, ← tokens_cons, ← tokens_append, hlen] at hsplit
  rw [splitAt, ofFormula_eq_ok]
  change Except.map _ (Formula.split ⟨tokens (l.wrapped m ++ y :: r.wrapped n), []⟩ (l.wrapped m).length) = _
  rw [hsplit]
  simp [Except.map, pure_ok]

end Sentence

/-! ## The connective that is decomposed -/

namespace Calculus

/-- where the connective that a decomposition takes apart stands in a node: it is the main connective of the node, or of
the formula behind its negation or its sign -/
def connectiveAt (c : Calculus) (d : Decomposition) (s : Sentence) : Outcome (Option Int) :=
  if c = unsigned ∧ d.whole then s.mainConnective
  else do return (← Sentence.mainConnective (s.drop 1)).map (· + 1)

end Calculus

namespace Decomposition

variable {d : Decomposition} {s : Sentence} {a : Proposition} {bs : List (List Sentence)}

/-- what a decomposition that takes a formula apart has found: a two-place connection, maybe behind a negation -/
theorem strict_eq_some (h : s.Reads a) (hstrict : d.strict s = .ok (some bs)) :
    ∃ (t : Sentence) (o : Junctor) (p q : Proposition) (i : Nat) (y : Symbol) (l r : Sentence),
    d.core s = .ok (some t) ∧
      t.Reads (.join o p q) ∧ a = (Proposition.join o p q).side d.whole ∧ t.mainConnective = .ok (some (i : Int)) ∧
      t[i]? = some y ∧ y.IsLetter ∧ y.kind = o.kind ∧ o.kind = d.main ∧ t.splitAt i = .ok (some l, some r) ∧
      bs = d.arrange (side d.first l) (side d.second r) := by
  obtain ⟨_ | t, hcore, hstrict⟩ := of_bind_eq_ok hstrict
  · cases hstrict
  obtain ⟨_ | ⟨l, r⟩, haround, hstrict⟩ := of_bind_eq_ok hstrict
  · cases hstrict
  obtain ⟨b, ht, rfl, -⟩ := core_eq h hcore
  obtain ⟨sides, hsides, hrel⟩ := ht.around d.main
  obtain rfl := Except.ok.inj (hsides.symm.trans haround)
  cases b with
  | var x => cases hrel
  | neg b => cases hrel
  | join o p q =>
    have hk : o.kind = d.main := by
      by_contra hne
      rw [Proposition.sides?, if_neg hne] at hrel
      cases hrel
    obtain ⟨i, y, l', r', hmain, hy, hletter, hkind, hparts, hl, hr, hsplit⟩ := ht.splitAt_main
    obtain ⟨rfl, rfl⟩ : l' = l ∧ r' = r := by
      have hlen := ht.one_lt_length (by simp)
      simpa [Sentence.around, Sentence.sides, hlen, hparts, hkind, hk, Sentence.reducePart, hl.reduce, hr.reduce,
        pure_ok, Functor.map, Except.map] using haround
    exact ⟨t, o, p, q, i, y, l', r', hcore, ht, rfl, hmain, hy, hletter, hkind, hk, hsplit,
      (Option.some.inj (Except.ok.inj hstrict)).symm⟩

theorem checkToken_eq_ok {i : Nat} {y : Symbol} (hy : s[i]? = some y) (hletter : y.IsLetter) (hvar : y.kind ≠ "sentvar")
    (hnot : y.kind ≠ "not") : checkToken s i = .ok () := by
  have hneg : ¬ (i : Int) < 0 := by omega
  simp [checkToken, hneg, hy, hletter.startsWith_sentvar, hletter.startsWith_not.1, hvar, hnot,
    hletter.contains_brackets, pure_ok]

/-- **A formula decomposed at the connective** that the rule is for: what comes out is what the rule makes by itself. -/
theorem naive_eq_strict (h : s.Reads a) (hstrict : d.strict s = .ok (some bs)) {branch : List Sentence} {i : Nat}
    (hs : branch[i]? = some s) :
    ∃ (j : Nat) (y : Symbol), unsigned.connectiveAt d s = .ok (some (j : Int)) ∧ s[j]? = some y ∧ y.kind = d.main ∧
      d.naive branch i j = .ok (bs.map (·.map some)) := by
  obtain ⟨t, o, p, q, k, y, l, r, hcore, ht, rfl, hmain, hy, hletter, hkind, hk, hsplit, rfl⟩ :=
    strict_eq_some h hstrict
  obtain ⟨hvar, hnot⟩ : y.kind ≠ "sentvar" ∧ y.kind ≠ "not" := by
    rw [hkind]
    cases o <;> decide
  have hsentence : sentenceAt branch i = .ok s := by
    have hneg : ¬ (i : Int) < 0 := by omega
    simp [sentenceAt, hneg, hs, pure_ok]
  -- the place in the sentence, and the place in what is left of it without the negation
  obtain ⟨j, hat, hj, hplace⟩ : ∃ j : Nat, unsigned.connectiveAt d s = .ok (some (j : Int)) ∧ s[j]? = some y ∧
      (j : Int) - ((s.length + 1 : Int) - t.length).fdiv 2 = k := by
    obtain ⟨b, -, -, ⟨hw, rfl⟩ | ⟨hw, z, n, -, -, rfl⟩⟩ := core_eq h hcore
    · refine ⟨k, ?_, hy, by rw [Sentence.fdiv_self, Int.sub_zero]⟩
      rw [connectiveAt, if_pos ⟨rfl, hw⟩, hmain]
    · refine ⟨k + n + 1, ?_, ?_, by rw [Sentence.fdiv_wrapped]; omega⟩
      · rw [connectiveAt, if_neg (by simp [hw]), List.drop_one, List.tail_cons, ht.mainConnective_wrapped hmain]
        simp [pure_ok, Int.add_comm (n : Int)]
      · rw [List.getElem?_cons_succ, Sentence.wrapped, List.append_assoc,
          List.getElem?_append_right (by simp), List.length_replicate, Nat.add_sub_cancel,
          List.getElem?_append_left (List.getElem?_eq_some_iff.1 hy).1, hy]
  refine ⟨j, y, hat, hj, hkind.trans hk, ?_⟩
  simp only [naive, hsentence, checkToken_eq_ok hj hletter hvar hnot, hcore, hplace, hsplit, ok_bind, pure_ok,
    Option.map_some, Except.ok.injEq]
  unfold arrange
  split <;> rfl

end Decomposition

namespace Calculus

variable {c : Calculus} {x : Lexer} {s : Sentence} {d : Decomposition} {branch : List Sentence}

theorem exists_mapM_unsign (hx : signed.HasLexer x) (hbranch : ∀ t ∈ branch, t ≠ []) :
    ∃ plain, branch.mapM (unsign x) = .ok plain ∧
      ∀ (i : Nat) (s p : Sentence), branch[i]? = some s → unsign x s = .ok p → plain[i]? = some p := by
  induction branch with
  | nil => exact ⟨[], rfl, by simp⟩
  | cons t branch ih =>
    obtain ⟨plain, hplain, hget⟩ := ih fun u hu => hbranch u (List.mem_cons_of_mem _ hu)
    obtain ⟨q, hq⟩ : ∃ q, unsign x t = .ok q := by
      cases t with
      | nil => exact absurd rfl (hbranch [] List.mem_cons_self)
      | cons y t =>
        obtain ⟨l, hl⟩ := addPrefix_not hx t
        rw [unsign]
        split_ifs
        · exact ⟨t, rfl⟩
        · exact ⟨_, hl⟩
        · exact ⟨y :: t, rfl⟩
    refine ⟨q :: plain, by simp [hq, hplain, pure_ok], fun i s p hs hp => ?_⟩
    cases i with
    | zero =>
      obtain rfl : t = s := by simpa using hs
      simpa using Except.ok.inj (hq.symm.trans hp)
    | succ i => exact hget i s p (by simpa using hs) hp

/-- the place of the connective in a signed node, and its place in the formula that has a negation for the sign F and
nothing for the sign T -/
theorem connectiveAt_signed (hx : signed.HasLexer x) {a : Proposition} (ha : signed.Means s a) {p : Sentence}
    (hp : unsign x s = .ok p) (hread : p.Reads a) {bs : List (List Sentence)}
    (hstrict : d.strict p = .ok (some bs)) {j : Nat}
    (hj : unsigned.connectiveAt d p = .ok (some (j : Int))) {y : Symbol} (hy : p[j]? = some y) :
    ∃ (k : Nat) (shift : Int), signed.connectiveAt d s = .ok (some (k : Int)) ∧ s[k]? = some y ∧
    signShift s = .ok shift ∧ (k : Int) + shift = j := by
  obtain ⟨-, o, b, b', -, -, -, -, -, -, hside, -⟩ := Decomposition.strict_eq_some hread hstrict
  obtain ⟨t, ⟨rfl, ht, hneg⟩ | ⟨a', rfl, ht, rfl⟩⟩ := ha
  · -- behind the sign T stands the formula itself
    obtain rfl : t = p := Except.ok.inj ((unsign_true x t).symm.trans hp)
    have hw : d.whole = true := by
      by_contra hw
      rw [Bool.not_eq_true] at hw
      rw [hw] at hside
      exact hneg _ hside
    rw [connectiveAt, if_pos ⟨rfl, hw⟩] at hj
    have hshift : signShift (trueSign :: t) = .ok (-1) := by
      have hsign : Text.startsWith "signfalse_" trueSign = false := by decide
      simp [signShift, hsign, pure_ok]
    refine ⟨j + 1, -1, ?_, by simpa using hy, hshift, by omega⟩
    simp [connectiveAt, hj, pure_ok]
  · -- behind the sign F stands the formula that is negated, without the brackets that the negation brings
    obtain ⟨l, hl⟩ := unsign_false hx t
    obtain rfl := Except.ok.inj (hl.symm.trans hp)
    cases hw : d.whole with
    | true => simp [hw, Proposition.side] at hside
    | false =>
      obtain rfl : a' = .join o b b' := by simpa [hw, Proposition.side] using hside
      have hlen : t.length ≠ 1 := fun h => ht.one_lt_length (by simp) (by omega)
      obtain ⟨i, z, -, -, hmain, hz, -⟩ := ht.splitAt_main
      have hbehind : t.behind (.of "not" l) = .of "not" l :: t.wrapped 1 := by
        simp [Sentence.behind, hlen, Sentence.wrapped]
      rw [hbehind] at hj hy
      simp only [connectiveAt, hw, List.drop_one, List.tail_cons, ht.mainConnective_wrapped hmain, ok_bind, pure_ok,
        and_false, Bool.false_eq_true, if_false, Option.map_some, Except.ok.injEq, Option.some.injEq] at hj
      obtain rfl : j = i + 2 := by omega
      have hshift : signShift (falseSign :: t) = .ok 1 := by
        have hsign : Text.startsWith "signfalse_" falseSign = true := by decide
        have hne : t ≠ [] := List.ne_nil_of_length_pos ht.length_pos
        simp [signShift, hsign, hne, pure_ok]
      refine ⟨i + 1, 1, ?_, ?_, hshift, by omega⟩
      · simp [connectiveAt, hmain, pure_ok]
      · have hlt := (List.getElem?_eq_some_iff.1 hz).1
        rw [List.getElem?_cons_succ]
        simpa [Sentence.wrapped, List.getElem?_append_left hlt] using hy

/-- **A decomposition used at the connective** that it takes apart makes of a node what it makes of it by itself,
whatever else is on the branch. -/
theorem decompose_at_connective (hx : c.HasLexer x) {i : Nat} (hs : branch[i]? = some s) (hnode : c.NodeForm s)
    (hbranch : c = signed → ∀ t ∈ branch, t ≠ []) {bs : List (List Sentence)}
    (hstrict : c.strict x (.decomposition d) s = .ok (some bs)) :
    ∃ (j : Nat) (y : Symbol), c.connectiveAt d s = .ok (some (j : Int)) ∧ s[j]? = some y ∧ y.kind = d.main ∧
      c.decompose x d branch i j = .ok (some (bs.map (·.map some))) := by
  obtain ⟨a, ha⟩ := nodeForm_iff.1 hnode
  obtain ⟨p, hp, hread, -⟩ := toPlain_reads hx ha
  obtain ⟨p', hp', hstrict⟩ := of_bind_eq_ok hstrict
  obtain rfl : p = p' := Except.ok.inj (hp.symm.trans hp')
  obtain ⟨_ | made, hmade, hstrict⟩ := of_bind_eq_ok hstrict
  · cases hstrict
  obtain ⟨ns, hns, hstrict⟩ := of_bind_eq_ok hstrict
  obtain rfl : ns = bs := Option.some.inj (Except.ok.inj hstrict)
  cases c with
  | unsigned =>
    obtain rfl : s = p := Except.ok.inj hp
    obtain rfl : made = ns := by
      have hpure : (made.mapM fun b => b.mapM (unsigned.toNode x)) = .ok made := by
        have hnode (b : List Sentence) : b.mapM (unsigned.toNode x) = .ok b := List.mapM_pure.trans (by simp [pure_ok])
        simp only [hnode]
        exact List.mapM_pure.trans (by simp [pure_ok])
      exact Except.ok.inj (hpure.symm.trans hns)
    obtain ⟨j, y, hj, hy, hk, hnaive⟩ := Decomposition.naive_eq_strict hread hmade hs
    exact ⟨j, y, hj, hy, hk, by simp [decompose, hnaive, Functor.map, Except.map]⟩
  | signed =>
    obtain ⟨plain, hplain, hget⟩ := exists_mapM_unsign hx (hbranch rfl)
    obtain ⟨j, y, hj, hy, hk, hnaive⟩ := Decomposition.naive_eq_strict hread hmade (hget i s p hs hp)
    obtain ⟨k, shift, hat, hyk, hshift, hsum⟩ := connectiveAt_signed hx ha hp hread hmade hj hy
    refine ⟨k, y, hat, hyk, hk, ?_⟩
    simp only [decompose, pick?_natCast, hs, hshift, hplain, hsum, hnaive, ok_bind, signGrowth_eq hns]

/-- **Rules used at the connective that they decompose.** Every rule other than the one that removes a double negation
decomposes a two-place connective. Where it takes a node apart, at any place of a branch, there is that connective in
the node, it is of the kind that the rule is for, and the rule used at its position makes the same, sentence for
sentence. A branch of signed nodes must hold no empty sentence: the signs of all its nodes are read. -/
theorem naive_at_connective (hx : c.HasLexer x) {rule : String} (hrule : rule ∈ ruleNames) (hne : rule ≠ "double not") :
    ∃ d, method? rule = some (.decomposition d) ∧
      ∀ (branch : List Sentence) (i : Nat) (s : Sentence) (bs : List (List Sentence)), branch[i]? = some s →
      c.NodeForm s → (c = signed → ∀ t ∈ branch, t ≠ []) → c.strict x (.decomposition d) s = .ok (some bs) →
        ∃ (j : Nat) (y : Symbol), c.connectiveAt d s = .ok (some (j : Int)) ∧ s[j]? = some y ∧ y.kind = d.main ∧
          c.naive x (.decomposition d) branch [(i : Int), (j : Int)] = .ok (some (bs.map (·.map some))) := by
  obtain ⟨d, hd⟩ : ∃ d, method? rule = some (.decomposition d) := by
    have hall : ∀ r ∈ ruleNames, r ≠ "double not" → (Decomposition.named? r).isSome := by decide
    obtain ⟨d, hd⟩ := Option.isSome_iff_exists.1 (hall rule hrule hne)
    exact ⟨d, by simp [method?, hne, hrule, hd]⟩
  exact ⟨d, hd, fun branch i s bs hs hnode hbranch hstrict => decompose_at_connective hx hs hnode hbranch hstrict⟩

/-- `~((p v q))` below `r`: the connective is the symbol with number 4, behind the negation and two brackets -/
theorem naive_at_connective_double_brackets :
    let s : Sentence := [.of "not" "~", "(", "(", .of "sentvar" "p", .of "or" "v", .of "sentvar" "q", ")", ")"]
    ∃ x d, unsigned.HasLexer x ∧ method? "false or" = some (.decomposition d) ∧
    unsigned.connectiveAt d s = .ok (some 4) ∧ unsigned.naive x (.decomposition d) [[.of "sentvar" "r"], s] [1, 4] =
        .ok (some [[some [.of "not" "~", .of "sentvar" "p"], some [.of "not" "~", .of "sentvar" "q"]]]) := by
  intro s
  obtain ⟨x, hx⟩ := unsigned.exists_lexer
  obtain ⟨d, hd, hall⟩ := naive_at_connective hx (show "false or" ∈ ruleNames by decide) (by decide)
  obtain rfl : ⟨"or", false, false, false, false⟩ = d := by
    have hmethod : method? "false or" = some (.decomposition ⟨"or", false, false, false, false⟩) := by decide
    simpa using hmethod.symm.trans hd
  obtain ⟨a, ha⟩ : ∃ a, s.Expresses a := Sentence.exists_expresses (Sentence.inLanguage_of_symbols (by decide))
    (by decide)
  have hnode : unsigned.NodeForm s := isPlain_iff.2 ⟨a, ha.reads_of_head? (by decide)⟩
  have hat : unsigned.connectiveAt ⟨"or", false, false, false, false⟩ s = .ok (some 4) :=
    eq_ok_of_toOption (by decide +kernel)
  have hmade : Decomposition.strict ⟨"or", false, false, false, false⟩ s =
      .ok (some [[[.of "not" "~", .of "sentvar" "p"], [.of "not" "~", .of "sentvar" "q"]]]) :=
      eq_ok_of_toOption (by decide +kernel)
  have hstrict : unsigned.strict x (.decomposition ⟨"or", false, false, false, false⟩) s =
      .ok (some [[[.of "not" "~", .of "sentvar" "p"], [.of "not" "~", .of "sentvar" "q"]]]) := by
    simp only [strict, toPlain, Method.strict, hmade, ok_bind, pure_ok]
    rfl
  obtain ⟨j, y, hj, -, -, hnaive⟩ := hall [[.of "sentvar" "r"], s] 1 s _ rfl hnode (fun h => by cases h) hstrict
  obtain rfl : j = 4 := by
    have := Option.some.inj (Except.ok.inj (hj.symm.trans hat))
    omega
  exact ⟨x, _, hx, hd, hat, hnaive⟩

/-- `T p & q` beside an empty sentence, which has no sign to read: the rule takes the node
apart, but not at its connective -/
theorem naive_beside_empty :
    let t : Sentence := [.of "sentvar" "p", .of "and" "&", .of "sentvar" "q"]
    ∃ x d bs, signed.HasLexer x ∧ method? "true and" = some (.decomposition d) ∧ signed.NodeForm (trueSign :: t) ∧
      signed.strict x (.decomposition d) (trueSign :: t) = .ok (some bs) ∧
      signed.connectiveAt d (trueSign :: t) = .ok (some 2) ∧
      signed.naive x (.decomposition d) [trueSign :: t, []] [0, 2] = .error emptySentence := by
  intro t
  obtain ⟨x, hx⟩ := signed.exists_lexer
  obtain ⟨a, ha⟩ := Sentence.exists_expresses (s := t) (Sentence.inLanguage_of_symbols (by decide)) (by decide)
  have hparts : t.parts.toOption.join.map (isNegation ·.connective) = some false := by decide +kernel
  have hnode : signed.NodeForm (trueSign :: t) :=
    ⟨t, isPlain_iff.2 ⟨a, ha.reads_of_head? (by decide)⟩,
      .inl ⟨rfl, fun k hk => by simpa [hk, Except.toOption] using hparts⟩⟩
  have hmade : Decomposition.strict ⟨"and", true, true, true, false⟩ t = .ok (some [[t.take 1, t.drop 2]]) :=
    eq_ok_of_toOption (by decide +kernel)
  have hplain : [trueSign :: t, []].mapM (unsign x) = .error emptySentence := by
    simp only [List.mapM_cons, unsign_true, ok_bind]
    rfl
  obtain ⟨b, hb⟩ := nodeForm_iff.1 hnode
  obtain ⟨_ | bs, hr, -⟩ := strict_means hx (.decomposition ⟨"and", true, true, true, false⟩) hb
  · simp only [strict, toPlain, unsign_true, Method.strict, hmade, bind, Except.bind] at hr
    split at hr <;> cases hr
  refine ⟨x, _, bs, hx, by decide, hnode, hr, eq_ok_of_toOption (by decide +kernel), ?_⟩
  simp only [naive, decompose, hplain, show pick? [trueSign :: t, []] 0 = some (trueSign :: t) from rfl,
    signShift]
  rfl

end Calculus

end TableauTutor
