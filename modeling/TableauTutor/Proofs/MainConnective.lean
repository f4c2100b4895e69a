import TableauTutor.Proofs.Remembering
import TableauTutor.Proofs.SolverStep

/-!
Main connectives of sentences that may say nothing. A list of symbols has a main connective as soon as there is a
connective in it, however the symbols stand; reducing brackets changes nothing about that. So a rule that takes a
sentence apart has found a main connective, and the solver can record the move with it.

- `exists_mainConnective`: where there is a connective there is a main one.
- `exists_movedToken`: what a rule takes apart has a symbol to be recorded.
-/

namespace TableauTutor

open Calculus

namespace Sentence

variable {s t : Sentence} {x : Lexer} {m : Method} {rule kind start : String}

/-- the symbol is a connective -/
def Connects (y : Symbol) : Prop := (Connectives.propositional.precedence.lookup y.toToken.kind).isSome

theorem strengthsFrom_ok (p d : Int) (ks : List String) : ∃ table : List (Int × Rat),
    Formula.strengthsFrom .propositional p d ks = .ok table ∧
      (table ≠ [] ↔ ∃ k ∈ ks, (Connectives.propositional.precedence.lookup k).isSome) := by
  induction ks generalizing p d with
  | nil => exact ⟨[], rfl, by simp⟩
  | cons k ks ih =>
    rw [Formula.strengthsFrom]
    split_ifs with hleft hright hk
    · obtain ⟨table, htable, hiff⟩ := ih (p + 1) (d + 1)
      refine ⟨table, htable, hiff.trans ?_⟩
      rw [List.exists_mem_cons_iff, hleft, or_iff_right (by decide)]
    · obtain ⟨table, htable, hiff⟩ := ih (p + 1) (d - 1)
      refine ⟨table, htable, hiff.trans ?_⟩
      rw [List.exists_mem_cons_iff, hright, or_iff_right (by decide)]
    · obtain ⟨table, htable, -⟩ := ih (p + 1) d
      obtain ⟨i, hi⟩ := Option.isSome_iff_exists.1 hk
      have hstrength : (Formula.strength .propositional k d : Except FormulaError Rat) =
          .ok (Strength.measure d i 5) := by
        have hscale : Connectives.propositional.scale? = some 5 := by decide
        rw [Formula.strength, hi, hscale]
        rfl
      refine ⟨(p, Strength.measure d i 5) :: table, ?_, ?_⟩
      · rw [hstrength, htable]
        rfl
      · exact iff_of_true (List.cons_ne_nil _ _) ⟨k, List.mem_cons_self, hk⟩
    · obtain ⟨table, htable, hiff⟩ := ih (p + 1) d
      refine ⟨table, htable, hiff.trans ?_⟩
      rw [List.exists_mem_cons_iff, or_iff_right hk]

theorem exists_dominant {c : Connectives} {tokens : List Token} {table : List (Int × Rat)} (hne : table ≠ [])
    (hpick : ∀ e ∈ table, ∃ y, pick? tokens e.1 = some y) : ∃ i, Formula.dominant c tokens table = .ok (some i) := by
  obtain ⟨first, rest, rfl⟩ := List.exists_cons_of_ne_nil hne
  obtain ⟨-, -, hattained⟩ := foldl_weakest rest first.2
  unfold Formula.dominant
  simp only [Formula.weakest?]
  generalize rest.foldl _ first.2 = weakest at hattained ⊢
  generalize hplaces : List.map _ (List.filter _ (first :: rest)) = places
  have hsome : places ≠ [] := by
    obtain ⟨e, he, heq⟩ : ∃ e ∈ first :: rest, e.2 = weakest := by
      rcases hattained with heq | ⟨e, he, heq⟩
      · exact ⟨first, List.mem_cons_self, heq.symm⟩
      · exact ⟨e, List.mem_cons_of_mem _ he, heq⟩
    have hmem : e.1 ∈ places := hplaces ▸ mem_places.2 ⟨e, he, heq, rfl⟩
    exact List.ne_nil_of_mem hmem
  rw [allUnary_eq]
  · obtain ⟨i, hi⟩ := Option.ne_none_iff_exists'.1 (mt List.min?_eq_none_iff.1 hsome)
    obtain ⟨j, hj⟩ := Option.ne_none_iff_exists'.1 (mt List.max?_eq_none_iff.1 hsome)
    simp only [ok_bind, pure_ok, hi, hj]
    split
    · exact ⟨i, rfl⟩
    · exact ⟨j, rfl⟩
  · intro i hi
    rw [← hplaces] at hi
    obtain ⟨e, he, -, rfl⟩ := mem_places.1 hi
    exact hpick e he

/-- **A sentence has a main connective** if there is a connective in it. -/
theorem exists_mainConnective : (∃ i, s.mainConnective = .ok (some i)) ↔ ∃ y ∈ s, Connects y := by
  obtain ⟨table, htable, hiff⟩ := strengthsFrom_ok 0 0 s.toFormula.kinds
  have hkinds : (∃ k ∈ s.toFormula.kinds, (Connectives.propositional.precedence.lookup k).isSome) ↔ ∃ y ∈ s,
      Connects y := by
    simp [Formula.kinds, toFormula, Connects]
  have hmain : s.mainConnective = .ofFormula (Formula.dominant .propositional s.toFormula.tokens table) := by
    have hstrengths : s.toFormula.strengths .propositional = .ok table := htable
    rw [mainConnective, Formula.mainConnective, hstrengths]
    rfl
  rw [← hkinds, ← hiff, hmain]
  constructor
  · rintro ⟨i, hi⟩ rfl
    cases hi
  · intro hne
    have hpick : ∀ e ∈ table, ∃ y, pick? s.toFormula.tokens e.1 = some y := by
      intro e he
      obtain ⟨hlow, hhigh⟩ := (Formula.keys_strengthsFrom htable).1 e he
      obtain ⟨n, hn⟩ := Int.eq_ofNat_of_zero_le hlow
      rw [Formula.kinds, List.length_map, hn] at hhigh
      rw [hn, pick?_natCast]
      exact ⟨_, List.getElem?_eq_getElem (by omega)⟩
    obtain ⟨i, hi⟩ := exists_dominant (c := .propositional) hne hpick
    exact ⟨i, ofFormula_eq_ok.2 hi⟩

theorem mem_of_reduce (h : s.reduce = .ok t) {y : Symbol} (hy : y ∈ t) : y ∈ s ∨ y = "(" ∨ y = ")" := by
  have hreduce := ofFormula_eq_ok.1 h
  cases hg : s.toFormula.reduceBrackets with
  | error f => simp [hg, Except.map] at hreduce
  | ok g =>
    rw [hg] at hreduce
    obtain rfl : ofFormula g = t := Except.ok.inj hreduce
    obtain ⟨k, hk, rfl⟩ := List.mem_map.1 hy
    have hold (hk : k ∈ s.toFormula.tokens) : k.lexem ∈ s := by
      obtain ⟨z, hz, rfl⟩ := List.mem_map.1 hk
      rwa [Symbol.toToken_lexem]
    unfold Formula.reduceBrackets at hg
    split_ifs at hg
    · obtain rfl := Except.ok.inj hg
      exact .inl (hold hk)
    · cases hstrip : Formula.stripPairs s.toFormula.tokens with
      | error f => simp [hstrip] at hg
      | ok r =>
        obtain ⟨n, core⟩ := r
        rw [hstrip] at hg
        obtain rfl := Except.ok.inj hg
        have hcore : k ∈ core → k ∈ s.toFormula.tokens := by
          intro hk
          rw [Formula.stripPairs_eq_ok hstrip]
          exact List.mem_append_left _ (List.mem_append_right _ hk)
        simp only [List.mem_append, List.mem_replicate] at hk
        rcases hk with (⟨-, rfl⟩ | hk) | ⟨-, rfl⟩
        · exact .inr (.inl rfl)
        · exact .inl (hold (hcore hk))
        · exact .inr (.inr rfl)

theorem exists_mainConnective_of_reduce (h : s.reduce = .ok t) (ht : ∃ i, t.mainConnective = .ok (some i)) :
    ∃ i, s.mainConnective = .ok (some i) := by
  rw [exists_mainConnective] at ht ⊢
  obtain ⟨y, hy, hconnects⟩ := ht
  rcases mem_of_reduce h hy with hmem | rfl | rfl
  · exact ⟨y, hmem, hconnects⟩
  · exact absurd hconnects (by unfold Connects; decide)
  · exact absurd hconnects (by unfold Connects; decide)

theorem exists_mainConnective_of_parts {k : Parts} (h : s.parts = .ok (some k)) :
    ∃ i, s.mainConnective = .ok (some i) := by
  have hparts := ofFormula_eq_ok.1 h
  rcases hk : s.toFormula.components .propositional with f | _ | k' <;> rw [hk] at hparts
  · cases hparts
  · cases hparts
  · obtain ⟨g, i, -, hi, -⟩ := Formula.components_eq_some hk
    exact ⟨i, ofFormula_eq_ok.2 hi⟩

theorem argument_eq_some (h : s.argument start = .ok (some t)) : ∃ k, s.parts = .ok (some k) ∧ k.right = some t := by
  unfold argument at h
  split_ifs at h
  · cases h
  obtain ⟨k, hk, h⟩ := of_bind_eq_ok h
  cases k with
  | none => cases h
  | some k =>
    refine ⟨k, hk, ?_⟩
    dsimp only at h
    split_ifs at h
    · exact Except.ok.inj h
    · cases h

theorem parts_of_around {lr : Sentence × Sentence} (h : s.around kind = .ok (some lr)) :
    ∃ k, s.parts = .ok (some k) := by
  obtain ⟨sides, hsides, h⟩ := of_bind_eq_ok h
  cases sides with
  | none => cases h
  | some sides =>
    unfold Sentence.sides at hsides
    split_ifs at hsides
    · cases hsides
    obtain ⟨k, hk, hsides⟩ := of_bind_eq_ok hsides
    cases k with
    | none => cases hsides
    | some k => exact ⟨k, hk⟩

end Sentence

/-! ## The symbol that is recorded -/

namespace Proof

theorem startsWith_false : ∀ r ∈ ruleMethods, Text.startsWith "false" r.1 =
    match r.2 with
    | .doubleNegation => false
    | .decomposition d => !d.whole := by
  decide

/-- **What a rule takes apart has a symbol to be recorded**, whatever it says. -/
theorem exists_movedToken {rule : String} {m : Method} (hm : method? rule = some m) {s : Sentence}
    {bs : List (List Sentence)}
    (h : Method.strict m s = .ok (some bs)) (c : Calculus) : ∃ token, movedToken c rule s = .ok token := by
  have hname := startsWith_false _ (mem_of_method? hm)
  -- a rule for a sentence as it stands is recorded with its main connective
  have hwhole (hstart : Text.startsWith "false" rule = false) (hmain : ∃ i, s.mainConnective = .ok (some i)) :
      ∃ token, movedToken c rule s = .ok token := by
    obtain ⟨i, hi⟩ := hmain
    exact ⟨_, by simp only [movedToken, hstart, hi, ok_bind]; rfl⟩
  cases m with
  | doubleNegation =>
    obtain ⟨r, hr, h⟩ := of_bind_eq_ok h
    obtain ⟨once, honce, hr⟩ := of_bind_eq_ok hr
    obtain ⟨t, ht, honce⟩ := of_bind_eq_ok honce
    cases t with
    | none =>
      obtain rfl := Except.ok.inj honce
      obtain rfl := Except.ok.inj hr
      cases h
    | some t =>
      obtain ⟨k, hk, -⟩ := Sentence.argument_eq_some ht
      exact hwhole hname (Sentence.exists_mainConnective_of_parts hk)
  | decomposition d =>
    have hstart : Text.startsWith "false" rule = !d.whole := hname
    obtain ⟨core, hcore, h⟩ := of_bind_eq_ok h
    cases core with
    | none => cases h
    | some t =>
      obtain ⟨around, haround, h⟩ := of_bind_eq_ok h
      cases around with
      | none => cases h
      | some lr =>
        obtain ⟨k, hk⟩ := Sentence.parts_of_around haround
        have hmain := Sentence.exists_mainConnective_of_parts hk
        unfold Decomposition.core at hcore
        cases hd : d.whole with
        | true =>
          rw [hd, if_pos rfl] at hcore
          obtain rfl := Option.some.inj (Except.ok.inj hcore)
          exact hwhole (by rw [hstart, hd]; rfl) hmain
        | false =>
          -- the connective is looked for behind the negation
          rw [hd, if_neg (by decide)] at hcore
          obtain ⟨arg, harg, hcore⟩ := of_bind_eq_ok hcore
          cases arg with
          | none => cases hcore
          | some arg =>
            obtain ⟨r, hr, hcore⟩ := of_bind_eq_ok hcore
            obtain rfl : r = t := by
              split_ifs at hcore
              · exact Option.some.inj (Except.ok.inj hcore)
            obtain ⟨k', hk', hright⟩ := Sentence.argument_eq_some harg
            obtain ⟨i, hi⟩ := Sentence.exists_mainConnective_of_reduce hr hmain
            have hfalse : Text.startsWith "false" rule = true := by rw [hstart, hd]; rfl
            exact ⟨_, by simp only [movedToken, hfalse, if_true, hk', hright, hi, ok_bind]; rfl⟩

end Proof

end TableauTutor
