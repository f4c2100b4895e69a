import TableauTutor.Proofs.Remembering

/-!
Removing the operators in front of a formula. Removal takes a formula apart at its main connective and goes
on with the right part as long as the connective is among the chosen ones, so on a spelling of a tree it
walks down the tree from the root.

- `removeMainUnary_spells`: what is left is a spelling of the tree without its leading operators.
-/

namespace TableauTutor

namespace SyntaxTree

/-- the connective at the root; none in an atom -/
def root? : SyntaxTree → Option Token
  | atom _ => none
  | unary op _ => some op
  | binary op _ _ => some op

/-- the tree without the unary operators at its root, as long as they are of the chosen kinds -/
def withoutLeading (chosen : List String) : SyntaxTree → SyntaxTree
  | atom a => atom a
  | unary op x => if chosen.contains op.kind then x.withoutLeading chosen else unary op x
  | binary op l r => binary op l r

end SyntaxTree

namespace Formula

variable {σ : Type} {c : Connectives}

/-! ## Formulas without what they remember -/

/-- the formula without what it remembers -/
def forget (f : Formula σ) : Formula σ := ⟨f.tokens, []⟩

/-- the parts without what they remember -/
def Components.forget (k : Components σ) : Components σ :=
  ⟨k.connective, k.left.map Formula.forget, k.right.map Formula.forget⟩

theorem reduceBrackets_forget (f : Formula σ) : f.reduceBrackets.map forget = f.forget.reduceBrackets := by
  unfold reduceBrackets forget
  by_cases hshort : f.tokens.length < 2
  · simp [hshort, Except.map]
  · simp only [hshort, if_false]
    cases stripPairs f.tokens with
    | error e => rfl
    | ok r => simp [Except.map, pure_ok, mapKeys, tableOf]

theorem part_forget (ts : List Token) (rem : List (Int × σ)) : (part ts rem).map (Option.map forget) = part ts [] := by
  unfold part
  by_cases hempty : ts.isEmpty
  · simp [hempty, Except.map]
  · simp only [hempty, Bool.false_eq_true, if_false]
    have hone := reduceBrackets_forget (⟨ts, rem⟩ : Formula σ)
    change _ = reduceBrackets ⟨ts, []⟩ at hone
    rw [← hone]
    cases reduceBrackets (⟨ts, rem⟩ : Formula σ) with
    | error e => rfl
    | ok once =>
      have htwo := reduceBrackets_forget once
      simp only [Except.map, ok_bind, ← htwo]
      cases once.reduceBrackets <;> rfl

theorem split_forget (f : Formula σ) (i : Int) :
    (f.split i).map (fun p => (p.1.map forget, p.2.map forget)) = f.forget.split i := by
  have hleft := part_forget (TableauTutor.cut f.tokens none (some i)) (splitAtKey f.remembered i).1
  have hright := part_forget (TableauTutor.cut f.tokens (some (i + 1)) none) (splitAtKey f.remembered i).2
  have hnil : splitAtKey ([] : List (Int × σ)) i = ([], []) := rfl
  unfold split
  simp only [forget, hnil, ← hleft, ← hright]
  cases part (TableauTutor.cut f.tokens none (some i)) (splitAtKey f.remembered i).1 with
  | error e => rfl
  | ok l => cases part (TableauTutor.cut f.tokens (some (i + 1)) none) (splitAtKey f.remembered i).2 <;> rfl

/-- **What a formula remembers changes nothing in its parts** but what these remember. -/
theorem components_forget {f : Formula Rat} (h : Carried c f) :
    (f.components c).map (Option.map Components.forget) = f.forget.components c := by
  have hmain : f.forget.mainConnective c = f.mainConnective c := (answers_of_carried h).1.symm
  unfold components
  rw [hmain, ← reduceBrackets_forget]
  cases f.reduceBrackets with
  | error e => rfl
  | ok g =>
    simp only [Except.map, bind, Except.bind]
    cases f.mainConnective c with
    | error e => rfl
    | ok m =>
      cases m with
      | none => rfl
      | some i =>
        have htokens : g.forget.tokens = g.tokens := rfl
        simp only [htokens, ← split_forget]
        cases pick? g.tokens i with
        | none => rfl
        | some t => cases g.split i <;> rfl

/-- **The connective at which a spelling is taken apart** is the root of its tree, whatever the formula remembers. -/
theorem components_root (hc : c.Regular) {t : SyntaxTree} {f : Formula Rat} (hf : Carried c f)
    (h : Spelling c t false f.tokens) : ∃ o, f.components c = .ok o ∧ o.map (·.connective) = t.root? := by
  -- without what is remembered the parts are known, and so is the connective
  obtain ⟨o, ho, hroot⟩ : ∃ o, f.forget.components c = .ok o ∧ o.map (·.connective) = t.root? := by
    obtain ⟨w, rem⟩ := f
    change Spelling c t false w at h
    change ∃ o, components c (⟨w, []⟩ : Formula Rat) = .ok o ∧ _
    cases h with
    | atom ha => exact ⟨none, components_atom ha, rfl⟩
    | unary hop hx hfit =>
      obtain ⟨v, hv, -⟩ := components_unary hc hop hx hfit
      exact ⟨_, hv, rfl⟩
    | binary hop hl hr hfl hfr =>
      obtain ⟨vl, vr, hv, -⟩ := components_binary hc hop hl hr hfl hfr
      exact ⟨_, hv, rfl⟩
  rw [← components_forget hf] at ho
  cases hk : f.components c with
  | error e => simp [hk, Except.map] at ho
  | ok k =>
    obtain rfl : k.map Components.forget = o := by simpa [hk, Except.map] using ho
    refine ⟨k, rfl, hroot ▸ ?_⟩
    cases k <;> rfl

/-! ## Where removal stops -/

/-- what is remembered stays as it is where reducing changes nothing; a single token remembers nothing -/
theorem reduceBrackets_keeps {f : Formula σ} (h : HasSymbol f.tokens) (hb : Balanced f.tokens)
    (he : ¬ Enclosed f.tokens) (hkeys : (f.remembered.map (·.1)).Nodup) :
    f.reduceBrackets = .ok ⟨f.tokens, if f.tokens.length < 2 then [] else f.remembered⟩ := by
  by_cases hshort : f.tokens.length < 2
  · simp only [reduceBrackets, hshort, if_true]
  obtain ⟨n, core, hstrip, hcore, hflank⟩ := stripPairs_wrap h
  obtain ⟨hsurplus, -, hrest⟩ := countBrackets_residue core
  have hnet := residue_of_wrap_balanced (hcore ▸ hb)
  have htokens : complete core = f.tokens := by
    obtain ⟨k, hk⟩ := complete_wrap n core
    rw [← hcore, complete_of_balanced hb] at hk
    exact wrap_eq_wrap (m := k) (n := 0) (balanced_complete core) (complete_bare hflank hnet) hb he
      (by simpa using hk.symm)
  -- as many pairs are put back as were taken off
  have hsame : n = (residue core).unopened := by
    have hlength := congrArg List.length (htokens.trans hcore)
    simp only [complete, wrap, List.length_append, List.length_replicate] at hlength
    omega
  have hmoved : mapKeys (· - ((n : Int) - (residue core).unopened)) f.remembered = f.remembered := by
    rw [mapKeys_sub hkeys]
    simp [← hsame]
  have hreduced : f.reduceBrackets = .ok ⟨complete core, mapKeys (· - ((n : Int) - (residue core).unopened))
      f.remembered⟩ := by
    rw [reduceBrackets, if_neg hshort, hstrip]
    simp only [ok_bind, pure_ok, hsurplus, ← hrest, complete]
  rw [hreduced, htokens, hmoved, if_neg hshort]

theorem dropUnary_stop {chosen : List String} {f : Formula Rat} {o : Option (Components Rat)}
    (h : f.components c = .ok o) (hstop : ∀ k ∈ o, k.connective.kind ∉ chosen) (fuel : Nat) :
    dropUnary c chosen (fuel + 1) f = (f.afterComponents c).reduceBrackets := by
  rw [dropUnary, h]
  cases o with
  | none => rfl
  | some k =>
    have hk := hstop k rfl
    simp [hk]

/-- **Where the root is not chosen** removal changes no token; what it gives remembers its strengths, and removing from
that again changes nothing at all. -/
theorem dropUnary_settled (hc : c.Regular) {t : SyntaxTree} {v : List Token} (h : Spelling c t false v)
    (chosen : List String) (hstop : ∀ op ∈ t.root?, op.kind ∉ chosen) :
    ∃ g : Formula Rat, g.tokens = v ∧
      ∀ fuel, dropUnary c chosen (fuel + 1) ⟨v, []⟩ = .ok g ∧ dropUnary c chosen (fuel + 1) g = .ok g := by
  obtain ⟨table, htab, -, -⟩ := h.tabulates hc 0 0
  have hfresh : strengthsFrom c 0 0 (v.map (·.kind)) = .ok table := htab.strengths
  -- whether the table is remembered or not, it is there once the formula has been taken apart
  have hremoval (rem : List (Int × Rat)) (hrem : rem = [] ∨ rem = table) (fuel : Nat) :
      dropUnary c chosen (fuel + 1) ⟨v, rem⟩ = .ok ⟨v, if v.length < 2 then [] else table⟩ := by
    have hcarried : Carried c ⟨v, rem⟩ := hrem.imp id fun hrem => ⟨0, by rw [hrem]; exact hfresh⟩
    have hstrengths : strengths c (⟨v, rem⟩ : Formula Rat) = .ok table := by
      rcases hrem with rfl | rfl
      · exact htab.strengths
      · cases rem with
        | nil => exact hfresh
        | cons e rest => rfl
    obtain ⟨o, ho, hroot⟩ := components_root hc hcarried h
    have hchosen : ∀ k ∈ o, k.connective.kind ∉ chosen := by
      intro k hk
      exact hstop k.connective (by rw [← hroot, Option.mem_def.1 hk]; rfl)
    have hafter : afterComponents c (⟨v, rem⟩ : Formula Rat) = ⟨v, table⟩ := by
      have hreduced : ∃ g, reduceBrackets (⟨v, rem⟩ : Formula Rat) = .ok g := by
        obtain ⟨g, hg, -⟩ := reduceBrackets_bare (f := (⟨v, rem⟩ : Formula Rat)) h.hasSymbol h.balanced
        exact ⟨g, hg⟩
      obtain ⟨g, hg⟩ := hreduced
      simp only [afterComponents, hg, remember, hstrengths]
    rw [dropUnary_stop ho hchosen, hafter]
    exact reduceBrackets_keeps (f := ⟨v, table⟩) h.hasSymbol h.balanced h.not_enclosed (keys_strengthsFrom hfresh).2
  refine ⟨⟨v, if v.length < 2 then [] else table⟩, rfl, fun fuel => ⟨hremoval [] (.inl rfl) fuel, hremoval _ ?_ fuel⟩⟩
  split
  · exact .inl rfl
  · exact .inr rfl

/-! ## Walking down the tree -/

/-- **Removing leading operators** from a spelling takes no more steps than there are tokens. -/
theorem dropUnary_spelling (hc : c.Regular) {chosen : List String} (hchosen : ∀ k ∈ chosen, k ∈ c.unary)
    {t : SyntaxTree} {w : List Token} (h : Spelling c t false w) (fuel : Nat) (hf : w.length ≤ fuel + 1) :
    ∃ g : Formula Rat, dropUnary c chosen (fuel + 1) ⟨w, []⟩ = .ok g ∧ Spelling c (t.withoutLeading chosen)
    false g.tokens ∧ ∀ m, dropUnary c chosen (m + 1) g = .ok g := by
  -- the argument of an operator comes back without its enclosing pairs, so the induction is over all spellings
  induction t generalizing w fuel with
  | atom a =>
    obtain ⟨g, hg, hdrop⟩ := dropUnary_settled hc h chosen (by simp [SyntaxTree.root?])
    exact ⟨g, (hdrop fuel).1, hg ▸ h, fun m => (hdrop m).2⟩
  | unary op x ih =>
    by_cases hop : op.kind ∈ chosen
    · cases h with
      | unary hu hx hfit =>
        obtain ⟨v, hcomp, hv, n, rfl⟩ := components_unary hc hu hx hfit
        have hlength := length_le_wrap n v
        have hpos := List.length_pos_iff.2 hv.ne_nil
        rw [List.length_cons] at hf
        obtain ⟨m, rfl⟩ : ∃ m, fuel = m + 1 := ⟨fuel - 1, by omega⟩
        obtain ⟨g, hg, hspell, hagain⟩ := ih hv m (by omega)
        refine ⟨g, ?_, by simpa [SyntaxTree.withoutLeading, hop] using hspell, hagain⟩
        rw [dropUnary, hcomp]
        simpa [hop] using hg
    · obtain ⟨g, hg, hdrop⟩ := dropUnary_settled hc h chosen (by simpa [SyntaxTree.root?] using hop)
      exact ⟨g, (hdrop fuel).1, by simpa [SyntaxTree.withoutLeading, hop, hg] using h, fun m => (hdrop m).2⟩
  | binary op l r _ _ =>
    have hop : op.kind ∉ chosen := by
      cases h with
      | binary hb _ _ _ _ => exact fun hmem => hb.2.1 (hchosen _ hmem)
    obtain ⟨g, hg, hdrop⟩ := dropUnary_settled hc h chosen (by simpa [SyntaxTree.root?] using hop)
    exact ⟨g, (hdrop fuel).1, hg ▸ h, fun m => (hdrop m).2⟩

/-- the operators that are removed: the chosen ones, or all unary operators of the language when none is chosen -/
def selection (c : Connectives) (chosen : List String) : List String := if chosen.isEmpty then c.unary else chosen

theorem selection_unary {chosen : List String} (h : ∀ k ∈ chosen, k ∈ c.unary) :
    ∀ k ∈ selection c chosen, k ∈ c.unary := by
  unfold selection
  split
  · exact fun k hk => hk
  · exact h

/-- **Removing leading operators.** From a spelling without an enclosing pair, however many operators are in front and
however many brackets between them, exactly the operators at the root are removed, down to the first that is not chosen:
what comes back is a spelling, again without an enclosing pair, of the tree that is left, and removing from it once more
gives it back as it is. -/
theorem removeMainUnary_spells (hc : c.Regular) {chosen : List String} (hchosen : ∀ k ∈ chosen, k ∈ c.unary)
    {t : SyntaxTree} {w : List Token} (h : Spells c t w) (he : ¬ Enclosed w) :
    ∃ g : Formula Rat, removeMainUnary c chosen ⟨w, []⟩ = .ok g ∧
    Spells c (t.withoutLeading (selection c chosen)) g.tokens ∧
      ¬ Enclosed g.tokens ∧ removeMainUnary c chosen g = .ok g := by
  obtain ⟨g, hg, hspell, hagain⟩ := dropUnary_spelling hc (selection_unary hchosen) (h.bare he)
    (w.length + 1) (by omega)
  exact ⟨g, hg, ⟨false, hspell⟩, hspell.not_enclosed, hagain _⟩

/-- of `neg neg ((unary (p or q)))` the two negations are removed, and `unary` is not among the chosen operators -/
theorem removeMainUnary_spells_negations :
    let neg : Token := ⟨"neg", "neg", false⟩
    let unary : Token := ⟨"unary", "unary", false⟩
    let or : Token := ⟨"or", "or", false⟩
    let p : Token := ⟨"sentvar", "p", false⟩
    let q : Token := ⟨"sentvar", "q", false⟩
    let w := neg :: neg :: wrap 2 (unary :: wrap 1 [p, or, q])
    ∃ g : Formula Rat, removeMainUnary .sample ["neg"] ⟨w, []⟩ = .ok g ∧
      Spells .sample (.unary unary (.binary or (.atom p) (.atom q))) g.tokens ∧ ¬ Enclosed g.tokens ∧
      removeMainUnary .sample ["neg"] g = .ok g := by
  intro neg unary or p q w
  have hdisj : Spelling .sample (.binary or (.atom p) (.atom q)) true (wrap 1 [p, or, q]) :=
    .bracketed (.binary (p := 2) ⟨⟨by decide, by decide⟩, by decide, by decide⟩ (.sample_variable "p")
      (.sample_variable "q") (.inr (by simp [SyntaxTree.precedence?])) (.inr (by simp [SyntaxTree.precedence?])))
  have hunary : Spelling .sample (.unary unary (.binary or (.atom p) (.atom q))) false (unary :: wrap 1 [p, or, q]) :=
    .unary (p := 3) ⟨⟨by decide, by decide⟩, by decide, by decide⟩ hdisj (.inl rfl)
  have hneg : Connectives.IsUnary .sample neg 3 := ⟨⟨by decide, by decide⟩, by decide, by decide⟩
  have hw : Spelling .sample (.unary neg (.unary neg (.unary unary (.binary or (.atom p) (.atom q))))) false w :=
    .unary hneg (.unary hneg hunary.bracketed.bracketed (.inl rfl))
    (.inr (by simp [SyntaxTree.precedence?, neg, Connectives.sample]))
  exact removeMainUnary_spells Connectives.regular_sample (by decide) ⟨false, hw⟩ hw.not_enclosed

end Formula

end TableauTutor
