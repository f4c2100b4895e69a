import TableauTutor.Proofs.Growth
import TableauTutor.Proofs.LeadingOperators

/-!
Formulas with brackets around the whole. The main connective is found in the formula as it stands, and
the formula is taken apart where the enclosing brackets are gone: with n pairs around it, it is taken
apart n positions behind its root.

- `Formula.components_wrap_iff`: the parts are those of the formula without the brackets only where there are no such
  brackets or the formula is an atom.
-/

namespace TableauTutor

/-- the tokens other than brackets -/
def symbols (ts : List Token) : List Token := ts.filter fun t => t ≠ Token.leftBracket ∧ t ≠ Token.rightBracket

@[simp] theorem symbols_append (u v : List Token) : symbols (u ++ v) = symbols u ++ symbols v := List.filter_append ..

@[simp] theorem symbols_replicate_left (n : Nat) : symbols (List.replicate n Token.leftBracket) = [] := by
  simp [symbols]

@[simp] theorem symbols_replicate_right (n : Nat) : symbols (List.replicate n Token.rightBracket) = [] := by
  simp [symbols]

theorem symbols_cons {t : Token} (h : Connectives.IsSymbol t) (ts : List Token) :
    symbols (t :: ts) = t :: symbols ts := by
  simp [symbols, isSymbol_not_bracket h]

namespace Formula

variable {σ : Type} {c : Connectives}

/-! ## Brackets come and go, symbols stay -/

theorem symbols_reduceBrackets {f g : Formula σ} (h : f.reduceBrackets = .ok g) :
    symbols g.tokens = symbols f.tokens := by
  unfold reduceBrackets at h
  split at h
  · cases h
    rfl
  · obtain ⟨⟨n, core⟩, hstrip, h⟩ := of_bind_eq_ok h
    cases h
    rw [stripPairs_eq_ok hstrip]
    simp [wrap]

theorem symbols_part {ts : List Token} {rem : List (Int × σ)} {o : Option (Formula σ)} (h : part ts rem = .ok o) :
    o.elim [] (fun f => symbols f.tokens) = symbols ts := by
  unfold part at h
  split at h
  · next hempty =>
    cases h
    rw [List.isEmpty_iff.1 hempty]
    rfl
  · obtain ⟨once, honce, h⟩ := of_bind_eq_ok h
    obtain ⟨twice, htwice, h⟩ := of_bind_eq_ok h
    cases h
    exact (symbols_reduceBrackets htwice).trans (symbols_reduceBrackets honce)

/-! ## Taking a formula apart at a position -/

/-- the token at a position with the parts on either side of it -/
def componentsAt (f : Formula σ) (i : Int) : Except FormulaError (Components σ) :=
  match pick? f.tokens i with
  | none => .error .noSuchPosition
  | some t => do
    let (left, right) ← f.split i
    return ⟨t, left, right⟩

theorem componentsAt_of_length_le {ts : List Token} {rem : List (Int × σ)} {k : Nat} (h : ts.length ≤ k) :
    componentsAt ⟨ts, rem⟩ k = .error .noSuchPosition := by
  simp [componentsAt, pick?_natCast, List.getElem?_eq_none h]

theorem symbols_left {u v : List Token} {t : Token} {k : Components Rat}
    (h : componentsAt ⟨u ++ t :: v, []⟩ u.length = .ok k) : k.left.elim [] (fun f => symbols f.tokens) = symbols u := by
  have hpick : pick? (u ++ t :: v) (u.length : Int) = some t := by simp [pick?_natCast]
  simp only [componentsAt, hpick, split_append] at h
  obtain ⟨⟨l, r⟩, hsplit, h⟩ := of_bind_eq_ok h
  obtain ⟨l', hl, hsplit⟩ := of_bind_eq_ok hsplit
  obtain ⟨r', -, hsplit⟩ := of_bind_eq_ok hsplit
  cases hsplit
  cases h
  exact symbols_part hl

/-- taking apart further to the right gives another left part: it has more symbols -/
theorem componentsAt_ne {u v : List Token} {op : Token} (hop : Connectives.IsSymbol op) (n : Nat) {k : Components Rat}
    (h : componentsAt ⟨u ++ op :: v, []⟩ u.length = .ok k) : componentsAt ⟨u ++ op :: v, []⟩
    (u.length + (n + 1 : Nat)) ≠ .ok k := by
  intro hfar
  rw [← Int.natCast_add] at hfar
  by_cases hinside : n < v.length
  · obtain ⟨v₁, t, v₂, rfl, rfl⟩ : ∃ v₁ t v₂, v = v₁ ++ t :: v₂ ∧ v₁.length = n :=
      ⟨v.take n, v[n], v.drop (n + 1), by simp, by simp; omega⟩
    have hmore := symbols_left (u := u ++ op :: v₁) (t := t) (v := v₂) (k := k) (by simpa [Nat.add_assoc] using hfar)
    have hlengths := congrArg List.length ((symbols_left h).symm.trans hmore)
    simp [symbols_cons hop] at hlengths
  · rw [componentsAt_of_length_le (by simp; omega)] at hfar
    cases hfar

/-! ## The root in enclosing brackets -/

/-- **The root of a tree** stands somewhere in its spelling, and in n pairs of brackets n positions further on. -/
theorem mainConnective_wrap (hc : c.Regular) {t : SyntaxTree} {w : List Token} (h : Spelling c t false w) :
    (t.root? = none ∧ ∀ n, mainConnective c (⟨wrap n w, []⟩ : Formula Rat) = .ok none) ∨
      ∃ u op v, t.root? = some op ∧ w = u ++ op :: v ∧ Connectives.IsSymbol op ∧
        ∀ n : Nat, mainConnective c (⟨wrap n w, []⟩ : Formula Rat) = .ok (some (u.length + n)) := by
  cases h with
  | atom ha => exact .inl ⟨rfl, mainConnective_wrap_atom ha⟩
  | @unary op p x b w hop hx hfit =>
    refine .inr ⟨[], op, w, rfl, rfl, hop.1, fun n => ?_⟩
    simpa using mainConnective_wrap_unary hc hop hx hfit n
  | @binary op p l r bl br wl wr hop hl hr hfl hfr =>
    refine .inr ⟨wl, op, wr, rfl, rfl, hop.1, fun n => ?_⟩
    rw [Int.add_comm]
    exact mainConnective_wrap_binary hc hop hl hr hfl hfr n

/-- **With n pairs around it**, a formula is taken apart n positions behind its main connective. -/
theorem components_wrap {t : SyntaxTree} {w : List Token} (h : Spelling c t false w) {n : Nat} {m : Option Int}
    (hm : mainConnective c (⟨wrap n w, []⟩ : Formula Rat) = .ok m) :
    components c (⟨wrap n w, []⟩ : Formula Rat) = m.elim (.ok none) fun i => (componentsAt ⟨w, []⟩ i).map some := by
  simp only [components, reduceBrackets_wrap h.hasSymbol h.balanced h.not_enclosed, hm, ok_bind]
  cases m with
  | none => rfl
  | some i =>
    simp only [Option.elim, componentsAt]
    cases pick? w i with
    | none => rfl
    | some op =>
      cases split (⟨w, []⟩ : Formula Rat) i <;> rfl

/-- removal that stops at once takes away no token but the enclosing brackets -/
theorem dropUnary_wrap_stop {t : SyntaxTree} {w : List Token} (h : Spelling c t false w)
    {chosen : List String} {n : Nat}
    {o : Option (Components Rat)} (ho : components c (⟨wrap n w, []⟩ : Formula Rat) = .ok o)
    (hstop : ∀ k ∈ o, k.connective.kind ∉ chosen) (fuel : Nat) :
    (dropUnary c chosen (fuel + 1) (⟨wrap n w, []⟩ : Formula Rat)).map (·.tokens) = .ok w := by
  have hforget : (afterComponents c (⟨wrap n w, []⟩ : Formula Rat)).forget = ⟨wrap n w, []⟩ := by
    unfold afterComponents remember forget
    split
    · split <;> rfl
    · rfl
  have hreduced := reduceBrackets_forget (afterComponents c (⟨wrap n w, []⟩ : Formula Rat))
  rw [hforget, reduceBrackets_wrap h.hasSymbol h.balanced h.not_enclosed] at hreduced
  rw [dropUnary_stop ho hstop]
  obtain ⟨g, hg, htokens⟩ := of_map_eq_ok hreduced
  rw [hg]
  exact congrArg (fun f => Except.ok f.tokens) htokens

/-- a formula is taken apart, and leading operators are removed from it, as if its main connective stood at position i
of the tokens without the enclosing brackets -/
structure TakesApartAt (c : Connectives) (chosen : List String) (f : Formula Rat) (w : List Token) (i : Int) :
    Prop where
  parts : f.components c = (componentsAt ⟨w, []⟩ i).map some
  fails : ∀ e, componentsAt (⟨w, []⟩ : Formula Rat) i = .error e → f.removeMainUnary c chosen = .error e
  stops : ∀ k, componentsAt (⟨w, []⟩ : Formula Rat) i = .ok k → k.connective.kind ∉ selection c chosen →
    (f.removeMainUnary c chosen).map (·.tokens) = .ok w
  goesOn : ∀ k, componentsAt (⟨w, []⟩ : Formula Rat) i = .ok k → k.connective.kind ∈ selection c chosen →
    f.removeMainUnary c chosen = k.right.elim (.error .unaryWithoutArgument)
      (dropUnary c (selection c chosen) (f.tokens.length + f.remembered.length + 1))

theorem takesApartAt_wrap (chosen : List String) {t : SyntaxTree} {w : List Token} (h : Spelling c t false w)
    {n : Nat} {i : Int}
    (hm : mainConnective c (⟨wrap n w, []⟩ : Formula Rat) = .ok (some i)) :
    TakesApartAt c chosen ⟨wrap n w, []⟩ w i := by
  have hparts : components c (⟨wrap n w, []⟩ : Formula Rat) = (componentsAt ⟨w, []⟩ i).map some := components_wrap h hm
  have hremoval : removeMainUnary c chosen (⟨wrap n w, []⟩ : Formula Rat) =
      dropUnary c (selection c chosen) ((wrap n w).length + 1 + 1) ⟨wrap n w, []⟩ := rfl
  refine ⟨hparts, fun e he => ?_, fun k hk hkind => ?_, fun k hk hkind => ?_⟩
  · rw [hremoval, dropUnary, hparts, he]
    rfl
  · rw [hremoval]
    exact dropUnary_wrap_stop h (by rw [hparts, hk]; rfl) (by simpa using hkind) _
  · rw [hremoval, dropUnary, hparts, hk]
    cases hright : k.right <;> simp [Except.map, hkind, hright, throw, throwThe, MonadExceptOf.throw]

/-- the same parts come out only where no brackets are in the way -/
theorem components_wrap_same {w u v : List Token} {op : Token} (hw : w = u ++ op :: v) (hop : Connectives.IsSymbol op)
    (h : ∀ n : Nat, components c (⟨wrap n w, []⟩ : Formula Rat) = (componentsAt ⟨w, []⟩ (u.length + n)).map some)
    {n : Nat}
    {r : Option (Components Rat)} (hn : components c (⟨wrap n w, []⟩ : Formula Rat) = .ok r)
    (h0 : components c (⟨w, []⟩ : Formula Rat) = .ok r) : n = 0 := by
  cases n with
  | zero => rfl
  | succ n =>
    rw [h] at hn
    have hbare := h 0
    rw [wrap_zero, h0] at hbare
    obtain ⟨k, hk, rfl⟩ := of_map_eq_ok hn
    obtain ⟨k', hk', hsame⟩ := of_map_eq_ok hbare.symm
    obtain rfl := Option.some.inj hsame
    subst hw
    exact absurd hk (componentsAt_ne hop n (by simpa using hk'))

/-- **Enclosing brackets move the place at which a formula is taken apart.** The parts of a spelling in n further pairs
are the same as without them exactly where there are none or the tree is an atom, and there removal leaves the same
tokens too. Any other formula is taken apart n positions behind its main connective, and removal works on what is found
there; enough pairs lead behind the end. -/
theorem components_wrap_iff (hc : c.Regular) {chosen : List String} (hchosen : ∀ k ∈ chosen, k ∈ c.unary)
    {t : SyntaxTree} {w : List Token} (h : Spells c t w) (he : ¬ Enclosed w) :
    (∀ n, (∃ r, components c (⟨wrap n w, []⟩ : Formula Rat) = .ok r ∧ components c (⟨w, []⟩ : Formula Rat) = .ok r) ↔
      n = 0 ∨ t.root? = none) ∧
    (∀ n, n = 0 ∨ t.root? = none → ∃ v, (removeMainUnary c chosen (⟨wrap n w, []⟩ : Formula Rat)).map
      (·.tokens) = .ok v ∧ (removeMainUnary c chosen (⟨w, []⟩ : Formula Rat)).map (·.tokens) = .ok v) ∧
    ∀ i, mainConnective c (⟨w, []⟩ : Formula Rat) = .ok (some i) → ∀ n : Nat,
      TakesApartAt c chosen ⟨wrap n w, []⟩ w (i + n) ∧
      (w.length ≤ i + n → componentsAt (⟨w, []⟩ : Formula Rat) (i + n) = .error .noSuchPosition) := by
  have hw := h.bare he
  rcases mainConnective_wrap hc hw with ⟨hroot, hmain⟩ | ⟨u, op, v, hroot, hsplit, hop, hmain⟩
  · have hcomponents (n : Nat) : components c (⟨wrap n w, []⟩ : Formula Rat) = .ok none := components_wrap hw (hmain n)
    have hremoval (n : Nat) : (removeMainUnary c chosen (⟨wrap n w, []⟩ : Formula Rat)).map (·.tokens) = .ok w :=
      dropUnary_wrap_stop hw (hcomponents n) (by simp) _
    refine ⟨fun n => ⟨fun _ => .inr hroot, fun _ => ⟨none, hcomponents n, by simpa using hcomponents 0⟩⟩,
      fun n _ => ⟨w, hremoval n, by simpa using hremoval 0⟩, fun i hi => ?_⟩
    have hnone := hmain 0
    simp [wrap_zero, hi] at hnone
  · have hapart (n : Nat) : TakesApartAt c chosen ⟨wrap n w, []⟩ w (u.length + n) :=
      takesApartAt_wrap chosen hw (hmain n)
    have hsame {n : Nat} {r : Option (Components Rat)} := components_wrap_same (n := n) (r := r) hsplit hop fun n =>
      (hapart n).parts
    refine ⟨fun n => ⟨fun ⟨r, hn, h0⟩ => .inl (hsame hn h0), ?_⟩, ?_, ?_⟩
    · rintro (rfl | hnone)
      · obtain ⟨r, hr, -⟩ := components_root hc (f := ⟨w, []⟩) (.inl rfl) hw
        exact ⟨r, by simpa using hr, hr⟩
      · simp [hroot] at hnone
    · rintro n (rfl | hnone)
      · obtain ⟨g, hg, -⟩ := dropUnary_spelling hc (selection_unary hchosen) hw (w.length + 1) (by omega)
        have hremoval : removeMainUnary c chosen (⟨w, []⟩ : Formula Rat) = .ok g := hg
        exact ⟨g.tokens, by rw [wrap_zero, hremoval]; rfl, by rw [hremoval]; rfl⟩
      · simp [hroot] at hnone
    · intro i hi n
      obtain rfl : (u.length : Int) = i := by
        have hplace := hmain 0
        simpa [wrap_zero, hi, eq_comm] using hplace
      refine ⟨hapart n, fun hlong => ?_⟩
      rw [← Int.natCast_add]
      exact componentsAt_of_length_le (by omega)

/-- of `(p and q)` the parts `p and` and nothing are found on either side of `q`, and of `((p and q))` none at all -/
theorem components_wrap_iff_conjunction :
    let and : Token := ⟨"and", "and", false⟩
    let p : Token := ⟨"sentvar", "p", false⟩
    let q : Token := ⟨"sentvar", "q", false⟩
    let w := [p, and, q]
    components .sample (⟨wrap 1 w, []⟩ : Formula Rat) = .ok (some ⟨q, some ⟨[p, and], []⟩, none⟩) ∧
      components .sample (⟨wrap 2 w, []⟩ : Formula Rat) = .error .noSuchPosition ∧
      ¬ ∃ r, components .sample (⟨wrap 1 w, []⟩ : Formula Rat) = .ok r ∧
      components .sample (⟨w, []⟩ : Formula Rat) = .ok r := by
  intro and p q w
  have hand : Connectives.IsBinary .sample and 2 := ⟨⟨by decide, by decide⟩, by decide, by decide⟩
  have hp := Or.inr (a := false = true) (b := ∀ r ∈ (SyntaxTree.atom p).precedence? .sample, 2 ≤ r)
    (by simp [SyntaxTree.precedence?])
  have hq := Or.inr (a := false = true) (b := ∀ r ∈ (SyntaxTree.atom q).precedence? .sample, 2 < r)
    (by simp [SyntaxTree.precedence?])
  have hw : Spelling .sample (.binary and (.atom p) (.atom q)) false w := .binary hand (.sample_variable "p")
    (.sample_variable "q") hp hq
  have hmain := mainConnective_binary Connectives.regular_sample hand (.sample_variable "p")
    (.sample_variable "q") hp hq
  have hnone : ∀ k ∈ ([] : List String), k ∈ Connectives.sample.unary := by simp
  obtain ⟨hsame, -, hshift⟩ := components_wrap_iff Connectives.regular_sample hnone ⟨false, hw⟩ hw.not_enclosed
  obtain ⟨hone, -⟩ := hshift _ hmain 1
  obtain ⟨htwo, hbehind⟩ := hshift _ hmain 2
  refine ⟨hone.parts.trans ?_, by rw [htwo.parts, hbehind (by decide)]; rfl, ?_⟩
  · simp [componentsAt, w, p, q, and, pick?, resolve?, split, splitAtKey, part, TableauTutor.cut, clamp,
      reduceBrackets, stripPairs,
      countBrackets, BracketCount.step, Token.leftBracket, Token.rightBracket, Token.literal, mapKeys, tableOf,
      Except.map, pure_ok]
  · rw [hsame]
    simp [SyntaxTree.root?]

end Formula

end TableauTutor
