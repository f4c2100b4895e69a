import TableauTutor.Proofs.Brackets

/-!
The normal form of a list of tokens with brackets in any arrangement: the fewest brackets that give every bracket a
partner are put at the ends of the list, and then every pair around the whole is taken off. Reducing brackets strips the
ends without asking which brackets are partners and repairs the damage by counting, so one reduction need not give the
normal form; two always do.

- `reduceBrackets_normalForm`: from the second reduction on the result is the normal form, for a
  balanced list from the first on.
-/

namespace TableauTutor

/-! ## Brackets put at the ends -/

/-- left brackets put in front of a list and right ones at its end -/
def padded (a b : Nat) (ts : List Token) : List Token :=
  List.replicate a Token.leftBracket ++ ts ++ List.replicate b Token.rightBracket

/-- brackets at the ends balance a list if there are enough of them in front and no bracket is left over -/
theorem balanced_padded_iff {a b : Nat} {ts : List Token} :
    Balanced (padded a b ts) ↔
      (residue ts).unopened ≤ a ∧ a + (residue ts).unclosed = b + (residue ts).unopened := by
  simp only [Balanced, padded, residue_append, residue_replicate_left, residue_replicate_right, Residue.join,
    Residue.mk.injEq]
  omega

/-- brackets at the ends that balance a list, no fewer of which do -/
structure Fewest (a b : Nat) (ts : List Token) : Prop where
  balanced : Balanced (padded a b ts)
  least : ∀ a' b', Balanced (padded a' b' ts) → a ≤ a' ∧ b ≤ b'

theorem fewest_residue (ts : List Token) : Fewest (residue ts).unopened (residue ts).unclosed ts := by
  refine ⟨balanced_padded_iff.2 ⟨Nat.le_refl _, Nat.add_comm _ _⟩, fun a b h => ?_⟩
  obtain ⟨hfront, hsum⟩ := balanced_padded_iff.1 h
  omega

theorem Fewest.unique {a b a' b' : Nat} {ts : List Token} (h : Fewest a b ts) (h' : Fewest a' b' ts) :
    a = a' ∧ b = b' := by
  obtain ⟨h1, h2⟩ := h.least a' b' h'.balanced
  obtain ⟨h3, h4⟩ := h'.least a b h.balanced
  omega

/-! ## Normal forms -/

/-- the normal form of a list: with the fewest brackets that balance it put at its ends, it is what stands inside all
the pairs around the whole -/
structure NormalForm (ts us : List Token) : Prop where
  balanced : Balanced us
  bare : ¬ Enclosed us
  inside : ∃ a b k, Fewest a b ts ∧ padded a b ts = wrap k us

theorem NormalForm.unique {ts us vs : List Token} (hu : NormalForm ts us) (hv : NormalForm ts vs) : us = vs := by
  obtain ⟨a, b, k, hab, hk⟩ := hu.inside
  obtain ⟨a', b', k', hab', hk'⟩ := hv.inside
  obtain ⟨rfl, rfl⟩ := hab.unique hab'
  exact wrap_eq_wrap hu.balanced hu.bare hv.balanced hv.bare (hk.symm.trans hk')

theorem NormalForm.of_complete {ts us : List Token} (hb : Balanced us) (he : ¬ Enclosed us) {k : Nat}
    (h : complete ts = wrap k us) : NormalForm ts us :=
  ⟨hb, he, _, _, k, fewest_residue ts, h⟩

/-! ## Reducing again and again -/

namespace Formula

variable {σ : Type}

/-- brackets reduced n times over -/
def reduceTimes : Nat → Formula σ → Except FormulaError (Formula σ)
  | 0, f => .ok f
  | n + 1, f => f.reduceBrackets.bind (reduceTimes n)

theorem reduceTimes_succ {f g : Formula σ} (h : f.reduceBrackets = .ok g) (n : Nat) :
    f.reduceTimes (n + 1) = g.reduceTimes n := by
  rw [reduceTimes, h]
  rfl

theorem reduceTimes_bare {f : Formula σ} (h : HasSymbol f.tokens) (hb : Balanced f.tokens)
    (he : ¬ Enclosed f.tokens) (n : Nat) : ∃ g, f.reduceTimes n = .ok g ∧ g.tokens = f.tokens := by
  induction n generalizing f with
  | zero => exact ⟨f, rfl, rfl⟩
  | succ n ih =>
    obtain ⟨g, hg, hgb, hge, ⟨k, hk⟩, -⟩ := reduceBrackets_bare h hb
    have htokens : g.tokens = f.tokens := wrap_eq_wrap (n := 0) hgb hge hb he (by simpa using hk.symm)
    obtain ⟨r, hr, hrt⟩ := ih (f := g) (htokens ▸ h) (htokens ▸ hb) (htokens ▸ he)
    exact ⟨r, (reduceTimes_succ hg n).trans hr, hrt.trans htokens⟩

/-- **Two reductions**: the first balances the list, the second takes off what encloses it. -/
theorem exists_reduceTimes {f : Formula σ} (h : HasSymbol f.tokens) :
    ∃ us, NormalForm f.tokens us ∧ ∀ n, ∃ g, f.reduceTimes (n + 2) = .ok g ∧ g.tokens = us := by
  obtain ⟨once, honce, hbalanced, ⟨j, hj⟩, -⟩ := reduceBrackets_completes h
  have hsymbol : HasSymbol once.tokens := HasSymbol.of_wrap (n := j) (hj ▸ h.complete)
  obtain ⟨twice, htwice, hb, he, ⟨k, hk⟩, -⟩ := reduceBrackets_bare hsymbol hbalanced
  have hinside : complete f.tokens = wrap (j + k) twice.tokens := by rw [hj, hk, wrap_wrap]
  refine ⟨twice.tokens, .of_complete hb he hinside, fun n => ?_⟩
  rw [reduceTimes_succ honce, reduceTimes_succ htwice]
  exact reduceTimes_bare (HasSymbol.of_wrap (n := k) (hk ▸ hsymbol)) hb he n

/-- **A balanced list** is in normal form after one reduction. -/
theorem exists_reduceBrackets_normalForm {f : Formula σ} (h : HasSymbol f.tokens) (hb : Balanced f.tokens) :
    ∃ g, f.reduceBrackets = .ok g ∧ NormalForm f.tokens g.tokens := by
  obtain ⟨g, hg, hgb, hge, ⟨k, hk⟩, -⟩ := reduceBrackets_bare h hb
  exact ⟨g, hg, .of_complete hgb hge ((complete_of_balanced hb).trans hk)⟩

/-! ## Nothing but brackets -/

theorem stripPairs_eq_error {ts : List Token} {e : FormulaError} :
    stripPairs ts = .error e ↔ e = .onlyBrackets ∧ ∃ n, ts = wrap n [] := by
  fun_induction stripPairs ts with
  | case1 =>
    constructor
    · intro h
      exact ⟨(Except.error.inj h).symm, 0, (wrap_zero []).symm⟩
    · rintro ⟨rfl, -⟩
      rfl
  | case2 t ts hf ih =>
    have hts := flanked_inner hf.1 hf.2
    have hinner : (∃ n, t :: ts = wrap n []) ↔ ∃ n, ts.dropLast = wrap n [] := by
      constructor
      · rintro ⟨_ | n, hn⟩
        · simp at hn
        · rw [hts, wrap_succ] at hn
          exact ⟨n, List.append_cancel_right (List.cons.inj hn).2⟩
      · rintro ⟨n, hn⟩
        exact ⟨n + 1, by rw [hts, hn, wrap_succ]⟩
    rw [hinner, ← ih]
    cases stripPairs ts.dropLast <;> simp [pure_ok]
  | case3 t ts hf =>
    refine iff_of_false (by simp) ?_
    rintro ⟨-, _ | n, hn⟩
    · simp at hn
    · rw [wrap_succ, List.cons_append] at hn
      obtain ⟨rfl, rfl⟩ := List.cons.inj hn
      exact hf ⟨rfl, by rw [← List.cons_append, List.getLast?_concat]⟩

/-- **Reducing fails** on left brackets followed by as many right ones, and on nothing else. -/
theorem reduceBrackets_eq_error {f : Formula σ} {e : FormulaError} :
    f.reduceBrackets = .error e ↔ e = .onlyBrackets ∧ ∃ n, f.tokens = wrap (n + 1) [] := by
  have hlength (n : Nat) : (wrap n []).length = n + n := by simp [wrap]
  unfold reduceBrackets
  split
  · rename_i hshort
    refine iff_of_false (by simp) ?_
    rintro ⟨-, n, hn⟩
    rw [hn, hlength] at hshort
    omega
  · rename_i hshort
    have hpairs : (∃ n, f.tokens = wrap (n + 1) []) ↔ ∃ n, f.tokens = wrap n [] := by
      constructor
      · rintro ⟨n, hn⟩
        exact ⟨n + 1, hn⟩
      · rintro ⟨_ | n, hn⟩
        · rw [hn, hlength] at hshort
          omega
        · exact ⟨n, hn⟩
    rw [hpairs, ← stripPairs_eq_error]
    cases stripPairs f.tokens <;> simp [pure_ok]

/-- **Bracket normal form.** Whatever the arrangement of brackets: reducing fails only on left brackets followed by as
many right ones. Where a token is no bracket, there is one normal form, all reductions from the second on give it, and
of a balanced list the first one does. -/
theorem reduceBrackets_normalForm (f : Formula σ) :
    (∀ e, f.reduceBrackets = .error e ↔ e = .onlyBrackets ∧
      ∃ n, f.tokens = List.replicate (n + 1) Token.leftBracket ++ List.replicate (n + 1) Token.rightBracket) ∧
    (HasSymbol f.tokens → ∃ us, NormalForm f.tokens us ∧ (∀ vs, NormalForm f.tokens vs → vs = us) ∧
      (∀ n, 2 ≤ n → ∃ g, f.reduceTimes n = .ok g ∧ g.tokens = us) ∧
      (Balanced f.tokens → ∃ g, f.reduceBrackets = .ok g ∧ g.tokens = us)) := by
  constructor
  · intro e
    simpa [wrap] using reduceBrackets_eq_error (f := f) (e := e)
  · intro h
    obtain ⟨us, hnormal, htimes⟩ := exists_reduceTimes h
    refine ⟨us, hnormal, fun vs hvs => hvs.unique hnormal, fun n hn => ?_, fun hb => ?_⟩
    · obtain ⟨m, rfl⟩ := Nat.exists_eq_add_of_le' hn
      exact htimes m
    · obtain ⟨g, hg, hgn⟩ := exists_reduceBrackets_normalForm h hb
      exact ⟨g, hg, hgn.unique hnormal⟩

/-- `p)` has the normal form `p`, which takes two reductions; one reduction leaves `(p)` -/
theorem reduceBrackets_normalForm_unopened :
    let p : Token := ⟨"sentvar", "p", false⟩
    let f : Formula Rat := ⟨[p, .rightBracket], []⟩
    HasSymbol f.tokens ∧ f.reduceBrackets.map (·.tokens) = .ok [.leftBracket, p, .rightBracket] ∧
      ∃ g, f.reduceTimes 2 = .ok g ∧ NormalForm f.tokens g.tokens ∧ g.tokens = [p] := by
  intro p f
  have hsymbol : HasSymbol f.tokens := ⟨p, List.mem_cons_self, by decide, by decide⟩
  have honce : f.reduceBrackets.map (·.tokens) = .ok [.leftBracket, p, .rightBracket] := by
    simp [f, p, reduceBrackets, stripPairs, countBrackets, BracketCount.step, Token.leftBracket, Token.rightBracket,
      Token.literal, Except.map, pure_ok]
  obtain ⟨us, hnormal, hunique, htimes, -⟩ := (reduceBrackets_normalForm f).2 hsymbol
  obtain ⟨g, hg, rfl⟩ := htimes 2 (Nat.le_refl 2)
  have hp : NormalForm f.tokens [p] := by
    refine .of_complete (k := 1) (show residue [p] = _ by decide) ?_ (by decide)
    rintro ⟨inner, hin, -⟩
    simp at hin
  exact ⟨hsymbol, honce, g, hg, hnormal, (hunique [p] hp).symm⟩

end Formula

end TableauTutor
