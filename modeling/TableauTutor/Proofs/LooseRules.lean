import TableauTutor.Calculus.Use
import TableauTutor.Proofs.Cutting
import TableauTutor.Proofs.Growth
import TableauTutor.Proofs.StrictRules

/-!
Rules used at a symbol that a person chose. Such a rule need not be sound: it cuts a formula where it should not. What
it makes follows loosely from the sentence it is used on, with the parts of a cut in the place of the sides.

- `Calculus.useRule_follows`: what using a rule adds to a branch follows loosely from the sentence that it is used on.
- `Calculus.useRule_of_finished`: where nothing is left to be done, no rule can be used.
- `Method.Loose.exists_branch`: a loose rule that makes only what the strict one makes preserves truth.
-/

namespace TableauTutor

/-! ## Rules at a chosen symbol -/

theorem Symbol.IsLetter.startsWith_sentvar {y : Symbol} (h : y.IsLetter) :
    Text.startsWith "sentvar" y = decide (y.kind = "sentvar") := by
  obtain ⟨k, hk, l, rfl⟩ := h
  rw [kind_of (underscore_notMem hk), startsWith_of]
  rcases letterKinds_cases hk with rfl | rfl | rfl | rfl | rfl <;> simp [List.isPrefixOf]

theorem Decomposition.checkToken_binary {s : Sentence} (hs : s.InLanguage) {j : Int} (h : checkToken s j = .ok ()) :
    ∃ y, 0 ≤ j ∧ s[j.toNat]? = some y ∧ Mark.ofSymbol? y = some .binary := by
  unfold checkToken at h
  split at h
  · cases h
  · rename_i hj
    split at h
    · cases h
    · rename_i y hy
      refine ⟨y, by omega, hy, ?_⟩
      obtain ⟨hvar, hnot, hbracket⟩ : Text.startsWith "sentvar" y = false ∧ Text.startsWith "not" y = false ∧
          Text.contains y "()" = false := by
        revert h
        cases Text.startsWith "sentvar" y <;> cases Text.startsWith "not" y <;> cases Text.contains y "()" <;>
          simp [throw, throwThe, MonadExceptOf.throw]
      rcases hs y (List.mem_of_getElem? hy) with rfl | rfl | hl
      · exact absurd hbracket (by decide)
      · exact absurd hbracket (by decide)
      · rw [hl.startsWith_sentvar, decide_eq_false_iff_not] at hvar
        rw [hl.startsWith_not.1, decide_eq_false_iff_not] at hnot
        rw [Sentence.mark_letter hl, if_neg hvar, if_neg hnot]

theorem Sentence.getElem?_wrapped {t : Sentence} {n k : Nat} {y : Symbol} (hy : y.IsLetter)
    (h : (t.wrapped n)[k]? = some y) : n ≤ k ∧ t[k - n]? = some y := by
  rw [wrapped, List.append_assoc, List.getElem?_append, List.length_replicate] at h
  split at h
  · exact absurd (List.eq_of_mem_replicate (List.mem_of_getElem? h)) hy.not_bracket.1
  · refine ⟨by omega, ?_⟩
    rw [List.getElem?_append] at h
    split at h
    · exact h
    · exact absurd (List.eq_of_mem_replicate (List.mem_of_getElem? h)) hy.not_bracket.2

/-- the sentence without the negation in front: the sentence itself, or what stands in brackets behind the negation -/
theorem Decomposition.core_eq {d : Decomposition} {s t : Sentence} {a : Proposition} (h : s.Reads a)
    (hcore : d.core s = .ok (some t)) :
    ∃ b, t.Reads b ∧ a = b.side d.whole ∧ (d.whole = true ∧ s = t ∨
      d.whole = false ∧ ∃ (y : Symbol) (n : Nat), y.IsLetter ∧ y.kind = "not" ∧ s = y :: t.wrapped n) := by
  obtain ⟨r, hr, hrel⟩ := d.core_reads h
  obtain rfl : r = some t := Except.ok.inj (hr.symm.trans hcore)
  cases hw : d.whole with
  | true =>
    simp only [core, hw, if_true, pure_ok, Except.ok.injEq, Option.some.injEq] at hcore
    obtain rfl := hcore
    exact ⟨a, h, rfl, .inl ⟨rfl, rfl⟩⟩
  | false =>
    rw [hw] at hrel
    cases a with
    | var x => cases hrel
    | join o a b => cases hrel
    | neg a =>
      obtain ⟨y, n, t', hs, hy, hk, ht', -, hparts⟩ := h.neg_eq
      obtain rfl : t = t' := by
        have hlen := h.one_lt_length (by simp)
        simpa [core, hw, Sentence.withoutPrefix, Sentence.argument, hlen, hparts, hy.startsWith_not.1, hk, ht'.reduce,
          ht'.evenBrackets, bind, Except.bind, pure, Except.pure, eq_comm] using hcore
      exact ⟨a, ht', rfl, .inr ⟨rfl, y, n, hy, hk, hs⟩⟩

theorem Sentence.fdiv_wrapped (y : Symbol) (t : Sentence) (n : Nat) :
    (((y :: t.wrapped n).length + 1 : Int) - t.length).fdiv 2 = n + 1 := by
  simp only [List.length_cons, Sentence.wrapped, List.length_append, List.length_replicate]
  rw [Int.fdiv_eq_ediv_of_nonneg _ (by omega)]
  omega

theorem Sentence.fdiv_self (t : Sentence) : ((t.length + 1 : Int) - t.length).fdiv 2 = 0 := by
  rw [Int.fdiv_eq_ediv_of_nonneg _ (by omega)]
  omega

/-- the place of a connective in a sentence is its place in the sentence without the negation in front, once the
negation and the brackets behind it are passed over -/
theorem Decomposition.core_at {d : Decomposition} {s t : Sentence} {a : Proposition} (h : s.Reads a)
    (hcore : d.core s = .ok (some t)) :
    ∃ b, t.Reads b ∧ a = b.side d.whole ∧ ∀ (j : Nat) (y : Symbol), s[j]? = some y → Mark.ofSymbol? y = some .binary →
      ∃ k : Nat, t[k]? = some y ∧ (j : Int) - ((s.length + 1 : Int) - t.length).fdiv 2 = k := by
  obtain ⟨b, ht, ha, ⟨-, rfl⟩ | ⟨-, y₀, n, hy₀, hk, rfl⟩⟩ := core_eq h hcore
  · exact ⟨b, ht, ha, fun j y hy _ => ⟨j, hy, by rw [Sentence.fdiv_self, Int.sub_zero]⟩⟩
  · refine ⟨b, ht, ha, fun j y hj hy => ?_⟩
    rw [Sentence.fdiv_wrapped]
    cases j with
    | zero =>
      obtain rfl : y₀ = y := by simpa using hj
      simp [Sentence.mark_letter hy₀, hk] at hy
    | succ j =>
      rw [List.getElem?_cons_succ] at hj
      have hin : y.InLanguage := h.1.1 y (List.mem_cons_of_mem _ (List.mem_of_getElem? hj))
      obtain ⟨hle, hget⟩ := Sentence.getElem?_wrapped (Sentence.describes_of_mark hin hy).1 hj
      exact ⟨j - n, hget, by omega⟩

/-- what a rule that is used at a chosen symbol makes of a proposition: the branches of the strict rule, with the parts
of a cut in the place of the sides -/
def Method.Loose : Method → Proposition → List (List Proposition) → Prop
  | .doubleNegation, a, ps => ∃ b, a = .neg (.neg b) ∧ ps = [[b]]
  | .decomposition d, a, ps =>
    ∃ w b c : Proposition, a = w.side d.whole ∧ w.Cut b c ∧ ps = d.arrange (b.side d.first) (c.side d.second)

theorem Sentence.Reads.not_literal {s : Sentence} {a : Proposition} (h : s.Reads a) {y : Symbol} (hy : y ∈ s)
    (hmark : Mark.ofSymbol? y = some .binary) : a.isLiteral = false := by
  have hvar {t : Sentence} {x : Symbol} (ht : t.Reads (.var x)) : y ∉ t := by
    obtain ⟨rfl, hx, hk⟩ := ht.var_eq
    intro hmem
    obtain rfl := List.mem_singleton.1 hmem
    simp [mark_letter hx, hk] at hmark
  rcases a with x | (x | a | ⟨o, a, b⟩) | ⟨o, a, b⟩
  · exact absurd hy (hvar h)
  · obtain ⟨z, n, t, rfl, hz, hk, ht, -⟩ := h.neg_eq
    rcases List.mem_cons.1 hy with rfl | hmem
    · simp [mark_letter hz, hk] at hmark
    · have hletter := (describes_of_mark (h.1.1 y hy) hmark).1
      obtain ⟨k, hk⟩ := List.getElem?_of_mem hmem
      exact absurd (List.mem_of_getElem? (getElem?_wrapped hletter hk).2) (hvar ht)
  · rfl
  · rfl
  · rfl

theorem Decomposition.sentenceAt_eq_ok {branch : List Sentence} {i : Int} {s : Sentence}
    (h : sentenceAt branch i = .ok s) : branch[i.toNat]? = some s := by
  unfold sentenceAt at h
  split at h
  · cases h
  · split at h
    · rename_i hget
      rw [hget, Except.ok.inj h]
    · cases h

/-- **The cut at a chosen connective**, made in the sentence without the negation in front, gives two formulas. -/
theorem Decomposition.core_splitAt {d : Decomposition} {s t : Sentence} {a : Proposition} (h : s.Reads a)
    (hcore : d.core s = .ok (some t)) {j : Int} {y : Symbol} (hj : 0 ≤ j) (hy : s[j.toNat]? = some y)
    (hmark : Mark.ofSymbol? y = some .binary) :
    ∃ (l r : Sentence) (w b c : Proposition), t.splitAt (j - ((s.length + 1 : Int) - t.length).fdiv 2) =
    .ok (some l, some r) ∧ l.Reads b ∧ r.Reads c ∧ a = w.side d.whole ∧ w.Cut b c := by
  obtain ⟨w, hw, rfl, hplace⟩ := core_at h hcore
  obtain ⟨k, hk, hkj⟩ := hplace _ y hy hmark
  rw [Int.toNat_of_nonneg hj] at hkj
  obtain ⟨hlt, hyk⟩ := List.getElem?_eq_some_iff.1 hk
  obtain ⟨u, v, rfl, rfl⟩ : ∃ u v, t = u ++ y :: v ∧ u.length = k := by
    refine ⟨t.take k, t.drop (k + 1), ?_, by rw [List.length_take]; omega⟩
    rw [← hyk, ← List.drop_eq_getElem_cons hlt, List.take_append_drop]
  obtain ⟨l, r, b, c, hsplit, hl, hr, hcut⟩ := hw.splitAt_eq hmark
  exact ⟨l, r, w, b, c, hkj ▸ hsplit, hl, hr, rfl, hcut⟩

/-- a decomposition at a chosen symbol cuts what the sentence says, which is no literal -/
theorem Decomposition.naive_reads {d : Decomposition} {branch : List Sentence} (hbranch : ∀ s ∈ branch, ∃ a, s.Reads a)
    {i j : Int} {g : Calculus.Growth} (h : d.naive branch i j = .ok g) :
    ∃ s a bs ps, branch[i.toNat]? = some s ∧ s.Reads a ∧ g = bs.map (·.map some) ∧ BranchesRead bs ps ∧
      Method.Loose (.decomposition d) a ps ∧ a.isLiteral = false := by
  obtain ⟨s, hs, h⟩ := of_bind_eq_ok h
  obtain ⟨⟨⟩, htoken, h⟩ := of_bind_eq_ok h
  obtain ⟨t, hcore, h⟩ := of_bind_eq_ok h
  have hget := sentenceAt_eq_ok hs
  obtain ⟨a, ha⟩ := hbranch s (List.mem_of_getElem? hget)
  obtain ⟨y, hj, hy, hmark⟩ := checkToken_binary ha.1.1 htoken
  cases t with
  | none => cases h
  | some t =>
    obtain ⟨l, r, w, b, c, hsplit, hl, hr, rfl, hcut⟩ := core_splitAt ha hcore hj hy hmark
    simp only [hsplit, ok_bind, pure_ok, Except.ok.injEq, Option.map_some] at h
    refine ⟨s, _, d.arrange (side d.first l) (side d.second r), _, hget, ha, ?_, arrange_read (hl.side _) (hr.side _),
      ⟨w, b, c, rfl, hcut, rfl⟩, ha.not_literal (List.mem_of_getElem? hy) hmark⟩
    rw [← h]
    unfold arrange
    split <;> rfl

namespace Calculus

variable {c : Calculus} {x : Lexer} {branch : List Sentence}

theorem signGrowth_eq {bs ns : List (List Sentence)} (h : (bs.mapM fun b => b.mapM (signed.toNode x)) = .ok ns) :
    signGrowth x (bs.map (·.map some)) = .ok (some (ns.map (·.map some))) := by
  have hall : ((ns.map (·.map some)).any fun b => b.any (·.isNone)) = false := by simp
  have hsign : ∀ s n, signed.toNode x s = .ok n → (some <$> sign x s) = .ok (some n) := by
    intro s n hn
    rw [show sign x s = .ok n from hn]
    rfl
  have hbind {α β : Type} {r : Outcome α} {a : α} (f : α → Outcome β) (h : r = .ok a) : r >>= f = f a := by rw [h]; rfl
  rw [signGrowth]
  refine Eq.trans (hbind _ (mapM_map_eq_ok (j := List.map some) (fun b n hn => ?_) h)) ?_
  · refine mapM_map_eq_ok (j := some) (fun s n hn => ?_) hn
    exact hsign s n hn
  · simp [hall, pure_ok]

theorem signGrowth_means (hx : signed.HasLexer x) {bs : List (List Sentence)} {ps : List (List Proposition)}
    (h : BranchesRead bs ps) :
    ∃ ns, signGrowth x (bs.map (·.map some)) = .ok (some (ns.map (·.map some))) ∧ signed.BranchesMean ns ps := by
  obtain ⟨ns, hns, hmean⟩ := mapM_mapM_toNode hx h
  exact ⟨ns, signGrowth_eq hns, hmean⟩

theorem unsign_means (hx : signed.HasLexer x) (hbranch : ∀ s ∈ branch, ∃ a, signed.Means s a) {plain : List Sentence}
    (hplain : branch.mapM (unsign x) = .ok plain) {k : Nat} {t : Sentence} (ht : plain[k]? = some t) :
    ∃ s a, branch[k]? = some s ∧ signed.Means s a ∧ t.Reads a := by
  obtain ⟨s, hs, hst⟩ := getElem?_of_mapM hplain ht
  obtain ⟨a, ha⟩ := hbranch s (List.mem_of_getElem? hs)
  obtain ⟨t', ht', hread, -⟩ := toPlain_reads hx ha
  exact ⟨s, a, hs, ha, Except.ok.inj (ht'.symm.trans hst) ▸ hread⟩

theorem unsign_reads (hx : signed.HasLexer x) (hbranch : ∀ s ∈ branch, ∃ a, signed.Means s a) {plain : List Sentence}
    (hplain : branch.mapM (unsign x) = .ok plain) : ∀ t ∈ plain, ∃ a, t.Reads a := by
  intro t ht
  obtain ⟨k, hk⟩ := List.getElem?_of_mem ht
  obtain ⟨s, a, -, -, ha⟩ := unsign_means hx hbranch hplain hk
  exact ⟨a, ha⟩

/-- **A decomposition at a chosen symbol** of a node; it always yields something. -/
theorem decompose_means (hx : c.HasLexer x) {d : Decomposition} (hbranch : ∀ s ∈ branch, ∃ a, c.Means s a) {i j : Int}
    {r : Option Growth} (h : c.decompose x d branch i j = .ok r) :
    ∃ s a ns ps, branch[i.toNat]? = some s ∧ c.Means s a ∧ r = some (ns.map (·.map some)) ∧ c.BranchesMean ns ps ∧
      Method.Loose (.decomposition d) a ps ∧ a.isLiteral = false := by
  cases c with
  | unsigned =>
    obtain ⟨g, hnaive, rfl⟩ := of_map_eq_ok h
    obtain ⟨s, a, ns, ps, hs, ha, rfl, hns, hloose⟩ := Decomposition.naive_reads hbranch hnaive
    exact ⟨s, a, ns, ps, hs, ha, rfl, hns, hloose⟩
  | signed =>
    simp only [decompose] at h
    split at h
    · rename_i s hs
      obtain ⟨shift, -, h⟩ := of_bind_eq_ok h
      obtain ⟨plain, hplain, h⟩ := of_bind_eq_ok h
      obtain ⟨g', hg', h⟩ := of_bind_eq_ok h
      obtain ⟨t, a, bs, ps, ht, hta, rfl, hbs, hloose⟩ := Decomposition.naive_reads (unsign_reads hx hbranch hplain) hg'
      obtain ⟨ns, hns, hmean⟩ := signGrowth_means hx hbs
      obtain ⟨n, b, hn, hb, htb⟩ := unsign_means hx hbranch hplain ht
      obtain rfl := htb.unique hta
      rw [hns] at h
      exact ⟨n, b, ns, ps, hn, hb, (Except.ok.inj h).symm, hmean, hloose⟩
    · cases h

theorem pick?_eq_some {i : Int} (hi : 0 ≤ i) {s : Sentence} (h : pick? branch i = some s) :
    branch[i.toNat]? = some s := by
  rw [pick?, resolve?, if_pos hi] at h
  split at h
  · exact h
  · simp at h

/-- **A double negation** is removed from a node that has one. -/
theorem removeDoubleNegation_means (hx : c.HasLexer x) (hbranch : ∀ s ∈ branch, ∃ a, c.Means s a) {i : Int} (hi : 0 ≤ i)
    {g : Growth} (h : c.removeDoubleNegation x branch i = .ok g) :
    ∃ s a ns ps, branch[i.toNat]? = some s ∧ c.Means s a ∧ g = ns.map (·.map some) ∧ c.BranchesMean ns ps ∧
      Method.Loose .doubleNegation a ps := by
  simp only [removeDoubleNegation] at h
  split at h
  · rename_i s hs
    have hget := pick?_eq_some hi hs
    obtain ⟨a, ha⟩ := hbranch s (List.mem_of_getElem? hget)
    obtain ⟨p, hp, hread, -⟩ := toPlain_reads hx ha
    obtain ⟨r, hr, hrel⟩ := undouble_reads hread
    simp only [hp, hr, bind, Except.bind] at h
    generalize he : a.negated?.bind (·.negated?) = e at hrel
    cases hrel with
    | none => cases h
    | @some t b hb =>
      obtain ⟨n, hn, hmean⟩ := toNode_means hx hb
      simp only [hn, pure_ok, Except.ok.injEq] at h
      refine ⟨s, a, [[n]], [[b]], hget, ha, h.symm, .cons (.cons hmean .nil) .nil, b, ?_, rfl⟩
      rcases a with y | (y | a | ⟨o, a, a'⟩) | ⟨o, a, a'⟩ <;> simp [Proposition.negated?] at he
      rw [he]
  · cases h

/-- a rule used with a context on the sentences of a branch leads to lines that follow loosely from the sentence that
the context names -/
structure Derives (c : Calculus) (rule : String) (context : Context) (above : List Sentence)
    (lines : List (List Sentence))
    (m : Method) (s : Sentence) (a : Proposition) (ps : List (List Proposition)) : Prop where
  method : (rule, m) ∈ ruleMethods
  named : ∃ d, ∃ i : Nat, context.lookup "sentenceID" = some d ∧ d.index? = some (i : Int) ∧ above[i]? = some s
  means : c.Means s a
  lines : c.BranchesMean lines ps
  loose : m.Loose a ps

/-- a position that is in a sequence is a whole number -/
theorem position_eq_some {n : Nat} {d : Datum} {i : Int} (h : position n d = .ok (some i)) :
    0 ≤ i ∧ d.index? = some i := by
  have hwhole {k : Int} (hk : (if 0 ≤ k ∧ k < n then some k else none) = some i) : 0 ≤ i ∧ k = i := by
    split at hk
    · rename_i hrange
      exact ⟨Option.some.inj hk ▸ hrange.1, Option.some.inj hk⟩
    · simp at hk
  cases d with
  | whole k =>
    obtain ⟨hi, rfl⟩ := hwhole (Except.ok.inj h)
    exact ⟨hi, rfl⟩
  | flag b =>
    obtain ⟨hi, rfl⟩ := hwhole (Except.ok.inj h)
    exact ⟨hi, rfl⟩
  | decimal m p =>
    simp only [position, numeral, ok_bind, pure_ok] at h
    split at h
    · simp at h
    · cases h
  | none => cases h
  | text s => cases h
  | list items => cases h
  | record fields => cases h

/-- what has to be there for a rule to be used: a method, and a number that names a sentence that is not used up -/
theorem useRule_eq_ok {rule : String} {used : History} {context : Context} {r : Option (Growth × Sentence)}
    (h : c.useRule x rule branch used context = .ok r) :
    ∃ m d i s, method? rule = some m ∧ context.lookup "sentenceID" = some d ∧ position branch.length d = .ok (some i) ∧
      pick? branch i = some s ∧ used.contains s = false ∧
      ∃ numbers o, numbers.head? = some i ∧ c.naive x m branch numbers = .ok o ∧ r = o.map (·, s) := by
  simp only [useRule] at h
  split at h
  · rename_i m hm
    split at h
    · rename_i d hd
      obtain ⟨_ | i, hi, h⟩ := of_bind_eq_ok h
      · cases h
      simp only at h
      split at h
      · rename_i t ht
        split at h
        · cases h
        rename_i hfresh
        rw [Bool.not_eq_true] at hfresh
        refine ⟨m, d, i, t, hm, hd, hi, ht, hfresh, ?_⟩
        cases m with
        | doubleNegation =>
          obtain ⟨numbers, hnumbers, h⟩ := of_bind_eq_ok h
          obtain rfl := Except.ok.inj hnumbers
          obtain ⟨o, ho, h⟩ := of_bind_eq_ok h
          refine ⟨[i], o, rfl, ho, ?_⟩
          cases o <;> exact (Except.ok.inj h).symm
        | decomposition dec =>
          obtain ⟨j, -, h⟩ := of_bind_eq_ok h
          obtain ⟨numbers, hnumbers, h⟩ := of_bind_eq_ok h
          obtain rfl := Except.ok.inj hnumbers
          obtain ⟨o, ho, h⟩ := of_bind_eq_ok h
          refine ⟨[i, j], o, rfl, ho, ?_⟩
          cases o <;> exact (Except.ok.inj h).symm
      · cases h
    · cases h
  · cases h

theorem useRule_eq_some {rule : String} {used : History} {context : Context} {g : Growth} {s : Sentence}
    (h : c.useRule x rule branch used context = .ok (some (g, s))) :
    ∃ m d i, method? rule = some m ∧ context.lookup "sentenceID" = some d ∧ position branch.length d = .ok (some i) ∧
      pick? branch i = some s ∧ used.contains s = false ∧
      ∃ numbers, numbers.head? = some i ∧ c.naive x m branch numbers = .ok (some g) := by
  obtain ⟨m, d, i, t, hm, hd, hi, ht, hfresh, numbers, _ | g', hhead, hnaive, hr⟩ := useRule_eq_ok h
  · cases hr
  · obtain ⟨rfl, rfl⟩ := Prod.mk.inj (Option.some.inj hr)
    exact ⟨m, d, i, hm, hd, hi, ht, hfresh, numbers, hhead, hnaive⟩

/-- the context that a rule was used with names the sentence it was used on -/
theorem useRule_named {rule : String} {used : History} {context : Context} {g : Growth} {s : Sentence}
    (h : c.useRule x rule branch used context = .ok (some (g, s))) :
    ∃ d, ∃ i : Nat, context.lookup "sentenceID" = some d ∧ d.index? = some (i : Int) ∧ branch[i]? = some s := by
  obtain ⟨m, d, i, -, hd, hi, hs, -⟩ := useRule_eq_some h
  obtain ⟨hpos, hindex⟩ := position_eq_some hi
  exact ⟨d, i.toNat, hd, by rw [hindex, Int.toNat_of_nonneg hpos], pick?_eq_some hpos hs⟩

/-- **A method used with numbers** on a branch takes a sentence apart that is no literal. -/
theorem naive_means (hx : c.HasLexer x) (hbranch : ∀ s ∈ branch, ∃ a, c.Means s a) {m : Method}
    {numbers : List Int} {i : Int}
    (hi : numbers.head? = some i) (hpos : 0 ≤ i) {g : Growth} (h : c.naive x m branch numbers = .ok (some g)) :
    ∃ s a ns ps, branch[i.toNat]? = some s ∧ c.Means s a ∧ g = ns.map (·.map some) ∧ c.BranchesMean ns ps ∧
    m.Loose a ps ∧ a.isLiteral = false := by
  unfold naive at h
  split at h
  · obtain rfl := Option.some.inj hi
    obtain ⟨g', hremove, heq⟩ := of_map_eq_ok h
    obtain rfl := Option.some.inj heq
    obtain ⟨s, a, ns, ps, hs, ha, hg, hns, b, rfl, hps⟩ := removeDoubleNegation_means hx hbranch hpos hremove
    exact ⟨s, _, ns, ps, hs, ha, hg, hns, ⟨b, rfl, hps⟩, rfl⟩
  · obtain rfl := Option.some.inj hi
    obtain ⟨s, a, ns, ps, hs, ha, hg, hrest⟩ := decompose_means hx hbranch h
    exact ⟨s, a, ns, ps, hs, ha, Option.some.inj hg, hrest⟩
  · cases h

/-- **Using a rule** adds lines to a branch that follow loosely from the sentence it is used on. -/
theorem useRule_follows (hx : c.HasLexer x) {rule : String} (hbranch : ∀ s ∈ branch, ∃ a, c.Means s a) {used : History}
    {context : Context} {g : Growth} {s : Sentence} (h : c.useRule x rule branch used context = .ok (some (g, s))) :
    ∃ ns m a ps, g = ns.map (·.map some) ∧ c.Derives rule context branch ns m s a ps := by
  obtain ⟨m, d, i, hm, hd, hi, hs, -, numbers, hhead, hnaive⟩ := useRule_eq_some h
  have hpos := (position_eq_some hi).1
  obtain ⟨t, a, ns, ps, ht, ha, hg, hns, hloose, -⟩ := naive_means hx hbranch hhead hpos hnaive
  obtain rfl : t = s := Option.some.inj (ht.symm.trans (pick?_eq_some hpos hs))
  exact ⟨ns, m, a, ps, hg, mem_of_method? hm, useRule_named h, ha, hns, hloose⟩

/-- **No rule can be used** where everything is used up but for literals. -/
theorem useRule_of_finished (hx : c.HasLexer x) {rule : String} (hbranch : ∀ s ∈ branch, ∃ a, c.Means s a)
    {used : History}
    (hdone : ∀ s ∈ branch, ∀ a, c.Means s a → used.contains s = true ∨ a.isLiteral = true)
    {context : Context} {g : Growth}
    {s : Sentence} : c.useRule x rule branch used context ≠ .ok (some (g, s)) := by
  intro h
  obtain ⟨m, d, i, -, -, hi, hs, hfresh, numbers, hhead, hnaive⟩ := useRule_eq_some h
  have hpos := (position_eq_some hi).1
  obtain ⟨t, a, ns, ps, ht, ha, -, -, -, hliteral⟩ := naive_means hx hbranch hhead hpos hnaive
  obtain rfl : t = s := Option.some.inj (ht.symm.trans (pick?_eq_some hpos hs))
  rcases hdone t (List.mem_of_getElem? ht) a ha with h | h
  · rw [hfresh] at h
    cases h
  · rw [hliteral] at h
    cases h

end Calculus

/-! ## Loose rules that make what strict ones make -/

theorem Proposition.side_injective (keep : Bool) {a b : Proposition} (h : a.side keep = b.side keep) : a = b := by
  cases keep with
  | true => exact h
  | false => exact Proposition.neg.inj h

theorem Decomposition.flatten_arrange {α : Type} (d : Decomposition) (a b : α) : (d.arrange a b).flatten = [a, b] := by
  unfold arrange
  split <;> rfl

/-- what a strict rule makes, a loose one does too -/
theorem Method.Loose.of_expand {m : Method} {a : Proposition} {ps : List (List Proposition)}
    (h : m.expand a = some ps) : m.Loose a ps := by
  cases m with
  | doubleNegation =>
    rcases a with y | (y | a | ⟨o, a, a'⟩) | ⟨o, a, a'⟩ <;> simp [expand, Proposition.negated?] at h
    exact ⟨a, rfl, h.symm⟩
  | decomposition d =>
    obtain ⟨o, l, r, rfl, -, rfl⟩ := Decomposition.expand_eq_some.1 h
    refine ⟨_, l, r, rfl, ?_, rfl⟩
    rintro o' l' r' heq -
    obtain ⟨-, rfl, rfl⟩ := Proposition.join.inj heq
    exact ⟨rfl, rfl⟩

/-- **Loose rules that make only what the strict rule makes** preserve truth: the parts of the cut are then the sides,
or each of the two branches has what the other one should have. -/
theorem Method.Loose.exists_branch {rule : String} {m : Method} {a : Proposition} {ps qs : List (List Proposition)}
    (hm : (rule, m) ∈ Calculus.ruleMethods) (hloose : m.Loose a qs) (hexpand : m.expand a = some ps)
    (hsub : ∀ q ∈ qs.flatten, q ∈ ps.flatten) {v : Symbol → Bool} (ha : a.eval v = true) :
    ∃ b ∈ qs, ∀ q ∈ b, q.eval v = true := by
  have htrue := (Calculus.eval_expand hm hexpand v).1 ha
  cases m with
  | doubleNegation =>
    obtain ⟨b, rfl, rfl⟩ := hloose
    obtain rfl : [[b]] = ps := by simpa [expand, Proposition.negated?] using hexpand
    exact htrue
  | decomposition d =>
    obtain ⟨o, l, r, rfl, -, rfl⟩ := Decomposition.expand_eq_some.1 hexpand
    obtain ⟨w, b, c, hw, hcut, rfl⟩ := hloose
    obtain rfl := Proposition.side_injective d.whole hw
    by_cases hsides : b = l ∨ c = r
    · obtain ⟨rfl, rfl⟩ := hcut o l r rfl hsides
      exact htrue
    · rw [not_or] at hsides
      have hb := hsub (b.side d.first) (by simp [Decomposition.flatten_arrange])
      have hc := hsub (c.side d.second) (by simp [Decomposition.flatten_arrange])
      rw [Decomposition.flatten_arrange, List.mem_pair] at hb hc
      rw [hb.resolve_left fun h => hsides.1 (Proposition.side_injective _ h),
        hc.resolve_right fun h => hsides.2 (Proposition.side_injective _ h)]
      cases hd : d.branching with
      | true => simpa [Decomposition.arrange, hd, or_comm] using htrue
      | false => simpa [Decomposition.arrange, hd, and_comm] using htrue

end TableauTutor
