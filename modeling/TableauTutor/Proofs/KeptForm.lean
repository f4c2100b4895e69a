import TableauTutor.Proofs.ChosenConnective

/-!
Rules keep the nodes of a proof in form. A person may cut a formula at any connective, however deep in brackets and
negations it stands; a number that names no sentence, or no symbol at which a sentence can be divided, is refused with
an error that the person is told about, and nothing else can go wrong.

- `Outcome.Orderly`: a computation that fails only with such errors; `Orderly.bind` follows it step by step.
- `Calculus.useRule_orderly`: using a rule is one.
- `Calculus.useRule_keeps_form`: it is refused, or all it adds are nodes of the calculus.
-/

namespace TableauTutor

/-! ## Errors that the person is told about -/

/-- refused by a rule, or the person's mistake -/
def Fault.Told : Fault → Prop
  | .rule _ => True
  | .mistake _ => True
  | _ => False

namespace Outcome

variable {α β : Type} {x : Outcome α}

/-- every error is one that the person is told about -/
def Orderly (x : Outcome α) : Prop := ∀ e, x = .error e → e.Told

theorem Orderly.of_ok {a : α} (h : x = .ok a) : x.Orderly := by
  intro e he
  rw [h] at he
  cases he

theorem Orderly.of_told {e : Fault} (h : e.Told) : Orderly (.error e : Outcome α) := by
  rintro _ ⟨⟩
  exact h

/-- a sequence is orderly if its first part is, and what follows is for all that the first part can give -/
theorem Orderly.bind {f : α → Outcome β} (hx : x.Orderly) (hf : ∀ a, x = .ok a → (f a).Orderly) :
    Orderly (x >>= f) := by
  cases x with
  | error e => exact .of_told (hx e rfl)
  | ok a => exact hf a rfl

theorem Orderly.map {f : α → β} (hx : x.Orderly) : Orderly (f <$> x) := by
  cases x with
  | error e => exact .of_told (hx e rfl)
  | ok a => exact .of_ok rfl

end Outcome

open Outcome (Orderly)

/-! ## A rule at a chosen symbol -/

namespace Decomposition

variable {d : Decomposition} {branch : List Sentence}

theorem sentenceAt_orderly (branch : List Sentence) (i : Int) : (sentenceAt branch i).Orderly := by
  unfold sentenceAt
  split
  · exact .of_told trivial
  · split
    · exact .of_ok rfl
    · exact .of_told trivial

theorem checkToken_orderly (s : Sentence) (j : Int) : (checkToken s j).Orderly := by
  unfold checkToken
  split
  · exact .of_told trivial
  split
  · exact .of_told trivial
  split
  · exact .of_told trivial
  split
  · exact .of_told trivial
  split
  · exact .of_told trivial
  · exact .of_ok rfl

/-- **A decomposition at a chosen symbol** of a branch of formulas: where the symbol is a
two-place connective, the cut succeeds. -/
theorem naive_orderly (hbranch : ∀ s ∈ branch, ∃ a, s.Reads a) (i j : Int) : (d.naive branch i j).Orderly := by
  refine (sentenceAt_orderly branch i).bind fun s hs => ?_
  refine (checkToken_orderly s j).bind fun _ htoken => ?_
  obtain ⟨a, ha⟩ := hbranch s (List.mem_of_getElem? (sentenceAt_eq_ok hs))
  obtain ⟨y, hj, hy, hmark⟩ := checkToken_binary ha.1.1 htoken
  obtain ⟨o, hcore, -⟩ := d.core_reads ha
  refine (Orderly.of_ok hcore).bind fun o ho => ?_
  cases o with
  | none => exact .of_told trivial
  | some t =>
    obtain ⟨l, r, -, -, -, hsplit, -⟩ := core_splitAt ha ho hj hy hmark
    exact (Orderly.of_ok hsplit).bind fun _ _ => .of_ok rfl

end Decomposition

/-- how many sentences a method puts on each of the branches that it makes -/
def Method.shape : Method → List Nat
  | .doubleNegation => [1]
  | .decomposition d => if d.branching then [1, 1] else [2]

theorem Method.Loose.shape_eq {m : Method} {a : Proposition} {ps : List (List Proposition)} (h : m.Loose a ps) :
    ps.map List.length = m.shape := by
  cases m with
  | doubleNegation =>
    obtain ⟨b, -, rfl⟩ := h
    rfl
  | decomposition d =>
    obtain ⟨w, b, c, -, -, rfl⟩ := h
    cases hd : d.branching <;> simp [Decomposition.arrange, shape, hd]

namespace Calculus

variable {c : Calculus} {x : Lexer} {branch : List Sentence}

theorem Means.ne_nil {s : Sentence} {a : Proposition} (h : signed.Means s a) : s ≠ [] := by
  obtain ⟨t, ⟨rfl, -⟩ | ⟨b, rfl, -⟩⟩ := h <;> simp

theorem mem_of_pick? {i : Int} {s : Sentence} (h : pick? branch i = some s) : s ∈ branch := by
  obtain ⟨k, -, hk⟩ := Option.bind_eq_some_iff.1 h
  exact List.mem_of_getElem? hk

theorem decompose_orderly (hx : c.HasLexer x) (d : Decomposition) (hbranch : ∀ s ∈ branch, ∃ a, c.Means s a) {i : Int}
    {s : Sentence} (hs : pick? branch i = some s) (j : Int) : (c.decompose x d branch i j).Orderly := by
  cases c with
  | unsigned => exact (Decomposition.naive_orderly hbranch i j).map
  | signed =>
    have hne : ∀ t ∈ branch, t ≠ [] := fun t ht => (hbranch t ht).choose_spec.ne_nil
    obtain ⟨shift, hshift⟩ : ∃ shift, signShift s = .ok shift := by
      cases s with
      | nil => exact absurd rfl (hne [] (mem_of_pick? hs))
      | cons y s => exact ⟨_, rfl⟩
    obtain ⟨plain, hplain, -⟩ := exists_mapM_unsign hx hne
    have hread := unsign_reads hx hbranch hplain
    simp only [decompose, hs]
    refine (Orderly.of_ok hshift).bind fun _ _ => (Orderly.of_ok hplain).bind fun _ hsame => ?_
    obtain rfl := Except.ok.inj (hplain.symm.trans hsame)
    refine (Decomposition.naive_orderly hread i _).bind fun g hg => ?_
    obtain ⟨-, -, bs, ps, -, -, rfl, hbs, -⟩ := Decomposition.naive_reads hread hg
    obtain ⟨ns, hns, -⟩ := signGrowth_means hx hbs
    exact .of_ok hns

/-- **A double negation** is removed, or there is none and the person is told. -/
theorem removeDoubleNegation_orderly (hx : c.HasLexer x) {i : Int} {s : Sentence} (hs : pick? branch i = some s)
    {a : Proposition} (ha : c.Means s a) : (c.removeDoubleNegation x branch i).Orderly := by
  obtain ⟨p, hp, hread, -⟩ := toPlain_reads hx ha
  obtain ⟨r, hr, hrel⟩ := undouble_reads hread
  simp only [removeDoubleNegation, hs]
  refine (Orderly.of_ok hp).bind fun p' hp' => ?_
  obtain rfl := Except.ok.inj (hp.symm.trans hp')
  refine (Orderly.of_ok hr).bind fun r' hr' => ?_
  obtain rfl := Except.ok.inj (hr.symm.trans hr')
  generalize a.negated?.bind (·.negated?) = e at hrel
  cases hrel with
  | none => exact .of_told trivial
  | some ht =>
    obtain ⟨n, hn, -⟩ := toNode_means hx ht
    exact (Orderly.of_ok hn).bind fun _ _ => .of_ok rfl

/-! ## Using a rule -/

theorem length_branches {ns : List (List Sentence)} {ps : List (List Proposition)} (h : c.BranchesMean ns ps) :
    ns.map List.length = ps.map List.length := by
  induction h with
  | nil => rfl
  | cons h _ ih => rw [List.map_cons, List.map_cons, h.length_eq, ih]

/-- **Using a rule** with whole numbers on a branch of nodes fails only with errors that the person is told about. -/
theorem useRule_orderly (hx : c.HasLexer x) {rule : String} (hrule : rule ∈ ruleNames)
    (hbranch : ∀ s ∈ branch, ∃ a, c.Means s a) (used : History) {context : Context} {i j : Int}
    (hi : context.lookup "sentenceID" = some (.whole i)) (hj : context.lookup "tokenID" = some (.whole j)) :
    (c.useRule x rule branch used context).Orderly := by
  obtain ⟨m, hm⟩ : ∃ m, method? rule = some m := by
    have hall : ∀ r ∈ ruleNames, (method? r).isSome := by decide
    exact Option.isSome_iff_exists.1 (hall rule hrule)
  simp only [useRule, hm, hi]
  refine (Orderly.of_ok (a := if 0 ≤ i ∧ i < branch.length then some i else none) rfl).bind fun o ho => ?_
  cases o with
  | none => exact .of_told trivial
  | some k =>
    simp only
    cases hs : pick? branch k with
    | none => exact .of_told trivial
    | some s =>
      simp only
      split
      · exact .of_told trivial
      obtain ⟨a, ha⟩ := hbranch s (mem_of_pick? hs)
      cases m with
      | doubleNegation =>
        refine (removeDoubleNegation_orderly hx hs ha).map.bind fun r _ => ?_
        cases r <;> exact .of_ok rfl
      | decomposition d =>
        have hnumber : c.tokenNumber s context = .ok j := by simp [tokenNumber, hj, numeral, pure_ok]
        refine (Orderly.of_ok hnumber).bind fun _ _ => (decompose_orderly hx d hbranch hs _).bind fun r _ => ?_
        cases r <;> exact .of_ok rfl

theorem naive_ne_none (hx : c.HasLexer x) (hbranch : ∀ s ∈ branch, ∃ a, c.Means s a) {m : Method} {numbers : List Int} :
    c.naive x m branch numbers ≠ .ok none := by
  intro h
  unfold naive at h
  split at h
  · obtain ⟨g, -, hg⟩ := of_map_eq_ok h
    cases hg
  · obtain ⟨-, -, ns, -, -, -, hr, -⟩ := decompose_means hx hbranch h
    cases hr
  · cases h

/-- **Rules keep the nodes in form.** Whatever whole numbers a person gives with a rule, on a branch of nodes and with
any history: the rule is refused, as a mistake or by the rule itself, or it adds all the lines that its method makes,
with no sentence missing, and every sentence in them is a node again. -/
theorem useRule_keeps_form (hx : c.HasLexer x) {rule : String} (hrule : rule ∈ ruleNames)
    (hbranch : ∀ s ∈ branch, c.NodeForm s)
    (used : History) {context : Context} {i j : Int} (hi : context.lookup "sentenceID" = some (.whole i))
    (hj : context.lookup "tokenID" = some (.whole j)) :
    (∃ m, c.useRule x rule branch used context = .error (.mistake m)) ∨
      (∃ e, c.useRule x rule branch used context = .error (.rule e)) ∨
      ∃ (m : Method) (s : Sentence) (ns : List (List Sentence)), method? rule = some m ∧
        c.useRule x rule branch used context = .ok (some (ns.map (·.map some), s)) ∧ s ∈ branch ∧
        ns.map List.length = m.shape ∧
        ∀ line ∈ ns, ∀ t ∈ line, c.NodeForm t := by
  have hmeans : ∀ s ∈ branch, ∃ a, c.Means s a := fun s hs => nodeForm_iff.1 (hbranch s hs)
  cases huse : c.useRule x rule branch used context with
  | error e =>
    have htold := useRule_orderly hx hrule hmeans used hi hj e huse
    cases e with
    | rule e => exact .inr (.inl ⟨e, rfl⟩)
    | mistake m => exact .inl ⟨m, rfl⟩
    | _ => exact htold.elim
  | ok r =>
    obtain ⟨m, d, k, s, hm, -, hk, hs, -, numbers, o, hhead, hnaive, rfl⟩ := useRule_eq_ok huse
    cases o with
    | none => exact absurd hnaive (naive_ne_none hx hmeans)
    | some g =>
      obtain ⟨_, _, ns, ps, -, -, rfl, hns, hloose, -⟩ := naive_means hx hmeans hhead (position_eq_some hk).1 hnaive
      exact .inr (.inr ⟨m, s, ns, hm, rfl, mem_of_pick? hs, (length_branches hns).trans hloose.shape_eq,
        nodeForm_branches hns⟩)

/-- `~(p v q) ^ r` cut at the disjunction, inside the brackets behind the negation: the halves `~(p` and `q) ^ r` become
the nodes `~(p)` and `(q) ^ r` -/
theorem useRule_keeps_form_nested :
    let s : Sentence := [.of "not" "~", "(", .of "sentvar" "p", .of "or" "v", .of "sentvar" "q", ")", .of "and" "^",
      .of "sentvar" "r"]
    let l : Sentence := [.of "not" "~", "(", .of "sentvar" "p", ")"]
    let r : Sentence := ["(", .of "sentvar" "q", ")", .of "and" "^", .of "sentvar" "r"]
    let context : Context := [("sentenceID", .whole 0), ("tokenID", .whole 3)]
    ∃ x, unsigned.HasLexer x ∧ unsigned.useRule x "true and" [s] {} context = .ok (some ([[some l, some r]], s)) ∧
      unsigned.NodeForm l ∧ unsigned.NodeForm r := by
  intro s l r context
  obtain ⟨x, hx⟩ := unsigned.exists_lexer
  obtain ⟨a, ha⟩ : ∃ a, s.Expresses a := Sentence.exists_expresses (Sentence.inLanguage_of_symbols (by decide))
    (by decide)
  have hbranch : ∀ t ∈ [s], unsigned.NodeForm t := by
    intro t ht
    rw [List.mem_singleton.1 ht]
    exact isPlain_iff.2 ⟨a, ha.reads_of_head? (by decide)⟩
  have hmethod : method? "true and" = some (.decomposition ⟨"and", true, true, true, false⟩) := by decide
  have hnaive : Decomposition.naive ⟨"and", true, true, true, false⟩ [s] 0 3 = .ok [[some l, some r]] :=
    eq_ok_of_toOption (by decide +kernel)
  have huse : unsigned.useRule x "true and" [s] {} context = .ok (some ([[some l, some r]], s)) := by
    simp [useRule, hmethod, context, List.lookup_cons, position, numeral, pick?, resolve?, History.contains,
      tokenNumber, naive, decompose, hnaive, pure_ok, Functor.map, Except.map]
  have hsentence : context.lookup "sentenceID" = some (.whole 0) := rfl
  have htoken : context.lookup "tokenID" = some (.whole 3) := rfl
  rcases useRule_keeps_form hx (show "true and" ∈ ruleNames by decide) hbranch {} hsentence htoken with
    ⟨m, h⟩ | ⟨e, h⟩ | ⟨m, t, ns, -, h, -, -, hns⟩
  · cases huse.symm.trans h
  · cases huse.symm.trans h
  · obtain rfl : ns = [[l, r]] := by
      have hgrowth := (Prod.mk.inj (Option.some.inj (Except.ok.inj (h.symm.trans huse)))).1
      exact List.map_injective_iff.2 (List.map_injective_iff.2 (Option.some_injective _)) hgrowth
    have hline := hns [l, r] List.mem_cons_self
    exact ⟨x, hx, huse, hline l List.mem_cons_self, hline r (List.mem_cons_of_mem _ List.mem_cons_self)⟩

end Calculus

end TableauTutor
