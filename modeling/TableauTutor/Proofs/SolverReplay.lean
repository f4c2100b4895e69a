import TableauTutor.Proofs.Agreement
import TableauTutor.Proofs.ChosenConnective
import TableauTutor.Proofs.Histories
import TableauTutor.Proofs.Replaying

/-!
Moves of the solver made by hand. The solver records a move as a person would make it, with the number of a sentence and
the number of a symbol in it. Made once more with these numbers, a move does what it did if two things are right. The
symbol has to be the connective that the rule decomposes; but the solver counts from the formula behind a negation as if
it had no redundant brackets. And the sentence must not be used up on the branch; but the solver takes a sentence apart
as often as it stands there.

- `Proof.movedToken_at`: how far the symbol on record is from the connective.
- `Proof.sparing_useOn`: by hand no sentence is used twice on a branch.
- `Proof.remadeByHand_iff`: when a proof can be made once more by hand.
- `Session.solver_moves_by_hand`: the same for what the solver does with a statement that was typed.
-/

namespace TableauTutor

open ProofTree Calculus

/-! ## The symbol that is recorded -/

namespace Sentence

/-- a negation whose formula stands in `n` pairs of brackets more than it needs -/
def Padded (s : Sentence) (n : Nat) : Prop :=
  ∃ (y : Symbol) (t : Sentence) (a : Proposition), s = y :: t.wrapped (n + 1) ∧ t.Reads a

/-- a two-place connection is negated in brackets -/
theorem Reads.pairs_pos {y : Symbol} {t : Sentence} {n : Nat} {o : Junctor} {a b : Proposition}
    (h : Reads (y :: t.wrapped n) (.neg (.join o a b))) (ht : t.Reads (.join o a b)) : 0 < n := by
  by_contra hn
  obtain rfl : n = 0 := by omega
  rw [wrapped_zero] at h
  obtain ⟨tree, hsp, htree⟩ := h.spelling
  generalize hw : tokens (y :: t) = w at hsp
  cases hsp with
  | atom => simp [SyntaxTree.proposition?] at htree
  | binary => simp [SyntaxTree.proposition?, Option.bind_eq_some_iff] at htree
  | @unary op p x closed w hop hx hfit =>
    obtain ⟨rfl, rfl⟩ : y.toToken = op ∧ tokens t = w := by simpa using hw
    obtain ⟨hnot, hsays⟩ : y.toToken.kind = "not" ∧ x.proposition? = some (.join o a b) := by
      simpa [SyntaxTree.proposition?] using htree
    obtain rfl : p = 4 := by
      have hp := hop.2.2
      rw [hnot] at hp
      exact (Option.some.inj hp).symm
    rcases hfit with rfl | hfit
    · exact ht.2 hx.enclosed
    · -- a two-place connective binds less than a negation
      cases x with
      | atom => simp [SyntaxTree.proposition?] at hsays
      | unary => simp [SyntaxTree.proposition?] at hsays
      | binary op l r =>
        obtain ⟨ho, -⟩ : Junctor.ofKind? op.kind = some o ∧ _ := by
          simpa [SyntaxTree.proposition?, Option.bind_eq_some_iff] using hsays
        rw [SyntaxTree.precedence?, Junctor.ofKind?_eq_some.1 ho] at hfit
        cases o with
        | conj => exact absurd (hfit 3 rfl) (by decide)
        | disj => exact absurd (hfit 3 rfl) (by decide)
        | impl => exact absurd (hfit 2 rfl) (by decide)

end Sentence

/-- how far before the connective that a rule decomposes the recorded symbol stands: in the calculus without signs, a
rule for negations counts the brackets that the formula behind the negation needs, and none that are redundant -/
def Calculus.Slack (c : Calculus) (d : Decomposition) (s : Sentence) (n : Nat) : Prop :=
  if c = .unsigned ∧ d.whole = false then s.Padded n else n = 0

namespace Proof

variable {c : Calculus} {x : Lexer} {rule : String} {d : Decomposition} {s plain : Sentence} {a : Proposition}
  {bs : List (List Sentence)} {token : Int}

/-- what is recorded is counted from the main connective of the formula without its negation -/
theorem movedToken_core (hm : method? rule = some (.decomposition d)) (ha : s.Reads a) {t : Sentence}
    (hcore : d.core s = .ok (some t)) {i : Int} (hmain : t.mainConnective = .ok (some i))
    (htoken : movedToken c rule s = .ok token) : token = i + if c = .signed then 1 else if d.whole then 0 else 2 := by
  have hname : Text.startsWith "false" rule = !d.whole := startsWith_false _ (mem_of_method? hm)
  have hfirst : (if c = .unsigned then 2 else 1 : Int) = if c = .signed then 1 else 2 := by cases c <;> rfl
  have hlast : (if c = .unsigned then 0 else 1 : Int) = if c = .signed then 1 else 0 := by cases c <;> rfl
  obtain ⟨b, ht, rfl, ⟨hw, rfl⟩ | ⟨hw, z, k, -, -, rfl⟩⟩ := Decomposition.core_eq ha hcore
  · simp only [movedToken, hname, hw, hmain, hlast, ok_bind, pure_ok] at htoken
    simpa [hw] using (Except.ok.inj htoken).symm
  · rw [hw] at ha
    obtain ⟨z', n, t', heq, -, -, ht', -, hparts⟩ := Sentence.Reads.neg_eq ha
    obtain rfl : t = t' := argument_unique ht ht' (by rw [heq, (List.cons.inj heq).1])
    simp only [movedToken, hname, hw, hparts, hmain, hfirst, ok_bind, pure_ok] at htoken
    simpa [hw] using (Except.ok.inj htoken).symm

/-- **The symbol that is recorded** is the connective that the rule decomposes, or stands
before it by redundant brackets. -/
theorem movedToken_at (hx : c.HasLexer x) (ha : c.Means s a) (hplain : c.toPlain x s = .ok plain)
    (hm : method? rule = some (.decomposition d)) (hstrict : c.strict x (.decomposition d) s = .ok (some bs))
    (htoken : movedToken c rule plain = .ok token) :
    ∃ j n : Nat, c.connectiveAt d s = .ok (some (j : Int)) ∧ token + n = j ∧ c.Slack d s n := by
  obtain ⟨plain', hplain', hread, -⟩ := toPlain_reads hx ha
  obtain rfl := Except.ok.inj (hplain'.symm.trans hplain)
  obtain ⟨plain'', hplain'', hrest⟩ := of_bind_eq_ok hstrict
  obtain rfl := Except.ok.inj (hplain''.symm.trans hplain)
  obtain ⟨_ | made, hmade, hrest⟩ := of_bind_eq_ok hrest
  · cases hrest
  obtain ⟨t, o, p, q, i, y, l, r, hcore, ht, rfl, hmain, -⟩ := Decomposition.strict_eq_some hread hmade
  have htok := movedToken_core hm hread hcore hmain htoken
  obtain ⟨b, -, -, hform⟩ := Decomposition.core_eq hread hcore
  cases c with
  | unsigned =>
    obtain rfl := Except.ok.inj hplain
    rcases hform with ⟨hw, rfl⟩ | ⟨hw, z, k, -, -, rfl⟩
    · refine ⟨i, 0, ?_, by simp [htok, hw], by simp [Slack, hw]⟩
      rw [connectiveAt, if_pos ⟨rfl, hw⟩, hmain]
    · rw [hw] at hread
      have hk : 0 < k := hread.pairs_pos ht
      refine ⟨k + i + 1, k - 1, ?_, by simp [htok, hw]; omega, ?_⟩
      · rw [connectiveAt, if_neg (by simp [hw]), List.drop_one, List.tail_cons, ht.mainConnective_wrapped hmain]
        simp [pure_ok]
      · rw [Slack, if_pos ⟨rfl, hw⟩]
        exact ⟨z, t, _, by rw [Nat.sub_add_cancel hk], ht⟩
  | signed =>
    -- behind the sign stands the formula that the rule decomposes
    have hdrop : s.drop 1 = t := by
      obtain ⟨f, ⟨rfl, -, hneg⟩ | ⟨a', rfl, hf, hside⟩⟩ := ha
      · obtain rfl := Except.ok.inj ((unsign_true x f).symm.trans hplain)
        rcases hform with ⟨-, rfl⟩ | ⟨hw, -⟩
        · rfl
        · exact absurd rfl (hw ▸ hneg _)
      · obtain ⟨l, hl⟩ := unsign_false hx f
        obtain rfl := Except.ok.inj (hl.symm.trans hplain)
        rcases hform with ⟨hw, -⟩ | ⟨-, z, k, -, -, heq⟩
        · simp [hw, Proposition.side] at hside
        · obtain ⟨n, hn⟩ := behind_eq_wrapped (.of "not" l) f
          have hsame := hn.symm.trans heq
          obtain rfl := (List.cons.inj hsame).1
          exact argument_unique hf ht hsame
    refine ⟨i + 1, 0, ?_, by simp [htok], by simp [Slack]⟩
    rw [connectiveAt, if_neg (by simp), hdrop, hmain]
    simp [pure_ok]

end Proof

/-! ## A rule used by hand as the solver used it -/

namespace Calculus

variable {c : Calculus} {x : Lexer} {rule : String} {m : Method} {branch : List Sentence} {i : Nat} {y : Sentence}
  {bs : List (List Sentence)} {used : History} {token : Int}

/-- the context that the solver records: the number of a sentence and the number of a symbol -/
def recordedContext (i : Nat) (token : Int) : Context := [("sentenceID", .whole i), ("tokenID", .whole token)]

/-- a double negation is removed at every place of a branch as it is from the sentence by itself -/
theorem naive_doubleNegation (hy : branch[i]? = some y) (hstrict : c.strict x .doubleNegation y = .ok (some bs)) :
    c.naive x .doubleNegation branch [(i : Int)] = .ok (some (bs.map (·.map some))) := by
  obtain ⟨plain, hplain, hrest⟩ := of_bind_eq_ok hstrict
  obtain ⟨_ | made, hmade, hrest⟩ := of_bind_eq_ok hrest
  · cases hrest
  obtain ⟨_ | t, ht, hmade⟩ := of_bind_eq_ok hmade
  · cases hmade
  obtain rfl : [[t]] = made := Option.some.inj (Except.ok.inj hmade)
  obtain ⟨ns, hns, hrest⟩ := of_bind_eq_ok hrest
  obtain rfl : ns = bs := Option.some.inj (Except.ok.inj hrest)
  simp only [List.mapM_cons, List.mapM_nil] at hns
  cases hn : c.toNode x t with
  | error f => simp [hn] at hns
  | ok n =>
    obtain rfl : [[n]] = ns := by simpa [hn, pure_ok] using hns
    simp [naive, removeDoubleNegation, pick?_natCast, hy, hplain, ht, hn, pure_ok, Functor.map,
      Except.map]

/-- what the solver has recorded, given to a rule: a sentence that is used up is refused, and
otherwise the method gets its numbers -/
theorem useRule_recorded (hm : method? rule = some m) (hy : branch[i]? = some y) :
    c.useRule x rule branch used (recordedContext i token) =
      if used.contains y then .error (.mistake alreadyUsed)
      else (c.naive x m branch
        (match m with | .doubleNegation => [(i : Int)] | .decomposition _ => [(i : Int), token])).map fun g =>
          g.map fun g => (g, y) := by
  have hlt := (List.getElem?_eq_some_iff.1 hy).1
  have hposition : position branch.length (.whole i) = .ok (some (i : Int)) := by
    simp [position, numeral, hlt, pure_ok]
  have hpick : pick? branch (i : Int) = some y := by rw [pick?_natCast, hy]
  have hsentence : (recordedContext i token).lookup "sentenceID" = some (.whole i) := rfl
  have htoken : c.tokenNumber y (recordedContext i token) = .ok token := rfl
  cases hused : used.contains y with
  | true =>
    simp only [useRule, hm, hsentence, hposition, hpick, hused, ok_bind, if_true]
    rfl
  | false =>
    cases m with
    | doubleNegation =>
      simp only [useRule, hm, hsentence, hposition, hpick, hused, ok_bind, pure_ok, Bool.false_eq_true, if_false]
      rcases c.naive x .doubleNegation branch [(i : Int)] with f | _ | g <;> rfl
    | decomposition d =>
      simp only [useRule, hm, hsentence, hposition, hpick, hused, htoken, ok_bind, pure_ok, Bool.false_eq_true,
        if_false]
      rcases c.naive x (.decomposition d) branch [(i : Int), token] with f | _ | g <;> rfl

/-- **Used with the connective that it decomposes**, a rule makes of a sentence that is not
used up what it makes by itself. -/
theorem useRule_eq_strict (hx : c.HasLexer x) (hm : method? rule = some m) (hy : branch[i]? = some y)
    (hbranch : ∀ z ∈ branch, ∃ a, c.Means z a) (hstrict : c.strict x m y = .ok (some bs))
    (hfresh : used.contains y = false)
    (haim : ∀ d, m = .decomposition d → c.connectiveAt d y = .ok (some token)) :
    c.useRule x rule branch used (recordedContext i token) = .ok (some (bs.map (·.map some), y)) := by
  rw [useRule_recorded hm hy, hfresh, if_neg Bool.false_ne_true]
  cases m with
  | doubleNegation =>
    simp only [naive_doubleNegation hy hstrict]
    rfl
  | decomposition d =>
    have hne : c = signed → ∀ z ∈ branch, z ≠ [] := by
      rintro rfl z hz rfl
      obtain ⟨a, t, ⟨h, -⟩ | ⟨b, h, -⟩⟩ := hbranch [] hz <;> cases h
    obtain ⟨j, z, hj, -, -, hmade⟩ :=
      decompose_at_connective hx hy (nodeForm_iff.2 (hbranch y (List.mem_of_getElem? hy))) hne hstrict
    obtain rfl : (j : Int) = token := Option.some.inj (Except.ok.inj (hj.symm.trans (haim d rfl)))
    simp only [naive, hmade]
    rfl

end Calculus

/-! ## Trees that go on growing -/

namespace ProofTree

open Relation (ReflTransGen)

variable {R R' : ProofTree → UsedRule → ProofTree → Prop} {root : Sentence} {name : String} {t t' : ProofTree}
    {log : List UsedRule} {u : UsedRule} {y : Sentence}

/-- what is known of the tree in the end can be used for each of the moves that led to it -/
theorem Built.mono_of_grown (h : Built R root name t log)
    (hR : ∀ t₀ u t₁, (∃ log₀, Built R root name t₀ log₀) → Grows t₀ t₁ → u ∈ log → u.layer = t₀.nextLayer → R t₀ u t₁ →
      ReflTransGen Grows t₁ t → R' t₀ u t₁) : Built R' root name t log := by
  induction h with
  | root => exact .root
  | lost _ hg ih =>
    exact .lost (ih fun t₀ u t₁ hb hg₀ hu hlayer hr hrest => hR t₀ u t₁ hb hg₀ hu hlayer hr (hrest.tail hg)) hg
  | move hb hg hlayer hr ih =>
    refine .move (ih fun t₀ u t₁ hb hg₀ hu hlayer hr hrest => ?_) hg hlayer
      (hR _ _ _ ⟨_, hb⟩ hg (by simp) hlayer hr .refl)
    exact hR t₀ u t₁ hb hg₀ (List.mem_append_left _ hu) hlayer hr (hrest.tail hg)

theorem exists_longer_of_grown (h : ReflTransGen Grows t t') {r : Strand} (hr : r ∈ strands t) :
    ∃ r' ∈ strands t', r.path <+: r'.path := by
  induction h with
  | refl => exact ⟨r, hr, List.prefix_refl _⟩
  | tail _ hg ih =>
    obtain ⟨r₁, hr₁, hbefore⟩ := ih
    obtain ⟨r₂, hr₂, hbefore', -⟩ := hg.exists_longer hr₁
    exact ⟨r₂, hr₂, hbefore.trans hbefore'⟩

theorem premiss_of_grown (h : ReflTransGen Grows t t') (hy : u.Premiss t y) : u.Premiss t' y := by
  induction h with
  | refl => exact hy
  | tail _ hg ih => exact ih.grow hg

end ProofTree

/-! ## Moves of the solver -/

namespace UsedRule

/-- a move as it is recorded for a person -/
def byHand (u : UsedRule) : UsedRule := { u with decisions := .none, auto := false }

/-- the symbol on record is the connective that the rule of the move decomposes -/
def Aims (c : Calculus) (u : UsedRule) (y : Sentence) : Prop :=
  ∀ d, method? u.rule = some (.decomposition d) →
    ∃ j, u.context.lookup "tokenID" = some (.whole j) ∧ c.connectiveAt d y = .ok (some j)

/-- the symbol on record stands before the connective that the rule of the move decomposes, by
as much as the rule gets wrong -/
def AimsNear (c : Calculus) (u : UsedRule) (y : Sentence) : Prop :=
  ∀ d, method? u.rule = some (.decomposition d) →
    ∃ j n : Nat, u.context.lookup "tokenID" = some (.whole (j - n)) ∧
    c.connectiveAt d y = .ok (some (j : Int)) ∧ c.Slack d y n

theorem AimsNear.of_signed {u : UsedRule} {y : Sentence} (h : u.AimsNear .signed y) : u.Aims .signed y := by
  intro d hd
  obtain ⟨j, n, hlookup, hj, hslack⟩ := h d hd
  obtain rfl : n = 0 := by simpa [Slack] using hslack
  exact ⟨j, by simpa using hlookup, hj⟩

end UsedRule

namespace Proof

variable {e : Setting} {p : Proof}

/-- in a tree that says something, the move was made below a leaf on a sentence of its branch. If the symbol on record
is the right one and the sentence was not used up at the leaf, a person can make the move -/
def Redoes (e : Setting) (t : ProofTree) (u : UsedRule) (t' : ProofTree) : Prop :=
  t.Speaks e.calculus → ((strands t).map (·.leaf.branch)).Nodup →
    ∃ fs d ts y, t = plug fs (node d []) ∧ t' = plug fs (node d ts) ∧ Offshoot t d ts ∧ u.Premiss t y ∧
      u.AimsNear e.calculus y ∧ (u.Aims e.calculus y → d.history.contains y = false → Repeats e t u.byHand t')

/-- **What the solver does with a sentence** can be done by hand. -/
theorem picksBy_redoes (hx : e.HasLexer) : PicksBy (Redoes e) e := by
  intro p rule x fs d y m bs h hok token htoken hspeaks hnames
  have hm := method?_of_mem h.method
  rw [speaks_unmarked, h.tree] at hspeaks
  have hbranch : ∀ z ∈ (fs.map (·.data) ++ [d]).map (·.sentence), ∃ a, e.calculus.Means z a :=
    List.forall_mem_map.2 (hspeaks _ (strand_mem_plug fs d))
  have hoffshoot : Offshoot p.tree.unmarked d.unmark (growth e p d (bs.map (·.map some)) (some y)) := by
    refine (offshoot_growth h.tree h.full.2 (some y)).resolve_left fun hnil => h.full.1 ?_
    rw [← List.length_eq_zero_iff, ← length_growth h.full.2 hok (some y), hnil, List.length_nil]
  refine ⟨fs.map Frame.unmark, d.unmark, _, y, ?_, unmarked_growth _ _, hoffshoot,
    premiss_unmarked.2 (h.premiss token), ?_, ?_⟩
  · rw [h.tree, unmarked_plug]
    rfl
  · intro dec hdec
    obtain rfl : m = .decomposition dec := Option.some.inj (hm.symm.trans hdec)
    obtain ⟨a, ha⟩ := hbranch y (List.mem_of_getElem? h.named)
    obtain ⟨j, n, hj, hn, hslack⟩ := movedToken_at hx ha h.read hm h.strict htoken
    obtain rfl : token = j - n := by omega
    exact ⟨j, n, rfl, hj, hslack⟩
  · intro haims hfresh
    rw [← branchNames_eq, branchNames_unmarked, branchNames_eq] at hnames
    obtain ⟨q, hfound⟩ := found_plug hnames h.tree
    have haim : ∀ dec, m = .decomposition dec → e.calculus.connectiveAt dec y = .ok (some token) := by
      rintro dec rfl
      obtain ⟨j, hj, hat⟩ := haims dec hm
      obtain rfl : token = j := Datum.whole.inj (Option.some.inj hj)
      exact hat
    have hrule := useRule_eq_strict hx hm h.named hbranch h.strict hfresh haim
    have hrepeats := movesBy_repeats e hfound hnames hrule hok
    rwa [h.branch] at hrepeats

end Proof

/-! ## Sentences used twice -/

section Sparing

variable {t : ProofTree} {log more : List UsedRule} {ledger : Int → Sentence} {root : Sentence} {name : String}
    {fs : List Frame} {d : Node} {ts : List ProofTree}

/-- no sentence is used by two moves on one branch -/
def ProofTree.Sparing (t : ProofTree) (log : List UsedRule) : Prop :=
  ∀ s ∈ strands t, ∀ u ∈ log, ∀ v ∈ log, u.layer < v.layer → (∃ n ∈ s.path, n.layer = u.layer) →
  (∃ n ∈ s.path, n.layer = v.layer) → ∀ y, u.Premiss t y → ¬ v.Premiss t y

/-- the sentences that a move names on branches with its name -/
def UsedRule.premisses (u : UsedRule) (t : ProofTree) : List Sentence :=
  ((strands t).filter (·.leaf.branch = u.branch)).filterMap fun r =>
    ((u.context.lookup "sentenceID").bind (·.index?)).bind fun i => if 0 ≤ i then r.sentences[i.toNat]? else none

theorem UsedRule.premiss_iff {u : UsedRule} {y : Sentence} : u.Premiss t y ↔ y ∈ u.premisses t := by
  simp only [Premiss, premisses, List.mem_filterMap, List.mem_filter, decide_eq_true_eq, Option.bind_eq_some_iff,
    Option.ite_none_right_eq_some]
  constructor
  · rintro ⟨r, hr, hbranch, d, i, hd, hi, hy⟩
    exact ⟨r, ⟨hr, hbranch⟩, i, ⟨d, hd, hi⟩, by omega, by simpa using hy⟩
  · rintro ⟨r, ⟨hr, hbranch⟩, i, ⟨d, hd, hi⟩, hpos, hy⟩
    exact ⟨r, hr, hbranch, d, i.toNat, hd, by rw [hi, Int.toNat_of_nonneg hpos], hy⟩

instance : Decidable (t.Sparing log) :=
  decidable_of_iff (∀ s ∈ strands t, ∀ u ∈ log, ∀ v ∈ log, u.layer < v.layer → (∃ n ∈ s.path, n.layer = u.layer) →
      (∃ n ∈ s.path, n.layer = v.layer) → ∀ y ∈ u.premisses t, y ∉ v.premisses t) <| by
    simp only [ProofTree.Sparing, UsedRule.premiss_iff]

theorem sparing_unmarked : t.unmarked.Sparing log ↔ t.Sparing log := by
  simp only [ProofTree.Sparing, premiss_unmarked, strands_unmarked, List.forall_mem_map, Strand.path_unmark]
  simp only [List.mem_map, exists_exists_and_eq_and]
  rfl

theorem sparing_byHand : t.Sparing (log.map UsedRule.byHand) ↔ t.Sparing log := by
  simp only [ProofTree.Sparing, List.forall_mem_map]
  rfl

/-- **Growth by moves on sentences that are not used up**: the leaf knows what was used above it. -/
theorem ProofTree.Sparing.grow (h : (plug fs (node d [])).Sparing log)
    (hb : Built (Entered ledger) root name (plug fs (node d [])) log)
    (htraced : (plug fs (node d [])).Traced log ledger)
    (hoff : Offshoot (plug fs (node d [])) d ts)
    (hmore : ∀ u ∈ more, u.layer = (plug fs (node d [])).nextLayer ∧
      ∃ y, u.Premiss (plug fs (node d [])) y ∧ d.history.contains y = false) :
    (plug fs (node d ts)).Sparing (log ++ more) := by
  have hg : Grows (plug fs (node d [])) (plug fs (node d ts)) := ⟨fs, d, ts, rfl, rfl, hoff⟩
  have hunique {u : UsedRule} {y z : Sentence} (hy : u.Premiss (plug fs (node d [])) y)
    (hz : u.Premiss (plug fs (node d ts)) z) : y = z := (hy.grow hg).unique (hg.names hb.names) hz
  intro s hs u hu v hv hlt hmadeu hmadev y hyu hyv
  -- the first of the two moves is an old one
  replace hu : u ∈ log := by
    rcases List.mem_append.1 hu with hu | hu
    · exact hu
    · have hlast := (hmore u hu).1
      rcases List.mem_append.1 hv with hv | hv
      · have := hb.layer_lt v hv
        omega
      · have := (hmore v hv).1
        omega
  have hpast {w : UsedRule} (hw : w ∈ log) (hy : w.Premiss (plug fs (node d ts)) y) :
      w.Premiss (plug fs (node d [])) y :=
    hunique (hb.premiss w hw) hy ▸ hb.premiss w hw
  rcases strand_grown_cases hs with hs | ⟨r, hr, rfl⟩
  · -- nothing has changed on the strand
    rcases List.mem_append.1 hv with hv | hv
    · exact h s hs u hu v hv hlt hmadeu hmadev y (hpast hu hyu) (hpast hv hyv)
    · obtain ⟨n, hn, hlayer⟩ := hmadev
      have := hb.rising s hs n hn
      have := (hmore v hv).1
      omega
  · -- what old moves made on the strand is above what is new
    have habove {w : UsedRule} (hw : w ∈ log) (hmade : ∃ n ∈ (r.below (fs.map (·.data) ++ [d])).path,
      n.layer = w.layer) : ∃ n ∈ fs.map (·.data) ++ [d], n.layer = w.layer := by
      obtain ⟨n, hn, hlayer⟩ := hmade
      rw [Strand.path_below] at hn
      rcases List.mem_append.1 hn with hn | hn
      · exact ⟨n, hn, hlayer⟩
      · have := hb.layer_lt w hw
        have := hoff.layer r hr n hn
        omega
    rcases List.mem_append.1 hv with hv | hv
    · exact h _ (strand_mem_plug fs d) u hu v hv hlt (habove hu hmadeu) (habove hv hmadev) y (hpast hu hyu)
        (hpast hv hyv)
    · obtain ⟨-, z, hz, hfresh⟩ := hmore v hv
      obtain rfl := hunique hz hyv
      have hknown := htraced.leaf.2 ⟨u, hu, habove hu hmadeu, hunique (hb.premiss u hu) hyu⟩
      rw [hfresh] at hknown
      cases hknown

end Sparing

namespace Proof

variable {e : Setting} {p : Proof} {st root : Sentence} {name : String} {fs : List Frame} {d : Node} {g : Growth}

/-- what grows below a leaf keeps a proof sparing if a move that is recorded for it is on
a sentence that is not used up -/
theorem Accounted.sparing (h : p.Accounted st root name) (hspare : p.tree.Sparing p.used)
    (ht : p.tree = plug fs (node d [])) (hg : ∀ b ∈ g, b ≠ []) (s : Option Sentence) {more : List UsedRule}
    (hmore : ∀ u ∈ more, u.layer = p.tree.nextLayer ∧ growth e p d g s ≠ [] ∧
      ∃ y, u.Premiss p.tree y ∧ d.history.contains y = false) :
    (plug fs (node d (growth e p d g s))).Sparing (p.used ++ more) := by
  obtain ⟨ledger, horderly, htraced⟩ := h
  have hplug : p.tree.unmarked = plug (fs.map Frame.unmark) (node d.unmark []) := by
    rw [ht, unmarked_plug]
    rfl
  rcases offshoot_growth (e := e) ht hg s with hnil | hoff
  · obtain rfl : more = [] := List.eq_nil_iff_forall_not_mem.2 fun u hu => (hmore u hu).2.1 hnil
    rw [hnil, ← ht, List.append_nil]
    exact hspare
  · have hbuilt := horderly.built
    rw [← sparing_unmarked, hplug] at hspare
    rw [← traced_unmarked, hplug] at htraced
    rw [hplug] at hbuilt hoff
    rw [← sparing_unmarked, unmarked_growth]
    refine hspare.grow hbuilt htraced hoff fun u hu => ?_
    obtain ⟨hlayer, -, y, hy, hfresh⟩ := hmore u hu
    rw [← nextLayer_unmarked, hplug] at hlayer
    rw [← premiss_unmarked, hplug] at hy
    exact ⟨hlayer, y, hy, hfresh⟩

/-- **By hand no sentence is used twice** on a branch. -/
theorem sparing_useOn (rule : String) (context : Context) (b : String) :
    Keeps (fun p => p.Accounted st root name ∧ p.tree.Sparing p.used) (useOn e rule context b) := by
  apply keeps_using
  · intro p q fs d g s hp hfound hrule
    have hspare := hp.1.sparing (e := e) hp.2 hfound.tree (useRule_full hrule).2 none (List.forall_mem_nil _)
    rw [List.append_nil] at hspare
    exact ⟨hp.1.lost hfound.tree (useRule_full hrule).2, hspare⟩
  · intro p q fs d g s hp hfound hrule hok
    have hfull := useRule_full hrule
    refine ⟨hp.1.move hfound.tree hfull hok rfl (premiss_move hfound hrule),
      hp.1.sparing hp.2 hfound.tree hfull.2 (some s) ?_⟩
    intro u hu
    rw [List.mem_singleton.1 hu]
    obtain ⟨-, -, -, -, -, -, -, hfresh, -⟩ := useRule_eq_some hrule
    refine ⟨rfl, fun hnil => hfull.1 ?_, s, premiss_move hfound hrule, hfresh⟩
    rw [← List.length_eq_zero_iff, ← length_growth hfull.2 hok (some s), hnil, List.length_nil]

theorem sparing_perform (u : UsedRule) :
    Keeps (fun p => p.Accounted st root name ∧ p.tree.Sparing p.used) (perform e u) := by
  have hjump : Keeps (fun p => p.Accounted st root name ∧ p.tree.Sparing p.used) (jump u.branch) := by
    intro p hp
    obtain ⟨b, hb⟩ := jump_frame u.branch p
    rw [hb]
    exact ⟨hp.1.goTo b, hp.2⟩
  unfold perform
  split
  · exact hjump.bind fun _ => Keeps.get.bind fun p => sparing_useOn _ _ _
  · exact Keeps.get.bind fun p => sparing_useOn _ _ _

/-! ## The whole proof -/

variable {t : ProofTree} {log : List UsedRule}

/-- every recorded move names a sentence, and a symbol that is not far from the right one -/
theorem aimsNear_of_redoes (h : Built (Redoes e) root name t log) (hspeaks : t.Speaks e.calculus) :
    ∀ u ∈ log, ∃ y, u.Premiss t y ∧ u.AimsNear e.calculus y := by
  have hstep {t t' : ProofTree} {u : UsedRule} (hg : Grows t t') (h : ∃ y, u.Premiss t y ∧ u.AimsNear e.calculus y) :
      ∃ y, u.Premiss t' y ∧ u.AimsNear e.calculus y := h.imp fun y hy => ⟨hy.1.grow hg, hy.2⟩
  induction h with
  | root => simp
  | lost _ hg ih => exact fun u hu => hstep hg (ih (hspeaks.of_grows hg) u hu)
  | move hb hg _ hredo ih =>
    intro u hu
    apply hstep hg
    rcases List.mem_append.1 hu with hu | hu
    · exact ih (hspeaks.of_grows hg) u hu
    · rw [List.mem_singleton.1 hu]
      obtain ⟨fs, d, ts, y, -, -, -, hy, hnear, -⟩ := hredo (hspeaks.of_grows hg) hb.names
      exact ⟨y, hy, hnear⟩

/-- **Moves that can all be made by hand**: the right symbols are on record, and no
sentence was used twice on a branch. -/
theorem repeats_of_redoes {ledger : Int → Sentence} (h : Built (Redoes e) root name t log)
    (hspeaks : t.Speaks e.calculus) (htraced : t.Traced log ledger) (hpremiss : ∀ u ∈ log, u.Premiss t (ledger u.layer))
    (haims : ∀ u ∈ log, ∀ y, u.Premiss t y → u.Aims e.calculus y) (hspare : t.Sparing log) :
    Built (fun t u t' => Repeats e t u.byHand t') root name t log := by
  refine h.mono_of_grown fun t₀ u t₁ hbuilt hg hu hlayer hredo hrest => ?_
  obtain ⟨log₀, hb⟩ := hbuilt
  have hspeaks₀ : t₀.Speaks e.calculus := by
    intro r hr n hn
    obtain ⟨r', hr', hbefore⟩ := exists_longer_of_grown (.head hg hrest) hr
    exact hspeaks r' hr' n (hbefore.subset hn)
  obtain ⟨fs, d, ts, y, rfl, rfl, hoff, hy, -, hredo⟩ := hredo hspeaks₀ hb.names
  have hy' := premiss_of_grown (.head hg hrest) hy
  refine hredo (haims u hu y hy') ?_
  -- what is used up at the leaf was used by a move that made a node above it
  by_contra hknown
  rw [Bool.not_eq_false] at hknown
  obtain ⟨r, hr, -⟩ := hoff.own
  obtain ⟨s, hs, more, hmore⟩ := exists_longer_of_grown hrest (below_mem_grown fs d hr)
  rw [Strand.path_below] at hmore
  have hget : s.path[fs.length]? = some d := by simp [← hmore]
  have htake : s.path.take (fs.length + 1) = fs.map (·.data) ++ [d] := by
    rw [← hmore, List.append_assoc, List.take_left' (by simp)]
  obtain ⟨v, hv, ⟨k, hk, hkv⟩, hvy⟩ := (htraced s hs _ d hget y).1 hknown
  rw [htake] at hk
  have hlt : v.layer < u.layer := by
    rw [← hkv, hlayer]
    exact hb.rising _ (strand_mem_plug fs d) k hk
  have hmade : ∃ n ∈ s.path, n.layer = u.layer :=
    ⟨r.leaf, by simp [← hmore, leaf_mem_path r], by rw [hoff.layer r hr _ (leaf_mem_path r), hlayer]⟩
  exact hspare s hs v hv u hu hlt ⟨k, by rw [← hmore]; exact List.mem_append_left _ (List.mem_append_left _ hk), hkv⟩
    hmade y (hvy ▸ hpremiss v hv) hy'

/-- the recorded moves of a proof, made one after another on a new proof of its statement, make its tree once more -/
def RemadeByHand (e : Setting) (p : Proof) : Prop :=
  ∃ p₀ q, Proof.start e p.statement = .ok p₀ ∧ exec (p.used.forM (perform e)) p₀ = (.ok (), q) ∧
    q.tree = p.tree.unmarked ∧ q.used = p.used.map UsedRule.byHand

/-- **A proof is made once more by hand** exactly if no sentence was used twice on a branch. -/
theorem remadeByHand_iff (hstart : Proof.start e p.statement = .ok (.fresh p.statement root name))
    (hname : name ∈ knownNames)
    (hsane : p.tree.Sane e.calculus) (horderly : p.Orderly (Redoes e) (fun _ _ => True) st root name [])
    (hacc : p.Accounted st root name) (hrecorded : p.tree.Recorded p.used)
    (haims : ∀ u ∈ p.used, ∀ y, u.Premiss p.tree y → u.Aims e.calculus y) : p.RemadeByHand e ↔
    p.tree.Sparing p.used := by
  constructor
  · rintro ⟨p₀, q, hp₀, hrun, htree, hused⟩
    obtain rfl := Except.ok.inj (hp₀.symm.trans hstart)
    have hfresh : (fresh p.statement root name).Accounted p.statement root name ∧
        (fresh p.statement root name).tree.Sparing (fresh p.statement root name).used := by
      refine ⟨.fresh, fun s _ u hu => ?_⟩
      cases hu
    have hkept := Keeps.forM (l := p.used) (fun u _ => sparing_perform (e := e) u) _ hfresh
    rw [hrun] at hkept
    have hspare := hkept.2
    rwa [htree, hused, sparing_byHand, sparing_unmarked] at hspare
  · intro hspare
    obtain ⟨ledger, hentered, htraced⟩ := hacc
    have hrepeats := repeats_of_redoes horderly.built (speaks_unmarked.2 hsane.means) (traced_unmarked.2 htraced)
      hentered.built.premiss (fun u hu y hy => haims u hu y (premiss_unmarked.1 hy)) (sparing_unmarked.2 hspare)
    obtain ⟨b, hb⟩ := exec_performAll (f := UsedRule.byHand) (p := .fresh p.statement root name)
      (fun _ => rfl) hrepeats hname (recorded_unmarked.2 hrecorded) rfl
    exact ⟨_, _, hstart, hb, rfl, rfl⟩

end Proof

namespace Session

variable {s : Session} {c : Calculus} {text : String} {φ : Sentence}

/-- **Moves of the solver made by hand.** Let a text be accepted as a statement, and let the solver work on the proof
that is started for it. However that ends, every move on record names a sentence of its branch, and a symbol that is the
connective which the rule decomposes, or stands before it: by the number of redundant pairs of brackets behind a
negation, and only in the calculus without signs. If the solver comes to an end and the symbols are the right ones, as
they are with signs, the moves made one by one on a new proof of the statement make the tree once more, exactly if the
solver used no sentence twice on a branch. -/
theorem solver_moves_by_hand (h : s.Accepts c text φ) :
    ∃ s₁ e p₁, exec (newProof text) s = (.ok none, s₁) ∧ s₁.setting = .ok e ∧ e.calculus = c ∧ s₁.proof = some p₁ ∧
      ∀ o p₂, exec (Proof.solve e) p₁ = (o, p₂) →
        (∀ u ∈ p₂.used, ∃ y, u.Premiss p₂.tree y ∧ u.AimsNear c y) ∧
        ∀ done, o = .ok done → (c = .unsigned → ∀ u ∈ p₂.used, ∀ y, u.Premiss p₂.tree y → u.Aims c y) →
          p₂.statement = φ ∧ (p₂.RemadeByHand e ↔ p₂.tree.Sparing p₂.used) := by
  obtain ⟨a, _, _, ha, -, hnew⟩ := exec_newProof h
  obtain ⟨ts, e, p, hts, he, -, hstart, hs₁⟩ := newProof_eq_ok hnew
  obtain rfl : Accepts.setting s c = e := Except.ok.inj (h.setting_eq.symm.trans he)
  obtain rfl : φ = .ofTokens ts := by
    obtain ⟨ts', hts', rfl⟩ := h.tokens
    rw [Except.ok.inj (hts'.symm.trans hts)]
  obtain ⟨root, hroot, hmeans⟩ := toNode_means h.hasLexer ha.negate
  obtain ⟨root', hroot', hp⟩ := of_bind_eq_ok hstart
  obtain rfl : root = root' := Except.ok.inj (hroot.symm.trans hroot')
  obtain rfl := Except.ok.inj hp
  rw [hs₁] at hnew
  set e : Setting := Accepts.setting s c
  set name := (branchNames e.accessibility []).headD ""
  have hx : e.HasLexer := h.hasLexer
  refine ⟨_, e, _, hnew, he, rfl, rfl, fun o p₂ hrun => ?_⟩
  change exec (Proof.solve e) (exec (Proof.dealClosure e name) (.fresh (.ofTokens ts) root name)).2 = (o, p₂) at hrun
  have hsane : (Proof.fresh (.ofTokens ts) root name).tree.Sane c := .root ⟨_, hmeans⟩ name
  have hredoes := Proof.keeps_solve_orderly (G := True) (Proof.picksBy_redoes hx) (fun _ => hx) (fun _ => trivial) _
    ⟨fun _ => Proof.keeps_dealClosure_sane (e := e) name _ hsane,
      Proof.keeps_dealClosure (e := e) (fun _ _ _ _ _ => trivial) name _ .fresh⟩
  have hrecalls := Proof.recalls_solve (e := e) (fun _ => hx) _
    (Proof.recalls_dealClosure (e := e) name _ ⟨fun _ => hsane, .fresh⟩)
  rw [hrun] at hredoes hrecalls
  obtain ⟨hsane₂, horderly⟩ := hredoes
  have hnear : ∀ u ∈ p₂.used, ∃ y, u.Premiss p₂.tree y ∧ u.AimsNear c y := by
    have hall := Proof.aimsNear_of_redoes horderly.built (Proof.speaks_unmarked.2 (hsane₂ trivial).means)
    simp only [premiss_unmarked] at hall
    exact hall
  refine ⟨hnear, fun done ho haims => ⟨horderly.statement, ?_⟩⟩
  have haims' : ∀ u ∈ p₂.used, ∀ y, u.Premiss p₂.tree y → u.Aims c y := by
    intro u hu y hy
    cases c with
    | unsigned => exact haims rfl u hu y hy
    | signed =>
      obtain ⟨y', hy', haim⟩ := hnear u hu
      exact hy'.unique horderly.names hy ▸ haim.of_signed
  have hstart' : Proof.start e p₂.statement = .ok (.fresh p₂.statement root name) := by
    rw [horderly.statement]
    exact hstart
  exact Proof.remadeByHand_iff hstart' (Proof.known_first e.accessibility) (hsane₂ trivial) horderly hrecalls.2
    (Proof.recorded_solve (ho ▸ hrun)) haims'

/-- the solver proves `p v ~p` in two moves, which can be made by hand -/
theorem solver_moves_by_hand_excluded_middle : signedSession.Accepts .signed "p v ~p" excludedMiddle ∧
    ∃ s₁ e p₁ p₂, exec (newProof "p v ~p") signedSession = (.ok none, s₁) ∧ s₁.setting = .ok e ∧ s₁.proof = some p₁ ∧
      exec (Proof.solve e) p₁ = (.ok true, p₂) ∧ p₂.used.length = 2 ∧ p₂.tree.Sparing p₂.used ∧ p₂.RemadeByHand e := by
  obtain ⟨s₁, e, p₁, hnew, he, -, hp₁, hsolve⟩ := solver_moves_by_hand signedSession_accepts
  have hrun : ((exec (newProof "p v ~p") signedSession).2.proof.bind fun p =>
      (exec (newProof "p v ~p") signedSession).2.setting.toOption.bind fun e =>
        (exec (Proof.solve e) p).1.toOption.map fun done => (done, (exec (Proof.solve e) p).2.used.length,
          decide ((exec (Proof.solve e) p).2.tree.Sparing (exec (Proof.solve e) p).2.used))) =
            some (true, 2, true) := by
    decide +kernel
  rw [hnew, hp₁, he] at hrun
  rcases hend : exec (Proof.solve e) p₁ with ⟨o, p₂⟩
  simp only [Option.bind_some, Except.toOption, hend] at hrun
  cases o with
  | error f => simp at hrun
  | ok done =>
    simp only [Option.map_some, Option.some.injEq, Prod.mk.injEq, decide_eq_true_eq] at hrun
    obtain ⟨rfl, hlength, hspare⟩ := hrun
    obtain ⟨-, hremade⟩ := (hsolve _ p₂ hend).2 true rfl fun h => by cases h
    exact ⟨signedSession_accepts, s₁, e, p₁, p₂, hnew, he, hp₁, hend, hlength, hspare, hremade.2 hspare⟩

end Session

end TableauTutor
