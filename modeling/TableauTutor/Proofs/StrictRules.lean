import Mathlib.Data.List.Forall2
import TableauTutor.Calculus.Closure
import TableauTutor.Proofs.Meaning

/-!
Rules used at the main connective. What a rule does to sentences is what it does to propositions: `Method.expand` is the
rule on propositions, `Method.strict_reads` says that the rule on sentences follows it.

- `strict_preserves_truth`: of every node, exactly the rule that is named for it applies, none applies exactly to
  literals, and a rule that applies preserves truth.
-/

namespace TableauTutor

/-! ## Rules on propositions -/

namespace Proposition

/-- what is negated, if the proposition is a negation -/
def negated? : Proposition → Option Proposition
  | neg a => some a
  | _ => none

/-- both sides, if the proposition is made by a connective of the given kind -/
def sides? (kind : String) : Proposition → Option (Proposition × Proposition)
  | join o a b => if o.kind = kind then some (a, b) else none
  | _ => none

/-- a side kept or negated -/
def side (keep : Bool) (a : Proposition) : Proposition := if keep then a else neg a

/-- the name of the rule that takes the proposition apart -/
def rule? : Proposition → Option String
  | var _ => none
  | neg (var _) => none
  | neg (neg _) => some "double not"
  | neg (join o _ _) => some ("false " ++ o.kind)
  | join o _ _ => some ("true " ++ o.kind)

end Proposition

/-- the branches that a proposition falls into -/
def Decomposition.expand (d : Decomposition) (a : Proposition) : Option (List (List Proposition)) :=
  ((if d.whole then some a else a.negated?).bind (·.sides? d.main)).map fun (l, r) =>
    d.arrange (l.side d.first) (r.side d.second)

def Method.expand : Method → Proposition → Option (List (List Proposition))
  | .doubleNegation, a => (a.negated?.bind (·.negated?)).map fun b => [[b]]
  | .decomposition d, a => d.expand a

theorem Decomposition.expand_eq_some {d : Decomposition} {a : Proposition} {bs : List (List Proposition)} :
    d.expand a = some bs ↔ ∃ o l r, a = Proposition.side d.whole (.join o l r) ∧ o.kind = d.main ∧
      bs = d.arrange (l.side d.first) (r.side d.second) := by
  have hsides {a : Proposition} {p : Proposition × Proposition} :
      a.sides? d.main = some p ↔ ∃ o, a = .join o p.1 p.2 ∧ o.kind = d.main := by
    cases a with
    | var x => simp [Proposition.sides?]
    | neg a => simp [Proposition.sides?]
    | join o l r =>
      obtain ⟨p, q⟩ := p
      simp only [Proposition.sides?, Option.ite_none_right_eq_some, Option.some.injEq, Prod.mk.injEq,
        Proposition.join.injEq]
      constructor
      · rintro ⟨hk, rfl, rfl⟩
        exact ⟨o, ⟨rfl, rfl, rfl⟩, hk⟩
      · rintro ⟨o', ⟨rfl, rfl, rfl⟩, hk⟩
        exact ⟨hk, rfl, rfl⟩
  have hneg {a b : Proposition} : a.negated? = some b ↔ a = .neg b := by cases a <;> simp [Proposition.negated?]
  unfold Decomposition.expand Proposition.side
  cases d.whole <;> simp [Option.bind_eq_some_iff, hsides, hneg] <;> grind

/-! ## Rules on sentences -/

namespace Sentence

variable {s : Sentence} {a : Proposition}

theorem Reads.evenBrackets (h : s.Reads a) : s.evenBrackets = true := by
  have hcount : s.count "(" = s.count ")" := by
    induction a generalizing s with
    | var x =>
      obtain ⟨rfl, hx, -⟩ := h.var_eq
      simp [hx.not_bracket]
    | neg a ih =>
      obtain ⟨y, n, t, rfl, hy, -, ht, -⟩ := h.neg_eq
      simp [Sentence.wrapped, List.count_replicate, hy.not_bracket, ih ht, Nat.add_comm]
    | join o a b iha ihb =>
      obtain ⟨y, m, n, l, r, rfl, hy, -, hl, hr, -⟩ := h.join_eq
      simp [Sentence.wrapped, List.count_replicate, hy.not_bracket, iha hl, ihb hr]
      omega
  simp [Sentence.evenBrackets, hcount]

theorem Reads.length_pos (h : s.Reads a) : 0 < s.length := by
  have := h.1.hasSymbol
  cases s with
  | nil => simp [HasSymbol] at this
  | cons => simp

theorem length_le_wrapped (n : Nat) (s : Sentence) : s.length ≤ (s.wrapped n).length := by
  simp only [wrapped, List.length_append, List.length_replicate]
  omega

theorem Reads.one_lt_length (h : s.Reads a) (ha : ∀ x, a ≠ .var x) : ¬ s.length ≤ 1 := by
  cases a with
  | var x => exact absurd rfl (ha x)
  | neg a =>
    obtain ⟨y, n, t, rfl, -, -, ht, -⟩ := h.neg_eq
    have := ht.length_pos
    have := length_le_wrapped n t
    simp only [List.length_cons]
    omega
  | join o a b =>
    obtain ⟨y, m, n, l, r, rfl, -, -, hl, -⟩ := h.join_eq
    have := hl.length_pos
    have := length_le_wrapped m l
    simp only [List.length_append, List.length_cons]
    omega

theorem Reads.length_var {x : Symbol} (h : s.Reads (.var x)) : s.length ≤ 1 := by
  obtain ⟨rfl, -⟩ := h.var_eq
  exact Nat.le_refl 1

theorem Reads.argument (h : s.Reads a) : ∃ r, s.argument "not" = .ok r ∧ Option.Rel Reads r a.negated? := by
  cases a with
  | var x => exact ⟨none, by simp [Sentence.argument, h.length_var, pure_ok], .none⟩
  | neg a =>
    have hlen := h.one_lt_length (by simp)
    obtain ⟨y, n, t, -, hy, hk, ht, -, hparts⟩ := h.neg_eq
    refine ⟨some t, ?_, .some ht⟩
    simp [Sentence.argument, hlen, hparts, hy.startsWith_not.1, hk, pure_ok]
  | join o a b =>
    have hlen := h.one_lt_length (by simp)
    obtain ⟨y, m, n, l, r, -, hy, hk, -, -, -, hparts⟩ := h.join_eq
    have hne : o.kind ≠ "not" := by cases o <;> decide
    refine ⟨none, ?_, .none⟩
    simp [Sentence.argument, hlen, hparts, hy.startsWith_not.1, hk, hne, pure_ok]

theorem reducePart_reads {r : Option Sentence} {e : Option Proposition} (h : Option.Rel Reads r e) :
    reducePart r = .ok r := by
  cases h with
  | none => rfl
  | some h => simp [reducePart, h.reduce, Functor.map, Except.map]

theorem Reads.peel (h : s.Reads a) : ∃ r, s.peel "not" = .ok r ∧ Option.Rel Reads r a.negated? := by
  obtain ⟨r, hr, hrel⟩ := h.argument
  exact ⟨r, by simp [Sentence.peel, hr, reducePart_reads hrel], hrel⟩

theorem Reads.withoutPrefix (h : s.Reads a) : ∃ r, s.withoutPrefix "not" = .ok r ∧ Option.Rel Reads r a.negated? := by
  obtain ⟨r, hr, hrel⟩ := h.argument
  refine ⟨r, ?_, hrel⟩
  simp only [Sentence.withoutPrefix, hr, ok_bind]
  generalize a.negated? = e at hrel
  cases hrel with
  | none => rfl
  | some ht => simp [ht.reduce, ht.evenBrackets, pure_ok]

theorem Reads.around (h : s.Reads a) (kind : String) :
    ∃ r, s.around kind = .ok r ∧ Option.Rel (fun p q => p.1.Reads q.1 ∧ p.2.Reads q.2) r (a.sides? kind) := by
  cases a with
  | var x =>
    refine ⟨none, ?_, .none⟩
    simp [Sentence.around, sides, h.length_var, pure_ok]
  | neg a =>
    have hlen := h.one_lt_length (by simp)
    obtain ⟨y, n, t, -, hy, hk, ht, -, hparts⟩ := h.neg_eq
    refine ⟨none, ?_, .none⟩
    by_cases hkind : "not" = kind
    · subst hkind
      simp [Sentence.around, sides, hlen, hparts, hk, reducePart, ht.reduce, pure_ok,
        Functor.map, Except.map]
    · simp [Sentence.around, sides, hlen, hparts, hk, hkind, pure_ok]
  | join o a b =>
    have hlen := h.one_lt_length (by simp)
    obtain ⟨y, m, n, l, r, -, hy, hk, hl, hr, -, hparts⟩ := h.join_eq
    by_cases hkind : o.kind = kind
    · refine ⟨some (l, r), ?_, by rw [Proposition.sides?, if_pos hkind]; exact .some ⟨hl, hr⟩⟩
      simp [Sentence.around, sides, hlen, hparts, hk, hkind, reducePart, hl.reduce, hr.reduce, pure_ok,
        Functor.map, Except.map]
    · refine ⟨none, ?_, by rw [Proposition.sides?, if_neg hkind]; exact .none⟩
      simp [Sentence.around, sides, hlen, hparts, hk, hkind, pure_ok]

theorem Reads.side (h : s.Reads a) (keep : Bool) : (Decomposition.side keep s).Reads (a.side keep) := by
  cases keep with
  | true => exact h
  | false => exact h.1.negate

end Sentence

/-- branches of sentences that say what branches of propositions do -/
abbrev BranchesRead : List (List Sentence) → List (List Proposition) → Prop :=
  List.Forall₂ (List.Forall₂ Sentence.Reads)

theorem arrange_read {d : Decomposition} {l r : Sentence} {a b : Proposition} (hl : l.Reads a) (hr : r.Reads b) :
    BranchesRead (d.arrange l r) (d.arrange a b) := by
  unfold Decomposition.arrange
  split
  · exact .cons (.cons hl .nil) (.cons (.cons hr .nil) .nil)
  · exact .cons (.cons hl (.cons hr .nil)) .nil

variable {s : Sentence} {a : Proposition}

theorem Decomposition.core_reads (d : Decomposition) (h : s.Reads a) :
    ∃ r, d.core s = .ok r ∧ Option.Rel Sentence.Reads r (if d.whole then some a else a.negated?) := by
  unfold Decomposition.core
  cases d.whole with
  | true => exact ⟨some s, rfl, .some h⟩
  | false => exact h.withoutPrefix

/-- a decomposition takes a sentence apart as it takes apart what the sentence says -/
theorem Decomposition.strict_reads (d : Decomposition) (h : s.Reads a) :
    ∃ r, d.strict s = .ok r ∧ Option.Rel BranchesRead r (d.expand a) := by
  obtain ⟨t, ht, hcore⟩ := d.core_reads h
  simp only [Decomposition.strict, Decomposition.expand, ht, ok_bind]
  generalize (if d.whole then some a else a.negated?) = e at hcore
  cases hcore with
  | none => exact ⟨none, rfl, .none⟩
  | @some t b hb =>
    obtain ⟨r, hr, hsides⟩ := hb.around d.main
    simp only [hr, Option.bind_some]
    generalize b.sides? d.main = q at hsides
    cases hsides with
    | none => exact ⟨none, rfl, .none⟩
    | some hlr => exact ⟨_, rfl, .some (arrange_read (hlr.1.side _) (hlr.2.side _))⟩

theorem undouble_reads (h : s.Reads a) :
    ∃ r, Calculus.undouble s = .ok r ∧ Option.Rel Sentence.Reads r (a.negated?.bind (·.negated?)) := by
  obtain ⟨r, hr, hrel⟩ := h.peel
  simp only [Calculus.undouble, hr, ok_bind]
  generalize a.negated? = e at hrel
  cases hrel with
  | none => exact ⟨none, rfl, .none⟩
  | some hb => exact hb.peel

/-- **Rules on sentences** follow the rules on propositions. -/
theorem Method.strict_reads (m : Method) (h : s.Reads a) :
    ∃ r, Calculus.Method.strict m s = .ok r ∧ Option.Rel BranchesRead r (m.expand a) := by
  cases m with
  | doubleNegation =>
    obtain ⟨r, hr, hrel⟩ := undouble_reads h
    simp only [Calculus.Method.strict, Method.expand, hr, ok_bind]
    generalize a.negated?.bind (·.negated?) = e at hrel
    cases hrel with
    | none => exact ⟨none, rfl, .none⟩
    | some hb => exact ⟨_, rfl, .some (.cons (.cons hb .nil) .nil)⟩
  | decomposition d => exact d.strict_reads h

/-- rules take a negated formula apart in the same way, however the negation is spelled -/
theorem Method.strict_behind (m : Method) {t : Sentence} (ht : t.Reads a) (l l' : String) :
    Calculus.Method.strict m (t.behind (.of "not" l)) = Calculus.Method.strict m (t.behind (.of "not" l')) := by
  have hreads (l : String) := Calculus.parts_behind ht (Sentence.isLetter_not l) (Sentence.kind_not l)
  have hargument (l : String) : (t.behind (.of "not" l)).argument "not" = .ok (some t) := by
    simp [Sentence.argument, (hreads l).1.one_lt_length (by simp), (hreads l).2,
      (Sentence.isLetter_not l).startsWith_not.1, Sentence.kind_not l, pure_ok]
  cases m with
  | doubleNegation => simp only [Calculus.Method.strict, Calculus.undouble, Sentence.peel, hargument]
  | decomposition d =>
    have haround (l : String) : (t.behind (.of "not" l)).around d.main = .ok none := by
      obtain ⟨r, hr, hrel⟩ := (hreads l).1.around d.main
      change Option.Rel _ r none at hrel
      cases hrel
      exact hr
    cases hwhole : d.whole with
    | true => simp [Calculus.Method.strict, Decomposition.strict, Decomposition.core, hwhole, haround, pure_ok]
    | false =>
      simp [Calculus.Method.strict, Decomposition.strict, Decomposition.core, hwhole, Sentence.withoutPrefix, hargument]

/-! ## Rules on nodes -/

theorem exists_of_forall₂ {α β : Type} {R : α → β → Prop} {xs : List α} {ys : List β} (h : List.Forall₂ R xs ys) {y : α}
    (hy : y ∈ xs) : ∃ z ∈ ys, R y z := by
  induction h with
  | nil => simp at hy
  | cons hr _ ih =>
    rcases List.mem_cons.1 hy with rfl | hy
    · exact ⟨_, List.mem_cons_self, hr⟩
    · obtain ⟨z, hz, hyz⟩ := ih hy
      exact ⟨z, List.mem_cons_of_mem _ hz, hyz⟩

namespace Calculus

variable {c : Calculus} {x x' : Lexer}

/-- branches of nodes that say what branches of propositions do -/
abbrev BranchesMean (c : Calculus) : List (List Sentence) → List (List Proposition) → Prop :=
  List.Forall₂ (List.Forall₂ c.Means)

theorem mapM_mapM_toNode (hx : c.HasLexer x) {bs : List (List Sentence)} {ps : List (List Proposition)}
    (h : BranchesRead bs ps) : ∃ ns, (bs.mapM fun b => b.mapM (c.toNode x)) = .ok ns ∧ c.BranchesMean ns ps :=
  mapM_of_forall₂ h fun _ _ hb => mapM_of_forall₂ hb fun _ _ => toNode_means hx

/-- a rule takes a formula apart into nodes that say what the rule makes of it -/
theorem strict_of_reads (hx : c.HasLexer x) (m : Method) {p : Sentence} (hp : c.toPlain x s = .ok p) (h : p.Reads a) :
    ∃ r, c.strict x m s = .ok r ∧ Option.Rel c.BranchesMean r (m.expand a) := by
  obtain ⟨r, hr, hrel⟩ := m.strict_reads h
  simp only [strict, hp, hr, ok_bind]
  generalize m.expand a = e at hrel
  cases hrel with
  | none => exact ⟨none, rfl, .none⟩
  | some hb =>
    obtain ⟨ns, hns, hall⟩ := mapM_mapM_toNode hx hb
    exact ⟨some ns, by simp only [hns]; rfl, .some hall⟩

/-- **Rules on nodes** follow the rules on propositions. -/
theorem strict_means (hx : c.HasLexer x) (m : Method) (h : c.Means s a) :
    ∃ r, c.strict x m s = .ok r ∧ Option.Rel c.BranchesMean r (m.expand a) := by
  obtain ⟨p, hp, hread, -⟩ := toPlain_reads hx h
  exact strict_of_reads hx m hp hread

/-- **However negations are spelled**, a rule makes the same of a node. -/
theorem strict_congr (hx : c.HasLexer x) (hx' : c.HasLexer x') (m : Method) (h : c.Means s a) :
    c.strict x m s = c.strict x' m s := by
  have hmethod : ∃ p p', c.toPlain x s = .ok p ∧ c.toPlain x' s = .ok p' ∧ p.Reads a ∧
      Method.strict m p = Method.strict m p' := by
    cases c with
    | unsigned => exact ⟨s, s, rfl, rfl, h, rfl⟩
    | signed =>
      obtain ⟨t, ⟨rfl, ht, hneg⟩ | ⟨b, rfl, ht, rfl⟩⟩ := h
      · exact ⟨t, t, unsign_true x t, unsign_true x' t, ht, rfl⟩
      · obtain ⟨l, hl⟩ := unsign_false hx t
        obtain ⟨l', hl'⟩ := unsign_false hx' t
        exact ⟨_, _, hl, hl', (parts_behind ht (Sentence.isLetter_not l) (Sentence.kind_not l)).1,
          Method.strict_behind m ht l l'⟩
  obtain ⟨p, p', hp, hp', hread, hsame⟩ := hmethod
  obtain ⟨r, hr, hrel⟩ := m.strict_reads hread
  simp only [strict, hp, hp', ← hsame, hr, ok_bind]
  generalize m.expand a = e at hrel
  cases hrel with
  | none => rfl
  | @some bs _ hb =>
    have hnodes : ∀ b ∈ bs, b.mapM (c.toNode x) = b.mapM (c.toNode x') := fun b hb' => mapM_congr fun t ht => by
      obtain ⟨ps, -, hps⟩ := exists_of_forall₂ hb hb'
      obtain ⟨q, -, hq⟩ := exists_of_forall₂ hps ht
      exact toNode_congr hx hx' hq
    simp only [mapM_congr hnodes]

/-! ## The rule that applies -/

theorem ruleForPlain_reads (h : s.Reads a) : ruleForPlain s = .ok a.rule? := by
  have hnot : ∀ o : Junctor, o.kind ≠ "not" := fun o => by cases o <;> decide
  cases a with
  | var x => simp [ruleForPlain, h.parts_var.2, Proposition.rule?, pure_ok]
  | neg a =>
    obtain ⟨y, n, t, -, hy, hk, ht, -, hparts⟩ := h.neg_eq
    simp only [ruleForPlain, hparts, hy.startsWith_not.2, hk, decide_true, if_true, ok_bind]
    cases a with
    | var x => simp [ht.parts_var.2, Proposition.rule?, pure_ok]
    | neg a =>
      obtain ⟨z, m, u, -, hz, hkz, -, -, hpz⟩ := ht.neg_eq
      simp [hpz, hz.startsWith_not.2, hkz, Proposition.rule?, pure_ok]
    | join o a b =>
      obtain ⟨z, m, k, l, r, -, hz, hkz, -, -, -, hpz⟩ := ht.join_eq
      simp [hpz, hz.startsWith_not.2, hkz, hnot, Proposition.rule?, pure_ok]
  | join o a b =>
    obtain ⟨y, m, n, l, r, -, hy, hk, -, -, -, hparts⟩ := h.join_eq
    simp [ruleForPlain, hparts, hy.startsWith_not.2, hk, hnot, Proposition.rule?, pure_ok]

theorem ruleFor_means (hx : c.HasLexer x) (h : c.Means s a) : c.ruleFor x s = .ok a.rule? := by
  obtain ⟨p, hp, hread, -⟩ := toPlain_reads hx h
  simp [ruleFor, hp, ruleForPlain_reads hread]

theorem rule?_eq_none (a : Proposition) : a.rule? = none ↔ a.isLiteral = true := by
  rcases a with x | (x | a | ⟨o, a, b⟩) | ⟨o, a, b⟩ <;> simp [Proposition.rule?, Proposition.isLiteral]

theorem isFinal_means (h : c.Means s a) : c.isFinal s = .ok a.isLiteral := by
  cases c with
  | unsigned => exact Sentence.Reads.isLiteral h
  | signed =>
    have hvar {t : Sentence} {z : Symbol} (ht : t.Reads (.var z)) (y : Symbol) : signed.isFinal (y :: t) =
        .ok true := by
      have hpos := ht.length_pos
      have hlen := ht.length_var
      simp only [isFinal, List.length_cons, pure_ok, Except.ok.injEq, beq_iff_eq]
      omega
    have hother {t : Sentence} {b : Proposition} (ht : t.Reads b) (hb : ∀ z, b ≠ .var z) (y : Symbol) :
        signed.isFinal (y :: t) = .ok false := by
      have hlen := ht.one_lt_length hb
      simp only [isFinal, List.length_cons, pure_ok, Except.ok.injEq, beq_eq_false_iff_ne]
      omega
    obtain ⟨t, ⟨rfl, ht, hneg⟩ | ⟨b, rfl, ht, rfl⟩⟩ := h
    · cases a with
      | var z => exact hvar ht _
      | neg b => exact absurd rfl (hneg b)
      | join o b d => exact hother ht (by simp) _
    · cases b with
      | var z => exact hvar ht _
      | neg b => exact hother ht (by simp) _
      | join o b d => exact hother ht (by simp) _

/-- the rules with what they do -/
def ruleMethods : List (String × Method) :=
  [("double not", .doubleNegation), ("true and", .decomposition ⟨"and", true, true, true, false⟩),
   ("false or", .decomposition ⟨"or", false, false, false, false⟩),
   ("false imp", .decomposition ⟨"imp", true, false, false, false⟩),
   ("true or", .decomposition ⟨"or", true, true, true, true⟩),
   ("false and", .decomposition ⟨"and", false, false, false, true⟩),
   ("true imp", .decomposition ⟨"imp", false, true, true, true⟩)]

theorem ruleMethods_names : ruleMethods.map (·.1) = ruleNames := by decide

theorem method?_of_mem {name : String} {m : Method} (h : (name, m) ∈ ruleMethods) : method? name = some m := by
  have : ∀ r ∈ ruleMethods, method? r.1 = some r.2 := by decide +kernel
  exact this _ h

theorem mem_of_method? {name : String} {m : Method} (h : method? name = some m) : (name, m) ∈ ruleMethods := by
  have hname : name ∈ ruleNames := by
    unfold method? at h
    split at h
    · rename_i h1
      rw [h1]
      decide
    · split at h
      · rename_i h2
        simpa using h2
      · simp at h
  rw [← ruleMethods_names] at hname
  obtain ⟨⟨name', m'⟩, hmem, rfl⟩ := List.mem_map.1 hname
  have := (method?_of_mem hmem).symm.trans h
  rw [Option.some.injEq] at this
  exact this ▸ hmem

/-- the rule with a name takes apart exactly the propositions that the name is given to -/
theorem expand_isSome {name : String} {m : Method} (h : (name, m) ∈ ruleMethods) (a : Proposition) :
    (m.expand a).isSome ↔ a.rule? = some name := by
  simp only [ruleMethods, List.mem_cons, Prod.mk.injEq, List.not_mem_nil, or_false] at h
  rcases h with ⟨rfl, rfl⟩ | ⟨rfl, rfl⟩ | ⟨rfl, rfl⟩ | ⟨rfl, rfl⟩ | ⟨rfl, rfl⟩ | ⟨rfl, rfl⟩ | ⟨rfl, rfl⟩ <;>
    rcases a with x | (x | a | ⟨_ | _ | _, a, b⟩) | ⟨_ | _ | _, a, b⟩ <;>
    simp [Method.expand, Decomposition.expand, Proposition.negated?, Proposition.sides?,
      Proposition.rule?, Junctor.kind]

/-- a rule leads to one branch, or to two with one proposition each -/
theorem expand_shape {m : Method} {a : Proposition} {bs : List (List Proposition)} (hbs : m.expand a = some bs) :
    (∃ b, b ≠ [] ∧ bs = [b]) ∨ ∃ l r, bs = [[l], [r]] := by
  cases m with
  | doubleNegation =>
    obtain ⟨b, -, rfl⟩ := Option.map_eq_some_iff.1 hbs
    exact .inl ⟨[b], by simp, rfl⟩
  | decomposition d =>
    obtain ⟨o, l, r, -, -, rfl⟩ := Decomposition.expand_eq_some.1 hbs
    unfold Decomposition.arrange
    split
    · exact .inr ⟨_, _, rfl⟩
    · exact .inl ⟨_, by simp, rfl⟩

/-- **A rule preserves truth**: what it takes apart is true exactly if all is true on one of the branches. -/
theorem eval_expand {name : String} {m : Method} (h : (name, m) ∈ ruleMethods) {a : Proposition}
    {bs : List (List Proposition)} (hbs : m.expand a = some bs) (v : Symbol → Bool) :
    a.eval v = true ↔ ∃ b ∈ bs, ∀ p ∈ b, p.eval v = true := by
  simp only [ruleMethods, List.mem_cons, Prod.mk.injEq, List.not_mem_nil, or_false] at h
  rcases h with ⟨rfl, rfl⟩ | ⟨rfl, rfl⟩ | ⟨rfl, rfl⟩ | ⟨rfl, rfl⟩ | ⟨rfl, rfl⟩ | ⟨rfl, rfl⟩ | ⟨rfl, rfl⟩
  · rcases a with x | (x | a | ⟨o, a, b⟩) | ⟨o, a, b⟩ <;>
      simp [Method.expand, Proposition.negated?] at hbs
    subst hbs
    simp [Proposition.eval]
  all_goals
    obtain ⟨o, l, r, rfl, hk, rfl⟩ := Decomposition.expand_eq_some.1 hbs
    cases o <;> simp [Junctor.kind] at hk
    simp [Proposition.side, Proposition.eval, Junctor.eval, Decomposition.arrange]

/-- nodes on one of the branches are true together exactly if what they say is -/
theorem holds_branches {ns : List (List Sentence)} {ps : List (List Proposition)} (h : c.BranchesMean ns ps)
    (v : Symbol → Bool) : (∃ b ∈ ns, ∀ t ∈ b, c.Holds v t) ↔ ∃ b ∈ ps, ∀ p ∈ b, p.eval v = true := by
  have hall {n : List Sentence} {p : List Proposition} (h : List.Forall₂ c.Means n p) :
      (∀ t ∈ n, c.Holds v t) ↔ ∀ a ∈ p, a.eval v = true := by
    induction h with
    | nil => simp
    | cons h _ ih => simp [h.holds_iff, ih]
  induction h with
  | nil => simp
  | cons h _ ih => simp [hall h, ih]

theorem nodeForm_branches {ns : List (List Sentence)} {ps : List (List Proposition)} (h : c.BranchesMean ns ps) :
    ∀ b ∈ ns, ∀ t ∈ b, c.NodeForm t := by
  have hall {n : List Sentence} {p : List Proposition} (h : List.Forall₂ c.Means n p) : ∀ t ∈ n, c.NodeForm t := by
    induction h with
    | nil => simp
    | cons h _ ih => simpa [nodeForm_iff.2 ⟨_, h⟩] using ih
  induction h with
  | nil => simp
  | cons h _ ih => exact List.forall_mem_cons.2 ⟨hall h, ih⟩

/-- **Strict rules.** For every node: no rule is named for it exactly if it is final; a rule applies at its main
connective exactly if it is the one named for it; and then the node is true exactly if all nodes of one of the new
branches are, all of which are nodes of the calculus again. -/
theorem strict_preserves_truth (hx : c.HasLexer x) (hs : c.NodeForm s) :
    (∃ rule final, c.ruleFor x s = .ok rule ∧ c.isFinal s = .ok final ∧ (rule = none ↔ final = true)) ∧
      ∀ name ∈ ruleNames, ∃ m r, method? name = some m ∧ c.strict x m s = .ok r ∧
        (r ≠ none ↔ c.ruleFor x s = .ok (some name)) ∧
        ∀ branches, r = some branches →
          (∀ v, c.Holds v s ↔ ∃ b ∈ branches, ∀ t ∈ b, c.Holds v t) ∧ ∀ b ∈ branches, ∀ t ∈ b, c.NodeForm t := by
  obtain ⟨a, ha⟩ := nodeForm_iff.1 hs
  have hrule := ruleFor_means hx ha
  refine ⟨⟨_, _, hrule, isFinal_means ha, rule?_eq_none a⟩, fun name hname => ?_⟩
  rw [← ruleMethods_names] at hname
  obtain ⟨⟨name, m⟩, hmem, rfl⟩ := List.mem_map.1 hname
  obtain ⟨r, hr, hrel⟩ := strict_means hx m ha
  refine ⟨m, r, method?_of_mem hmem, hr, ?_, ?_⟩
  · rw [hrule, Except.ok.injEq, ← expand_isSome hmem a]
    generalize m.expand a = e at hrel
    cases hrel <;> simp
  · rintro branches rfl
    generalize he : m.expand a = e at hrel
    cases hrel with
    | some hb =>
      refine ⟨fun v => ?_, nodeForm_branches hb⟩
      rw [ha.holds_iff, holds_branches hb, eval_expand hmem he]

/-- `F ~p v q` in the signed calculus: the rule "false or" puts both sides, held to be false, on one branch -/
theorem strict_preserves_truth_false_or :
    let s := [falseSign, .of "not" "~", .of "sentvar" "p", .of "or" "v", .of "sentvar" "q"]
    ∃ x m branches, signed.HasLexer x ∧ method? "false or" = some m ∧ signed.strict x m s = .ok (some branches) ∧
      (∀ v, signed.Holds v s ↔ ∃ b ∈ branches, ∀ t ∈ b, signed.Holds v t) ∧
      ∀ b ∈ branches, ∀ t ∈ b, signed.NodeForm t := by
  intro s
  obtain ⟨x, hx⟩ := signed.exists_lexer
  have hin : Sentence.InLanguage (s.drop 1) := Sentence.inLanguage_of_symbols (by decide)
  have hreads : Sentence.Reads (s.drop 1)
      (.join .disj (.neg (.var (.of "sentvar" "p"))) (.var (.of "sentvar" "q"))) := by
    have hsp : Spelling .propositional (.binary (Symbol.of "or" "v").toToken
        (.unary (Symbol.of "not" "~").toToken (.atom (Symbol.of "sentvar" "p").toToken))
        (.atom (Symbol.of "sentvar" "q").toToken)) false (Sentence.tokens (s.drop 1)) :=
      .binary (p := 3) ⟨⟨by decide, by decide⟩, by decide, by decide⟩
        (.unary (p := 4) ⟨⟨by decide, by decide⟩, by decide, by decide⟩ (.atom ⟨⟨by decide, by decide⟩, by decide⟩)
          (.inr (by decide)))
        (.atom ⟨⟨by decide, by decide⟩, by decide⟩) (.inr (by decide)) (.inr (by decide))
    exact ⟨⟨hin, _, ⟨false, hsp⟩, by decide⟩, hsp.not_enclosed⟩
  have hmeans : signed.Means s (.neg _) := ⟨_, .inr ⟨_, rfl, hreads, rfl⟩⟩
  obtain ⟨-, hrules⟩ := strict_preserves_truth hx (nodeForm_iff.2 ⟨_, hmeans⟩)
  obtain ⟨m, r, hm, hr, hiff, hbranches⟩ := hrules "false or" (by decide)
  obtain ⟨branches, rfl⟩ := Option.ne_none_iff_exists'.1 (hiff.2 (ruleFor_means hx hmeans))
  exact ⟨x, m, branches, hx, hm, hr, hbranches branches rfl⟩

end Calculus

end TableauTutor
