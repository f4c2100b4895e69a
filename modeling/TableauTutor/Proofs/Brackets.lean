import TableauTutor.Formula.Components
import TableauTutor.Proofs.Computations

/-!
Brackets without a partner. What a list of tokens leaves unmatched is a number of right brackets that
nothing opens followed by a number of left brackets that nothing closes, its `residue`; residues of
lists that follow one another join.

- `reduceBrackets_completes`: reducing gives a balanced list, and putting enclosing pairs back gives the list completed
  by the fewest brackets at its ends.
- `reduceBrackets_bare`: reducing a balanced list leaves no pair around the whole.
- `part_bare`: a part of a formula is the completed list without enclosing pairs.
-/

namespace TableauTutor

/-! ## Residues -/

/-- brackets without a partner: right ones that nothing opens, then left ones that nothing closes -/
structure Residue where
  unopened : Nat
  unclosed : Nat
deriving DecidableEq, Repr

namespace Residue

/-- what is left when one list of tokens follows another: left brackets of the first meet right ones of the second -/
def join (x y : Residue) : Residue :=
  ⟨x.unopened + (y.unopened - x.unclosed), y.unclosed + (x.unclosed - y.unopened)⟩

theorem join_assoc (x y z : Residue) : (x.join y).join z = x.join (y.join z) := by
  simp only [join, mk.injEq]
  omega

@[simp] theorem zero_join (x : Residue) : join ⟨0, 0⟩ x = x := by simp [join]

@[simp] theorem join_zero (x : Residue) : x.join ⟨0, 0⟩ = x := by simp [join]

def ofToken (t : Token) : Residue :=
  if t = Token.leftBracket then ⟨0, 1⟩ else if t = Token.rightBracket then ⟨1, 0⟩ else ⟨0, 0⟩

@[simp] theorem ofToken_left : ofToken Token.leftBracket = ⟨0, 1⟩ := rfl

@[simp] theorem ofToken_right : ofToken Token.rightBracket = ⟨1, 0⟩ := rfl

end Residue

/-- the brackets of a list of tokens that have no partner in it -/
def residue : List Token → Residue
  | [] => ⟨0, 0⟩
  | t :: ts => (Residue.ofToken t).join (residue ts)

@[simp] theorem residue_nil : residue [] = ⟨0, 0⟩ := rfl

@[simp] theorem residue_cons (t : Token) (ts : List Token) :
    residue (t :: ts) = (Residue.ofToken t).join (residue ts) := rfl

@[simp] theorem residue_append (u v : List Token) : residue (u ++ v) = (residue u).join (residue v) := by
  induction u with
  | nil => simp
  | cons t u ih => simp only [List.cons_append, residue_cons, ih, Residue.join_assoc]

@[simp] theorem residue_replicate_left (n : Nat) : residue (List.replicate n Token.leftBracket) = ⟨0, n⟩ := by
  induction n with
  | zero => rfl
  | succ n ih => simp [List.replicate_succ, ih, Residue.join]

@[simp] theorem residue_replicate_right (n : Nat) : residue (List.replicate n Token.rightBracket) = ⟨n, 0⟩ := by
  induction n with
  | zero => rfl
  | succ n ih => simp [List.replicate_succ, ih, Residue.join, Nat.add_comm]

/-- every bracket has its partner -/
def Balanced (ts : List Token) : Prop := residue ts = ⟨0, 0⟩

/-- one pair of brackets encloses the whole -/
def Enclosed (ts : List Token) : Prop :=
  ∃ inner, ts = Token.leftBracket :: inner ++ [Token.rightBracket] ∧ Balanced inner

/-- n pairs of brackets put around a list of tokens -/
def wrap (n : Nat) (ts : List Token) : List Token :=
  List.replicate n Token.leftBracket ++ ts ++ List.replicate n Token.rightBracket

@[simp] theorem wrap_zero (ts : List Token) : wrap 0 ts = ts := by simp [wrap]

theorem wrap_succ (n : Nat) (ts : List Token) :
    wrap (n + 1) ts = Token.leftBracket :: wrap n ts ++ [Token.rightBracket] := by
  simp [wrap, List.replicate_succ, ← List.replicate_succ']

theorem wrap_wrap (m n : Nat) (ts : List Token) : wrap m (wrap n ts) = wrap (m + n) ts := by
  induction m with
  | zero => simp
  | succ m ih => rw [wrap_succ, ih, Nat.succ_add, ← wrap_succ]

theorem residue_wrap (n : Nat) (ts : List Token) :
    residue (wrap n ts) = ((Residue.mk 0 n).join (residue ts)).join ⟨n, 0⟩ := by
  simp [wrap, Residue.join_assoc]

theorem Balanced.wrap {ts : List Token} (h : Balanced ts) (n : Nat) : Balanced (wrap n ts) := by
  unfold Balanced at h ⊢
  rw [residue_wrap, h]
  simp [Residue.join]

theorem enclosed_wrap_succ {ts : List Token} (h : Balanced ts) (n : Nat) : Enclosed (wrap (n + 1) ts) :=
  ⟨_, wrap_succ n ts, h.wrap n⟩

theorem wrap_injective {n : Nat} {u v : List Token} (h : wrap n u = wrap n v) : u = v := by
  unfold wrap at h
  exact List.append_cancel_left (List.append_cancel_right h)

theorem wrap_eq_wrap {m n : Nat} {u v : List Token} (hu : Balanced u) (hu' : ¬ Enclosed u) (hv : Balanced v)
    (hv' : ¬ Enclosed v) (h : wrap m u = wrap n v) : u = v := by
  rcases Nat.lt_trichotomy m n with hlt | rfl | hlt
  · obtain ⟨k, rfl⟩ : ∃ k, n = m + (k + 1) := ⟨n - m - 1, by omega⟩
    rw [← wrap_wrap] at h
    exact absurd (wrap_injective h ▸ enclosed_wrap_succ hv k) hu'
  · exact wrap_injective h
  · obtain ⟨k, rfl⟩ : ∃ k, m = n + (k + 1) := ⟨m - n - 1, by omega⟩
    rw [← wrap_wrap] at h
    exact absurd (wrap_injective h ▸ enclosed_wrap_succ hu k) hv'

/-- the fewest brackets put in front and at the end that leave none without a partner -/
def complete (ts : List Token) : List Token :=
  List.replicate (residue ts).unopened Token.leftBracket ++ ts ++
    List.replicate (residue ts).unclosed Token.rightBracket

theorem balanced_complete (ts : List Token) : Balanced (complete ts) := by
  simp [Balanced, complete, Residue.join]

theorem complete_of_balanced {ts : List Token} (h : Balanced ts) : complete ts = ts := by
  unfold Balanced at h
  simp [complete, h]

/-! ## Counting -/

/-- the counts after some tokens have been read say what is unmatched in them -/
def BracketsRead (b : Formula.BracketCount) (r : Residue) : Prop :=
  b.surplus = r.unopened ∧ b.right ≤ b.left + b.surplus ∧ b.left + b.surplus - b.right = r.unclosed

theorem bracketsRead_step {b : Formula.BracketCount} {r : Residue} (h : BracketsRead b r) (t : Token) :
    BracketsRead (b.step t) (r.join (Residue.ofToken t)) := by
  obtain ⟨h1, h2, h3⟩ := h
  unfold BracketsRead Formula.BracketCount.step Residue.ofToken Residue.join
  split
  · simp only
    omega
  · split
    · simp only
      omega
    · simp only
      omega

theorem bracketsRead_foldl (ts : List Token) {b : Formula.BracketCount} {r : Residue} (h : BracketsRead b r) :
    BracketsRead (ts.foldl Formula.BracketCount.step b) (r.join (residue ts)) := by
  induction ts generalizing b r with
  | nil => simpa using h
  | cons t ts ih =>
    rw [List.foldl_cons, residue_cons, ← Residue.join_assoc]
    exact ih (bracketsRead_step h t)

theorem countBrackets_residue (ts : List Token) : BracketsRead (Formula.countBrackets ts) (residue ts) := by
  have h := bracketsRead_foldl (b := {}) (r := ⟨0, 0⟩) ts ⟨rfl, Nat.le_refl _, rfl⟩
  rwa [Residue.zero_join] at h

/-! ## Dropping enclosing pairs -/

/-- some token is no bracket -/
def HasSymbol (ts : List Token) : Prop := ∃ t ∈ ts, t ≠ Token.leftBracket ∧ t ≠ Token.rightBracket

theorem hasSymbol_inner {inner : List Token} (h : HasSymbol (Token.leftBracket :: inner ++ [Token.rightBracket])) :
    HasSymbol inner := by
  obtain ⟨t, ht, hl, hr⟩ := h
  simp only [List.cons_append, List.mem_cons, List.mem_append, List.not_mem_nil, or_false] at ht
  rcases ht with rfl | ht | rfl
  · exact absurd rfl hl
  · exact ⟨t, ht, hl, hr⟩
  · exact absurd rfl hr

theorem HasSymbol.of_wrap {n : Nat} {ts : List Token} (h : HasSymbol (wrap n ts)) : HasSymbol ts := by
  induction n with
  | zero => simpa using h
  | succ n ih => exact ih (hasSymbol_inner (wrap_succ n ts ▸ h))

theorem HasSymbol.wrap {ts : List Token} (h : HasSymbol ts) (n : Nat) : HasSymbol (wrap n ts) := by
  obtain ⟨t, ht, hne⟩ := h
  exact ⟨t, by simp [TableauTutor.wrap, ht], hne⟩

theorem HasSymbol.complete {ts : List Token} (h : HasSymbol ts) : HasSymbol (complete ts) := by
  obtain ⟨t, ht, hne⟩ := h
  exact ⟨t, by simp [TableauTutor.complete, ht], hne⟩

/-- a list that starts with a left bracket and ends with a right one, partners or not -/
def Flanked (ts : List Token) : Prop :=
  ts.head? = some Token.leftBracket ∧ ts.getLast? = some Token.rightBracket

theorem flanked_inner {t : Token} {ts : List Token} (ht : t = Token.leftBracket)
    (hl : (t :: ts).getLast? = some Token.rightBracket) :
    t :: ts = Token.leftBracket :: ts.dropLast ++ [Token.rightBracket] := by
  subst ht
  cases ts with
  | nil => simp [Token.leftBracket, Token.rightBracket, Token.literal] at hl
  | cons u us =>
    rw [List.getLast?_cons_cons, List.getLast?_eq_some_iff] at hl
    obtain ⟨vs, hvs⟩ := hl
    simp [hvs]

/-- stripping takes pairs off the ends until there is a token other than a bracket at one of them -/
theorem stripPairs_wrap {ts : List Token} (h : HasSymbol ts) :
    ∃ n core, Formula.stripPairs ts = .ok (n, core) ∧ ts = wrap n core ∧ ¬ Flanked core := by
  fun_induction Formula.stripPairs ts with
  | case1 => obtain ⟨t, ht, -⟩ := h; simp at ht
  | case2 t ts hf ih =>
    have hts := flanked_inner hf.1 hf.2
    obtain ⟨n, core, hn, hcore, hflank⟩ := ih (hasSymbol_inner (hts ▸ h))
    refine ⟨n + 1, core, by rw [hn]; rfl, ?_, hflank⟩
    rw [hts, wrap_succ, ← hcore]
  | case3 t ts hf => exact ⟨0, t :: ts, rfl, by simp, fun hfl => hf ⟨by simpa using hfl.1, hfl.2⟩⟩

variable {σ : Type}

/-- the tokens that reducing leaves of a stripped list -/
theorem reduceBrackets_tokens {f : Formula σ} (h : HasSymbol f.tokens) (h2 : 2 ≤ f.tokens.length) :
    ∃ n core g, f.reduceBrackets = .ok g ∧ f.tokens = wrap n core ∧ ¬ Flanked core ∧ g.tokens = complete core ∧
      (f.remembered = [] → g.remembered = []) := by
  obtain ⟨n, core, hstrip, hcore, hflank⟩ := stripPairs_wrap h
  obtain ⟨h1, -, h3⟩ := countBrackets_residue core
  have hred : f.reduceBrackets = .ok {
      tokens := complete core
      remembered := mapKeys (· - ((n : Int) - (residue core).unopened)) f.remembered } := by
    rw [Formula.reduceBrackets, if_neg (by omega), hstrip]
    simp only [ok_bind, pure_ok, h1, ← h3, complete]
  refine ⟨n, core, _, hred, hcore, hflank, rfl, fun hr => ?_⟩
  simp [hr, mapKeys, tableOf]

/-- completing first and taking off pairs afterwards gives the same as reducing, up to further pairs -/
theorem complete_wrap (n : Nat) (core : List Token) : ∃ k, complete (wrap n core) = wrap k (complete core) := by
  have hr := residue_wrap n core
  rcases hc : residue core with ⟨a, b⟩
  rcases hw : residue (wrap n core) with ⟨a', b'⟩
  simp only [hc, hw, Residue.join, Residue.mk.injEq] at hr
  obtain ⟨k, hka, hkb⟩ : ∃ k, a' + n = k + a ∧ n + b' = b + k := ⟨a' + n - a, by omega, by omega⟩
  refine ⟨k, ?_⟩
  simp only [complete, hc, hw]
  unfold wrap
  simp only [← List.append_assoc, List.replicate_append_replicate, hka]
  simp only [List.append_assoc, List.replicate_append_replicate, hkb]

/-- the one token of a list with no room for a pair is no bracket -/
theorem balanced_of_short {ts : List Token} (h : HasSymbol ts) (h2 : ts.length < 2) :
    Balanced ts ∧ ¬ Enclosed ts := by
  obtain ⟨t, ht, hl, hr⟩ := h
  match ts, h2 with
  | [u], _ =>
    simp only [List.mem_singleton] at ht
    subst ht
    refine ⟨by simp [Balanced, Residue.ofToken, hl, hr], ?_⟩
    rintro ⟨inner, hin, -⟩
    simp at hin

/-- **Reducing completes.** Whatever the arrangement of brackets, reducing gives a balanced list; with enclosing pairs
put back it is the list completed by the fewest brackets at its ends. -/
theorem reduceBrackets_completes {f : Formula σ} (h : HasSymbol f.tokens) :
    ∃ g, f.reduceBrackets = .ok g ∧ Balanced g.tokens ∧ (∃ k, complete f.tokens = wrap k g.tokens) ∧
      (f.remembered = [] → g.remembered = []) := by
  by_cases h2 : f.tokens.length < 2
  · have hb := (balanced_of_short h h2).1
    refine ⟨⟨f.tokens, []⟩, by rw [Formula.reduceBrackets, if_pos h2], hb, ⟨0, ?_⟩, fun _ => rfl⟩
    rw [complete_of_balanced hb, wrap_zero]
  · obtain ⟨n, core, g, hg, hcore, -, hgt, hrem⟩ := reduceBrackets_tokens h (by omega)
    refine ⟨g, hg, hgt ▸ balanced_complete core, ?_, hrem⟩
    rw [hcore, hgt]
    exact complete_wrap n core

/-- a completed list that is balanced when stripped by its core has no pair around it -/
theorem complete_bare {core : List Token} (hflank : ¬ Flanked core)
    (hnet : (residue core).unopened = (residue core).unclosed) : ¬ Enclosed (complete core) := by
  rintro ⟨inner, hin, hbal⟩
  cases hs : (residue core).unopened with
  | zero =>
    have hcore : complete core = core := complete_of_balanced (by
      unfold Balanced
      rw [show residue core = ⟨(residue core).unopened, (residue core).unclosed⟩ from rfl, ← hnet, hs])
    rw [hcore] at hin
    exact hflank ⟨by simp [hin], by rw [hin, List.getLast?_concat]⟩
  | succ s =>
    -- the surplus of the core is one more than the brackets that would be left in front of it
    have hc : complete core = wrap (s + 1) core := by simp only [complete, wrap, ← hnet, hs]
    rw [hc, wrap_succ] at hin
    have hinner : inner = wrap s core := by
      have := List.append_cancel_right hin
      simpa using this.symm
    unfold Balanced at hbal
    rw [hinner, residue_wrap] at hbal
    simp only [Residue.join, hs, Residue.mk.injEq] at hbal
    omega

theorem residue_of_wrap_balanced {n : Nat} {core : List Token} (h : Balanced (wrap n core)) :
    (residue core).unopened = (residue core).unclosed := by
  unfold Balanced at h
  rw [residue_wrap] at h
  simp only [Residue.join, Residue.mk.injEq] at h
  omega

/-- **Reducing a balanced list** takes off exactly the pairs around the whole. -/
theorem reduceBrackets_bare {f : Formula σ} (h : HasSymbol f.tokens) (hb : Balanced f.tokens) :
    ∃ g, f.reduceBrackets = .ok g ∧ Balanced g.tokens ∧ ¬ Enclosed g.tokens ∧ (∃ k, f.tokens = wrap k g.tokens) ∧
      (f.remembered = [] → g.remembered = []) := by
  by_cases h2 : f.tokens.length < 2
  · refine ⟨⟨f.tokens, []⟩, by rw [Formula.reduceBrackets, if_pos h2], hb, (balanced_of_short h h2).2,
      ⟨0, by simp⟩, fun _ => rfl⟩
  · obtain ⟨n, core, g, hg, hcore, hflank, hgt, hrem⟩ := reduceBrackets_tokens h (by omega)
    have hnet := residue_of_wrap_balanced (hcore ▸ hb)
    refine ⟨g, hg, hgt ▸ balanced_complete core, hgt ▸ complete_bare hflank hnet, ?_, hrem⟩
    obtain ⟨k, hk⟩ := complete_wrap n core
    exact ⟨k, by rw [hgt, ← hk, ← hcore, complete_of_balanced hb]⟩

/-- of a balanced list in any number of pairs, reducing leaves the list without those around the whole -/
theorem reduceBrackets_wrap {ts : List Token} (h : HasSymbol ts) (hb : Balanced ts) (he : ¬ Enclosed ts) (n : Nat) :
    Formula.reduceBrackets (⟨wrap n ts, []⟩ : Formula σ) = .ok ⟨ts, []⟩ := by
  obtain ⟨⟨us, rem⟩, hg, hb', he', ⟨k, hk⟩, hrem⟩ := reduceBrackets_bare (f := ⟨wrap n ts, []⟩) (h.wrap n) (hb.wrap n)
  have : ts = us := wrap_eq_wrap hb he hb' he' hk
  obtain rfl : rem = [] := hrem rfl
  rw [hg, this]

theorem reduceBrackets_self {ts : List Token} (h : HasSymbol ts) (hb : Balanced ts) (he : ¬ Enclosed ts) :
    Formula.reduceBrackets (⟨ts, []⟩ : Formula σ) = .ok ⟨ts, []⟩ := by
  simpa using reduceBrackets_wrap h hb he 0

/-- **A part of a formula** is the list completed by the fewest brackets, without the pairs around the whole. -/
theorem part_bare {ts : List Token} (h : HasSymbol ts) :
    ∃ us, Formula.part (σ := σ) ts [] = .ok (some ⟨us, []⟩) ∧ Balanced us ∧ ¬ Enclosed us ∧
      ∃ k, complete ts = wrap k us := by
  obtain ⟨⟨vs, rem⟩, hg, hb, ⟨j, hj⟩, hrem⟩ := reduceBrackets_completes (f := (⟨ts, []⟩ : Formula σ)) h
  obtain rfl : rem = [] := hrem rfl
  have hv : HasSymbol vs := HasSymbol.of_wrap (n := j) (hj ▸ h.complete)
  obtain ⟨⟨us, rem'⟩, hg', hb', he', ⟨k, hk⟩, hrem'⟩ := reduceBrackets_bare (f := (⟨vs, []⟩ : Formula σ)) hv hb
  obtain rfl : rem' = [] := hrem' rfl
  refine ⟨us, ?_, hb', he', j + k, ?_⟩
  · have hne : ts.isEmpty = false := by
      obtain ⟨t, ht, -⟩ := h
      cases ts with
      | nil => simp at ht
      | cons => rfl
    simp only [Formula.part, hne, Bool.false_eq_true, if_false, hg, hg', ok_bind, pure_ok]
  · rw [← wrap_wrap, ← hk, ← hj]

end TableauTutor
