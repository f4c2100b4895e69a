import TableauTutor.Proofs.Reading

/-!
Cutting a formula. A formula that is cut at any two-place connective falls into two formulas, once brackets without a
partner are given one. The cut need not be at the main connective; but if one of the two parts says what the side of the
main connective says, then it is.

- `Expresses.cut`: both parts are formulas.
- `Reads.splitAt_eq`: what the parts of a cut say.
-/

namespace TableauTutor

/-- one for every symbol that is no bracket -/
def letterCount (kind : String) : Nat := if kind = "(" ∨ kind = ")" then 0 else 1

namespace Sentence

open Outline

theorem depth_of_step {x y : ReaderState} {m : Mark} (h : x.step? m = some y) :
    (m = .left ∧ y.depth = x.depth + 1) ∨ (m = .right ∧ x.depth = y.depth + 1) ∨
      (m ≠ .left ∧ m ≠ .right ∧ y.depth = x.depth) := by
  obtain ⟨_ | _, _ | depth⟩ := x <;> cases m <;> simp only [ReaderState.step?, reduceCtorEq, Option.some.injEq] at h <;>
    subst h <;> simp

theorem isSymbol_of_isLetter {y : Symbol} (h : y.IsLetter) : Connectives.IsSymbol y.toToken := by
  rw [Connectives.IsSymbol, h.toToken]
  rcases Symbol.letterKinds_cases h.kind_mem with hk | hk | hk | hk | hk <;> simp [hk]

/-- one symbol read changes the brackets that are open as it changes those without a partner -/
theorem residue_of_step {z : Symbol} (hz : z.InLanguage) {m : Mark} (hm : Mark.ofSymbol? z = some m) {x y : ReaderState}
    (h : x.step? m = some y) : (Residue.mk 0 x.depth).join (Residue.ofToken z.toToken) = ⟨0, y.depth⟩ := by
  have hdescribes := describes_of_mark hz hm
  rcases depth_of_step h with ⟨rfl, hy⟩ | ⟨rfl, hy⟩ | ⟨hl, hr, hy⟩
  · obtain rfl : z = "(" := hdescribes
    simp [Residue.join, hy, Nat.add_comm]
  · obtain rfl : z = ")" := hdescribes
    simp [Residue.join, hy]
  · have hletter : z.IsLetter := by
      cases m with
      | left => exact absurd rfl hl
      | right => exact absurd rfl hr
      | atom => exact hdescribes.1
      | unary => exact hdescribes.1
      | binary => exact hdescribes.1
    rw [residue_ofToken_symbol (isSymbol_of_isLetter hletter), Residue.join_zero, hy]

/-- while a sentence is read, the brackets that are open are those without a partner -/
theorem residue_of_reader {s : Sentence} (hs : s.InLanguage) {x y : ReaderState} (h : reader? x s.outline = some y) :
    (Residue.mk 0 x.depth).join (residue s.tokens) = ⟨0, y.depth⟩ := by
  induction s generalizing x with
  | nil =>
    obtain rfl : x = y := Option.some.inj h
    simp
  | cons z s ih =>
    obtain ⟨hz, hs⟩ := hs.of_cons
    obtain ⟨m, hm⟩ := exists_mark hz
    rw [outline, List.filterMap_cons_some hm, ← outline, reader?, Option.bind_eq_some_iff] at h
    obtain ⟨x', hstep, hrest⟩ := h
    rw [tokens_cons, residue_cons, ← Residue.join_assoc, residue_of_step hz hm hstep, ih hs hrest]

theorem reader_close (d : Nat) : reader? ⟨false, d⟩ (List.replicate d .right) = some ⟨false, 0⟩ := by
  induction d with
  | zero => rfl
  | succ d ih => simpa [List.replicate_succ, reader?, ReaderState.step?] using ih

theorem reader_open (k d : Nat) : reader? ⟨true, k⟩ (List.replicate d .left) = some ⟨true, k + d⟩ := by
  induction d generalizing k with
  | zero => rfl
  | succ d ih =>
    simpa [List.replicate_succ, reader?, ReaderState.step?, Nat.add_right_comm, Nat.add_assoc] using ih (k + 1)

theorem exists_expresses {s : Sentence} (hs : s.InLanguage) (h : Accepts s.outline) : ∃ a, s.Expresses a := by
  rw [← checkSyntax_iff_expresses hs, checkSyntax_eq_none]
  exact accepts_iff.1 h

theorem Expresses.reads_of_head? {s : Sentence} {a : Proposition} (h : s.Expresses a) (hfirst : s.head? ≠ some "(") :
    s.Reads a := by
  obtain ⟨_ | k, t, rfl, ht⟩ := h.exists_reads
  · rwa [wrapped_zero]
  · exact absurd (by simp [wrapped, List.replicate_succ]) hfirst

theorem outline_append (s t : Sentence) : outline (s ++ t) = s.outline ++ t.outline := List.filterMap_append

theorem tokens_replicate (n : Nat) (y : Symbol) : tokens (List.replicate n y) = List.replicate n y.toToken := by
  rw [tokens, List.map_replicate]

theorem measure_replicate (f : String → Nat) (n : Nat) (y : Symbol) :
    measure f (List.replicate n y) = n * f y.kind := by
  simp [measure]

theorem inLanguage_append {s t : Sentence} (hs : s.InLanguage) (ht : t.InLanguage) : InLanguage (s ++ t) := by
  intro y hy
  rcases List.mem_append.1 hy with hy | hy
  · exact hs y hy
  · exact ht y hy

/-- a part whose brackets get their partners is taken out as a formula, with the letters that it has -/
theorem exists_part_completed {u : Sentence} {m n : Nat} {b : Proposition} (hres : residue u.tokens = ⟨m, n⟩)
    (hb : Expresses (List.replicate m "(" ++ u ++ List.replicate n ")") b) :
    ∃ l : Sentence, Formula.part (σ := Rat) u.tokens [] = .ok (some ⟨l.tokens, []⟩) ∧ l.Reads b ∧
      b.measure letterCount = u.measure letterCount := by
  have hcomplete : complete u.tokens = tokens (List.replicate m "(" ++ u ++ List.replicate n ")") := by
    simp [complete, hres, tokens_replicate]
  have hsymbol : HasSymbol u.tokens := by
    obtain ⟨t, ht, hne⟩ := hb.hasSymbol
    simp only [tokens_append, tokens_replicate, List.mem_append] at ht
    rcases ht with (ht | ht) | ht
    · exact absurd (List.eq_of_mem_replicate ht) hne.1
    · exact ⟨t, ht, hne⟩
    · exact absurd (List.eq_of_mem_replicate ht) hne.2
  obtain ⟨l, k, hpart, hwrap, hl⟩ := part_reads hsymbol hcomplete hb
  refine ⟨l, hpart, hl, ?_⟩
  have hmeasure := congrArg (measure letterCount) hwrap
  rw [measure_append, measure_append, measure_replicate, measure_replicate, measure_wrapped (by decide) (by decide),
    hl.measure (by decide) (by decide)] at hmeasure
  have hbracket : letterCount (Symbol.kind "(") = 0 ∧ letterCount (Symbol.kind ")") = 0 := by decide
  simpa [hbracket] using hmeasure.symm

/-- what stands before a connective, with the brackets closed that are open there, is a formula -/
theorem exists_part_before {u : Sentence} (hu : u.InLanguage) {d : Nat} (h : reader? {} u.outline = some ⟨false, d⟩) :
    ∃ (l : Sentence) (b : Proposition), Formula.part (σ := Rat) u.tokens [] = .ok (some ⟨l.tokens, []⟩) ∧ l.Reads b ∧
      b.measure letterCount = u.measure letterCount := by
  have hbrackets : InLanguage (List.replicate d ")") := fun y hy => .inr (.inl (List.eq_of_mem_replicate hy))
  obtain ⟨b, hb⟩ := exists_expresses (inLanguage_append hu hbrackets) (by
    rw [Accepts, outline_append, reader?_append, h, Option.bind_some]
    simpa [outline, List.filterMap_replicate, mark_right] using reader_close d)
  have hres : residue u.tokens = ⟨0, d⟩ := by simpa using residue_of_reader hu h
  obtain ⟨l, hl⟩ := exists_part_completed hres hb
  exact ⟨l, b, hl⟩

/-- what stands behind a connective, with the brackets opened that are closed there, is a formula -/
theorem exists_part_behind {v : Sentence} (hv : v.InLanguage) {d : Nat}
    (h : reader? ⟨true, d⟩ v.outline = some ⟨false, 0⟩) :
    ∃ (r : Sentence) (c : Proposition), Formula.part (σ := Rat) v.tokens [] = .ok (some ⟨r.tokens, []⟩) ∧ r.Reads c ∧
      c.measure letterCount = v.measure letterCount := by
  have hbrackets : InLanguage (List.replicate d "(") := fun y hy => .inl (List.eq_of_mem_replicate hy)
  obtain ⟨c, hc⟩ := exists_expresses (inLanguage_append hbrackets hv) (by
    rw [Accepts, outline_append, reader?_append]
    have hopen := reader_open 0 d
    rw [Nat.zero_add] at hopen
    simpa [outline, List.filterMap_replicate, mark_left, hopen] using h)
  have hres : residue v.tokens = ⟨d, 0⟩ := by
    have := residue_of_reader hv h
    generalize residue v.tokens = r at this
    obtain ⟨unopened, unclosed⟩ := r
    simp only [Residue.join, Residue.mk.injEq] at this ⊢
    omega
  obtain ⟨r, hr⟩ := exists_part_completed hres (by simpa using hc)
  exact ⟨r, c, hr⟩

/-- **Cutting a formula** at a two-place connective: what stands before it and what stands behind it are formulas, once
the brackets that lost their partner are given one. -/
theorem Expresses.cut {u v : Sentence} {y : Symbol} {a : Proposition} (h : Expresses (u ++ y :: v) a)
    (hy : Mark.ofSymbol? y = some .binary) :
    ∃ (l r : Sentence) (b c : Proposition), Formula.part (σ := Rat) u.tokens [] = .ok (some ⟨l.tokens, []⟩) ∧
      Formula.part (σ := Rat) v.tokens [] = .ok (some ⟨r.tokens, []⟩) ∧ l.Reads b ∧ r.Reads c ∧
      b.measure letterCount = u.measure letterCount ∧ c.measure letterCount = v.measure letterCount := by
  obtain ⟨hin, tree, ⟨closed, htree⟩, -⟩ := h
  obtain ⟨hu, hyv⟩ := hin.of_append
  obtain ⟨-, hv⟩ := hyv.of_cons
  have hread : Accepts (outline (u ++ y :: v)) := accepts_iff.2 (isFormula_of_spelling hin htree)
  have hcons : outline (y :: v) = .binary :: v.outline := List.filterMap_cons_some hy
  rw [Accepts, outline_append, reader?_append, hcons, Option.bind_eq_some_iff] at hread
  obtain ⟨x, hx, hrest⟩ := hread
  rw [reader?, Option.bind_eq_some_iff] at hrest
  obtain ⟨x', hstep, hrest⟩ := hrest
  -- a connective stands where no argument is expected
  obtain ⟨_ | _, d⟩ := x
  · obtain rfl : ⟨true, d⟩ = x' := Option.some.inj hstep
    obtain ⟨l, b, hl, hlb, hb⟩ := exists_part_before hu hx
    obtain ⟨r, c, hr, hrc, hc⟩ := exists_part_behind hv hrest
    exact ⟨l, r, b, c, hl, hr, hlb, hrc, hb, hc⟩
  · simp [ReaderState.step?] at hstep

theorem letterCount_pos {y : Symbol} (hy : y.IsLetter) : 0 < letterCount y.kind := by
  rcases Symbol.letterKinds_cases hy.kind_mem with hk | hk | hk | hk | hk <;> (rw [hk]; decide)

theorem eq_of_measure_eq {u u' v v' : Sentence} {y z : Symbol} (hy : y.IsLetter) (hz : z.IsLetter)
    (h : u ++ y :: v = u' ++ z :: v')
    (hm : measure letterCount u = measure letterCount u' ∨ measure letterCount v = measure letterCount v') :
    u = u' ∧ v = v' := by
  have hypos := letterCount_pos hy
  have hzpos := letterCount_pos hz
  rcases List.append_eq_append_iff.1 h with ⟨w, rfl, hw⟩ | ⟨w, rfl, hw⟩
  · cases w with
    | nil => simp_all
    | cons x w =>
      obtain ⟨rfl, rfl⟩ : y = x ∧ v = w ++ z :: v' := by simpa using hw
      simp only [measure_append, measure_cons] at hm
      omega
  · cases w with
    | nil => simp_all
    | cons x w =>
      obtain ⟨rfl, rfl⟩ : z = x ∧ v' = w ++ y :: v := by simpa using hw
      simp only [measure_append, measure_cons] at hm
      omega

end Sentence

/-- two parts of a proposition of which both or none are its sides -/
def Proposition.Cut (a b c : Proposition) : Prop := ∀ o l r, a = .join o l r → b = l ∨ c = r → b = l ∧ c = r

namespace Sentence

theorem part_unique {u l : Sentence} {a b : Proposition} (hu : u.Expresses a) (hl : l.Reads b)
    (h : Formula.part (σ := Rat) u.tokens [] = .ok (some ⟨l.tokens, []⟩)) : b = a := by
  obtain ⟨t, n, ht, -, hta⟩ := part_reads hu.hasSymbol (complete_of_balanced hu.balanced) hu
  rw [ht] at h
  obtain rfl : t = l := tokens_injective (by simpa using h)
  exact hl.unique hta

/-- **A formula cut at a two-place connective**: the parts are formulas, and if one of them says what a side of the main
connective says, then both do. -/
theorem Reads.splitAt_eq {u v : Sentence} {y : Symbol} {a : Proposition} (h : Reads (u ++ y :: v) a)
    (hy : Mark.ofSymbol? y = some .binary) :
    ∃ (l r : Sentence) (b c : Proposition), splitAt (u ++ y :: v) u.length = .ok (some l, some r) ∧
    l.Reads b ∧ r.Reads c ∧ a.Cut b c := by
  obtain ⟨l, r, b, c, hl, hr, hlb, hrc, hb, hc⟩ := h.1.cut hy
  refine ⟨l, r, b, c, ?_, hlb, hrc, ?_⟩
  · have hsplit := split_append u.tokens v.tokens y.toToken
    have hlen : u.tokens.length = u.length := List.length_map _
    rw [hl, hr, ← tokens_cons, ← tokens_append, hlen] at hsplit
    rw [splitAt, ofFormula_eq_ok]
    change Except.map _ (Formula.split ⟨tokens (u ++ y :: v), []⟩ u.length) = _
    rw [hsplit]
    simp [Except.map, pure_ok]
  · rintro o p q rfl heq
    obtain ⟨z, m, n, l', r', hs, hz, -, hl', hr', -⟩ := h.join_eq
    have hyl : y.IsLetter := (describes_of_mark (h.1.1 y (by simp)) hy).1
    -- the cut is at the main connective, since as many letters stand on one side
    have hsame : Sentence.measure letterCount u = (l'.wrapped m).measure letterCount ∨
        Sentence.measure letterCount v = (r'.wrapped n).measure letterCount := by
      rw [measure_wrapped (by decide) (by decide), measure_wrapped (by decide) (by decide),
        hl'.measure (by decide) (by decide), hr'.measure (by decide) (by decide), ← hb, ← hc]
      rcases heq with rfl | rfl
      · exact .inl rfl
      · exact .inr rfl
    obtain ⟨rfl, rfl⟩ := eq_of_measure_eq hyl hz hs hsame
    exact ⟨part_unique (hl'.wrapped m) hlb hl, part_unique (hr'.wrapped n) hrc hr⟩

end Sentence

end TableauTutor
