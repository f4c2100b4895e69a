import Mathlib.Algebra.Order.Field.Basic
import Mathlib.Algebra.Order.Ring.Rat
import Mathlib.Data.Rat.Cast.Order
import TableauTutor.Proofs.SyntaxTree

/-!
Unique readability. In a regular language the main connective, found by comparing strengths over the flat list of
tokens, is the root of the tree that the list spells, and the parts on either side of it spell the subtrees.

- `components_of_spells`: taking a spelling apart gives the root and spellings of the subtrees, and taking it apart
  again and again rebuilds the tree.
-/

namespace TableauTutor

/-! ## Positions -/

theorem pick?_natCast {α : Type} (xs : List α) (n : Nat) : pick? xs (n : Int) = xs[n]? := by
  unfold pick? resolve?
  rw [if_pos (Int.natCast_nonneg n)]
  by_cases h : n < xs.length
  · rw [if_pos (by omega)]
    simp
  · rw [if_neg (by omega)]
    simp [List.getElem?_eq_none (Nat.le_of_not_lt h)]

theorem clamp_natCast {n k : Nat} (h : k ≤ n) : clamp n 0 n (k : Int) = k := by
  unfold clamp
  simp only [Int.natCast_nonneg, Int.not_lt.2, if_neg, not_false_eq_true]
  rw [if_neg (by omega)]

theorem cut_front {α : Type} (xs : List α) {n : Nat} (h : n ≤ xs.length) :
    cut xs none (some (n : Int)) = xs.take n := by
  simp [cut, clamp_natCast h]

theorem cut_back {α : Type} (xs : List α) {n : Nat} (h : n ≤ xs.length) : cut xs (some (n : Int)) none = xs.drop n := by
  simp [cut, clamp_natCast h]

/-! ## Comparing strengths -/

namespace Connectives

/-- what precedences are divided by; one when there are none -/
def scale (c : Connectives) : Int := c.scale?.getD 1

variable {c : Connectives}

theorem mem_of_lookup {k : String} {p : Int} (h : c.precedence.lookup k = some p) : (k, p) ∈ c.precedence := by
  obtain ⟨l₁, l₂, h, -⟩ := List.lookup_eq_some_iff.1 h
  simp [h]

/-- in a regular language the precedences are a proper part of the scale -/
theorem Regular.scale_bounds (hc : c.Regular) {k : String} {p : Int} (h : c.precedence.lookup k = some p) :
    c.scale? = some c.scale ∧ 0 ≤ p ∧ p < c.scale := by
  have hmem := mem_of_lookup h
  have hp : p ∈ c.precedence.map (·.2) := List.mem_map.2 ⟨_, hmem, rfl⟩
  unfold scale scale?
  cases hmax : (c.precedence.map (·.2)).max? with
  | none => rw [List.max?_eq_none_iff] at hmax; rw [hmax] at hp; simp at hp
  | some m =>
    have := (List.max?_eq_some_iff.1 hmax).2 p hp
    refine ⟨rfl, hc.nonneg k p hmem, ?_⟩
    simp only [Option.map_some, Option.getD_some]
    omega

theorem Regular.strength_eq (hc : c.Regular) {k : String} {p : Int} (h : c.precedence.lookup k = some p) (d : Int) :
    Formula.strength c k d = .ok (Strength.measure d p c.scale : Rat) := by
  obtain ⟨hs, h0, hlt⟩ := hc.scale_bounds h
  simp only [Formula.strength, h, hs]
  rw [if_neg (by omega)]

end Connectives

theorem measure_mono {d p q s : Int} (hs : 0 < s) (h : p ≤ q) :
    (Strength.measure d p s : Rat) ≤ Strength.measure d q s := by
  show (d : Rat) + p / s ≤ d + q / s
  have h1 : (p : Rat) / s ≤ q / s := div_le_div_of_nonneg_right (by exact_mod_cast h) (by exact_mod_cast hs.le)
  grind

theorem measure_strictMono {d p q s : Int} (hs : 0 < s) (h : p < q) :
    (Strength.measure d p s : Rat) < Strength.measure d q s := by
  show (d : Rat) + p / s < d + q / s
  have h1 : (p : Rat) / s < q / s := div_lt_div_of_pos_right (by exact_mod_cast h) (by exact_mod_cast hs)
  grind

theorem measure_lt_of_depth {d d' p q s : Int} (hd : d < d') (hp : p < s) (hq : 0 ≤ q) (hs : 0 < s) :
    (Strength.measure d p s : Rat) < Strength.measure d' q s := by
  show (d : Rat) + p / s < d' + q / s
  have h1 : (p : Rat) / s < 1 := by
    rw [div_lt_one (by exact_mod_cast hs)]
    exact_mod_cast hp
  have h2 : (0 : Rat) ≤ q / s := div_nonneg (by exact_mod_cast hq) (by exact_mod_cast hs.le)
  have h3 : (d : Rat) + 1 ≤ d' := by exact_mod_cast hd
  grind

/-- equal strengths at the same depth or deeper are those of one depth and one precedence -/
theorem measure_inj {d d' p q s : Int} (hd : d ≤ d') (hp : p < s) (hq : 0 ≤ q) (hs : 0 < s)
    (h : (Strength.measure d p s : Rat) = Strength.measure d' q s) : d' = d ∧ q = p := by
  rcases Int.lt_or_eq_of_le hd with hlt | rfl
  · exact absurd h (measure_lt_of_depth hlt hp hq hs).ne
  · refine ⟨rfl, ?_⟩
    rcases Int.lt_trichotomy p q with hlt | rfl | hlt
    · exact absurd h (measure_strictMono hs hlt).ne
    · rfl
    · exact absurd h (measure_strictMono hs hlt).ne'

/-! ## The table of a spelling -/

/-- the strengths that the tokens of a list have when the first stands at position i and depth d, the list closing all
the brackets it opens; each is that of a connective of the list, at depth d or deeper -/
structure Tabulates (c : Connectives) (w : List Token) (i d : Int) (table : List (Int × Rat)) : Prop where
  reads : ∀ ks, Formula.strengthsFrom c i d (w.map (·.kind) ++ ks) =
    (Formula.strengthsFrom c (i + w.length) d ks).map (table ++ ·)
  entries : ∀ e ∈ table, ∃ (n : Nat) (tok : Token) (d' p : Int), e.1 = i + n ∧ w[n]? = some tok ∧
    c.precedence.lookup tok.kind = some p ∧ d ≤ d' ∧ e.2 = Strength.measure d' p c.scale

namespace Tabulates

variable {c : Connectives} {u v w : List Token} {i d : Int} {A B : List (Int × Rat)}

theorem append (hu : Tabulates c u i d A) (hv : Tabulates c v (i + u.length) d B) :
    Tabulates c (u ++ v) i d (A ++ B) := by
  refine ⟨fun ks => ?_, fun e he => ?_⟩
  · have hlen : i + u.length + v.length = i + (u ++ v).length := by rw [List.length_append]; omega
    rw [List.map_append, List.append_assoc, hu.reads, hv.reads, hlen]
    cases Formula.strengthsFrom (σ := Rat) c (i + (u ++ v).length) d ks <;> simp [Except.map]
  · rcases List.mem_append.1 he with he | he
    · obtain ⟨n, tok, d', p, h1, h2, h3⟩ := hu.entries e he
      refine ⟨n, tok, d', p, h1, ?_, h3⟩
      rw [List.getElem?_append_left (List.getElem?_eq_some_iff.1 h2).1]
      exact h2
    · obtain ⟨n, tok, d', p, h1, h2, h3⟩ := hv.entries e he
      refine ⟨u.length + n, tok, d', p, by omega, ?_, h3⟩
      rw [List.getElem?_append_right (Nat.le_add_right _ _), Nat.add_sub_cancel_left]
      exact h2

theorem atom {a : Token} (ha : c.IsAtom a) : Tabulates c [a] i d [] := by
  refine ⟨fun ks => ?_, by simp⟩
  obtain ⟨⟨hl, hr⟩, hnone⟩ := ha
  simp only [List.map_cons, List.map_nil, List.singleton_append, Formula.strengthsFrom, hl, hr, if_false, hnone,
    Option.isSome_none, Bool.false_eq_true, List.length_singleton, List.nil_append]
  cases Formula.strengthsFrom (σ := Rat) c (i + 1) d ks <;> rfl

theorem connective (hc : c.Regular) {op : Token} {p : Int} (hs : Connectives.IsSymbol op)
    (hp : c.precedence.lookup op.kind = some p) : Tabulates c [op] i d [(i, Strength.measure d p c.scale)] := by
  refine ⟨fun ks => ?_, ?_⟩
  · obtain ⟨hl, hr⟩ := hs
    simp only [List.map_cons, List.map_nil, List.singleton_append, Formula.strengthsFrom, hl, hr, if_false, hp,
      Option.isSome_some, if_true, hc.strength_eq hp, ok_bind, List.length_singleton]
    cases Formula.strengthsFrom (σ := Rat) c (i + 1) d ks <;> rfl
  · intro e he
    simp only [List.mem_singleton] at he
    subst he
    exact ⟨0, op, d, p, by simp, rfl, hp, Int.le_refl d, rfl⟩

theorem bracketed (h : Tabulates c w (i + 1) (d + 1) A) :
    Tabulates c (Token.leftBracket :: w ++ [Token.rightBracket]) i d A := by
  refine ⟨fun ks => ?_, fun e he => ?_⟩
  · have hr : Formula.strengthsFrom (σ := Rat) c (i + 1 + w.length) (d + 1) (")" :: ks) =
        Formula.strengthsFrom c (i + (w.length + 1 + 1 : Nat)) d ks := by
      rw [Formula.strengthsFrom, if_neg (by decide), if_pos rfl]
      congr 1 <;> omega
    have hl : Formula.strengthsFrom (σ := Rat) c i d ("(" :: (w.map (·.kind) ++ (")" :: ks))) =
        Formula.strengthsFrom c (i + 1) (d + 1) (w.map (·.kind) ++ (")" :: ks)) := by
      rw [Formula.strengthsFrom, if_pos rfl]
    simp only [List.cons_append, List.map_cons, List.map_append, List.map_nil, List.append_assoc, List.nil_append,
      List.length_cons, List.length_append, List.length_nil, Nat.zero_add]
    rw [show Token.leftBracket.kind = "(" from rfl, show Token.rightBracket.kind = ")" from rfl, hl, h.reads, hr]
  · obtain ⟨n, tok, d', p, h1, h2, h3, h4, h5⟩ := h.entries e he
    refine ⟨n + 1, tok, d', p, by omega, ?_, h3, by omega, h5⟩
    rw [List.cons_append, List.getElem?_cons_succ, List.getElem?_append_left (List.getElem?_eq_some_iff.1 h2).1]
    exact h2

theorem wrap {n : Nat} (h : Tabulates c w (i + n) (d + n) A) : Tabulates c (wrap n w) i d A := by
  induction n generalizing i d with
  | zero => simpa using h
  | succ n ih =>
    rw [wrap_succ]
    refine bracketed (ih ?_)
    rwa [Int.add_assoc, Int.add_assoc, Int.add_comm 1 (n : Int)]

end Tabulates

/-- a precedence that a connective of the language has -/
def Connectives.Has (c : Connectives) (p : Int) : Prop := ∃ k, c.precedence.lookup k = some p

/-- **The table of a spelling.** Where the root binds at least as tightly as p, or brackets enclose the whole, no
strength lies below that of p at the depth of the spelling; where it binds more tightly, all lie above. -/
theorem Spelling.tabulates {c : Connectives} (hc : c.Regular) {t : SyntaxTree} {b : Bool} {w : List Token}
    (h : Spelling c t b w) (i d : Int) : ∃ table, Tabulates c w i d table ∧
      (∀ p, c.Has p → (b = true ∨ ∀ q ∈ t.precedence? c, p ≤ q) →
        ∀ e ∈ table, Strength.measure d p c.scale ≤ e.2) ∧
      (∀ p, c.Has p → (b = true ∨ ∀ q ∈ t.precedence? c, p < q) →
        ∀ e ∈ table, Strength.measure d p c.scale < e.2) := by
  induction h generalizing i d with
  | atom ha => exact ⟨[], .atom ha, by simp, by simp⟩
  | @unary op p₀ x b w hop hx hfit ih =>
    obtain ⟨A, hA, hle, -⟩ := ih (i + 1) d
    have hs := (hc.scale_bounds hop.2.2).2
    have hAll := hle p₀ ⟨_, hop.2.2⟩ hfit
    refine ⟨(i, Strength.measure d p₀ c.scale) :: A, Tabulates.append (u := [op]) (.connective hc hop.1 hop.2.2) hA,
      ?_, ?_⟩
    · intro p _ hp e he
      have hpp : p ≤ p₀ := by simpa [SyntaxTree.precedence?, hop.2.2] using hp
      have hm : (Strength.measure d p c.scale : Rat) ≤ Strength.measure d p₀ c.scale := measure_mono (by omega) hpp
      rcases List.mem_cons.1 he with rfl | he
      · exact hm
      · exact hm.trans (hAll e he)
    · intro p _ hp e he
      have hpp : p < p₀ := by simpa [SyntaxTree.precedence?, hop.2.2] using hp
      have hm : (Strength.measure d p c.scale : Rat) < Strength.measure d p₀ c.scale :=
        measure_strictMono (by omega) hpp
      rcases List.mem_cons.1 he with rfl | he
      · exact hm
      · exact hm.trans_le (hAll e he)
  | @binary op p₀ l r bl br wl wr hop hl hr hfl hfr ihl ihr =>
    obtain ⟨A, hA, hle, -⟩ := ihl i d
    obtain ⟨B, hB, -, hlt⟩ := ihr (i + wl.length + 1) d
    have hs := (hc.scale_bounds hop.2.2).2
    have hAll : ∀ e ∈ A ++ (i + wl.length, Strength.measure d p₀ c.scale) :: B,
        Strength.measure d p₀ c.scale ≤ e.2 := by
      intro e he
      rcases List.mem_append.1 he with he | he
      · exact hle p₀ ⟨_, hop.2.2⟩ hfl e he
      · rcases List.mem_cons.1 he with rfl | he
        · exact le_rfl
        · exact (hlt p₀ ⟨_, hop.2.2⟩ hfr e he).le
    refine ⟨A ++ (i + wl.length, Strength.measure d p₀ c.scale) :: B,
      hA.append (Tabulates.append (u := [op]) (.connective hc hop.1 hop.2.2) hB), ?_, ?_⟩
    · intro p _ hp e he
      have hpp : p ≤ p₀ := by simpa [SyntaxTree.precedence?, hop.2.2] using hp
      exact (measure_mono (by omega) hpp).trans (hAll e he)
    · intro p _ hp e he
      have hpp : p < p₀ := by simpa [SyntaxTree.precedence?, hop.2.2] using hp
      exact (measure_strictMono (by omega) hpp).trans_le (hAll e he)
  | bracketed _ ih =>
    obtain ⟨A, hA, -, -⟩ := ih (i + 1) (d + 1)
    -- one level deeper, every strength lies above those of the level outside
    have hdeep : ∀ p, c.Has p → ∀ e ∈ A, Strength.measure d p c.scale < e.2 := by
      rintro p ⟨k, hk⟩ e he
      obtain ⟨n, tok, d', q, -, -, hq, hd, hm⟩ := hA.entries e he
      have hp := (hc.scale_bounds hk).2
      have hq := (hc.scale_bounds hq).2
      rw [hm]
      exact measure_lt_of_depth (by omega) hp.2 hq.1 (by omega)
    exact ⟨A, hA.bracketed, fun p hp _ e he => (hdeep p hp e he).le, fun p hp _ e he => hdeep p hp e he⟩

/-! ## The main connective -/

theorem foldl_weakest (rest : List (Int × Rat)) (s : Rat) :
    let m := rest.foldl (fun m (_, t) => if Strength.below t m then t else m) s
    m ≤ s ∧ (∀ e ∈ rest, m ≤ e.2) ∧ (m = s ∨ ∃ e ∈ rest, e.2 = m) := by
  induction rest generalizing s with
  | nil => simp
  | cons e rest ih =>
    simp only [List.foldl_cons]
    by_cases h : e.2 < s
    · have hb : Strength.below e.2 s = true := by simpa [Strength.below] using h
      obtain ⟨h1, h2, h3⟩ := ih e.2
      simp only [hb, if_true]
      refine ⟨h1.trans h.le, ?_, ?_⟩
      · intro x hx
        rcases List.mem_cons.1 hx with rfl | hx
        · exact h1
        · exact h2 x hx
      · rcases h3 with h3 | ⟨x, hx, h3⟩
        · exact Or.inr ⟨e, List.mem_cons_self, h3.symm⟩
        · exact Or.inr ⟨x, List.mem_cons_of_mem _ hx, h3⟩
    · have hb : Strength.below e.2 s = false := by simpa [Strength.below] using h
      obtain ⟨h1, h2, h3⟩ := ih s
      simp only [hb, Bool.false_eq_true, if_false]
      refine ⟨h1, ?_, ?_⟩
      · intro x hx
        rcases List.mem_cons.1 hx with rfl | hx
        · exact h1.trans (not_lt.1 h)
        · exact h2 x hx
      · rcases h3 with h3 | ⟨x, hx, h3⟩
        · exact Or.inl h3
        · exact Or.inr ⟨x, List.mem_cons_of_mem _ hx, h3⟩

/-- the weakest strength of a table is that of an entry which no other undercuts -/
theorem weakest?_eq {table : List (Int × Rat)} {e : Int × Rat} (he : e ∈ table) (hmin : ∀ x ∈ table, e.2 ≤ x.2) :
    Formula.weakest? table = some e.2 := by
  cases table with
  | nil => simp at he
  | cons a rest =>
    obtain ⟨h1, h2, h3⟩ := foldl_weakest rest a.2
    simp only [Formula.weakest?, Option.some.injEq]
    apply le_antisymm
    · rcases List.mem_cons.1 he with rfl | he
      · exact h1
      · exact h2 e he
    · rcases h3 with h3 | ⟨x, hx, h3⟩
      · exact (hmin a List.mem_cons_self).trans h3.ge
      · exact (hmin x (List.mem_cons_of_mem _ hx)).trans h3.le

theorem allUnary_eq (c : Connectives) (tokens : List Token) (places : List Int)
    (h : ∀ i ∈ places, ∃ t, pick? tokens i = some t) :
    Formula.allUnary c tokens places =
      .ok (places.all fun i => (pick? tokens i).any fun t => c.unary.contains t.kind) := by
  induction places with
  | nil => rfl
  | cons i places ih =>
    obtain ⟨t, ht⟩ := h i List.mem_cons_self
    rw [Formula.allUnary, ht]
    simp only [List.all_cons, ht, Option.any_some]
    by_cases hu : c.unary.contains t.kind = true
    · simp only [hu, if_true, Bool.true_and]
      exact ih fun j hj => h j (List.mem_cons_of_mem _ hj)
    · simp only [hu]
      simp

/-- the places of the weakest strength, which the choice is made among -/
theorem mem_places {table : List (Int × Rat)} {m : Rat} {i : Int} :
    i ∈ (table.filter fun (_, s) => Strength.same s m).map (·.1) ↔ ∃ e ∈ table, e.2 = m ∧ e.1 = i := by
  simp [Strength.same, and_assoc]

/-- a binary connective that no other undercuts is chosen when the ones as weak as it all stand before it -/
theorem dominant_binary {c : Connectives} {tokens : List Token} {table : List (Int × Rat)} {e : Int × Rat}
    (he : e ∈ table) (hmin : ∀ x ∈ table, e.2 ≤ x.2) (hlast : ∀ x ∈ table, x.2 = e.2 → x.1 ≤ e.1)
    (hpick : ∀ x ∈ table, ∃ t, pick? tokens x.1 = some t) (hop : ∃ t, pick? tokens e.1 = some t ∧ t.kind ∉ c.unary) :
    Formula.dominant c tokens table = .ok (some e.1) := by
  set places := (table.filter fun (_, s) => Strength.same s e.2).map (·.1) with hplaces
  have hmem : e.1 ∈ places := mem_places.2 ⟨e, he, rfl, rfl⟩
  have hun : Formula.allUnary c tokens places = .ok false := by
    rw [allUnary_eq]
    · obtain ⟨t, ht, hk⟩ := hop
      rw [Except.ok.injEq, List.all_eq_false]
      exact ⟨e.1, hmem, by simpa [ht] using hk⟩
    · intro i hi
      obtain ⟨x, hx, -, rfl⟩ := mem_places.1 hi
      exact hpick x hx
  have hmax : places.max? = some e.1 := by
    rw [List.max?_eq_some_iff]
    refine ⟨hmem, fun i hi => ?_⟩
    obtain ⟨x, hx, h1, rfl⟩ := mem_places.1 hi
    exact hlast x hx h1
  simp only [Formula.dominant, weakest?_eq he hmin, ← hplaces, hun, ok_bind, Bool.false_eq_true, if_false,
    hmax, pure_ok]

/-- a unary connective that no other undercuts is chosen when the ones as weak as it are unary and stand behind it -/
theorem dominant_unary {c : Connectives} {tokens : List Token} {table : List (Int × Rat)} {e : Int × Rat}
    (he : e ∈ table) (hmin : ∀ x ∈ table, e.2 ≤ x.2) (hfirst : ∀ x ∈ table, x.2 = e.2 → e.1 ≤ x.1)
    (hun : ∀ x ∈ table, x.2 = e.2 → ∃ t, pick? tokens x.1 = some t ∧ t.kind ∈ c.unary) :
    Formula.dominant c tokens table = .ok (some e.1) := by
  set places := (table.filter fun (_, s) => Strength.same s e.2).map (·.1) with hplaces
  have hmem : e.1 ∈ places := mem_places.2 ⟨e, he, rfl, rfl⟩
  have hplace : ∀ i ∈ places, ∃ t, pick? tokens i = some t ∧ t.kind ∈ c.unary := by
    intro i hi
    obtain ⟨x, hx, h1, rfl⟩ := mem_places.1 hi
    exact hun x hx h1
  have hall : Formula.allUnary c tokens places = .ok true := by
    rw [allUnary_eq _ _ _ fun i hi => (hplace i hi).imp fun _ h => h.1, Except.ok.injEq, List.all_eq_true]
    intro i hi
    obtain ⟨t, ht, hk⟩ := hplace i hi
    simpa [ht] using hk
  have hminp : places.min? = some e.1 := by
    rw [List.min?_eq_some_iff]
    refine ⟨hmem, fun i hi => ?_⟩
    obtain ⟨x, hx, h1, rfl⟩ := mem_places.1 hi
    exact hfirst x hx h1
  simp only [Formula.dominant, weakest?_eq he hmin, ← hplaces, hall, ok_bind, if_true, hminp, pure_ok]

theorem Tabulates.strengths {c : Connectives} {w : List Token} {table : List (Int × Rat)}
    (h : Tabulates c w 0 0 table) : Formula.strengths c (⟨w, []⟩ : Formula Rat) = .ok table := by
  have := h.reads []
  simp only [List.append_nil, Formula.strengthsFrom, Except.map] at this
  simpa [Formula.strengths, Formula.kinds] using this

theorem Tabulates.pick {c : Connectives} {w : List Token} {table : List (Int × Rat)} (h : Tabulates c w 0 0 table) :
    ∀ e ∈ table, ∃ t, pick? w e.1 = some t := by
  intro e he
  obtain ⟨n, tok, -, -, h1, h2, -⟩ := h.entries e he
  exact ⟨tok, by rw [h1, Int.zero_add, pick?_natCast, h2]⟩

theorem mainConnective_wrap_atom {c : Connectives} {a : Token} (ha : c.IsAtom a) (n : Nat) :
    Formula.mainConnective c (⟨wrap n [a], []⟩ : Formula Rat) = .ok none := by
  have htab : Tabulates c (wrap n [a]) 0 0 [] := (Tabulates.atom ha).wrap
  rw [Formula.mainConnective, htab.strengths]
  rfl

theorem mainConnective_atom {c : Connectives} {a : Token} (ha : c.IsAtom a) :
    Formula.mainConnective c (⟨[a], []⟩ : Formula Rat) = .ok none := by
  simpa using mainConnective_wrap_atom ha 0

/-- **The main connective of a spelling with a unary root** stands in front, behind whatever brackets. -/
theorem mainConnective_wrap_unary {c : Connectives} (hc : c.Regular) {op : Token} {p : Int} {x : SyntaxTree} {b : Bool}
    {w : List Token} (hop : c.IsUnary op p) (hx : Spelling c x b w) (hfit : b = true ∨ ∀ q ∈ x.precedence? c, p ≤ q)
    (n : Nat) :
    Formula.mainConnective c (⟨wrap n (op :: w), []⟩ : Formula Rat) = .ok (some n) := by
  obtain ⟨A, hA, hle, -⟩ := hx.tabulates hc (n + 1) n
  have hinner : Tabulates c (op :: w) n n (((n : Int), Strength.measure n p c.scale) :: A) :=
    Tabulates.append (u := [op]) (.connective hc hop.1 hop.2.2) hA
  have htab : Tabulates c (wrap n (op :: w)) 0 0 (((n : Int), Strength.measure n p c.scale) :: A) :=
    Tabulates.wrap (by simpa using hinner)
  have hs := (hc.scale_bounds hop.2.2).2
  rw [Formula.mainConnective, htab.strengths]
  refine dominant_unary (e := ((n : Int), Strength.measure n p c.scale)) List.mem_cons_self ?_ ?_ ?_
  · intro e he
    rcases List.mem_cons.1 he with rfl | he
    · exact le_rfl
    · exact hle p ⟨_, hop.2.2⟩ hfit e he
  · intro e he _
    obtain ⟨k, -, -, -, h1, -⟩ := hinner.entries e he
    simp only
    omega
  · intro e he heq
    obtain ⟨k, tok, d', q, h1, h2, hq, hd, hm⟩ := hinner.entries e he
    have hk : (wrap n (op :: w))[n + k]? = some tok := by
      rw [wrap, List.append_assoc, List.getElem?_append_right (by simp), List.getElem?_append_left]
      · simpa using h2
      · simpa using (List.getElem?_eq_some_iff.1 h2).1
    refine ⟨tok, by rw [h1, ← Int.natCast_add, pick?_natCast, hk], ?_⟩
    -- a strength as weak as the root's is that of the precedence that only unary connectives have
    have hqb := (hc.scale_bounds hq).2
    obtain ⟨-, rfl⟩ := measure_inj hd hs.2 hqb.1 (by omega) (heq.symm.trans hm)
    by_contra hk
    have := hc.above op.kind hop.2.1 tok.kind hk q q hop.2.2 hq
    omega

theorem mainConnective_unary {c : Connectives} (hc : c.Regular) {op : Token} {p : Int} {x : SyntaxTree} {b : Bool}
    {w : List Token} (hop : c.IsUnary op p) (hx : Spelling c x b w) (hfit : b = true ∨ ∀ q ∈ x.precedence? c, p ≤ q) :
    Formula.mainConnective c (⟨op :: w, []⟩ : Formula Rat) = .ok (some 0) := by
  simpa using mainConnective_wrap_unary hc hop hx hfit 0

/-- **The main connective of a spelling with a binary root** stands between the spellings of its
arguments, in whatever brackets. -/
theorem mainConnective_wrap_binary {c : Connectives} (hc : c.Regular) {op : Token} {p : Int} {l r : SyntaxTree}
    {bl br : Bool} {wl wr : List Token} (hop : c.IsBinary op p) (hl : Spelling c l bl wl) (hr : Spelling c r br wr)
    (hfl : bl = true ∨ ∀ q ∈ l.precedence? c, p ≤ q) (hfr : br = true ∨ ∀ q ∈ r.precedence? c, p < q) (n : Nat) :
    Formula.mainConnective c (⟨wrap n (wl ++ op :: wr), []⟩ : Formula Rat) = .ok (some (n + wl.length)) := by
  obtain ⟨A, hA, hle, -⟩ := hl.tabulates hc n n
  obtain ⟨B, hB, -, hlt⟩ := hr.tabulates hc (n + wl.length + 1) n
  have hinner : Tabulates c (wl ++ op :: wr) n n (A ++ ((n : Int) + wl.length, Strength.measure n p c.scale) :: B) :=
    hA.append (Tabulates.append (u := [op]) (.connective hc hop.1 hop.2.2) hB)
  have htab : Tabulates c (wrap n (wl ++ op :: wr)) 0 0 (A ++ ((n : Int) + wl.length, Strength.measure n p c.scale) ::
      B) :=
    Tabulates.wrap (by simpa using hinner)
  have hmin := hle p ⟨_, hop.2.2⟩ hfl
  have hlast := hlt p ⟨_, hop.2.2⟩ hfr
  rw [Formula.mainConnective, htab.strengths]
  refine dominant_binary (e := ((n : Int) + wl.length, Strength.measure n p c.scale))
    (List.mem_append_right _ List.mem_cons_self) ?_ ?_ htab.pick ?_
  · intro e he
    rcases List.mem_append.1 he with he | he
    · exact hmin e he
    · rcases List.mem_cons.1 he with rfl | he
      · exact le_rfl
      · exact (hlast e he).le
  · intro e he heq
    rcases List.mem_append.1 he with he | he
    · obtain ⟨k, tok, -, -, h1, h2, -⟩ := hA.entries e he
      have := (List.getElem?_eq_some_iff.1 h2).1
      simp only
      omega
    · rcases List.mem_cons.1 he with rfl | he
      · exact le_rfl
      · exact absurd heq (hlast e he).ne'
  · refine ⟨op, ?_, hop.2.1⟩
    rw [← Int.natCast_add, pick?_natCast]
    simp [wrap]

theorem mainConnective_binary {c : Connectives} (hc : c.Regular) {op : Token} {p : Int} {l r : SyntaxTree}
    {bl br : Bool} {wl wr : List Token} (hop : c.IsBinary op p) (hl : Spelling c l bl wl) (hr : Spelling c r br wr)
    (hfl : bl = true ∨ ∀ q ∈ l.precedence? c, p ≤ q) (hfr : br = true ∨ ∀ q ∈ r.precedence? c, p < q) :
    Formula.mainConnective c (⟨wl ++ op :: wr, []⟩ : Formula Rat) = .ok (some wl.length) := by
  simpa using mainConnective_wrap_binary hc hop hl hr hfl hfr 0

/-! ## Taking a spelling apart -/

theorem part_spelling {c : Connectives} {t : SyntaxTree} {b : Bool} {w : List Token} (h : Spelling c t b w) :
    ∃ v, Formula.part (σ := Rat) w [] = .ok (some ⟨v, []⟩) ∧ Spelling c t false v ∧ ∃ n, w = wrap n v := by
  obtain ⟨n, v, rfl, hv⟩ := h.exists_bare
  obtain ⟨us, hpart, hbal, henc, k, hk⟩ := part_bare (σ := Rat) h.hasSymbol
  rw [complete_of_balanced h.balanced] at hk
  obtain rfl : v = us := wrap_eq_wrap hv.balanced hv.not_enclosed hbal henc hk
  exact ⟨v, hpart, hv, n, rfl⟩

theorem length_le_wrap (n : Nat) (v : List Token) : v.length ≤ (wrap n v).length := by
  simp only [wrap, List.length_append, List.length_replicate]
  omega

theorem components_atom {c : Connectives} {a : Token} (ha : c.IsAtom a) :
    Formula.components c (⟨[a], []⟩ : Formula Rat) = .ok none := by
  simp only [Formula.components, mainConnective_atom ha, ok_bind]
  rfl

theorem split_append (u v : List Token) (t : Token) :
    Formula.split (⟨u ++ t :: v, []⟩ : Formula Rat) u.length = do
      let left ← Formula.part u []
      let right ← Formula.part v []
      return (left, right) := by
  have hleft : cut (u ++ t :: v) none (some (u.length : Int)) = u := by
    simpa using cut_front (u ++ t :: v) (n := u.length) (by simp)
  have hright : cut (u ++ t :: v) (some ((u.length : Int) + 1)) none = v := by
    simpa using cut_back (u ++ t :: v) (n := u.length + 1) (by simp)
  rw [Formula.split, hleft, hright]
  rfl

theorem components_unary {c : Connectives} (hc : c.Regular) {op : Token} {p : Int} {x : SyntaxTree} {b : Bool}
    {w : List Token} (hop : c.IsUnary op p) (hx : Spelling c x b w) (hfit : b = true ∨ ∀ q ∈ x.precedence? c, p ≤ q) :
    ∃ v, Formula.components c (⟨op :: w, []⟩ : Formula Rat) = .ok (some ⟨op, none, some ⟨v, []⟩⟩) ∧
      Spelling c x false v ∧ ∃ n, w = wrap n v := by
  have hs : Spelling c (.unary op x) false (op :: w) := .unary hop hx hfit
  obtain ⟨v, hpart, hv, n, hn⟩ := part_spelling hx
  refine ⟨v, ?_, hv, n, hn⟩
  have hsplit : Formula.split (⟨op :: w, []⟩ : Formula Rat) 0 = .ok (none, some ⟨v, []⟩) := by
    have := split_append [] w op
    rw [hpart] at this
    exact this
  have hpick : pick? (op :: w) 0 = some op := by simpa using pick?_natCast (op :: w) 0
  simp only [Formula.components, reduceBrackets_self hs.hasSymbol hs.balanced hs.not_enclosed,
    mainConnective_unary hc hop hx hfit, hpick, hsplit, ok_bind, pure_ok]

theorem components_binary {c : Connectives} (hc : c.Regular) {op : Token} {p : Int} {l r : SyntaxTree} {bl br : Bool}
    {wl wr : List Token} (hop : c.IsBinary op p) (hl : Spelling c l bl wl) (hr : Spelling c r br wr)
    (hfl : bl = true ∨ ∀ q ∈ l.precedence? c, p ≤ q) (hfr : br = true ∨ ∀ q ∈ r.precedence? c, p < q) :
    ∃ vl vr, Formula.components c (⟨wl ++ op :: wr, []⟩ : Formula Rat) =
        .ok (some ⟨op, some ⟨vl, []⟩, some ⟨vr, []⟩⟩) ∧
      Spelling c l false vl ∧ Spelling c r false vr ∧ (∃ n, wl = wrap n vl) ∧ ∃ n, wr = wrap n vr := by
  have hs : Spelling c (.binary op l r) false (wl ++ op :: wr) := .binary hop hl hr hfl hfr
  obtain ⟨vl, hpl, hvl, hnl⟩ := part_spelling hl
  obtain ⟨vr, hpr, hvr, hnr⟩ := part_spelling hr
  refine ⟨vl, vr, ?_, hvl, hvr, hnl, hnr⟩
  have hsplit : Formula.split (⟨wl ++ op :: wr, []⟩ : Formula Rat) wl.length = .ok (some ⟨vl, []⟩, some ⟨vr, []⟩) := by
    rw [split_append, hpl, hpr]
    rfl
  have hpick : pick? (wl ++ op :: wr) (wl.length : Int) = some op := by simp [pick?_natCast]
  simp only [Formula.components, reduceBrackets_self hs.hasSymbol hs.balanced hs.not_enclosed,
    mainConnective_binary hc hop hl hr hfl hfr, hpick, hsplit, ok_bind, pure_ok]

/-! ## Rebuilding the tree -/

/-- the tree of a list of tokens, taken apart at its main connective and its parts likewise, at most `fuel` times -/
def recover? (c : Connectives) : Nat → List Token → Option SyntaxTree
  | 0, _ => none
  | fuel + 1, w =>
    match Formula.components c (⟨w, []⟩ : Formula Rat), w with
    | .ok none, [a] => some (.atom a)
    | .ok (some ⟨op, none, some x⟩), _ => (recover? c fuel x.tokens).map (.unary op)
    | .ok (some ⟨op, some l, some r⟩), _ => do
      let left ← recover? c fuel l.tokens
      let right ← recover? c fuel r.tokens
      return .binary op left right
    | _, _ => none

/-- rebuilding takes no more steps than there are tokens -/
theorem recover?_of_spelling {c : Connectives} (hc : c.Regular) {t : SyntaxTree} {w : List Token}
    (h : Spelling c t false w) {fuel : Nat} (hf : w.length ≤ fuel) : recover? c fuel w = some t := by
  -- the spellings of the subtrees come back without their enclosing pairs, so the induction is over all of them
  induction t generalizing w fuel with
  | atom a =>
    cases h with
    | atom ha =>
      obtain ⟨fuel, rfl⟩ : ∃ n, fuel = n + 1 := ⟨fuel - 1, by simp at hf; omega⟩
      simp [recover?, components_atom ha]
  | unary op x ih =>
    cases h with
    | unary hop hx hfit =>
      obtain ⟨fuel, rfl⟩ : ∃ n, fuel = n + 1 := ⟨fuel - 1, by simp at hf; omega⟩
      obtain ⟨v, hcomp, hv, n, rfl⟩ := components_unary hc hop hx hfit
      have hlen := length_le_wrap n v
      simp only [List.length_cons] at hf
      have hx : recover? c fuel v = some x := ih hv (by omega)
      simp [recover?, hcomp, hx]
  | binary op l r ihl ihr =>
    cases h with
    | binary hop hl hr hfl hfr =>
      obtain ⟨fuel, rfl⟩ : ∃ n, fuel = n + 1 := ⟨fuel - 1, by simp at hf; omega⟩
      obtain ⟨vl, vr, hcomp, hvl, hvr, ⟨m, rfl⟩, ⟨n, rfl⟩⟩ := components_binary hc hop hl hr hfl hfr
      have hm := length_le_wrap m vl
      have hn := length_le_wrap n vr
      simp only [List.length_append, List.length_cons] at hf
      have hl : recover? c fuel vl = some l := ihl hvl (by omega)
      have hr : recover? c fuel vr = some r := ihr hvr (by omega)
      simp [recover?, hcomp, hl, hr]

/-- **Unique readability.** However a tree is written, as long as no pair of brackets encloses the whole: an atom has no
main connective and no parts; any other tree is taken apart into its root and spellings of its subtrees, with no
enclosing pair either; and taking it apart again and again rebuilds the tree. -/
theorem components_of_spells {c : Connectives} (hc : c.Regular) {t : SyntaxTree} {w : List Token} (h : Spells c t w)
    (he : ¬ Enclosed w) :
    (match t with
      | .atom _ => Formula.components c (⟨w, []⟩ : Formula Rat) = .ok none
      | .unary op x => ∃ v : Formula Rat, Formula.components c ⟨w, []⟩ = .ok (some ⟨op, none, some v⟩) ∧
          Spells c x v.tokens ∧ ¬ Enclosed v.tokens
      | .binary op l r => ∃ vl vr : Formula Rat, Formula.components c ⟨w, []⟩ = .ok (some ⟨op, some vl, some vr⟩) ∧
          (Spells c l vl.tokens ∧ ¬ Enclosed vl.tokens) ∧ Spells c r vr.tokens ∧ ¬ Enclosed vr.tokens) ∧
      recover? c w.length w = some t := by
  have hb := h.bare he
  refine ⟨?_, recover?_of_spelling hc hb le_rfl⟩
  cases hb with
  | atom ha => exact components_atom ha
  | unary hop hx hfit =>
    obtain ⟨v, hcomp, hv, -⟩ := components_unary hc hop hx hfit
    exact ⟨_, hcomp, ⟨_, hv⟩, hv.not_enclosed⟩
  | binary hop hl hr hfl hfr =>
    obtain ⟨vl, vr, hcomp, hvl, hvr, -⟩ := components_binary hc hop hl hr hfl hfr
    exact ⟨_, _, hcomp, ⟨⟨_, hvl⟩, hvl.not_enclosed⟩, ⟨_, hvr⟩, hvr.not_enclosed⟩

/-- the tokens of `~(p v q) ^ ((r))`, with a pair of brackets that is needed and two that are not -/
theorem components_of_spells_conjunction :
    let neg : Token := ⟨"neg", "~", false⟩
    let or : Token := ⟨"or", "v", false⟩
    let and : Token := ⟨"and", "^", false⟩
    let p : Token := ⟨"sentvar", "p", false⟩
    let q : Token := ⟨"sentvar", "q", false⟩
    let r : Token := ⟨"sentvar", "r", false⟩
    let w := neg :: wrap 1 [p, or, q] ++ and :: wrap 2 [r]
    ∃ vl vr : Formula Rat, Formula.components .sample ⟨w, []⟩ = .ok (some ⟨and, some vl, some vr⟩) ∧
      (Spells .sample (.unary neg (.binary or (.atom p) (.atom q))) vl.tokens ∧ ¬ Enclosed vl.tokens) ∧
      Spells .sample (.atom r) vr.tokens ∧ ¬ Enclosed vr.tokens := by
  intro neg or and p q r w
  have hatom : ∀ x, Spelling .sample (.atom ⟨"sentvar", x, false⟩) false [⟨"sentvar", x, false⟩] :=
    fun x => .atom ⟨⟨by simp, by simp⟩, by simp [Connectives.sample, List.lookup_cons]⟩
  have hdisj : Spelling .sample (.binary or (.atom p) (.atom q)) true (wrap 1 [p, or, q]) :=
    .bracketed (.binary (p := 2) ⟨⟨by decide, by decide⟩, by decide, by decide⟩ (hatom "p") (hatom "q")
      (.inr (by simp [SyntaxTree.precedence?])) (.inr (by simp [SyntaxTree.precedence?])))
  have hneg : Spelling .sample (.unary neg (.binary or (.atom p) (.atom q))) false (neg :: wrap 1 [p, or, q]) :=
    .unary (p := 3) ⟨⟨by decide, by decide⟩, by decide, by decide⟩ hdisj (.inl rfl)
  have hw : Spelling .sample (.binary and (.unary neg (.binary or (.atom p) (.atom q))) (.atom r)) false w :=
    .binary (p := 2) ⟨⟨by decide, by decide⟩, by decide, by decide⟩ hneg (hatom "r").bracketed.bracketed
      (.inr (by simp [SyntaxTree.precedence?, neg, Connectives.sample])) (.inl rfl)
  exact (components_of_spells Connectives.regular_sample ⟨false, hw⟩ hw.not_enclosed).1

end TableauTutor
