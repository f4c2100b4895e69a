import Mathlib.Tactic.Ring
import TableauTutor.Proofs.Tables
import TableauTutor.Proofs.UniqueReadability

/-!
Remembered strengths. A formula that comes from another one by taking off, putting on or cutting at brackets
keeps the strengths that the other one remembered, with their positions counted anew and the depths they had
before. So what a formula remembers is the table of its tokens read from some depth, not always from depth zero;
no answer depends on that depth.

- `answers_on_bench`: on whatever formula a sequence of operations makes, the main connective and being a literal are as
  on a formula that remembers nothing.
-/

namespace TableauTutor

theorem mapKeys_sub {α : Type} {t : List (Int × α)} (h : (t.map (·.1)).Nodup) (m : Int) :
    mapKeys (· - m) t = t.map fun e => (e.1 - m, e.2) := by
  have hkeys : (t.map fun e => (e.1 - m, e.2)).map (·.1) = (t.map (·.1)).map (· - m) := by
    simp [List.map_map, Function.comp_def]
  have hnodup : ((t.map fun e => (e.1 - m, e.2)).map (·.1)).Nodup := by
    rw [hkeys]
    exact h.map fun a b hab => by simpa using hab
  exact tableOf_of_nodup hnodup

namespace Formula

variable {c : Connectives}

/-! ## The table of a list of kinds -/

/-- how far the brackets among the kinds lead down -/
def descent : List String → Int
  | [] => 0
  | k :: ks => (if k = "(" then 1 else if k = ")" then -1 else 0) + descent ks

theorem strength_deepen (c : Connectives) (k : String) (d n : Int) :
    (strength c k (d + n) : Except FormulaError Rat) = (strength c k d).map (· + (n : Rat)) := by
  have hmeasure (p s : Int) : (Strength.measure (d + n) p s : Rat) = Strength.measure d p s + n := by
    show ((d + n : Int) : Rat) + p / s = (d : Rat) + p / s + n
    push_cast
    ring
  unfold strength
  cases c.precedence.lookup k with
  | none => rfl
  | some p =>
    cases c.scale? with
    | none => rfl
    | some s =>
      by_cases hs : s = 0
      · simp [hs, Except.map]
      · simp [hs, Except.map, hmeasure]

theorem strengthsFrom_append (c : Connectives) (p d : Int) (ks ls : List String) :
    (strengthsFrom c p d (ks ++ ls) : Except FormulaError (List (Int × Rat))) =
      (strengthsFrom c p d ks).bind fun a => (strengthsFrom c (p + ks.length) (d + descent ks) ls).map (a ++ ·) := by
  induction ks generalizing p d with
  | nil =>
    simp only [List.nil_append, strengthsFrom, descent, List.length_nil, Except.bind, Int.add_zero, Nat.cast_zero]
    cases (strengthsFrom c p d ls : Except FormulaError (List (Int × Rat))) <;> rfl
  | cons k ks ih =>
    have hp : p + ((k :: ks).length : Int) = p + 1 + ks.length := by push_cast [List.length_cons]; ring
    rw [List.cons_append, strengthsFrom, strengthsFrom, hp, descent]
    split_ifs with hl hr hk
    · rw [ih, Int.add_assoc d 1]
    · rw [ih, show d - 1 + descent ks = d + (-1 + descent ks) by ring]
    · cases (strength c k d : Except FormulaError Rat) with
      | error e => rfl
      | ok s =>
        simp only [ok_bind, ih, Int.zero_add]
        cases (strengthsFrom c (p + 1) d ks : Except FormulaError (List (Int × Rat))) with
        | error e => rfl
        | ok a =>
          simp only [pure_ok]
          cases (strengthsFrom c (p + 1 + ks.length) (d + descent ks) ls : Except FormulaError (List (Int × Rat))) <;>
            rfl
    · rw [ih, Int.zero_add]

/-- a table read from another position and another depth -/
theorem strengthsFrom_shift (c : Connectives) (p d m n : Int) (ks : List String) :
    (strengthsFrom c (p + m) (d + n) ks : Except FormulaError (List (Int × Rat))) =
      (strengthsFrom c p d ks).map (List.map fun e => (e.1 + m, e.2 + (n : Rat))) := by
  induction ks generalizing p d with
  | nil => rfl
  | cons k ks ih =>
    have hp : p + m + 1 = p + 1 + m := by ring
    rw [strengthsFrom, strengthsFrom, hp]
    split_ifs with hl hr hk
    · rw [show d + n + 1 = d + 1 + n by ring, ih]
    · rw [show d + n - 1 = d - 1 + n by ring, ih]
    · rw [strength_deepen, ih]
      cases (strength c k d : Except FormulaError Rat) with
      | error e => rfl
      | ok s => cases (strengthsFrom c (p + 1) d ks : Except FormulaError (List (Int × Rat))) <;> rfl
    · exact ih (p + 1) d

theorem keys_strengthsFrom {p d : Int} {ks : List String} {t : List (Int × Rat)} (h : strengthsFrom c p d ks = .ok t) :
    (∀ e ∈ t, p ≤ e.1 ∧ e.1 < p + ks.length) ∧ (t.map (·.1)).Nodup := by
  induction ks generalizing p d t with
  | nil =>
    obtain rfl : [] = t := by simpa [strengthsFrom] using h
    simp
  | cons k ks ih =>
    have hwiden {t : List (Int × Rat)} (hb : ∀ e ∈ t, p + 1 ≤ e.1 ∧ e.1 < p + 1 + ks.length) :
        ∀ e ∈ t, p ≤ e.1 ∧ e.1 < p + ((k :: ks).length : Int) := by
      intro e he
      have := hb e he
      push_cast [List.length_cons]
      omega
    rw [strengthsFrom] at h
    split_ifs at h with hl hr hk
    · exact ⟨hwiden (ih h).1, (ih h).2⟩
    · exact ⟨hwiden (ih h).1, (ih h).2⟩
    · cases hs : (strength c k d : Except FormulaError Rat) with
      | error e => simp [hs] at h
      | ok s =>
        cases hrest : (strengthsFrom c (p + 1) d ks : Except FormulaError (List (Int × Rat))) with
        | error e => simp [hs, hrest] at h
        | ok rest =>
          obtain rfl : (p, s) :: rest = t := by simpa [hs, hrest, pure_ok] using h
          obtain ⟨hb, hn⟩ := ih hrest
          refine ⟨?_, ?_⟩
          · intro e he
            rcases List.mem_cons.1 he with rfl | he
            · push_cast [List.length_cons]
              omega
            · exact hwiden hb e he
          · rw [List.map_cons, List.nodup_cons]
            refine ⟨fun hmem => ?_, hn⟩
            obtain ⟨e, he, heq⟩ := List.mem_map.1 hmem
            have := (hb e he).1
            omega
    · exact ⟨hwiden (ih h).1, (ih h).2⟩

/-! ## Brackets at the ends, and cuts -/

theorem strengthsFrom_left (c : Connectives) (p d : Int) (n : Nat) (ks : List String) :
    (strengthsFrom c p d (List.replicate n "(" ++ ks) : Except FormulaError (List (Int × Rat))) =
      strengthsFrom c (p + n) (d + n) ks := by
  induction n generalizing p d with
  | zero => simp
  | succ n ih =>
    rw [List.replicate_succ, List.cons_append, strengthsFrom, if_pos rfl, ih]
    push_cast
    rw [show p + 1 + (n : Int) = p + (n + 1) by ring, show d + 1 + (n : Int) = d + (n + 1) by ring]

theorem strengthsFrom_right (c : Connectives) (p d : Int) (n : Nat) (ks : List String) :
    (strengthsFrom c p d (ks ++ List.replicate n ")") : Except FormulaError (List (Int × Rat))) =
    strengthsFrom c p d ks := by
  have hnone (p d : Int) : (strengthsFrom c p d (List.replicate n ")") : Except FormulaError (List (Int × Rat))) =
      .ok [] := by
    induction n generalizing p d with
    | zero => rfl
    | succ n ih => rw [List.replicate_succ, strengthsFrom, if_neg (by decide), if_pos rfl, ih]
  rw [strengthsFrom_append, hnone]
  cases (strengthsFrom c p d ks : Except FormulaError (List (Int × Rat))) with
  | error e => rfl
  | ok a => simp [Except.bind, Except.map]

theorem strengthsFrom_flanked (c : Connectives) (d : Int) (m n : Nat) (core : List Token) :
    (strengthsFrom c 0 d ((List.replicate m Token.leftBracket ++ core ++ List.replicate n Token.rightBracket).map
      (·.kind)) : Except FormulaError (List (Int × Rat))) = strengthsFrom c m (d + m) (core.map (·.kind)) := by
  have hkinds : (List.replicate m Token.leftBracket ++ core ++ List.replicate n Token.rightBracket).map (·.kind) =
      List.replicate m "(" ++ (core.map (·.kind) ++ List.replicate n ")") := by
    simp [Token.leftBracket, Token.rightBracket, Token.literal]
  rw [hkinds, strengthsFrom_left, strengthsFrom_right, Int.zero_add]

theorem strengthsFrom_split {p d : Int} {ks : List String} {t : List (Int × Rat)}
    (h : strengthsFrom c p d ks = .ok t) (i : Nat) : ∃ a b, t = a ++ b ∧ strengthsFrom c p d (ks.take i) = .ok a ∧
      strengthsFrom c (p + (ks.take i).length) (d + descent (ks.take i)) (ks.drop i) = .ok b := by
  rw [← List.take_append_drop i ks, strengthsFrom_append] at h
  cases ha : (strengthsFrom c p d (ks.take i) : Except FormulaError (List (Int × Rat))) with
  | error e => simp [ha, Except.bind] at h
  | ok a =>
    rw [ha] at h
    cases hb : (strengthsFrom c (p + (ks.take i).length) (d + descent (ks.take i)) (ks.drop i) :
        Except FormulaError (List (Int × Rat))) with
    | error e =>
      simp only [Except.bind, hb, Except.map] at h
      exact absurd h (by simp)
    | ok b =>
      simp only [Except.bind, hb, Except.map] at h
      exact ⟨a, b, (Except.ok.inj h).symm, rfl, rfl⟩

/-- a table falls into what it says about the kinds before a position and about the others -/
theorem strengthsFrom_filter {d : Int} {ks : List String} {t : List (Int × Rat)}
    (h : strengthsFrom c 0 d ks = .ok t) (i : Nat) :
    strengthsFrom c 0 d (ks.take i) = .ok (t.filter fun e => e.1 < (i : Int)) ∧
      strengthsFrom c (0 + (ks.take i).length) (d + descent (ks.take i)) (ks.drop i) =
      .ok (t.filter fun e => (i : Int) ≤ e.1) := by
  obtain ⟨a, b, rfl, ha, hb⟩ := strengthsFrom_split h i
  have hbefore : ∀ e ∈ a, e.1 < (i : Int) := by
    intro e he
    have := ((keys_strengthsFrom ha).1 e he).2
    have := List.length_take_le i ks
    omega
  have hbehind : ∀ e ∈ b, (i : Int) ≤ e.1 := by
    intro e he
    have hkey := (keys_strengthsFrom hb).1 e he
    rw [List.length_take, List.length_drop] at hkey
    omega
  rw [ha, hb, List.filter_append, List.filter_append, List.filter_eq_self.2 (by simpa using hbefore),
    List.filter_eq_nil_iff.2 (by simpa using hbehind), List.filter_eq_nil_iff.2 (by simpa using hbefore),
    List.filter_eq_self.2 (by simpa using hbehind), List.append_nil, List.nil_append]
  exact ⟨rfl, rfl⟩

/-- what a table says about the kinds behind a position, counted anew -/
theorem strengthsFrom_drop {d : Int} {ks : List String} {t : List (Int × Rat)}
    (h : strengthsFrom c 0 d ks = .ok t) (i : Nat) : ∃ d', strengthsFrom c 0 d' (ks.drop (i + 1)) =
      .ok ((t.filter fun e => (i : Int) < e.1).map fun e => (e.1 - i - 1, e.2)) := by
  have hb := (strengthsFrom_filter h (i + 1)).2
  have hafter : (t.filter fun e => ((i + 1 : Nat) : Int) ≤ e.1) = t.filter fun e => (i : Int) < e.1 :=
    List.filter_congr fun e _ => decide_eq_decide.2 (by omega)
  rw [hafter] at hb
  refine ⟨d + descent (ks.take (i + 1)), ?_⟩
  by_cases hlen : i + 1 ≤ ks.length
  · -- read from its own position, and then moved to the front
    rw [List.length_take_of_le hlen] at hb
    have hmove := strengthsFrom_shift c (0 + ((i + 1 : Nat) : Int)) (d + descent (ks.take (i + 1)))
      (-(i + 1 : Nat)) 0 (ks.drop (i + 1))
    rw [hb, show (0 : Int) + ((i + 1 : Nat) : Int) + -((i + 1 : Nat) : Int) = 0 by ring, add_zero] at hmove
    have hsub (e : Int × Rat) : (e.1 + -((i + 1 : Nat) : Int), e.2 + ((0 : Int) : Rat)) =
        (e.1 - (i : Int) - 1, e.2) := by
      simp only [Int.cast_zero, add_zero, Prod.mk.injEq, and_true]
      push_cast
      ring
    simpa only [Except.map, hsub] using hmove
  · rw [List.drop_eq_nil_of_le (by omega)] at hb ⊢
    rw [← Except.ok.inj hb]
    rfl

/-! ## What operations make of the remembered strengths -/

/-- what the formula remembers, if anything, is the table of its tokens read from some depth -/
def Carried (c : Connectives) (f : Formula Rat) : Prop :=
  f.remembered = [] ∨ ∃ d, strengthsFrom c 0 d f.kinds = .ok f.remembered

theorem carried_remember {f : Formula Rat} (h : Carried c f) : Carried c (f.remember c) := by
  unfold remember strengths
  by_cases hempty : f.remembered = []
  · simp only [hempty, List.isEmpty_nil, if_true]
    cases hs : (strengthsFrom c 0 0 f.kinds : Except FormulaError (List (Int × Rat))) with
    | error e => exact h
    | ok t => exact .inr ⟨0, hs⟩
  · have hfalse : f.remembered.isEmpty = false := by simpa using hempty
    simpa only [hfalse, Bool.false_eq_true, if_false] using h

/-- what stripping takes off are pairs around the core -/
theorem stripPairs_eq_ok {ts core : List Token} {n : Nat} (h : stripPairs ts = .ok (n, core)) : ts = wrap n core := by
  fun_induction stripPairs ts generalizing n core with
  | case1 => simp at h
  | case2 t ts hf ih =>
    cases hrec : stripPairs ts.dropLast with
    | error e => simp [hrec] at h
    | ok r =>
      obtain ⟨m, core'⟩ := r
      rw [hrec] at h
      obtain ⟨rfl, rfl⟩ : m + 1 = n ∧ core' = core := by simpa [pure_ok] using h
      rw [flanked_inner hf.1 hf.2, wrap_succ, ← ih hrec]
  | case3 t ts hf =>
    obtain ⟨rfl, rfl⟩ : 0 = n ∧ t :: ts = core := by simpa using h
    simp

/-- reducing forgets, or it takes pairs off a core, puts brackets on and moves what is remembered accordingly -/
theorem reduceBrackets_eq_ok {f g : Formula Rat} (h : f.reduceBrackets = .ok g) :
    g.remembered = [] ∨ ∃ (n m k : Nat) (core : List Token), f.tokens = wrap n core ∧
      g.tokens = List.replicate m Token.leftBracket ++ core ++ List.replicate k Token.rightBracket ∧
      g.remembered = mapKeys (· - ((n : Int) - m)) f.remembered := by
  unfold reduceBrackets at h
  split_ifs at h with hshort
  · obtain rfl := Except.ok.inj h
    exact .inl rfl
  · cases hstrip : stripPairs f.tokens with
    | error e => simp [hstrip] at h
    | ok r =>
      obtain ⟨n, core⟩ := r
      rw [hstrip] at h
      obtain rfl := Except.ok.inj h
      exact .inr ⟨n, _, _, core, stripPairs_eq_ok hstrip, rfl, rfl⟩

/-- **Reducing brackets** carries the strengths over: the depth from which they count
changes by the brackets in front. -/
theorem carried_reduceBrackets {f g : Formula Rat} (hf : Carried c f) (h : f.reduceBrackets = .ok g) : Carried c g := by
  rcases reduceBrackets_eq_ok h with hg | ⟨n, m, k, core, hft, hgt, hgr⟩
  · exact .inl hg
  · rcases hf with hf | ⟨d, hd⟩
    · left
      rw [hgr, hf]
      rfl
    · right
      refine ⟨d + n - m, ?_⟩
      have hkeys := (keys_strengthsFrom hd).2
      rw [kinds, hft, wrap, strengthsFrom_flanked] at hd
      have hmove := strengthsFrom_shift c n (d + n) (m - n) 0 (core.map (·.kind))
      rw [kinds, hgt, strengthsFrom_flanked, hgr, mapKeys_sub hkeys]
      rw [show (n : Int) + (m - n) = m by ring, show d + (n : Int) + 0 = d + n - m + m by ring, hd] at hmove
      rw [hmove]
      have hsub (e : Int × Rat) : (e.1 + ((m : Int) - n), e.2 + ((0 : Int) : Rat)) = (e.1 - ((n : Int) - m), e.2) := by
        simp only [Int.cast_zero, add_zero, Prod.mk.injEq, and_true]
        ring
      simp only [Except.map, hsub]

theorem carried_part {ts : List Token} {rem : List (Int × Rat)} {g : Formula Rat} (h : Carried c ⟨ts, rem⟩)
    (hg : part ts rem = .ok (some g)) : Carried c g := by
  unfold part at hg
  split_ifs at hg with hempty
  · simp at hg
  · cases hone : reduceBrackets (⟨ts, rem⟩ : Formula Rat) with
    | error e => simp [hone] at hg
    | ok once =>
      cases htwo : once.reduceBrackets with
      | error e => simp [hone, htwo] at hg
      | ok twice =>
        obtain rfl : twice = g := by simpa [hone, htwo, pure_ok] using hg
        exact carried_reduceBrackets (carried_reduceBrackets h hone) htwo

theorem clamp_nonneg {n : Nat} {i : Int} (h : 0 ≤ i) : clamp n 0 n i = min i n := by
  have hi : ¬ i < 0 := by omega
  simp only [clamp, hi, if_false, Int.min_def]
  split_ifs <;> omega

theorem cut_before {α : Type} (xs : List α) {i : Int} (h : 0 ≤ i) :
    TableauTutor.cut xs none (some i) = xs.take i.toNat := by
  have hmin : (min i xs.length).toNat = min i.toNat xs.length := by omega
  simp [TableauTutor.cut, clamp_nonneg h, hmin, List.take_eq_take_iff]

theorem cut_behind {α : Type} (xs : List α) {i : Int} (h : 0 ≤ i) :
    TableauTutor.cut xs (some i) none = xs.drop i.toNat := by
  have hmin : (min i xs.length).toNat = min i.toNat xs.length := by omega
  simp only [TableauTutor.cut, Option.map_some, Option.getD_some, clamp_nonneg h, hmin, Option.map_none,
    Option.getD_none, Int.toNat_natCast, List.take_length]
  by_cases hle : i.toNat ≤ xs.length
  · rw [Nat.min_eq_left hle]
  · rw [Nat.min_eq_right (by omega), List.drop_length, List.drop_eq_nil_of_le (by omega)]

/-- **Cutting at a position** carries the strengths over to both sides. -/
theorem carried_split {f : Formula Rat} {i : Int} {l r : Option (Formula Rat)} (hf : Carried c f) (hi : 0 ≤ i)
    (h : f.split i = .ok (l, r)) : ∀ g, g ∈ l ∨ g ∈ r → Carried c g := by
  obtain ⟨n, rfl⟩ := Int.eq_ofNat_of_zero_le hi
  have hsides : Carried c ⟨f.tokens.take n, (splitAtKey f.remembered n).1⟩ ∧
      Carried c ⟨f.tokens.drop (n + 1), (splitAtKey f.remembered n).2⟩ := by
    rcases hf with hf | ⟨d, hd⟩
    · exact ⟨.inl (by simp [splitAtKey, hf]), .inl (by simp [splitAtKey, hf])⟩
    · obtain ⟨d', hd'⟩ := strengthsFrom_drop hd n
      refine ⟨.inr ⟨d, ?_⟩, .inr ⟨d', ?_⟩⟩
      · have htake := (strengthsFrom_filter hd n).1
        rw [kinds, ← List.map_take] at htake
        exact htake
      · rw [kinds, ← List.map_drop] at hd'
        exact hd'
  unfold split at h
  rw [cut_before _ hi, cut_behind _ (by omega)] at h
  cases hl : part (f.tokens.take n) (splitAtKey f.remembered n).1 with
  | error e => simp [hl] at h
  | ok l' =>
    cases hr : part (f.tokens.drop (n + 1)) (splitAtKey f.remembered n).2 with
    | error e =>
      have : ((n : Int) + 1).toNat = n + 1 := by omega
      simp [hl, hr, this] at h
    | ok r' =>
      have hnat : ((n : Int) + 1).toNat = n + 1 := by omega
      obtain ⟨rfl, rfl⟩ : l' = l ∧ r' = r := by simpa [hl, hr, hnat, pure_ok] using h
      intro g hg
      rcases hg with hg | hg
      · exact carried_part hsides.1 (hl.trans (by rw [Option.mem_def.1 hg]))
      · exact carried_part hsides.2 (hr.trans (by rw [Option.mem_def.1 hg]))

/-! ## What does not depend on the depth -/

theorem foldl_below_shift (rest : List (Int × Rat)) (s n : Rat) :
    (rest.map fun e => (e.1, e.2 + n)).foldl (fun m (_, t) => if Strength.below t m then t else m) (s + n) =
      rest.foldl (fun m (_, t) => if Strength.below t m then t else m) s + n := by
  induction rest generalizing s with
  | nil => rfl
  | cons e rest ih =>
    have hbelow : Strength.below (e.2 + n) (s + n) = Strength.below e.2 s := by
      simp [Strength.below]
    simp only [List.map_cons, List.foldl_cons, hbelow]
    split_ifs with h
    · exact ih e.2
    · exact ih s

theorem weakest?_shift (t : List (Int × Rat)) (n : Rat) :
    weakest? (t.map fun e => (e.1, e.2 + n)) = (weakest? t).map (· + n) := by
  cases t with
  | nil => rfl
  | cons e rest => simp only [List.map_cons, weakest?, foldl_below_shift, Option.map_some]

theorem places_shift (t : List (Int × Rat)) (m n : Rat) :
    ((t.map fun e => (e.1, e.2 + n)).filter fun (_, s) => Strength.same s (m + n)).map (·.1) =
      (t.filter fun (_, s) => Strength.same s m).map (·.1) := by
  rw [List.filter_map, List.map_map]
  congr 1
  refine List.filter_congr fun e _ => ?_
  simp [Strength.same]

/-- **The main connective does not depend on the depth** from which strengths are counted. -/
theorem dominant_shift (c : Connectives) (tokens : List Token) (t : List (Int × Rat)) (n : Rat) :
    dominant c tokens (t.map fun e => (e.1, e.2 + n)) = dominant c tokens t := by
  unfold dominant
  rw [weakest?_shift]
  cases weakest? t with
  | none => rfl
  | some m => simp only [Option.map_some, places_shift]

/-- a formula that remembers a table of its tokens has, up to the depth, the strengths of one that remembers nothing -/
theorem strengths_of_carried {f : Formula Rat} (h : Carried c f) :
    ∃ n : Rat, f.strengths c = ((⟨f.tokens, []⟩ : Formula Rat).strengths c).map (List.map fun e => (e.1, e.2 + n)) := by
  have hfresh : (⟨f.tokens, []⟩ : Formula Rat).strengths c = strengthsFrom c 0 0 f.kinds := rfl
  rw [hfresh]
  by_cases hempty : f.remembered = []
  · refine ⟨0, ?_⟩
    rw [strengths, hempty]
    cases (strengthsFrom c 0 0 f.kinds : Except FormulaError (List (Int × Rat))) <;> simp [Except.map]
  · obtain ⟨d, hd⟩ := h.resolve_left hempty
    have hfalse : f.remembered.isEmpty = false := by simpa using hempty
    have hmove := strengthsFrom_shift c 0 0 0 d f.kinds
    rw [Int.add_zero, Int.zero_add, hd] at hmove
    refine ⟨d, ?_⟩
    rw [strengths, hfalse, if_neg (by decide), hmove]
    simp only [Int.add_zero]

/-- **What a formula remembers changes no answer.** -/
theorem answers_of_carried {f : Formula Rat} (h : Carried c f) :
    f.mainConnective c = (⟨f.tokens, []⟩ : Formula Rat).mainConnective c ∧
      f.isLiteral c = (⟨f.tokens, []⟩ : Formula Rat).isLiteral c := by
  obtain ⟨n, hn⟩ := strengths_of_carried h
  have hmain : f.mainConnective c = (⟨f.tokens, []⟩ : Formula Rat).mainConnective c := by
    unfold mainConnective
    rw [hn]
    cases (⟨f.tokens, []⟩ : Formula Rat).strengths c with
    | error e => rfl
    | ok t => exact dominant_shift c f.tokens t n
  refine ⟨hmain, ?_⟩
  unfold isLiteral
  rw [hmain, hn]
  cases (⟨f.tokens, []⟩ : Formula Rat).mainConnective c with
  | error e => rfl
  | ok i =>
    cases i with
    | none => rfl
    | some i =>
      cases (⟨f.tokens, []⟩ : Formula Rat).strengths c with
      | error e => rfl
      | ok t => simp [Except.map]

/-! ## Taking formulas apart -/

theorem dominant_mem {tokens : List Token} {t : List (Int × Rat)} {i : Int} (h : dominant c tokens t = .ok (some i)) :
    ∃ e ∈ t, e.1 = i := by
  unfold dominant at h
  cases hw : weakest? t with
  | none => simp [hw] at h
  | some m =>
    simp only [hw] at h
    generalize hplaces : List.map _ (List.filter _ t) = places at h
    have hmem : i ∈ places := by
      cases hun : allUnary c tokens places with
      | error e => simp [hun] at h
      | ok b =>
        cases b with
        | true =>
          have hmin : places.min? = some i := by simpa [hun, pure_ok] using h
          exact List.min?_mem hmin
        | false =>
          have hmax : places.max? = some i := by simpa [hun, pure_ok] using h
          exact List.max?_mem hmax
    rw [← hplaces] at hmem
    obtain ⟨e, he, heq⟩ := List.mem_map.1 hmem
    exact ⟨e, List.mem_of_mem_filter he, heq⟩

theorem mainConnective_nonneg {f : Formula Rat} (hf : Carried c f) {i : Int} (h : f.mainConnective c = .ok (some i)) :
    0 ≤ i := by
  rw [(answers_of_carried hf).1] at h
  unfold mainConnective at h
  have hfresh : (⟨f.tokens, []⟩ : Formula Rat).strengths c = strengthsFrom c 0 0 f.kinds := rfl
  cases hs : (strengthsFrom c 0 0 f.kinds : Except FormulaError (List (Int × Rat))) with
  | error e => simp [hfresh, hs] at h
  | ok t =>
    rw [hfresh, hs] at h
    obtain ⟨e, he, rfl⟩ := dominant_mem h
    exact ((keys_strengthsFrom hs).1 e he).1

/-- what taking a formula apart does: its brackets are reduced, and the rest is cut at the main connective -/
theorem components_eq_some {f : Formula Rat} {k : Components Rat} (h : f.components c = .ok (some k)) :
    ∃ g i, f.reduceBrackets = .ok g ∧ f.mainConnective c = .ok (some i) ∧ g.split i = .ok (k.left, k.right) := by
  unfold components at h
  cases hg : f.reduceBrackets with
  | error e => simp [hg] at h
  | ok g =>
    cases hm : f.mainConnective c with
    | error e => simp [hg, hm] at h
    | ok m =>
      cases m with
      | none => simp [hg, hm, pure_ok] at h
      | some i =>
        cases ht : pick? g.tokens i with
        | none => simp [hg, hm, ht, throw, throwThe, MonadExceptOf.throw] at h
        | some t =>
          cases hs : g.split i with
          | error e => simp [hg, hm, ht, hs] at h
          | ok parts =>
            obtain ⟨l, r⟩ := parts
            obtain rfl : (⟨t, l, r⟩ : Components Rat) = k := by
              simpa [hg, hm, ht, hs, pure_ok] using h
            exact ⟨g, i, rfl, rfl, hs⟩

theorem carried_components {f : Formula Rat} (hf : Carried c f) {k : Components Rat}
    (h : f.components c = .ok (some k)) : ∀ g, g ∈ k.left ∨ g ∈ k.right → Carried c g := by
  obtain ⟨g, i, hg, hi, hs⟩ := components_eq_some h
  exact carried_split (carried_reduceBrackets hf hg) (mainConnective_nonneg hf hi) hs

theorem carried_afterComponents {f : Formula Rat} (hf : Carried c f) : Carried c (f.afterComponents c) := by
  unfold afterComponents
  split
  · exact carried_remember hf
  · exact hf

/-- removing leading connectives goes on with right parts -/
theorem carried_dropUnary {chosen : List String} {fuel : Nat} {f g : Formula Rat} (hf : Carried c f)
    (h : dropUnary c chosen fuel f = .ok g) : Carried c g := by
  induction fuel generalizing f with
  | zero => exact carried_reduceBrackets hf h
  | succ fuel ih =>
    unfold dropUnary at h
    cases hk : f.components c with
    | error e => simp [hk] at h
    | ok k =>
      cases k with
      | none =>
        rw [hk] at h
        exact carried_reduceBrackets (carried_afterComponents hf) h
      | some k =>
        simp only [hk, ok_bind] at h
        split_ifs at h with hchosen
        · cases hr : k.right with
          | none => simp [hr, throw, throwThe, MonadExceptOf.throw] at h
          | some r =>
            rw [hr] at h
            exact ih (carried_components hf hk r (.inr (by simp [hr]))) h
        · exact carried_reduceBrackets (carried_afterComponents hf) h

/-! ## Sequences of operations -/

/-- what can be done with a formula -/
inductive Operation where
  | precedence
  | mainConnective
  | isLiteral
  | reduceBrackets
  | split (i : Nat)
  | components
  | removeMainUnary (chosen : List String)
  | copy
  | slice (start stop : Option Int) (step : Int)
deriving DecidableEq, Repr

namespace Operation

/-- the formula itself after the operation -/
def after (c : Connectives) : Operation → Formula Rat → Formula Rat
  | precedence, f | mainConnective, f | isLiteral, f => f.remember c
  | components, f | removeMainUnary _, f => f.afterComponents c
  | reduceBrackets, f | split _, f | copy, f | slice _ _ _, f => f

/-- the formulas that the operation returns; none if it fails -/
def returned (c : Connectives) : Operation → Formula Rat → List (Formula Rat)
  | precedence, _ | mainConnective, _ | isLiteral, _ => []
  | reduceBrackets, f => f.reduceBrackets.toOption.toList
  | split i, f => (f.split i).toOption.toList.flatMap fun (l, r) => l.toList ++ r.toList
  | components, f => (f.components c).toOption.join.toList.flatMap fun k => k.left.toList ++ k.right.toList
  | removeMainUnary chosen, f => (f.removeMainUnary c chosen).toOption.toList
  | copy, f => [f]
  | slice start stop step, f => (f.cutBy start stop step).toOption.toList

end Operation

/-- an operation on the i-th formula of a bench: the formula is replaced by what it is afterwards, and what the
operation returns is put at the end -/
def operate (c : Connectives) (bench : List (Formula Rat)) (i : Nat) (op : Operation) : List (Formula Rat) :=
  match bench[i]? with
  | none => bench
  | some f => bench.set i (op.after c f) ++ op.returned c f

/-- a sequence of operations, each on a formula that is on the bench by then -/
def operateAll (c : Connectives) (bench : List (Formula Rat)) (ops : List (Nat × Operation)) : List (Formula Rat) :=
  ops.foldl (fun bench (i, op) => operate c bench i op) bench

theorem mem_toList_toOption {α : Type} {x : Except FormulaError α} {a : α} : a ∈ x.toOption.toList ↔ x = .ok a := by
  cases x <;> simp [Except.toOption, eq_comm]

/-- **One operation** keeps what formulas remember in order, on the formula itself and on those it returns. -/
theorem Operation.carried (op : Operation) {f : Formula Rat} (hf : Carried c f) :
    Carried c (op.after c f) ∧ ∀ g ∈ op.returned c f, Carried c g := by
  cases op with
  | precedence => exact ⟨carried_remember hf, by simp [returned]⟩
  | mainConnective => exact ⟨carried_remember hf, by simp [returned]⟩
  | isLiteral => exact ⟨carried_remember hf, by simp [returned]⟩
  | reduceBrackets =>
    refine ⟨hf, fun g hg => ?_⟩
    exact carried_reduceBrackets hf (mem_toList_toOption.1 hg)
  | split i =>
    refine ⟨hf, fun g hg => ?_⟩
    obtain ⟨⟨l, r⟩, hs, hg⟩ := List.mem_flatMap.1 hg
    rw [List.mem_append, Option.mem_toList, Option.mem_toList] at hg
    exact carried_split hf (Int.natCast_nonneg i) (mem_toList_toOption.1 hs) g hg
  | components =>
    refine ⟨carried_afterComponents hf, fun g hg => ?_⟩
    obtain ⟨k, hk, hg⟩ := List.mem_flatMap.1 hg
    rw [List.mem_append, Option.mem_toList, Option.mem_toList] at hg
    have hk : f.components c = .ok (some k) := by
      cases hc : f.components c with
      | error e => simp [hc, Except.toOption] at hk
      | ok o =>
        cases o with
        | none => simp [hc, Except.toOption] at hk
        | some k' =>
          obtain rfl : k = k' := by simpa [hc, Except.toOption] using hk
          rfl
    exact carried_components hf hk g hg
  | removeMainUnary chosen =>
    refine ⟨carried_afterComponents hf, fun g hg => ?_⟩
    exact carried_dropUnary hf (mem_toList_toOption.1 hg)
  | copy => exact ⟨hf, by simpa [returned] using hf⟩
  | slice start stop step =>
    refine ⟨hf, fun g hg => ?_⟩
    have hcut := mem_toList_toOption.1 hg
    unfold cutBy at hcut
    split at hcut
    · obtain rfl := Except.ok.inj hcut
      exact .inl rfl
    · simp at hcut

theorem carried_operate {bench : List (Formula Rat)} (h : ∀ f ∈ bench, Carried c f) (i : Nat) (op : Operation) :
    ∀ f ∈ operate c bench i op, Carried c f := by
  intro f hf
  unfold operate at hf
  cases hi : bench[i]? with
  | none =>
    rw [hi] at hf
    exact h f hf
  | some g =>
    rw [hi] at hf
    obtain ⟨hafter, hreturned⟩ := op.carried (h g (List.mem_of_getElem? hi))
    rcases List.mem_append.1 hf with hf | hf
    · rcases List.mem_or_eq_of_mem_set hf with hf | rfl
      · exact h f hf
      · exact hafter
    · exact hreturned f hf

/-- **A sequence of operations** keeps what formulas remember in order. -/
theorem carried_operateAll {bench : List (Formula Rat)} (h : ∀ f ∈ bench, Carried c f) (ops : List (Nat × Operation)) :
    ∀ f ∈ operateAll c bench ops, Carried c f := by
  induction ops generalizing bench with
  | nil => exact h
  | cons o ops ih => exact ih (carried_operate h o.1 o.2)

/-- **Remembering never changes an answer.** Start from a formula that remembers nothing and apply any sequence of
operations to it and to the formulas that these return: on every formula on the bench then, the main connective and
being a literal are as on a formula of the same tokens that remembers nothing. -/
theorem answers_on_bench (c : Connectives) (tokens : List Token) (ops : List (Nat × Operation)) (f : Formula Rat)
    (hf : f ∈ operateAll c [⟨tokens, []⟩] ops) :
    f.mainConnective c = (⟨f.tokens, []⟩ : Formula Rat).mainConnective c ∧
      f.isLiteral c = (⟨f.tokens, []⟩ : Formula Rat).isLiteral c := by
  refine answers_of_carried (carried_operateAll ?_ ops f hf)
  intro g hg
  obtain rfl := List.mem_singleton.1 hg
  exact .inl rfl

/-- in `p and (q or r)` the strengths are computed and then the formula is cut at its connective: the right part
remembers a strength of depth one, where a formula of its tokens would find depth zero, and the answers agree -/
theorem answers_on_bench_right_part :
    let var (x : String) : Token := ⟨"sentvar", x, false⟩
    let tokens := [var "p", ⟨"and", "and", false⟩, .leftBracket, var "q", ⟨"or", "or", false⟩, var "r", .rightBracket]
    ∃ f ∈ operateAll .sample [⟨tokens, []⟩] [(0, .precedence), (0, .split 1)],
      f.tokens = [var "q", ⟨"or", "or", false⟩, var "r"] ∧ f.remembered = [(1, 3 / 2)] ∧
        f.mainConnective .sample = (⟨f.tokens, []⟩ : Formula Rat).mainConnective .sample ∧
        f.isLiteral .sample = (⟨f.tokens, []⟩ : Formula Rat).isLiteral .sample := by
  intro var tokens
  have hpart : ((operateAll .sample [⟨tokens, []⟩] [(0, .precedence), (0, .split 1)]).map fun f =>
    (f.tokens, f.remembered))[2]? = some ([var "q", ⟨"or", "or", false⟩, var "r"], [(1, 3 / 2)]) := by decide +kernel
  obtain ⟨f, hf, heq⟩ := List.mem_map.1 (List.mem_of_getElem? hpart)
  obtain ⟨htokens, hremembered⟩ := Prod.mk.inj heq
  exact ⟨f, hf, htokens, hremembered, answers_on_bench .sample tokens _ f hf⟩

end Formula

end TableauTutor
