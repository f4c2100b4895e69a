import Mathlib.Data.List.Infix
import TableauTutor.Lexicon.Lexer
import TableauTutor.Proofs.Computations

/-!
Lexers that know a list of words. Many patterns are no more than a list of words, in the order in which
they are tried; a lexer all of whose patterns are of this sort looks for the first word in one table that
the rest of the text starts with.

- `Knows.scan_eq_ok_iff`: such a lexer cuts a text exactly as `Cut` says.
- `Cut.collapse`: a text is cut into the same tokens when two blanks in it are made one.
-/

namespace TableauTutor

/-! ## Patterns that list words -/

namespace Pattern

/-- the place after a word that stands next -/
def Place.after (s : Place) (w : List Char) : Place := ⟨w.reverse ++ s.before, s.rest.drop w.length⟩

@[simp] theorem Place.after_nil (s : Place) : s.after [] = s := rfl

theorem Place.after_cons {s : Place} {c : Char} {cs : List Char} (h : s.rest = c :: cs) (w : List Char) :
    s.after (c :: w) = (s.next c cs).after w := by
  simp [after, next, h]

theorem Place.upTo_after {s : Place} {w : List Char} (h : w <+: s.rest) : s.upTo (s.after w) = w := by
  obtain ⟨u, hu⟩ := h
  simp [upTo, after, ← hu]

/-- what is done with the rest of a text depends on the place alone, not on the groups -/
def ByPlace (k : Progress → Option Progress) : Prop :=
  ∀ s t : Progress, s.place = t.place → (k s).map (·.place) = (k t).map (·.place)

/-- where the first of the words that stand next leads -/
def leadOn (k : Progress → Option Progress) (ws : List (List Char)) (s : Place) : Option Place :=
  ws.findSome? fun w => if w.isPrefixOf s.rest then (k ⟨s.after w, []⟩).map (·.place) else none

theorem mem_between {a b c : Char} (hb : b.toNat < 128) :
    c ∈ CharItem.between a b ↔ a.toNat ≤ c.toNat ∧ c.toNat ≤ b.toNat := by
  simp only [CharItem.between, List.mem_map, List.mem_range]
  constructor
  · rintro ⟨n, hn, rfl⟩
    have hvalid : (a.toNat + n).isValidChar := .inl (by omega)
    have hn : (Char.ofNat (a.toNat + n)).toNat = a.toNat + n := by
      rw [Char.ofNat, dif_pos hvalid]
      rfl
    omega
  · rintro ⟨ha, hc⟩
    exact ⟨c.toNat - a.toNat, by omega, by rw [Nat.add_sub_cancel' ha, Char.ofNat_toNat]⟩

theorem leadOn_append (k : Progress → Option Progress) (us ws : List (List Char)) (s : Place) :
    leadOn k (us ++ ws) s = (leadOn k us s).or (leadOn k ws s) := List.findSome?_append

theorem leadOn_flatMap (k : Progress → Option Progress) (f : List Char → List (List Char))
    (us : List (List Char)) (s : Place) : leadOn k (us.flatMap f) s = us.findSome? fun u => leadOn k (f u) s := by
  induction us with
  | nil => rfl
  | cons u us ih =>
    rw [List.flatMap_cons, leadOn_append, ih, List.findSome?_cons]
    cases leadOn k (f u) s <;> rfl

/-- single characters: the next one has to be among them -/
theorem leadOn_chars (k : Progress → Option Progress) (cs : List Char) (s : Place) :
    leadOn k (cs.map fun c => [c]) s =
      s.rest.head?.bind fun c => if c ∈ cs then (k ⟨s.after [c], []⟩).map (·.place) else none := by
  induction cs with
  | nil => cases s.rest <;> simp [leadOn]
  | cons d cs ih =>
    rw [List.map_cons, ← List.singleton_append, leadOn_append, ih]
    cases hrest : s.rest with
    | nil => simp [leadOn, hrest]
    | cons c rest =>
      by_cases hc : d = c
      · subst hc
        by_cases hmem : d ∈ cs <;> simp [leadOn, hrest, hmem]
      · simp [leadOn, hrest, hc, Ne.symm hc]

/-- words with a common front: the front stands next, and what is left of one of them after it -/
theorem leadOn_front (k : Progress → Option Progress) (u : List Char) (ws : List (List Char)) (s : Place) :
    leadOn k (ws.map (u ++ ·)) s = if u.isPrefixOf s.rest then leadOn k ws (s.after u) else none := by
  have hsplit (w : List Char) : (u ++ w) <+: s.rest ↔ u <+: s.rest ∧ w <+: s.rest.drop u.length := by
    constructor
    · rintro ⟨t, ht⟩
      rw [← ht]
      simp [List.append_assoc]
    · rintro ⟨⟨t, ht⟩, hw⟩
      rw [← ht] at hw ⊢
      simpa using hw
  unfold leadOn
  rw [List.findSome?_map]
  split
  · rename_i hu
    refine congrArg (fun f => List.findSome? f ws) (funext fun w => ?_)
    rw [List.isPrefixOf_iff_prefix] at hu
    simp [hsplit, hu, Place.after]
  · rename_i hu
    rw [List.isPrefixOf_iff_prefix] at hu
    simp [hsplit, hu]

theorem map_eat {k : Progress → Option Progress} (hk : ByPlace k) (test : Char → Bool) (s : Progress) :
    (s.eat test k).map (·.place) =
      s.place.rest.head?.bind fun c => if test c then (k ⟨s.place.after [c], []⟩).map (·.place) else none := by
  unfold Progress.eat
  split
  · rename_i h
    simp [h]
  · rename_i c cs h
    have hnext : s.place.after [c] = s.place.next c cs := Place.after_cons h []
    simp only [h, List.head?_cons, Option.bind_some, hnext]
    split
    · exact hk _ _ rfl
    · rfl

/-- **A pattern that lists words** goes on after the first of them that stands next and lets the rest succeed. -/
theorem run_words {p : Pattern} {ws : List (List Char)} (h : p.words? = some ws) {k : Progress → Option Progress}
    (hk : ByPlace k) (s : Progress) : (p.run {} k s).map (·.place) = leadOn k ws s.place := by
  fun_induction words? p generalizing ws k s with
  | case1 =>
    obtain rfl := Option.some.inj h
    simpa [run, leadOn] using hk s ⟨s.place, []⟩ rfl
  | case2 c =>
    obtain rfl := Option.some.inj h
    rw [run, map_eat hk]
    have := leadOn_chars k [c] s.place
    simp [Modes.alike] at this ⊢
    simp [this, eq_comm]
  | case3 a b hb =>
    obtain rfl := Option.some.inj h
    rw [run, map_eat hk, leadOn_chars]
    simp [CharItem.holds, mem_between hb.2]
  | case4 => simp at h
  | case5 p q ihp ihq =>
    obtain ⟨us, hus, h⟩ := Option.bind_eq_some_iff.1 h
    obtain ⟨vs, hvs, rfl⟩ := Option.map_eq_some_iff.1 h
    have hq : ByPlace (q.run {} k) := by
      intro s t hst
      rw [ihq hvs hk, ihq hvs hk, hst]
    rw [run, ihp hus hq, leadOn_flatMap, leadOn]
    refine congrArg (fun f => List.findSome? f us) (funext fun u => ?_)
    rw [ihq hvs hk, leadOn_front]
  | case6 p q ihp ihq =>
    obtain ⟨us, hus, h⟩ := Option.bind_eq_some_iff.1 h
    obtain ⟨vs, hvs, rfl⟩ := Option.map_eq_some_iff.1 h
    rw [leadOn_append, ← ihp hus hk, ← ihq hvs hk, run]
    cases run p {} k s <;> rfl
  | case7 n p ih =>
    -- remembering what the group matched does not move the place
    have hgroup : ByPlace fun t => k (t.remember n (s.place.upTo t.place)) := fun u v huv => hk _ _ huv
    rw [run, ih h hgroup]
    unfold leadOn
    refine congrArg (fun f => List.findSome? f ws) (funext fun w => ?_)
    split
    · exact hk _ _ rfl
    · rfl
  | case8 => simp at h

theorem firstEnd?_eq_of_words? {p : Pattern} {ws : List (List Char)} (h : p.words? = some ws) (s : Place) :
    p.firstEnd? s = (ws.find? (·.isPrefixOf s.rest)).map s.after := by
  have hrun := run_words h (k := some) (fun s t hst => congrArg some hst) ⟨s, []⟩
  rw [firstEnd?, hrun]
  clear h hrun
  induction ws with
  | nil => rfl
  | cons w ws ih =>
    rw [leadOn] at ih ⊢
    rw [List.findSome?_cons, List.find?_cons]
    cases w.isPrefixOf s.rest with
    | true => rfl
    | false => exact ih

end Pattern

/-! ## Lexers that know words -/

namespace Lexer

/-- words with their kinds, in the order in which they are tried -/
abbrev WordTable := List (String × List Char)

/-- the words of patterns, if every pattern lists its words -/
def table? : List (String × Pattern) → Option WordTable
  | [] => some []
  | (k, p) :: more => p.words?.bind fun ws => (table? more).map (ws.map (fun w => (k, w)) ++ ·)

namespace WordTable

/-- the first word of a table that a text starts with -/
def front? (tb : WordTable) (cs : List Char) : Option (String × List Char) := tb.find? fun r => r.2.isPrefixOf cs

/-- the characters that make the beginning of a longer word of a word -/
def followers (tb : WordTable) (w : List Char) : List Char :=
  tb.filterMap fun r => if w.isPrefixOf r.2 then r.2[w.length]? else none

def token (r : String × List Char) : Token := ⟨r.1, String.ofList r.2, false⟩

/-- the characters between words -/
def blanks : List Char := [' ', '\t']

/-- the words are not empty and have neither blanks nor brackets in them -/
def Proper (tb : WordTable) : Prop :=
  ∀ r ∈ tb, isSilent r.1 = false ∧ r.2 ≠ [] ∧ ∀ c ∈ r.2, c ∉ blanks ∧ isBracket c = false

instance (tb : WordTable) : Decidable tb.Proper :=
  decidable_of_iff ((tb.all fun r => !isSilent r.1 && !r.2.isEmpty && r.2.all fun c => !blanks.contains c &&
    !isBracket c) = true) (by simp [Proper, and_assoc])

/-- a text cut into tokens: at each place the first word that stands there, or a bracket -/
inductive Cut (tb : WordTable) : List Char → List Token → Prop where
  | done : Cut tb [] []
  | blank {c : Char} {cs : List Char} {ts : List Token} (hc : c ∈ blanks) (h : Cut tb cs ts) : Cut tb (c :: cs) ts
  | word {r : String × List Char} {cs : List Char} {ts : List Token} (hr : tb.front? (r.2 ++ cs) = some r)
      (h : Cut tb cs ts) : Cut tb (r.2 ++ cs) (token r :: ts)
  | bracket {c : Char} {cs : List Char} {ts : List Token} (hc : isBracket c = true) (h : Cut tb cs ts) :
      Cut tb (c :: cs) (.literal (String.singleton c) :: ts)

variable {tb : WordTable} {r : String × List Char} {c : Char} {w cs rest : List Char} {ts us : List Token}

theorem front?_mem (h : tb.front? cs = some r) : r ∈ tb := List.mem_of_find?_eq_some h

theorem front?_prefix (h : tb.front? cs = some r) : r.2 <+: cs := by
  simpa using List.find?_some h

theorem front?_congr {ds : List Char} (h : ∀ q ∈ tb, q.2 <+: cs ↔ q.2 <+: ds) : tb.front? cs = tb.front? ds := by
  induction tb with
  | nil => rfl
  | cons q tb ih =>
    have hq : q.2.isPrefixOf cs = q.2.isPrefixOf ds := by
      rw [Bool.eq_iff_iff, List.isPrefixOf_iff_prefix, List.isPrefixOf_iff_prefix]
      exact h q List.mem_cons_self
    simp only [front?] at ih
    rw [front?, front?, List.find?_cons, List.find?_cons, hq, ih fun p hp => h p (List.mem_cons_of_mem q hp)]

/-- **A word in front of a text.** A word that is found when it stands alone is found in front of a text too, unless the
text goes on like a longer word. -/
theorem front?_append (h : tb.front? r.2 = some r) (hrest : ∀ a ∈ rest.head?, a ∉ tb.followers r.2) :
    tb.front? (r.2 ++ rest) = some r := by
  rw [← h]
  refine front?_congr fun q hq => ⟨fun hlong => ?_, fun hshort => hshort.trans (List.prefix_append r.2 rest)⟩
  rcases List.prefix_or_prefix_of_prefix hlong (List.prefix_append r.2 rest) with hshort | ⟨u, hu⟩
  · exact hshort
  · cases u with
    | nil => simp [← hu]
    | cons a u =>
      -- the longer word goes on with the first character of the text
      rw [← hu, List.prefix_append_right_inj] at hlong
      obtain ⟨v, hv⟩ := hlong
      refine absurd ?_ (hrest a (by simp [← hv]))
      exact List.mem_filterMap.2 ⟨q, hq, by simp [← hu]⟩

theorem front?_alone (h : tb.front? cs = some r) : tb.front? r.2 = some r := by
  obtain ⟨hr, us, vs, rfl, hnot⟩ := List.find?_eq_some_iff_append.1 h
  refine List.find?_eq_some_iff_append.2 ⟨by simp, us, vs, rfl, fun q hq => ?_⟩
  have hpre := front?_prefix h
  have := hnot q hq
  simp only [Bool.not_eq_true', ← Bool.not_eq_true, List.isPrefixOf_iff_prefix] at this ⊢
  exact fun hshort => this (hshort.trans hpre)

theorem Proper.front?_eq_none (htb : tb.Proper) (hc : c ∈ blanks ∨ isBracket c = true) :
    tb.front? (c :: cs) = none := by
  rw [front?, List.find?_eq_none]
  intro r hr hpre
  obtain ⟨-, hne, hall⟩ := htb r hr
  rw [List.isPrefixOf_iff_prefix] at hpre
  obtain ⟨d, w, hw⟩ := List.exists_cons_of_ne_nil hne
  rw [hw, List.cons_prefix_cons] at hpre
  obtain ⟨hblank, hbracket⟩ := hall d (by simp [hw])
  rw [hpre.1] at hblank hbracket
  simp [hblank, hbracket] at hc

/-- every token of a text is a bracket, or a word that is found when it stands alone -/
theorem Cut.token_mem (h : tb.Cut cs ts) {t : Token} (ht : t ∈ ts) :
    t = Token.leftBracket ∨ t = Token.rightBracket ∨ ∃ r, tb.front? r.2 = some r ∧ t = token r := by
  induction h with
  | done => simp at ht
  | blank _ _ ih => exact ih ht
  | word hr _ ih =>
    rcases List.mem_cons.1 ht with rfl | ht
    · exact .inr (.inr ⟨_, front?_alone hr, rfl⟩)
    · exact ih ht
  | bracket hc _ ih =>
    rcases List.mem_cons.1 ht with rfl | ht
    · simp only [isBracket, Bool.or_eq_true, beq_iff_eq] at hc
      rcases hc with rfl | rfl
      · exact .inl rfl
      · exact .inr (.inl rfl)
    · exact ih ht

/-! ## Two blanks made one -/

/-- two blanks made one, from the left -/
def collapse (cs : List Char) : List Char := Text.replaceFrom [' ', ' '] [' '] 0 cs

/-- either the character stays, or it is the first of two blanks -/
theorem collapse_cons (c : Char) (cs : List Char) :
    collapse (c :: cs) = c :: collapse cs ∨ ∃ rest, c = ' ' ∧ cs = ' ' :: rest ∧ collapse (c :: cs) = ' ' ::
    collapse rest := by
  by_cases h : [' ', ' '].isPrefixOf (c :: cs)
  · obtain ⟨rest, hrest⟩ := List.isPrefixOf_iff_prefix.1 h
    cases hrest
    exact .inr ⟨rest, rfl, rfl, rfl⟩
  · exact .inl (by rw [collapse, Text.replaceFrom, if_neg h, ← collapse])

theorem collapse_of_ne (h : c ≠ ' ') (cs : List Char) : collapse (c :: cs) = c :: collapse cs := by
  rcases collapse_cons c cs with hc | ⟨rest, hc, -⟩
  · exact hc
  · exact absurd hc h

theorem ne_blank (hw : ∀ c ∈ w, c ∉ blanks) (hc : c ∈ w) : c ≠ ' ' := by
  rintro rfl
  exact hw ' ' hc (by decide)

theorem collapse_word (hw : ∀ c ∈ w, c ∉ blanks) (cs : List Char) : collapse (w ++ cs) = w ++ collapse cs := by
  induction w with
  | nil => rfl
  | cons c w ih =>
    rw [List.cons_append, collapse_of_ne (ne_blank hw List.mem_cons_self), ih fun d hd =>
      hw d (List.mem_cons_of_mem c hd), List.cons_append]

/-- a word without blanks stands in front of a text before and after -/
theorem prefix_collapse (hw : ∀ c ∈ w, c ∉ blanks) (cs : List Char) : w <+: collapse cs ↔ w <+: cs := by
  induction w generalizing cs with
  | nil => simp
  | cons c w ih =>
    cases cs with
    | nil => rfl
    | cons d cs =>
      rcases collapse_cons d cs with hd | ⟨rest, rfl, rfl, hd⟩
      · rw [hd, List.cons_prefix_cons, List.cons_prefix_cons, ih fun d hd => hw d (List.mem_cons_of_mem c hd)]
      · simp [hd, ne_blank hw List.mem_cons_self]

theorem Proper.front?_collapse (htb : tb.Proper) (cs : List Char) : tb.front? (collapse cs) = tb.front? cs :=
  front?_congr fun q hq => prefix_collapse (fun c hc => ((htb q hq).2.2 c hc).1) cs

/-- **Blanks do not matter.** A text is cut into the same tokens when two blanks in it are made one. -/
theorem Cut.collapse (htb : tb.Proper) (h : tb.Cut cs ts) : tb.Cut (collapse cs) ts := by
  -- a text that starts with a blank can lose it to a blank before
  suffices tb.Cut (WordTable.collapse cs) ts ∧ ∀ rest, cs = ' ' :: rest →
    tb.Cut (WordTable.collapse rest) ts from this.1
  induction h with
  | done => exact ⟨.done, by simp⟩
  | @blank c cs ts hc _ ih =>
    refine ⟨?_, fun rest hrest => ?_⟩
    · rcases collapse_cons c cs with hcs | ⟨rest, rfl, rfl, hcs⟩
      · rw [hcs]
        exact .blank hc ih.1
      · rw [hcs]
        exact .blank hc (ih.2 rest rfl)
    · obtain ⟨-, rfl⟩ := List.cons.inj hrest
      exact ih.1
  | @word r cs ts hr _ ih =>
    obtain ⟨-, hne, hchars⟩ := htb r (front?_mem hr)
    have hw : ∀ c ∈ r.2, c ∉ blanks := fun c hc => (hchars c hc).1
    refine ⟨?_, fun rest hrest => ?_⟩
    · rw [← htb.front?_collapse, collapse_word hw] at hr
      rw [collapse_word hw]
      exact .word hr ih.1
    · obtain ⟨d, w, hdw⟩ := List.exists_cons_of_ne_nil hne
      rw [hdw, List.cons_append] at hrest
      exact absurd (List.cons.inj hrest).1 (ne_blank hw (by simp [hdw]))
  | @bracket c cs ts hc _ ih =>
    have hne : c ≠ ' ' := by
      rintro rfl
      exact absurd hc (by decide)
    refine ⟨?_, fun rest hrest => absurd (List.cons.inj hrest).1 hne⟩
    rw [collapse_of_ne hne]
    exact .bracket hc ih.1

end WordTable

/-- the lexer looks for the words of a table -/
structure Knows (x : Lexer) (tb : WordTable) : Prop where
  table : table? x.reading = some tb
  gaps : x.gaps = WordTable.blanks
  proper : tb.Proper

open WordTable

variable {x : Lexer} {tb : WordTable} {r : String × List Char} {c : Char} {b cs : List Char} {ts : List Token}

theorem firstMatch?_eq_of_table? {rules : List (String × Pattern)} (h : table? rules = some tb) (s : Pattern.Place) :
    firstMatch? s rules =
      (tb.front? s.rest).map fun r => (if isSilent r.1 then none else some (tokenOf r.1 r.2), s.after r.2) := by
  induction rules generalizing tb with
  | nil =>
    obtain rfl := Option.some.inj h
    rfl
  | cons q rules ih =>
    obtain ⟨k, p⟩ := q
    obtain ⟨ws, hws, h⟩ := Option.bind_eq_some_iff.1 h
    obtain ⟨more, hmore, rfl⟩ := Option.map_eq_some_iff.1 h
    have hcomp : (fun r : String × List Char => r.2.isPrefixOf s.rest) ∘ (fun w => (k, w)) =
        (·.isPrefixOf s.rest) := rfl
    rw [firstMatch?, Pattern.firstEnd?_eq_of_words? hws, front?, List.find?_append, List.find?_map, hcomp]
    cases hfind : ws.find? (·.isPrefixOf s.rest) with
    | none => simpa [front?] using ih hmore
    | some w =>
      have hupto : s.upTo (s.after w) = w := Pattern.Place.upTo_after (by simpa using List.find?_some hfind)
      simp [hupto]

theorem Knows.next?_word (hx : x.Knows tb) (hr : tb.front? cs = some r) :
    x.next? ⟨b, cs⟩ = some (some (token r), ⟨r.2.reverse ++ b, cs.drop r.2.length⟩) := by
  obtain ⟨hsilent, -, hchars⟩ := hx.proper r (front?_mem hr)
  have htoken : tokenOf r.1 r.2 = token r := by
    unfold tokenOf
    split
    · rename_i h
      exact absurd (hchars '(' (by simp [h])).2 (by decide)
    · rename_i h
      exact absurd (hchars ')' (by simp [h])).2 (by decide)
    · rfl
  simp [next?, firstMatch?_eq_of_table? hx.table, hr, hsilent, htoken, Pattern.Place.after]

theorem Knows.next?_bracket (hx : x.Knows tb) (hc : isBracket c = true) :
    x.next? ⟨b, c :: cs⟩ = some (some (.literal (String.singleton c)), ⟨c :: b, cs⟩) := by
  have hnone : tb.front? (c :: cs) = none := hx.proper.front?_eq_none (.inr hc)
  simp [next?, firstMatch?_eq_of_table? hx.table, hnone, hc, Pattern.Place.next]

/-- at a place there is the first word that stands there, or else a bracket -/
theorem Knows.next?_cases (hx : x.Knows tb) {t : Option Token} {s s' : Pattern.Place} (h : x.next? s = some (t, s')) :
    (∃ r, tb.front? s.rest = some r ∧ t = some (token r) ∧ s' = s.after r.2) ∨
    ∃ c cs, tb.front? s.rest = none ∧ s.rest = c :: cs ∧ isBracket c = true ∧ t = some (.literal (String.singleton c)) ∧
      s' = s.next c cs := by
  obtain ⟨b, rest⟩ := s
  cases hfront : tb.front? rest with
  | some r =>
    rw [hx.next?_word hfront] at h
    cases h
    exact .inl ⟨r, rfl, rfl, rfl⟩
  | none =>
    cases rest with
    | nil => simp [next?, firstMatch?_eq_of_table? hx.table, hfront] at h
    | cons c cs =>
      have hbracket : isBracket c = true := by
        by_contra hc
        simp [next?, firstMatch?_eq_of_table? hx.table, hfront, hc] at h
      rw [hx.next?_bracket hbracket] at h
      cases h
      exact .inr ⟨c, cs, rfl, rfl, hbracket, rfl, rfl⟩

theorem scan_next {t : Token} {s : Pattern.Place} (hc : c ∉ x.gaps) (hnext : x.next? ⟨b, c :: cs⟩ = some (some t, s))
    (hlt : s.rest.length < (c :: cs).length) (h : x.scan s = .ok ts) : x.scan ⟨b, c :: cs⟩ = .ok (t :: ts) := by
  rw [scan]
  simp only [List.contains_iff_mem, hc, if_false, hnext, hlt, if_true, h]
  rfl

theorem Knows.cut_of_scan (hx : x.Knows tb) {s : Pattern.Place} (h : x.scan s = .ok ts) : tb.Cut s.rest ts := by
  fun_induction scan x s generalizing ts with
  | case1 s hrest =>
    obtain rfl := Except.ok.inj h
    rw [hrest]
    exact .done
  | case2 s c cs hrest hgap ih =>
    rw [hrest]
    exact .blank (by simpa [hx.gaps] using hgap) (ih h)
  | case3 => simp at h
  | case4 s c cs hrest hgap t s' hnext hlt ih =>
    cases hrec : scan x s' with
    | error e => simp [hrec] at h
    | ok us =>
      simp only [hrec, ok_bind, pure_ok, Except.ok.injEq] at h
      subst h
      have hcut := ih hrec
      rcases hx.next?_cases hnext with ⟨r, hfront, rfl, rfl⟩ | ⟨d, ds, -, hd, hbracket, rfl, rfl⟩
      · obtain ⟨u, hu⟩ := front?_prefix hfront
        rw [← hu] at hfront ⊢
        exact .word hfront (by simpa [Pattern.Place.after, ← hu] using hcut)
      · rw [hd]
        exact .bracket hbracket hcut
  | case5 => simp at h

theorem Knows.scan_of_cut (hx : x.Knows tb) (h : tb.Cut cs ts) (b : List Char) : x.scan ⟨b, cs⟩ = .ok ts := by
  induction h generalizing b with
  | done => simp [scan]
  | @blank c cs ts hc _ ih =>
    rw [scan]
    simp only [List.contains_iff_mem, hx.gaps, hc, if_true]
    exact ih _
  | @word r cs ts hr _ ih =>
    obtain ⟨-, hne, hchars⟩ := hx.proper r (front?_mem hr)
    have hnext := hx.next?_word (b := b) hr
    obtain ⟨d, w, hw⟩ := List.exists_cons_of_ne_nil hne
    have hd : d ∉ x.gaps := by
      rw [hx.gaps]
      exact (hchars d (by simp [hw])).1
    rw [List.drop_left] at hnext
    rw [hw, List.cons_append] at hnext ⊢
    have hshorter : cs.length < (d :: (w ++ cs)).length := by
      rw [List.length_cons, List.length_append]
      omega
    exact scan_next hd hnext hshorter (ih _)
  | @bracket c cs ts hc _ ih =>
    have hgap : c ∉ x.gaps := by
      rw [hx.gaps]
      intro hmem
      simp only [blanks, List.mem_cons, List.not_mem_nil, or_false] at hmem
      rcases hmem with rfl | rfl <;> exact absurd hc (by decide)
    exact scan_next hgap (hx.next?_bracket hc) (by simp) (ih _)

/-- **Cutting a text.** A lexer that looks for words cuts a text exactly as the table says. -/
theorem Knows.scan_eq_ok_iff (hx : x.Knows tb) : x.scan ⟨b, cs⟩ = .ok ts ↔ tb.Cut cs ts :=
  ⟨hx.cut_of_scan, fun h => hx.scan_of_cut h b⟩

end Lexer

end TableauTutor
