import Mathlib.Data.List.Infix
import TableauTutor.Proof.Tree

/-!
Proofs written as forests. A node is a pair of brackets around its sentence and the brackets of its children, each on a
line of its own. The closing of a branch stands in brackets of its own behind a blank, and some of its signs are written
in another way. All of it can be read back: what comes first behind a sentence, a line break or a bracket of either
kind, tells what the node is.

- `ProofTree.forest_faithful`: a forest says all that is shown of a proof.
-/

namespace TableauTutor

open Text

/-! ## Closings -/

section Closings

variable {l l' r x : List Char} {c : Char}

/-- what is written in a forest for three crosses -/
def times : List Char := ['\\', 't', 'i', 'm', 'e', 's']

/-- a closing with its crosses written like that -/
def crossed (l : List Char) : List Char := replaceFrom ['X', 'X', 'X'] times 0 l

/-- a closing with braces around its commas -/
def shielded (l : List Char) : List Char := replaceFrom [','] ['\x7b', ',', '\x7d'] 0 l

theorem toList_texCloser (s : String) : (PrintedTree.texCloser s).toList = shielded (crossed s.toList) := by
  simp only [PrintedTree.texCloser, Text.replace, String.toList_ofList]
  rfl

theorem mem_replaceFrom {old new : List Char} {n : Nat} (h : c ∈ replaceFrom old new n l) : c ∈ l ∨ c ∈ new := by
  fun_induction replaceFrom old new n l with
  | case1 => cases h
  | case2 _ _ _ ih => exact (ih h).imp_left (List.mem_cons_of_mem _)
  | case3 _ _ _ ih =>
    rcases List.mem_append.1 h with h | h
    · exact .inr h
    · exact (ih h).imp_left (List.mem_cons_of_mem _)
  | case4 _ _ _ ih =>
    rcases List.mem_cons.1 h with rfl | h
    · exact .inl List.mem_cons_self
    · exact (ih h).imp_left (List.mem_cons_of_mem _)

theorem shielded_cons (c : Char) (l : List Char) :
    shielded (c :: l) = if c = ',' then '\x7b' :: ',' :: '\x7d' :: shielded l else c :: shielded l := by
  by_cases h : c = ','
  · subst h
    rfl
  · have hne : ¬ [','].isPrefixOf (c :: l) = true := by simpa [List.isPrefixOf] using Ne.symm h
    rw [if_neg h, shielded, replaceFrom, if_neg hne]
    rfl

theorem shielded_ne_comma : shielded l ≠ ',' :: r := by
  cases l with
  | nil => exact nofun
  | cons c l =>
    rw [shielded_cons]
    split
    · simp
    · rename_i hne
      simp [hne]

/-- a comma is always behind a brace of its own -/
theorem shielded_inj (h : shielded l = shielded l') : l = l' := by
  have hnil {c : Char} {l : List Char} : shielded (c :: l) ≠ [] := by
    rw [shielded_cons]
    split <;> simp
  induction l generalizing l' with
  | nil =>
    cases l' with
    | nil => rfl
    | cons c' l' => exact absurd h.symm hnil
  | cons c l ih =>
    cases l' with
    | nil => exact absurd h hnil
    | cons c' l' =>
      rw [shielded_cons, shielded_cons] at h
      split at h <;> split at h
      · rename_i hc hc'
        rw [hc, hc', ih (by simpa using h)]
      · exact absurd (List.cons.inj h).2.symm shielded_ne_comma
      · exact absurd (List.cons.inj h).2 shielded_ne_comma
      · obtain ⟨hc, hrest⟩ := List.cons.inj h
        rw [hc, ih hrest]

/-- a closing is empty, begins with three crosses, or begins with what stays as it is -/
theorem crossed_cases (l : List Char) : l = [] ∨ (∃ r, l = 'X' :: 'X' :: 'X' :: r ∧ crossed l = times ++ crossed r) ∨
    ∃ c r, l = c :: r ∧ crossed l = c :: crossed r := by
  cases l with
  | nil => exact .inl rfl
  | cons c l =>
    by_cases h : ['X', 'X', 'X'] <+: c :: l
    · obtain ⟨r, hr⟩ := h
      rw [← hr]
      exact .inr (.inl ⟨r, rfl, rfl⟩)
    · rw [← List.isPrefixOf_iff_prefix] at h
      refine .inr (.inr ⟨c, l, rfl, ?_⟩)
      rw [crossed, replaceFrom, if_neg h]
      rfl

theorem crossed_eq_append {w : List Char} (hw : '\\' ∉ w) (h : crossed l = w ++ x) :
    ∃ r, l = w ++ r ∧ crossed r = x := by
  induction w generalizing l with
  | nil => exact ⟨l, rfl, h⟩
  | cons d w ih =>
    obtain ⟨hd, hw⟩ := not_or.1 (List.mem_cons.not.1 hw)
    rcases crossed_cases l with rfl | ⟨r, -, hr⟩ | ⟨c, r, rfl, hr⟩
    · cases h
    · rw [hr] at h
      exact absurd (List.cons.inj h).1 hd
    · rw [hr] at h
      obtain ⟨hc, hrest⟩ := List.cons.inj h
      obtain ⟨r', hr', hx⟩ := ih hw hrest
      exact ⟨r', by rw [hc, hr']; rfl, hx⟩

theorem cons_ne_times (hl : ¬ times <:+: c :: l) : c :: crossed l ≠ times ++ x := by
  intro h
  obtain ⟨hc, hrest⟩ := List.cons.inj h
  obtain ⟨r, hr, -⟩ := crossed_eq_append (w := times.tail) (by decide) hrest
  exact hl ⟨[], r, by rw [hc, hr]; rfl⟩

theorem crossed_inj (hl : ¬ times <:+: l) (hl' : ¬ times <:+: l') (h : crossed l = crossed l') : l = l' := by
  induction hn : l.length using Nat.strong_induction_on generalizing l l' with
  | _ n ih =>
    have hend {l r : List Char} (hl : ¬ times <:+: l) (hr : r <:+ l) : ¬ times <:+: r := fun hx =>
      hl (hx.trans hr.isInfix)
    rcases crossed_cases l with rfl | ⟨r, rfl, hr⟩ | ⟨c, r, rfl, hr⟩ <;>
      rcases crossed_cases l' with rfl | ⟨r', rfl, hr'⟩ | ⟨c', r', rfl, hr'⟩
    · rfl
    · cases h.trans hr'
    · cases h.trans hr'
    · cases hr.symm.trans h
    · have hrest : crossed r = crossed r' := List.append_cancel_left (hr.symm.trans (h.trans hr'))
      have hr₃ {r : List Char} : r <:+ 'X' :: 'X' :: 'X' :: r := ⟨['X', 'X', 'X'], rfl⟩
      rw [ih r.length (by simp only [List.length_cons] at hn; omega) (hend hl hr₃) (hend hl' hr₃) hrest rfl]
    · exact absurd (hr'.symm.trans (h.symm.trans hr)) (cons_ne_times hl')
    · cases hr.symm.trans h
    · exact absurd (hr.symm.trans (h.trans hr')) (cons_ne_times hl)
    · obtain ⟨hc, hrest⟩ := List.cons.inj (hr.symm.trans (h.trans hr'))
      rw [hc, ih r.length (by simp only [List.length_cons] at hn; omega) (hend hl (List.suffix_cons _ _))
        (hend hl' (List.suffix_cons _ _)) hrest rfl]

/-- **Closings can be read back**, if what is written for crosses is not in them. -/
theorem texCloser_inj {c c' : String} (hc : ¬ times <:+: c.toList) (hc' : ¬ times <:+: c'.toList)
    (h : (PrintedTree.texCloser c).toList = (PrintedTree.texCloser c').toList) : c = c' := by
  rw [toList_texCloser, toList_texCloser] at h
  exact String.toList_inj.1 (crossed_inj hc hc' (shielded_inj h))

-- without the condition they cannot
example : PrintedTree.texCloser "\\times, 1" = PrintedTree.texCloser "XXX, 1" := by decide +kernel

end Closings

/-! ## What is shown of a proof -/

/-- what may come behind a sentence or a closing -/
def marks : List Char := ['[', ']', '\n']

/-- a text with neither brackets nor line breaks -/
def Unmarked (l : List Char) : Prop := ∀ c ∈ l, c ∉ marks

theorem unmarked_iff {l : List Char} : Unmarked l ↔ l.all (!marks.contains ·) = true := by
  simp [Unmarked]

theorem Unmarked.append_inj {l l' r r' : List Char} {x x' : Char} (hl : Unmarked l) (hl' : Unmarked l') (hx : x ∈ marks)
    (hx' : x' ∈ marks) (h : l ++ x :: r = l' ++ x' :: r') : l = l' ∧ x = x' ∧ r = r' := by
  induction l generalizing l' with
  | nil =>
    cases l' with
    | nil => exact ⟨rfl, List.cons.inj h⟩
    | cons c' l' => exact absurd ((List.cons.inj h).1 ▸ hx) (hl' c' List.mem_cons_self)
  | cons c l ih =>
    cases l' with
    | nil => exact absurd ((List.cons.inj h).1.symm ▸ hx') (hl c List.mem_cons_self)
    | cons c' l' =>
      obtain ⟨hc, hrest⟩ := List.cons.inj h
      obtain ⟨hll, hxx⟩ := ih (fun d hd => hl d (List.mem_cons_of_mem _ hd))
        (fun d hd => hl' d (List.mem_cons_of_mem _ hd)) hrest
      exact ⟨by rw [hc, hll], hxx⟩

theorem Unmarked.texCloser {c : String} (hc : Unmarked c.toList) : Unmarked (PrintedTree.texCloser c).toList := by
  intro d hd
  rw [toList_texCloser] at hd
  have htimes : Unmarked times := unmarked_iff.2 (by decide)
  have hbraces : Unmarked ['\x7b', ',', '\x7d'] := unmarked_iff.2 (by decide)
  rcases mem_replaceFrom hd with hd | hd
  · exact (mem_replaceFrom hd).elim (hc d) (htimes d)
  · exact hbraces d hd

theorem Unmarked.concat_blank {l : List Char} (hl : Unmarked l) : Unmarked (l ++ [' ']) := by
  intro d hd
  rcases List.mem_append.1 hd with hd | hd
  · exact hl d hd
  · rw [List.mem_singleton.1 hd]
    decide

/-- what is shown of a proof: sentences as they are read, and how branches are closed -/
inductive Shown where
  | leaf (sentence : String) (closer : Option String)
  | inner (sentence : String) (first : Shown) (rest : List Shown)

namespace Shown

mutual
/-- there are no brackets and no line breaks, and closings are not empty and do not have what is written for crosses -/
def Plain : Shown → Prop
  | leaf s closer => Unmarked s.toList ∧ ∀ c ∈ closer, c ≠ "" ∧ Unmarked c.toList ∧ ¬ times <:+: c.toList
  | inner s t ts => Unmarked s.toList ∧ Plain t ∧ PlainAll ts

def PlainAll : List Shown → Prop
  | [] => True
  | t :: ts => Plain t ∧ PlainAll ts
end

mutual
/-- the brackets, and what follows them -/
def write (r : List Char) : Shown → List Char
  | leaf s none => '[' :: (s.toList ++ ']' :: r)
  | leaf s (some c) => '[' :: (s.toList ++ [' '] ++ '[' :: ((PrintedTree.texCloser c).toList ++ ']' :: ']' :: r))
  | inner s t ts => '[' :: (s.toList ++ '\n' :: t.write (writeAll (']' :: r) ts))

def writeAll (r : List Char) : List Shown → List Char
  | [] => r
  | t :: ts => '\n' :: t.write (writeAll r ts)
end

/-- the sentence, and the blank before a closing -/
def opening : Shown → List Char
  | leaf s none => s.toList
  | leaf s (some _) => s.toList ++ [' ']
  | inner s _ _ => s.toList

/-- the mark behind it -/
def mark : Shown → Char
  | leaf _ none => ']'
  | leaf _ (some _) => '['
  | inner _ _ _ => '\n'

theorem mark_mem : ∀ t : Shown, t.mark ∈ marks
  | leaf _ none => by simp [mark, marks]
  | leaf _ (some _) => by simp [mark, marks]
  | inner _ _ _ => by simp [mark, marks]

theorem Plain.opening : ∀ {t : Shown}, t.Plain → Unmarked t.opening
  | leaf _ none, ht => ht.1
  | leaf _ (some _), ht => ht.1.concat_blank
  | inner _ _ _, ht => ht.1

theorem exists_write_eq (r : List Char) : ∀ t : Shown, ∃ x, t.write r = '[' :: (t.opening ++ t.mark :: x)
  | leaf _ none => ⟨_, rfl⟩
  | leaf _ (some _) => ⟨_, rfl⟩
  | inner _ _ _ => ⟨_, rfl⟩

theorem mark_eq {t u : Shown} {r r' : List Char} (ht : t.Plain) (hu : u.Plain) (h : t.write r = u.write r') :
    t.mark = u.mark := by
  obtain ⟨x, hx⟩ := t.exists_write_eq r
  obtain ⟨y, hy⟩ := u.exists_write_eq r'
  rw [hx, hy] at h
  exact (ht.opening.append_inj hu.opening t.mark_mem u.mark_mem (List.cons.inj h).2).2.1

mutual
/-- **Trees can be read back**, whatever follows. -/
theorem write_inj {r r' : List Char} : ∀ {t u : Shown}, t.Plain → u.Plain → t.write r = u.write r' → t = u ∧ r = r'
  | leaf s none, leaf s' none, ht, hu, h => by
    obtain ⟨hs, -, hr⟩ := ht.1.append_inj hu.1 (by decide) (by decide) (List.cons.inj h).2
    rw [String.toList_inj.1 hs]
    exact ⟨rfl, hr⟩
  | leaf s (some c), leaf s' (some c'), ht, hu, h => by
    obtain ⟨hs, -, hrest⟩ := ht.1.concat_blank.append_inj hu.1.concat_blank (by decide) (by decide) (List.cons.inj h).2
    obtain ⟨-, hc, hct⟩ := ht.2 c rfl
    obtain ⟨-, hc', hct'⟩ := hu.2 c' rfl
    obtain ⟨hcc, -, hr⟩ := hc.texCloser.append_inj hc'.texCloser (by decide) (by decide) hrest
    rw [String.toList_inj.1 (List.append_cancel_right hs), texCloser_inj hct hct' hcc]
    exact ⟨rfl, (List.cons.inj hr).2⟩
  | inner s t ts, inner s' u us, ht, hu, h => by
    obtain ⟨hs, -, hrest⟩ := ht.1.append_inj hu.1 (by decide) (by decide) (List.cons.inj h).2
    obtain ⟨htu, hrest⟩ := write_inj ht.2.1 hu.2.1 hrest
    obtain ⟨hts, hr⟩ := writeAll_inj ht.2.2 hu.2.2 hrest
    rw [String.toList_inj.1 hs, htu, hts]
    exact ⟨rfl, hr⟩
  | leaf _ none, leaf _ (some _), ht, hu, h => absurd (mark_eq ht hu h) (by simp [mark])
  | leaf _ (some _), leaf _ none, ht, hu, h => absurd (mark_eq ht hu h) (by simp [mark])
  | leaf _ none, inner _ _ _, ht, hu, h => absurd (mark_eq ht hu h) (by simp [mark])
  | leaf _ (some _), inner _ _ _, ht, hu, h => absurd (mark_eq ht hu h) (by simp [mark])
  | inner _ _ _, leaf _ none, ht, hu, h => absurd (mark_eq ht hu h) (by simp [mark])
  | inner _ _ _, leaf _ (some _), ht, hu, h => absurd (mark_eq ht hu h) (by simp [mark])

theorem writeAll_inj {r r' : List Char} : ∀ {ts us : List Shown}, PlainAll ts → PlainAll us →
    writeAll (']' :: r) ts = writeAll (']' :: r') us → ts = us ∧ r = r'
  | [], [], _, _, h => ⟨rfl, (List.cons.inj h).2⟩
  | [], _ :: _, _, _, h => absurd (List.cons.inj h).1 (by decide)
  | _ :: _, [], _, _, h => absurd (List.cons.inj h).1 (by decide)
  | t :: ts, u :: us, hts, hus, h => by
    obtain ⟨htu, hrest⟩ := write_inj hts.1 hus.1 (List.cons.inj h).2
    obtain ⟨htus, hr⟩ := writeAll_inj hts.2 hus.2 hrest
    rw [htu, htus]
    exact ⟨rfl, hr⟩
end

end Shown

namespace ProofTree

mutual
/-- what a forest shows of a proof -/
def shown : ProofTree → Shown
  | node d [] => .leaf (Style.forest.sentence d.sentence) (d.closed.map (·.text))
  | node d (t :: ts) => .inner (Style.forest.sentence d.sentence) (shown t) (shownAll ts)

def shownAll : List ProofTree → List Shown
  | [] => []
  | t :: ts => shown t :: shownAll ts
end

theorem toList_join_cons (x : String) (xs : List String) :
    (Text.join "\n" (x :: xs)).toList = x.toList ++ xs.flatMap fun y => '\n' :: y.toList := by
  induction xs generalizing x with
  | nil => simp [Text.join]
  | cons y ys ih =>
    rw [Text.join, String.intercalate_cons_cons, String.toList_append, String.toList_append, ← Text.join, ih]
    simp

mutual
theorem toList_brackets {r : List Char} :
    ∀ {t : ProofTree}, t.shown.Plain → t.printed.brackets.toList ++ r = t.shown.write r
  | node d [], ht => by
    cases hd : d.closed with
    | none => simp [printed, PrintedTree.brackets, shown, Shown.write, hd]
    | some c =>
      have hc : c.text ≠ "" := (ht.2 c.text (by rw [hd]; rfl)).1
      simp [printed, PrintedTree.brackets, shown, Shown.write, hd, hc]
  | node d (t :: ts), ht => by
    rw [shown, Shown.write, ← toList_brackets ht.2.1, ← flatMap_bracketsAll ht.2.2]
    simp [printed, PrintedTree.brackets, PrintedTree.bracketsAll, toList_join_cons]

theorem flatMap_bracketsAll {r : List Char} : ∀ {ts : List ProofTree}, Shown.PlainAll (shownAll ts) →
    (PrintedTree.bracketsAll (printedAll ts)).flatMap (fun y => '\n' :: y.toList) ++ r = Shown.writeAll r (shownAll ts)
  | [], _ => rfl
  | t :: ts, hts => by
    rw [shownAll, Shown.writeAll, ← toList_brackets hts.1, ← flatMap_bracketsAll hts.2]
    simp [printedAll, PrintedTree.bracketsAll]
end

/-- **Forests are faithful.** Where the same lines are written for two proofs, all that is shown is the same: the shape,
the sentences and the closings. -/
theorem forest_faithful {t u : ProofTree} (ht : t.shown.Plain) (hu : u.shown.Plain)
    (h : t.printed.write .forest = u.printed.write .forest) : t.shown = u.shown := by
  have hb : t.printed.brackets = u.printed.brackets := by simpa [PrintedTree.write] using h
  have hw : t.shown.write [] = u.shown.write [] := by rw [← toList_brackets ht, ← toList_brackets hu, hb]
  exact (Shown.write_inj ht hu hw).1

/-- one proof on branches of other colours, with a closing at the left -/
theorem forest_faithful_recoloured :
    let closing : Closing := { success := true, text := "XXX(1, 2)" }
    let tree (left right : String) := node ⟨["sentvar_p", "or_or", "sentvar_q"], left, 0, {}, none⟩
      [node ⟨["sentvar_p"], left, 1, {}, some closing⟩ [], node ⟨["sentvar_q"], right, 1, {}, none⟩ []]
    (tree "Green" "Red").shown = (tree "Blue" "Black").shown := by
  intro closing tree
  have hplain : (tree "" "").shown.Plain := by
    refine ⟨unmarked_iff.2 (by decide +kernel), ⟨unmarked_iff.2 (by decide +kernel), ?_⟩,
      ⟨unmarked_iff.2 (by decide +kernel), nofun⟩, trivial⟩
    rintro c ⟨⟩
    exact ⟨by decide, unmarked_iff.2 (by decide +kernel), by decide +kernel⟩
  exact forest_faithful hplain hplain (by decide +kernel)

end ProofTree

end TableauTutor
