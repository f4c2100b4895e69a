import TableauTutor.Proofs.Computations
import TableauTutor.Sentence.SyntaxCheck

/-!
The grammar of formulas, over outlines. `IsFormula` derives outlines; `Accepts` reads one from left to right with a
counter of open brackets. A production that is applied anywhere changes nothing for the reader, so the reduction of an
outline ends in a single atom exactly for the formulas.

- `accepts_iff`: the reader accepts exactly the formulas.
- `checkSyntax_eq_none`: the syntax check finds no mistake exactly in the formulas.
-/

namespace TableauTutor

namespace Outline

/-- the outlines that the grammar of formulas derives -/
inductive IsFormula : List Mark → Prop where
  | atom : IsFormula [.atom]
  | unary {w : List Mark} (h : IsFormula w) : IsFormula (.unary :: w)
  | binary {u v : List Mark} (hu : IsFormula u) (hv : IsFormula v) : IsFormula (u ++ .binary :: v)
  | bracketed {w : List Mark} (h : IsFormula w) : IsFormula (.left :: w ++ [.right])

/-- where a reader of outlines is: whether an argument has to come next, and how many brackets are open -/
structure ReaderState where
  expecting : Bool := true
  depth : Nat := 0
deriving DecidableEq, Repr

/-- one mark read; none where it cannot stand -/
def ReaderState.step? : ReaderState → Mark → Option ReaderState
  | ⟨true, d⟩, .atom => some ⟨false, d⟩
  | ⟨true, d⟩, .unary => some ⟨true, d⟩
  | ⟨true, d⟩, .left => some ⟨true, d + 1⟩
  | ⟨false, d⟩, .binary => some ⟨true, d⟩
  | ⟨false, d + 1⟩, .right => some ⟨false, d⟩
  | _, _ => none

/-- marks read one after another -/
def reader? (s : ReaderState) : List Mark → Option ReaderState
  | [] => some s
  | m :: ms => (s.step? m).bind fun s => reader? s ms

/-- the whole outline is read, and nothing is expected or open at the end -/
def Accepts (w : List Mark) : Prop := reader? {} w = some ⟨false, 0⟩

instance (w : List Mark) : Decidable (Accepts w) := inferInstanceAs (Decidable (_ = _))

theorem reader?_append (s : ReaderState) (u v : List Mark) :
    reader? s (u ++ v) = (reader? s u).bind fun s => reader? s v := by
  induction u generalizing s with
  | nil => rfl
  | cons m u ih =>
    simp only [List.cons_append, reader?]
    cases s.step? m with
    | none => rfl
    | some s' => exact ih s'

/-- a formula is read where an argument has to come, and leaves the brackets as they are -/
theorem IsFormula.reader? {w : List Mark} (h : IsFormula w) (d : Nat) : reader? ⟨true, d⟩ w = some ⟨false, d⟩ := by
  induction h generalizing d with
  | atom => rfl
  | unary _ ih => exact ih d
  | binary _ _ ihu ihv =>
    rw [reader?_append, ihu]
    exact ihv d
  | bracketed _ ih =>
    rw [List.cons_append, Outline.reader?, ReaderState.step?, Option.bind_some, reader?_append, ih]
    rfl

/-- what can follow an argument within d brackets: connectives with their right arguments, and the brackets closed -/
inductive Tail : Nat → List Mark → Prop where
  | nil : Tail 0 []
  | close {d : Nat} {v : List Mark} (h : Tail d v) : Tail (d + 1) (.right :: v)
  | binary {d : Nat} {u v : List Mark} (hu : IsFormula u) (h : Tail d v) : Tail d (.binary :: u ++ v)

theorem Tail.isFormula {u v : List Mark} (h : Tail 0 v) (hu : IsFormula u) : IsFormula (u ++ v) := by
  generalize hd : 0 = d at h
  induction h generalizing u with
  | nil => simpa using hu
  | close => simp at hd
  | @binary _ w _ hw _ ih =>
    have := ih (hu.binary hw) hd
    simpa using this

/-- what follows an argument within brackets is the end of the innermost pair, and what follows that pair -/
theorem Tail.innermost {d : Nat} {v : List Mark} (h : Tail (d + 1) v) :
    ∃ m v', v = m ++ .right :: v' ∧ Tail d v' ∧ ∀ u, IsFormula u → IsFormula (u ++ m) := by
  generalize hd : d + 1 = n at h
  induction h with
  | nil => simp at hd
  | @close n v h =>
    obtain rfl : d = n := by omega
    exact ⟨[], v, rfl, h, fun u hu => by simpa using hu⟩
  | @binary n w v hw h ih =>
    obtain ⟨m, v', rfl, hv', hm⟩ := ih hd
    refine ⟨.binary :: w ++ m, v', by simp, hv', fun u hu => ?_⟩
    have := hm _ (hu.binary hw)
    simpa using this

/-- what the reader accepts is an argument and what can follow it -/
theorem tail_of_reader? (w : List Mark) :
    (∀ d, reader? ⟨true, d⟩ w = some ⟨false, 0⟩ → ∃ u v, w = u ++ v ∧ IsFormula u ∧ Tail d v) ∧
      ∀ d, reader? ⟨false, d⟩ w = some ⟨false, 0⟩ → Tail d w := by
  induction w with
  | nil =>
    refine ⟨fun d h => by simp [reader?] at h, fun d h => ?_⟩
    simp only [reader?, Option.some.injEq, ReaderState.mk.injEq, true_and] at h
    exact h ▸ .nil
  | cons m w ih =>
    obtain ⟨ihe, iht⟩ := ih
    refine ⟨fun d h => ?_, fun d h => ?_⟩
    · cases m with
      | atom => exact ⟨[.atom], w, rfl, .atom, iht d h⟩
      | unary =>
        obtain ⟨u, v, rfl, hu, hv⟩ := ihe d h
        exact ⟨.unary :: u, v, rfl, hu.unary, hv⟩
      | left =>
        obtain ⟨u, v, rfl, hu, hv⟩ := ihe (d + 1) h
        obtain ⟨m, v', rfl, hv', hm⟩ := hv.innermost
        exact ⟨.left :: (u ++ m) ++ [.right], v', by simp, (hm u hu).bracketed, hv'⟩
      | right => simp [reader?, ReaderState.step?] at h
      | binary => simp [reader?, ReaderState.step?] at h
    · cases m with
      | atom => simp [reader?, ReaderState.step?] at h
      | unary => simp [reader?, ReaderState.step?] at h
      | left => simp [reader?, ReaderState.step?] at h
      | right =>
        cases d with
        | zero => simp [reader?, ReaderState.step?] at h
        | succ d => exact .close (iht d h)
      | binary =>
        obtain ⟨u, v, rfl, hu, hv⟩ := ihe d h
        exact .binary hu hv

theorem accepts_iff {w : List Mark} : Accepts w ↔ IsFormula w := by
  refine ⟨fun h => ?_, fun h => h.reader? 0⟩
  obtain ⟨u, v, rfl, hu, hv⟩ := (tail_of_reader? w).1 0 h
  exact hv.isFormula hu

/-! ## Reduction -/

theorem find?_eq_some {α : Type} [BEq α] [LawfulBEq α] {p xs : List α} {i : Nat} (h : find? p xs = some i) :
    xs = xs.take i ++ p ++ xs.drop (i + p.length) := by
  induction xs generalizing i with
  | nil =>
    simp only [find?, Option.ite_none_right_eq_some, List.isEmpty_iff] at h
    simp [h.1]
  | cons x xs ih =>
    simp only [find?] at h
    split at h
    · rename_i hpre
      obtain ⟨rest, hrest⟩ := List.isPrefixOf_iff_prefix.1 hpre
      obtain rfl : 0 = i := by simpa using h
      simp [← hrest]
    · obtain ⟨j, hj, rfl⟩ := Option.map_eq_some_iff.1 h
      have := ih hj
      simp only [List.take_succ_cons, Nat.add_right_comm j 1, List.drop_succ_cons, List.cons_append]
      rw [← this]

theorem find?_isSome {α : Type} [BEq α] [LawfulBEq α] {p xs : List α} (h : p <:+: xs) : (find? p xs).isSome := by
  induction xs with
  | nil => simp [find?, List.infix_nil.1 h]
  | cons x xs ih =>
    simp only [find?]
    split
    · rfl
    · rename_i hpre
      rcases List.infix_cons_iff.1 h with h | h
      · exact absurd (List.isPrefixOf_iff_prefix.2 h) hpre
      · simpa using ih h

/-- a production is read as the atom that stands for it -/
theorem reader?_production {p : List Mark} (hp : p ∈ productions) (s : ReaderState) :
    reader? s p = reader? s [.atom] := by
  obtain ⟨e, d⟩ := s
  simp only [productions, List.mem_cons, List.not_mem_nil, or_false] at hp
  rcases hp with rfl | rfl | rfl <;> cases e <;> rfl

theorem accepts_replace {p : List Mark} (hp : p ∈ productions) (u v : List Mark) :
    Accepts (u ++ p ++ v) ↔ Accepts (u ++ [.atom] ++ v) := by
  simp only [Accepts, reader?_append, reader?_production hp]

theorem length_production {p : List Mark} (hp : p ∈ productions) : 2 ≤ p.length := by
  simp only [productions, List.mem_cons, List.not_mem_nil, or_false] at hp
  rcases hp with rfl | rfl | rfl <;> decide

theorem replaceOnce?_eq_some {p : List Mark} (hp : p ∈ productions) {x y : Placed Mark}
    (h : replaceOnce? p [.atom] x = some y) : (Accepts x.marks ↔ Accepts y.marks) ∧
    y.marks.length < x.marks.length := by
  obtain ⟨i, hi, rfl⟩ := Option.map_eq_some_iff.1 h
  have hx := find?_eq_some hi
  have hlen := congrArg List.length hx
  have := length_production hp
  refine ⟨?_, ?_⟩
  · rw [hx, accepts_replace hp, ← hx]
  · simp only [List.length_append, List.length_cons, List.length_nil] at hlen ⊢
    omega

/-- what a reduction may do: what the reader says stays, and the outline is the same or shorter -/
def Reduces (x y : Placed Mark) : Prop :=
  (Accepts x.marks ↔ Accepts y.marks) ∧ (y = x ∨ y.marks.length < x.marks.length)

theorem Reduces.refl (x : Placed Mark) : Reduces x x := ⟨Iff.rfl, .inl rfl⟩

theorem Reduces.trans {x y z : Placed Mark} (hxy : Reduces x y) (hyz : Reduces y z) : Reduces x z := by
  refine ⟨hxy.1.trans hyz.1, ?_⟩
  rcases hxy.2 with rfl | hxy <;> rcases hyz.2 with rfl | hyz
  · exact .inl rfl
  · exact .inr hyz
  · exact .inr hxy
  · exact .inr (Nat.lt_trans hyz hxy)

theorem Reduces.length_le {x y : Placed Mark} (h : Reduces x y) : y.marks.length ≤ x.marks.length := by
  rcases h.2 with rfl | h
  · exact Nat.le_refl _
  · exact Nat.le_of_lt h

/-- replacing a production as often as possible makes the outline shorter where the production occurs -/
theorem replaceAll_reduces {p : List Mark} (hp : p ∈ productions) (fuel : Nat) (x : Placed Mark) :
    Reduces x (replaceAll p [.atom] fuel x) ∧
      (0 < fuel → p <:+: x.marks → (replaceAll p [.atom] fuel x).marks.length < x.marks.length) := by
  induction fuel generalizing x with
  | zero => exact ⟨.refl x, fun h => by omega⟩
  | succ fuel ih =>
    rw [replaceAll]
    cases hy : replaceOnce? p [.atom] x with
    | none =>
      refine ⟨.refl x, fun _ hin => ?_⟩
      have hfound := find?_isSome hin
      rw [replaceOnce?, Option.map_eq_none_iff] at hy
      simp [hy] at hfound
    | some y =>
      obtain ⟨hacc, hlen⟩ := replaceOnce?_eq_some hp hy
      have hrest := (ih y).1
      have hle := hrest.length_le
      exact ⟨.trans ⟨hacc, .inr hlen⟩ hrest, fun _ _ => by simp only; omega⟩

/-- productions applied one after another make the outline shorter where one of them occurs -/
theorem foldl_reduces (ps : List (List Mark)) (hps : ∀ p ∈ ps, p ∈ productions) (x : Placed Mark) :
    let y := ps.foldl (fun y p => replaceAll p [Mark.atom] y.marks.length y) x
    Reduces x y ∧ ((∃ p ∈ ps, p <:+: x.marks) → y.marks.length < x.marks.length) := by
  induction ps generalizing x with
  | nil => exact ⟨.refl x, fun ⟨p, hp, _⟩ => by simp at hp⟩
  | cons p ps ih =>
    obtain ⟨hred, hshort⟩ := replaceAll_reduces (hps p List.mem_cons_self) x.marks.length x
    obtain ⟨ihred, ihshort⟩ := ih (fun q hq => hps q (List.mem_cons_of_mem _ hq))
      (replaceAll p [.atom] x.marks.length x)
    have hle := ihred.length_le
    refine ⟨hred.trans ihred, ?_⟩
    rintro ⟨q, hq, hin⟩
    simp only [List.foldl_cons]
    rcases List.mem_cons.1 hq with rfl | hq
    · have hpos : 0 < x.marks.length := by
        have := length_production (hps q List.mem_cons_self)
        have := hin.length_le
        omega
      have := hshort hpos hin
      omega
    · rcases hred.2 with hsame | hlt
      · rw [hsame] at ihshort ⊢
        exact ihshort ⟨q, hq, hin⟩
      · omega

theorem pass_reduces (x : Placed Mark) :
    Reduces x (pass x) ∧ ((∃ p ∈ productions, p <:+: x.marks) → (pass x).marks.length < x.marks.length) :=
  foldl_reduces productions (fun _ h => h) x

/-- enough passes leave an outline in which no production occurs -/
theorem passes_reduces {fuel : Nat} {x : Placed Mark} (h : x.marks.length < fuel) :
    (Accepts x.marks ↔ Accepts (passes fuel x).marks) ∧ ∀ p ∈ productions, ¬ p <:+: (passes fuel x).marks := by
  induction fuel generalizing x with
  | zero => omega
  | succ fuel ih =>
    obtain ⟨hred, hshort⟩ := pass_reduces x
    rw [passes]
    split
    · rename_i hsame
      refine ⟨hred.1, fun p hp hin => ?_⟩
      rw [hsame] at hin hshort
      exact Nat.lt_irrefl _ (hshort ⟨p, hp, hin⟩)
    · rename_i hne
      rcases hred.2 with heq | hlt
      · exact absurd (congrArg Placed.marks heq) hne
      · obtain ⟨hacc, hnone⟩ := ih (x := pass x) (by omega)
        exact ⟨hred.1.trans hacc, hnone⟩

/-- a formula is an atom, or a production occurs in it -/
theorem IsFormula.atom_or_production {w : List Mark} (h : IsFormula w) :
    w = [.atom] ∨ ∃ p ∈ productions, p <:+: w := by
  have hmem : [Mark.unary, .atom] ∈ productions ∧ [Mark.atom, .binary, .atom] ∈ productions ∧
      [Mark.left, .atom, .right] ∈ productions := by decide
  induction h with
  | atom => exact .inl rfl
  | @unary w _ ih =>
    rcases ih with rfl | ⟨p, hp, hin⟩
    · exact .inr ⟨_, hmem.1, List.infix_refl _⟩
    · exact .inr ⟨p, hp, hin.trans (List.suffix_cons _ _).isInfix⟩
  | @binary u v _ _ ihu ihv =>
    rcases ihu with rfl | ⟨p, hp, hin⟩
    · rcases ihv with rfl | ⟨p, hp, hin⟩
      · exact .inr ⟨_, hmem.2.1, List.infix_refl _⟩
      · exact .inr ⟨p, hp, hin.trans ⟨[.atom, .binary], [], by simp⟩⟩
    · exact .inr ⟨p, hp, hin.trans (List.prefix_append _ _).isInfix⟩
  | @bracketed w _ ih =>
    rcases ih with rfl | ⟨p, hp, hin⟩
    · exact .inr ⟨_, hmem.2.2, List.infix_refl _⟩
    · exact .inr ⟨p, hp, hin.trans ⟨[.left], [.right], by simp⟩⟩

/-- the outline of a sentence is reduced to a single atom exactly if it is a formula -/
theorem reduced_eq_atom {s : Sentence} : (reduced s).marks = [.atom] ↔ IsFormula s.outline := by
  let x : Placed Mark := ⟨s.outline, (List.range s.outline.length).map some⟩
  obtain ⟨hacc, hnone⟩ := passes_reduces (x := x) (Nat.lt_succ_self s.outline.length)
  rw [accepts_iff, accepts_iff] at hacc
  constructor
  · intro h
    exact hacc.2 (h ▸ .atom)
  · intro h
    rcases (hacc.1 h).atom_or_production with h | ⟨p, hp, hin⟩
    · exact h
    · exact absurd hin (hnone p hp)

end Outline

theorem Sentence.complaint_ne_none {x : Outline.Placed Mark} {p : List Mark} {n : Nat} {name pre post : String}
    {next : Outcome (Option Mistake)} (h : next ≠ .ok none) :
    (do
      if let some m ← complaint x p n name pre post then return some m
      next) ≠ .ok none := by
  cases hc : complaint x p n name pre post with
  | error e => simp
  | ok m =>
    cases m with
    | none => exact h
    | some m => simp [pure_ok]

/-- a complaint is made only about an outline that is not a single atom -/
theorem Sentence.firstComplaint_eq_none {x : Outline.Placed Mark} :
    firstComplaint x = .ok none ↔ x.marks = [.atom] := by
  constructor
  · intro h
    refine Decidable.byContradiction fun hne => ?_
    simp only [firstComplaint, hne, if_false] at h
    split at h
    · simp [pure_ok] at h
    split at h
    · simp [pure_ok] at h
    refine complaint_ne_none (complaint_ne_none (complaint_ne_none (complaint_ne_none ?_))) h
    simp [throw, throwThe, MonadExceptOf.throw]
  · intro h
    simp [firstComplaint, h]
    rfl

/-- **The syntax check** finds no mistake exactly in the sentences whose outlines are formulas. -/
theorem Sentence.checkSyntax_eq_none {s : Sentence} : s.checkSyntax = .ok none ↔ Outline.IsFormula s.outline :=
  firstComplaint_eq_none.trans Outline.reduced_eq_atom

end TableauTutor
