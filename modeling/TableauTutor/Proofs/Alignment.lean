import TableauTutor.Proofs.ReducedOutline

/-!
Marks and places side by side. An outline is reduced by loops that stop when there is nothing left to do; the outline
gets shorter with every replacement, so they stop. Each replacement takes as many places as marks, so every mark that
stays is still beside its place.

- `settles_iff`: reducing an outline, with no bound on the rounds, ends, and in the reduced outline.
- `StandsFor.aligned`: the marks that stand for a sentence, and their places, fit it.
-/

namespace TableauTutor.Outline

variable {p : List Mark} {ps : List (List Mark)} {before : List Mark} {x y z : Placed Mark}

/-! ## Loops without a bound -/

/-- occurrences of a pattern give way to atoms, one after another, until there are none -/
inductive RunsOut (p : List Mark) : Placed Mark → Placed Mark → Prop where
  | done {x : Placed Mark} (h : replaceOnce? p [.atom] x = none) : RunsOut p x x
  | next {x y z : Placed Mark} (h : replaceOnce? p [.atom] x = some y) (rest : RunsOut p y z) : RunsOut p x z

/-- one pattern after another runs out -/
inductive Sweeps : List (List Mark) → Placed Mark → Placed Mark → Prop where
  | nil {x : Placed Mark} : Sweeps [] x x
  | cons {p : List Mark} {ps : List (List Mark)} {x y z : Placed Mark} (h : RunsOut p x y) (rest : Sweeps ps y z) :
      Sweeps (p :: ps) x z

/-- sweeps over all productions, until the marks are the ones that were there before -/
inductive Settles : List Mark → Placed Mark → Placed Mark → Prop where
  | same {before : List Mark} {x : Placed Mark} (h : x.marks = before) : Settles before x x
  | round {before : List Mark} {x y z : Placed Mark} (h : x.marks ≠ before) (sweep : Sweeps productions x y)
      (rest : Settles x.marks y z) : Settles before x z

theorem RunsOut.unique (hy : RunsOut p x y) (hz : RunsOut p x z) : y = z := by
  induction hy with
  | done h =>
    cases hz with
    | done => rfl
    | next h' => simp [h] at h'
  | next h _ ih =>
    cases hz with
    | done h' => simp [h] at h'
    | next h' rest =>
      obtain rfl := Option.some.inj (h.symm.trans h')
      exact ih rest

theorem Sweeps.unique (hy : Sweeps ps x y) (hz : Sweeps ps x z) : y = z := by
  induction hy with
  | nil =>
    cases hz
    rfl
  | cons h _ ih =>
    cases hz with
    | cons h' rest =>
      obtain rfl := h.unique h'
      exact ih rest

theorem Settles.unique (hy : Settles before x y) (hz : Settles before x z) : y = z := by
  induction hy with
  | same h =>
    cases hz with
    | same => rfl
    | round h' => exact absurd h h'
  | round h sweep _ ih =>
    cases hz with
    | same h' => exact absurd h' h
    | round _ sweep' rest =>
      obtain rfl := sweep.unique sweep'
      exact ih rest

/-- no more replacements than marks are needed -/
theorem runsOut_replaceAll (hp : p ∈ productions) {fuel : Nat} (h : x.marks.length ≤ fuel) :
    RunsOut p x (replaceAll p [.atom] fuel x) := by
  induction fuel generalizing x with
  | zero =>
    refine .done ?_
    cases hy : replaceOnce? p [.atom] x with
    | none => rfl
    | some y =>
      have hshort := (replaceOnce?_eq_some hp hy).2
      omega
  | succ fuel ih =>
    rw [replaceAll]
    cases hy : replaceOnce? p [.atom] x with
    | none => exact .done hy
    | some y =>
      have hshort := (replaceOnce?_eq_some hp hy).2
      exact .next hy (ih (by omega))

theorem sweeps_pass (x : Placed Mark) : Sweeps productions x (pass x) := by
  have hfold (ps : List (List Mark)) (hps : ∀ p ∈ ps, p ∈ productions) (x : Placed Mark) :
      Sweeps ps x (ps.foldl (fun y p => replaceAll p [Mark.atom] y.marks.length y) x) := by
    induction ps generalizing x with
    | nil => exact .nil
    | cons p ps ih =>
      obtain ⟨hp, hps⟩ := List.forall_mem_cons.1 hps
      exact .cons (runsOut_replaceAll hp (Nat.le_refl _)) (ih hps _)
  exact hfold productions (fun _ hp => hp) x

/-- no more passes than marks change anything -/
theorem settles_passes {fuel : Nat} (hfuel : x.marks.length < fuel) (h : x.marks ≠ before) :
    Settles before x (passes fuel x) := by
  induction fuel generalizing before x with
  | zero => omega
  | succ fuel ih =>
    refine .round h (sweeps_pass x) ?_
    rw [passes]
    split
    · rename_i hsame
      exact .same hsame
    · rename_i hne
      rcases (pass_reduces x).1.2 with heq | hshort
      · exact absurd (congrArg Placed.marks heq) hne
      · exact ih (by omega) hne

/-- **Reducing ends**, and in the reduced outline. Nothing is there before the first round. -/
theorem settles_iff (s : Sentence) (r : Placed Mark) :
    Settles [] ⟨s.outline, (List.range s.outline.length).map some⟩ r ↔ r = reduced s := by
  have hends : Settles [] ⟨s.outline, (List.range s.outline.length).map some⟩ (reduced s) := by
    by_cases hnil : s.outline = []
    · rw [reduced, hnil]
      exact .same rfl
    · exact settles_passes (Nat.lt_succ_self _) hnil
  exact ⟨fun h => h.unique hends, fun h => h ▸ hends⟩

/-! ## Places -/

/-- marks and places that fit a sentence: there are as many of both, the places rise, each is that of a symbol with the
mark beside it, and only an atom can be without one -/
structure Aligned (s : Sentence) (r : Placed Mark) : Prop where
  length : r.places.length = r.marks.length
  rising : (r.places.filterMap id).Pairwise (· < ·)
  symbol : ∀ i j : Nat, r.places[i]? = some (some j) →
    ∃ (y : Symbol) (m : Mark), s[j]? = some y ∧ r.marks[i]? = some m ∧ Mark.ofSymbol? y = some m
  placed : ∀ (i : Nat) (m : Mark), r.marks[i]? = some m → m ≠ .atom → ∃ j, r.places[i]? = some (some j)

namespace StandsFor

variable {i j k : Nat} {ms : List Mark} {qs : List (Option Nat)} {s : Sentence}

theorem symbol_at (h : StandsFor i ms qs s) (hj : qs[k]? = some (some j)) :
    ∃ n y m, j = i + n ∧ s[n]? = some y ∧ ms[k]? = some m ∧ Mark.ofSymbol? y = some m := by
  induction h generalizing k with
  | nil => simp at hj
  | @symbol i m y _ _ _ hy _ ih =>
    cases k with
    | zero =>
      obtain rfl : i = j := by simpa using hj
      exact ⟨0, y, m, rfl, rfl, rfl, hy⟩
    | succ k =>
      obtain ⟨n, y, m, rfl, hs, hm, hmark⟩ := ih (by simpa using hj)
      exact ⟨n + 1, y, m, by omega, by simpa using hs, by simpa using hm, hmark⟩
  | @formula i u _ _ _ _ _ ih =>
    cases k with
    | zero => simp at hj
    | succ k =>
      obtain ⟨n, y, m, rfl, hs, hm, hmark⟩ := ih (by simpa using hj)
      refine ⟨u.length + n, y, m, by omega, ?_, by simpa using hm, hmark⟩
      rwa [List.getElem?_append_right (Nat.le_add_right _ _), Nat.add_sub_cancel_left]

theorem rising (h : StandsFor i ms qs s) : (qs.filterMap id).Pairwise (· < ·) := by
  induction h with
  | nil => exact .nil
  | symbol _ h ih =>
    refine .cons (fun j hj => ?_) ih
    obtain ⟨q, hq, rfl⟩ := List.mem_filterMap.1 hj
    obtain ⟨k, hk⟩ := List.getElem?_of_mem hq
    obtain ⟨n, _, _, hn, -⟩ := h.symbol_at hk
    omega
  | formula _ _ ih => exact ih

theorem place_of_mark (h : StandsFor i ms qs s) {m : Mark} (hm : ms[k]? = some m) (hne : m ≠ .atom) :
    ∃ j, qs[k]? = some (some j) := by
  obtain ⟨hk, rfl⟩ := List.getElem?_eq_some_iff.1 hm
  rw [← List.take_append_drop k ms, List.drop_eq_getElem_cons hk] at h
  obtain ⟨a, _, _, qs₁, qs₂, -, -, rfl, h₁, -⟩ := h.at_mark hne
  have hlen : qs₁.length = k := by
    rw [h₁.length_places, List.length_take, Nat.min_eq_left (Nat.le_of_lt hk)]
  exact ⟨i + a.length, by simp [← hlen]⟩

theorem aligned {r : Placed Mark} (h : StandsFor 0 r.marks r.places s) : Aligned s r where
  length := h.length_places
  rising := h.rising
  symbol := fun i j hj => by
    obtain ⟨n, y, m, rfl, hs, hm, hmark⟩ := h.symbol_at hj
    exact ⟨y, m, by simpa using hs, hm, hmark⟩
  placed := fun i m hm hne => h.place_of_mark hm hne

end StandsFor

/-- **Marks and places stay aligned.** For a sentence of brackets, variables and connectives, reducing its outline ends,
and in marks and places that fit the sentence. -/
theorem reduced_aligned (s : Sentence) (hs : ∀ y ∈ s, y.IsGrammatical) :
    (∀ r, Settles [] ⟨s.outline, (List.range s.outline.length).map some⟩ r ↔ r = reduced s) ∧ Aligned s (reduced s) :=
  ⟨settles_iff s, (standsFor_reduced hs).aligned⟩

/-- `(p or ~q) -> (r and`: the first pair of brackets is an atom without a place, and all that is behind it stays -/
theorem reduced_aligned_open_bracket :
    let s : Sentence := ["(", "sentvar_p", "or_or", "not_~", "sentvar_q", ")", "imp_->", "(", "sentvar_r", "and_and"]
    let r : Placed Mark := ⟨[.atom, .binary, .left, .atom, .binary], [none, some 6, some 7, some 8, some 9]⟩
    (∀ y ∈ s, y.IsGrammatical) ∧ Settles [] ⟨s.outline, (List.range s.outline.length).map some⟩ r ∧ Aligned s r := by
  intro s r
  have hs : ∀ y ∈ s, y.IsGrammatical := by decide
  have hr : r = reduced s := by decide
  obtain ⟨hends, haligned⟩ := reduced_aligned s hs
  exact ⟨hs, (hends r).2 hr, hr ▸ haligned⟩

end TableauTutor.Outline
